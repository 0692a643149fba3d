import Wpm.Archive.Validate

/-!
The files of the trust store, and what writes them.

The directory `trust` holds a file `<id>.pub` for a key that is trusted and `<id>.revoked` for one that
no longer is. `wpm_trust_add` and `wpm_trust_revoke` change it, and so does the validator of a staged
package, `wpm_validate_package_signature`, when the user answers its prompt. That validator is a second
copy of the decision of `validateSignatureBytes`; `Agree` compares the two.
-/

namespace Wpm.Signing

open Wpm.Lib.CString Wpm.Lib.Check

/-! ### The directory -/

/-- The files of the directory, by their names in lower case. -/
abbrev TrustFiles := Bytes → Option Bytes

/-- What a call finds: the data root, whether the process may write, whether the directory is there
or can be made, and `has_data_override() || elevated()`. -/
structure Host where
  dataRoot : Option Bytes
  writable : Bool
  directory : Bool
  authority : Bool

/-- `join`. -/
def join (a b : Bytes) : Option Bytes :=
  let path := a ++ (if a.getLast? = some (ch '\\') then [] else [ch '\\']) ++ b
  if path.length < pathSize then some path else none

/-- `trustdir`. -/
def trustDir (h : Host) : Option Bytes := do
  let root ← h.dataRoot
  let d ← join root (str "trust")
  guard (h.writable = true ∧ h.directory = true)
  some d

/-- The name in the directory `d` of a key's file. The path is cut off where its buffer ends. -/
def leaf (d id extension : Bytes) : Bytes := (id ++ extension).take (pathSize - 1 - (d.length + 1))

def pubLeaf (d id : Bytes) : Bytes := leaf d id (str ".pub")

def revokedLeaf (d id : Bytes) : Bytes := leaf d id (str ".revoked")

/-- Whether `GetFileAttributesA` finds a file. Without a name the path is that of the directory. -/
def TrustFiles.present (files : TrustFiles) (leaf : Bytes) : Bool :=
  leaf = [] || (files (fold leaf)).isSome

/-- The store as `validateSignatureBytes` looks at it. Its paths are never cut off. -/
def storeOf (h : Host) (files : TrustFiles) : TrustStore where
  dataRoot := h.dataRoot
  pub id := files (fold (id ++ str ".pub"))
  revoked id := (files (fold (id ++ str ".revoked"))).isSome
  authority := h.authority

/-! ### The operations -/

section Operations

variable (S : Sodium) (bin2base64 : Bytes → Bytes)

/-- What becomes of a file that `write_public` writes. -/
inductive Written
  | notOpened
  | broken (left : Bytes)
  | whole

def publicText (key : Bytes) : Bytes :=
  str "wpm-public-key-v1\nalgorithm=ed25519\npublic-key=" ++ bin2base64 key ++ str "\n"

/-- `write_public`. -/
def writePublic (files : TrustFiles) (leaf key : Bytes) (w : Written) : Bool × TrustFiles :=
  if files.present leaf then (false, files)
  else match w with
    | .notOpened => (false, files)
    | .broken left => (false, Function.update files (fold leaf) (some left))
    | .whole => (true, Function.update files (fold leaf) (some (publicText bin2base64 key)))

/-- The key that `wpm_trust_add` is given, its id and the directory. -/
def addTarget (h : Host) (file : Option Bytes) : Option (Bytes × Bytes × Bytes) := do
  guard (h.writable = true ∧ h.authority = true)
  let file ← file
  let pub ← loadPublic S file
  let d ← trustDir h
  some (pub, keyId S pub, d)

/-- `wpm_trust_add`, of a public key file if it can be read. -/
def trustAdd (h : Host) (files : TrustFiles) (file : Option Bytes) (w : Written) :
    Bool × TrustFiles :=
  match addTarget S h file with
  | none => (false, files)
  | some (pub, id, d) =>
    if files.present (revokedLeaf d id) then (false, files)
    else if files.present (pubLeaf d id) then (true, files)
    else writePublic bin2base64 files (pubLeaf d id) pub w

/-- `MoveFileExA` with `MOVEFILE_REPLACE_EXISTING`, when it succeeds. -/
def TrustFiles.move (files : TrustFiles) (p r : Bytes) : TrustFiles :=
  match files (fold p) with
  | none => files
  | some content => Function.update (Function.update files (fold p) none) (fold r) (some content)

/-- The directory, when `wpm_trust_revoke` finds a key there. -/
def revokeTarget (h : Host) (files : TrustFiles) (id : Bytes) : Option Bytes := do
  guard (h.writable = true ∧ h.authority = true ∧ id.length = 64)
  let d ← trustDir h
  guard (files.present (pubLeaf d id) = true)
  some d

/-- `wpm_trust_revoke`; `moved` is the outcome of the move. -/
def trustRevoke (h : Host) (files : TrustFiles) (id : Bytes) (moved : Bool) : Bool × TrustFiles :=
  match revokeTarget h files id with
  | none => (false, files)
  | some d => if moved then (true, files.move (pubLeaf d id) (revokedLeaf d id)) else (false, files)

/-- A package in its staging directory: whether `.wpm\signature.json` is there, and what can be read
of it and of `.wpm\index.csv`. -/
structure StagedPackage where
  path : Bytes
  signed : Bool
  signature : Option Bytes
  index : Option Bytes

/-- The key in the file of that name, if the file is there, and else the declared one. -/
def keyAt (files : TrustFiles) (leaf declared : Bytes) : Option Bytes :=
  if files.present leaf then (files (fold leaf)).bind (loadPublic S) else some declared

/-- The tests that `wpm_validate_package_signature` makes of a signed package before it asks the
user: the key id, the key, the directory, and whether there is a file for the key. -/
def validateStaged (h : Host) (files : TrustFiles) (p : StagedPackage) :
    Option (Bytes × Bytes × Bytes × Bool) := do
  let text ← p.signature
  let s ← readSignature (cstr text)
  let _ ← join p.path (str ".wpm\\index.csv")
  let index ← p.index
  let d ← trustDir h
  guard (files.present (revokedLeaf d s.id) = false)
  let pub ← decodeExact S publicKeyBytes s.publicText
  let pub ← keyAt S files (pubLeaf d s.id) pub
  guard (keyId S pub = s.id)
  let sig ← decodeExact S signBytes s.signatureText
  guard (S.signVerifyDetached sig index pub = true)
  some (s.id, pub, d, files.present (pubLeaf d s.id))

/-- Whether the line that the user answers is a yes. -/
def isYes (answer : Option Bytes) : Bool := answer.any fun a => lower (cur a) = ch 'y'

/-- `wpm_validate_package_signature`: the signing key, if the package is accepted. -/
def validatePackageSignature (h : Host) (files : TrustFiles) (p : StagedPackage) (allow : Bool)
    (answer : Option Bytes) (w : Written) : Option Bytes × TrustFiles :=
  if join p.path (str ".wpm\\signature.json") = none then (none, files)
  else if p.signed = false then
    (if allow = true ∧ h.authority = true then some (str "unsigned") else none, files)
  else match validateStaged S h files p with
    | none => (none, files)
    | some (id, pub, d, known) =>
      if known then (some id, files)
      else if isYes answer = false ∨ h.authority = false then (none, files)
      else
        let (written, files) := writePublic bin2base64 files (pubLeaf d id) pub w
        (if written then some id else none, files)

end Operations

/-! ### The two validators -/

section Validators

variable (S : Sodium) (bin2base64 : Bytes → Bytes) {h : Host} {files : TrustFiles} {p : StagedPackage}
  {d text index : Bytes} {signature : Option Bytes} {s : Signature} {key declared : Bytes}

/-- **A signature under a key of the store**: `key` stands in the file of the id that the document
gives, and is not revoked; `declared` is the key that the document gives. -/
structure Vouched (h : Host) (files : TrustFiles) (text index : Bytes) (s : Signature)
    (key declared : Bytes) : Prop where
  read : readSignature text = some s
  stored : ∃ d, trustDir h = some d ∧ files.present (revokedLeaf d s.id) = false ∧
    files.present (pubLeaf d s.id) = true ∧
    (files (fold (pubLeaf d s.id))).bind (loadPublic S) = some key
  id_eq : keyId S key = s.id
  declares : decodeExact S publicKeyBytes s.publicText = some declared
  verified : ∃ sig, decodeExact S signBytes s.signatureText = some sig ∧
    S.signVerifyDetached sig index key = true

/-- The paths of a key's files fit their buffers. -/
def Room (h : Host) (id : Bytes) : Prop := ∀ root ∈ h.dataRoot,
  root.length + (str "\\trust\\").length + id.length + (str ".revoked").length < pathSize

/-- The stage holds the signature, or none, and the index. -/
structure StagedPackage.Holds (p : StagedPackage) (signature : Option Bytes) (index : Bytes) :
    Prop where
  signaturePath : (join p.path (str ".wpm\\signature.json")).isSome
  indexPath : (join p.path (str ".wpm\\index.csv")).isSome
  signed : p.signed = signature.isSome
  signature : p.signature = signature
  index : p.index = some index

/-- The key that the document declares has a file in the store, of a trusted key or of a revoked
one. -/
def Declared (h : Host) (files : TrustFiles) (text : Bytes) : Prop := ∀ s d,
  readSignature text = some s → trustDir h = some d →
    files.present (pubLeaf d s.id) = true ∨ files.present (revokedLeaf d s.id) = true

/-- The validators both accept, under the same key id, or both reject. -/
def Agree (h : Host) (files : TrustFiles) (p : StagedPackage) (signature : Option Bytes)
    (index : Bytes) (allow : Bool) (answer : Option Bytes) (w : Written) : Prop :=
  (validateSignatureBytes S (storeOf h files) signature (some index) allow).toOption =
    (validatePackageSignature S bin2base64 h files p allow answer w).1

lemma length_of_readSignature (h : readSignature text = some s) : s.id.length = 64 := by
  simp only [readSignature, option_bind_eq_some, Option.guard_eq_some', exists_const,
    Option.some.injEq] at h
  obtain ⟨-, -, -, -, -, -, -, id, -, -, -, -, -, hid, rfl⟩ := h
  exact hid

lemma leaf_eq {d id extension : Bytes} (h : d.length + 1 + id.length + extension.length < pathSize) :
    leaf d id extension = id ++ extension := by
  refine List.take_of_length_le ?_
  rw [List.length_append]
  omega

lemma length_trustDir {root : Bytes} (hroot : h.dataRoot = some root) (hd : trustDir h = some d) :
    d.length + 1 ≤ root.length + (str "\\trust\\").length := by
  simp only [trustDir, hroot, option_bind_eq_some, Option.some.injEq] at hd
  obtain ⟨_, rfl, d', hjoin, -, -, rfl⟩ := hd
  simp only [join, Option.ite_none_right_eq_some, Option.some.injEq] at hjoin
  obtain ⟨-, rfl⟩ := hjoin
  have htrust : (str "trust").length = 5 ∧ (str "\\trust\\").length = 7 := by decide
  rw [List.length_append, List.length_append, htrust.1, htrust.2]
  split_ifs <;> simp

lemma spanOf_bin2hex (bytes : Bytes) :
    spanOf (str "0123456789abcdef") (bin2hex bytes) = bin2hex bytes := by
  have hdigits : ∀ b : Fin 256, hexDigit (UInt8.ofFin b / 16) ∈ str "0123456789abcdef" ∧
      hexDigit (UInt8.ofFin b % 16) ∈ str "0123456789abcdef" := by decide +kernel
  refine List.takeWhile_eq_self_iff.2 fun c hc => decide_eq_true ?_
  obtain ⟨b, -, hmem⟩ := List.mem_flatMap.1 hc
  rw [List.mem_cons, List.mem_singleton] at hmem
  rcases hmem with rfl | rfl
  · exact (hdigits b.toFin).1
  · exact (hdigits b.toFin).2

/-- Where there is room for the paths, there is the directory and the names are whole. -/
lemma Room.leaves {root id : Bytes} (hroom : Room h id) (hid : id.length = 64)
    (hroot : h.dataRoot = some root) (hw : h.writable = true) (hdir : h.directory = true) :
    ∃ d, trustDir h = some d ∧ pubLeaf d id = id ++ str ".pub" ∧
      revokedLeaf d id = id ++ str ".revoked" := by
  have hfit := hroom root hroot
  have hlen : (str "trust").length = 5 ∧ (str "\\trust\\").length = 7 ∧ (str ".pub").length = 4 ∧
      (str ".revoked").length = 8 := by decide
  obtain ⟨d, hjoin⟩ : ∃ d, join root (str "trust") = some d := by
    refine ⟨_, if_pos ?_⟩
    rw [List.length_append, List.length_append]
    split_ifs <;> simp <;> omega
  have hd : trustDir h = some d := by
    simp [trustDir, hroot, hjoin, hw, hdir]
  have hle := length_trustDir hroot hd
  exact ⟨d, hd, leaf_eq (by omega), leaf_eq (by omega)⟩

/-- **What the validator of bytes accepts.** -/
lemma validateSigned_iff (hw : h.writable = true) (hdir : h.directory = true) {id : Bytes} :
    validateSigned S (storeOf h files) text (some index) = some id ↔
      ∃ s key, Vouched S h files text index s key key ∧ Room h s.id ∧ h.dataRoot.isSome ∧
        s.id = id := by
  have hpresent : ∀ {name : Bytes}, name ≠ [] →
      files.present name = (files (fold name)).isSome := fun hne => by
    rw [TrustFiles.present, decide_eq_false hne, Bool.false_or]
  have hne : ∀ id extension : Bytes, extension ≠ [] → id ++ extension ≠ [] :=
    fun _ _ h => List.append_ne_nil_of_right_ne_nil _ h
  have hlen : (str ".pub").length = 4 ∧ (str ".revoked").length = 8 := by decide
  constructor
  · intro hv
    simp only [validateSigned, option_bind_eq_some, Option.guard_eq_some', exists_const,
      Option.some.injEq] at hv
    obtain ⟨_, rfl, s, hread, -, root, hroot, -, hfit, hrev, file, hfile, expected, hload, key,
      hkey, rfl, hid, sig, hsig, hverify, rfl⟩ := hv
    have hroom : Room h s.id := fun root' hroot' => by
      obtain rfl := Option.some.inj (hroot.symm.trans hroot')
      exact hfit
    obtain ⟨d, hd, hpub, hrevoked⟩ :=
      hroom.leaves (length_of_readSignature hread) hroot hw hdir
    refine ⟨s, key, ⟨hread, ⟨d, hd, ?_, ?_, ?_⟩, hid.symm, hkey, sig, hsig, hverify⟩, hroom,
      Option.isSome_iff_exists.2 ⟨root, hroot⟩, rfl⟩
    · rw [hrevoked, hpresent (hne _ _ (by decide))]
      exact hrev
    · rw [hpub, hpresent (hne _ _ (by decide))]
      exact Option.isSome_iff_exists.2 ⟨file, hfile⟩
    · rw [hpub]
      exact Option.bind_eq_some_iff.2 ⟨file, hfile, hload⟩
  · rintro ⟨s, key, ⟨hread, ⟨d, hd, hrev, hpub, hload⟩, hid, hdecl, sig, hsig, hverify⟩, hroom, hsome,
      rfl⟩
    obtain ⟨root, hroot⟩ := Option.isSome_iff_exists.1 hsome
    have hlength := length_of_readSignature hread
    obtain ⟨d', hd', hpubLeaf, hrevokedLeaf⟩ := hroom.leaves hlength hroot hw hdir
    obtain rfl := Option.some.inj (hd.symm.trans hd')
    rw [hpubLeaf] at hload
    rw [hrevokedLeaf, hpresent (hne _ _ (by decide))] at hrev
    obtain ⟨file, hfile, hload⟩ := Option.bind_eq_some_iff.1 hload
    have hfit := hroom root hroot
    have hhex : (spanOf (str "0123456789abcdef") s.id).length = 64 := by
      rw [← hid, keyId, spanOf_bin2hex, ← keyId, hid, hlength]
    simp only [validateSigned, option_bind_eq_some, Option.guard_eq_some', exists_const,
      Option.some.injEq]
    exact ⟨index, rfl, s, hread, hhex, root, hroot, by omega, hfit, hrev, file, hfile, key, hload,
      key, hdecl, rfl, hid.symm, sig, hsig, hverify, rfl⟩

/-- There is a file for the key, once the document declares a key of the store. -/
lemma validateStaged_known (hzero : (0 : UInt8) ∉ text) (hp : p.Holds (some text) index)
    (hdecl : Declared h files text) {id pub : Bytes} {known : Bool}
    (hv : validateStaged S h files p = some (id, pub, d, known)) : known = true := by
  obtain ⟨path, hpath⟩ := Option.isSome_iff_exists.1 hp.indexPath
  simp only [validateStaged, hp.signature, hp.index, hpath, cstr_eq_self hzero, option_bind_eq_some,
    Option.guard_eq_some', exists_const, Option.some.injEq, exists_eq_left', Prod.mk.injEq] at hv
  obtain ⟨s, hread, d', hd, hrev, -, -, -, -, -, -, -, -, -, -, -, rfl⟩ := hv
  rcases hdecl s d' hread hd with hpub | hrev'
  · exact hpub
  · exact absurd (hrev.symm.trans hrev') (by decide)

/-- **What the validator of a stage accepts**, of a document that declares a key of the store. -/
lemma validateStaged_iff (hzero : (0 : UInt8) ∉ text) (hp : p.Holds (some text) index)
    (hdecl : Declared h files text) {id : Bytes} :
    (∃ pub d known, validateStaged S h files p = some (id, pub, d, known)) ↔
      ∃ s key declared, Vouched S h files text index s key declared ∧ s.id = id := by
  obtain ⟨path, hpath⟩ := Option.isSome_iff_exists.1 hp.indexPath
  constructor
  · rintro ⟨pub, d, known, hv⟩
    have hknown := validateStaged_known S hzero hp hdecl hv
    simp only [validateStaged, hp.signature, hp.index, hpath, cstr_eq_self hzero,
      option_bind_eq_some, Option.guard_eq_some', exists_const, Option.some.injEq, exists_eq_left',
      Prod.mk.injEq] at hv
    obtain ⟨s, hread, d', hd, hrev, declared, hdeclared, key, hkey, hid, sig, hsig, hverify, rfl, -,
      -, hpub⟩ := hv
    rw [hknown] at hpub
    rw [keyAt, if_pos hpub] at hkey
    exact ⟨s, key, declared, ⟨hread, ⟨d', hd, hrev, hpub, hkey⟩, hid, hdeclared, sig, hsig, hverify⟩,
      rfl⟩
  · rintro ⟨s, key, declared, ⟨hread, ⟨d, hd, hrev, hpub, hkey⟩, hid, hdeclared, sig, hsig, hverify⟩,
      rfl⟩
    simp only [validateStaged, hp.signature, hp.index, hpath, cstr_eq_self hzero,
      option_bind_eq_some, Option.guard_eq_some', exists_const, Option.some.injEq, exists_eq_left',
      Prod.mk.injEq]
    exact ⟨key, d, true, s, hread, d, hd, hrev, declared, hdeclared, key, (if_pos hpub).trans hkey,
      hid, sig, hsig, hverify, rfl, rfl, rfl, hpub⟩

/-- The document and the store determine the keys. -/
lemma Vouched.unique {s' : Signature} {key' declared' : Bytes}
    (h₁ : Vouched S h files text index s key declared)
    (h₂ : Vouched S h files text index s' key' declared') :
    s' = s ∧ key' = key ∧ declared' = declared := by
  obtain rfl := Option.some.inj (h₂.read.symm.trans h₁.read)
  obtain ⟨d, hd, -, -, hkey⟩ := h₁.stored
  obtain ⟨d', hd', -, -, hkey'⟩ := h₂.stored
  obtain rfl := Option.some.inj (hd.symm.trans hd')
  exact ⟨rfl, Option.some.inj (hkey'.symm.trans hkey),
    Option.some.inj (h₂.declares.symm.trans h₁.declares)⟩

lemma Vouched.dataRoot_isSome (hv : Vouched S h files text index s key declared) :
    h.dataRoot.isSome := by
  obtain ⟨d, hd, -⟩ := hv.stored
  simp only [trustDir, option_bind_eq_some] at hd
  obtain ⟨root, hroot, -⟩ := hd
  exact Option.isSome_iff_exists.2 ⟨root, hroot⟩

/-- Of a document that declares a key of the store the user is asked nothing. -/
lemma validatePackageSignature_iff (hzero : (0 : UInt8) ∉ text) (hp : p.Holds (some text) index)
    (hdecl : Declared h files text) {allow : Bool} {answer : Option Bytes} {w : Written} {id : Bytes} :
    (validatePackageSignature S bin2base64 h files p allow answer w).1 = some id ↔
      ∃ s key declared, Vouched S h files text index s key declared ∧ s.id = id := by
  rw [← validateStaged_iff S hzero hp hdecl]
  obtain ⟨path, hpath⟩ := Option.isSome_iff_exists.1 hp.signaturePath
  have hpathne : ¬join p.path (str ".wpm\\signature.json") = none := by simp [hpath]
  have hsigned : ¬p.signed = false := by simp [hp.signed]
  rw [validatePackageSignature, if_neg hpathne, if_neg hsigned]
  cases hv : validateStaged S h files p with
  | none => simp
  | some r =>
    obtain ⟨id', pub, d, known⟩ := r
    obtain rfl := validateStaged_known S hzero hp hdecl hv
    simp

/-- **The two validators agree if and only if** a signature by the trusted key comes with that key in
the document, and the names of the key's files are not cut off. -/
theorem agree_iff (hw : h.writable = true) (hdir : h.directory = true)
    (hzero : ∀ text ∈ signature, (0 : UInt8) ∉ text) (hp : p.Holds signature index)
    (hdecl : ∀ text ∈ signature, Declared h files text) (allow : Bool) (answer : Option Bytes)
    (w : Written) :
    Agree S bin2base64 h files p signature index allow answer w ↔
      ∀ text ∈ signature, ∀ s key declared, Vouched S h files text index s key declared →
        declared = key ∧ Room h s.id := by
  cases signature with
  | none =>
    obtain ⟨path, hpath⟩ := Option.isSome_iff_exists.1 hp.signaturePath
    have hpathne : ¬join p.path (str ".wpm\\signature.json") = none := by simp [hpath]
    refine iff_of_true ?_ (by simp)
    rw [Agree, validatePackageSignature, if_neg hpathne, if_pos (by rw [hp.signed]; rfl)]
    by_cases hallow : allow = true ∧ h.authority = true
    · rw [if_pos hallow]
      have hrequire : (require (allow = true ∧ (storeOf h files).authority = true)
          [str "Error: unsigned package requires --allow-unsigned and an authorized data root.\n"] :
            Except (List Bytes) Unit) = .ok () := if_pos hallow
      rw [validateSignatureBytes, hrequire]
      rfl
    · rw [if_neg hallow]
      have hrequire : (require (allow = true ∧ (storeOf h files).authority = true)
          [str "Error: unsigned package requires --allow-unsigned and an authorized data root.\n"] :
            Except (List Bytes) Unit) = .error _ := if_neg hallow
      rw [validateSignatureBytes, hrequire]
      rfl
  | some text =>
    have hbytes : ∀ id, (validateSignatureBytes S (storeOf h files) (some text) (some index)
        allow).toOption = some id ↔ validateSigned S (storeOf h files) text (some index) = some id := by
      intro id
      rw [validateSignatureBytes]
      cases validateSigned S (storeOf h files) text (some index) <;> simp [orElse, Except.toOption]
    have hstage := fun {id : Bytes} => @validatePackageSignature_iff S bin2base64 h files p text index
      (hzero text rfl) hp (hdecl text rfl) allow answer w id
    constructor
    · intro hagree text' htext s key declared hv
      obtain rfl := Option.some.inj htext
      have hid : validateSigned S (storeOf h files) text (some index) = some s.id := by
        rw [← hbytes, hagree]
        exact hstage.2 ⟨s, key, declared, hv, rfl⟩
      obtain ⟨s', key', hv', hroom, -, -⟩ := (validateSigned_iff S hw hdir).1 hid
      obtain ⟨rfl, rfl, rfl⟩ := hv.unique S hv'
      exact ⟨rfl, hroom⟩
    · intro hall
      refine Option.ext fun id => ?_
      rw [hbytes, validateSigned_iff S hw hdir, hstage]
      constructor
      · rintro ⟨s, key, hv, -, -, hid⟩
        exact ⟨s, key, key, hv, hid⟩
      · rintro ⟨s, key, declared, hv, hid⟩
        obtain ⟨rfl, hroom⟩ := hall text rfl s key declared hv
        exact ⟨s, declared, hv, hroom, hv.dataRoot_isSome S, hid⟩

end Validators

/-! ### A trusted key beside another one -/

section Sample

open Wpm.Archive (sampleSodium sampleKeyId sampleKeyText sampleSignatureText sampleSignatureFile
  sampleIndex)

def sampleHost : Host := ⟨some (str "C:\\ProgramData\\wpm"), true, true, false⟩

def samplePublicFile : Bytes :=
  str "wpm-public-key-v1\nalgorithm=ed25519\npublic-key=" ++ sampleKeyText ++ str "\n"

/-- The key of the sample is trusted. -/
def sampleFiles : TrustFiles := fun name =>
  if name = sampleKeyId ++ str ".pub" then some samplePublicFile else none

def stageOf (signature : Bytes) : StagedPackage where
  path := str "C:\\ProgramData\\wpm\\temp\\tool"
  signed := true
  signature := some signature
  index := some sampleIndex

lemma readSignature_eq {text id publicText signatureText : Bytes}
    (h : (readSignature text).map (fun s => (s.id, s.publicText, s.signatureText)) =
      some (id, publicText, signatureText)) :
    readSignature text = some ⟨id, publicText, signatureText⟩ := by
  obtain ⟨⟨id', publicText', signatureText'⟩, hs, hpair⟩ := Option.map_eq_some_iff.1 h
  simp only [Prod.mk.injEq] at hpair
  obtain ⟨rfl, rfl, rfl⟩ := hpair
  exact hs

lemma read_sampleSignatureFile : readSignature sampleSignatureFile =
    some ⟨sampleKeyId, sampleKeyText, sampleSignatureText⟩ := readSignature_eq (by decide +kernel)

/-- A document with the sample's key id declares a key of the store. -/
lemma declared_of_read {text publicText signatureText : Bytes}
    (h : readSignature text = some ⟨sampleKeyId, publicText, signatureText⟩) :
    Declared sampleHost sampleFiles text := by
  intro s d hs hd
  obtain rfl := Option.some.inj (h.symm.trans hs)
  have hdir : trustDir sampleHost = some (str "C:\\ProgramData\\wpm\\trust") := by decide
  obtain rfl := Option.some.inj (hdir.symm.trans hd)
  have hpresent : sampleFiles.present
      (pubLeaf (str "C:\\ProgramData\\wpm\\trust") sampleKeyId) = true := by decide
  exact .inl hpresent

lemma holds_stageOf (signature : Bytes) : (stageOf signature).Holds (some signature) sampleIndex := by
  have hpaths :
      (join (str "C:\\ProgramData\\wpm\\temp\\tool") (str ".wpm\\signature.json")).isSome = true ∧
      (join (str "C:\\ProgramData\\wpm\\temp\\tool") (str ".wpm\\index.csv")).isSome = true := by
    decide
  exact ⟨hpaths.1, hpaths.2, rfl, rfl, rfl⟩

theorem agree_iff_sample :
    Declared sampleHost sampleFiles sampleSignatureFile ∧
    (Agree sampleSodium (fun _ => sampleKeyText) sampleHost sampleFiles
        (stageOf sampleSignatureFile) (some sampleSignatureFile) sampleIndex false none .whole ↔
      ∀ text ∈ some sampleSignatureFile, ∀ s key declared,
        Vouched sampleSodium sampleHost sampleFiles text sampleIndex s key declared →
          declared = key ∧ Room sampleHost s.id) := by
  have hdecl := declared_of_read read_sampleSignatureFile
  have hzero : (0 : UInt8) ∉ sampleSignatureFile := by decide +kernel
  exact ⟨hdecl, agree_iff sampleSodium (fun _ => sampleKeyText) rfl rfl
    (fun text ht => Option.some.inj ht ▸ hzero) (holds_stageOf sampleSignatureFile)
    (fun text ht => Option.some.inj ht ▸ hdecl) false none .whole⟩

def zeroKeyText : Bytes := str "AAAAAAAAAAAAAAAAAAAAAAAAAAAAAAAAAAAAAAAAAAA="

/-- The sample's library, which can decode one more key. -/
def zeroSodium : Sodium where
  generichash := sampleSodium.generichash
  length_generichash := sampleSodium.length_generichash
  base642bin size text :=
    if text = zeroKeyText then some (List.replicate 32 0) else sampleSodium.base642bin size text
  signVerifyDetached := sampleSodium.signVerifyDetached

/-- The signature of the sample beside the key of 32 zero bytes. -/
def zeroKeyFile : Bytes :=
  str "\x7b\n  \"version\": 1,\n  \"algorithm\": \"ed25519\",\n  \"key_id\": \"" ++ sampleKeyId ++
    str "\",\n  \"public_key\": \"" ++ zeroKeyText ++ str "\",\n  \"signature\": \"" ++
    sampleSignatureText ++ str "\"\n\x7d\n"

/-- Only the validator of a stage accepts it. -/
theorem validators_disagree :
    ¬∀ (S : Sodium) (bin2base64 : Bytes → Bytes) (h : Host) (files : TrustFiles)
      (p : StagedPackage) (signature : Option Bytes) (index : Bytes) (allow : Bool)
      (answer : Option Bytes) (w : Written), h.writable = true → h.directory = true →
      (∀ text ∈ signature, (0 : UInt8) ∉ text) → p.Holds signature index →
      (∀ text ∈ signature, Declared h files text) →
      Agree S bin2base64 h files p signature index allow answer w := by
  intro hall
  have hread : readSignature zeroKeyFile =
      some ⟨sampleKeyId, zeroKeyText, sampleSignatureText⟩ := readSignature_eq (by decide +kernel)
  have hzero : (0 : UInt8) ∉ zeroKeyFile := by decide +kernel
  have hagree : Agree zeroSodium (fun _ => sampleKeyText) sampleHost sampleFiles
      (stageOf zeroKeyFile) (some zeroKeyFile) sampleIndex false none .whole :=
    hall _ _ _ _ _ _ _ _ _ _ rfl rfl (fun text ht => Option.some.inj ht ▸ hzero)
      (holds_stageOf zeroKeyFile) fun text ht => Option.some.inj ht ▸ declared_of_read hread
  have hbytes : (validateSignatureBytes zeroSodium (storeOf sampleHost sampleFiles)
      (some zeroKeyFile) (some sampleIndex) false).toOption = none := by decide +kernel
  have hstage : (validatePackageSignature zeroSodium (fun _ => sampleKeyText) sampleHost
      sampleFiles (stageOf zeroKeyFile) false none .whole).1 = some sampleKeyId := by decide +kernel
  exact absurd (hbytes.symm.trans (hagree.trans hstage)) (by simp)

end Sample

end Wpm.Signing
