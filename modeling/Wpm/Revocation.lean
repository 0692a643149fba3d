import Wpm.Trust

/-!
The trust store over whole histories.

A key is trusted by the one of its two files and revoked by the other, and three paths write these
files. `Change` is all that a call can do to them; from it follow that no key ever has both, and that
the file of a revoked key stays.
-/

namespace Wpm.Signing

open Wpm.Lib.CString Wpm.Lib.Check

/-! ### Histories -/

/-- What a call finds, beside the data root: whether the process may write, whether the directory
is there or can be made, and `has_data_override() || elevated()`. -/
structure Rights where
  writable : Bool
  directory : Bool
  authority : Bool

def Rights.host (r : Rights) (root : Option Bytes) : Host :=
  ⟨root, r.writable, r.directory, r.authority⟩

/-- A call, with the answers it gets from the user and from the disk. -/
inductive TrustCall
  | add (file : Option Bytes) (w : Written)
  | revoke (id : Bytes) (moved : Bool)
  | validateStage (p : StagedPackage) (allow : Bool) (answer : Option Bytes) (w : Written)
  | validateBytes (signature index : Option Bytes) (allow : Bool)

inductive TrustAnswer
  | failed
  | done
  | accepted (id : Bytes)
  deriving DecidableEq

def TrustAnswer.ofBool (b : Bool) : TrustAnswer := if b then .done else .failed

def TrustAnswer.ofOption (id : Option Bytes) : TrustAnswer := id.elim .failed .accepted

section Histories

variable (S : Sodium) (bin2base64 : Bytes → Bytes) (root : Option Bytes)

def TrustCall.run (r : Rights) (files : TrustFiles) : TrustCall → TrustAnswer × TrustFiles
  | .add file w =>
    let (done, files) := trustAdd S bin2base64 (r.host root) files file w
    (.ofBool done, files)
  | .revoke id moved =>
    let (done, files) := trustRevoke (r.host root) files id moved
    (.ofBool done, files)
  | .validateStage p allow answer w =>
    let (id, files) := validatePackageSignature S bin2base64 (r.host root) files p allow answer w
    (.ofOption id, files)
  | .validateBytes signature index allow =>
    (.ofOption (validateSignatureBytes S (storeOf (r.host root) files) signature index
      allow).toOption, files)

/-- The store after some calls. -/
def filesAfter (files : TrustFiles) (calls : List (Rights × TrustCall)) : TrustFiles :=
  calls.foldl (fun files c => (c.2.run S bin2base64 root c.1 files).2) files

end Histories

/-- The path of the directory. -/
def trustPath (root : Option Bytes) : Option Bytes := root.bind fun root => join root (str "trust")

/-- Both files of a key are there. -/
def HasBoth (d : Bytes) (files : TrustFiles) (id : Bytes) : Prop :=
  pubLeaf d id ≠ revokedLeaf d id ∧ files.present (pubLeaf d id) = true ∧
    files.present (revokedLeaf d id) = true

def Trusted (d : Bytes) (files : TrustFiles) (id : Bytes) : Prop :=
  files.present (pubLeaf d id) = true ∧ files.present (revokedLeaf d id) = false

/-! ### The names -/

section Names

variable {d id id' : Bytes}

lemma fold_take (n : ℕ) (s : Bytes) : fold (s.take n) = (fold s).take n := List.map_take ..

/-- The name of a file has the same letters whatever their case in the id. -/
lemma fold_leaf (d id extension : Bytes) :
    fold (leaf d id extension) = leaf d (fold id) (fold extension) := by
  rw [leaf, fold_take, fold_append, leaf]

/-- **Either the names of all keys are told apart**, and those of their two files, **or a key has one
name only**: the path is cut off before the extension. -/
lemma leaf_cases (d : Bytes) :
    (∀ id, id.length = 64 → pubLeaf d id = revokedLeaf d id) ∨
      ∀ id id', id.length = 64 → id'.length = 64 →
        fold (pubLeaf d id) ≠ fold (revokedLeaf d id') ∧
        (fold (pubLeaf d id) = fold (pubLeaf d id') → fold id = fold id') ∧
        (fold (revokedLeaf d id) = fold (revokedLeaf d id') → fold id = fold id') := by
  have hsplit : str ".pub" = [ch '.'] ++ str "pub" ∧ str ".revoked" = [ch '.'] ++ str "revoked" := by
    decide
  by_cases hn : pathSize - 1 - (d.length + 1) ≤ 65
  · refine .inl fun id hid => ?_
    have hcut : ∀ rest : Bytes, (id ++ ([ch '.'] ++ rest)).take (pathSize - 1 - (d.length + 1)) =
        (id ++ [ch '.']).take (pathSize - 1 - (d.length + 1)) := fun rest => by
      rw [← List.append_assoc, List.take_append_of_le_length]
      rw [List.length_append, hid]
      exact hn
    rw [pubLeaf, revokedLeaf, leaf, leaf, hsplit.1, hsplit.2, hcut, hcut]
  · right
    intro id id' hid hid'
    have hid_eq : ∀ {e e' : Bytes}, fold (leaf d id e) = fold (leaf d id' e') → fold id = fold id' := by
      intro e e' h
      rw [leaf, leaf, fold_take, fold_take, fold_append, fold_append] at h
      have h64 := congrArg (List.take 64) h
      rw [List.take_take, List.take_take, Nat.min_eq_left (by omega),
        List.take_left' ((length_fold id).trans hid),
        List.take_left' ((length_fold id').trans hid')] at h64
      exact h64
    refine ⟨fun h => ?_, hid_eq, hid_eq⟩
    have h65 := congrArg (fun s : Bytes => s[65]?) h
    have hchar : ∀ {id e : Bytes}, id.length = 64 →
        (fold (leaf d id e))[65]? = (fold e)[1]? := fun hid => by
      rw [leaf, fold_take, fold_append, List.getElem?_take, if_pos (by omega),
        List.getElem?_append_right (by rw [length_fold, hid]; omega), length_fold, hid]
    simp only [pubLeaf, revokedLeaf, hchar hid, hchar hid'] at h65
    exact absurd h65 (by decide)

end Names

/-! ### What a call can do -/

/-- **What a call can do to the files**: nothing, or add the file of a key that is neither trusted nor
revoked, or move the file of a trusted key. -/
inductive Change (d : Bytes) (files : TrustFiles) : TrustFiles → Prop
  | same : Change d files files
  | added {id : Bytes} (content : Bytes) (hid : id.length = 64)
    (hrevoked : files.present (revokedLeaf d id) = false)
    (hpub : files.present (pubLeaf d id) = false) :
    Change d files (Function.update files (fold (pubLeaf d id)) (some content))
  | moved {id : Bytes} (hid : id.length = 64) :
    Change d files (files.move (pubLeaf d id) (revokedLeaf d id))

section Change

variable (S : Sodium) (bin2base64 : Bytes → Bytes) {root : Option Bytes} {r : Rights}
  {files files' : TrustFiles} {d id : Bytes}

lemma trustPath_of_trustDir (h : trustDir (r.host root) = some d) : trustPath root = some d := by
  simp only [trustDir, option_bind_eq_some, Option.guard_eq_some', exists_const,
    Option.some.injEq] at h
  obtain ⟨root', hroot, d', hjoin, -, rfl⟩ := h
  rw [trustPath, show root = some root' from hroot]
  exact hjoin

lemma writePublic_change (key : Bytes) (w : Written) (hid : id.length = 64)
    (hrevoked : files.present (revokedLeaf d id) = false) :
    Change d files (writePublic bin2base64 files (pubLeaf d id) key w).2 := by
  unfold writePublic
  split_ifs with hpub
  · exact .same
  · rw [Bool.not_eq_true] at hpub
    cases w with
    | notOpened => exact .same
    | broken left => exact .added left hid hrevoked hpub
    | whole => exact .added _ hid hrevoked hpub

lemma trustAdd_change (hd : trustPath root = some d) (file : Option Bytes) (w : Written) :
    Change d files (trustAdd S bin2base64 (r.host root) files file w).2 := by
  unfold trustAdd
  cases ht : addTarget S (r.host root) file with
  | none => exact .same
  | some target =>
    obtain ⟨pub, id, d'⟩ := target
    simp only [addTarget, option_bind_eq_some, Option.guard_eq_some', exists_const,
      Option.some.injEq, Prod.mk.injEq] at ht
    obtain ⟨-, file, -, pub, -, d', hd', rfl, rfl, rfl⟩ := ht
    obtain rfl := Option.some.inj (hd.symm.trans (trustPath_of_trustDir hd'))
    simp only
    split_ifs with hrevoked hpub
    · exact .same
    · exact .same
    · exact writePublic_change bin2base64 pub w (length_keyId S pub) (Bool.not_eq_true _ ▸ hrevoked)

lemma trustRevoke_change (hd : trustPath root = some d) (moved : Bool) :
    Change d files (trustRevoke (r.host root) files id moved).2 := by
  unfold trustRevoke
  cases ht : revokeTarget (r.host root) files id with
  | none => exact .same
  | some d' =>
    simp only [revokeTarget, option_bind_eq_some, Option.guard_eq_some', exists_const,
      Option.some.injEq] at ht
    obtain ⟨hid, d', hd', -, rfl⟩ := ht
    obtain rfl := Option.some.inj (hd.symm.trans (trustPath_of_trustDir hd'))
    simp only
    split_ifs
    · exact .moved hid.2.2
    · exact .same

/-- What the tests of a staged package establish. -/
lemma validateStaged_target {p : StagedPackage} {pub : Bytes} {known : Bool}
    (h : validateStaged S (r.host root) files p = some (id, pub, d, known)) :
    trustPath root = some d ∧ id.length = 64 ∧ files.present (revokedLeaf d id) = false := by
  simp only [validateStaged, option_bind_eq_some, Option.guard_eq_some', exists_const,
    Option.some.injEq, Prod.mk.injEq] at h
  obtain ⟨text, -, s, hread, -, -, index, -, d', hd', hrev, -, -, -, -, -, -, -, -, rfl, -, rfl, -⟩ := h
  exact ⟨trustPath_of_trustDir hd', length_of_readSignature hread, hrev⟩

/-- The ways through the validator of a stage. -/
lemma validatePackageSignature_cases (p : StagedPackage) (allow : Bool) (answer : Option Bytes)
    (w : Written) :
    (∃ id, (id = none ∨ id = some (str "unsigned")) ∧
      validatePackageSignature S bin2base64 (r.host root) files p allow answer w = (id, files)) ∨
    ∃ id pub d known, validateStaged S (r.host root) files p = some (id, pub, d, known) ∧
      (validatePackageSignature S bin2base64 (r.host root) files p allow answer w = (some id, files) ∨
        ∃ id', (∀ key, id' = some key → key = id) ∧
          validatePackageSignature S bin2base64 (r.host root) files p allow answer w =
            (id', (writePublic bin2base64 files (pubLeaf d id) pub w).2)) := by
  unfold validatePackageSignature
  by_cases hpath : join p.path (str ".wpm\\signature.json") = none
  · rw [if_pos hpath]
    exact .inl ⟨none, .inl rfl, rfl⟩
  rw [if_neg hpath]
  by_cases hsigned : p.signed = false
  · rw [if_pos hsigned]
    refine .inl ⟨_, ?_, rfl⟩
    split_ifs
    · exact .inr rfl
    · exact .inl rfl
  rw [if_neg hsigned]
  cases hv : validateStaged S (r.host root) files p with
  | none => exact .inl ⟨none, .inl rfl, rfl⟩
  | some target =>
    obtain ⟨id, pub, d, known⟩ := target
    simp only
    by_cases hknown : known = true
    · rw [if_pos hknown]
      exact .inr ⟨id, pub, d, known, rfl, .inl rfl⟩
    rw [if_neg hknown]
    by_cases hrefused : isYes answer = false ∨ (r.host root).authority = false
    · rw [if_pos hrefused]
      exact .inl ⟨none, .inl rfl, rfl⟩
    rw [if_neg hrefused]
    refine .inr ⟨id, pub, d, known, rfl, .inr ⟨_, fun key hkey => ?_, rfl⟩⟩
    split_ifs at hkey
    exact (Option.some.inj hkey).symm

lemma validatePackageSignature_change (hd : trustPath root = some d) (p : StagedPackage)
    (allow : Bool) (answer : Option Bytes) (w : Written) :
    Change d files
      (validatePackageSignature S bin2base64 (r.host root) files p allow answer w).2 := by
  rcases validatePackageSignature_cases S bin2base64 p allow answer w with
    ⟨_, -, heq⟩ | ⟨id, pub, d', known, hv, heq | ⟨_, -, heq⟩⟩
  · rw [heq]
    exact .same
  · rw [heq]
    exact .same
  · rw [heq]
    obtain ⟨hd', hid, hrevoked⟩ := validateStaged_target S hv
    obtain rfl := Option.some.inj (hd.symm.trans hd')
    exact writePublic_change bin2base64 pub w hid hrevoked

/-- **Every call makes such a change.** -/
lemma run_change (hd : trustPath root = some d) (c : TrustCall) :
    Change d files (c.run S bin2base64 root r files).2 := by
  cases c with
  | add file w => exact trustAdd_change S bin2base64 hd file w
  | revoke id moved => exact trustRevoke_change hd moved
  | validateStage p allow answer w =>
    exact validatePackageSignature_change S bin2base64 hd p allow answer w
  | validateBytes signature index allow => exact .same

end Change

/-! ### What every change keeps -/

section Keeps

variable {files files' : TrustFiles} {d id name name' : Bytes}

lemma present_congr (h : fold name = fold name') (hf : files (fold name) = files' (fold name')) :
    files.present name = files'.present name' := by
  have hnil : name = [] ↔ name' = [] := by
    have hlen := congrArg List.length h
    rw [length_fold, length_fold] at hlen
    rw [← List.length_eq_zero_iff, hlen, List.length_eq_zero_iff]
  rw [TrustFiles.present, TrustFiles.present, hf, decide_eq_decide.2 hnil]

lemma present_update (h : files.present name = true) (at_ : Bytes) (content : Bytes) :
    TrustFiles.present (Function.update files at_ (some content)) name = true := by
  by_cases hat : fold name = at_
  · rw [TrustFiles.present, hat, Function.update_self]
    simp
  · rw [← h]
    exact present_congr rfl (Function.update_of_ne hat _ _)

/-- A move touches two names only. -/
lemma move_of_ne (files : TrustFiles) {p r key : Bytes} (hp : key ≠ fold p) (hr : key ≠ fold r) :
    files.move p r key = files key := by
  unfold TrustFiles.move
  cases files (fold p) with
  | none => rfl
  | some content => exact (Function.update_of_ne hr _ _).trans (Function.update_of_ne hp _ _)

lemma move_source (files : TrustFiles) {p r : Bytes} (h : fold p ≠ fold r) :
    files.move p r (fold p) = none := by
  unfold TrustFiles.move
  cases hf : files (fold p) with
  | none => exact hf
  | some content => exact (Function.update_of_ne h _ _).trans (Function.update_self _ _ _)

lemma isSome_move_target (files : TrustFiles) {p r : Bytes} (h : (files (fold r)).isSome) :
    (files.move p r (fold r)).isSome := by
  unfold TrustFiles.move
  cases files (fold p) with
  | none => exact h
  | some content => exact Option.isSome_iff_exists.2 ⟨content, Function.update_self _ _ _⟩

lemma leaf_ne_nil (hid : id.length = 64) (hne : pubLeaf d id ≠ revokedLeaf d id) :
    pubLeaf d id ≠ [] := by
  intro hnil
  have hlong : ∀ e : Bytes, id ++ e ≠ [] := fun e h => by
    rw [(List.append_eq_nil_iff.1 h).1] at hid
    exact absurd hid (by decide)
  rcases List.take_eq_nil_iff.1 hnil with h0 | h0
  · refine hne ?_
    rw [pubLeaf, revokedLeaf, leaf, leaf, h0, List.take_zero, List.take_zero]
  · exact hlong _ h0

/-- **The file of a revoked key stays.** -/
lemma Change.revoked (h : Change d files files') (hid : id.length = 64)
    (hrevoked : files.present (revokedLeaf d id) = true) :
    files'.present (revokedLeaf d id) = true := by
  cases h with
  | same => exact hrevoked
  | added content _ _ _ => exact present_update hrevoked _ _
  | @moved id' hid' =>
    by_cases hr : fold (revokedLeaf d id) = fold (revokedLeaf d id')
    · rw [TrustFiles.present, Bool.or_eq_true] at hrevoked ⊢
      refine hrevoked.imp_right fun hsome => ?_
      rw [hr] at hsome ⊢
      exact isSome_move_target files hsome
    · have hp : fold (revokedLeaf d id) ≠ fold (pubLeaf d id') := by
        rcases leaf_cases d with hone | htold
        · rw [hone id' hid']
          exact hr
        · exact (htold id' id hid' hid).1.symm
      rw [← hrevoked]
      exact present_congr rfl (move_of_ne files hp hr)

/-- **No key comes to have both files.** -/
lemma Change.hasBoth (h : Change d files files')
    (hfiles : ∀ id, id.length = 64 → ¬HasBoth d files id) (hid : id.length = 64) :
    ¬HasBoth d files' id := by
  rintro ⟨hne, hpub, hrevoked⟩
  rcases leaf_cases d with hone | htold
  · exact hne (hone id hid)
  cases h with
  | same => exact hfiles id hid ⟨hne, hpub, hrevoked⟩
  | @added id' content hid' hrevoked' _ =>
    have hold : files.present (revokedLeaf d id) = true := by
      rw [← hrevoked]
      exact present_congr rfl (Function.update_of_ne (htold id' id hid' hid).1.symm _ _).symm
    by_cases hsame : fold (pubLeaf d id) = fold (pubLeaf d id')
    · have hleaf : fold (revokedLeaf d id) = fold (revokedLeaf d id') := by
        rw [revokedLeaf, fold_leaf, (htold id id' hid hid').2.1 hsame, ← fold_leaf, ← revokedLeaf]
      rw [present_congr hleaf (congrArg files hleaf), hrevoked'] at hold
      exact absurd hold (by decide)
    · refine hfiles id hid ⟨hne, ?_, hold⟩
      rw [← hpub]
      exact present_congr rfl (Function.update_of_ne hsame _ _).symm
  | @moved id' hid' =>
    have hpr : fold (pubLeaf d id) ≠ fold (revokedLeaf d id') := (htold id id' hid hid').1
    have hrp : fold (revokedLeaf d id) ≠ fold (pubLeaf d id') := (htold id' id hid' hid).1.symm
    by_cases hsame : fold id = fold id'
    · have hleaf : fold (pubLeaf d id) = fold (pubLeaf d id') := by
        rw [pubLeaf, fold_leaf, hsame, ← fold_leaf, ← pubLeaf]
      rw [TrustFiles.present, decide_eq_false (leaf_ne_nil hid hne), Bool.false_or, hleaf,
        move_source files (hleaf ▸ hpr)] at hpub
      exact absurd hpub (by decide)
    · refine hfiles id hid ⟨hne, ?_, ?_⟩
      · rw [← hpub]
        exact present_congr rfl
          (move_of_ne files (mt (htold id id' hid hid').2.1 hsame) hpr).symm
      · rw [← hrevoked]
        exact present_congr rfl
          (move_of_ne files hrp (mt (htold id id' hid hid').2.2 hsame)).symm

end Keeps

/-! ### Revocation -/

section Revocation

variable (S : Sodium) (bin2base64 : Bytes → Bytes) {root : Option Bytes} {r : Rights}
  {files start : TrustFiles} {id : Bytes}

/-- **A validator accepts no revoked key.** -/
lemma run_accepted {c : TrustCall} {key : Bytes}
    (h : (c.run S bin2base64 root r files).1 = .accepted key) : key = str "unsigned" ∨
      ∃ d, trustPath root = some d ∧ files.present (revokedLeaf d key) = false := by
  have hofBool : ∀ b, TrustAnswer.ofBool b ≠ .accepted key := by
    intro b
    cases b <;> simp [TrustAnswer.ofBool]
  have hofOption : ∀ {o}, TrustAnswer.ofOption o = .accepted key → o = some key := by
    intro o ho
    cases o with
    | none => exact absurd ho (by simp [TrustAnswer.ofOption])
    | some id => exact congrArg some (TrustAnswer.accepted.inj ho)
  cases c with
  | add file w => exact absurd h (hofBool _)
  | revoke id moved => exact absurd h (hofBool _)
  | validateStage p allow answer w =>
    have hid : (validatePackageSignature S bin2base64 (r.host root) files p allow answer w).1 =
      some key := hofOption h
    rcases @validatePackageSignature_cases S bin2base64 root r files p allow answer w with
      ⟨_, hnone, heq⟩ | ⟨id, pub, d, known, hv, heq | ⟨_, hsame, heq⟩⟩
    · rw [heq] at hid
      obtain rfl : _ = some key := hid
      rcases hnone with hnone | hnone
      · exact absurd hnone (by simp)
      · exact .inl (Option.some.inj hnone)
    · obtain ⟨hd, -, hrevoked⟩ := validateStaged_target S hv
      rw [heq] at hid
      obtain rfl := Option.some.inj hid
      exact .inr ⟨d, hd, hrevoked⟩
    · obtain ⟨hd, -, hrevoked⟩ := validateStaged_target S hv
      rw [heq] at hid
      obtain rfl := hsame key hid
      exact .inr ⟨d, hd, hrevoked⟩
  | validateBytes signature index allow =>
    have hid : (validateSignatureBytes S (storeOf (r.host root) files) signature index
      allow).toOption = some key := hofOption h
    cases hv : validateSignatureBytes S (storeOf (r.host root) files) signature index allow with
    | error e => exact absurd hid (by simp [hv, Except.toOption])
    | ok id =>
      obtain rfl : id = key := by simpa [hv, Except.toOption] using hid
      cases signature with
      | none =>
        simp only [validateSignatureBytes, bind_eq_ok, pure_eq_ok] at hv
        obtain ⟨-, -, hv⟩ := hv
        exact .inl hv.symm
      | some text =>
        have hsigned := orElse_eq_ok.1 hv
        simp only [validateSigned, option_bind_eq_some, Option.guard_eq_some', exists_const,
          Option.some.injEq] at hsigned
        obtain ⟨-, -, s, hread, -, root', hroot, -, hfit, hrev, -, -, -, -, -, -, -, -, -, -, -, rfl⟩ :=
          hsigned
        have hroom : Room (Rights.host ⟨true, true, true⟩ root) s.id := fun root'' hroot'' => by
          obtain rfl := Option.some.inj (hroot.symm.trans hroot'')
          exact hfit
        obtain ⟨d, hd, -, hleaf⟩ := hroom.leaves (length_of_readSignature hread) hroot rfl rfl
        refine .inr ⟨d, trustPath_of_trustDir hd, ?_⟩
        have hne : s.id ++ str ".revoked" ≠ [] :=
          List.append_ne_nil_of_right_ne_nil _ (by decide)
        rw [hleaf, TrustFiles.present, decide_eq_false hne, Bool.false_or]
        exact hrev

/-- **A revocation that reports success leaves the file of a revoked key.** -/
lemma revoke_done {moved : Bool}
    (h : (TrustCall.run S bin2base64 root r files (.revoke id moved)).1 = .done) :
    id.length = 64 ∧ ∀ d ∈ trustPath root,
      (TrustCall.run S bin2base64 root r files (.revoke id moved)).2.present
        (revokedLeaf d id) = true := by
  have htrue : (trustRevoke (r.host root) files id moved).1 = true := by
    have h' : TrustAnswer.ofBool (trustRevoke (r.host root) files id moved).1 = .done := h
    cases hb : (trustRevoke (r.host root) files id moved).1 with
    | true => rfl
    | false => simp [hb, TrustAnswer.ofBool] at h'
  change _ ∧ ∀ d ∈ trustPath root,
    (trustRevoke (r.host root) files id moved).2.present (revokedLeaf d id) = true
  unfold trustRevoke at htrue ⊢
  cases ht : revokeTarget (r.host root) files id with
  | none => exact absurd htrue (by simp [ht])
  | some d' =>
    simp only [ht] at htrue
    simp only [revokeTarget, option_bind_eq_some, Option.guard_eq_some', exists_const,
      Option.some.injEq] at ht
    obtain ⟨hid, d', hd', hpub, rfl⟩ := ht
    refine ⟨hid.2.2, fun d hd => ?_⟩
    obtain rfl := Option.some.inj (hd.symm.trans (trustPath_of_trustDir hd'))
    cases moved with
    | false => exact absurd htrue (by simp)
    | true =>
      change (files.move (pubLeaf d id) (revokedLeaf d id)).present (revokedLeaf d id) = true
      by_cases hsame : pubLeaf d id = revokedLeaf d id
      · rw [hsame] at hpub ⊢
        rw [TrustFiles.present, Bool.or_eq_true] at hpub ⊢
        exact hpub.imp_right fun hsome => isSome_move_target files hsome
      · rw [TrustFiles.present, decide_eq_false (leaf_ne_nil hid.2.2 hsame), Bool.false_or] at hpub
        obtain ⟨content, hcontent⟩ := Option.isSome_iff_exists.1 hpub
        simp [TrustFiles.present, TrustFiles.move, hcontent]

lemma filesAfter_append (calls calls' : List (Rights × TrustCall)) :
    filesAfter S bin2base64 root start (calls ++ calls') =
      filesAfter S bin2base64 root (filesAfter S bin2base64 root start calls) calls' :=
  List.foldl_append

lemma filesAfter_cons (c : Rights × TrustCall) (calls : List (Rights × TrustCall)) :
    filesAfter S bin2base64 root start (c :: calls) =
      filesAfter S bin2base64 root (c.2.run S bin2base64 root c.1 start).2 calls := rfl

/-- What every change keeps holds after any calls. -/
lemma filesAfter_keeps {d : Bytes} (hd : trustPath root = some d) {P : TrustFiles → Prop}
    (hP : ∀ files files', Change d files files' → P files → P files') (hstart : P start)
    (calls : List (Rights × TrustCall)) : P (filesAfter S bin2base64 root start calls) := by
  induction calls generalizing start with
  | nil => exact hstart
  | cons c calls ih =>
    rw [filesAfter_cons]
    exact ih (hP _ _ (run_change S bin2base64 hd c.2) hstart)

/-- **Revocation is permanent.** -/
theorem revocation_permanent
    (hstart : ∀ d ∈ trustPath root, ∀ id, id.length = 64 → ¬HasBoth d start id)
    (calls : List (Rights × TrustCall)) :
    (∀ d ∈ trustPath root, ∀ id, id.length = 64 →
      ¬HasBoth d (filesAfter S bin2base64 root start calls) id) ∧
    ∀ before r id moved after, calls = before ++ (r, .revoke id moved) :: after →
      (TrustCall.run S bin2base64 root r (filesAfter S bin2base64 root start before)
        (.revoke id moved)).1 = .done →
      (∀ d ∈ trustPath root, ¬Trusted d (filesAfter S bin2base64 root start calls) id) ∧
      ∀ r' c key, (TrustCall.run S bin2base64 root r'
        (filesAfter S bin2base64 root start calls) c).1 = .accepted key → fold key ≠ fold id := by
  refine ⟨fun d hd => ?_, ?_⟩
  · exact filesAfter_keeps S bin2base64 hd
      (fun files files' h hfiles id hid => h.hasBoth hfiles hid) (hstart d hd) calls
  · rintro before r id moved after rfl hdone
    obtain ⟨hid, hpresent⟩ := revoke_done S bin2base64 hdone
    have hrevoked : ∀ d ∈ trustPath root, TrustFiles.present (filesAfter S bin2base64 root start
        (before ++ (r, .revoke id moved) :: after)) (revokedLeaf d id) = true := by
      intro d hd
      rw [filesAfter_append, filesAfter_cons]
      exact filesAfter_keeps S bin2base64 hd (fun files files' h => h.revoked hid) (hpresent d hd)
        after
    refine ⟨fun d hd htrusted => ?_, fun r' c key haccepted hkey => ?_⟩
    · exact absurd (htrusted.2.symm.trans (hrevoked d hd)) (by decide)
    · rcases run_accepted S bin2base64 haccepted with rfl | ⟨d, hd, hnot⟩
      · have hlen := congrArg List.length hkey
        rw [length_fold, length_fold, hid] at hlen
        exact absurd hlen (by decide)
      · have hleaf : fold (revokedLeaf d key) = fold (revokedLeaf d id) := by
          rw [revokedLeaf, fold_leaf, hkey, ← fold_leaf, ← revokedLeaf]
        rw [present_congr hleaf (congrArg _ hleaf), hrevoked d hd] at hnot
        exact absurd hnot (by decide)

end Revocation

def sampleRights : Rights := ⟨true, true, true⟩

/-- The key of the sample is added and revoked. -/
def sampleCalls : List (Rights × TrustCall) :=
  [(sampleRights, .add (some samplePublicFile) .whole),
    (sampleRights, .revoke Wpm.Archive.sampleKeyId true)]

theorem revocation_permanent_sample :
    let after := filesAfter Wpm.Archive.sampleSodium (fun _ => Wpm.Archive.sampleKeyText)
      sampleHost.dataRoot (fun _ => none)
    (TrustCall.run Wpm.Archive.sampleSodium (fun _ => Wpm.Archive.sampleKeyText)
        sampleHost.dataRoot sampleRights (after (sampleCalls.take 1))
        (.revoke Wpm.Archive.sampleKeyId true)).1 = .done ∧
      ∀ r c key, (TrustCall.run Wpm.Archive.sampleSodium (fun _ => Wpm.Archive.sampleKeyText)
        sampleHost.dataRoot r (after sampleCalls) c).1 = .accepted key →
          fold key ≠ fold Wpm.Archive.sampleKeyId := by
  intro after
  have hdone : (TrustCall.run Wpm.Archive.sampleSodium (fun _ => Wpm.Archive.sampleKeyText)
      sampleHost.dataRoot sampleRights (after (sampleCalls.take 1))
      (.revoke Wpm.Archive.sampleKeyId true)).1 = .done := by decide
  have hstart : ∀ d ∈ trustPath sampleHost.dataRoot, ∀ id : Bytes, id.length = 64 →
      ¬HasBoth d (fun _ => none) id := by
    rintro d - id hid ⟨hne, hpub, -⟩
    simp [TrustFiles.present, leaf_ne_nil hid hne] at hpub
  exact ⟨hdone, ((revocation_permanent Wpm.Archive.sampleSodium
    (fun _ => Wpm.Archive.sampleKeyText) hstart sampleCalls).2 (sampleCalls.take 1) sampleRights
      Wpm.Archive.sampleKeyId true [] rfl hdone).2⟩

end Wpm.Signing
