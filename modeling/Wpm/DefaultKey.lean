import Wpm.Lib.Substring
import Wpm.Lib.Text
import Wpm.Trust

/-!
The default signing key.

`wpm_set_default_key` keeps the full path of a private key and the id of the key, a line each;
`wpm_get_default_key` looks for the names of the two lines anywhere in the text.
`getDefaultKey_setDefaultKey_iff` says of which paths this gives the same path again.
-/

namespace Wpm.Signing

open Wpm.Lib.CString Wpm.Lib.Text

/-- `crypto_sign_SECRETKEYBYTES`; the second half is the public key. -/
def secretKeyBytes : ℕ := 64

/-- `KEY_ID_SIZE`. -/
def keyIdSize : ℕ := 65

/-- What the two functions find. -/
structure KeyHost where
  /-- `wpm_require_capability` of `WPM_CAP_WRITE`. -/
  mayWrite : Bool
  /-- `GetFullPathNameA`: the path in its buffer, none where it returns 0. -/
  fullPath : Bytes → Option Bytes
  fullPath_ne : ∀ {p full}, fullPath p = some full → full ≠ []
  /-- The path of `signing-key.txt` that `config` makes. -/
  settingPath : Option Bytes
  /-- The paths that `GetFileAttributesA` finds. -/
  there : Bytes → Bool
  /-- The bytes that `read_all` reads. -/
  files : Bytes → Option Bytes
  /-- The paths that can be opened for writing. -/
  writable : Bytes → Bool
  /-- The bytes of a text that reach the file; no failure to write is looked at. -/
  room : ℕ

variable (S : Sodium)

/-- `load_private`, on the bytes of the file. -/
def loadPrivate (file : Bytes) : Option Bytes := do
  let text := cstr file
  guard (keyHeaderSupported text (str "wpm-private-key-v1"))
  let b64 ← field text (str "secret-key") 256
  let secret ← S.base642bin secretKeyBytes b64
  guard (secret.length = secretKeyBytes)
  some secret

/-- The id of the private key at a path. -/
def KeyHost.keyIdAt (h : KeyHost) (path : Bytes) : Option Bytes :=
  ((h.files path).bind (loadPrivate S)).map fun secret => keyId S (secret.drop publicKeyBytes)

/-- The text of the setting. -/
def settingText (full id : Bytes) : Bytes :=
  str "path=" ++ full ++ str "\nkey-id=" ++ id ++ str "\n"

/-- A text is written to a file, in text mode. -/
def KeyHost.write (h : KeyHost) (path text : Bytes) : KeyHost :=
  { h with
    there p := p = path || h.there p
    files p := if p = path then some ((textModeOut text).take h.room) else h.files p }

/-- `wpm_set_default_key`: what it leaves and reports, or the error. -/
def setDefaultKey (h : KeyHost) (privatePath : Bytes) : Except (List Bytes) (KeyHost × Bytes) :=
  if h.mayWrite = false then .error []
  else match h.fullPath privatePath with
    | none => .error [str "Error: invalid private key.\n"]
    | some full => match h.keyIdAt S full with
      | none => .error [str "Error: invalid private key.\n"]
      | some id => match h.settingPath with
        | none => .error []
        | some path =>
          if h.writable path = false then .error []
          else .ok (h.write path (settingText full id),
            str "Default signing key: " ++ id ++ str "\n")

/-- The path that a setting names, if the key there has the id that it names. -/
def KeyHost.settingKey (h : KeyHost) (text : Bytes) (size : ℕ) : Option Bytes := do
  let result ← field text (str "path") size
  let storedId ← field text (str "key-id") keyIdSize
  let actualId ← h.keyIdAt S result
  guard (storedId = actualId)
  some result

/-- `wpm_get_default_key` with a buffer of `size` bytes: the path with which it returns 1, or
another return value and the error. -/
def getDefaultKey (h : KeyHost) (size : ℕ) : Except (ℤ × List Bytes) Bytes :=
  match h.settingPath with
  | none => .error (-1, [])
  | some path =>
    if h.there path = false then .error (0, [])
    else match h.files path with
      | none => .error (-1, [])
      | some text => match h.settingKey S (cstr text) size with
        | none => .error (-1, [str "Error: configured default signing key is missing, malformed, " ++
            str "or does not match its key identifier.\n"])
        | some result => .ok result

/-! ### The fields -/

/-- What stands behind the name of a field, and the `=` behind it. -/
def behindName (name p : Bytes) : Bytes :=
  if cur (p.drop name.length) = ch '=' then (p.drop name.length).tail else p.drop name.length

/-- The characters at which the value of a field ends. -/
def valueStops : Bytes := [13, 10, ch '"']

variable {S} {text name value rest : Bytes} {size n : ℕ}

lemma field_eq_some {v : Bytes} : field text name size = some v ↔ ∃ p, strstr name text = some p ∧
    spanNot valueStops (behindName name p) = v ∧ v ≠ [] ∧ v.length < size := by
  simp only [field, behindName, Option.bind_eq_bind, Option.bind_eq_some_iff,
    Option.guard_eq_some', exists_const, Option.some.injEq]
  constructor
  · rintro ⟨p, hp, hv, rfl⟩
    exact ⟨p, hp, rfl, hv⟩
  · rintro ⟨p, hp, rfl, hv⟩
    exact ⟨p, hp, hv, rfl⟩

lemma spanNot_valueStops {a b : Bytes} (ha : ∀ c ∈ a, c ∉ valueStops)
    (hb : b ≠ [] → cur b ∈ valueStops) : spanNot valueStops (a ++ b) = a := by
  induction a with
  | nil =>
    cases b with
    | nil => rfl
    | cons c b => exact spanNot_cons_of_mem (hb (List.cons_ne_nil c b)) b
  | cons c a ih =>
    rw [List.cons_append, spanNot_cons (ha c List.mem_cons_self),
      ih fun d hd => ha d (List.mem_cons_of_mem c hd)]

lemma cur_take_mem (hrest : rest ≠ [] → cur rest ∈ valueStops) (k : ℕ) :
    rest.take k ≠ [] → cur (rest.take k) ∈ valueStops := by
  intro hne
  cases rest with
  | nil => simp at hne
  | cons c rest =>
    cases k with
    | zero => exact absurd rfl hne
    | succ k => exact hrest (List.cons_ne_nil c rest)

lemma behindName_self (name rest : Bytes) : behindName name (name ++ ch '=' :: rest) = rest := by
  rw [behindName, List.drop_left]
  exact if_pos rfl

/-- **A field at the start of a text that is cut** is read as it was written exactly when its value
is whole. -/
lemma field_take_iff (hname : name ≠ []) (hvalue : ∀ c ∈ value, c ∉ valueStops)
    (hrest : rest ≠ [] → cur rest ∈ valueStops) (hne : value ≠ []) (hsize : value.length < size) :
    field ((name ++ ch '=' :: (value ++ rest)).take n) name size = some value ↔
      name.length + 1 + value.length ≤ n := by
  constructor
  · intro h
    obtain ⟨p, hp, hspan, -⟩ := field_eq_some.1 h
    by_contra hcut
    by_cases hn : n ≤ name.length
    · have hlength : p.length ≤ n := (strstr_eq_some hp).1.length_le.trans (List.length_take_le _ _)
      have hnil : p.drop name.length = [] := List.drop_eq_nil_iff.2 (hlength.trans hn)
      rw [behindName, hnil, if_neg (by decide)] at hspan
      exact hne hspan.symm
    · obtain ⟨k, rfl⟩ : ∃ k, n = name.length + (k + 1) := ⟨n - name.length - 1, by omega⟩
      rw [List.take_length_add_append, List.take_succ_cons, strstr_append_self hname] at hp
      rw [← Option.some.inj hp, behindName_self] at hspan
      have hlength : value.length ≤ k := by
        rw [← hspan]
        exact (List.takeWhile_prefix _).length_le.trans (List.length_take_le _ _)
      omega
  · intro hcut
    obtain ⟨k, rfl⟩ : ∃ k, n = (name ++ ch '=' :: value).length + k :=
      ⟨n - (name.length + 1 + value.length), by
        rw [List.length_append, List.length_cons]
        omega⟩
    have htext : name ++ ch '=' :: (value ++ rest) = name ++ ch '=' :: value ++ rest := by
      rw [List.append_assoc, List.cons_append]
    rw [htext, List.take_length_add_append, List.append_assoc, List.cons_append]
    refine field_eq_some.2 ⟨_, strstr_append_self hname _, ?_, hne, hsize⟩
    rw [behindName_self]
    exact spanNot_valueStops hvalue (cur_take_mem hrest k)

/-- A field is what stands at the place of its name, wherever this is. -/
lemma field_congr {text' : Bytes} (h : strstr name text = strstr name text') :
    field text name size = field text' name size := by
  rw [field, field, h]

/-! ### The setting -/

lemma KeyHost.there_write (h : KeyHost) (path text : Bytes) : (h.write path text).there path = true :=
  Bool.or_eq_true_iff.2 (.inl (decide_eq_true rfl))

lemma KeyHost.files_write (h : KeyHost) (path text : Bytes) :
    (h.write path text).files path = some ((textModeOut text).take h.room) :=
  if_pos rfl

/-- Where the first `key-id` of the setting stands in the path itself, what is behind it is taken
for the id; no more than this has to reach the file. -/
def ReadsBack (id full : Bytes) (room : ℕ) : Prop :=
  match strstr (str "key-id") full with
  | none => (str "path=" ++ full ++ str "\r\nkey-id=" ++ id).length ≤ room
  | some p => behindName (str "key-id") p = id ∧ (str "path=" ++ full).length ≤ room

lemma textModeOut_append {a : Bytes} (h : (10 : UInt8) ∉ a) (b : Bytes) :
    textModeOut (a ++ b) = a ++ textModeOut b := by
  induction a with
  | nil => rfl
  | cons c a ih =>
    rw [List.mem_cons, not_or] at h
    rw [List.cons_append, textModeOut, if_neg (Ne.symm h.1), ih h.2, List.cons_append]

lemma mem_keyId {publicKey : Bytes} {c : UInt8} (h : c ∈ keyId S publicKey) :
    c ∈ str "0123456789abcdef" := by
  rw [keyId, ← spanOf_bin2hex, spanOf] at h
  have hp := List.mem_takeWhile_imp h
  exact of_decide_eq_true hp

/-- The bytes of the setting: its two fields, behind each other. -/
lemma textModeOut_settingText {full id : Bytes} (hfull : (10 : UInt8) ∉ full)
    (hid : (10 : UInt8) ∉ id) : textModeOut (settingText full id) =
      str "path" ++ ch '=' :: (full ++
        13 :: 10 :: (str "key-id" ++ ch '=' :: (id ++ [13, 10]))) := by
  have htext : settingText full id =
      str "path=" ++ (full ++ 10 :: (str "key-id=" ++ (id ++ [10]))) := by
    simp only [settingText, List.append_assoc]
    rfl
  rw [htext, textModeOut_append (by decide), textModeOut_append hfull, textModeOut, if_pos rfl,
    textModeOut_append (by decide), textModeOut_append hid]
  rfl

/-- The path is read as it was written exactly when it has reached the file. -/
lemma field_path_iff {full id : Bytes} (hne : full ≠ []) (hfull : ∀ c ∈ full, c ∉ valueStops)
    (hsize : full.length < size) :
    field ((str "path" ++ ch '=' :: (full ++
      13 :: 10 :: (str "key-id" ++ ch '=' :: (id ++ [13, 10])))).take n) (str "path") size =
        some full ↔ (str "path=" ++ full).length ≤ n := by
  rw [field_take_iff (by decide) hfull (fun _ => List.mem_cons_self) hne hsize, List.length_append]
  rfl

lemma behindName_append {p b : Bytes} (hp : name <+: p) (hb : cur b ≠ ch '=') :
    behindName name (p ++ b) = behindName name p ++ b := by
  obtain ⟨q, rfl⟩ := hp
  rw [behindName, behindName, List.append_assoc, List.drop_left, List.drop_left]
  cases q with
  | nil => rw [List.nil_append, if_neg hb, if_neg (by decide), List.nil_append]
  | cons c q =>
    rw [List.cons_append, cur_cons, cur_cons]
    by_cases hc : c = ch '='
    · rw [if_pos hc, if_pos hc]
      rfl
    · rw [if_neg hc, if_neg hc]
      rfl

/-- The id is read as it was written exactly when the setting reads back. -/
lemma field_keyId_iff {full id : Bytes} (hfull : ∀ c ∈ full, c ∉ valueStops) (hne : id ≠ [])
    (hid : ∀ c ∈ id, c ∉ valueStops) (hsize : id.length < keyIdSize)
    (hn : (str "path=" ++ full).length ≤ n) :
    field ((str "path" ++ ch '=' :: (full ++
      13 :: 10 :: (str "key-id" ++ ch '=' :: (id ++ [13, 10])))).take n) (str "key-id") keyIdSize =
        some id ↔ ReadsBack id full n := by
  have hkey : str "key-id" ≠ [] := by decide
  generalize hrest : 13 :: 10 :: (str "key-id" ++ ch '=' :: (id ++ [13, 10])) = rest
  obtain ⟨m, rfl⟩ : ∃ m, n = (str "path=" ++ full).length + m := ⟨_, (Nat.add_sub_cancel' hn).symm⟩
  have htext : str "path" ++ ch '=' :: (full ++ rest) = str "path=" ++ full ++ rest := by
    rw [List.append_assoc]
    rfl
  have hstart : strstr (str "key-id") (str "path=" ++ full ++ rest.take m) =
      strstr (str "key-id") (full ++ rest.take m) := by
    rw [List.append_assoc]
    exact strstr_append_cons_of_eq_none (a := str "path") hkey (by decide) (by decide) _
  rw [htext, List.take_length_add_append, field_congr hstart, ReadsBack]
  cases hfound : strstr (str "key-id") full with
  | some p =>
    obtain ⟨hsuffix, hp⟩ := strstr_eq_some hfound
    have hstops : rest.take m ≠ [] → cur (rest.take m) ∈ valueStops :=
      cur_take_mem (fun _ => hrest ▸ List.mem_cons_self) m
    have hequals : cur (rest.take m) ≠ ch '=' := by
      intro h
      by_cases hnil : rest.take m = []
      · rw [hnil] at h
        exact absurd h (by decide)
      · exact absurd (h ▸ hstops hnil) (by decide)
    have hspan : spanNot valueStops (behindName (str "key-id") (p ++ rest.take m)) =
        behindName (str "key-id") p := by
      rw [behindName_append hp hequals]
      refine spanNot_valueStops (fun c hc => hfull c (hsuffix.subset ?_)) hstops
      unfold behindName at hc
      split_ifs at hc
      · exact List.mem_of_mem_drop (List.mem_of_mem_tail hc)
      · exact List.mem_of_mem_drop hc
    rw [field_eq_some]
    constructor
    · rintro ⟨q, hq, hv, -⟩
      rw [strstr_append_of_eq_some hfound] at hq
      rw [← Option.some.inj hq, hspan] at hv
      exact ⟨hv, Nat.le_add_right _ _⟩
    · rintro ⟨hv, -⟩
      exact ⟨_, strstr_append_of_eq_some hfound _, hspan.trans hv, hne, hsize⟩
  | none =>
    have hplace : strstr (str "key-id") (full ++ rest.take m) = strstr (str "key-id")
        ((str "key-id" ++ ch '=' :: (id ++ [13, 10])).take (m - 2)) := by
      rw [← hrest]
      match m with
      | 0 =>
        rw [List.take_zero, List.append_nil, hfound]
        rfl
      | 1 => exact strstr_append_cons_of_eq_none hkey (by decide) hfound []
      | k + 2 =>
        rw [List.take_succ_cons, strstr_append_cons_of_eq_none hkey (by decide) hfound,
          List.take_succ_cons]
        exact strstr_append_cons_of_eq_none (a := []) hkey (by decide) rfl _
    rw [field_congr hplace, field_take_iff hkey hid (fun _ => List.mem_cons_self) hne hsize]
    have hlength : (str "\r\nkey-id=").length = 9 ∧ (str "key-id").length = 6 := by decide
    simp only [List.length_append]
    omega

/-- What is set when it succeeds. -/
lemma setDefaultKey_eq_ok {h h' : KeyHost} {privatePath full id message : Bytes}
    (hset : setDefaultKey S h privatePath = .ok (h', message))
    (hfull : h.fullPath privatePath = some full) (hid : h.keyIdAt S full = some id) :
    ∃ path, h.settingPath = some path ∧ h' = h.write path (settingText full id) := by
  unfold setDefaultKey at hset
  split_ifs at hset
  simp only [hfull, hid] at hset
  cases hpath : h.settingPath with
  | none =>
    rw [hpath] at hset
    cases hset
  | some path =>
    rw [hpath] at hset
    simp only at hset
    split_ifs at hset
    exact ⟨path, rfl, (congrArg Prod.fst (Except.ok.inj hset)).symm⟩

/-- What is got from a setting that is there. -/
lemma getDefaultKey_eq_ok_iff {h : KeyHost} {path text full : Bytes}
    (hpath : h.settingPath = some path) (hthere : h.there path = true)
    (htext : h.files path = some text) :
    getDefaultKey S h size = .ok full ↔ h.settingKey S (cstr text) size = some full := by
  unfold getDefaultKey
  simp only [hpath, hthere, htext, Bool.true_eq_false, if_false]
  cases h.settingKey S (cstr text) size with
  | none => exact iff_of_false (fun h => by cases h) (fun h => by cases h)
  | some result => rw [Except.ok.injEq, Option.some.injEq]

lemma settingKey_eq_some_iff {h : KeyHost} {full id : Bytes} (hid : h.keyIdAt S full = some id) :
    h.settingKey S text size = some full ↔ field text (str "path") size = some full ∧
      field text (str "key-id") keyIdSize = some id := by
  simp only [KeyHost.settingKey, Option.bind_eq_bind, Option.bind_eq_some_iff,
    Option.guard_eq_some', exists_const, Option.some.injEq]
  constructor
  · rintro ⟨result, hpath, storedId, hstored, actualId, hactual, rfl, rfl⟩
    rw [hid] at hactual
    exact ⟨hpath, Option.some.inj hactual ▸ hstored⟩
  · rintro ⟨hpath, hstored⟩
    exact ⟨full, hpath, id, hstored, id, hid, rfl, rfl⟩

/-- **The default key round-trips** exactly when the id that stands behind the first `key-id` is
read, and what has to be read of the setting reached the file. -/
theorem getDefaultKey_setDefaultKey_iff {h h' : KeyHost} {privatePath full id message : Bytes}
    (hset : setDefaultKey S h privatePath = .ok (h', message))
    (hfull : h.fullPath privatePath = some full) (hid : h.keyIdAt S full = some id)
    (hlegal : ∀ c ∈ full, 32 ≤ c ∧ c ≠ ch '"') (hsize : full.length < size)
    (hkey : h'.files full = h.files full) :
    getDefaultKey S h' size = .ok full ↔ ReadsBack id full h.room := by
  -- the characters of the path and of the id end no field and no text
  have hstops : ∀ c ∈ full, c ∉ valueStops := by
    intro c hc hmem
    obtain ⟨hle, hquote⟩ := hlegal c hc
    simp only [valueStops, List.mem_cons, List.not_mem_nil, or_false] at hmem
    rcases hmem with rfl | rfl | rfl
    · exact absurd hle (by decide)
    · exact absurd hle (by decide)
    · exact hquote rfl
  have hhex : ∀ c ∈ id, c ∈ str "0123456789abcdef" := by
    obtain ⟨secret, -, rfl⟩ := Option.map_eq_some_iff.1 hid
    exact fun c hc => mem_keyId hc
  have hidStops : ∀ c ∈ id, c ∉ valueStops := fun c hc hmem =>
    absurd (hhex c hc) (by
      simp only [valueStops, List.mem_cons, List.not_mem_nil, or_false] at hmem
      rcases hmem with rfl | rfl | rfl <;> decide)
  have hlength : id.length = 64 := by
    obtain ⟨secret, -, rfl⟩ := Option.map_eq_some_iff.1 hid
    exact length_keyId S _
  have hne : id ≠ [] := List.ne_nil_of_length_pos (by omega)
  obtain ⟨path, hpath, rfl⟩ := setDefaultKey_eq_ok hset hfull hid
  have hid' : (h.write path (settingText full id)).keyIdAt S full = some id := by
    rw [← hid, KeyHost.keyIdAt, KeyHost.keyIdAt, hkey]
  have hbytes := textModeOut_settingText (fun h => hstops 10 h (by decide))
    (fun h => hidStops 10 h (by decide))
  have htext : cstr ((textModeOut (settingText full id)).take h.room) =
      (textModeOut (settingText full id)).take h.room := by
    refine cstr_eq_self fun hzero => ?_
    have hmem := List.mem_of_mem_take hzero
    rw [hbytes] at hmem
    have hfullZero : (0 : UInt8) ∉ full := fun h => absurd (hlegal 0 h).1 (by decide)
    have hidZero : (0 : UInt8) ∉ id := fun h => absurd (hhex 0 h) (by decide)
    simp only [List.mem_append, List.mem_cons, hfullZero, hidZero, false_or] at hmem
    revert hmem
    decide
  have hthere := h.there_write path (settingText full id)
  rw [@getDefaultKey_eq_ok_iff _ _ (h.write path _) _ _ _ hpath hthere (h.files_write path _), htext,
    settingKey_eq_some_iff hid', hbytes, field_path_iff (h.fullPath_ne hfull) hstops hsize]
  have hlengthId : id.length < keyIdSize := by
    rw [hlength]
    decide
  constructor
  · rintro ⟨hreach, hstored⟩
    exact (field_keyId_iff hstops hne hidStops hlengthId hreach).1 hstored
  · intro hreads
    have hreach : (str "path=" ++ full).length ≤ h.room := by
      unfold ReadsBack at hreads
      split at hreads
      · refine le_trans ?_ hreads
        simp only [List.length_append]
        omega
      · exact hreads.2
    exact ⟨hreach, (field_keyId_iff hstops hne hidStops hlengthId hreach).2 hreads⟩

section Sample

open Wpm.Archive (unhex sampleKey sampleKeyId sampleSodium)

/-- The private half of the sample's key, in front of the public one. -/
def sampleSecret : Bytes :=
  unhex (str "9d61b19deffd5a60ba844af492ec2cc44449c5697b326919703bac031cae7f60") ++ sampleKey

def sampleSecretText : Bytes :=
  str "nWGxne/9WmC6hEr0kuwsxERJxWl7MmkZcDusAxyuf2DXWpgBgrEKt9VL/tPJZAc6" ++
    str "DuFy89qmIyWvAhpo9wdRGg=="

/-- The sample's library, which can decode the private key. -/
def secretSodium : Sodium where
  generichash := sampleSodium.generichash
  length_generichash := sampleSodium.length_generichash
  base642bin size text :=
    if text = sampleSecretText then some sampleSecret else sampleSodium.base642bin size text
  signVerifyDetached := sampleSodium.signVerifyDetached

/-- The path of a file in the current directory of the sample. -/
def sampleKeyPath (name : Bytes) : Bytes := str "D:\\" ++ name

/-- The private key, in a file of the current directory with this name. -/
def sampleKeyHost (name : Bytes) : KeyHost where
  mayWrite := true
  fullPath p := if p = [] then none
    else if (str "D:\\").isPrefixOf p then some p else some (sampleKeyPath p)
  fullPath_ne h := by
    obtain ⟨hne, h⟩ := Option.ite_none_left_eq_some.1 h
    split_ifs at h
    · exact Option.some.inj h ▸ hne
    · rw [← Option.some.inj h, sampleKeyPath]
      exact List.append_ne_nil_of_left_ne_nil (by decide) _
  settingPath := some (str "D:\\wpm\\config\\signing-key.txt")
  there path := path = sampleKeyPath name
  files path := if path = sampleKeyPath name then
    some (str "wpm-private-key-v1\nalgorithm=ed25519\nsecret-key=" ++ sampleSecretText ++ str "\n")
    else none
  writable _ := true
  room := 8192

/-- What is set of the sample's key. -/
def sampleSet (name : Bytes) : KeyHost :=
  (sampleKeyHost name).write (str "D:\\wpm\\config\\signing-key.txt")
    (settingText (sampleKeyPath name) sampleKeyId)

lemma keyIdAt_sampleKeyHost (name : Bytes) :
    (sampleKeyHost name).keyIdAt secretSodium (sampleKeyPath name) = some sampleKeyId := by
  have hfile : (sampleKeyHost name).files (sampleKeyPath name) = some
      (str "wpm-private-key-v1\nalgorithm=ed25519\nsecret-key=" ++ sampleSecretText ++ str "\n") :=
    if_pos rfl
  rw [KeyHost.keyIdAt, hfile]
  decide

lemma setDefaultKey_sampleKeyHost {name : Bytes}
    (hfull : (sampleKeyHost name).fullPath name = some (sampleKeyPath name)) :
    setDefaultKey secretSodium (sampleKeyHost name) name =
      .ok (sampleSet name, str "Default signing key: " ++ sampleKeyId ++ str "\n") := by
  unfold setDefaultKey
  rw [if_neg (Bool.false_ne_true ·.symm), hfull]
  simp only [keyIdAt_sampleKeyHost]
  rfl

theorem getDefaultKey_setDefaultKey_sample :
    getDefaultKey secretSodium (sampleSet (str "key.pem")) 4096 = .ok (str "D:\\key.pem") := by
  have hreads : ReadsBack sampleKeyId (str "D:\\key.pem") 8192 := by
    have hnone : strstr (str "key-id") (str "D:\\key.pem") = none := by decide
    rw [ReadsBack, hnone]
    decide
  exact (getDefaultKey_setDefaultKey_iff (setDefaultKey_sampleKeyHost (by decide)) (by decide)
    (keyIdAt_sampleKeyHost _) (forall_mem_of_all (by decide)) (by decide) rfl).2 hreads

/-- The key `key-id.pem` can be made the default key, and then no default key is found. -/
theorem getDefaultKey_forgets : ∃ (S : Sodium) (h h' : KeyHost) (p full message : Bytes),
    setDefaultKey S h p = .ok (h', message) ∧ h.fullPath p = some full ∧
      (∀ c ∈ full, 32 ≤ c ∧ c ≠ ch '"') ∧ h'.files full = h.files full ∧
      getDefaultKey S h' 4096 ≠ .ok full := by
  have hset := @setDefaultKey_sampleKeyHost (str "key-id.pem") (by decide)
  refine ⟨secretSodium, _, _, _, sampleKeyPath (str "key-id.pem"), _, hset, by decide,
    forall_mem_of_all (by decide), rfl, fun h => ?_⟩
  have hthere : (sampleSet (str "key-id.pem")).there
      (str "D:\\wpm\\config\\signing-key.txt") = true := KeyHost.there_write _ _ _
  have hkey := (getDefaultKey_eq_ok_iff rfl hthere (KeyHost.files_write _ _ _)).1 h
  have hid : (sampleSet (str "key-id.pem")).keyIdAt secretSodium
      (sampleKeyPath (str "key-id.pem")) = some sampleKeyId := by
    have hsame : (sampleSet (str "key-id.pem")).files (sampleKeyPath (str "key-id.pem")) =
        (sampleKeyHost (str "key-id.pem")).files (sampleKeyPath (str "key-id.pem")) := rfl
    rw [KeyHost.keyIdAt, hsame]
    exact keyIdAt_sampleKeyHost _
  have hfield := ((settingKey_eq_some_iff hid).1 hkey).2
  revert hfield
  decide

end Sample

end Wpm.Signing
