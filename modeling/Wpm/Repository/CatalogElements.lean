import Wpm.JsonRoot
import Wpm.Repository.CatalogReaders

/-!
The elements of `packages`, as `parse_index` reads them.

It does not look at the result of `wpm_json_read_string`: a member that it cannot read leaves the
pointer inside the element and the buffer partly written. The entries are followed with the places
where their elements start, through arrays of any elements, and come out right exactly when no such
member does harm.
-/

namespace Wpm.Repository

open Wpm.Lib.CString Wpm.JsonInput
open Wpm.Lib.Json hiding hexValue
open Wpm.Archive (pathSize)

/-! ### The buffers -/

/-- The members of a package that are kept. -/
def packageKeys : List Bytes := [str "name", str "version", str "arch", str "url"]

/-- The size of the buffer of a member. -/
def capacity (key : Bytes) : ℕ :=
  if key = str "name" then 128
  else if key = str "version" then 64
  else if key = str "arch" then 16
  else pathSize

/-- The buffer of a member. -/
def Members.buffer (b : Members) (key : Bytes) : Bytes :=
  if key = str "name" then b.name
  else if key = str "version" then b.version
  else if key = str "arch" then b.arch
  else b.url

lemma packageKeys_ne : str "version" ≠ str "name" ∧ str "arch" ≠ str "name" ∧
    str "url" ≠ str "name" ∧ str "arch" ≠ str "version" ∧ str "url" ≠ str "version" ∧
    str "url" ≠ str "arch" := by decide

lemma capacity_bounds (key : Bytes) : 0 < capacity key ∧ capacity key ≤ sizeMax := by
  unfold capacity
  split_ifs <;> decide

/-- A member of a package goes to its own buffer. -/
lemma Members.read_of_mem {key : Bytes} (hkey : key ∈ packageKeys) (b : Members) (p : Bytes) :
    (b.read key p).2 = (overwriteString (capacity key) (b.buffer key) p).2 ∧
      ∀ k ∈ packageKeys, (b.read key p).1.buffer k =
        if k = key then (overwriteString (capacity key) (b.buffer key) p).1 else b.buffer k := by
  obtain ⟨h1, h2, h3, h4, h5, h6⟩ := packageKeys_ne
  simp only [packageKeys, List.mem_cons, List.not_mem_nil, or_false] at hkey ⊢
  rcases hkey with rfl | rfl | rfl | rfl <;>
    simp [Members.read, Members.buffer, capacity, h1, h2, h3, h4, h5, h6, h1.symm, h2.symm, h3.symm,
      h4.symm, h5.symm, h6.symm]

/-- Other members are passed over. -/
lemma Members.read_of_notMem {key : Bytes} (hkey : key ∉ packageKeys) (b : Members) (p : Bytes) :
    b.read key p = (b, (valueEnd p).1) := by
  simp only [packageKeys, List.mem_cons, List.not_mem_nil, or_false, not_or] at hkey
  obtain ⟨h1, h2, h3, h4⟩ := hkey
  rw [Members.read, if_neg h1, if_neg h2, if_neg h3, if_neg h4]

/-- There is an entry when no buffer is empty. -/
lemma Members.entry_eq_some {r : RepositoryEntry} {b : Members} {e : PackageEntry} :
    b.entry r = some e ↔ (∀ key ∈ packageKeys, cstr (b.buffer key) ≠ []) ∧
      e = ⟨cstr (b.buffer (str "name")), cstr (b.buffer (str "version")),
        cstr (b.buffer (str "arch")), cstr (b.buffer (str "url")), r.priority, r.order⟩ := by
  obtain ⟨h1, h2, h3, h4, h5, h6⟩ := packageKeys_ne
  simp only [Members.entry, packageKeys, Members.buffer, List.mem_cons, List.not_mem_nil, or_false,
    forall_eq_or_imp, forall_eq, if_true, if_neg h1, if_neg h2, if_neg h3, if_neg h4, if_neg h5,
    if_neg h6, Option.ite_none_right_eq_some, Option.some.injEq]
  exact and_congr_right fun _ => eq_comm

/-! ### The members that cannot be read -/

/-- The member belongs to a package, and `wpm_json_read_string` fails on its value. -/
def Unread (m : Member) : Prop :=
  keyOf m.key ∈ packageKeys ∧ stringOf (capacity (keyOf m.key)) m.value = none

instance (m : Member) : Decidable (Unread m) := inferInstanceAs (Decidable (_ ∧ _))

/-- The first of the members that cannot be read. -/
structure Breaks (ms before : List Member) (m : Member) (after : List Member) : Prop where
  eq : ms = before ++ m :: after
  before : ∀ m' ∈ before, ¬Unread m'
  unread : Unread m

/-- The last value of a member that could be read: none, or an empty one, is the empty text. -/
def held (key : Bytes) (ms : List Member) : Bytes :=
  ms.foldl (fun old m =>
    if keyOf m.key = key then (stringOf (capacity key) m.value).getD old else old) []

/-- The first character of the string goes into a buffer of `size` bytes. -/
def Opens (size : ℕ) (v : Bytes) : Prop := cur v = ch '"' ∧
  ∃ unit ∈ readUnit true (cur v.tail) v.tail.tail, unit.1.length < size

/-- No buffer is left empty: what could be read is in them, and the part before the fault of what
could not. -/
def Filled (ms : List Member) : Prop :=
  ((∀ m ∈ ms, ¬Unread m) ∧ ∀ key ∈ packageKeys, held key ms ≠ []) ∨
    ∃ before m after, Breaks ms before m after ∧ ∀ key ∈ packageKeys,
      held key before ≠ [] ∨ (keyOf m.key = key ∧ Opens (capacity key) m.value)

/-- The loop over the members does not come to their end: the value that it cannot read is no
string, or a string that is not the last value. -/
def Derails (ms : List Member) : Prop :=
  ∃ before m after, Breaks ms before m after ∧ (cur m.value ≠ ch '"' ∨ after ≠ [])

/-- An object that stands where a string should is read as an element, and gives an entry. -/
inductive Strays : List Member → Prop
  | entry {ms before : List Member} {m : Member} {after ms' : List Member}
    (hms : Breaks ms before m after) (hobject : IsObject ms' m.value) (h : Filled ms') : Strays ms
  | deeper {ms before : List Member} {m : Member} {after ms' : List Member}
    (hms : Breaks ms before m after) (hobject : IsObject ms' m.value) (h : Strays ms') : Strays ms

/-! ### The loop over the members -/

/-- The buffers hold what could be read. -/
def Holds (b : Members) (ms : List Member) : Prop :=
  ∀ key ∈ packageKeys, cstr (b.buffer key) = held key ms

lemma holds_start : Holds .start [] := by
  have hzeros : ∀ n : ℕ, cstr (List.replicate n 0) = [] := by
    rintro (_ | n)
    · rfl
    · rw [List.replicate_succ, cstr, List.takeWhile_cons_of_neg (by simp)]
  intro key hkey
  rw [Members.buffer]
  split_ifs <;> exact hzeros _

lemma held_append (key : Bytes) (ms : List Member) (m : Member) : held key (ms ++ [m]) =
    if keyOf m.key = key then (stringOf (capacity key) m.value).getD (held key ms)
    else held key ms := by
  rw [held, List.foldl_append]
  rfl

variable {m : Member} {q : Bytes}

lemma lead_closing_bracket {c : UInt8} (hc : c = ch '}' ∨ c = ch ']') (l : List Bytes) (q : Bytes) :
    Lead (closing c l q) := lead_closing (by rcases hc with rfl | rfl <;> decide) l q

lemma skipComma_closing {c : UInt8} (hc : c = ch '}' ∨ c = ch ']') (l : List Bytes) (q : Bytes) :
    skipComma (jsonSpace (closing c l q)) = opened c l q := by
  rw [jsonSpace_eq_self (lead_closing_bracket hc l q)]
  cases l with
  | nil => exact if_neg (by rw [closing, cur_cons]; rcases hc with rfl | rfl <;> decide)
  | cons a l => exact if_pos rfl

lemma skipComma_space_closing {c : UInt8} (hc : c = ch '}' ∨ c = ch ']') {w : Bytes}
    (hw : Whitespace w) (l : List Bytes) (q : Bytes) :
    skipComma (jsonSpace (w ++ closing c l q)) = opened c l q := by
  rw [jsonSpace_append hw (lead_closing_bracket hc l q), ← skipComma_closing hc l q,
    jsonSpace_eq_self (lead_closing_bracket hc l q)]

/-- **A member that can be read**: the loop goes on with the next one. -/
lemma Holds.read {b : Members} {ms : List Member} (hb : Holds b ms) (hm : m.Framed)
    (hv : Value m.value) (hread : ¬Unread m) (l : List Bytes) (q : Bytes) :
    Holds (b.read (keyOf m.key) (m.afterColon ++ (m.value ++ (m.after ++ closing (ch '}') l q)))).1
        (ms ++ [m]) ∧
      skipComma (jsonSpace (b.read (keyOf m.key)
        (m.afterColon ++ (m.value ++ (m.after ++ closing (ch '}') l q)))).2) =
        opened (ch '}') l q := by
  by_cases hkey : keyOf m.key ∈ packageKeys
  · obtain ⟨out, hout⟩ := Option.ne_none_iff_exists'.1 fun h => hread ⟨hkey, h⟩
    have hstring := readString_value (capacity (keyOf m.key)) hm.afterColon hv
      (m.after ++ closing (ch '}') l q)
    rw [hout, Option.map_some] at hstring
    obtain ⟨hvalue, hrest⟩ := overwriteString_of_some (b.buffer (keyOf m.key)) hstring
    obtain ⟨hptr, hbuffer⟩ := Members.read_of_mem hkey b
      (m.afterColon ++ (m.value ++ (m.after ++ closing (ch '}') l q)))
    refine ⟨fun key hmem => ?_, ?_⟩
    · rw [hbuffer key hmem, held_append]
      by_cases he : key = keyOf m.key
      · rw [if_pos he, if_pos he.symm, he, hvalue, hout, Option.getD_some]
      · rw [if_neg he, if_neg (Ne.symm he), hb key hmem]
    · rw [hptr, hrest, skipComma_space_closing (.inl rfl) hm.after]
  · rw [Members.read_of_notMem hkey, valueEnd_closing (.inl rfl) hm.afterColon hv hm.after]
    refine ⟨fun key hmem => ?_, skipComma_closing (.inl rfl) l q⟩
    rw [held_append, if_neg fun (he : keyOf m.key = key) => hkey (he ▸ hmem), hb key hmem]

lemma readMembers_member {b : Members} {fuel : ℕ} (hm : m.Framed) {r : Bytes}
    (hsize : (m.text ++ r).length ≤ sizeMax) :
    readMembers (fuel + 1) b (m.text ++ r) =
      readMembers fuel (b.read (keyOf m.key) (m.afterColon ++ (m.value ++ (m.after ++ r)))).1
        (skipComma (jsonSpace (b.read (keyOf m.key)
          (m.afterColon ++ (m.value ++ (m.after ++ r)))).2)) := by
  obtain ⟨hcur, p, hkey, hcolon⟩ := readKey_member hm hsize
  have hstop : ¬(cur (m.text ++ r) = 0 ∨ cur (m.text ++ r) = ch '}') := by
    intro hstop
    rw [jsonSpace_of_cur (by rcases hstop with h | h <;> rw [h] <;> decide)] at hcur
    rw [hcur] at hstop
    exact absurd hstop (by decide)
  rw [readMembers, if_neg hstop, hkey]
  simp only [hcolon, cur_cons, ne_eq, not_true_eq_false, if_false, List.tail_cons]

/-- **The members that can be read**: the loop comes to the members after them. -/
lemma readMembers_append : ∀ {l ms : List Member} {r : List Member} {b : Members} {fuel : ℕ},
    (∀ m ∈ l ++ r, m.Framed ∧ Value m.value) → (∀ m ∈ l, ¬Unread m) → Holds b ms →
    (opened (ch '}') ((l ++ r).map Member.text) q).length ≤ sizeMax →
    ∃ b', Holds b' (ms ++ l) ∧
      readMembers (fuel + l.length) b (opened (ch '}') ((l ++ r).map Member.text) q) =
        readMembers fuel b' (opened (ch '}') (r.map Member.text) q)
  | [], ms, r, b, fuel, _, _, hb, _ => ⟨b, by rwa [List.append_nil], rfl⟩
  | m :: l, ms, r, b, fuel, hms, hl, hb, hsize => by
    obtain ⟨hm, hv⟩ := hms m List.mem_cons_self
    change (m.text ++ closing (ch '}') ((l ++ r).map Member.text) q).length ≤ sizeMax at hsize
    obtain ⟨hb1, hnext⟩ := hb.read hm hv (hl m List.mem_cons_self) ((l ++ r).map Member.text) q
    have hsize' : (opened (ch '}') ((l ++ r).map Member.text) q).length ≤ sizeMax := by
      rw [List.length_append] at hsize
      have hle : (opened (ch '}') ((l ++ r).map Member.text) q).length ≤
          (closing (ch '}') ((l ++ r).map Member.text) q).length := by
        cases (l ++ r).map Member.text with
        | nil => exact le_rfl
        | cons a l => exact Nat.le_succ _
      omega
    obtain ⟨b', hb', hrun⟩ := @readMembers_append l (ms ++ [m]) r _ fuel
      (fun m' h => hms m' (List.mem_cons_of_mem m h))
      (fun m' h => hl m' (List.mem_cons_of_mem m h)) hb1 hsize'
    refine ⟨b', by simpa using hb', ?_⟩
    change readMembers (fuel + l.length + 1) b (m.text ++ closing (ch '}') ((l ++ r).map Member.text) q)
      = _
    rw [readMembers_member hm hsize, hnext, hrun]

/-- The loop stops at the closing brace. -/
lemma readMembers_close (fuel : ℕ) (b : Members) {w : Bytes} (hw : Whitespace w) (q : Bytes) :
    readMembers (fuel + 1) b (w ++ ch '}' :: q) = (b, ch '}' :: q) := by
  have hspace : jsonSpace (w ++ ch '}' :: q) = ch '}' :: q :=
    jsonSpace_append hw (lead_cons _ (by decide))
  by_cases hstop : cur (w ++ ch '}' :: q) = 0 ∨ cur (w ++ ch '}' :: q) = ch '}'
  · rw [readMembers, if_pos hstop]
    rw [jsonSpace_of_cur (by rcases hstop with h | h <;> rw [h] <;> decide)] at hspace
    rw [hspace]
  · have hkey : readKey 32 (ch '}' :: q) = none := by
      cases hk : readKey 32 (ch '}' :: q) with
      | none => rfl
      | some r => exact absurd (cur_of_readKey (lead_cons _ (by decide)) hk) (by
          rw [cur_cons]
          decide)
    rw [readMembers, if_neg hstop, hspace, hkey]

/-! ### A member that cannot be read -/

lemma encodeCodepoint_ne_nil (n : ℕ) : encodeCodepoint n ≠ [] := by
  unfold encodeCodepoint
  split_ifs <;> exact List.cons_ne_nil _ _

lemma readUnit_ne_nil {c : UInt8} {p out rest : Bytes}
    (h : readUnit true c p = some (out, rest)) : out ≠ [] := by
  unfold readUnit at h
  rw [ite_eq_iff] at h
  obtain ⟨-, h⟩ | ⟨-, h⟩ := h
  · exact absurd h (by simp)
  rw [ite_eq_iff] at h
  obtain ⟨-, h⟩ | ⟨-, h⟩ := h
  · rw [ite_eq_iff] at h
    obtain ⟨-, h⟩ | ⟨-, h⟩ := h
    · obtain ⟨⟨n, p'⟩, -, h⟩ := Option.bind_eq_some_iff.1 h
      obtain ⟨-, h⟩ := Option.ite_none_left_eq_some.1 h
      rw [ite_eq_iff] at h
      obtain ⟨-, h⟩ | ⟨-, h⟩ := h
      · obtain ⟨-, h⟩ := Option.ite_none_left_eq_some.1 h
        obtain ⟨⟨low, q⟩, -, h⟩ := Option.bind_eq_some_iff.1 h
        obtain ⟨-, h⟩ := Option.ite_none_left_eq_some.1 h
        obtain ⟨rfl, -⟩ := Prod.mk.inj (Option.some.inj h)
        exact encodeCodepoint_ne_nil _
      · obtain ⟨-, h⟩ := Option.ite_none_left_eq_some.1 h
        obtain ⟨rfl, -⟩ := Prod.mk.inj (Option.some.inj h)
        exact encodeCodepoint_ne_nil _
    · obtain ⟨b, -, hpair⟩ := Option.map_eq_some_iff.1 h
      obtain ⟨rfl, -⟩ := Prod.mk.inj hpair
      exact List.cons_ne_nil _ _
  · obtain ⟨rfl, -⟩ := Prod.mk.inj (Option.some.inj h)
    exact List.cons_ne_nil _ _

lemma cstr_append_ne_nil {bytes : Bytes} (hne : bytes ≠ []) (h0 : (0 : UInt8) ∉ bytes) (r : Bytes) :
    cstr (bytes ++ r) ≠ [] := by
  cases bytes with
  | nil => exact absurd rfl hne
  | cons c bytes =>
    have hc : c ≠ 0 := fun h => h0 (h ▸ List.mem_cons_self)
    rw [List.cons_append, cstr, List.takeWhile_cons_of_pos (by simpa using hc)]
    exact List.cons_ne_nil _ _

/-- **The buffer after a fault** holds something if it did before, or if the string begins with a
character that goes into it. -/
lemma cstr_overwriteString_ne_nil {size : ℕ} {w v : Bytes} (hw : Whitespace w) (hv : Value v)
    (hnone : stringOf size v = none) (buffer r : Bytes) :
    cstr (overwriteString size buffer (w ++ (v ++ r))).1 ≠ [] ↔ cstr buffer ≠ [] ∨ Opens size v := by
  by_cases hquote : cur v = ch '"'
  · obtain ⟨v', rfl⟩ : ∃ v', v = ch '"' :: v' := ⟨v.tail, cur_eq_cons hquote (by decide)⟩
    obtain ⟨b, hb, heq⟩ := hv.isString
    obtain rfl : v' = b ++ [ch '"'] := (List.cons.inj heq).2
    cases hb with
    | nil =>
      have hempty : stringOf size (str "\"\"") = some [] := rfl
      exact absurd (hempty.symm.trans hnone) (by simp)
    | @cons a b ha hb =>
      obtain ⟨c, a, rfl, h0, hq⟩ := ha.exists_cons
      obtain ⟨res, hres⟩ := readUnit_append true ha
      have hstart : jsonSpace (w ++ (ch '"' :: (c :: a ++ b ++ [ch '"']) ++ r)) =
          ch '"' :: c :: (a ++ (b ++ ch '"' :: r)) := by
        rw [jsonSpace_append hw hv.lead]
        simp
      have hopens : Opens size (ch '"' :: (c :: a ++ b ++ [ch '"'])) ↔
          ∃ bytes, res = some bytes ∧ bytes.length < size := by
        have hunit : readUnit true c (a ++ b ++ [ch '"']) =
            res.map fun bytes => (bytes, b ++ [ch '"']) := by
          rw [List.append_assoc, hres]
        simp only [Opens, cur_cons, List.tail_cons, List.cons_append, hunit, true_and]
        cases res <;> simp
      rw [hopens]
      simp only [overwriteString, hstart, cur_cons, ne_eq, not_true_eq_false, if_false,
        List.tail_cons, List.length_cons, writtenUnits, if_neg h0, if_neg hq, hres]
      cases res with
      | none => simp
      | some bytes =>
        simp only [Option.map_some, Nat.zero_add, Option.some.injEq, exists_eq_left']
        by_cases hfit : size ≤ bytes.length
        · simp [if_pos hfit, not_lt.2 hfit]
        · have hunit := hres []
          rw [List.append_nil, Option.map_some] at hunit
          have hne := cstr_append_ne_nil (readUnit_ne_nil hunit) (zero_notMem_readUnit h0 hunit)
          rw [if_neg hfit, List.append_assoc]
          exact iff_of_true (hne _) (.inr (not_le.1 hfit))
  · have hcur : cur (v ++ r) = cur v := by
      obtain ⟨c, v', rfl, -⟩ := hv.exists_cons
      rfl
    have hopens : ¬Opens size v := fun h => hquote h.1
    simp only [overwriteString, jsonSpace_append hw hv.lead, hcur, ne_eq, hquote, not_false_eq_true,
      if_true, List.nil_append, List.length_nil, List.drop_zero, hopens, or_false]

/-- Where the loop over the members leaves the pointer when it cannot read a value. -/
def faultRest (v after : Bytes) (l : List Bytes) (q : Bytes) : Bytes :=
  if cur v = ch '"' then closing (ch '}') l q else v ++ (after ++ closing (ch '}') l q)

/-- The bytes that do not start a value. -/
lemma cur_value_ne {v : Bytes} (hv : Value v) :
    cur v ≠ 0 ∧ cur v ≠ ch '}' ∧ cur v ≠ ch ']' ∧ cur v ≠ ch ',' := by
  obtain ⟨c, v', rfl, hc⟩ := hv.exists_cons
  have hall : ∀ c ∈ valueStart, c ≠ 0 ∧ c ≠ ch '}' ∧ c ≠ ch ']' ∧ c ≠ ch ',' := by decide +kernel
  exact hall c hc

/-- **A member that cannot be read**: the loop reads its value as the next key, and stops there. -/
lemma readMembers_fault {b : Members} {ms : List Member} (hb : Holds b ms) (hm : m.Framed)
    (hv : Value m.value) (hunread : Unread m) (l : List Bytes)
    (hsize : (m.text ++ closing (ch '}') l q).length ≤ sizeMax) (fuel : ℕ) :
    ∃ b', (∀ key ∈ packageKeys, cstr (b'.buffer key) ≠ [] ↔
        held key ms ≠ [] ∨ (keyOf m.key = key ∧ Opens (capacity key) m.value)) ∧
      readMembers (fuel + 2) b (m.text ++ closing (ch '}') l q) =
        (b', faultRest m.value m.after l q) := by
  obtain ⟨hkey, hnone⟩ := hunread
  have hstring := readString_value (capacity (keyOf m.key)) hm.afterColon hv
    (m.after ++ closing (ch '}') l q)
  rw [hnone, Option.map_none] at hstring
  obtain ⟨hptr, hbuffer⟩ := Members.read_of_mem hkey b
    (m.afterColon ++ (m.value ++ (m.after ++ closing (ch '}') l q)))
  obtain ⟨h0, hbrace, -, hcomma⟩ := cur_value_ne hv
  have hstay : skipComma (jsonSpace (b.read (keyOf m.key)
      (m.afterColon ++ (m.value ++ (m.after ++ closing (ch '}') l q)))).2) =
      m.value ++ (m.after ++ closing (ch '}') l q) := by
    rw [hptr, overwriteString, hstring, Option.map_none, Option.getD_none,
      jsonSpace_append hm.afterColon hv.lead, skipComma, cur_value_append hv, if_neg hcomma]
  refine ⟨(b.read (keyOf m.key) (m.afterColon ++ (m.value ++ (m.after ++ closing (ch '}') l q)))).1,
    fun key hmem => ?_, ?_⟩
  · rw [hbuffer key hmem]
    by_cases he : key = keyOf m.key
    · rw [if_pos he, cstr_overwriteString_ne_nil hm.afterColon hv hnone, hb _ hkey, he]
      simp
    · rw [if_neg he, hb key hmem]
      exact ⟨.inl, fun h => h.resolve_right fun h => he h.1.symm⟩
  · rw [readMembers_member hm hsize, hstay, readMembers, cur_value_append hv,
      if_neg (not_or.2 ⟨h0, hbrace⟩), jsonSpace_eq_self hv.lead, faultRest]
    by_cases hquote : cur m.value = ch '"'
    · obtain ⟨v', hcons⟩ : ∃ v', m.value = ch '"' :: v' := ⟨_, cur_eq_cons hquote (by decide)⟩
      have hs : IsString m.value := by
        rw [hcons] at hv ⊢
        exact hv.isString
      have hle : (m.value ++ (m.after ++ closing (ch '}') l q)).length ≤ sizeMax := by
        simp only [Member.text, List.length_append, List.length_cons] at hsize ⊢
        omega
      have hread := @readKey_append 32 [] _ (fun c hc => absurd hc List.not_mem_nil) hs _ hle
      have hcolon : cur (closing (ch '}') l q) ≠ ch ':' := by
        cases l <;> rw [closing, cur_cons] <;> decide
      have hspace : jsonSpace (m.after ++ closing (ch '}') l q) = closing (ch '}') l q :=
        jsonSpace_append hm.after (lead_closing (by decide) l q)
      rw [List.nil_append] at hread
      simp only [hread, hspace, hcolon, ne_eq, not_false_eq_true, if_true, if_pos hquote]
    · have hread : readKey 32 (m.value ++ (m.after ++ closing (ch '}') l q)) = none := by
        cases hk : readKey 32 (m.value ++ (m.after ++ closing (ch '}') l q)) with
        | none => rfl
        | some r => exact absurd ((cur_value_append hv _).symm.trans (cur_of_readKey hv.lead hk)) hquote
      rw [hread, if_neg hquote]

/-! ### An element that is an object -/

lemma Breaks.unique {ms l l1 r r1 : List Member} {m m1 : Member} (h : Breaks ms l m r)
    (h1 : Breaks ms l1 m1 r1) : l = l1 ∧ m = m1 ∧ r = r1 := by
  obtain ⟨rfl, hl, hm⟩ := h
  obtain ⟨heq, hl1, hm1⟩ := h1
  rcases List.append_eq_append_iff.1 heq with ⟨a, hl1', hr⟩ | ⟨a, hl', hr⟩
  · cases a with
    | nil =>
      obtain ⟨rfl, rfl⟩ := List.cons.inj hr
      exact ⟨by simpa using hl1'.symm, rfl, rfl⟩
    | cons x a =>
      obtain ⟨rfl, -⟩ := List.cons.inj hr
      exact absurd hm (hl1 m (by rw [hl1']; simp))
  · cases a with
    | nil =>
      obtain ⟨rfl, rfl⟩ := List.cons.inj hr
      exact ⟨by simpa using hl', rfl, rfl⟩
    | cons x a =>
      obtain ⟨rfl, -⟩ := List.cons.inj hr
      exact absurd hm1 (hl m1 (by rw [hl']; simp))

lemma exists_breaks : ∀ ms : List Member, (∀ m ∈ ms, ¬Unread m) ∨ ∃ l m r, Breaks ms l m r
  | [] => .inl (by simp)
  | m :: ms => by
    by_cases hm : Unread m
    · exact .inr ⟨[], m, ms, rfl, by simp, hm⟩
    rcases exists_breaks ms with h | ⟨l, m', r, rfl, hl, hm'⟩
    · exact .inl (by simpa using ⟨hm, h⟩)
    · exact .inr ⟨m :: l, m', r, rfl, by simpa using ⟨hm, hl⟩, hm'⟩

variable {ms : List Member} {v : Bytes}

/-- **An object whose members can be read**: the loop ends at its closing brace. -/
lemma readMembers_object (h : IsObject ms v) (hread : ∀ m ∈ ms, ¬Unread m) {t : Bytes}
    (hsize : (v ++ t).length ≤ sizeMax) : ∃ b, Holds b ms ∧
      readMembers (v ++ t).length .start (v ++ t).tail = (b, ch '}' :: t) := by
  obtain ⟨w, hw, hempty, htext⟩ := h.exists_opened t
  have hlen := length_opened (ch '}') (ms.map Member.text) t
  rw [htext, List.length_cons] at hsize
  rw [htext, List.tail_cons, List.length_cons]
  rw [List.length_map] at hlen
  rw [List.length_append] at hsize ⊢
  by_cases hne : ms = []
  · subst hne
    refine ⟨.start, holds_start, ?_⟩
    exact readMembers_close _ _ hw t
  · obtain rfl := hempty hne
    obtain ⟨k, hk⟩ : ∃ k, ([] : Bytes).length + (opened (ch '}') (ms.map Member.text) t).length + 1 =
        k + 1 + ms.length := ⟨(opened (ch '}') (ms.map Member.text) t).length - ms.length, by
          rw [List.length_nil]
          omega⟩
    have hms : ∀ m ∈ ms ++ [], m.Framed ∧ Value m.value := fun m hm => by
      rw [List.append_nil] at hm
      exact ⟨h.framed m hm, h.value m hm⟩
    obtain ⟨b, hb, hrun⟩ := @readMembers_append t ms [] [] .start (k + 1) hms hread holds_start (by
      rw [List.append_nil]
      omega)
    rw [List.append_nil] at hrun
    rw [hk, List.nil_append, hrun]
    exact ⟨b, hb, @readMembers_close k b [] (fun c hc => absurd hc List.not_mem_nil) t⟩

/-- **An object with a member that cannot be read.** -/
lemma readMembers_breaks {before after : List Member} (h : IsObject ms v)
    (hms : Breaks ms before m after) {t : Bytes} (hsize : (v ++ t).length ≤ sizeMax) :
    ∃ b, (∀ key ∈ packageKeys, cstr (b.buffer key) ≠ [] ↔
        held key before ≠ [] ∨ (keyOf m.key = key ∧ Opens (capacity key) m.value)) ∧
      readMembers (v ++ t).length .start (v ++ t).tail =
        (b, faultRest m.value m.after (after.map Member.text) t) := by
  obtain ⟨w, -, hempty, htext⟩ := h.exists_opened t
  obtain ⟨rfl, hbefore, hm⟩ := hms
  have hlt := h.length_member_lt t
  obtain rfl := hempty (by simp)
  have hlen := length_opened (ch '}') ((before ++ m :: after).map Member.text) t
  rw [htext, List.nil_append, List.length_cons] at hsize hlt
  rw [htext, List.nil_append, List.tail_cons, List.length_cons]
  rw [List.length_map, List.length_append, List.length_cons] at hlen
  obtain ⟨k, hk⟩ : ∃ k, (opened (ch '}') ((before ++ m :: after).map Member.text) t).length + 1 =
      k + 2 + before.length :=
    ⟨(opened (ch '}') ((before ++ m :: after).map Member.text) t).length - before.length - 1, by omega⟩
  obtain ⟨b, hb, hrun⟩ := @readMembers_append t before [] (m :: after) .start (k + 2)
    (fun m hm => ⟨h.framed m hm, h.value m hm⟩) hbefore holds_start (by omega)
  have hmem : m ∈ before ++ m :: after := by simp
  rw [hk, hrun]
  exact readMembers_fault hb (h.framed m hmem) (h.value m hmem) hm (after.map Member.text)
    (by omega) k

/-- There is an entry exactly when no buffer is left empty. -/
lemma entry_eq_none_iff (h : IsObject ms v) {t : Bytes} (hsize : (v ++ t).length ≤ sizeMax)
    (r : RepositoryEntry) :
    (readMembers (v ++ t).length .start (v ++ t).tail).1.entry r = none ↔ ¬Filled ms := by
  have hnone : ∀ b : Members, b.entry r = none ↔ ¬∀ key ∈ packageKeys, cstr (b.buffer key) ≠ [] := by
    intro b
    rw [Option.eq_none_iff_forall_ne_some]
    constructor
    · exact fun hb hall => hb _ (Members.entry_eq_some.2 ⟨hall, rfl⟩)
    · exact fun hb e he => hb (Members.entry_eq_some.1 he).1
  rw [hnone, not_iff_not]
  rcases exists_breaks ms with hread | ⟨before, m, after, hms⟩
  · obtain ⟨b, hb, hrun⟩ := readMembers_object h hread hsize
    rw [hrun]
    constructor
    · exact fun hb' => .inl ⟨hread, fun key hkey => hb key hkey ▸ hb' key hkey⟩
    · rintro (⟨-, hfilled⟩ | ⟨before, m, after, hms, -⟩) key hkey
      · exact (hb key hkey).symm ▸ hfilled key hkey
      · exact absurd hms.unread (hread m (by rw [hms.eq]; simp))
  · obtain ⟨b, hb, hrun⟩ := readMembers_breaks h hms hsize
    rw [hrun]
    constructor
    · exact fun hb' => .inr ⟨before, m, after, hms, fun key hkey => (hb key hkey).1 (hb' key hkey)⟩
    · rintro (⟨hread, -⟩ | ⟨before', m', after', hms', hfilled⟩) key hkey
      · exact absurd hms.unread (hread m (by rw [hms.eq]; simp))
      · obtain ⟨rfl, rfl, rfl⟩ := hms.unique hms'
        exact (hb key hkey).2 (hfilled key hkey)

/-! ### The places where elements start -/

/-- The places from which the loop of `parse_index` over the packages reads an element. -/
def packageStarts : ℕ → Bytes → List Bytes
  | 0, _ => []
  | fuel + 1, p =>
    let p := jsonSpace p
    if cur p = 0 ∨ cur p = ch ']' then []
    else if cur p ≠ ch '{' then
      if cur (valueEnd p).1 ≠ ch ',' then [] else packageStarts fuel (valueEnd p).1.tail
    else
      p :: packageStarts fuel
        (skipComma (jsonSpace (skipBrace (readMembers p.length .start p.tail).2)))

/-- The buffers after the members of the element that starts at `p`. -/
def membersAt (p : Bytes) : Members := (readMembers p.length .start p.tail).1

/-- The loop reads an element from each of these places. -/
lemma readPackages_eq (fuel : ℕ) (p : Bytes) :
    readPackages fuel p = (packageStarts fuel p).map membersAt := by
  induction fuel generalizing p with
  | zero => rfl
  | succ fuel ih =>
    rw [readPackages, packageStarts]
    simp only [skipBrace, ih]
    split_ifs <;> simp [membersAt]

/-- The entries of the elements that start at these places. -/
def entriesAt (r : RepositoryEntry) (ps : List Bytes) : List (Bytes × PackageEntry) :=
  ps.filterMap fun p => ((membersAt p).entry r).map fun e => (p, e)

lemma entriesAt_cons (r : RepositoryEntry) (p : Bytes) (ps : List Bytes) :
    entriesAt r (p :: ps) =
      (((membersAt p).entry r).map fun e => (p, e)).toList ++ entriesAt r ps := by
  rw [entriesAt, List.filterMap_cons]
  cases (membersAt p).entry r <;> rfl

lemma mem_of_mem_entriesAt {r : RepositoryEntry} {ps : List Bytes} {x : Bytes × PackageEntry}
    (h : x ∈ entriesAt r ps) : x.1 ∈ ps := by
  obtain ⟨p, hp, hx⟩ := List.mem_filterMap.1 h
  obtain ⟨e, -, rfl⟩ := Option.map_eq_some_iff.1 hx
  exact hp

/-- No element is read from the members of an object. -/
lemma packageStarts_members : ∀ {l : List Member} (fuel : ℕ), (∀ m ∈ l, m.Framed ∧ Value m.value) →
    packageStarts fuel (opened (ch '}') (l.map Member.text) q) = []
  | _, 0, _ => rfl
  | [], fuel + 1, _ => by
    have hend : valueEnd (ch '}' :: q) = (ch '}' :: q, true) := by
      have hlead : Lead (ch '}' :: q) := lead_cons _ (by decide)
      simp only [valueEnd, jsonSpace_eq_self hlead,
        valueEndFrom_stop (c := ch '}') (.inr (.inl rfl)), and_self, decide_true]
    have hlead : Lead (ch '}' :: q) := lead_cons _ (by decide)
    have hstop : ¬(ch '}' = 0 ∨ ch '}' = ch ']') := by decide
    have hopen : ch '}' ≠ ch '{' ∧ ch '}' ≠ ch ',' := by decide
    simp only [List.map_nil, opened, packageStarts, jsonSpace_eq_self hlead, cur_cons, if_neg hstop,
      ne_eq, hopen, hend, not_false_eq_true, if_true]
  | m :: l, fuel + 1, hl => by
    obtain ⟨hm, hv⟩ := hl m List.mem_cons_self
    have hcur : cur (jsonSpace (m.text ++ closing (ch '}') (l.map Member.text) q)) = ch '"' := by
      obtain ⟨b, -, hb⟩ := hm.key
      have htext : m.text ++ closing (ch '}') (l.map Member.text) q = m.before ++ (m.key ++
          (m.beforeColon ++ ch ':' :: (m.afterColon ++
            (m.value ++ (m.after ++ closing (ch '}') (l.map Member.text) q))))) := by
        simp [Member.text]
      rw [htext, jsonSpace_append hm.before hm.key.lead, hb]
      rfl
    have hend : valueEnd (jsonSpace (m.text ++ closing (ch '}') (l.map Member.text) q)) =
        (closing (ch '}') (l.map Member.text) q, true) := by
      rw [← valueEnd_member hm hv, valueEnd, valueEnd, jsonSpace_eq_self (lead_jsonSpace _)]
    have hstop : ¬(ch '"' = 0 ∨ ch '"' = ch ']') := by decide
    have hopen : ch '"' ≠ ch '{' := by decide
    rw [List.map_cons, opened, packageStarts]
    simp only [hcur, if_neg hstop, ne_eq, hopen, not_false_eq_true, if_true, hend]
    cases l with
    | nil => exact if_pos (by rw [List.map_nil, closing, cur_cons]; decide)
    | cons m' l =>
      rw [if_neg (by rw [List.map_cons, closing, cur_cons]; decide)]
      exact packageStarts_members fuel fun m'' h => hl m'' (List.mem_cons_of_mem m h)

/-- **One turn** of the loop over the packages at an object. -/
lemma packageStarts_object (h : IsObject ms v) (fuel : ℕ) (t : Bytes) :
    packageStarts (fuel + 1) (v ++ t) = (v ++ t) :: packageStarts fuel
      (skipComma (jsonSpace (skipBrace (readMembers (v ++ t).length .start (v ++ t).tail).2))) := by
  obtain ⟨w, -, -, htext⟩ := h.exists_opened t
  have hlead : Lead (v ++ t) := htext ▸ lead_cons _ (by decide)
  have hcur : cur (v ++ t) = ch '{' := by
    rw [htext]
    rfl
  have hstop : ¬(ch '{' = 0 ∨ ch '{' = ch ']') := by decide
  rw [packageStarts]
  simp only [jsonSpace_eq_self hlead, hcur, if_neg hstop, ne_eq, not_true_eq_false, if_false]

/-- **An object without a harmful fault**: the loop goes on behind it. -/
lemma packageStarts_of_not_derails (h : IsObject ms v) (hms : ¬Derails ms) (fuel : ℕ) {t : Bytes}
    (hsize : (v ++ t).length ≤ sizeMax) :
    packageStarts (fuel + 1) (v ++ t) = (v ++ t) :: packageStarts fuel (skipComma (jsonSpace t)) := by
  have hbrace : (readMembers (v ++ t).length .start (v ++ t).tail).2 = ch '}' :: t := by
    rcases exists_breaks ms with hread | ⟨before, m, after, hbreaks⟩
    · obtain ⟨b, -, hrun⟩ := readMembers_object h hread hsize
      rw [hrun]
    · obtain ⟨b, -, hrun⟩ := readMembers_breaks h hbreaks hsize
      obtain ⟨hquote, rfl⟩ : cur m.value = ch '"' ∧ after = [] := by
        by_contra hne
        exact hms ⟨before, m, after, hbreaks, by tauto⟩
      rw [hrun, faultRest, if_pos hquote]
      rfl
  rw [packageStarts_object h, hbrace, skipBrace, cur_cons, if_pos rfl, List.tail_cons]

lemma Strays.derails (h : Strays ms) : Derails ms := by
  have hquote : ch '{' ≠ ch '"' := by decide
  cases h with
  | entry hms hobject h => exact ⟨_, _, _, hms, .inl (by rwa [hobject.cur_eq])⟩
  | deeper hms hobject h => exact ⟨_, _, _, hms, .inl (by rwa [hobject.cur_eq])⟩

/-- What stands where a string should decides. -/
lemma Breaks.strays_iff {before after : List Member} (h : Breaks ms before m after) :
    Strays ms ↔ ∃ ms', IsObject ms' m.value ∧ (Filled ms' ∨ Strays ms') := by
  constructor
  · intro hs
    cases hs with
    | entry hms hobject hfilled =>
      obtain ⟨rfl, rfl, rfl⟩ := h.unique hms
      exact ⟨_, hobject, .inl hfilled⟩
    | deeper hms hobject hstrays =>
      obtain ⟨rfl, rfl, rfl⟩ := h.unique hms
      exact ⟨_, hobject, .inr hstrays⟩
  · rintro ⟨ms', hobject, hfilled | hstrays⟩
    · exact .entry h hobject hfilled
    · exact .deeper h hobject hstrays

/-- **An object with a harmful fault**: the loop never comes behind it, and reads elements only from
the objects that stand where strings should. -/
lemma packageStarts_of_derails {r : RepositoryEntry} : ∀ {n : ℕ} {ms : List Member} {v t : Bytes}
    {fuel : ℕ}, v.length ≤ n → IsObject ms v → Derails ms → (v ++ t).length ≤ sizeMax →
    (v ++ t).length ≤ fuel → ∃ ps, packageStarts fuel (v ++ t) = (v ++ t) :: ps ∧
      (∀ p ∈ ps, t.length < p.length ∧ p.length < (v ++ t).length) ∧
      (entriesAt r ps = [] ↔ ¬Strays ms) := by
  intro n
  induction n with
  | zero =>
    intro ms v t fuel hn h
    obtain ⟨inner, -, rfl⟩ := h.text
    exact absurd hn (by simp)
  | succ n ih =>
    rintro ms v t (_ | fuel) hn h ⟨before, m, after, hbreaks, hharm⟩ hsize hfuel
    · obtain ⟨inner, -, rfl⟩ := h.text
      exact absurd hfuel (by simp)
    obtain ⟨b, -, hrun⟩ := readMembers_breaks h hbreaks hsize
    obtain ⟨rfl, -, -⟩ := id hbreaks
    have hmem : m ∈ before ++ m :: after := by simp
    have hv := h.value m hmem
    have hafter := (h.framed m hmem).after
    have hrest : ∀ m' ∈ after, m'.Framed ∧ Value m'.value := fun m' hm' =>
      ⟨h.framed m' (by simp [hm']), h.value m' (by simp [hm'])⟩
    have hlt := h.length_member_lt t
    have hclosing := length_closing (ch '}') (after.map Member.text) t
    have hkey : 2 ≤ m.key.length := by
      obtain ⟨b, -, hb⟩ := (h.framed m hmem).key
      rw [hb, List.length_append, List.length_cons, List.length_singleton]
      omega
    simp only [Member.text, List.length_append, List.length_cons] at hlt
    rw [packageStarts_object h, hrun, faultRest, hbreaks.strays_iff]
    by_cases hquote : cur m.value = ch '"'
    · -- the loop reads on over the members
      have hne : after ≠ [] := hharm.resolve_left (not_not.2 hquote)
      have hbrace : cur (closing (ch '}') (after.map Member.text) t) ≠ ch '}' := by
        cases after with
        | nil => exact absurd rfl hne
        | cons m' after =>
          rw [List.map_cons, closing, cur_cons]
          decide
      rw [if_pos hquote, skipBrace, if_neg hbrace, skipComma_closing (.inl rfl),
        packageStarts_members fuel hrest]
      refine ⟨[], rfl, by simp, iff_of_true rfl ?_⟩
      rintro ⟨ms', hobject, -⟩
      rw [hobject.cur_eq] at hquote
      exact absurd hquote (by decide)
    obtain ⟨h0, hbrace, hbracket, hcomma⟩ := cur_value_ne hv
    have hstay : skipComma (jsonSpace (skipBrace (m.value ++ (m.after ++
        closing (ch '}') (after.map Member.text) t)))) =
        m.value ++ (m.after ++ closing (ch '}') (after.map Member.text) t) := by
      rw [skipBrace, cur_value_append hv, if_neg hbrace, jsonSpace_eq_self hv.lead, skipComma,
        cur_value_append hv, if_neg hcomma]
    rw [if_neg hquote, hstay]
    by_cases hobject : cur m.value = ch '{'
    · -- the loop reads the object as an element
      have hvalue : ∃ v', m.value = ch '{' :: v' := ⟨_, cur_eq_cons hobject (by decide)⟩
      obtain ⟨ms', hms'⟩ : ∃ ms', IsObject ms' m.value := by
        obtain ⟨v', hv'⟩ := hvalue
        rw [hv'] at hv ⊢
        exact hv.isObject
      have hsize' : (m.value ++ (m.after ++ closing (ch '}') (after.map Member.text) t)).length ≤
          sizeMax := by
        simp only [List.length_append] at hsize ⊢
        omega
      have hread : ∀ ms', IsObject ms' m.value → ∃ ps, packageStarts fuel
          (m.value ++ (m.after ++ closing (ch '}') (after.map Member.text) t)) =
            (m.value ++ (m.after ++ closing (ch '}') (after.map Member.text) t)) :: ps ∧
          (∀ p ∈ ps, t.length < p.length ∧ p.length < (v ++ t).length) ∧
          (entriesAt r ps = [] ↔ ¬Strays ms') := by
        intro ms' hms'
        by_cases hderails : Derails ms'
        · obtain ⟨ps, hps, hlen, hiff⟩ := @ih ms' m.value
            (m.after ++ closing (ch '}') (after.map Member.text) t) fuel (by omega) hms' hderails hsize'
            (by simp only [List.length_append] at hfuel ⊢; omega)
          refine ⟨ps, hps, fun p hp => ?_, hiff⟩
          obtain ⟨hlo, hhi⟩ := hlen p hp
          simp only [List.length_append] at hlo hhi ⊢
          omega
        · obtain ⟨fuel, rfl⟩ : ∃ k, fuel = k + 1 := by
            simp only [List.length_append] at hfuel
            exact ⟨fuel - 1, by omega⟩
          rw [packageStarts_of_not_derails hms' hderails fuel hsize', skipComma_space_closing (.inl rfl) hafter,
            packageStarts_members fuel hrest]
          exact ⟨[], rfl, by simp, iff_of_true rfl fun hs => hderails hs.derails⟩
      obtain ⟨ps, hps, hlen, -⟩ := hread ms' hms'
      refine ⟨_, by rw [hps], fun p hp => ?_, ?_⟩
      · rcases List.mem_cons.1 hp with rfl | hp
        · simp only [List.length_append]
          omega
        · exact hlen p hp
      · have hentry : ∀ ms', IsObject ms' m.value → ((membersAt (m.value ++ (m.after ++
            closing (ch '}') (after.map Member.text) t))).entry r = none ↔ ¬Filled ms') :=
          fun ms' hms' => entry_eq_none_iff hms' hsize' r
        have hstrays : ∀ ms', IsObject ms' m.value → (entriesAt r ps = [] ↔ ¬Strays ms') := by
          intro ms' hms'
          obtain ⟨ps', hps', -, hiff⟩ := hread ms' hms'
          obtain rfl := (List.cons.inj (hps.symm.trans hps')).2
          exact hiff
        rw [entriesAt_cons, List.append_eq_nil_iff, Option.toList_eq_nil_iff, Option.map_eq_none_iff]
        constructor
        · rintro ⟨hnone, hnil⟩ ⟨ms', hms', hfilled | hs⟩
          · exact (hentry ms' hms').1 hnone hfilled
          · exact (hstrays ms' hms').1 hnil hs
        · intro hno
          exact ⟨(hentry ms' hms').2 fun hf => hno ⟨ms', hms', .inl hf⟩,
            (hstrays ms' hms').2 fun hs => hno ⟨ms', hms', .inr hs⟩⟩
    · obtain ⟨fuel, rfl⟩ : ∃ k, fuel = k + 1 := by
        simp only [List.length_append] at hfuel
        exact ⟨fuel - 1, by omega⟩
      have hend := @valueEnd_closing _ (.inl rfl) [] m.value m.after (fun c hc => absurd hc List.not_mem_nil) hv
        hafter (after.map Member.text) t
      have hnil : packageStarts (fuel + 1)
          (m.value ++ (m.after ++ closing (ch '}') (after.map Member.text) t)) = [] := by
        rw [packageStarts, jsonSpace_eq_self hv.lead]
        simp only [cur_value_append hv, if_neg (not_or.2 ⟨h0, hbracket⟩), ne_eq, hobject,
          not_false_eq_true, if_true]
        rw [List.nil_append] at hend
        rw [hend]
        cases after with
        | nil => exact if_pos (by rw [List.map_nil, closing, cur_cons]; decide)
        | cons m' after =>
          rw [if_neg (by rw [List.map_cons, closing, cur_cons]; decide)]
          exact packageStarts_members fuel hrest
      rw [hnil]
      refine ⟨[], rfl, by simp, iff_of_true rfl ?_⟩
      rintro ⟨ms', hms', -⟩
      exact hobject hms'.cur_eq

/-! ### What an element should give -/

/-- The member has this name. -/
def Named (key : Bytes) (m : Member) : Prop := stringOf sizeMax m.key = some key

instance (key : Bytes) (m : Member) : Decidable (Named key m) :=
  inferInstanceAs (Decidable (_ = _))

/-- The member is there once, and its value is a string that fits its field and is not empty. -/
def Once (ms : List Member) (key x : Bytes) : Prop :=
  ∃ m, ms.filter (Named key) = [m] ∧ stringOf sizeMax m.value = some x ∧ x ≠ [] ∧
    x.length < capacity key

/-- The entry of a well-formed element in the index of `r`. -/
structure Lists (r : RepositoryEntry) (ms : List Member) (e : PackageEntry) : Prop where
  name : Once ms (str "name") e.name
  version : Once ms (str "version") e.version
  arch : Once ms (str "arch") e.arch
  url : Once ms (str "url") e.url
  priority : e.priority = r.priority
  order : e.order = r.order

/-- One of the four members is there more than once. -/
def Repeats (ms : List Member) : Prop := ∃ key ∈ packageKeys, 1 < (ms.filter (Named key)).length

lemma keyOf_eq_iff_named {key : Bytes} (hkey : key ∈ packageKeys) {m : Member} :
    keyOf m.key = key ↔ Named key m := by
  have hall : ∀ key ∈ packageKeys, key ≠ [] ∧ key.length < 32 := by decide
  exact keyOf_eq_iff (hall key hkey).1 (hall key hkey).2

lemma held_eq_filter {key : Bytes} (hkey : key ∈ packageKeys) (ms : List Member) :
    held key ms = held key (ms.filter (Named key)) := by
  unfold held
  rw [List.foldl_filter]
  congr 1
  funext old m
  by_cases hm : keyOf m.key = key
  · rw [if_pos hm, if_pos (decide_eq_true ((keyOf_eq_iff_named hkey).1 hm))]
  · rw [if_neg hm, if_neg fun h => hm ((keyOf_eq_iff_named hkey).2 (of_decide_eq_true h))]

/-- What is held of a member that is not repeated. -/
lemma held_iff_once {ms : List Member} (hread : ∀ m ∈ ms, ¬Unread m) (hms : ¬Repeats ms)
    {key : Bytes} (hkey : key ∈ packageKeys) {x : Bytes} :
    (held key ms = x ∧ x ≠ []) ↔ Once ms key x := by
  have hone : (ms.filter (Named key)).length ≤ 1 := not_lt.1 fun h => hms ⟨key, hkey, h⟩
  have hbounds := capacity_bounds key
  rw [held_eq_filter hkey, Once]
  cases hfilter : ms.filter (Named key) with
  | nil =>
    constructor
    · rintro ⟨rfl, hne⟩
      exact absurd rfl hne
    · rintro ⟨m, hm, -⟩
      exact absurd hm (by simp)
  | cons m l =>
    obtain rfl : l = [] := by
      rw [hfilter, List.length_cons] at hone
      exact List.eq_nil_of_length_eq_zero (by omega)
    have hmem : m ∈ ms.filter (Named key) := by
      rw [hfilter]
      exact List.mem_cons_self
    obtain ⟨hm, hnamed⟩ := List.mem_filter.1 hmem
    have hk : keyOf m.key = key := (keyOf_eq_iff_named hkey).2 (of_decide_eq_true hnamed)
    have hheld : held key [m] = (stringOf (capacity key) m.value).getD [] := if_pos hk
    rw [hheld]
    obtain ⟨out, hout⟩ : ∃ out, stringOf (capacity key) m.value = some out :=
      Option.ne_none_iff_exists'.1 fun h => hread m hm ⟨hk ▸ hkey, hk ▸ h⟩
    obtain ⟨hfull, hlen⟩ := (stringOf_eq_some hbounds.1 hbounds.2).1 hout
    rw [hout, Option.getD_some]
    constructor
    · rintro ⟨rfl, hne⟩
      exact ⟨m, rfl, hfull, hne, hlen⟩
    · rintro ⟨m', hm', hx, hne, -⟩
      obtain rfl := (List.cons.inj hm').1
      exact ⟨Option.some.inj (hfull.symm.trans hx), hne⟩

/-- An element with a member that cannot be read is not well formed. -/
lemma Once.not_unread {ms : List Member} {m : Member} {x : Bytes} (hm : m ∈ ms)
    (h : Once ms (keyOf m.key) x) : ¬Unread m := by
  rintro ⟨hkey, hnone⟩
  obtain ⟨m', hfilter, hx, -, hlen⟩ := h
  have hmem : m ∈ ms.filter (Named (keyOf m.key)) :=
    List.mem_filter.2 ⟨hm, decide_eq_true ((keyOf_eq_iff_named hkey).1 rfl)⟩
  rw [hfilter] at hmem
  obtain rfl := List.mem_singleton.1 hmem
  have hbounds := capacity_bounds (keyOf m.key)
  have hsome := (stringOf_eq_some hbounds.1 hbounds.2).2 ⟨hx, hlen⟩
  exact absurd (hsome.symm.trans hnone) (by simp)

lemma Lists.not_unread {r : RepositoryEntry} {ms : List Member} {e : PackageEntry}
    (h : Lists r ms e) {m : Member} (hm : m ∈ ms) : ¬Unread m := by
  intro hunread
  have hkey := hunread.1
  simp only [packageKeys, List.mem_cons, List.not_mem_nil, or_false] at hkey
  rcases hkey with hk | hk | hk | hk
  · exact Once.not_unread hm (hk ▸ h.name) hunread
  · exact Once.not_unread hm (hk ▸ h.version) hunread
  · exact Once.not_unread hm (hk ▸ h.arch) hunread
  · exact Once.not_unread hm (hk ▸ h.url) hunread

/-- **An element whose members can be read** gives the entry that it lists. -/
lemma entry_iff_lists {ms : List Member} {b : Members} (hb : Holds b ms)
    (hread : ∀ m ∈ ms, ¬Unread m) (hms : ¬Repeats ms) {r : RepositoryEntry} {e : PackageEntry} :
    b.entry r = some e ↔ Lists r ms e := by
  have hmem : str "name" ∈ packageKeys ∧ str "version" ∈ packageKeys ∧ str "arch" ∈ packageKeys ∧
      str "url" ∈ packageKeys := by decide
  obtain ⟨hname, hversion, harch, hurl⟩ := hmem
  have hbuffers : ∀ {p : Bytes → Prop}, (∀ key ∈ packageKeys, p (cstr (b.buffer key))) ↔
      p (held (str "name") ms) ∧ p (held (str "version") ms) ∧ p (held (str "arch") ms) ∧
        p (held (str "url") ms) := by
    intro p
    simp only [← hb _ hname, ← hb _ hversion, ← hb _ harch, ← hb _ hurl]
    simp only [packageKeys, List.mem_cons, List.not_mem_nil, or_false, forall_eq_or_imp, forall_eq]
  rw [Members.entry_eq_some, hbuffers (p := (· ≠ [])), hb _ hname, hb _ hversion, hb _ harch,
    hb _ hurl]
  constructor
  · rintro ⟨⟨h1, h2, h3, h4⟩, rfl⟩
    exact ⟨(held_iff_once hread hms hname).1 ⟨rfl, h1⟩, (held_iff_once hread hms hversion).1 ⟨rfl, h2⟩,
      (held_iff_once hread hms harch).1 ⟨rfl, h3⟩, (held_iff_once hread hms hurl).1 ⟨rfl, h4⟩,
      rfl, rfl⟩
  · rintro ⟨h1, h2, h3, h4, hpriority, horder⟩
    obtain ⟨h1, hne1⟩ := (held_iff_once hread hms hname).2 h1
    obtain ⟨h2, hne2⟩ := (held_iff_once hread hms hversion).2 h2
    obtain ⟨h3, hne3⟩ := (held_iff_once hread hms harch).2 h3
    obtain ⟨h4, hne4⟩ := (held_iff_once hread hms hurl).2 h4
    rw [h1, h2, h3, h4, ← hpriority, ← horder]
    exact ⟨⟨hne1, hne2, hne3, hne4⟩, rfl⟩

/-! ### The elements of the array -/

/-- An element of `packages`, with its members if it is an object. -/
structure IndexElement where
  element : Element
  members : Option (List Member)

def IndexElement.text (e : IndexElement) : Bytes := e.element.text

/-- The element is what its parts say. -/
structure IndexElement.Shaped (e : IndexElement) : Prop where
  framed : e.element.Framed
  value : Value e.element.value
  object : ∀ ms ∈ e.members, IsObject ms e.element.value
  other : e.members = none → cur e.element.value ≠ ch '{'

/-- **What an element owes**: its entry if it is well formed, and none otherwise. An element that
repeats a member may be treated either way. -/
def IndexElement.Owes (r : RepositoryEntry) (e : IndexElement) (o : Option PackageEntry) : Prop :=
  match e.members with
  | none => o = none
  | some ms => Repeats ms ∨ ∀ x, o = some x ↔ Lists r ms x

/-- The place where an element starts, before the elements `es` and the rest `q` of the text. -/
def IndexElement.start (e : IndexElement) (es : List IndexElement) (q : Bytes) : Bytes :=
  e.element.value ++ (e.element.after ++ closing (ch ']') (es.map IndexElement.text) q)

/-- **What an array of elements owes**: what each of its elements owes, in their order, from the
place where it starts. -/
def Owed (r : RepositoryEntry) : List IndexElement → Bytes → List (Bytes × PackageEntry) → Prop
  | [], _, read => read = []
  | e :: es, q, read => ∃ o rest, e.Owes r o ∧
    read = (o.map fun x => (e.start es q, x)).toList ++ rest ∧ Owed r es q rest

/-- The members give an entry although one of them cannot be read: a string that does not fit stands
last, with a part of it in its buffer. -/
def Cut (ms : List Member) : Prop := ¬Repeats ms ∧ (∃ m ∈ ms, Unread m) ∧ Filled ms

/-- **No member that cannot be read does harm**: none gives an entry that is cut, and behind the
first element in which the loop over the members does not come to the end there is no element that
is well formed, nor one in that element itself. -/
def Harmless (r : RepositoryEntry) : List IndexElement → Prop
  | [] => True
  | ⟨_, none⟩ :: es => Harmless r es
  | ⟨_, some ms⟩ :: es => ¬Cut ms ∧ (¬Derails ms → Harmless r es) ∧
    (Derails ms → ¬Strays ms ∧ ∀ e ∈ es, ∀ ms' ∈ e.members, Repeats ms' ∨ ∀ x, ¬Lists r ms' x)

lemma packageStarts_space (fuel : ℕ) {w : Bytes} (hw : Whitespace w) {p : Bytes} (hp : Lead p) :
    packageStarts fuel (w ++ p) = packageStarts fuel p := by
  cases fuel with
  | zero => rfl
  | succ fuel => rw [packageStarts, packageStarts, jsonSpace_append hw hp, jsonSpace_eq_self hp]

/-- Nothing is read behind the closing bracket. -/
lemma packageStarts_close (fuel : ℕ) (q : Bytes) : packageStarts fuel (ch ']' :: q) = [] := by
  cases fuel with
  | zero => rfl
  | succ fuel =>
    have hlead : Lead (ch ']' :: q) := lead_cons _ (by decide)
    rw [packageStarts, jsonSpace_eq_self hlead]
    exact if_pos (.inr rfl)

/-- **An element that is no object** is passed over. -/
lemma packageStarts_other {v after : Bytes} (hv : Value v) (hobject : cur v ≠ ch '{')
    (hafter : Whitespace after) (fuel : ℕ) (l : List Bytes) :
    packageStarts (fuel + 1) (v ++ (after ++ closing (ch ']') l q)) =
      packageStarts fuel (opened (ch ']') l q) := by
  obtain ⟨h0, -, hbracket, -⟩ := cur_value_ne hv
  have hend := @valueEnd_closing _ (.inr rfl) [] v after (fun c hc => absurd hc List.not_mem_nil) hv
    hafter l q
  rw [List.nil_append] at hend
  rw [packageStarts, jsonSpace_eq_self hv.lead]
  simp only [cur_value_append hv, if_neg (not_or.2 ⟨h0, hbracket⟩), ne_eq, hobject,
    not_false_eq_true, if_true, hend]
  cases l with
  | nil => rw [opened, packageStarts_close, closing, cur_cons, if_pos (by decide)]
  | cons a l => rw [closing, cur_cons, if_neg (by decide), List.tail_cons, opened]

variable {r : RepositoryEntry}

/-- The places of what is owed are in the text. -/
lemma Owed.length_le : ∀ {es : List IndexElement} {read : List (Bytes × PackageEntry)},
    Owed r es q read → ∀ x ∈ read, x.1.length ≤ (opened (ch ']') (es.map IndexElement.text) q).length
  | [], read, h, x, hx => by
    obtain rfl : read = [] := h
    exact absurd hx List.not_mem_nil
  | e :: es, read, h, x, hx => by
    obtain ⟨o, rest, -, rfl, hrest⟩ := h
    have hstart : (e.start es q).length ≤ (opened (ch ']') ((e :: es).map IndexElement.text) q).length := by
      simp only [IndexElement.start, List.map_cons, opened, IndexElement.text, Element.text,
        List.length_append]
      omega
    have hle : (opened (ch ']') (es.map IndexElement.text) q).length ≤ (e.start es q).length := by
      rw [IndexElement.start, List.length_append, List.length_append]
      cases es with
      | nil =>
        rw [List.map_nil, opened, closing]
        omega
      | cons e' es =>
        rw [List.map_cons, opened, closing, List.length_cons]
        omega
    rcases List.mem_append.1 hx with hx | hx
    · obtain ⟨y, -, rfl⟩ := Option.map_eq_some_iff.1 (Option.mem_toList.1 hx)
      exact hstart
    · exact (hrest.length_le x hx).trans (hle.trans hstart)

/-- What is read from one place first, and then from later ones, is determined. -/
lemma first_unique {s : Bytes} {o o' : Option PackageEntry} {l l' : List (Bytes × PackageEntry)}
    (hl : ∀ x ∈ l, x.1.length < s.length) (hl' : ∀ x ∈ l', x.1.length < s.length)
    (h : (o.map fun x => (s, x)).toList ++ l = (o'.map fun x => (s, x)).toList ++ l') :
    o = o' ∧ l = l' := by
  have hno : ∀ {x : PackageEntry} {l l' : List (Bytes × PackageEntry)},
      (∀ y ∈ l', y.1.length < s.length) → (s, x) :: l ≠ l' := by
    rintro x l l' hl' rfl
    exact absurd (hl' (s, x) List.mem_cons_self) (lt_irrefl _)
  cases o with
  | none =>
    cases o' with
    | none => exact ⟨rfl, h⟩
    | some x => exact absurd h.symm (hno hl)
  | some x =>
    cases o' with
    | none => exact absurd h (hno hl')
    | some y =>
      obtain ⟨hxy, hll⟩ := List.cons.inj h
      exact ⟨congrArg some (Prod.mk.inj hxy).2, hll⟩

/-- Nothing is owed by elements that are not well formed. -/
lemma owed_nil_iff : ∀ {es : List IndexElement}, Owed r es q [] ↔
    ∀ e ∈ es, ∀ ms ∈ e.members, Repeats ms ∨ ∀ x, ¬Lists r ms x
  | [] => by simp [Owed]
  | e :: es => by
    have hnone : e.Owes r none ↔ ∀ ms ∈ e.members, Repeats ms ∨ ∀ x, ¬Lists r ms x := by
      unfold IndexElement.Owes
      cases e.members <;> simp
    rw [List.forall_mem_cons, ← @owed_nil_iff es, ← hnone]
    constructor
    · rintro ⟨o, rest, ho, heq, hrest⟩
      obtain ⟨hopt, rfl⟩ := List.append_eq_nil_iff.1 heq.symm
      obtain rfl : o = none := by simpa using hopt
      exact ⟨ho, hrest⟩
    · rintro ⟨ho, hrest⟩
      exact ⟨none, [], ho, rfl, hrest⟩

/-- **The entry of an object** is the one that it owes, unless it is cut. -/
lemma owes_iff_not_cut {e : IndexElement} {ms : List Member} {v : Bytes} (he : e.members = some ms)
    (h : IsObject ms v) {t : Bytes} (hsize : (v ++ t).length ≤ sizeMax) :
    e.Owes r ((membersAt (v ++ t)).entry r) ↔ ¬Cut ms := by
  simp only [IndexElement.Owes, he]
  rcases exists_breaks ms with hread | ⟨before, m, after, hbreaks⟩
  · have hcut : ¬Cut ms := fun ⟨_, ⟨m, hm, hunread⟩, _⟩ => hread m hm hunread
    refine iff_of_true ?_ hcut
    by_cases hrepeats : Repeats ms
    · exact .inl hrepeats
    · obtain ⟨b, hb, hrun⟩ := readMembers_object h hread hsize
      rw [membersAt, hrun]
      exact .inr fun x => entry_iff_lists hb hread hrepeats
  · have hmem : m ∈ ms := by
      rw [hbreaks.eq]
      simp
    have hlists : ∀ x, ¬Lists r ms x := fun x hx => hx.not_unread hmem hbreaks.unread
    have hnone : (∀ x, (membersAt (v ++ t)).entry r = some x ↔ Lists r ms x) ↔ ¬Filled ms := by
      rw [← entry_eq_none_iff h hsize r]
      change _ ↔ (membersAt (v ++ t)).entry r = none
      rw [Option.eq_none_iff_forall_ne_some]
      exact forall_congr' fun x => by simp [hlists x]
    rw [hnone, Cut]
    constructor
    · rintro (hrepeats | hfilled) ⟨hno, -, hfill⟩
      · exact hno hrepeats
      · exact hfilled hfill
    · intro hcut
      by_contra hne
      rw [not_or, not_not] at hne
      exact hcut ⟨hne.1, ⟨m, hmem, hbreaks.unread⟩, hne.2⟩

/-- **The elements of an array** give what they owe exactly when there is no harmful fault. -/
lemma owed_iff_harmless : ∀ {es : List IndexElement} {fuel : ℕ}, (∀ e ∈ es, e.Shaped) →
    (opened (ch ']') (es.map IndexElement.text) q).length ≤ sizeMax →
    (opened (ch ']') (es.map IndexElement.text) q).length ≤ fuel →
    (∀ p ∈ packageStarts fuel (opened (ch ']') (es.map IndexElement.text) q),
      p.length ≤ (opened (ch ']') (es.map IndexElement.text) q).length) ∧
    (Owed r es q
      (entriesAt r (packageStarts fuel (opened (ch ']') (es.map IndexElement.text) q))) ↔
        Harmless r es)
  | [], fuel, _, _, _ => by
    rw [List.map_nil, opened, packageStarts_close]
    exact ⟨by simp, iff_of_true rfl trivial⟩
  | e :: es, 0, _, _, hfuel => by
    have hpos := length_closing (ch ']') (es.map IndexElement.text) q
    rw [List.map_cons, opened, List.length_append] at hfuel
    omega
  | e :: es, fuel + 1, hes, hsize, hfuel => by
    have he := hes e List.mem_cons_self
    have hrest := fun e' h => hes e' (List.mem_cons_of_mem e h)
    have htext : opened (ch ']') ((e :: es).map IndexElement.text) q =
        e.element.before ++ e.start es q := by
      simp [opened, IndexElement.start, IndexElement.text, Element.text]
    have hnext : (opened (ch ']') (es.map IndexElement.text) q).length ≤
        (closing (ch ']') (es.map IndexElement.text) q).length := by
      cases es with
      | nil => exact le_rfl
      | cons e' es => exact Nat.le_succ _
    have hvalue : 0 < e.element.value.length := List.length_pos_of_ne_nil he.value.ne_nil
    have hstart : (closing (ch ']') (es.map IndexElement.text) q).length + e.element.value.length ≤
        (e.start es q).length := by
      simp only [IndexElement.start, List.length_append]
      omega
    have hlead : Lead (e.start es q) := he.value.lead
    rw [htext, List.length_append] at hsize hfuel ⊢
    rw [packageStarts_space _ he.framed.before hlead]
    obtain ⟨hle, hiff⟩ := @owed_iff_harmless es fuel hrest (by omega) (by omega)
    have hentries : ∀ x ∈ entriesAt r (packageStarts fuel (opened (ch ']') (es.map IndexElement.text) q)),
        x.1.length < (e.start es q).length := fun x hx => by
      have hlen := hle x.1 (mem_of_mem_entriesAt hx)
      omega
    have howed : ∀ {read : List (Bytes × PackageEntry)}, Owed r es q read →
        ∀ x ∈ read, x.1.length < (e.start es q).length := fun h x hx => by
      have hlen := h.length_le x hx
      omega
    obtain ⟨el, _ | ms⟩ := e
    case none =>
      have hstep : packageStarts (fuel + 1) (IndexElement.start ⟨el, none⟩ es q) =
          packageStarts fuel (opened (ch ']') (es.map IndexElement.text) q) :=
        packageStarts_other he.value (he.other rfl) he.framed.after fuel _
      rw [hstep]
      refine ⟨fun p hp => ?_, ?_⟩
      · have hlen := hle p hp
        omega
      · rw [Harmless, ← hiff]
        constructor
        · rintro ⟨o, rest, ho, heq, h⟩
          obtain rfl : o = none := ho
          rw [Option.map_none, Option.toList_none, List.nil_append] at heq
          rwa [heq]
        · exact fun h => ⟨none, _, rfl, rfl, h⟩
    case some =>
      have hobject : IsObject ms el.value := he.object ms rfl
      have hstartSize : (IndexElement.start ⟨el, some ms⟩ es q).length ≤ sizeMax := by omega
      have howes := @owes_iff_not_cut r ⟨el, some ms⟩ ms el.value rfl hobject
        (el.after ++ closing (ch ']') (es.map IndexElement.text) q) hstartSize
      by_cases hderails : Derails ms
      · obtain ⟨ps, hps, hlen, hstrays⟩ := @packageStarts_of_derails r _ ms el.value
          (el.after ++ closing (ch ']') (es.map IndexElement.text) q) (fuel + 1) le_rfl hobject
          hderails hstartSize (by change (IndexElement.start ⟨el, some ms⟩ es q).length ≤ _; omega)
        have hps' : packageStarts (fuel + 1) (IndexElement.start ⟨el, some ms⟩ es q) =
            IndexElement.start ⟨el, some ms⟩ es q :: ps := hps
        have hnested : ∀ x ∈ entriesAt r ps,
            (closing (ch ']') (es.map IndexElement.text) q).length < x.1.length ∧
              x.1.length < (IndexElement.start ⟨el, some ms⟩ es q).length := fun x hx => by
          obtain ⟨hlo, hhi⟩ := hlen x.1 (mem_of_mem_entriesAt hx)
          rw [List.length_append] at hlo
          exact ⟨by omega, hhi⟩
        rw [hps', entriesAt_cons]
        refine ⟨fun p hp => ?_, ?_⟩
        · rcases List.mem_cons.1 hp with rfl | hp
          · omega
          · have hhi := (hlen p hp).2
            change p.length < (IndexElement.start ⟨el, some ms⟩ es q).length at hhi
            omega
        constructor
        · rintro ⟨o, rest, ho, heq, hrest'⟩
          obtain ⟨rfl, rfl⟩ := first_unique (fun x hx => (hnested x hx).2) (howed hrest') heq
          have hnil : entriesAt r ps = [] := by
            refine List.eq_nil_iff_forall_not_mem.2 fun x hx => ?_
            have hlo := (hnested x hx).1
            have hhi := hrest'.length_le x hx
            omega
          refine ⟨howes.1 ho, fun hno => absurd hderails hno, fun _ => ⟨hstrays.1 hnil, ?_⟩⟩
          rw [hnil] at hrest'
          exact owed_nil_iff.1 hrest'
        · rintro ⟨hcut, -, h⟩
          obtain ⟨hs, hnone⟩ := h hderails
          refine ⟨_, [], howes.2 hcut, ?_, owed_nil_iff.2 hnone⟩
          rw [hstrays.2 hs]
          rfl
      · have hps : packageStarts (fuel + 1) (IndexElement.start ⟨el, some ms⟩ es q) =
            IndexElement.start ⟨el, some ms⟩ es q ::
              packageStarts fuel (opened (ch ']') (es.map IndexElement.text) q) := by
          rw [← skipComma_space_closing (.inr rfl) he.framed.after]
          exact packageStarts_of_not_derails hobject hderails fuel hstartSize
        rw [hps, entriesAt_cons]
        refine ⟨fun p hp => ?_, ?_⟩
        · rcases List.mem_cons.1 hp with rfl | hp
          · omega
          · have hlen := hle p hp
            omega
        constructor
        · rintro ⟨o, rest, ho, heq, hrest'⟩
          obtain ⟨rfl, rfl⟩ := first_unique hentries (howed hrest') heq
          exact ⟨howes.1 ho, fun _ => hiff.1 hrest', fun h => absurd h hderails⟩
        · rintro ⟨hcut, h, -⟩
          exact ⟨_, _, howes.2 hcut, rfl, hiff.2 (h hderails)⟩

/-! ### The document -/

/-- The elements of the field `packages` of a document, and the text after their array. -/
def HasElements (text : Bytes) (es : List IndexElement) (q : Bytes) : Prop :=
  ∃ mark space v rest before m after,
    (mark = [] ∨ mark = [0xef, 0xbb, 0xbf]) ∧ Whitespace space ∧ Whitespace rest ∧
    text = mark ++ space ++ v ++ rest ∧ IsObject (before ++ m :: after) v ∧
    (∀ m' ∈ before, ¬Named (str "packages") m') ∧ Named (str "packages") m ∧
    IsArray (es.map IndexElement.element) m.value ∧ (∀ e ∈ es, e.Shaped) ∧
    q = m.after ++ closing (ch '}') (after.map Member.text) rest

lemma keyOf_eq_packages {k : Bytes} :
    keyOf k = str "packages" ↔ stringOf sizeMax k = some (str "packages") :=
  keyOf_eq_iff (by decide) (by decide)

/-- **The field `packages`** points to the elements. -/
lemma packagesArray_of_hasElements {text : Bytes} {es : List IndexElement}
    (h : HasElements text es q) (hsize : text.length ≤ sizeMax) : ∃ w, Whitespace w ∧
      (es ≠ [] → w = []) ∧
      packagesArray text = some (w ++ opened (ch ']') (es.map IndexElement.text) q) ∧
      (w ++ opened (ch ']') (es.map IndexElement.text) q).length ≤ text.length := by
  obtain ⟨mark, space, v, rest, before, m, after, hmark, hspace, -, rfl, hobject, hbefore, hm, harray,
    -, rfl⟩ := h
  have hfield := jsonField_append hmark hspace hobject
    (fun m' h => fun he => hbefore m' h (keyOf_eq_packages.1 he)) (keyOf_eq_packages.2 hm) hsize
  obtain ⟨inner, hinner, hvalue⟩ := harray.text
  obtain ⟨w, hw, hempty, happend⟩ := hinner.append (ch ']')
    (m.after ++ closing (ch '}') (after.map Member.text) rest)
  have hmap : (es.map IndexElement.element).map Element.text = es.map IndexElement.text := by
    rw [List.map_map]
    rfl
  rw [hmap] at happend hempty
  have hlt := hobject.length_member_lt rest
  have hpointer : m.value ++ (m.after ++ closing (ch '}') (after.map Member.text) rest) =
      ch '[' :: (w ++ opened (ch ']') (es.map IndexElement.text)
        (m.after ++ closing (ch '}') (after.map Member.text) rest)) := by
    rw [hvalue, ← happend]
    simp
  refine ⟨w, hw, fun hne => hempty (by simpa using hne), ?_, ?_⟩
  · rw [packagesArray, hfield, hpointer]
    exact if_pos rfl
  · have hle := congrArg List.length hpointer
    simp only [Member.text, List.length_append, List.length_cons] at hle hlt ⊢
    omega

/-- Every index that is supported has its elements. -/
lemma exists_hasElements {text : Bytes} (h : indexFileSupported text = true) :
    ∃ es q, HasElements text es q := by
  have hlimit : 4 * 1024 * 1024 < sizeMax := by decide
  simp only [indexFileSupported, documentSupported, indexSizeValid, Bool.and_eq_true,
    decide_eq_true_eq] at h
  obtain ⟨⟨⟨⟨⟨-, hsize⟩, h0⟩, hvalid⟩, -⟩, harray⟩ := h
  obtain ⟨p, hp⟩ := Option.isSome_iff_exists.1 harray
  obtain ⟨mark, space, v, rest, hmark, hspace, hv, hrest, rfl⟩ :=
    document_of_documentValid h0 (by omega) hvalid
  have hle : (mark ++ space ++ v ++ rest).length ≤ sizeMax := by omega
  obtain ⟨x, hx, hxp⟩ : ∃ x, jsonField (mark ++ space ++ v ++ rest) (str "packages") = some x ∧
      cur x = ch '[' := by
    unfold packagesArray at hp
    cases hx : jsonField (mark ++ space ++ v ++ rest) (str "packages") with
    | none =>
      rw [hx] at hp
      exact absurd hp (by simp)
    | some x =>
      rw [hx] at hp
      exact ⟨x, rfl, (Option.ite_none_right_eq_some.1 hp).1⟩
  obtain ⟨ms, hobject⟩ : ∃ ms, IsObject ms v := by
    have hcur : cur v = ch '{' := by
      by_contra hne
      rw [jsonField, jsonContent_append hmark hspace hv] at hx
      simp only [cur_value_append hv, ne_eq, hne, not_false_eq_true, if_true] at hx
      exact absurd hx (by simp)
    rw [cur_eq_cons hcur (by decide)] at hv ⊢
    exact hv.isObject
  cases hfind : ms.find? (fun m => decide (Named (str "packages") m)) with
  | none =>
    have hms : ∀ m ∈ ms, keyOf m.key ≠ str "packages" := fun m hm he =>
      List.find?_eq_none.1 hfind m hm (decide_eq_true (keyOf_eq_packages.1 he))
    exact absurd (hx.symm.trans (jsonField_eq_none hmark hspace hobject hms hle)) (by simp)
  | some m =>
    obtain ⟨hm, before, after, rfl, hbefore⟩ := List.find?_eq_some_iff_append.1 hfind
    have hm : Named (str "packages") m := of_decide_eq_true hm
    have hbefore : ∀ m' ∈ before, ¬Named (str "packages") m' := by simpa using hbefore
    have hmv : Value m.value := hobject.value m (by simp)
    have hfield := jsonField_append hmark hspace hobject
      (fun m' h => fun he => hbefore m' h (keyOf_eq_packages.1 he)) (keyOf_eq_packages.2 hm) hle
    obtain rfl := Option.some.inj (hx.symm.trans hfield)
    rw [cur_value_append hmv] at hxp
    obtain ⟨els, harray⟩ : ∃ els, IsArray els m.value := by
      rw [cur_eq_cons hxp (by decide)] at hmv ⊢
      exact hmv.isArray
    obtain ⟨es, rfl, hshaped⟩ : ∃ es : List IndexElement, es.map IndexElement.element = els ∧
        ∀ e ∈ es, e.Shaped := by
      have hframed := harray.framed
      have hvalue := harray.value
      clear harray
      induction els with
      | nil => exact ⟨[], rfl, by simp⟩
      | cons el els ih =>
        obtain ⟨es, hes, hshaped⟩ := ih (fun e he => hframed e (List.mem_cons_of_mem el he))
          (fun e he => hvalue e (List.mem_cons_of_mem el he))
        have helv := hvalue el List.mem_cons_self
        obtain ⟨e, he, heshaped⟩ : ∃ e : IndexElement, e.element = el ∧ e.Shaped := by
          by_cases hopen : cur el.value = ch '{'
          · obtain ⟨ms, hms⟩ : ∃ ms, IsObject ms el.value := by
              rw [cur_eq_cons hopen (by decide)] at helv ⊢
              exact helv.isObject
            refine ⟨⟨el, some ms⟩, rfl, hframed el List.mem_cons_self, helv, ?_, ?_⟩
            · rintro ms' hms'
              obtain rfl := Option.some.inj hms'
              exact hms
            · exact fun h => absurd h (by simp)
          · exact ⟨⟨el, none⟩, rfl, hframed el List.mem_cons_self, helv,
              fun ms h => absurd h (by simp), fun _ => hopen⟩
        exact ⟨e :: es, by rw [List.map_cons, he, hes], by simpa using ⟨heshaped, hshaped⟩⟩
    exact ⟨es, _, mark, space, v, rest, before, m, after, hmark, hspace, hrest, rfl, hobject,
      hbefore, hm, harray, hshaped, rfl⟩

/-- The entries that are read from an index, with the places where their elements start. -/
def indexEntriesAt (r : RepositoryEntry) (text : Bytes) : List (Bytes × PackageEntry) :=
  match packagesArray text with
  | none => []
  | some p => entriesAt r (packageStarts p.length p)

/-- They are the entries that `parse_index` reads. -/
lemma indexEntries_eq (r : RepositoryEntry) (text : Bytes) :
    indexEntries r text = (indexEntriesAt r text).map Prod.snd := by
  unfold indexEntries indexEntriesAt
  cases packagesArray text with
  | none => rfl
  | some p =>
    simp only [readPackages_eq, entriesAt, List.filterMap_map, List.map_filterMap]
    congr 1
    funext q
    simp [Option.map_map, Function.comp_def]

/-- **The index is loaded as it should be**: `parse_index` adds the entries that it reads, while
there is room for them, and these are what the elements owe. -/
def Loads (fullPath : Bytes → Option Bytes) (r : RepositoryEntry) (text : Bytes)
    (es : List IndexElement) (q : Bytes) (entries : List PackageEntry)
    (repositories : List RepositoryEntry) : Prop :=
  (parseIndex fullPath r text entries repositories).map Prod.fst =
      some (addEntries entries ((indexEntriesAt r text).map Prod.snd)) ∧
    Owed r es q (indexEntriesAt r text)

/-- **`parse_index` loads exactly the well-formed elements when no member that it cannot read does
harm**, and otherwise it does not. -/
theorem loads_iff_harmless {text : Bytes} {es : List IndexElement} {q : Bytes}
    (h : indexFileSupported text = true) (hes : HasElements text es q)
    (fullPath : Bytes → Option Bytes) (r : RepositoryEntry) (entries : List PackageEntry)
    (repositories : List RepositoryEntry) :
    Loads fullPath r text es q entries repositories ↔ Harmless r es := by
  have hsize : text.length ≤ sizeMax := by
    simp only [indexFileSupported, documentSupported, indexSizeValid, Bool.and_eq_true,
      decide_eq_true_eq] at h
    have hlimit : 4 * 1024 * 1024 ≤ sizeMax := by decide
    omega
  obtain ⟨w, hw, hempty, hpackages, hlen⟩ := packagesArray_of_hasElements hes hsize
  have hshaped : ∀ e ∈ es, e.Shaped := by
    obtain ⟨-, -, -, -, -, -, -, -, -, -, -, -, -, -, -, hshaped, -⟩ := hes
    exact hshaped
  have hparse : (parseIndex fullPath r text entries repositories).map Prod.fst =
      some (addEntries entries ((indexEntriesAt r text).map Prod.snd)) := by
    rw [parseIndex, if_pos h, Option.map_some, indexEntries_eq]
  have hstarts : ∀ fuel, packageStarts fuel (w ++ opened (ch ']') (es.map IndexElement.text) q) =
      packageStarts fuel (opened (ch ']') (es.map IndexElement.text) q) := by
    intro fuel
    cases es with
    | nil => exact packageStarts_space fuel hw (lead_cons _ (by decide))
    | cons e es =>
      rw [hempty (List.cons_ne_nil e es), List.nil_append]
  rw [Loads, and_iff_right hparse, indexEntriesAt, hpackages]
  simp only [hstarts]
  rw [List.length_append] at hlen
  refine (owed_iff_harmless hshaped (by omega) ?_).2
  rw [List.length_append]
  omega

/-- A string of characters that stand for themselves. -/
def quoted (b : Bytes) : Bytes := ch '"' :: b ++ [ch '"']

lemma isString_quoted {b : Bytes} (h : ∀ c ∈ b, 0x20 ≤ c ∧ c ≠ ch '"' ∧ c ≠ ch '\\') :
    IsString (quoted b) := by
  refine ⟨b, ?_, rfl⟩
  induction b with
  | nil => exact .nil
  | cons c b ih =>
    obtain ⟨hc, hq, hb⟩ := h c List.mem_cons_self
    exact .cons (.raw hc hq hb) (ih fun d hd => h d (List.mem_cons_of_mem c hd))

/-- A member without white space. -/
def plainMember (key value : Bytes) : Member := ⟨[], quoted key, [], [], value, []⟩

/-- An object without white space. -/
def plainObject (ms : List Member) : Bytes := ch '{' :: commas (ms.map Member.text) ++ [ch '}']

lemma isObject_plainObject {keys : List Bytes} {values : List Bytes} (hne : keys.zip values ≠ [])
    (hkeys : ∀ b ∈ keys, ∀ c ∈ b, 0x20 ≤ c ∧ c ≠ ch '"' ∧ c ≠ ch '\\')
    (hvalues : ∀ v ∈ values, Value v) :
    IsObject ((keys.zip values).map fun x => plainMember x.1 x.2)
      (plainObject ((keys.zip values).map fun x => plainMember x.1 x.2)) := by
  have hnone : Whitespace [] := fun c hc => absurd hc List.not_mem_nil
  refine ⟨fun m hm => ?_, fun m hm => ?_, _, .inr ⟨by simpa using hne, rfl⟩, rfl⟩
  · obtain ⟨x, hx, rfl⟩ := List.mem_map.1 hm
    exact ⟨hnone, isString_quoted (hkeys _ (List.of_mem_zip hx).1), hnone, hnone, hnone⟩
  · obtain ⟨x, hx, rfl⟩ := List.mem_map.1 hm
    exact hvalues _ (List.of_mem_zip hx).2

/-- The members of an element whose name is the value `name`. -/
def sampleMembers (name : Bytes) : List Member :=
  (packageKeys.zip [name, quoted (str "1"), quoted (str "any"), quoted (str "u")]).map fun x =>
    plainMember x.1 x.2

def sampleElement (name : Bytes) : IndexElement :=
  ⟨⟨[], plainObject (sampleMembers name), []⟩, some (sampleMembers name)⟩

/-- An index of the elements. -/
def sampleIndex (es : List IndexElement) : Bytes :=
  plainObject [plainMember (str "version") (str "1"), plainMember (str "packages")
    (ch '[' :: commas (es.map IndexElement.text) ++ [ch ']'])]

lemma value_one : Value (str "1") := by
  refine .number ⟨[], str "1", [], [], .inl rfl, ?_, .none, .none, rfl⟩
  exact .digits (by decide) (by decide) (by simp)

lemma sampleElement_shaped {name : Bytes} (h : Value name) : (sampleElement name).Shaped := by
  have hnone : Whitespace [] := fun c hc => absurd hc List.not_mem_nil
  have hobject : IsObject (sampleMembers name) (plainObject (sampleMembers name)) := by
    refine isObject_plainObject (by simp [packageKeys]) (by decide +kernel) ?_
    have hplain : ∀ b ∈ [str "1", str "any", str "u"], ∀ c ∈ b,
        0x20 ≤ c ∧ c ≠ ch '"' ∧ c ≠ ch '\\' := by decide +kernel
    have hstring : ∀ b ∈ [str "1", str "any", str "u"], Value (quoted b) := fun b hb =>
      .string (isString_quoted (hplain b hb))
    simpa using ⟨h, hstring _ (by simp), hstring _ (by simp), hstring _ (by simp)⟩
  refine ⟨⟨hnone, hnone⟩, hobject.isValue, ?_, fun h => absurd h (by simp [sampleElement])⟩
  rintro ms hms
  obtain rfl := Option.some.inj hms
  exact hobject

lemma sampleIndex_hasElements {es : List IndexElement} (hne : es ≠ []) (h : ∀ e ∈ es, e.Shaped) :
    HasElements (sampleIndex es) es (str "\x7d") := by
  have hnone : Whitespace [] := fun c hc => absurd hc List.not_mem_nil
  have harray : IsArray (es.map IndexElement.element)
      (ch '[' :: commas (es.map IndexElement.text) ++ [ch ']']) := by
    refine ⟨fun e he => ?_, fun e he => ?_, _, .inr ⟨by simpa using hne, ?_⟩, rfl⟩
    · obtain ⟨x, hx, rfl⟩ := List.mem_map.1 he
      exact (h x hx).framed
    · obtain ⟨x, hx, rfl⟩ := List.mem_map.1 he
      exact (h x hx).value
    · rw [List.map_map]
      rfl
  have hobject := @isObject_plainObject [str "version", str "packages"]
    [str "1", ch '[' :: commas (es.map IndexElement.text) ++ [ch ']']]
    (by simp) (by decide +kernel) (by simpa using ⟨value_one, harray.isValue⟩)
  refine ⟨[], [], _, [], [plainMember (str "version") (str "1")], _, [], .inl rfl, hnone, hnone,
    (by rw [List.append_nil]; rfl), hobject, ?_, ?_, harray, h, rfl⟩
  · intro m hm
    obtain rfl := List.mem_singleton.1 hm
    decide +kernel
  · change stringOf sizeMax (quoted (str "packages")) = some (str "packages")
    decide +kernel

/-- The index `r` of the samples. -/
def sampleRepository : RepositoryEntry := ⟨str "C:\\r", 5, 2, false⟩

lemma value_name {name : Bytes} (h : ∀ c ∈ name, 0x20 ≤ c ∧ c ≠ ch '"' ∧ c ≠ ch '\\') :
    Value (quoted name) := .string (isString_quoted h)

/-- A number, and two packages. -/
def mixedElements : List IndexElement :=
  [⟨⟨[], str "1", []⟩, none⟩, sampleElement (quoted (str "a")), sampleElement (quoted (str "b"))]

lemma mixedElements_shaped : ∀ e ∈ mixedElements, e.Shaped := by
  have hnone : Whitespace [] := fun c hc => absurd hc List.not_mem_nil
  refine List.forall_mem_cons.2 ⟨?_, List.forall_mem_cons.2 ⟨?_, List.forall_mem_singleton.2 ?_⟩⟩
  · exact ⟨⟨hnone, hnone⟩, value_one, fun _ h => absurd h (by simp), fun _ => by decide⟩
  · exact sampleElement_shaped (value_name (by decide +kernel))
  · exact sampleElement_shaped (value_name (by decide +kernel))

/-- Members that can all be read do no harm. -/
lemma harmless_of_read {r : RepositoryEntry} {es : List IndexElement}
    (h : ∀ e ∈ es, ∀ ms ∈ e.members, ∀ m ∈ ms, ¬Unread m) : Harmless r es := by
  induction es with
  | nil => trivial
  | cons e es ih =>
    obtain ⟨hread, hrest⟩ := List.forall_mem_cons.1 h
    obtain ⟨element, _ | ms⟩ := e
    · exact ih hrest
    · refine ⟨fun hcut => ?_, fun _ => ih hrest, fun hderails => ?_⟩
      · obtain ⟨-, ⟨m, hm, hunread⟩, -⟩ := hcut
        exact hread ms rfl m hm hunread
      · obtain ⟨before, m, after, hbreaks, -⟩ := hderails
        exact absurd hbreaks.unread (hread ms rfl m (by rw [hbreaks.eq]; simp))

theorem loads_iff_harmless_sample :
    Loads some sampleRepository (sampleIndex mixedElements) mixedElements (str "\x7d") [] [] := by
  have hread : ∀ name ∈ [str "a", str "b"], ∀ m ∈ sampleMembers (quoted name), ¬Unread m := by
    decide +kernel
  refine (loads_iff_harmless (by decide +kernel)
    (sampleIndex_hasElements (List.cons_ne_nil _ _) mixedElements_shaped) some _ [] []).2
    (harmless_of_read ?_)
  refine List.forall_mem_cons.2 ⟨?_, List.forall_mem_cons.2 ⟨?_, List.forall_mem_singleton.2 ?_⟩⟩
  · exact fun _ h => absurd h (by simp)
  · exact fun ms h => Option.some.inj h ▸ hread _ (by simp)
  · exact fun ms h => Option.some.inj h ▸ hread _ (by simp)

/-- A package whose name is a number, and a package. -/
def droppedElements : List IndexElement :=
  [sampleElement (str "1"), sampleElement (quoted (str "a"))]

/-- A name that is a number: the well-formed element behind it is dropped. -/
theorem wellFormed_dropped :
    indexFileSupported (sampleIndex droppedElements) = true ∧
    HasElements (sampleIndex droppedElements) droppedElements (str "\x7d") ∧
    (parseIndex some sampleRepository (sampleIndex droppedElements) [] []).map Prod.fst = some [] ∧
    ¬Loads some sampleRepository (sampleIndex droppedElements) droppedElements (str "\x7d")
      [] [] := by
  have hshaped : ∀ e ∈ droppedElements, e.Shaped := List.forall_mem_cons.2
    ⟨sampleElement_shaped value_one, List.forall_mem_singleton.2
      (sampleElement_shaped (value_name (by decide +kernel)))⟩
  refine ⟨by decide +kernel, sampleIndex_hasElements (List.cons_ne_nil _ _) hshaped,
    by decide +kernel, fun h => ?_⟩
  have hnone : indexEntriesAt sampleRepository (sampleIndex droppedElements) = [] := by
    decide +kernel
  have howed := h.2
  rw [hnone] at howed
  rcases owed_nil_iff.1 howed (sampleElement (quoted (str "a"))) (by simp [droppedElements]) _
    rfl with hrepeats | hno
  · have hkeys : ∀ key ∈ packageKeys,
        ¬1 < ((sampleMembers (quoted (str "a"))).filter (Named key)).length := by decide +kernel
    obtain ⟨key, hkey, hlt⟩ := hrepeats
    exact hkeys key hkey hlt
  · refine hno ⟨str "a", str "1", str "any", str "u", 5, 2⟩ ⟨?_, ?_, ?_, ?_, rfl, rfl⟩
    · exact ⟨_, rfl, by decide +kernel, by decide, by decide⟩
    · exact ⟨_, rfl, by decide +kernel, by decide, by decide⟩
    · exact ⟨_, rfl, by decide +kernel, by decide, by decide⟩
    · exact ⟨_, rfl, by decide +kernel, by decide, by decide⟩

end Wpm.Repository
