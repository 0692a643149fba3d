import Wpm.Lib.Numeral
import Wpm.Https.Connection

/-!
The lengths that a server or the download of the system names.

Three readers of decimal numbers take only what a number of 64 bits holds: `http_content_length` a
list of equal lengths, `https_number` one number, and `download_parse_64bit_progress` a pair.
-/

namespace Wpm.Repository

open Wpm.Lib Wpm.Lib.CString Wpm.Https

/-- The digit of a character, of whatever width. -/
def decimalDigit (c : ℕ) : Option ℕ := if 48 ≤ c ∧ c ≤ 57 then some (c - 48) else none

def byteDigit (c : UInt8) : Option ℕ := decimalDigit c.toNat

def wideDigit (c : UInt16) : Option ℕ := decimalDigit c.toNat

/-- A space or a tab. -/
def isBlank (c : UInt8) : Bool := c = ch ' ' ∨ c = 9

/-- A turn of `http_content_length` up to the comma: a number between blanks, and the text behind. -/
def readLength (text : Bytes) : Option (ℕ × Bytes) :=
  (Numeral.readDigits byteDigit 10 ullongMax (text.dropWhile isBlank)).map fun p =>
    (p.1, p.2.dropWhile isBlank)

/-- The loop of `http_content_length`, with the length before, if there is one. -/
def contentLengthFrom : ℕ → Option ℕ → Bytes → Option ℕ
  | 0, _, _ => none
  | turns + 1, length, text =>
    match readLength text with
    | none => none
    | some (value, rest) =>
      if length ≠ none ∧ length ≠ some value then none
      else match rest with
        | [] => some value
        | c :: rest => if c = ch ',' then contentLengthFrom turns (some value) rest else none

/-- `http_content_length`. -/
def httpContentLength (text : Bytes) : Option ℕ := contentLengthFrom (text.length + 1) none text

/-- `download_parse_64bit_progress`, of a text in wide characters. -/
def downloadParse64bitProgress (text : List UInt16) : Option (ℕ × ℕ) :=
  match Numeral.readDigits wideDigit 10 ullongMax text with
  | none => none
  | some (current, rest) =>
    match rest with
    | [] => none
    | c :: rest =>
      if c ≠ 44 then none
      else match Numeral.readDigits wideDigit 10 ullongMax rest with
        | some (total, []) => some (current, total)
        | _ => none

/-! ### What they accept -/

/-- A decimal number with blanks around it. -/
def IsLength (n : ℕ) (item : Bytes) : Prop :=
  ∃ left digits right, item = left ++ digits ++ right ∧ (∀ c ∈ left, isBlank c = true) ∧
    (∀ c ∈ right, isBlank c = true) ∧ Numeral.Writes byteDigit 10 digits n

/-- A list of such numbers, all of them the same. -/
def IsLengths (n : ℕ) (text : Bytes) : Prop := ∀ item ∈ text.splitOn (ch ','), IsLength n item

section Lengths

variable {n : ℕ} {text item rest : Bytes}

lemma byteDigit_eq_none {c : UInt8} (h : isBlank c = true ∨ c = ch ',') : byteDigit c = none := by
  have hall : ∀ c : UInt8, c ∈ [ch ' ', 9, ch ','] → byteDigit c = none :=
    forall_mem_of_all (by decide)
  refine hall c ?_
  rcases h with h | rfl
  · have hc : c = ch ' ' ∨ c = 9 := by simpa [isBlank] using h
    rcases hc with rfl | rfl <;> decide
  · decide

lemma isDigit_of_writes {digits : Bytes} (h : Numeral.Writes byteDigit 10 digits n) :
    ∀ c ∈ digits, byteDigit c ≠ none := by
  obtain ⟨-, values, hvalues, -⟩ := h
  intro c hc
  have hmem : byteDigit c ∈ values.map some := hvalues ▸ List.mem_map_of_mem hc
  obtain ⟨d, -, hd⟩ := List.mem_map.1 hmem
  rw [← hd]
  exact Option.some_ne_none d

lemma IsLength.comma_notMem (h : IsLength n item) : ch ',' ∉ item := by
  obtain ⟨left, digits, right, rfl, hleft, hright, hdigits⟩ := h
  intro hmem
  have hcomma : byteDigit (ch ',') = none := byteDigit_eq_none (.inr rfl)
  rcases List.mem_append.1 hmem with hmem | hmem
  · rcases List.mem_append.1 hmem with hmem | hmem
    · exact absurd (hleft _ hmem) (by decide)
    · exact isDigit_of_writes hdigits _ hmem hcomma
  · exact absurd (hright _ hmem) (by decide)

/-- A turn takes a number with the blanks around it. -/
lemma readLength_sound (h : readLength text = some (n, rest)) :
    ∃ item, text = item ++ rest ∧ IsLength n item ∧ n ≤ ullongMax := by
  obtain ⟨⟨m, behind⟩, hdigits, heq⟩ := Option.map_eq_some_iff.1 h
  obtain ⟨rfl, rfl⟩ := Prod.mk.inj heq
  obtain ⟨digits, htext, hwrites, hle, -⟩ :=
    (Numeral.readDigits_eq_some (by decide) (by decide)).1 hdigits
  refine ⟨text.takeWhile isBlank ++ digits ++ behind.takeWhile isBlank, ?_,
    ⟨_, digits, _, rfl, fun c => List.mem_takeWhile_imp, fun c => List.mem_takeWhile_imp, hwrites⟩,
    hle⟩
  calc text = text.takeWhile isBlank ++ text.dropWhile isBlank :=
        List.takeWhile_append_dropWhile.symm
    _ = text.takeWhile isBlank ++ (digits ++ behind) := by rw [htext]
    _ = text.takeWhile isBlank ++ (digits ++
          (behind.takeWhile isBlank ++ behind.dropWhile isBlank)) := by
        rw [List.takeWhile_append_dropWhile]
    _ = _ := by simp only [List.append_assoc]

/-- Such a number is taken whole, in front of a comma or the end. -/
lemma readLength_complete (h : IsLength n item) (hn : n ≤ ullongMax)
    (hrest : rest = [] ∨ cur rest = ch ',') : readLength (item ++ rest) = some (n, rest) := by
  obtain ⟨left, digits, right, rfl, hleft, hright, hwrites⟩ := h
  have hdrop : ∀ {s : Bytes}, (s.head?.map isBlank).getD false = false → s.dropWhile isBlank = s := by
    intro s hs
    cases s with
    | nil => rfl
    | cons c s => exact List.dropWhile_cons_of_neg (by simpa using hs)
  have hstart : (left ++ digits ++ right ++ rest).dropWhile isBlank = digits ++ (right ++ rest) := by
    rw [List.append_assoc, List.append_assoc, List.dropWhile_append_of_pos hleft, hdrop]
    cases hd : digits with
    | nil => exact absurd hd hwrites.1
    | cons c digits' =>
      have hc := isDigit_of_writes hwrites c (hd ▸ List.mem_cons_self)
      simpa using mt (fun hb => byteDigit_eq_none (.inl hb)) hc
  have hend : (right ++ rest).dropWhile isBlank = rest := by
    rw [List.dropWhile_append_of_pos hright, hdrop]
    cases rest with
    | nil => rfl
    | cons c rest =>
      have hc : c = ch ',' := hrest.resolve_left (List.cons_ne_nil _ _)
      rw [hc]
      rfl
  have hstop : (right ++ rest).head?.bind byteDigit = none := by
    cases right with
    | nil =>
      cases rest with
      | nil => rfl
      | cons c rest => exact byteDigit_eq_none (.inr (hrest.resolve_left (List.cons_ne_nil _ _)))
    | cons c right => exact byteDigit_eq_none (.inl (hright c List.mem_cons_self))
  unfold readLength
  rw [hstart, (Numeral.readDigits_eq_some (by decide) (by decide)).2 ⟨digits, rfl, hwrites, hn, hstop⟩,
    Option.map_some, hend]

/-- **A list of equal lengths** is what the loop accepts. -/
lemma contentLengthFrom_eq_some {turns : ℕ} {length : Option ℕ} (hturns : text.length < turns) :
    contentLengthFrom turns length text = some n ↔
      (length = none ∨ length = some n) ∧ n ≤ ullongMax ∧ IsLengths n text := by
  induction turns generalizing length text with
  | zero => exact absurd hturns (Nat.not_lt_zero _)
  | succ turns ih =>
    have hsame : ∀ v, ¬(length ≠ none ∧ length ≠ some v) ↔ length = none ∨ length = some v := by
      intro v
      tauto
    constructor
    · intro h
      rw [contentLengthFrom] at h
      split at h
      · exact absurd h (Option.some_ne_none _).symm
      next value rest hread =>
      obtain ⟨item, rfl, hitem, hle⟩ := readLength_sound hread
      split at h
      · exact absurd h (Option.some_ne_none _).symm
      next heq =>
      split at h
      · obtain rfl := Option.some.inj h
        refine ⟨(hsame _).1 heq, hle, ?_⟩
        unfold IsLengths
        rw [List.append_nil, List.splitOn_eq_singleton hitem.comma_notMem]
        intro item' hitem'
        rwa [List.mem_singleton.1 hitem']
      next c rest =>
      split at h
      · next hc =>
        subst hc
        have hlen : rest.length < turns := by
          simp only [List.length_append, List.length_cons] at hturns
          omega
        obtain ⟨hvalue, hle', hrest⟩ := (ih hlen).1 h
        obtain rfl := Option.some.inj (hvalue.resolve_left (Option.some_ne_none _))
        refine ⟨(hsame _).1 heq, hle, ?_⟩
        unfold IsLengths
        rw [List.splitOn_append_cons_self_of_not_mem hitem.comma_notMem]
        intro item' hitem'
        rcases List.mem_cons.1 hitem' with rfl | hitem'
        · exact hitem
        · exact hrest item' hitem'
      · exact absurd h (Option.some_ne_none _).symm
    · rintro ⟨hlength, hle, hitems⟩
      unfold IsLengths at hitems
      cases hcut : cutAt (ch ',') text with
      | none =>
        rw [List.splitOn_eq_singleton (cutAt_eq_none.1 hcut)] at hitems
        have hitem := hitems text (List.mem_singleton_self _)
        have hread := @readLength_complete n text [] hitem hle (.inl rfl)
        rw [List.append_nil] at hread
        rw [contentLengthFrom, hread]
        exact if_neg ((hsame _).2 hlength)
      | some cut =>
        obtain ⟨item, rest⟩ := cut
        obtain ⟨rfl, hcomma⟩ := cutAt_eq_some.1 hcut
        rw [List.splitOn_append_cons_self_of_not_mem hcomma] at hitems
        have hread := @readLength_complete n item (ch ',' :: rest)
          (hitems item List.mem_cons_self) hle (.inr rfl)
        have hlen : rest.length < turns := by
          simp only [List.length_append, List.length_cons] at hturns
          omega
        have hrest : contentLengthFrom turns (some n) rest = some n := (ih hlen).2
          ⟨.inr rfl, hle, fun item' h => hitems item' (List.mem_cons_of_mem _ h)⟩
        rw [contentLengthFrom, hread]
        dsimp only
        rw [if_neg ((hsame _).2 hlength), if_pos rfl, hrest]

/-- **What a download reports** is a pair of decimal numbers with one comma between them. -/
lemma downloadParse64bitProgress_eq_some {wide : List UInt16} {current total : ℕ} :
    downloadParse64bitProgress wide = some (current, total) ↔
      current ≤ ullongMax ∧ total ≤ ullongMax ∧ ∃ a b, wide = a ++ 44 :: b ∧
        Numeral.Writes wideDigit 10 a current ∧ Numeral.Writes wideDigit 10 b total := by
  have hread : ∀ {wide rest : List UInt16} {m : ℕ},
      Numeral.readDigits wideDigit 10 ullongMax wide = some (m, rest) ↔ ∃ ds, wide = ds ++ rest ∧
        Numeral.Writes wideDigit 10 ds m ∧ m ≤ ullongMax ∧ rest.head?.bind wideDigit = none :=
    Numeral.readDigits_eq_some (by decide) (by decide)
  constructor
  · intro h
    unfold downloadParse64bitProgress at h
    split at h
    · exact absurd h (Option.some_ne_none _).symm
    next current' rest hcurrent =>
    obtain ⟨a, rfl, ha, hcurrent', -⟩ := hread.1 hcurrent
    split at h
    · exact absurd h (Option.some_ne_none _).symm
    next c rest =>
    split at h
    · exact absurd h (Option.some_ne_none _).symm
    next hc =>
    split at h
    · next total' htotal =>
      obtain ⟨b, hb, hwrites, htotal', -⟩ := hread.1 htotal
      obtain ⟨rfl, rfl⟩ := Prod.mk.inj (Option.some.inj h)
      rw [List.append_nil] at hb
      exact ⟨hcurrent', htotal', a, b, by rw [not_not.1 hc, hb], ha, hwrites⟩
    · exact absurd h (Option.some_ne_none _).symm
  · rintro ⟨hcurrent, htotal, a, b, rfl, ha, hb⟩
    have hcomma : wideDigit 44 = none := by decide
    have hfirst := hread.2 ⟨a, (rfl : a ++ 44 :: b = a ++ 44 :: b), ha, hcurrent, hcomma⟩
    have hsecond := hread.2 ⟨b, (List.append_nil b).symm, hb, htotal, rfl⟩
    unfold downloadParse64bitProgress
    rw [hfirst]
    dsimp only
    rw [if_neg (not_not.2 rfl), hsecond]

end Lengths

/-- **Lengths are read exactly.** Each reader accepts the texts of its form whose numbers are below
`2 ^ 64`, and no others, and returns these numbers; no number that it comes to on the way is larger. -/
theorem lengths_exact :
    (∀ text n, httpContentLength text = some n ↔ n < 2 ^ 64 ∧ IsLengths n text) ∧
    (∀ text base n, base = 10 ∨ base = 16 → (httpsNumber text base = some n ↔
      n < 2 ^ 64 ∧ Numeral.Writes (httpsDigit base) base text n)) ∧
    (∀ text current total, downloadParse64bitProgress text = some (current, total) ↔
      current < 2 ^ 64 ∧ total < 2 ^ 64 ∧ ∃ a b, text = a ++ 44 :: b ∧
        Numeral.Writes wideDigit 10 a current ∧ Numeral.Writes wideDigit 10 b total) ∧
    (∀ text, ∀ v ∈ Numeral.assigned byteDigit 10 ullongMax 0 text, v < 2 ^ 64) ∧
    (∀ base text, base = 10 ∨ base = 16 →
      ∀ v ∈ Numeral.assigned (httpsDigit base) base ullongMax 0 text, v < 2 ^ 64) ∧
    ∀ text, ∀ v ∈ Numeral.assigned wideDigit 10 ullongMax 0 text, v < 2 ^ 64 := by
  have hmax : ∀ v, v ≤ ullongMax ↔ v < 2 ^ 64 := fun v => Nat.lt_succ_iff.symm
  have hbase : ∀ {base : ℕ}, base = 10 ∨ base = 16 → 0 < base ∧ base ≤ ullongMax := by
    rintro base (rfl | rfl) <;> decide
  refine ⟨fun text n => ?_, fun text base n h => ?_, fun text current total => ?_,
    fun text v hv => ?_, fun base text h v hv => ?_, fun text v hv => ?_⟩
  · rw [httpContentLength, contentLengthFrom_eq_some (Nat.lt_succ_self _), ← hmax]
    exact ⟨And.right, fun h => ⟨.inl rfl, h⟩⟩
  · rw [httpsNumber_eq_some (hbase h).1 (hbase h).2, hmax]
    exact and_comm
  · rw [downloadParse64bitProgress_eq_some, hmax, hmax]
  · exact (hmax v).1 (Numeral.assigned_le (by decide) (by decide) v hv)
  · exact (hmax v).1 (Numeral.assigned_le (hbase h).1 (hbase h).2 v hv)
  · exact (hmax v).1 (Numeral.assigned_le (by decide) (by decide) v hv)

end Wpm.Repository
