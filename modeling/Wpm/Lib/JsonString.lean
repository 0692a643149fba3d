import Mathlib.Tactic.Ring
import Wpm.Lib.Json
import Wpm.Lib.Utf8

/-!
What the strings of JSON stand for, RFC 8259, section 7.

`Decodes` and `Spells` say it over bytes: a byte that is not escaped stands for itself, an escape
for the UTF-8 of its character. `Points` says it of a token that is UTF-8, over the code points;
`Points.spells` connects the two.
-/

namespace Wpm.Lib.Json

open Wpm.Lib.CString Wpm.Lib.Utf8

/-- The escapes of one letter, with the bytes that they stand for. -/
def escapes : List (UInt8 × UInt8) :=
  [(ch '"', 0x22), (ch '\\', 0x5c), (ch '/', 0x2f), (ch 'b', 0x08), (ch 'f', 0x0c), (ch 'n', 0x0a),
    (ch 'r', 0x0d), (ch 't', 0x09)]

/-- The code point of a surrogate pair. -/
def pairPoint (high low : ℕ) : ℕ := 0x10000 + (high - 0xd800) * 0x400 + (low - 0xdc00)

/-- A character of a string, and the bytes that it stands for. -/
inductive Decodes : Bytes → Bytes → Prop
  | raw {c : UInt8} (hc : 0x20 ≤ c) (hq : c ≠ ch '"') (hb : c ≠ ch '\\') : Decodes [c] [c]
  | escape {c b : UInt8} (hc : (c, b) ∈ escapes) : Decodes [ch '\\', c] [b]
  | unicode {h : Bytes} {n : ℕ} (hl : h.length = 4) (hh : Hex h n) (hn : IsScalar n) :
    Decodes (ch '\\' :: ch 'u' :: h) (String.utf8EncodeChar (Char.ofNat n))
  | pair {h l : Bytes} {n m : ℕ} (hhl : h.length = 4) (hh : Hex h n) (hn : IsHigh n)
    (hll : l.length = 4) (hl : Hex l m) (hm : IsLow m) :
    Decodes (ch '\\' :: ch 'u' :: h ++ ch '\\' :: ch 'u' :: l)
      (String.utf8EncodeChar (Char.ofNat (pairPoint n m)))

/-- The characters of a string, and the bytes that they stand for. -/
inductive Spells : Bytes → Bytes → Prop
  | nil : Spells [] []
  | cons {a b x y : Bytes} (ha : Decodes a x) (hb : Spells b y) : Spells (a ++ b) (x ++ y)

/-- **A string stands for these bytes.** -/
def StringIs (s out : Bytes) : Prop := ∃ b, Spells b out ∧ s = ch '"' :: b ++ [ch '"']

/-- The characters of a string that is UTF-8, and the code points that they stand for. -/
inductive Points : Bytes → List Char → Prop
  | nil : Points [] []
  | raw {c : Char} {b : Bytes} {l : List Char} (hc : 0x20 ≤ c.toNat) (hq : c ≠ '"') (hs : c ≠ '\\')
    (hb : Points b l) : Points (String.utf8EncodeChar c ++ b) (c :: l)
  | escape {c x : UInt8} {b : Bytes} {l : List Char} (hc : (c, x) ∈ escapes) (hb : Points b l) :
    Points (ch '\\' :: c :: b) (Char.ofNat x.toNat :: l)
  | unicode {h b : Bytes} {n : ℕ} {l : List Char} (hl : h.length = 4) (hh : Hex h n)
    (hn : IsScalar n) (hb : Points b l) : Points (ch '\\' :: ch 'u' :: h ++ b) (Char.ofNat n :: l)
  | pair {h h' b : Bytes} {n m : ℕ} {l : List Char} (hhl : h.length = 4) (hh : Hex h n)
    (hn : IsHigh n) (hll : h'.length = 4) (hl : Hex h' m) (hm : IsLow m) (hb : Points b l) :
    Points (ch '\\' :: ch 'u' :: h ++ ch '\\' :: ch 'u' :: h' ++ b) (Char.ofNat (pairPoint n m) :: l)

/-! ### Code units -/

lemma foldl_hex_lt {ds : List ℕ} (h : ∀ d ∈ ds, d < 16) (r : ℕ) :
    ds.foldl (fun n d => n * 16 + d) r < (r + 1) * 16 ^ ds.length := by
  induction ds generalizing r with
  | nil =>
    rw [List.foldl_nil, List.length_nil, pow_zero]
    omega
  | cons d ds ih =>
    have hd : r * 16 + d + 1 ≤ (r + 1) * 16 := by
      have hd := h d List.mem_cons_self
      omega
    calc (d :: ds).foldl (fun n d => n * 16 + d) r
        < (r * 16 + d + 1) * 16 ^ ds.length := ih (fun e he => h e (List.mem_cons_of_mem d he)) _
      _ ≤ (r + 1) * 16 * 16 ^ ds.length := Nat.mul_le_mul_right _ hd
      _ = (r + 1) * 16 ^ (d :: ds).length := by rw [List.length_cons, pow_succ']; ring

/-- Four hexadecimal digits write a number of sixteen bits. -/
lemma Hex.lt {h : Bytes} {n : ℕ} (hh : Hex h n) (hl : h.length = 4) : n < 0x10000 := by
  obtain ⟨ds, hmap, rfl⟩ := hh
  have hall : ∀ c : Fin 256, ∀ d ∈ hexValue (UInt8.ofFin c), d < 16 := by decide +kernel
  have hdigit : ∀ d ∈ ds, d < 16 := by
    intro d hd
    obtain ⟨c, -, hc⟩ := List.mem_map.1 (hmap ▸ List.mem_map_of_mem hd : some d ∈ h.map hexValue)
    exact hall c.toFin d hc
  have hlength : ds.length = 4 := by
    rw [← hl, ← @List.length_map _ _ h hexValue, hmap, List.length_map]
  have hlt := foldl_hex_lt hdigit 0
  rwa [hlength] at hlt

/-! ### Characters -/

lemma Decodes.character {a x : Bytes} (h : Decodes a x) : Character a := by
  cases h with
  | raw hc hq hb => exact .raw hc hq hb
  | @escape c b hc =>
    have hall : ∀ e ∈ escapes, e.1 ∈ str "\"\\/bfnrt" := forall_mem_of_all (by decide)
    exact .escape (hall (c, b) hc)
  | unicode hl hh hn => exact .unicode hl hh hn
  | pair hhl hh hn hll hl hm => exact .pair hhl hh hn hll hl hm

lemma Character.exists_decodes {a : Bytes} (h : Character a) : ∃ x, Decodes a x := by
  cases h with
  | raw hc hq hb => exact ⟨_, .raw hc hq hb⟩
  | @escape c hc =>
    have hall : ∀ c ∈ str "\"\\/bfnrt", ∃ e ∈ escapes, e.1 = c := by decide +kernel
    obtain ⟨⟨c, b⟩, he, rfl⟩ := hall c hc
    exact ⟨_, .escape he⟩
  | unicode hl hh hn => exact ⟨_, .unicode hl hh hn⟩
  | pair hhl hh hn hll hl hm => exact ⟨_, .pair hhl hh hn hll hl hm⟩

lemma Characters.exists_spells {b : Bytes} (h : Characters b) : ∃ out, Spells b out := by
  induction h with
  | nil => exact ⟨_, .nil⟩
  | cons ha hb ih =>
    obtain ⟨x, hx⟩ := ha.exists_decodes
    obtain ⟨y, hy⟩ := ih
    exact ⟨_, .cons hx hy⟩

lemma Spells.characters {b out : Bytes} (h : Spells b out) : Characters b := by
  induction h with
  | nil => exact .nil
  | cons ha hb ih => exact .cons ha.character ih

/-! ### Code points -/

/-- Bytes that are not escaped stand for themselves. -/
lemma spells_raw {a b out : Bytes} (ha : ∀ c ∈ a, 0x20 ≤ c ∧ c ≠ ch '"' ∧ c ≠ ch '\\')
    (hb : Spells b out) : Spells (a ++ b) (a ++ out) := by
  induction a with
  | nil => exact hb
  | cons c a ih =>
    obtain ⟨hc, hq, hs⟩ := ha c List.mem_cons_self
    exact @Spells.cons [c] _ [c] _ (.raw hc hq hs) (ih fun d hd => ha d (List.mem_cons_of_mem c hd))

/-- The bytes of a character that is not escaped. -/
lemma raw_of_mem_utf8 {c : Char} (hc : 0x20 ≤ c.toNat) (hq : c ≠ '"') (hs : c ≠ '\\') {d : UInt8}
    (hd : d ∈ String.utf8EncodeChar c) : 0x20 ≤ d ∧ d ≠ ch '"' ∧ d ≠ ch '\\' := by
  by_cases hlt : c.toNat < 0x80
  · rw [utf8_ascii hlt, List.mem_singleton] at hd
    have hnat : d.toNat = c.toNat := by
      rw [hd, UInt8.toNat_ofNat_of_lt' (hlt.trans (by decide))]
    refine ⟨UInt8.le_iff_toNat_le.2 (hnat ▸ hc), ?_, ?_⟩
    · rintro rfl
      exact hq (Char.toNat_inj.1 hnat.symm)
    · rintro rfl
      exact hs (Char.toNat_inj.1 hnat.symm)
  · have hle := le_of_mem_utf8 (Nat.not_lt.1 hlt) hd
    refine ⟨UInt8.le_trans (by decide : (0x20 : UInt8) ≤ 0x80) hle, ?_, ?_⟩ <;> rintro rfl <;>
      exact absurd hle (by decide)

/-- **The code points of a token are encoded** by the bytes that it stands for. -/
theorem Points.spells {b : Bytes} {l : List Char} (h : Points b l) : Spells b (utf8 l) := by
  induction h with
  | nil => exact .nil
  | @raw c b l hc hq hs hb ih =>
    rw [utf8_cons]
    exact spells_raw (fun d hd => raw_of_mem_utf8 hc hq hs hd) ih
  | @escape c x b l hc hb ih =>
    have hall : ∀ e ∈ escapes, String.utf8EncodeChar (Char.ofNat e.2.toNat) = [e.2] :=
      forall_mem_of_all (by decide)
    rw [utf8_cons, hall (c, x) hc]
    exact .cons (.escape hc) ih
  | unicode hl hh hn hb ih => exact .cons (.unicode hl hh hn) ih
  | pair hhl hh hn hll hl hm hb ih => exact .cons (.pair hhl hh hn hll hl hm) ih

/-! ### The code points of a token -/

lemma Characters.raw_cons {c : UInt8} {p : Bytes} (h : Characters (c :: p)) (hs : c ≠ ch '\\') :
    (0x20 ≤ c ∧ c ≠ ch '"') ∧ Characters p := by
  generalize hy : c :: p = y at h
  cases h with
  | nil => cases hy
  | @cons a b ha hb =>
    cases ha with
    | raw hc hq =>
      obtain ⟨rfl, rfl⟩ := List.cons.inj hy
      exact ⟨⟨hc, hq⟩, hb⟩
    | _ => exact absurd (List.cons.inj hy).1 hs

lemma Characters.of_append_raw {a b : Bytes} (h : Characters (a ++ b)) (ha : ∀ d ∈ a, d ≠ ch '\\') :
    Characters b := by
  induction a with
  | nil => exact h
  | cons d a ih =>
    have htail := (h.raw_cons (ha d List.mem_cons_self)).2
    exact ih htail fun e he => ha e (List.mem_cons_of_mem d he)

lemma Hex.lt_ascii {h : Bytes} {n : ℕ} (hh : Hex h n) {d : UInt8} (hd : d ∈ h) : d < 0x80 := by
  obtain ⟨ds, hmap, -⟩ := hh
  have hall : ∀ c : Fin 256, (hexValue (UInt8.ofFin c)).isSome = true → UInt8.ofFin c < 0x80 := by
    decide +kernel
  have hmem : hexValue d ∈ ds.map some := hmap ▸ List.mem_map_of_mem hd
  obtain ⟨e, -, he⟩ := List.mem_map.1 hmem
  exact hall d.toFin (by
    change (hexValue d).isSome = true
    rw [← he]
    rfl)

/-- An escape comes first: what it stands for, and a token after it. -/
lemma exists_points_escape {p : Bytes} (h : Characters (ch '\\' :: p))
    (hutf : WellFormed (ch '\\' :: p))
    (ih : ∀ b, b.length ≤ p.length → WellFormed b → Characters b → ∃ l, Points b l) :
    ∃ l, Points (ch '\\' :: p) l := by
  have hhead : ∀ d ∈ ([ch '\\', ch 'u'] : Bytes), d < 0x80 := forall_mem_of_all (by decide)
  generalize hy : ch '\\' :: p = y at h hutf
  cases h with
  | nil => cases hy
  | @cons a b ha hb =>
    have hlen : b.length ≤ p.length := Nat.le_of_lt_succ (ha.length_lt hy)
    cases ha with
    | raw hc hq hs => exact absurd (List.cons.inj hy).1.symm hs
    | @escape c hc =>
      have hall : ∀ c ∈ str "\"\\/bfnrt", c < 0x80 ∧ ∃ e ∈ escapes, e.1 = c := by decide +kernel
      obtain ⟨hascii, ⟨c, x⟩, he, rfl⟩ := hall c hc
      obtain ⟨l, hl⟩ := ih b hlen (hutf.of_append (by
        rintro d (_ | ⟨_, _ | ⟨_, ⟨⟩⟩⟩)
        · decide
        · exact hascii)) hb
      exact ⟨_, .escape he hl⟩
    | @unicode h n hl hh hn =>
      obtain ⟨l, hpoints⟩ := ih b hlen (hutf.of_append (by
        intro d hd
        have hd' : d ∈ [ch '\\', ch 'u'] ++ h := hd
        rcases List.mem_append.1 hd' with hd | hd
        · exact hhead d hd
        · exact hh.lt_ascii hd)) hb
      exact ⟨_, .unicode hl hh hn hpoints⟩
    | @pair h h' n m hhl hh hn hll hl hm =>
      obtain ⟨l, hpoints⟩ := ih b hlen (hutf.of_append (by
        intro d hd
        have hd' : d ∈ [ch '\\', ch 'u'] ++ h ++ ([ch '\\', ch 'u'] ++ h') := hd
        rcases List.mem_append.1 hd' with hd | hd <;> rcases List.mem_append.1 hd with hd | hd
        · exact hhead d hd
        · exact hh.lt_ascii hd
        · exact hhead d hd
        · exact hl.lt_ascii hd)) hb
      exact ⟨_, .pair hhl hh hn hll hl hm hpoints⟩

/-- **A token that is UTF-8 has code points**, whatever the order of its characters and escapes. -/
theorem Characters.exists_points {b : Bytes} (hutf : WellFormed b) (h : Characters b) :
    ∃ l, Points b l := by
  have hrun : ∀ n, ∀ b : Bytes, b.length ≤ n → WellFormed b → Characters b → ∃ l, Points b l := by
    intro n
    induction n with
    | zero =>
      intro b hlen _ _
      obtain rfl := List.eq_nil_of_length_eq_zero (Nat.le_zero.1 hlen)
      exact ⟨[], .nil⟩
    | succ n ih =>
      rintro b hlen ⟨l₀, rfl⟩ hb
      cases l₀ with
      | nil => exact ⟨[], .nil⟩
      | cons x l₀ =>
        by_cases hx : x = '\\'
        · subst hx
          have hcons : utf8 ('\\' :: l₀) = ch '\\' :: utf8 l₀ := rfl
          rw [hcons] at hlen hb ⊢
          exact exists_points_escape hb ⟨_, hcons.symm⟩ fun b' hb' =>
            ih b' (hb'.trans (Nat.le_of_succ_le_succ hlen))
        · have hraw : (0x20 ≤ x.toNat ∧ x ≠ '"') ∧ ∀ d ∈ String.utf8EncodeChar x, d ≠ ch '\\' := by
            by_cases hascii : x.toNat < 0x80
            · have hnat : (UInt8.ofNat x.toNat).toNat = x.toNat :=
                UInt8.toNat_ofNat_of_lt' (hascii.trans (by decide))
              have hne : UInt8.ofNat x.toNat ≠ ch '\\' := fun h =>
                hx (Char.toNat_inj.1 (hnat.symm.trans (congrArg UInt8.toNat h)))
              rw [utf8_cons, utf8_ascii hascii] at hb
              obtain ⟨⟨hc, hq⟩, -⟩ := hb.raw_cons hne
              refine ⟨⟨hnat ▸ UInt8.le_iff_toNat_le.1 hc, ?_⟩, ?_⟩
              · rintro rfl
                exact hq rfl
              · intro d hd
                rw [utf8_ascii hascii, List.mem_singleton] at hd
                exact hd ▸ hne
            · have hlong := Nat.not_lt.1 hascii
              refine ⟨⟨(by decide : 0x20 ≤ 0x80).trans hlong, ?_⟩, ?_⟩
              · rintro rfl
                exact hascii (by decide)
              · rintro d hd rfl
                exact absurd (le_of_mem_utf8 hlong hd) (by decide)
          rw [utf8_cons] at hlen hb ⊢
          have hpos := List.length_pos_of_ne_nil (@String.utf8EncodeChar_ne_nil x)
          rw [List.length_append] at hlen
          obtain ⟨l, hl⟩ := ih (utf8 l₀) (by omega) ⟨l₀, rfl⟩ (hb.of_append_raw hraw.2)
          exact ⟨x :: l, .raw hraw.1.1 hraw.1.2 hx hl⟩
  exact hrun _ b le_rfl hutf h

end Wpm.Lib.Json
