import Wpm.JsonInput
import Wpm.Lib.Json

/-!
What the lexical helpers read, by the grammar.

A reader is right for a part of the grammar when it stops at a place exactly if the text up to there
is such a part. For strings this determines the place; for numbers the text after it must not go on
with the number.
-/

namespace Wpm.JsonInput

open Wpm.Lib.CString Wpm.Lib.Json

/-! ### White space -/

lemma isJsonSpace_eq : isJsonSpace = isWhitespace := by
  funext c
  have hspace : ch ' ' = 0x20 := rfl
  rw [Bool.eq_iff_iff]
  simp only [isJsonSpace, isWhitespace, hspace, Bool.or_eq_true, decide_eq_true_eq]
  tauto

lemma jsonSpace_append {w x : Bytes} (hw : Whitespace w) (hx : Lead x) :
    jsonSpace (w ++ x) = x := by
  rw [jsonSpace, isJsonSpace_eq]
  exact dropWhile_whitespace hw hx

lemma jsonSpace_eq_self {x : Bytes} (hx : Lead x) : jsonSpace x = x :=
  @jsonSpace_append [] x (fun _ h => absurd h List.not_mem_nil) hx

lemma lead_jsonSpace (p : Bytes) : Lead (jsonSpace p) := by
  rw [jsonSpace, isJsonSpace_eq]
  exact lead_dropWhile p

/-- The white space that is skipped. -/
lemma exists_jsonSpace (p : Bytes) : ∃ w, Whitespace w ∧ p = w ++ jsonSpace p := by
  rw [jsonSpace, isJsonSpace_eq]
  exact ⟨_, whitespace_takeWhile p, List.takeWhile_append_dropWhile.symm⟩

lemma length_jsonSpace_le (p : Bytes) : (jsonSpace p).length ≤ p.length :=
  List.length_dropWhile_le _ _

lemma zero_notMem_jsonSpace {p : Bytes} (h : (0 : UInt8) ∉ p) : (0 : UInt8) ∉ jsonSpace p :=
  fun hmem => h ((List.dropWhile_sublist _).subset hmem)

/-! ### Strings -/

lemma hexValue_eq (c : UInt8) : JsonInput.hexValue c = Lib.Json.hexValue c := by
  have hall : ∀ n : Fin 256,
      JsonInput.hexValue (UInt8.ofFin n) = Lib.Json.hexValue (UInt8.ofFin n) := by decide +kernel
  exact hall c.toFin

lemma jsonHexFrom_iff {k r n : ℕ} {p q : Bytes} : jsonHexFrom k r p = some (n, q) ↔
    ∃ h, ∃ ds : List ℕ, h.length = k ∧ h.map Lib.Json.hexValue = ds.map some ∧
      n = ds.foldl (fun n d => n * 16 + d) r ∧ p = h ++ q := by
  induction k generalizing r p with
  | zero =>
    constructor
    · intro h
      obtain ⟨rfl, rfl⟩ := Prod.mk.inj (Option.some.inj h)
      exact ⟨[], [], rfl, rfl, rfl, rfl⟩
    · rintro ⟨h, ds, hlen, hmap, rfl, rfl⟩
      obtain rfl := List.eq_nil_of_length_eq_zero hlen
      obtain rfl := List.map_eq_nil_iff.1 hmap.symm
      rfl
  | succ k ih =>
    have hstep : jsonHexFrom (k + 1) r p =
        (Lib.Json.hexValue (cur p)).bind fun d => jsonHexFrom k (r * 16 + d) p.tail := by
      rw [← hexValue_eq]
      rfl
    rw [hstep, Option.bind_eq_some_iff]
    constructor
    · rintro ⟨d, hd, hrest⟩
      obtain ⟨h, ds, hlen, hmap, rfl, hp⟩ := ih.1 hrest
      cases p with
      | nil => exact absurd hd (Option.some_ne_none d).symm
      | cons c p =>
        refine ⟨c :: h, d :: ds, congrArg (· + 1) hlen, ?_, rfl, congrArg (c :: ·) hp⟩
        exact congrArg₂ List.cons hd hmap
    · rintro ⟨h, ds, hlen, hmap, rfl, rfl⟩
      cases h with
      | nil => exact absurd hlen (by simp)
      | cons c h =>
        cases ds with
        | nil => exact absurd hmap (by simp)
        | cons d ds =>
          obtain ⟨hd, hmap⟩ := List.cons.inj hmap
          exact ⟨d, hd, ih.2 ⟨h, ds, Nat.succ.inj hlen, hmap, rfl, rfl⟩⟩

/-- **Four hexadecimal digits.** -/
lemma jsonHex4_iff {n : ℕ} {p q : Bytes} :
    jsonHex4 p = some (n, q) ↔ ∃ h, h.length = 4 ∧ Hex h n ∧ p = h ++ q := by
  rw [jsonHex4, jsonHexFrom_iff]
  constructor
  · rintro ⟨h, ds, hlen, hmap, hn, hp⟩
    exact ⟨h, hlen, ⟨ds, hmap, hn⟩, hp⟩
  · rintro ⟨h, hlen, ⟨ds, hmap, hn⟩, hp⟩
    exact ⟨h, ds, hlen, hmap, hn, hp⟩

/-- The text after the `u` of an escape. -/
inductive Unicode (q : Bytes) : Bytes → Prop
  | scalar {h : Bytes} {n : ℕ} (hl : h.length = 4) (hh : Hex h n) (hn : IsScalar n) :
    Unicode q (h ++ q)
  | pair {h l : Bytes} {n m : ℕ} (hhl : h.length = 4) (hh : Hex h n) (hn : IsHigh n)
    (hll : l.length = 4) (hl : Hex l m) (hm : IsLow m) :
    Unicode q (h ++ ch '\\' :: ch 'u' :: (l ++ q))

/-- What `readUnicode` makes of a code unit. -/
lemma readUnicode_of_hex {n : ℕ} {p p' : Bytes} (h : jsonHex4 p = some (n, p')) :
    readUnicode false p =
      if IsHigh n then
        if cur p' ≠ ch '\\' ∨ cur p'.tail ≠ ch 'u' then none
        else (jsonHex4 p'.tail.tail).bind fun r => if IsLow r.1 then
          some (encodeCodepoint (0x10000 + (n - 0xd800) * 1024 + (r.1 - 0xdc00)), r.2) else none
      else if IsLow n then none else some (encodeCodepoint n, p') := by
  have hlow : ∀ m : ℕ, (m < 0xdc00 ∨ 0xdfff < m) ↔ ¬IsLow m := by
    unfold IsLow
    omega
  simp only [readUnicode, h, Option.bind_eq_bind, Option.bind_some, and_false, if_false, hlow, ite_not,
    Bool.false_eq_true, IsHigh, IsLow]
  rfl

lemma cur_eq_cons {c : UInt8} {p : Bytes} (h : cur p = c) (hc : c ≠ 0) : p = c :: p.tail := by
  cases p with
  | nil => exact absurd h.symm hc
  | cons d p => exact congrArg (· :: p) h

lemma readUnicode_iff {p q : Bytes} :
    (∃ out, readUnicode false p = some (out, q)) ↔ Unicode q p := by
  constructor
  · rintro ⟨out, h⟩
    cases hhex : jsonHex4 p with
    | none =>
      rw [readUnicode, hhex] at h
      exact absurd h (by simp)
    | some r =>
      obtain ⟨n, p'⟩ := r
      rw [readUnicode_of_hex hhex] at h
      obtain ⟨x, hlen, hx, rfl⟩ := jsonHex4_iff.1 hhex
      split_ifs at h with hhigh hu hlow
      · obtain ⟨⟨m, p''⟩, hhex', h⟩ := Option.bind_eq_some_iff.1 h
        obtain ⟨y, hlen', hy, hp⟩ := jsonHex4_iff.1 hhex'
        obtain ⟨hm, h⟩ := Option.ite_none_right_eq_some.1 h
        obtain ⟨-, rfl⟩ := Prod.mk.inj (Option.some.inj h)
        simp only [ne_eq, not_or, not_not] at hu
        rw [cur_eq_cons hu.1 (by decide), cur_eq_cons hu.2 (by decide), hp]
        exact .pair hlen hx hhigh hlen' hy hm
      · obtain ⟨-, rfl⟩ := Prod.mk.inj (Option.some.inj h)
        refine .scalar hlen hx ?_
        unfold IsHigh at hhigh
        unfold IsLow at hlow
        unfold IsScalar
        omega
  · intro h
    cases h with
    | @scalar h n hl hh hn =>
      have hscalar := hn
      unfold IsScalar at hscalar
      refine ⟨encodeCodepoint n, ?_⟩
      rw [readUnicode_of_hex (jsonHex4_iff.2 ⟨_, hl, hh, rfl⟩), if_neg (by unfold IsHigh; omega),
        if_neg (by unfold IsLow; omega)]
    | @pair h l n m hhl hh hn hll hl hm =>
      refine ⟨encodeCodepoint (0x10000 + (n - 0xd800) * 1024 + (m - 0xdc00)), ?_⟩
      rw [readUnicode_of_hex (jsonHex4_iff.2 ⟨_, hhl, hh, rfl⟩), if_pos hn, if_neg (by simp),
        List.tail_cons, List.tail_cons, jsonHex4_iff.2 ⟨_, hll, hl, rfl⟩, Option.bind_some,
        if_pos hm]

/-- A one-letter escape. -/
lemma simpleEscape_isSome (c : UInt8) : (simpleEscape c).isSome = true ↔ c ∈ str "\"\\/bfnrt" := by
  have hall : ∀ n : Fin 256, (simpleEscape (UInt8.ofFin n)).isSome = true ↔
      UInt8.ofFin n ∈ str "\"\\/bfnrt" := by decide +kernel
  exact hall c.toFin

/-- What follows the backslash of a character. -/
lemma character_backslash_iff {p q : Bytes} :
    (∃ a, Character a ∧ ch '\\' :: p = a ++ q) ↔
      (∃ c, c ∈ str "\"\\/bfnrt" ∧ p = c :: q) ∨ ∃ p', p = ch 'u' :: p' ∧ Unicode q p' := by
  constructor
  · rintro ⟨a, ha, hp⟩
    cases ha with
    | raw hc hq hb => exact absurd (List.cons.inj hp).1.symm hb
    | escape hc => exact .inl ⟨_, hc, (List.cons.inj hp).2⟩
    | unicode hl hh hn => exact .inr ⟨_, (List.cons.inj hp).2, .scalar hl hh hn⟩
    | @pair h l n m hhl hh hn hll hl hm =>
      have hp' : p = ch 'u' :: (h ++ ch '\\' :: ch 'u' :: (l ++ q)) := by simpa using hp
      exact .inr ⟨_, hp', .pair hhl hh hn hll hl hm⟩
  · rintro (⟨c, hc, rfl⟩ | ⟨p', rfl, hu⟩)
    · exact ⟨_, .escape hc, rfl⟩
    · cases hu with
      | scalar hl hh hn => exact ⟨_, .unicode hl hh hn, rfl⟩
      | pair hhl hh hn hll hl hm =>
        refine ⟨_, .pair hhl hh hn hll hl hm, ?_⟩
        simp

/-- **One character of a string.** -/
lemma readUnit_iff {c : UInt8} {p q : Bytes} (hc : c ≠ ch '"') :
    (∃ out, readUnit false c p = some (out, q)) ↔ ∃ a, Character a ∧ c :: p = a ++ q := by
  have hctl : ¬ch '\\' < 0x20 := by decide
  unfold readUnit
  by_cases hb : c = ch '\\'
  · subst hb
    rw [if_neg hctl, if_pos rfl, character_backslash_iff]
    by_cases hu : cur p = ch 'u'
    · have hescape : ch 'u' ∉ str "\"\\/bfnrt" := by decide
      rw [if_pos hu, readUnicode_iff]
      constructor
      · exact fun h => .inr ⟨_, cur_eq_cons hu (by decide), h⟩
      · rintro (⟨d, hd, rfl⟩ | ⟨p', rfl, h⟩)
        · exact absurd (show ch 'u' ∈ _ from hu ▸ hd) hescape
        · exact h
    · rw [if_neg hu]
      constructor
      · rintro ⟨out, h⟩
        obtain ⟨b, hb, hpair⟩ := Option.map_eq_some_iff.1 h
        have hmem := (simpleEscape_isSome (cur p)).1 (hb ▸ rfl)
        have hne : cur p ≠ 0 := fun h0 => absurd (h0 ▸ hmem) (by decide)
        exact .inl ⟨_, hmem, (Prod.mk.inj hpair).2 ▸ cur_eq_cons rfl hne⟩
      · rintro (⟨d, hd, rfl⟩ | ⟨p', rfl, h⟩)
        · obtain ⟨b, hb⟩ := Option.isSome_iff_exists.1 ((simpleEscape_isSome d).2 hd)
          exact ⟨[b], Option.map_eq_some_iff.2 ⟨b, hb, rfl⟩⟩
        · exact absurd rfl hu
  · rw [if_neg hb]
    constructor
    · rintro ⟨out, h⟩
      obtain ⟨hlt, h⟩ := Option.ite_none_left_eq_some.1 h
      obtain ⟨-, rfl⟩ := Prod.mk.inj (Option.some.inj h)
      exact ⟨[c], .raw (UInt8.not_lt.1 hlt) hc hb, rfl⟩
    · rintro ⟨a, ha, hp⟩
      cases ha with
      | raw h hq hb' =>
        obtain ⟨rfl, rfl⟩ := List.cons.inj hp
        exact ⟨[c], if_neg (UInt8.not_lt.2 h)⟩
      | _ => exact absurd (List.cons.inj hp).1 hb

lemma length_readUnicode {p q out : Bytes} (h : readUnicode false p = some (out, q)) :
    out.length + q.length ≤ p.length := by
  have hencode : ∀ n : ℕ, (encodeCodepoint n).length ≤ 4 := by
    intro n
    unfold encodeCodepoint
    split_ifs <;> simp
  cases hhex : jsonHex4 p with
  | none =>
    rw [readUnicode, hhex] at h
    exact absurd h (by simp)
  | some r =>
    obtain ⟨n, p'⟩ := r
    rw [readUnicode_of_hex hhex] at h
    obtain ⟨x, hlen, -, rfl⟩ := jsonHex4_iff.1 hhex
    rw [List.length_append]
    split_ifs at h with hhigh hu hlow
    · obtain ⟨⟨m, p''⟩, hhex', h⟩ := Option.bind_eq_some_iff.1 h
      obtain ⟨y, -, -, hp⟩ := jsonHex4_iff.1 hhex'
      obtain ⟨-, h⟩ := Option.ite_none_right_eq_some.1 h
      obtain ⟨hout, hq⟩ := Prod.mk.inj (Option.some.inj h)
      change p'' = q at hq
      subst hq hout
      have hle := hencode (0x10000 + (n - 0xd800) * 1024 + ((m, p'').1 - 0xdc00))
      have hlen' : p'.tail.tail.length = y.length + p''.length := by rw [hp, List.length_append]
      rw [List.length_tail, List.length_tail] at hlen'
      omega
    · obtain ⟨rfl, rfl⟩ := Prod.mk.inj (Option.some.inj h)
      have hle := hencode n
      omega

/-- A character puts out no more bytes than it has. -/
lemma length_readUnit {c : UInt8} {p q out : Bytes} (h : readUnit false c p = some (out, q)) :
    out.length + q.length ≤ p.length + 1 := by
  unfold readUnit at h
  obtain ⟨-, h⟩ := Option.ite_none_left_eq_some.1 h
  split_ifs at h with hb hu
  · have hle := length_readUnicode h
    rw [List.length_tail] at hle
    omega
  · obtain ⟨b, -, hpair⟩ := Option.map_eq_some_iff.1 h
    obtain ⟨rfl, rfl⟩ := Prod.mk.inj hpair
    rw [List.length_singleton, List.length_tail]
    omega
  · obtain ⟨rfl, rfl⟩ := Prod.mk.inj (Option.some.inj h)
    rw [List.length_singleton, Nat.add_comm]

/-- **The characters up to the closing quote.** -/
lemma readUnits_iff {size fuel n : ℕ} {p q : Bytes} (hfuel : p.length ≤ fuel)
    (hsize : n + p.length ≤ size) : (∃ out, readUnits false size fuel n p = some (out, q)) ↔
      ∃ b, Characters b ∧ p = b ++ ch '"' :: q := by
  induction fuel generalizing n p with
  | zero =>
    obtain rfl := List.eq_nil_of_length_eq_zero (Nat.le_zero.1 hfuel)
    constructor
    · rintro ⟨out, h⟩
      exact absurd h (Option.some_ne_none _).symm
    · rintro ⟨b, -, h⟩
      exact absurd h (by simp)
  | succ fuel ih =>
    unfold readUnits
    constructor
    · rintro ⟨out, h⟩
      obtain ⟨h0, h⟩ := Option.ite_none_left_eq_some.1 h
      have hp := cur_eq_cons rfl h0
      split_ifs at h with hq
      · obtain ⟨-, rfl⟩ := Prod.mk.inj (Option.some.inj h)
        exact ⟨[], .nil, hq ▸ hp⟩
      · obtain ⟨⟨bytes, rest⟩, hunit, h⟩ := Option.bind_eq_some_iff.1 h
        obtain ⟨-, h⟩ := Option.ite_none_left_eq_some.1 h
        obtain ⟨⟨more, rest'⟩, hmore, h⟩ := Option.bind_eq_some_iff.1 h
        obtain ⟨-, rfl⟩ := Prod.mk.inj (Option.some.inj h)
        obtain ⟨a, ha, hsplit⟩ := (readUnit_iff hq).1 ⟨bytes, hunit⟩
        have hlen := length_readUnit hunit
        have hless := ha.length_lt (hp.trans hsplit)
        rw [List.length_tail] at hlen
        obtain ⟨b, hb, rfl⟩ := (ih (by omega) (by omega)).1 ⟨more, hmore⟩
        exact ⟨a ++ b, .cons ha hb, (hp.trans hsplit).trans (List.append_assoc ..).symm⟩
    · rintro ⟨b, hb, rfl⟩
      cases hb with
      | nil => exact ⟨[], by simp; decide⟩
      | @cons a b ha hb =>
        obtain ⟨c, a', rfl, h0, hq⟩ := ha.exists_cons
        rw [List.append_assoc, List.cons_append] at hfuel hsize ⊢
        have hrest : 0 < (b ++ ch '"' :: q).length := by
          rw [List.length_append, List.length_cons]
          omega
        have hread : ∀ {rest : Bytes}, rest = b ++ ch '"' :: q → ∃ out,
            readUnit false c (a' ++ rest) = some (out, rest) :=
          fun h => (readUnit_iff hq).2 ⟨c :: a', ha, rfl⟩
        generalize hr : b ++ ch '"' :: q = rest at hfuel hsize hrest ⊢
        obtain ⟨bytes, hunit⟩ := hread hr.symm
        have hlen := length_readUnit hunit
        rw [List.length_cons, List.length_append] at hfuel hsize
        rw [List.length_append] at hlen
        obtain ⟨more, hmore⟩ := (ih (n := n + bytes.length) (by omega) (by omega)).2
          ⟨b, hb, hr.symm⟩
        refine ⟨bytes ++ more, ?_⟩
        have hfits : ¬size ≤ n + bytes.length := by omega
        rw [cur_cons, if_neg h0, if_neg hq, List.tail_cons, hunit]
        simp only [Option.bind_eq_bind, Option.bind_some, if_neg hfits, hmore]

/-- **A string**, when the text starts with it or with something else than white space. -/
lemma readString_iff {p q : Bytes} (hp : Lead p) (hsize : p.length ≤ sizeMax) :
    (∃ out, readString false sizeMax p = some (out, q)) ↔ ∃ s, IsString s ∧ p = s ++ q := by
  have hunits : ∀ {p : Bytes}, p.length ≤ sizeMax →
      ((∃ out, readUnits false sizeMax p.length 0 p.tail = some (out, q)) ↔
        ∃ b, Characters b ∧ p.tail = b ++ ch '"' :: q) := fun hsize =>
    readUnits_iff (by rw [List.length_tail]; omega) (by rw [List.length_tail]; omega)
  unfold readString
  rw [jsonSpace_eq_self hp]
  constructor
  · rintro ⟨out, h⟩
    obtain ⟨hq, h⟩ := Option.ite_none_left_eq_some.1 h
    rw [ne_eq, not_not] at hq
    have hcons := cur_eq_cons hq (by decide)
    obtain ⟨b, hb, htail⟩ := (hunits hsize).1 ⟨out, h⟩
    exact ⟨ch '"' :: b ++ [ch '"'], ⟨b, hb, rfl⟩, by rw [hcons, htail]; simp⟩
  · rintro ⟨s, ⟨b, hb, rfl⟩, hs⟩
    have hcons : p = ch '"' :: (b ++ ch '"' :: q) := by simpa using hs
    obtain ⟨out, h⟩ := (hunits hsize).2 ⟨b, hb, by rw [hcons, List.tail_cons]⟩
    refine ⟨out, ?_⟩
    rw [if_neg (by rw [hcons]; simp)]
    exact h

end Wpm.JsonInput
