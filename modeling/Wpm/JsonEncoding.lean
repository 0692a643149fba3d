import Wpm.JsonUtf8
import Wpm.Redaction

/-!
What the string encoder writes is what the string reader reads.

The encoder writes through a pointer into a buffer of six bytes for each byte of the text and three
more; `encodeWrites` is every write that it makes, in their order.
-/

namespace Wpm.JsonOutput

open Wpm.Lib.CString Wpm.Lib.Utf8 Wpm.JsonInput
open Wpm.Lib.Json hiding hexValue

/-! ### The buffer -/

/-- A write into a buffer. -/
def writeAt (buffer : Bytes) (offset : ℕ) (bytes : Bytes) : Bytes :=
  buffer.take offset ++ bytes ++ buffer.drop (offset + bytes.length)

/-- What is written for a byte: `snprintf` writes its terminator, too. -/
def printed (c : UInt8) : Bytes :=
  if ¬(c = ch '"' ∨ c = ch '\\') ∧ c < 0x20 then encodeByte c ++ [0] else encodeByte c

/-- The loop of `wpm_json_encode_string` with the pointer `next`, and what follows it. -/
def encodeWritesFrom : ℕ → Bytes → List (ℕ × Bytes)
  | next, [] => [(next, [ch '"', 0])]
  | next, c :: p => (next, printed c) :: encodeWritesFrom (next + (encodeByte c).length) p

def encodeWrites (safe : Bytes) : List (ℕ × Bytes) := (0, [ch '"']) :: encodeWritesFrom 1 safe

/-- The buffer after the writes. -/
def written (buffer : Bytes) (writes : List (ℕ × Bytes)) : Bytes :=
  writes.foldl (fun buffer write => writeAt buffer write.1 write.2) buffer

lemma length_encodeByte_le (c : UInt8) : (encodeByte c).length ≤ 6 := by
  rw [encodeByte]
  split_ifs
  · exact Nat.le_add_left 2 4
  · exact le_refl 6
  · exact Nat.le_add_left 1 5

lemma length_printed_le (c : UInt8) : (printed c).length ≤ 7 := by
  have hle := length_encodeByte_le c
  rw [printed]
  split_ifs
  · rw [List.length_append]
    exact Nat.add_le_add_right hle 1
  · omega

lemma prefix_printed (c : UInt8) : encodeByte c <+: printed c := by
  rw [printed]
  split_ifs
  · exact List.prefix_append _ _
  · exact List.prefix_refl _

/-- Every write is within the buffer. -/
lemma encodeWritesFrom_fits {size : ℕ} {p : Bytes} : ∀ {next : ℕ}, next + 6 * p.length + 2 ≤ size →
    ∀ write ∈ encodeWritesFrom next p, write.1 + write.2.length ≤ size := by
  induction p with
  | nil =>
    intro next hsize write hwrite
    obtain rfl := List.mem_singleton.1 hwrite
    exact hsize
  | cons c p ih =>
    intro next hsize write hwrite
    have hbyte := length_encodeByte_le c
    have hprinted := length_printed_le c
    rw [List.length_cons] at hsize
    rcases List.mem_cons.1 hwrite with rfl | hwrite
    · change next + (printed c).length ≤ size
      omega
    · exact ih (by omega) write hwrite

lemma take_writeAt {buffer bytes a : Bytes} {offset : ℕ} (h : offset ≤ buffer.length)
    (ha : a <+: bytes) :
    (writeAt buffer offset bytes).take (offset + a.length) = buffer.take offset ++ a := by
  obtain ⟨b, rfl⟩ := ha
  have hlength : (buffer.take offset).length = offset := List.length_take_of_le h
  have hassoc : writeAt buffer offset (a ++ b) = (buffer.take offset ++ a) ++
      (b ++ buffer.drop (offset + (a ++ b).length)) := by simp only [writeAt, List.append_assoc]
  rw [hassoc, List.take_left' (by rw [List.length_append, hlength])]

lemma length_writeAt {buffer bytes : Bytes} {offset : ℕ} (h : offset + bytes.length ≤ buffer.length) :
    (writeAt buffer offset bytes).length = buffer.length := by
  rw [writeAt, List.length_append, List.length_append, List.length_take, List.length_drop]
  omega

/-- The encoding stands in the buffer, with a terminator. -/
lemma prefix_written {p : Bytes} : ∀ {next : ℕ} {buffer : Bytes},
    next + 6 * p.length + 2 ≤ buffer.length →
    buffer.take next ++ (p.flatMap encodeByte ++ [ch '"', 0]) <+:
      written buffer (encodeWritesFrom next p) := by
  induction p with
  | nil =>
    intro next buffer hsize
    exact List.prefix_append _ _
  | cons c p ih =>
    intro next buffer hsize
    have hbyte := length_encodeByte_le c
    have hprinted := length_printed_le c
    rw [List.length_cons] at hsize
    have hlength : (writeAt buffer next (printed c)).length = buffer.length :=
      length_writeAt (by omega)
    have hrest := @ih (next + (encodeByte c).length) (writeAt buffer next (printed c)) (by omega)
    rw [take_writeAt (by omega) (prefix_printed c)] at hrest
    rw [List.flatMap_cons, List.append_assoc, ← List.append_assoc (buffer.take next)]
    exact hrest

/-! ### The string -/

/-- A byte is written as a character that stands for it. -/
lemma decodes_encodeByte {c : UInt8} (h : c ≠ 0) : Decodes (encodeByte c) [c] := by
  rw [encodeByte]
  by_cases hspecial : c = ch '"' ∨ c = ch '\\'
  · rw [if_pos hspecial]
    rcases hspecial with rfl | rfl
    · exact .escape (by decide)
    · exact .escape (by decide)
  · rw [if_neg hspecial]
    by_cases hctl : c < 0x20
    · have hhex : ∀ c : Fin 256, UInt8.ofFin c < 0x20 →
          ([ch '0', ch '0', hexDigit (UInt8.ofFin c / 16), hexDigit (UInt8.ofFin c % 16)].map
            Lib.Json.hexValue = ([0, 0, c.val / 16, c.val % 16].map some) ∧
          [0, 0, c.val / 16, c.val % 16].foldl (fun n d => n * 16 + d) 0 = c.val) := by
        decide +kernel
      have hlt : c.toNat < 0x20 := UInt8.lt_iff_toNat_lt.1 hctl
      have hx : (Char.ofNat c.toNat).toNat = c.toNat := toNat_ofNat (.inl (by omega))
      have hbyte : String.utf8EncodeChar (Char.ofNat c.toNat) = [c] := by
        rw [utf8_ascii (by omega), hx, UInt8.ofNat_toNat]
      rw [if_pos hctl, ← hbyte]
      exact .unicode (h := [ch '0', ch '0', hexDigit (c / 16), hexDigit (c % 16)]) rfl
        ⟨_, (hhex c.toFin hctl).1, (hhex c.toFin hctl).2.symm⟩ (.inl (by omega))
    · rw [if_neg hctl]
      rw [not_or] at hspecial
      exact .raw (UInt8.not_lt.1 hctl) hspecial.1 hspecial.2

lemma spells_flatMap {safe : Bytes} (h : 0 ∉ safe) : Spells (safe.flatMap encodeByte) safe := by
  induction safe with
  | nil => exact .nil
  | cons c safe ih =>
    rw [List.mem_cons, not_or] at h
    rw [List.flatMap_cons]
    exact @Spells.cons _ _ [c] _ (decodes_encodeByte (Ne.symm h.1)) (ih h.2)

lemma zero_mem_encodeByte {c : UInt8} (h : 0 ∈ encodeByte c) : c = 0 := by
  have hall : ∀ c : Fin 256, 0 ∈ encodeByte (UInt8.ofFin c) → UInt8.ofFin c = 0 := by decide +kernel
  exact hall c.toFin h

/-- The buffer holds the string. -/
lemma cstr_written {safe buffer : Bytes} (h : 0 ∉ safe) (hsize : 6 * safe.length + 3 ≤ buffer.length) :
    cstr (written buffer (encodeWrites safe)) = ch '"' :: safe.flatMap encodeByte ++ [ch '"'] := by
  have hlength : (writeAt buffer 0 [ch '"']).length = buffer.length :=
    length_writeAt (by
      change 0 + 1 ≤ buffer.length
      omega)
  have hquote : (writeAt buffer 0 [ch '"']).take 1 = [ch '"'] := rfl
  obtain ⟨rest, hrest⟩ := @prefix_written safe 1 (writeAt buffer 0 [ch '"']) (by omega)
  have hzero : (0 : UInt8) ∉ ch '"' :: safe.flatMap encodeByte ++ [ch '"'] := by
    intro hmem
    rcases List.mem_append.1 hmem with hmem | hmem
    · rcases List.mem_cons.1 hmem with hmem | hmem
      · exact absurd hmem (by decide)
      · obtain ⟨c, hc, hmem⟩ := List.mem_flatMap.1 hmem
        exact h (zero_mem_encodeByte hmem ▸ hc)
    · exact absurd (List.mem_singleton.1 hmem) (by decide)
  have hwritten : written buffer (encodeWrites safe) =
      (ch '"' :: safe.flatMap encodeByte ++ [ch '"'] ++ [0]) ++ rest := by
    rw [hquote] at hrest
    refine hrest.symm.trans ?_
    simp only [List.append_assoc, List.cons_append, List.nil_append]
  rw [hwritten, cstr_append_of_mem (List.mem_append_right _ List.mem_cons_self), cstr,
    List.takeWhile_append_of_pos, List.takeWhile_cons_of_neg (by decide), List.append_nil]
  intro c hc
  exact decide_eq_true fun h0 => hzero (h0 ▸ hc)

/-- What is put out is a string that stands for what the redaction leaves of the text. -/
lemma stringIs_encodeString {text out : Bytes} (h : 0 ∉ text)
    (hout : encodeString (some text) = some out) :
    StringIs out (redactText text) ∧ jsonUtf8 (redactText text) = true := by
  have hzero : 0 ∉ redactText text := fun hmem =>
    (mem_of_mem_redactText hmem).elim h (by decide)
  rw [encodeString, cstr_eq_self h] at hout
  obtain ⟨hutf8, hout⟩ := Option.ite_none_right_eq_some.1 hout
  obtain rfl := Option.some.inj hout
  exact ⟨⟨_, spells_flatMap hzero, rfl⟩, hutf8⟩

/-- **A text is encoded as a string that stands for what the redaction leaves of it**, within the
buffer, unless that is not UTF-8. -/
theorem encodeString_roundtrip {text : Bytes} (h : 0 ∉ text) :
    (encodeString (some text) = none ↔ ¬WellFormed (redactText text)) ∧
    (redactText text).length ≤ text.length ∧
    (∀ write ∈ encodeWrites (redactText text),
      write.1 + write.2.length ≤ 6 * text.length + 3) ∧
    ∀ out, encodeString (some text) = some out → IsString out ∧
      (∀ buffer, buffer.length = 6 * text.length + 3 →
        cstr (written buffer (encodeWrites (redactText text))) = out) ∧
      ∀ size, (redactText text).length < size → ∀ rest,
        readString true size (out ++ rest) = some (redactText text, rest) := by
  have hlength := redactText_length_le text
  have hzero : 0 ∉ redactText text := fun hmem =>
    (mem_of_mem_redactText hmem).elim h (by decide)
  have hencode : encodeString (some text) = if jsonUtf8 (redactText text) = true then
      some (ch '"' :: (redactText text).flatMap encodeByte ++ [ch '"']) else none := by
    rw [encodeString, cstr_eq_self h]
  refine ⟨?_, hlength, ?_, fun out hout => ?_⟩
  · rw [hencode, ite_eq_right_iff, ← jsonUtf8_iff]
    exact forall_congr' fun _ => iff_false_intro (Option.some_ne_none _)
  · intro write hwrite
    rcases List.mem_cons.1 hwrite with rfl | hwrite
    · exact Nat.le_add_left _ _
    · exact encodeWritesFrom_fits (by omega) write hwrite
  · rw [hencode] at hout
    obtain ⟨-, hout⟩ := Option.ite_none_right_eq_some.1 hout
    obtain rfl := Option.some.inj hout
    have hstring : StringIs (ch '"' :: (redactText text).flatMap encodeByte ++ [ch '"'])
      (redactText text) := ⟨_, spells_flatMap hzero, rfl⟩
    refine ⟨StringIs.isString hstring, fun buffer hbuffer => cstr_written hzero (by omega), ?_⟩
    intro size hsize rest
    have hread := readString_stringIs true (Nat.zero_lt_of_lt hsize)
      (fun _ h => absurd h List.not_mem_nil) hstring rest
    rw [List.nil_append] at hread
    rw [hread, if_neg (by simp [hzero, hsize])]

/-- A quote, a tab and a control sequence, which is no text. -/
theorem encodeString_roundtrip_sample :
    readString true 5 (str "\"a\\\"\\u0009b\"" ++ []) = some (str "a\"\tb", []) := by
  have h : (0 : UInt8) ∉ str "\x1b[0ma\"\tb" := by decide
  have hout : encodeString (some (str "\x1b[0ma\"\tb")) = some (str "\"a\\\"\\u0009b\"") := by
    decide
  have hsafe : redactText (str "\x1b[0ma\"\tb") = str "a\"\tb" := by decide
  have hread := ((encodeString_roundtrip h).2.2.2 _ hout).2.2 5 (by rw [hsafe]; decide) []
  rwa [hsafe] at hread

end Wpm.JsonOutput
