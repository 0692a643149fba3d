import Wpm.Lib.CString

/-!
Reading a text stream by lines.

`fgetsAll` is the sequence of buffers that a loop on `fgets` sees, `textLines` are the lines of the
text. The two are the same up to the line feed at the end when every line fits the buffer
(`map_fgetsAll`); a longer line arrives in pieces. `textMode` is what text mode makes of the bytes
of a file.
-/

namespace Wpm.Lib.Text

open Wpm.Lib.CString

/-- The loop of `fgets` into a buffer of `size` bytes, with what the buffer holds so far. -/
def fgetsFrom (size : ℕ) : Bytes → Bytes → List Bytes
  | held, [] => if held = [] then [] else [held]
  | held, c :: text =>
    if c = 10 ∨ size ≤ held.length + 2 then (held ++ [c]) :: fgetsFrom size [] text
    else fgetsFrom size (held ++ [c]) text

/-- What `fgets` puts into a buffer of `size` bytes, until the end of the text. -/
def fgetsAll (size : ℕ) (text : Bytes) : List Bytes := fgetsFrom size [] text

/-- The lines of a text, with the start of the first one. -/
def textLinesFrom : Bytes → Bytes → List Bytes
  | held, [] => if held = [] then [] else [held]
  | held, c :: text =>
    if c = 10 then held :: textLinesFrom [] text else textLinesFrom (held ++ [c]) text

/-- The lines of a text, without their line feeds. -/
def textLines (text : Bytes) : List Bytes := textLinesFrom [] text

/-- Every line has room in a buffer of `size` bytes, with its line feed and a terminator. -/
def LinesFit (size : ℕ) (text : Bytes) : Prop := ∀ line ∈ textLines text, line.length + 2 ≤ size

instance (size : ℕ) (text : Bytes) : Decidable (LinesFit size text) :=
  inferInstanceAs (Decidable (∀ line ∈ textLines text, line.length + 2 ≤ size))

lemma held_isPrefix_textLinesFrom : ∀ {text held : Bytes}, held ≠ [] →
    ∃ line ∈ textLinesFrom held text, held <+: line
  | [], held, h => ⟨held, by simp [textLinesFrom, h], List.prefix_rfl⟩
  | c :: text, held, h => by
    unfold textLinesFrom
    split_ifs with hc
    · exact ⟨held, by simp, List.prefix_rfl⟩
    · obtain ⟨line, hline, hpre⟩ := @held_isPrefix_textLinesFrom text (held ++ [c]) (by simp)
      exact ⟨line, hline, (List.prefix_append _ _).trans hpre⟩

lemma map_fgetsFrom {β : Type*} (f : Bytes → β) (hf : ∀ line, f (line ++ [10]) = f line)
    {size : ℕ} : ∀ {text held : Bytes},
    (∀ line ∈ textLinesFrom held text, line.length + 2 ≤ size) → held.length + 2 ≤ size →
      (fgetsFrom size held text).map f = (textLinesFrom held text).map f
  | [], held, _, _ => by simp only [fgetsFrom, textLinesFrom]
  | c :: text, held, hfit, hheld => by
    unfold fgetsFrom textLinesFrom
    unfold textLinesFrom at hfit
    by_cases hc : c = 10
    · subst hc
      rw [if_pos rfl] at hfit
      rw [if_pos (Or.inl rfl), if_pos rfl, List.map_cons, List.map_cons, hf,
        map_fgetsFrom f hf (fun line hline => hfit line (by simp [hline]))
          (by simpa using le_trans (Nat.le_add_left 2 _) hheld)]
    · rw [if_neg hc] at hfit
      -- the line goes on, so that what the buffer holds is not yet all of a line that fits
      obtain ⟨line, hline, hpre⟩ := @held_isPrefix_textLinesFrom text (held ++ [c]) (by simp)
      have hroom := hfit line hline
      have hle := hpre.length_le
      rw [List.length_append, List.length_singleton] at hle
      rw [if_neg (by rw [not_or]; exact ⟨hc, by omega⟩), if_neg hc,
        map_fgetsFrom f hf hfit (by simp; omega)]

/-- **When every line fits, `fgets` reads the lines.** -/
theorem map_fgetsAll {β : Type*} (f : Bytes → β) (hf : ∀ line, f (line ++ [10]) = f line)
    {size : ℕ} {text : Bytes} (h : LinesFit size text) (hsize : 2 ≤ size) :
    (fgetsAll size text).map f = (textLines text).map f :=
  map_fgetsFrom f hf h (by simpa using hsize)

lemma mem_of_mem_textLinesFrom : ∀ {text held line : Bytes} {c : UInt8},
    line ∈ textLinesFrom held text → c ∈ line → c ∈ held ∨ c ∈ text
  | [], held, line, c, h, hc => by
    unfold textLinesFrom at h
    split_ifs at h
    · simp at h
    · rw [List.mem_singleton] at h
      exact Or.inl (h ▸ hc)
  | b :: text, held, line, c, h, hc => by
    unfold textLinesFrom at h
    split_ifs at h with hb
    · rcases List.mem_cons.1 h with rfl | h
      · exact Or.inl hc
      · rcases mem_of_mem_textLinesFrom h hc with h' | h'
        · simp at h'
        · exact Or.inr (by simp [h'])
    · rcases mem_of_mem_textLinesFrom h hc with h' | h'
      · rw [List.mem_append, List.mem_singleton] at h'
        rcases h' with h' | rfl
        · exact Or.inl h'
        · exact Or.inr (by simp)
      · exact Or.inr (by simp [h'])

/-- A line holds only bytes of the text. -/
lemma mem_of_mem_textLines {text line : Bytes} {c : UInt8} (h : line ∈ textLines text)
    (hc : c ∈ line) : c ∈ text := by
  rcases mem_of_mem_textLinesFrom h hc with h' | h'
  · simp at h'
  · exact h'

/-- **When every line fits without its line feed, `fgets` reads the lines**, up to blank ones: the
line feed of a line that fills the buffer arrives alone. -/
theorem filterMap_fgetsFrom {β : Type*} (f : Bytes → Option β)
    (hf : ∀ line, f (line ++ [10]) = f line) (h0 : f [] = none) {size : ℕ} : ∀ {text held : Bytes},
    (∀ line ∈ textLinesFrom held text, line.length < size) → held.length + 2 ≤ size →
      (fgetsFrom size held text).filterMap f = (textLinesFrom held text).filterMap f
  | [], held, _, _ => by simp only [fgetsFrom, textLinesFrom]
  | c :: text, held, hfit, hheld => by
    have hlf : f [10] = none := (hf []).trans h0
    unfold fgetsFrom textLinesFrom
    unfold textLinesFrom at hfit
    by_cases hc : c = 10
    · subst hc
      rw [if_pos rfl] at hfit
      rw [if_pos (Or.inl rfl), if_pos rfl, List.filterMap_cons, List.filterMap_cons, hf,
        filterMap_fgetsFrom f hf h0 (fun line hline => hfit line (by simp [hline]))
          (by simpa using le_trans (Nat.le_add_left 2 _) hheld)]
    · rw [if_neg hc] at hfit
      by_cases hfull : size ≤ held.length + 2
      · -- the buffer is full, so that the line ends here
        rw [if_pos (Or.inr hfull), if_neg hc]
        cases text with
        | nil => simp [fgetsFrom, textLinesFrom]
        | cons d text =>
          have hd : d = 10 := by
            by_contra hd
            rw [textLinesFrom, if_neg hd] at hfit
            obtain ⟨line, hline, hpre⟩ :=
              @held_isPrefix_textLinesFrom text (held ++ [c] ++ [d]) (by simp)
            have hroom := hfit line hline
            have hle := hpre.length_le
            simp only [List.length_append, List.length_singleton] at hle
            omega
          subst hd
          rw [textLinesFrom, if_pos rfl] at hfit ⊢
          rw [fgetsFrom, if_pos (Or.inl rfl), List.filterMap_cons, List.nil_append,
            List.filterMap_cons, hlf, List.filterMap_cons,
            filterMap_fgetsFrom f hf h0 (fun line hline => hfit line (by simp [hline]))
              (by simpa using le_trans (Nat.le_add_left 2 _) hheld)]
      · rw [if_neg (not_or.2 ⟨hc, hfull⟩), if_neg hc,
          filterMap_fgetsFrom f hf h0 hfit (by simp; omega)]

/-- After a line feed the buffer is empty. -/
lemma fgetsFrom_append_of_lf {size : ℕ} (rest : Bytes) : ∀ {text : Bytes} (held : Bytes),
    text.getLast? = some 10 →
      fgetsFrom size held (text ++ rest) = fgetsFrom size held text ++ fgetsFrom size [] rest
  | [], _, h => by simp at h
  | [c], held, h => by
    obtain rfl : c = 10 := by simpa using h
    rw [List.singleton_append, fgetsFrom, fgetsFrom, if_pos (Or.inl rfl), if_pos (Or.inl rfl),
      fgetsFrom, if_pos rfl, List.singleton_append]
  | c :: d :: text, held, h => by
    have hlast : (d :: text).getLast? = some 10 := by simpa using h
    rw [List.cons_append, fgetsFrom, fgetsFrom]
    split_ifs
    · rw [fgetsFrom_append_of_lf rest [] hlast, List.cons_append]
    · exact fgetsFrom_append_of_lf rest (held ++ [c]) hlast

lemma fgetsAll_append {size : ℕ} {text : Bytes} (h : text = [] ∨ text.getLast? = some 10)
    (rest : Bytes) : fgetsAll size (text ++ rest) = fgetsAll size text ++ fgetsAll size rest := by
  rcases h with rfl | h
  · rfl
  · exact fgetsFrom_append_of_lf rest [] h

/-- The first buffer holds the first line, or as much of it as there is room for. -/
lemma exists_fgetsFrom_eq_cons {size : ℕ} : ∀ {text held : Bytes}, held.length + 2 ≤ size →
    held ++ text.takeWhile (· ≠ 10) ≠ [] → ∃ (tail : Bytes) (rest : List Bytes),
      (tail = [] ∨ tail = [10]) ∧ fgetsFrom size held text =
        ((held ++ text.takeWhile (· ≠ 10)).take (size - 1) ++ tail) :: rest
  | [], held, hheld, hne => by
    rw [List.takeWhile_nil, List.append_nil] at hne ⊢
    refine ⟨[], [], Or.inl rfl, ?_⟩
    rw [fgetsFrom, if_neg hne, List.take_of_length_le (by omega), List.append_nil]
  | c :: text, held, hheld, _ => by
    unfold fgetsFrom
    by_cases hc : c = 10
    · subst hc
      rw [if_pos (Or.inl rfl), List.takeWhile_cons_of_neg (by decide), List.append_nil]
      refine ⟨[10], fgetsFrom size [] text, Or.inr rfl, ?_⟩
      rw [List.take_of_length_le (by omega)]
    · have happ : held ++ c :: text.takeWhile (· ≠ 10) =
          held ++ [c] ++ text.takeWhile (· ≠ 10) := by simp
      rw [List.takeWhile_cons_of_pos (by simpa using hc), happ]
      by_cases hfull : size ≤ held.length + 2
      · rw [if_pos (Or.inr hfull)]
        refine ⟨[], fgetsFrom size [] text, Or.inl rfl, ?_⟩
        have hsize : size - 1 = (held ++ [c]).length := by simp; omega
        rw [hsize, List.take_left, List.append_nil]
      · rw [if_neg (not_or.2 ⟨hc, hfull⟩)]
        exact exists_fgetsFrom_eq_cons (by simp; omega) (by simp)

/-! ### Text mode -/

/-- What the C runtime makes of a file that is opened in text mode: a carriage return before a line
feed is dropped. -/
def textMode : Bytes → Bytes
  | [] => []
  | c :: text => if c = 13 ∧ cur text = 10 then textMode text else c :: textMode text

lemma textMode_subset : ∀ {text : Bytes} {c : UInt8}, c ∈ textMode text → c ∈ text
  | [], _, h => h
  | b :: text, c, h => by
    unfold textMode at h
    split_ifs at h
    · exact List.mem_cons_of_mem b (textMode_subset h)
    · rcases List.mem_cons.1 h with rfl | h
      · exact List.mem_cons_self
      · exact List.mem_cons_of_mem b (textMode_subset h)

/-- A line feed at the end stays. -/
lemma getLast?_textMode : ∀ {text : Bytes}, text.getLast? = some 10 →
    (textMode text).getLast? = some 10
  | [], h => by simp at h
  | [c], h => by
    obtain rfl : c = 10 := by simpa using h
    rfl
  | c :: d :: text, h => by
    have hlast := @getLast?_textMode (d :: text) (by simpa using h)
    unfold textMode
    split_ifs with hcr
    · exact hlast
    · rw [List.getLast?_cons, hlast]
      rfl

/-- A text has the same lines in text mode, up to carriage returns at their ends. -/
theorem map_textLinesFrom_textMode {β : Type*} (f : Bytes → β)
    (hf : ∀ line, f (line ++ [13]) = f line) : ∀ (held text : Bytes),
      (textLinesFrom held (textMode text)).map f = (textLinesFrom held text).map f
  | _, [] => rfl
  | held, c :: text => by
    unfold textMode
    split_ifs with hc
    · obtain ⟨rfl, hlf⟩ := hc
      cases text with
      | nil => exact absurd hlf (by decide)
      | cons d text =>
        rw [cur_cons] at hlf
        subst hlf
        rw [textMode, if_neg (fun hd => absurd hd.1 (by decide))]
        simp only [textLinesFrom, if_true, List.map_cons, hf,
          map_textLinesFrom_textMode f hf [] text, show ¬(13 : UInt8) = 10 by decide, if_false]
    · unfold textLinesFrom
      split_ifs with hlf
      · rw [List.map_cons, List.map_cons, map_textLinesFrom_textMode f hf [] text]
      · exact map_textLinesFrom_textMode f hf (held ++ [c]) text

/-- A line feed parts the texts in text mode too. -/
lemma textMode_append {text : Bytes} (h : text = [] ∨ text.getLast? = some 10) (rest : Bytes) :
    textMode (text ++ rest) = textMode text ++ textMode rest := by
  induction text with
  | nil => rfl
  | cons c text ih =>
    cases text with
    | nil =>
      obtain rfl : c = 10 := by simpa using h
      rw [List.singleton_append, textMode, textMode, if_neg (fun hc => absurd hc.1 (by decide)),
        if_neg (fun hc => absurd hc.1 (by decide))]
      rfl
    | cons d text =>
      have hrest := ih (Or.inr (by simpa using h))
      rw [List.cons_append, textMode, textMode, hrest, List.cons_append, cur_cons, cur_cons]
      split_ifs with hcr
      · rfl
      · rfl

/-- What text mode makes of the text that is written: a carriage return comes before each line
feed. -/
def textModeOut : Bytes → Bytes
  | [] => []
  | c :: text => if c = 10 then 13 :: 10 :: textModeOut text else c :: textModeOut text

lemma cur_textModeOut (text : Bytes) : cur (textModeOut text) ≠ 10 := by
  cases text with
  | nil => decide
  | cons c text =>
    rw [textModeOut]
    split_ifs with hc
    · exact (by decide : (13 : UInt8) ≠ 10)
    · exact hc

/-- **What is written in text mode is read again.** -/
theorem textMode_textModeOut (text : Bytes) : textMode (textModeOut text) = text := by
  induction text with
  | nil => rfl
  | cons c text ih =>
    rw [textModeOut]
    by_cases hlf : c = 10
    · subst hlf
      rw [if_pos rfl, textMode, if_pos ⟨rfl, rfl⟩, textMode,
        if_neg (fun h => absurd h.1 (by decide)), ih]
    · rw [if_neg hlf, textMode, if_neg (fun h => cur_textModeOut text h.2), ih]

/-! ### Where a text is cut -/

/-- A buffer that `fgets` can fill: it is not empty, it fits, and no line feed is followed by
anything. -/
def IsPiece (size : ℕ) (piece : Bytes) : Prop :=
  piece ≠ [] ∧ piece.length < size ∧ (10 : UInt8) ∉ piece.dropLast

/-- After this piece another one begins: its line ends, or the buffer is full. -/
def IsClosed (size : ℕ) (piece : Bytes) : Prop := piece.getLast? = some 10 ∨ piece.length + 1 = size

/-- The pieces are those of a text: only the last one may be open. -/
structure IsCut (size : ℕ) (pieces : List Bytes) : Prop where
  piece : ∀ p ∈ pieces, IsPiece size p
  closed : ∀ p ∈ pieces.dropLast, IsClosed size p

section Cut

variable {size : ℕ}

lemma flatten_fgetsFrom : ∀ {text held : Bytes}, (fgetsFrom size held text).flatten = held ++ text
  | [], held => by
    unfold fgetsFrom
    split_ifs with h <;> simp [h]
  | c :: text, held => by
    unfold fgetsFrom
    split_ifs
    · rw [List.flatten_cons, flatten_fgetsFrom, List.nil_append, List.append_assoc,
        List.singleton_append]
    · rw [flatten_fgetsFrom, List.append_assoc, List.singleton_append]

/-- **No byte is lost** between the pieces. -/
theorem flatten_fgetsAll (size : ℕ) (text : Bytes) : (fgetsAll size text).flatten = text := by
  rw [fgetsAll, flatten_fgetsFrom, List.nil_append]

lemma IsCut.nil : IsCut size [] := ⟨by simp, by simp⟩

lemma isCut_singleton {p : Bytes} : IsCut size [p] ↔ IsPiece size p :=
  ⟨fun h => h.piece p List.mem_cons_self, fun h => ⟨by simpa using h, by simp⟩⟩

lemma isCut_cons {p : Bytes} {ps : List Bytes} (hne : ps ≠ []) :
    IsCut size (p :: ps) ↔ IsPiece size p ∧ IsClosed size p ∧ IsCut size ps := by
  have hlast : (p :: ps).dropLast = p :: ps.dropLast := List.dropLast_cons_of_ne_nil hne
  constructor
  · intro h
    refine ⟨h.piece p List.mem_cons_self, h.closed p ?_, ?_, ?_⟩
    · rw [hlast]
      exact List.mem_cons_self
    · exact fun q hq => h.piece q (List.mem_cons_of_mem p hq)
    · intro q hq
      refine h.closed q ?_
      rw [hlast]
      exact List.mem_cons_of_mem p hq
  · rintro ⟨hp, hclosed, hps⟩
    refine ⟨?_, ?_⟩
    · intro q hq
      rcases List.mem_cons.1 hq with rfl | hq
      · exact hp
      · exact hps.piece q hq
    · rw [hlast]
      intro q hq
      rcases List.mem_cons.1 hq with rfl | hq
      · exact hclosed
      · exact hps.closed q hq

/-- What the buffer may hold while a piece is read. -/
def IsHeld (size : ℕ) (held : Bytes) : Prop := held.length + 1 < size ∧ (10 : UInt8) ∉ held

lemma IsHeld.isPiece_append {held : Bytes} (h : IsHeld size held) (c : UInt8) :
    IsPiece size (held ++ [c]) :=
  ⟨by simp, by simpa using h.1, by simpa using h.2⟩

lemma isCut_fgetsFrom : ∀ {text held : Bytes}, IsHeld size held → IsCut size (fgetsFrom size held text)
  | [], held, h => by
    unfold fgetsFrom
    split_ifs with hne
    · exact .nil
    · refine isCut_singleton.2 ⟨hne, by have := h.1; omega, fun hmem => ?_⟩
      exact h.2 (List.mem_of_mem_dropLast hmem)
  | c :: text, held, h => by
    unfold fgetsFrom
    have hpiece := h.isPiece_append c
    have hempty : IsHeld size [] := ⟨by have := h.1; simp; omega, by simp⟩
    split_ifs with hend
    · have hclosed : IsClosed size (held ++ [c]) := by
        rcases hend with rfl | hfull
        · exact .inl (by simp)
        · have := h.1
          exact .inr (by simp; omega)
      by_cases hne : fgetsFrom size [] text = []
      · rw [hne]
        exact isCut_singleton.2 hpiece
      · exact (isCut_cons hne).2 ⟨hpiece, hclosed, isCut_fgetsFrom hempty⟩
    · rw [not_or] at hend
      refine isCut_fgetsFrom ⟨by simp; omega, ?_⟩
      simpa [h.2, eq_comm] using hend.1

/-- The buffer takes what does not end a piece. -/
lemma fgetsFrom_append : ∀ {p held rest : Bytes}, IsHeld size (held ++ p) →
    fgetsFrom size held (p ++ rest) = fgetsFrom size (held ++ p) rest
  | [], held, rest, _ => by rw [List.nil_append, List.append_nil]
  | c :: p, held, rest, h => by
    have happ : held ++ c :: p = (held ++ [c]) ++ p := by simp
    have hgo : ¬(c = 10 ∨ size ≤ held.length + 2) := by
      rintro (rfl | hfull)
      · exact h.2 (by simp)
      · have hlen := h.1
        simp only [List.length_append, List.length_cons] at hlen
        omega
    rw [List.cons_append, fgetsFrom, if_neg hgo, happ]
    exact fgetsFrom_append (happ ▸ h)

lemma fgetsFrom_piece {p : Bytes} (hp : IsPiece size p) (rest : Bytes) :
    (IsClosed size p → fgetsFrom size [] (p ++ rest) = p :: fgetsFrom size [] rest) ∧
      (fgetsFrom size [] p = [p]) := by
  obtain ⟨hne, hlen, hlf⟩ := hp
  obtain ⟨held, c, rfl⟩ : ∃ held c, p = held ++ [c] :=
    ⟨p.dropLast, p.getLast hne, (List.dropLast_append_getLast hne).symm⟩
  simp only [List.dropLast_concat, List.length_append, List.length_singleton] at hlen hlf
  have hheld : IsHeld size ([] ++ held) := ⟨by simpa using hlen, by simpa using hlf⟩
  constructor
  · intro hclosed
    have hend : c = 10 ∨ size ≤ held.length + 2 := by
      rcases hclosed with hlast | hfull
      · exact .inl (by simpa using hlast)
      · exact .inr (by simp at hfull; omega)
    rw [List.append_assoc, fgetsFrom_append hheld, List.nil_append, List.singleton_append, fgetsFrom,
      if_pos hend]
  · rw [fgetsFrom_append hheld, List.nil_append, fgetsFrom]
    split_ifs
    · rfl
    · rw [fgetsFrom, if_neg (by simp)]

/-- A list of pieces is what is read of their text. -/
lemma IsCut.fgetsAll_flatten : ∀ {pieces : List Bytes}, IsCut size pieces →
    fgetsAll size pieces.flatten = pieces
  | [], _ => rfl
  | [p], h => by
    rw [List.flatten_singleton]
    exact (fgetsFrom_piece (isCut_singleton.1 h) []).2
  | p :: q :: ps, h => by
    obtain ⟨hp, hclosed, hps⟩ := (isCut_cons (List.cons_ne_nil q ps)).1 h
    rw [List.flatten_cons, fgetsAll, (fgetsFrom_piece hp _).1 hclosed]
    exact congrArg (p :: ·) hps.fgetsAll_flatten

/-- **What `fgets` reads**: the one way to cut the text. -/
theorem fgetsAll_eq_iff (hsize : 2 ≤ size) {text : Bytes} {pieces : List Bytes} :
    fgetsAll size text = pieces ↔ text = pieces.flatten ∧ IsCut size pieces := by
  constructor
  · rintro rfl
    refine ⟨(flatten_fgetsAll size text).symm, isCut_fgetsFrom ⟨?_, List.not_mem_nil⟩⟩
    rw [List.length_nil]
    omega
  · rintro ⟨rfl, h⟩
    exact h.fgetsAll_flatten

end Cut

end Wpm.Lib.Text
