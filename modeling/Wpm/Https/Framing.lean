import Wpm.Https.Body

/-!
The framings of a body, and that `https_body` undoes them.
-/

namespace Wpm.Https

open Wpm.Lib Wpm.Lib.CString

/-! ### Framings -/

/-- The line of a chunk: its size in hexadecimal digits, and an extension. -/
structure SizeLine (n : ℕ) where
  digits : Bytes
  extension : Bytes
  writes : Numeral.Writes (httpsDigit 16) 16 digits n
  extension_eq : extension = [] ∨ ∃ t, extension = ch ';' :: t
  text : ∀ x ∈ extension, isText x = true
  fits : (digits ++ extension).length + 1 < lineSize

def SizeLine.line {n : ℕ} (l : SizeLine n) : Bytes := l.digits ++ l.extension

/-- A chunk. -/
structure Chunk where
  data : Bytes
  ne_nil : data ≠ []
  size : SizeLine data.length

/-- A field behind the last chunk. -/
structure Trailer where
  name : Bytes
  value : Bytes
  name_ne_nil : name ≠ []
  token : name.all isToken = true
  allowed : ¬(stricmp name (str "Content-Length") = .eq ∨ stricmp name (str "Transfer-Encoding") = .eq)
  text : ∀ x ∈ value, isText x = true
  fits : (name ++ ch ':' :: value).length + 1 < lineSize

def Trailer.line (t : Trailer) : Bytes := t.name ++ ch ':' :: t.value

/-- A line with its end, in front of what follows. -/
def withEnd (line rest : Bytes) : Bytes := line ++ 13 :: 10 :: rest

/-- The chunks of a body, in front of what follows. -/
def chunkStream (chunks : List Chunk) (rest : Bytes) : Bytes :=
  chunks.foldr (fun c rest => withEnd c.size.line (c.data ++ withEnd [] rest)) rest

/-- The trailers, with the empty line. -/
def trailerStream (trailers : List Trailer) : Bytes :=
  trailers.foldr (fun t rest => withEnd t.line rest) (withEnd [] [])

/-- What frames a body: its length, chunks, or the end of the connection. -/
inductive Framing
  | length (payload : Bytes)
  | chunked (chunks : List Chunk) (last : SizeLine 0) (trailers : List Trailer)
      (fits : (trailerStream trailers).length ≤ headerLimit)
  | close (payload : Bytes)

/-- What the headers say of the body. -/
def Framing.response : Framing → Response
  | length payload => ⟨false, true, payload.length⟩
  | chunked .. => ⟨true, false, 0⟩
  | close _ => ⟨false, false, 0⟩

def Framing.payload : Framing → Bytes
  | length payload => payload
  | chunked chunks .. => chunks.flatMap Chunk.data
  | close payload => payload

/-- The bytes of the body on the wire. -/
def Framing.stream : Framing → Bytes
  | length payload => payload
  | chunked chunks last trailers _ => chunkStream chunks (withEnd last.line (trailerStream trailers))
  | close payload => payload

/-- The connection is about to deliver the body: what ends with the connection ends with an
authenticated close, and behind what is framed anything may follow. -/
def Framing.Arrives (f : Framing) (c : Connection) : Prop :=
  if f.response.framed then ∃ rest, c.unread = f.stream ++ rest
  else c.unread = f.stream ∧ c.ending = .closeNotify

/-! ### The lines of the framings -/

section Lines

variable {c : Connection} {n : ℕ}

lemma isText_of_isToken {x : UInt8} (h : isToken x = true) : isText x = true ∧ x ≠ ch ':' := by
  have hall : ∀ y ∈ str "!#$%&'*+-.^_`|~", isText y = true ∧ y ≠ ch ':' := by decide +kernel
  rw [isToken, Bool.or_eq_true, decide_eq_true_iff] at h
  rcases h with h | h
  · simp only [isAlnum, isText, isDigit, ch] at h ⊢
    grind
  · exact hall x h

lemma isText_of_httpsDigit {x : UInt8} {d : ℕ} (h : httpsDigit 16 x = some d) :
    isText x = true ∧ x ≠ ch ';' := by
  simp only [httpsDigit, isText, ch] at h ⊢
  grind

lemma SizeLine.mem_digits (l : SizeLine n) : ∀ x ∈ l.digits, isText x = true ∧ x ≠ ch ';' := by
  obtain ⟨-, ds, hds, -⟩ := l.writes
  intro x hx
  have hmem : httpsDigit 16 x ∈ l.digits.map (httpsDigit 16) := List.mem_map_of_mem hx
  rw [hds] at hmem
  obtain ⟨d, -, hd⟩ := List.mem_map.1 hmem
  exact isText_of_httpsDigit hd.symm

lemma SizeLine.isText_line (l : SizeLine n) : ∀ x ∈ l.line, isText x = true := by
  intro x hx
  rcases List.mem_append.1 hx with h | h
  · exact (l.mem_digits x h).1
  · exact l.text x h

/-- What stands before the extension. -/
lemma SizeLine.cutAt_line (l : SizeLine n) :
    ((cutAt (ch ';') l.line).map Prod.fst).getD l.line = l.digits := by
  have hnot : ch ';' ∉ l.digits := fun h => (l.mem_digits _ h).2 rfl
  rcases l.extension_eq with h | ⟨t, h⟩
  · have hline : l.line = l.digits := by rw [SizeLine.line, h, List.append_nil]
    rw [hline, cutAt_eq_none.2 hnot]
    rfl
  · have hline : cutAt (ch ';') l.line = some (l.digits, t) :=
      cutAt_eq_some.2 ⟨by rw [SizeLine.line, h], hnot⟩
    rw [hline]
    rfl

lemma SizeLine.httpsNumber_digits (l : SizeLine n) (hn : n ≤ ullongMax) :
    httpsNumber l.digits 16 = some n :=
  (httpsNumber_eq_some (by decide) (by decide)).2 ⟨l.writes, hn⟩

lemma httpsSize_of_line (l : SizeLine n) {c' : Connection} {left : ℕ}
    (h : httpsLine c lineSize = some (l.line, left, c')) :
    httpsSize c = (httpsNumber l.digits 16).map fun n => (n, c') := by
  rw [httpsSize, h]
  dsimp only
  rw [l.cutAt_line]

theorem httpsSize_eq_some (l : SizeLine n) (hn : n ≤ ullongMax) {rest : Bytes}
    (h : c.unread = withEnd l.line rest) :
    ∃ c', httpsSize c = some (n, c') ∧ c'.unread = rest := by
  obtain ⟨c', hline, hrest, -⟩ := httpsLine_append lineSize l.isText_line h l.fits l.fits
  refine ⟨c', ?_, hrest⟩
  rw [httpsSize_of_line l hline, l.httpsNumber_digits hn]
  rfl

/-- A part of a stream ends within its first line or behind it. -/
lemma prefix_withEnd {p line rest : Bytes} (h : p <+: withEnd line rest) :
    p.length < line.length + 2 ∨ ∃ p', p = withEnd line p' ∧ p' <+: rest := by
  have hsplit : ∀ t, withEnd line t = (line ++ [13, 10]) ++ t := fun t => by simp [withEnd]
  rcases Nat.lt_or_ge p.length (line.length + 2) with hlt | hge
  · exact .inl hlt
  · rw [hsplit] at h
    obtain ⟨p', rfl⟩ := List.prefix_of_prefix_length_le (List.prefix_append ..) h (by simpa using hge)
    exact .inr ⟨p', (hsplit p').symm, (List.prefix_append_right_inj _).1 h⟩

lemma withEnd_prefix_iff {line a b : Bytes} : withEnd line a <+: withEnd line b ↔ a <+: b := by
  rw [withEnd, withEnd, List.prefix_append_right_inj, List.cons_prefix_cons, List.cons_prefix_cons]
  simp

/-- **The line of a chunk in a part of the stream** is read as it stands or not at all. -/
theorem httpsSize_prefix (l : SizeLine n) {rest : Bytes} (h : c.unread <+: withEnd l.line rest) :
    httpsSize c = none ∨ ∃ c', httpsSize c = some (n, c') ∧ c.unread = withEnd l.line c'.unread := by
  rcases prefix_withEnd h with hlt | ⟨p, hp, -⟩
  · refine .inl ?_
    rw [httpsSize, httpsLine_eq_none l.isText_line h hlt]
  · rcases Nat.lt_or_ge ullongMax n with hbig | hn
    · refine .inl ?_
      obtain ⟨c', hline, -⟩ := httpsLine_append lineSize l.isText_line hp l.fits l.fits
      rw [httpsSize_of_line l hline, Option.map_eq_none_iff]
      by_contra hne
      obtain ⟨m, hm⟩ := Option.ne_none_iff_exists'.1 hne
      obtain ⟨hwrites, hle⟩ := (httpsNumber_eq_some (by decide) (by decide)).1 hm
      exact absurd (l.writes.unique hwrites) (by omega)
    · obtain ⟨c', hsize, rfl⟩ := httpsSize_eq_some l hn hp
      exact .inr ⟨c', hsize, hp⟩

lemma Trailer.isText_line (t : Trailer) : ∀ x ∈ t.line, isText x = true := by
  intro x hx
  rcases List.mem_append.1 hx with h | h
  · exact (isText_of_isToken (List.all_eq_true.1 t.token x h)).1
  · rcases List.mem_cons.1 h with rfl | h
    · decide
    · exact t.text x h

/-- The field of a trailer is read. -/
lemma Trailer.httpsField_line (t : Trailer) : ∃ value, httpsField t.line = some (t.name, value) := by
  have hcut : cutAt (ch ':') t.line = some (t.name, t.value) := by
    refine cutAt_eq_some.2 ⟨rfl, fun h => ?_⟩
    exact (isText_of_isToken (List.all_eq_true.1 t.token _ h)).2 rfl
  have hname : ¬(t.name = [] ∨ t.name.all isToken = false) := by
    rw [t.token]
    simpa using t.name_ne_nil
  rw [httpsField, hcut]
  dsimp only
  rw [if_neg hname]
  exact ⟨_, rfl⟩

lemma Trailer.line_ne_nil (t : Trailer) : t.line ≠ [] := by simp [Trailer.line]

/-- What is read behind a trailer. -/
lemma httpsTrailers_of_line {t : Trailer} {c' : Connection} {budget left : ℕ}
    (h : httpsLine c budget = some (t.line, left, c')) :
    httpsTrailers c budget = httpsTrailers c' left := by
  obtain ⟨value, hfield⟩ := t.httpsField_line
  rw [httpsTrailers]
  split
  next hline => rw [h] at hline; simp at hline
  next line left' c₁ hline =>
    rw [h] at hline
    obtain ⟨rfl, rfl, rfl⟩ : t.line = line ∧ left = left' ∧ c' = c₁ := by simpa using hline
    rw [if_neg t.line_ne_nil, hfield]
    dsimp only
    rw [if_neg t.allowed]

lemma httpsTrailers_of_none {budget : ℕ} (h : httpsLine c budget = none) :
    httpsTrailers c budget = false := by
  rw [httpsTrailers]
  split
  next => rfl
  next hline => rw [h] at hline; simp at hline

/-- **The trailers are passed over**, with the empty line behind them. -/
theorem httpsTrailers_eq_true : ∀ {trailers : List Trailer} {c : Connection} {budget : ℕ}
    {rest : Bytes}, c.unread = trailerStream trailers ++ rest →
      (trailerStream trailers).length ≤ budget → httpsTrailers c budget = true
  | [], c, budget, rest, h, hbudget => by
    obtain ⟨c', hline, -⟩ := httpsLine_nil budget h hbudget
    rw [httpsTrailers]
    split
    next hnone => rw [hline] at hnone; simp at hnone
    next line left c₁ hsome =>
      rw [hline] at hsome
      obtain ⟨rfl, -⟩ := Prod.mk.inj (Option.some.inj hsome)
      rw [if_pos rfl]
  | t :: trailers, c, budget, rest, h, hbudget => by
    have hstream : trailerStream (t :: trailers) = withEnd t.line (trailerStream trailers) := rfl
    rw [hstream] at h hbudget
    have hlen : t.line.length + 2 + (trailerStream trailers).length ≤ budget := by
      simp only [withEnd, List.length_append, List.length_cons] at hbudget
      omega
    have hunread : c.unread = t.line ++ 13 :: 10 :: (trailerStream trailers ++ rest) := by
      rw [h, withEnd, List.append_assoc]
      rfl
    obtain ⟨c', hline, hrest, -⟩ := httpsLine_append budget t.isText_line hunread t.fits (by omega)
    rw [httpsTrailers_of_line hline]
    exact httpsTrailers_eq_true hrest (by omega)

/-- **Trailers that break off** are refused. -/
theorem httpsTrailers_eq_false : ∀ {trailers : List Trailer} {c : Connection} {budget : ℕ},
    c.unread <+: trailerStream trailers → c.unread ≠ trailerStream trailers →
      httpsTrailers c budget = false
  | [], c, budget, h, hne => by
    refine httpsTrailers_of_none (httpsLine_nil_eq_none h ?_)
    have hlen := h.length_le
    rcases Nat.lt_or_ge c.unread.length 2 with hlt | hge
    · exact hlt
    · exact absurd (h.eq_of_length_le hge) hne
  | t :: trailers, c, budget, h, hne => by
    rcases prefix_withEnd h with hlt | ⟨p, hp, hpart⟩
    · exact httpsTrailers_of_none (httpsLine_eq_none t.isText_line h hlt)
    · cases hline : httpsLine c budget with
      | none => exact httpsTrailers_of_none hline
      | some result =>
        obtain ⟨line, left, c'⟩ := result
        obtain ⟨rfl, hrest⟩ := httpsLine_unique t.isText_line hp hline
        rw [httpsTrailers_of_line hline]
        refine httpsTrailers_eq_false (hrest ▸ hpart) fun heq => hne ?_
        rw [hp, ← hrest, heq]
        rfl

end Lines

/-! ### The body -/

section Body

variable {r : Response} {writes : Bytes → Bytes → Bool}

/-- The connection delivers the body, from the count `0` on, and all of the payload is written. -/
def Framing.Undone (f : Framing) : Prop :=
  ∀ (c : Connection) (writes : Bytes → Bytes → Bool), f.Arrives c → (∀ a b, writes a b = true) →
    httpsBody f.response writes c 0 = (true, f.payload)

/-- A part of the body is refused, however the stream then ends. -/
def Framing.Refused (f : Framing) : Prop :=
  ∀ (c : Connection) (writes : Bytes → Bytes → Bool) (current : ℕ), c.unread <+: f.stream →
    c.unread ≠ f.stream → (httpsBody f.response writes c current).1 = false

lemma httpsBodyFrom_of_chunk_returned {s : Download} {ok : Bool} {output : Bytes}
    (h : httpsChunk r s = .returned ok output) : httpsBodyFrom r writes s = (ok, output) := by
  rw [httpsBodyFrom]
  split
  next h' => rw [h] at h'; simp_all
  next h' => rw [h] at h'; simp at h'

lemma httpsBodyFrom_of_data_returned {s s₁ : Download} {ok : Bool} {output : Bytes}
    (h₁ : httpsChunk r s = .left s₁) (h : httpsData r writes bufferSize s₁ = .returned ok output) :
    httpsBodyFrom r writes s = (ok, output) := by
  rw [httpsBodyFrom]
  split
  next h' => rw [h₁] at h'; simp at h'
  next s' h' =>
    rw [h₁] at h'
    obtain rfl := Outcome.left.inj h'
    split
    next h'' => rw [h] at h''; simp_all
    next h'' => rw [h] at h''; simp at h''

lemma httpsBodyFrom_of_line {s s₁ s₂ : Download} {left : ℕ} {c : Connection}
    (h₁ : httpsChunk r s = .left s₁) (h₂ : httpsData r writes bufferSize s₁ = .left s₂)
    (h₃ : httpsLine s₂.connection 2 = some ([], left, c)) :
    httpsBodyFrom r writes s = httpsBodyFrom r writes { s₂ with connection := c } := by
  rw [httpsBodyFrom]
  split
  next h' => rw [h₁] at h'; simp at h'
  next s' h' =>
    rw [h₁] at h'
    obtain rfl := Outcome.left.inj h'
    split
    next h'' => rw [h₂] at h''; simp at h''
    next s' h'' =>
      rw [h₂] at h''
      obtain rfl := Outcome.left.inj h''
      split <;> simp_all

lemma httpsBodyFrom_of_no_line {s s₁ s₂ : Download} (h₁ : httpsChunk r s = .left s₁)
    (h₂ : httpsData r writes bufferSize s₁ = .left s₂) (h₃ : httpsLine s₂.connection 2 = none) :
    httpsBodyFrom r writes s = (false, s₂.output) := by
  rw [httpsBodyFrom]
  split
  next h' => rw [h₁] at h'; simp at h'
  next s' h' =>
    rw [h₁] at h'
    obtain rfl := Outcome.left.inj h'
    split
    next h'' => rw [h₂] at h''; simp at h''
    next s' h'' =>
      rw [h₂] at h''
      obtain rfl := Outcome.left.inj h''
      split <;> simp_all

lemma httpsChunk_of_unchunked (hr : r.chunked = false) (s : Download) : httpsChunk r s = .left s := by
  rw [httpsChunk, if_pos hr]

lemma httpsChunk_of_none (hr : r.chunked = true) {s : Download} (h : httpsSize s.connection = none) :
    httpsChunk r s = .returned false s.output := by
  rw [httpsChunk, hr, if_neg Bool.true_eq_false_eq_False, h]

/-- The line of a chunk that is not the last one. -/
lemma httpsChunk_of_size (hr : r.chunked = true) {s : Download} {n : ℕ} {c : Connection}
    (hn : n ≠ 0) (h : httpsSize s.connection = some (n, c)) :
    httpsChunk r s = .left { s with connection := c, remaining := n } := by
  obtain ⟨n, rfl⟩ := Nat.exists_eq_succ_of_ne_zero hn
  rw [httpsChunk, hr, if_neg Bool.true_eq_false_eq_False, h]

/-- The line of the last chunk. -/
lemma httpsChunk_of_last (hr : r.chunked = true) {s : Download} {c : Connection}
    (h : httpsSize s.connection = some (0, c)) :
    httpsChunk r s = .returned (httpsTrailers c headerLimit) s.output := by
  rw [httpsChunk, hr, if_neg Bool.true_eq_false_eq_False, h]

/-- **The chunks are undone**, if what stands behind them is. -/
theorem httpsBodyFrom_chunks (hr : r.chunked = true) (hw : ∀ a b, writes a b = true) {rest : Bytes}
    (hrest : ∀ s : Download, s.connection.unread = rest →
      httpsBodyFrom r writes s = (true, s.output)) :
    ∀ {chunks : List Chunk} {s : Download}, s.connection.unread = chunkStream chunks rest →
      s.current + (chunks.flatMap Chunk.data).length ≤ ullongMax →
      httpsBodyFrom r writes s = (true, s.output ++ chunks.flatMap Chunk.data)
  | [], s, h, _ => by
    rw [hrest s h, List.flatMap_nil, List.append_nil]
  | k :: chunks, s, h, hcount => by
    have hframed : r.framed = true := by rw [Response.framed, hr, Bool.or_true]
    rw [List.flatMap_cons, List.length_append] at hcount
    obtain ⟨c₁, hsize, hdata⟩ := httpsSize_eq_some k.size (by omega) h
    have hchunk := httpsChunk_of_size (r := r) (s := s) hr (List.length_pos_iff.2 k.ne_nil).ne' hsize
    have htakes : Takes writes { s with connection := c₁, remaining := k.data.length } k.data :=
      ⟨hw, by change s.current + _ ≤ _; omega⟩
    rcases httpsData_frame writes bufferSize
      (s := { s with connection := c₁, remaining := k.data.length }) hframed (by decide) k.ne_nil rfl
      hdata with ⟨s₂, hleft, hunread, houtput, hcurrent⟩ | ⟨hnot, -⟩
    · rw [finish, hr, if_pos rfl] at hleft
      obtain ⟨c₂, hline, htail, -⟩ := httpsLine_nil 2 hunread (Nat.le_refl 2)
      rw [httpsBodyFrom_of_line hchunk hleft hline,
        httpsBodyFrom_chunks hr hw hrest (s := { s₂ with connection := c₂ }) htail
          (by change s₂.current + _ ≤ _; rw [hcurrent htakes]; change s.current + _ + _ ≤ _; omega)]
      change (true, s₂.output ++ _) = _
      rw [houtput, List.flatMap_cons, ← List.append_assoc]
    · exact absurd htakes hnot

/-- **Chunks that break off are refused**, if what stands behind them is. -/
theorem httpsBodyFrom_chunks_refused (hr : r.chunked = true) {rest : Bytes}
    (hrest : ∀ s : Download, s.connection.unread <+: rest → s.connection.unread ≠ rest →
      (httpsBodyFrom r writes s).1 = false) :
    ∀ {chunks : List Chunk} {s : Download}, s.connection.unread <+: chunkStream chunks rest →
      s.connection.unread ≠ chunkStream chunks rest → (httpsBodyFrom r writes s).1 = false
  | [], s, h, hne => hrest s h hne
  | k :: chunks, s, h, hne => by
    have hframed : r.framed = true := by rw [Response.framed, hr, Bool.or_true]
    rcases httpsSize_prefix k.size h with hnone | ⟨c₁, hsize, hunread⟩
    · rw [httpsBodyFrom_of_chunk_returned (httpsChunk_of_none hr hnone)]
    · have hchunk := httpsChunk_of_size (r := r) (s := s) hr (List.length_pos_iff.2 k.ne_nil).ne' hsize
      have hpart : c₁.unread <+: k.data ++ withEnd [] (chunkStream chunks rest) :=
        withEnd_prefix_iff.1 (hunread ▸ h)
      rcases Nat.lt_or_ge c₁.unread.length k.data.length with hshort | hfull
      · obtain ⟨output, hdata⟩ := httpsData_short writes bufferSize
          (s := { s with connection := c₁, remaining := k.data.length }) hframed (by decide) hshort
        rw [httpsBodyFrom_of_data_returned hchunk hdata]
      · obtain ⟨p, hp⟩ := List.prefix_of_prefix_length_le (List.prefix_append ..) hpart hfull
        rcases httpsData_frame writes bufferSize
          (s := { s with connection := c₁, remaining := k.data.length }) hframed (by decide) k.ne_nil
          rfl hp.symm with ⟨s₂, hleft, hunread₂, -⟩ | ⟨-, output, hdata⟩
        · rw [finish, hr, if_pos rfl] at hleft
          rw [← hp, List.prefix_append_right_inj] at hpart
          rcases prefix_withEnd hpart with hlt | ⟨p', rfl, hp'⟩
          · rw [httpsBodyFrom_of_no_line hchunk hleft
              (httpsLine_nil_eq_none (hunread₂ ▸ hpart) (hunread₂ ▸ hlt))]
          · obtain ⟨c₂, hline, htail, -⟩ := httpsLine_nil 2 hunread₂ (Nat.le_refl 2)
            rw [httpsBodyFrom_of_line hchunk hleft hline]
            refine httpsBodyFrom_chunks_refused hr hrest (s := { s₂ with connection := c₂ })
              (htail ▸ hp') fun heq => hne ?_
            have hp'' : p' = chunkStream chunks rest := htail.symm.trans heq
            rw [hunread, ← hp, hp'']
            rfl
        · rw [httpsBodyFrom_of_data_returned hchunk hdata]

/-- What stands behind the chunks. -/
lemma httpsBodyFrom_last (hr : r.chunked = true) (last : SizeLine 0) {trailers : List Trailer}
    (hfits : (trailerStream trailers).length ≤ headerLimit) {rest : Bytes} {s : Download}
    (h : s.connection.unread = withEnd last.line (trailerStream trailers ++ rest)) :
    httpsBodyFrom r writes s = (true, s.output) := by
  obtain ⟨c, hsize, hrest⟩ := httpsSize_eq_some last (Nat.zero_le _) h
  rw [httpsBodyFrom_of_chunk_returned (httpsChunk_of_last hr hsize), httpsTrailers_eq_true hrest hfits]

lemma httpsBodyFrom_last_refused (hr : r.chunked = true) (last : SizeLine 0)
    {trailers : List Trailer} {s : Download}
    (h : s.connection.unread <+: withEnd last.line (trailerStream trailers))
    (hne : s.connection.unread ≠ withEnd last.line (trailerStream trailers)) :
    (httpsBodyFrom r writes s).1 = false := by
  rcases httpsSize_prefix last h with hnone | ⟨c, hsize, hunread⟩
  · rw [httpsBodyFrom_of_chunk_returned (httpsChunk_of_none hr hnone)]
  · rw [httpsBodyFrom_of_chunk_returned (httpsChunk_of_last hr hsize)]
    exact httpsTrailers_eq_false (withEnd_prefix_iff.1 (hunread ▸ h)) fun heq => hne (heq ▸ hunread)

end Body

/-! ### The framings are undone -/

section Framing

lemma withEnd_append (line a b : Bytes) : withEnd line a ++ b = withEnd line (a ++ b) := by
  simp [withEnd]

lemma chunkStream_append (chunks : List Chunk) (a b : Bytes) :
    chunkStream chunks a ++ b = chunkStream chunks (a ++ b) := by
  induction chunks with
  | nil => rfl
  | cons k chunks ih =>
    change withEnd k.size.line (k.data ++ withEnd [] (chunkStream chunks a)) ++ b =
      withEnd k.size.line (k.data ++ withEnd [] (chunkStream chunks (a ++ b)))
    rw [← ih, withEnd_append, List.append_assoc, withEnd_append]

/-- The length of a payload is that of its stream. -/
lemma undone_length {payload : Bytes} (hlen : payload.length ≤ ullongMax) :
    (Framing.length payload).Undone := by
  intro c writes harrives hw
  obtain ⟨rest, h⟩ : ∃ rest, c.unread = payload ++ rest := harrives
  have hchunk := httpsChunk_of_unchunked (r := (Framing.length payload).response) rfl
    ⟨c, payload.length, [], 0⟩
  change httpsBodyFrom _ writes ⟨c, payload.length, [], 0⟩ = (true, payload)
  by_cases hne : payload = []
  · refine httpsBodyFrom_of_data_returned hchunk ?_
    rw [httpsData, if_pos ⟨rfl, by simp [hne]⟩, hne]
  · have htakes : Takes writes ⟨c, payload.length, [], 0⟩ payload :=
      ⟨hw, by change 0 + _ ≤ _; omega⟩
    rcases httpsData_frame writes bufferSize (r := (Framing.length payload).response)
      (s := ⟨c, payload.length, [], 0⟩) rfl (by decide) hne rfl h with
      ⟨s', hs', -, houtput, -⟩ | ⟨hnot, -⟩
    · rw [httpsBodyFrom_of_data_returned hchunk hs', houtput]
      rfl
    · exact absurd htakes hnot

lemma refused_length (payload : Bytes) : (Framing.length payload).Refused := by
  intro c writes current hpart hne
  have hshort : c.unread.length < payload.length :=
    lt_of_le_of_ne hpart.length_le fun heq => hne (hpart.eq_of_length heq)
  obtain ⟨output, hdata⟩ := httpsData_short writes bufferSize
    (r := (Framing.length payload).response)
    (s := ⟨c, payload.length, [], 0⟩) rfl (by decide) hshort
  have hchunk := httpsChunk_of_unchunked (r := (Framing.length payload).response) rfl
    ⟨c, payload.length, [], 0⟩
  exact congrArg Prod.fst (httpsBodyFrom_of_data_returned hchunk hdata)

lemma undone_chunked {chunks : List Chunk} {last : SizeLine 0} {trailers : List Trailer}
    {fits : (trailerStream trailers).length ≤ headerLimit}
    (hlen : (chunks.flatMap Chunk.data).length ≤ ullongMax) :
    (Framing.chunked chunks last trailers fits).Undone := by
  intro c writes harrives hw
  obtain ⟨rest, h⟩ : ∃ rest, c.unread =
    chunkStream chunks (withEnd last.line (trailerStream trailers)) ++ rest := harrives
  rw [chunkStream_append, withEnd_append] at h
  have hlast : ∀ s : Download,
      s.connection.unread = withEnd last.line (trailerStream trailers ++ rest) →
        httpsBodyFrom ⟨true, false, 0⟩ writes s = (true, s.output) :=
    fun s hs => httpsBodyFrom_last rfl last fits hs
  exact httpsBodyFrom_chunks (s := ⟨c, 0, [], 0⟩) rfl hw hlast h (by simpa using hlen)

lemma refused_chunked (chunks : List Chunk) (last : SizeLine 0) (trailers : List Trailer)
    (fits : (trailerStream trailers).length ≤ headerLimit) :
    (Framing.chunked chunks last trailers fits).Refused := by
  intro c writes current hpart hne
  have hlast : ∀ s : Download,
      s.connection.unread <+: withEnd last.line (trailerStream trailers) →
      s.connection.unread ≠ withEnd last.line (trailerStream trailers) →
        (httpsBodyFrom ⟨true, false, 0⟩ writes s).1 = false :=
    fun s hs hs' => httpsBodyFrom_last_refused rfl last hs hs'
  exact httpsBodyFrom_chunks_refused (s := ⟨c, 0, [], current⟩) rfl hlast hpart hne

/-- What becomes of a body without a frame. -/
lemma httpsBody_close {payload : Bytes} {c : Connection} (h : c.unread = payload)
    (hend : c.ending = .closeNotify) {writes : Bytes → Bytes → Bool}
    (hw : ∀ a b, writes a b = true) :
    if payload.length ≤ ullongMax then
      httpsBody (Framing.close payload).response writes c 0 = (true, payload)
    else (httpsBody (Framing.close payload).response writes c 0).1 = false := by
  have hchunk := httpsChunk_of_unchunked (r := (Framing.close payload).response) rfl ⟨c, 0, [], 0⟩
  have hdata := httpsData_unframed writes bufferSize (r := (Framing.close payload).response)
    (s := ⟨c, 0, [], 0⟩) rfl (by decide) (by decide) (Nat.zero_le _)
  simp only [h, hend, Nat.zero_add, List.nil_append, decide_true] at hdata
  split
  next hlen =>
    rcases hdata with ⟨hret, -⟩ | ⟨hnot, -⟩
    · exact httpsBodyFrom_of_data_returned hchunk hret
    · exact absurd ⟨hw, by simpa using hlen⟩ hnot
  next hlen =>
    rcases hdata with ⟨-, hcount⟩ | ⟨-, output, hret⟩
    · exact absurd hcount hlen
    · exact congrArg Prod.fst (httpsBodyFrom_of_data_returned hchunk hret)

/-- **Framing is undone**: of a payload that can be counted, `https_body` writes exactly the payload
and succeeds, whatever the framing and the fragments are; and a stream that breaks off within its
frame is refused. -/
theorem httpsBody_undoes_framing (f : Framing) :
    (f.payload.length ≤ ullongMax → f.Undone) ∧ (f.response.framed = true → f.Refused) := by
  cases f with
  | length payload => exact ⟨undone_length, fun _ => refused_length payload⟩
  | chunked chunks last trailers fits =>
    exact ⟨undone_chunked, fun _ => refused_chunked chunks last trailers fits⟩
  | close payload =>
    refine ⟨fun hlen c writes harrives hw => ?_, fun h => absurd h Bool.false_ne_true⟩
    obtain ⟨h, hend⟩ : c.unread = payload ∧ c.ending = .closeNotify := harrives
    have hbody := httpsBody_close h hend hw
    rwa [if_pos (show payload.length ≤ ullongMax from hlen)] at hbody

/-- The line behind the last chunk. -/
def lastLine : SizeLine 0 :=
  ⟨str "0", [], ⟨by decide +kernel, [0], by decide +kernel, by decide +kernel, rfl⟩, .inl rfl,
    by decide +kernel, by decide +kernel⟩

/-- A body in one chunk, with an extension and a trailer. -/
def sampleFraming : Framing :=
  .chunked
    [⟨str "hello", by decide +kernel, str "05", str ";x=1",
      ⟨by decide +kernel, [0, 5], by decide +kernel, by decide +kernel, rfl⟩,
      .inr ⟨str "x=1", rfl⟩, by decide +kernel, by decide +kernel⟩]
    lastLine
    [⟨str "Etag", str " a", by decide +kernel, by decide +kernel, by decide +kernel,
      by decide +kernel, by decide +kernel⟩]
    (by decide +kernel)

example : sampleFraming.stream = str "05;x=1\r\nhello\r\n0\r\nEtag: a\r\n\r\n" := by decide

theorem httpsBody_undoes_sample : sampleFraming.Undone ∧ sampleFraming.Refused :=
  ⟨(httpsBody_undoes_framing sampleFraming).1 (by decide),
    (httpsBody_undoes_framing sampleFraming).2 rfl⟩

/-- One byte at a time. -/
def dribble (n : ℕ) : Connection :=
  ⟨[], 0, List.replicate n (some ⟨[0], by decide, by decide⟩), .closeNotify, Nat.le_refl 0⟩

lemma unread_dribble (n : ℕ) : (dribble n).unread = List.replicate n 0 := by
  induction n with
  | zero => rfl
  | succ n ih =>
    have hstep : (dribble (n + 1)).unread = 0 :: (dribble n).unread := by
      change delivered (List.replicate (n + 1) _) = _
      rw [List.replicate_succ, delivered_cons_some]
      rfl
    rw [hstep, ih, List.replicate_succ]

lemma not_undone_close {n : ℕ} (hn : ullongMax < n) :
    ¬(Framing.close (List.replicate n 0)).Undone := by
  intro h
  have hw : ∀ a b : Bytes, (fun _ _ => true : Bytes → Bytes → Bool) a b = true := fun _ _ => rfl
  have hbody := httpsBody_close (unread_dribble n) rfl hw
  rw [if_neg (by rw [List.length_replicate]; omega)] at hbody
  rw [h (dribble n) _ ⟨unread_dribble n, rfl⟩ hw] at hbody
  exact absurd hbody Bool.true_eq_false_eq_False

/-- A connection that has a text in its buffer. -/
def inBuffer (text : Bytes) : Connection := ⟨text, 0, [], .closeNotify, Nat.zero_le _⟩

lemma unread_inBuffer (text : Bytes) : (inBuffer text).unread = text := by
  rw [Connection.unread, inBuffer, List.drop_zero]
  exact List.append_nil text

/-- A size that no number is read of. -/
lemma httpsBody_of_no_size {stream : Bytes} (writes : Bytes → Bytes → Bool) (line rest : Bytes)
    (hstream : stream = withEnd line rest) (htext : ∀ x ∈ line, isText x = true)
    (hsize : line.length + 2 ≤ lineSize)
    (hnone : httpsNumber (((cutAt (ch ';') line).map Prod.fst).getD line) 16 = none) :
    (httpsBody ⟨true, false, 0⟩ writes (inBuffer stream) 0).1 = false := by
  obtain ⟨c, hline, -⟩ := httpsLine_append lineSize htext
    ((unread_inBuffer stream).trans hstream) (by omega) hsize
  have hnosize : httpsSize (inBuffer stream) = none := by
    rw [httpsSize, hline]
    dsimp only
    rw [hnone]
    rfl
  have hchunk := @httpsChunk_of_none ⟨true, false, 0⟩ rfl ⟨inBuffer stream, 0, [], 0⟩ hnosize
  exact congrArg Prod.fst (httpsBodyFrom_of_chunk_returned hchunk)

/-- A trailer that is named like a field of the framing. -/
lemma httpsTrailers_of_framing {c : Connection} {budget : ℕ} {rest : Bytes}
    (line name value : Bytes) (h : c.unread = withEnd line rest) (htext : ∀ x ∈ line, isText x = true)
    (hsize : line.length + 1 < lineSize) (hbudget : line.length + 2 ≤ budget) (hne : line ≠ [])
    (hfield : httpsField line = some (name, value))
    (hname : stricmp name (str "Content-Length") = .eq ∨
      stricmp name (str "Transfer-Encoding") = .eq) : httpsTrailers c budget = false := by
  obtain ⟨c', hline, -⟩ := httpsLine_append budget htext h hsize hbudget
  rw [httpsTrailers]
  split
  next => rfl
  next line' left' c₁ hline' =>
    rw [hline] at hline'
    obtain ⟨rfl, -⟩ := Prod.mk.inj (Option.some.inj hline')
    rw [if_neg hne, hfield]
    exact if_pos hname

/-- **Bodies that are framed, and refused**: in the line of a chunk a blank stands before the
extension; a trailer is named like a field of the framing; the bytes of a payload cannot be counted
in 64 bits. -/
theorem framings_refused :
    (httpsBody ⟨true, false, 0⟩ (fun _ _ => true)
        (inBuffer (str "5 ;x\r\nhello\r\n0\r\n\r\n")) 0).1 = false ∧
      (httpsBody ⟨true, false, 0⟩ (fun _ _ => true)
        (inBuffer (str "0\r\nContent-Length: 5\r\n\r\n")) 0).1 = false ∧
      ¬(Framing.close (List.replicate (2 ^ 64) 0)).Undone := by
  refine ⟨?_, ?_, not_undone_close (by decide)⟩
  · exact httpsBody_of_no_size _ (str "5 ;x") (str "hello\r\n0\r\n\r\n") rfl (by decide +kernel)
      (by decide) (by decide)
  · have hunread : (inBuffer (str "0\r\nContent-Length: 5\r\n\r\n")).unread =
        withEnd lastLine.line (withEnd (str "Content-Length: 5") [13, 10]) := unread_inBuffer _
    obtain ⟨c, hsize, hrest⟩ := httpsSize_eq_some lastLine (Nat.zero_le _) hunread
    have htrailers : httpsTrailers c headerLimit = false :=
      httpsTrailers_of_framing (str "Content-Length: 5") (str "Content-Length") (str "5") hrest
        (by decide +kernel) (by decide) (by decide) (by decide) (by decide) (.inl (by decide))
    have hlast := @httpsChunk_of_last ⟨true, false, 0⟩ rfl ⟨inBuffer _, 0, [], 0⟩ c hsize
    rw [htrailers] at hlast
    exact congrArg Prod.fst (httpsBodyFrom_of_chunk_returned hlast)

end Framing

end Wpm.Https
