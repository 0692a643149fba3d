import Wpm.Https.Framing

/-!
The header of a response: `https_headers`.

The reader takes one byte after the other. It is written here for any stream of bytes, and run on a
connection; a stream that is cut into other reads gives the same answer and is left at the same byte
(`headersAt_view`). What it accepts is a sequence of blocks, each a status line and fields up to a
blank line, of which only the last may be framed.
-/

namespace Wpm.Https

open Wpm.Lib Wpm.Lib.CString

/-- `HTTPS_URL_SIZE`. -/
def urlSize : ℕ := 4096

/-- An `https_response`. -/
structure Headers extends Response where
  status : ℕ
  location : Bytes
  deriving DecidableEq

/-- A response of which only the status is known. -/
def Headers.ofStatus (status : ℕ) : Headers := ⟨⟨false, false, 0⟩, status, []⟩

/-- The status line: its three digits. -/
def statusOf (line : Bytes) : Option ℕ :=
  let digits := (line.drop 9).take 3
  if line.length < 12 ∨ (line.take 9 ≠ str "HTTP/1.1 " ∧ line.take 9 ≠ str "HTTP/1.0 ") ∨
      cur digits < ch '1' ∨ ch '5' < cur digits ∨ digits.tail.all isDigit = false ∨
      (line.drop 12 ≠ [] ∧ cur (line.drop 12) ≠ ch ' ') then none
  else some (digits.foldl (fun n c => n * 10 + (c - ch '0').toNat) 0)

/-- What a field does to the response. -/
def fieldLine (r : Headers) (line : Bytes) : Option Headers := do
  let (name, value) ← httpsField line
  if stricmp name (str "Content-Length") = .eq then do
    guard (r.hasLength = false)
    let length ← httpsNumber value 10
    some { r with length, hasLength := true }
  else if stricmp name (str "Transfer-Encoding") = .eq then do
    guard (r.chunked = false ∧ stricmp value (str "chunked") = .eq)
    some { r with chunked := true }
  else if stricmp name (str "Content-Encoding") = .eq then do
    guard (stricmp value (str "identity") = .eq)
    some r
  else if stricmp name (str "Location") = .eq then do
    guard (r.location = [] ∧ value.length < urlSize)
    some { r with location := value }
  else some r

/-! ### The reader -/

section Reader

variable {σ : Type*} (next : σ → Option UInt8 × σ)

/-- The inner loop of `https_headers`: the fields up to the blank line. Every line takes something
off the budget, which is at most `fuel`. -/
def fieldsAt : ℕ → Headers → ℕ → σ → Option (Headers × ℕ) × σ
  | 0, _, _, s => (none, s)
  | fuel + 1, r, budget, s => match lineAt next [] budget s with
    | (some (line, budget), s) =>
      if line = [] then (some (r, budget), s)
      else match fieldLine r line with
        | none => (none, s)
        | some r => fieldsAt fuel r budget s
    | (none, s) => (none, s)

/-- The outer loop: interim responses come before the final one. -/
def headersAt : ℕ → ℕ → σ → Option (Headers × ℕ) × σ
  | 0, _, s => (none, s)
  | interim + 1, budget, s => match lineAt next [] budget s with
    | (some (line, budget), s) => match statusOf line with
      | none => (none, s)
      | some status => match fieldsAt next budget (.ofStatus status) budget s with
        | (some (r, budget), s) =>
          if r.chunked = true ∧ r.hasLength = true then (none, s)
          else if 200 ≤ r.status then (some (r, budget), s)
          else if r.status = 101 ∨ r.chunked = true ∨ r.hasLength = true then (none, s)
          else headersAt interim budget s
        | (none, s) => (none, s)
    | (none, s) => (none, s)

end Reader

/-- `https_headers`, with what is left of the budget. -/
def httpsHeaders (c : Connection) : Option (Headers × ℕ) × Connection :=
  headersAt readByte 5 headerLimit c

/-! ### The stream alone -/

/-- The bytes themselves are a stream. -/
def nextByte : Bytes → Option UInt8 × Bytes
  | [] => (none, [])
  | b :: p => (some b, p)

section View

variable {σ τ : Type*} {next : σ → Option UInt8 × σ} {next' : τ → Option UInt8 × τ} {view : σ → τ}

/-- A stream is seen as another one: it gives the same bytes, and what is left is seen so, too. -/
def Seen (next : σ → Option UInt8 × σ) (next' : τ → Option UInt8 × τ) (view : σ → τ) : Prop :=
  ∀ s, next' (view s) = ((next s).1, view (next s).2)

variable (h : Seen next next' view)

include h

lemma lineEndAt_view (line : Bytes) (budget : ℕ) (s : σ) :
    lineEndAt next' line budget (view s) =
      ((lineEndAt next line budget s).1, view (lineEndAt next line budget s).2) := by
  cases budget with
  | zero => rfl
  | succ budget =>
    rw [lineEndAt, lineEndAt, h s]
    rcases next s with ⟨_ | b, s'⟩ <;> rfl

lemma lineAt_view (line : Bytes) (budget : ℕ) (s : σ) :
    lineAt next' line budget (view s) =
      ((lineAt next line budget s).1, view (lineAt next line budget s).2) := by
  induction budget generalizing line s with
  | zero => rfl
  | succ budget ih =>
    rw [lineAt, lineAt, h s]
    by_cases hsize : line.length + 1 < lineSize
    · rw [if_pos hsize, if_pos hsize]
      rcases next s with ⟨_ | b, s'⟩
      · rfl
      · dsimp only
        by_cases hcr : b = 13
        · rw [if_pos hcr, if_pos hcr]
          exact lineEndAt_view h line budget s'
        · rw [if_neg hcr, if_neg hcr]
          by_cases htext : isText b = true
          · rw [if_pos htext, if_pos htext]
            exact ih _ s'
          · rw [if_neg htext, if_neg htext]
    · rw [if_neg hsize, if_neg hsize]

lemma fieldsAt_view (fuel : ℕ) (r : Headers) (budget : ℕ) (s : σ) :
    fieldsAt next' fuel r budget (view s) =
      ((fieldsAt next fuel r budget s).1, view (fieldsAt next fuel r budget s).2) := by
  induction fuel generalizing r budget s with
  | zero => rfl
  | succ fuel ih =>
    rw [fieldsAt, fieldsAt, lineAt_view h]
    rcases lineAt next [] budget s with ⟨_ | ⟨line, left⟩, s'⟩
    · rfl
    · dsimp only
      by_cases hline : line = []
      · rw [if_pos hline, if_pos hline]
      · rw [if_neg hline, if_neg hline]
        cases fieldLine r line with
        | none => rfl
        | some r' => exact ih r' left s'

/-- **What is read of a stream depends on its bytes only.** -/
theorem headersAt_view (interim budget : ℕ) (s : σ) :
    headersAt next' interim budget (view s) =
      ((headersAt next interim budget s).1, view (headersAt next interim budget s).2) := by
  induction interim generalizing budget s with
  | zero => rfl
  | succ interim ih =>
    rw [headersAt, headersAt, lineAt_view h]
    rcases lineAt next [] budget s with ⟨_ | ⟨line, left⟩, s'⟩
    · rfl
    · dsimp only
      cases statusOf line with
      | none => rfl
      | some status =>
        dsimp only
        rw [fieldsAt_view h]
        rcases fieldsAt next left (.ofStatus status) left s' with ⟨_ | ⟨r, left'⟩, s''⟩
        · rfl
        · dsimp only
          split_ifs
          · rfl
          · rfl
          · rfl
          · exact ih left' s''

end View

/-- At the end of the stream nothing is read, and nothing comes after it. -/
lemma readByte_nil {c : Connection} (h : c.unread = []) :
    (readByte c).1 = none ∧ (readByte c).2.unread = [] := by
  obtain ⟨hbuffer, hreads⟩ := List.append_eq_nil_iff.1 h
  have hused : c.used = c.buffer.length :=
    le_antisymm c.used_le (List.drop_eq_nil_iff.1 hbuffer)
  have hnext : nextFragment c.reads = none := by
    have hspec := nextFragment_spec c.reads
    cases hf : nextFragment c.reads with
    | none => rfl
    | some f =>
      rw [hf] at hspec
      exact absurd (List.append_eq_nil_iff.1 (hspec.symm.trans hreads)).1 f.1.ne_nil
  have hread : httpsRead c 1 =
      (if c.ending = .closeNotify then .closed else .error, { c with reads := [] }) := by
    rw [httpsRead, if_neg Nat.one_ne_zero, if_pos hused, hnext]
  have hunread : ({ c with reads := [] } : Connection).unread = [] := by
    rw [Connection.unread, hbuffer]
    rfl
  rw [readByte, hread]
  split_ifs
  · exact ⟨rfl, hunread⟩
  · exact ⟨rfl, hunread⟩

/-- A connection is seen as the bytes that are still to come. -/
lemma seen_unread : Seen readByte nextByte Connection.unread := by
  intro c
  cases hunread : c.unread with
  | nil =>
    obtain ⟨hnone, hrest⟩ := readByte_nil hunread
    rw [hnone, hrest]
    rfl
  | cons b p =>
    obtain ⟨c', hread, hrest, -⟩ := httpsRead_one hunread
    rw [readByte, hread, nextByte]
    exact Prod.ext rfl hrest.symm

/-! ### What is accepted -/

/-- A line is read off a stream of bytes. -/
lemma lineEndAt_eq_some {line l s s' : Bytes} {budget left : ℕ}
    (h : lineEndAt nextByte line budget s = (some (l, left), s')) :
    l = line ∧ s = 10 :: s' ∧ left + 1 = budget := by
  cases budget with
  | zero => cases (Prod.mk.inj h).1
  | succ budget =>
    cases s with
    | nil => cases (Prod.mk.inj h).1
    | cons b s =>
      obtain ⟨hline, rfl⟩ := Prod.mk.inj h
      obtain ⟨rfl, hline⟩ := Option.ite_none_right_eq_some.1 hline
      obtain ⟨rfl, rfl⟩ := Prod.mk.inj (Option.some.inj hline)
      exact ⟨rfl, rfl, rfl⟩

lemma lineAt_eq_some {held l s s' : Bytes} {budget left : ℕ}
    (h : lineAt nextByte held budget s = (some (l, left), s')) :
    ∃ line, l = held ++ line ∧ (∀ x ∈ line, isText x = true) ∧ s = withEnd line s' ∧
      left + line.length + 2 = budget := by
  induction budget generalizing held s with
  | zero => cases (Prod.mk.inj h).1
  | succ budget ih =>
    rw [lineAt] at h
    by_cases hsize : held.length + 1 < lineSize
    · rw [if_pos hsize] at h
      cases s with
      | nil => cases (Prod.mk.inj h).1
      | cons b s =>
        dsimp only [nextByte] at h
        by_cases hcr : b = 13
        · rw [if_pos hcr] at h
          obtain ⟨rfl, rfl, hleft⟩ := lineEndAt_eq_some h
          refine ⟨[], (List.append_nil _).symm, List.forall_mem_nil _, by rw [hcr]; rfl, ?_⟩
          rw [List.length_nil]
          omega
        · rw [if_neg hcr] at h
          by_cases htext : isText b = true
          · rw [if_pos htext] at h
            obtain ⟨line, rfl, hline, rfl, hleft⟩ := ih h
            refine ⟨b :: line, by rw [List.append_assoc, List.singleton_append], ?_, rfl, ?_⟩
            · exact List.forall_mem_cons.2 ⟨htext, hline⟩
            · rw [List.length_cons]
              omega
          · rw [if_neg htext] at h
            cases (Prod.mk.inj h).1
    · rw [if_neg hsize] at h
      cases (Prod.mk.inj h).1

/-- The header of one response: its status line, and the lines of its fields. -/
structure Block where
  status : Bytes
  fields : List Bytes

/-- The lines, each with its end, and the blank line. -/
def Block.stream (b : Block) (rest : Bytes) : Bytes :=
  withEnd b.status (b.fields.foldr withEnd (withEnd [] rest))

def blocksStream (blocks : List Block) (rest : Bytes) : Bytes := blocks.foldr Block.stream rest

/-- The lines are of text, and each field has a name: none of them is blank. -/
structure Block.WellFormed (b : Block) : Prop where
  status : ∀ x ∈ b.status, isText x = true
  fields : ∀ line ∈ b.fields, (∀ x ∈ line, isText x = true) ∧ line ≠ [] ∧
    (httpsField line).isSome = true

/-- The value of a line's field, if that has this name, in any letter case. -/
def valueNamed (name line : Bytes) : Option Bytes :=
  (httpsField line).bind fun f => if stricmp f.1 name = .eq then some f.2 else none

/-- The values of the fields with this name. -/
def Block.values (b : Block) (name : Bytes) : List Bytes := b.fields.filterMap (valueNamed name)

/-- **The framing of a response is what its header says**: one length in decimal, or one
`Transfer-Encoding` that is `chunked`, or neither of them. -/
structure Block.Frames (b : Block) (r : Headers) : Prop where
  length : (b.values (str "Content-Length") = [] ∧ r.hasLength = false) ∨
    ∃ text, b.values (str "Content-Length") = [text] ∧ r.hasLength = true ∧
      Numeral.Writes (httpsDigit 10) 10 text r.length ∧ r.length ≤ ullongMax
  coding : (b.values (str "Transfer-Encoding") = [] ∧ r.chunked = false) ∨
    ∃ text, b.values (str "Transfer-Encoding") = [text] ∧ r.chunked = true ∧
      fold text = str "chunked"
  one : ¬(r.chunked = true ∧ r.hasLength = true)

/-! ### Fields -/

/-- **What one field does**: it sets the length, or the coding, or neither of them. -/
lemma fieldLine_cases {r r' : Headers} {line : Bytes} (h : fieldLine r line = some r') :
    ∃ name value, httpsField line = some (name, value) ∧
      ((stricmp name (str "Content-Length") = .eq ∧ r.hasLength = false ∧
          ∃ n, httpsNumber value 10 = some n ∧ r' = { r with length := n, hasLength := true }) ∨
        (stricmp name (str "Content-Length") ≠ .eq ∧
          stricmp name (str "Transfer-Encoding") = .eq ∧ r.chunked = false ∧
          stricmp value (str "chunked") = .eq ∧ r' = { r with chunked := true }) ∨
        (stricmp name (str "Content-Length") ≠ .eq ∧
          stricmp name (str "Transfer-Encoding") ≠ .eq ∧ r'.toResponse = r.toResponse ∧
          r'.status = r.status)) := by
  obtain ⟨⟨name, value⟩, hfield, h⟩ := Option.bind_eq_some_iff.1 h
  refine ⟨name, value, hfield, ?_⟩
  dsimp only at h
  by_cases hlength : stricmp name (str "Content-Length") = .eq
  · rw [if_pos hlength] at h
    obtain ⟨u, hguard, h⟩ := Option.bind_eq_some_iff.1 h
    obtain ⟨n, hn, h⟩ := Option.bind_eq_some_iff.1 h
    exact .inl ⟨hlength, (Option.guard_eq_some' _).1 hguard, n, hn, (Option.some.inj h).symm⟩
  rw [if_neg hlength] at h
  by_cases hcoding : stricmp name (str "Transfer-Encoding") = .eq
  · rw [if_pos hcoding] at h
    obtain ⟨u, hguard, h⟩ := Option.bind_eq_some_iff.1 h
    obtain ⟨hchunked, hvalue⟩ := (Option.guard_eq_some' _).1 hguard
    exact .inr (.inl ⟨hlength, hcoding, hchunked, hvalue, (Option.some.inj h).symm⟩)
  rw [if_neg hcoding] at h
  refine .inr (.inr ⟨hlength, hcoding, ?_⟩)
  split_ifs at h
  · obtain ⟨-, -, h⟩ := Option.bind_eq_some_iff.1 h
    exact Option.some.inj h ▸ ⟨rfl, rfl⟩
  · obtain ⟨-, -, h⟩ := Option.bind_eq_some_iff.1 h
    exact Option.some.inj h ▸ ⟨rfl, rfl⟩
  · exact Option.some.inj h ▸ ⟨rfl, rfl⟩

/-- Something that a field with this name sets, and only once, is set by at most one field. -/
lemma foldlM_once {α : Type*} {name : Bytes} {seen : Headers → Option α} {p : Bytes → α → Prop}
    (hstep : ∀ {r r' : Headers} {line : Bytes}, fieldLine r line = some r' →
      (valueNamed name line = none ∧ seen r' = seen r) ∨
        ∃ text a, valueNamed name line = some text ∧ seen r = none ∧ p text a ∧ seen r' = some a) :
    ∀ {fields : List Bytes} {r r' : Headers}, fields.foldlM fieldLine r = some r' →
      (fields.filterMap (valueNamed name) = [] ∧ seen r' = seen r) ∨
        ∃ text a, fields.filterMap (valueNamed name) = [text] ∧ seen r = none ∧ p text a ∧
          seen r' = some a
  | [], r, r', h => .inl ⟨rfl, by rw [Option.some.inj h]⟩
  | line :: fields, r, r', h => by
    rw [List.foldlM_cons] at h
    obtain ⟨r₁, hline, h⟩ := Option.bind_eq_some_iff.1 h
    rcases hstep hline with ⟨hnone, hseen⟩ | ⟨text, a, hsome, hseen, ha, hset⟩
    · rw [List.filterMap_cons_none hnone, ← hseen]
      exact foldlM_once hstep h
    · rw [List.filterMap_cons_some hsome]
      rcases foldlM_once hstep h with ⟨hrest, hkept⟩ | ⟨-, -, -, hnot, -⟩
      · exact .inr ⟨text, a, by rw [hrest], hseen, ha, hkept.trans hset⟩
      · exact absurd (hset.symm.trans hnot) (Option.some_ne_none a)

/-- The length, when there is one. -/
def Headers.lengthSeen (r : Headers) : Option ℕ := if r.hasLength then some r.length else none

def Headers.codingSeen (r : Headers) : Option Unit := if r.chunked then some () else none

lemma not_both_names {name : Bytes} (h : stricmp name (str "Content-Length") = .eq) :
    stricmp name (str "Transfer-Encoding") ≠ .eq := by
  rw [stricmp_eq_iff] at h
  rw [ne_eq, stricmp_eq_iff, h]
  decide

lemma fieldLine_length {r r' : Headers} {line : Bytes} (h : fieldLine r line = some r') :
    (valueNamed (str "Content-Length") line = none ∧ r'.lengthSeen = r.lengthSeen) ∨
      ∃ text n, valueNamed (str "Content-Length") line = some text ∧ r.lengthSeen = none ∧
        httpsNumber text 10 = some n ∧ r'.lengthSeen = some n := by
  obtain ⟨name, value, hfield, hcases⟩ := fieldLine_cases h
  rw [valueNamed, hfield, Option.bind_some]
  rcases hcases with ⟨hname, hlength, n, hn, rfl⟩ | ⟨hname, -, -, -, rfl⟩ | ⟨hname, -, hsame, -⟩
  · rw [if_pos hname]
    exact .inr ⟨value, n, rfl, by simp [Headers.lengthSeen, hlength], hn, rfl⟩
  · rw [if_neg hname]
    exact .inl ⟨rfl, rfl⟩
  · rw [if_neg hname]
    exact .inl ⟨rfl, by rw [Headers.lengthSeen, Headers.lengthSeen, hsame]⟩

lemma fieldLine_coding {r r' : Headers} {line : Bytes} (h : fieldLine r line = some r') :
    (valueNamed (str "Transfer-Encoding") line = none ∧ r'.codingSeen = r.codingSeen) ∨
      ∃ text u, valueNamed (str "Transfer-Encoding") line = some text ∧ r.codingSeen = none ∧
        stricmp text (str "chunked") = .eq ∧ r'.codingSeen = some u := by
  obtain ⟨name, value, hfield, hcases⟩ := fieldLine_cases h
  rw [valueNamed, hfield, Option.bind_some]
  rcases hcases with ⟨hname, -, n, -, rfl⟩ | ⟨-, hname, hchunked, hvalue, rfl⟩ |
    ⟨-, hname, hsame, -⟩
  · rw [if_neg (not_both_names hname)]
    exact .inl ⟨rfl, rfl⟩
  · rw [if_pos hname]
    exact .inr ⟨value, (), rfl, by simp [Headers.codingSeen, hchunked], hvalue, rfl⟩
  · rw [if_neg hname]
    exact .inl ⟨rfl, by rw [Headers.codingSeen, Headers.codingSeen, hsame]⟩

lemma foldlM_status : ∀ {fields : List Bytes} {r r' : Headers},
    fields.foldlM fieldLine r = some r' → r'.status = r.status
  | [], r, r', h => by rw [Option.some.inj h]
  | line :: fields, r, r', h => by
    rw [List.foldlM_cons] at h
    obtain ⟨r₁, hline, h⟩ := Option.bind_eq_some_iff.1 h
    rw [foldlM_status h]
    obtain ⟨name, value, -, hcases⟩ := fieldLine_cases hline
    rcases hcases with ⟨-, -, n, -, rfl⟩ | ⟨-, -, -, -, rfl⟩ | ⟨-, -, -, hsame⟩
    · rfl
    · rfl
    · exact hsame

/-- **The fields of a block frame its response.** -/
lemma frames_of_foldlM {b : Block} {status : ℕ} {r : Headers}
    (h : b.fields.foldlM fieldLine (.ofStatus status) = some r)
    (hone : ¬(r.chunked = true ∧ r.hasLength = true)) : b.Frames r := by
  refine ⟨?_, ?_, hone⟩
  · rcases foldlM_once fieldLine_length h with ⟨hvalues, hseen⟩ | ⟨text, n, hvalues, -, hn, hseen⟩
    · refine .inl ⟨hvalues, ?_⟩
      cases hlength : r.hasLength with
      | false => rfl
      | true => simp [Headers.lengthSeen, hlength, Headers.ofStatus] at hseen
    · obtain ⟨hlength, hvalue⟩ := Option.ite_none_right_eq_some.1 hseen
      obtain ⟨hwrites, hmax⟩ := (httpsNumber_eq_some (by decide) (by decide)).1 hn
      rw [← Option.some.inj hvalue] at hwrites hmax
      exact .inr ⟨text, hvalues, hlength, hwrites, hmax⟩
  · rcases foldlM_once fieldLine_coding h with ⟨hvalues, hseen⟩ | ⟨text, u, hvalues, -, hn, hseen⟩
    · refine .inl ⟨hvalues, ?_⟩
      cases hchunked : r.chunked with
      | false => rfl
      | true => simp [Headers.codingSeen, hchunked, Headers.ofStatus] at hseen
    · exact .inr ⟨text, hvalues, (Option.ite_none_right_eq_some.1 hseen).1, stricmp_eq_iff.1 hn⟩

/-! ### Blocks -/

lemma length_withEnd (line rest : Bytes) : (withEnd line rest).length = line.length + 2 + rest.length := by
  rw [withEnd, List.length_append, List.length_cons, List.length_cons]
  omega

/-- **The fields of one response** are read up to the blank line. -/
lemma fieldsAt_eq_some {fuel budget left : ℕ} {r r' : Headers} {s s' : Bytes}
    (h : fieldsAt nextByte fuel r budget s = (some (r', left), s')) :
    ∃ fields : List Bytes, s = fields.foldr withEnd (withEnd [] s') ∧
      (∀ line ∈ fields, (∀ x ∈ line, isText x = true) ∧ line ≠ [] ∧
        (httpsField line).isSome = true) ∧
      fields.foldlM fieldLine r = some r' ∧ left + s.length = budget + s'.length := by
  induction fuel generalizing r budget s with
  | zero => cases (Prod.mk.inj h).1
  | succ fuel ih =>
    rw [fieldsAt] at h
    rcases hline : lineAt nextByte [] budget s with ⟨_ | ⟨line, left₁⟩, s₁⟩
    · rw [hline] at h
      cases (Prod.mk.inj h).1
    · rw [hline] at h
      dsimp only at h
      obtain ⟨l, rfl, htext, rfl, hleft⟩ := lineAt_eq_some hline
      by_cases hblank : line = []
      · rw [if_pos hblank] at h
        obtain ⟨hsome, rfl⟩ := Prod.mk.inj h
        obtain ⟨rfl, rfl⟩ := Prod.mk.inj (Option.some.inj hsome)
        subst hblank
        refine ⟨[], rfl, List.forall_mem_nil _, rfl, ?_⟩
        rw [length_withEnd]
        omega
      · rw [if_neg hblank] at h
        cases hfield : fieldLine r line with
        | none =>
          rw [hfield] at h
          cases (Prod.mk.inj h).1
        | some r₁ =>
          rw [hfield] at h
          obtain ⟨fields, rfl, hfields, hfold, hleft'⟩ := ih h
          have hsome : (httpsField line).isSome = true := by
            obtain ⟨name, value, hname, -⟩ := fieldLine_cases hfield
            rw [hname]
            rfl
          refine ⟨line :: fields, rfl, List.forall_mem_cons.2 ⟨⟨htext, hblank, hsome⟩, hfields⟩, ?_, ?_⟩
          · rw [List.foldlM_cons, hfield]
            exact hfold
          · rw [length_withEnd]
            omega

/-- **The blocks of the header**: interim responses that are not framed, and the final one. -/
lemma headersAt_eq_some {interim budget left : ℕ} {r : Headers} {s s' : Bytes}
    (h : headersAt nextByte interim budget s = (some (r, left), s')) :
    ∃ (interims : List Block) (final : Block), interims.length < interim ∧
      s = blocksStream interims (final.stream s') ∧ left + s.length = budget + s'.length ∧
      (∀ b ∈ interims, b.WellFormed ∧ b.values (str "Content-Length") = [] ∧
        b.values (str "Transfer-Encoding") = []) ∧
      final.WellFormed ∧ final.Frames r ∧ statusOf final.status = some r.status ∧
      200 ≤ r.status := by
  induction interim generalizing budget s with
  | zero => cases (Prod.mk.inj h).1
  | succ interim ih =>
    rw [headersAt] at h
    rcases hline : lineAt nextByte [] budget s with ⟨_ | ⟨line, left₁⟩, s₁⟩
    · rw [hline] at h
      cases (Prod.mk.inj h).1
    rw [hline] at h
    dsimp only at h
    obtain ⟨l, rfl, htext, rfl, hleft⟩ := lineAt_eq_some hline
    cases hstatus : statusOf line with
    | none =>
      rw [hstatus] at h
      cases (Prod.mk.inj h).1
    | some status =>
      rw [hstatus] at h
      dsimp only at h
      rcases hfields : fieldsAt nextByte left₁ (.ofStatus status) left₁ s₁ with ⟨_ | ⟨r₁, left₂⟩, s₂⟩
      · rw [hfields] at h
        cases (Prod.mk.inj h).1
      rw [hfields] at h
      dsimp only at h
      obtain ⟨fields, rfl, hlines, hfold, hleft'⟩ := fieldsAt_eq_some hfields
      have hsame : r₁.status = status := foldlM_status hfold
      have hwell : (Block.mk line fields).WellFormed := ⟨htext, hlines⟩
      by_cases hboth : r₁.chunked = true ∧ r₁.hasLength = true
      · rw [if_pos hboth] at h
        cases (Prod.mk.inj h).1
      rw [if_neg hboth] at h
      have hframes : (Block.mk line fields).Frames r₁ := frames_of_foldlM hfold hboth
      by_cases hfinal : 200 ≤ r₁.status
      · rw [if_pos hfinal] at h
        obtain ⟨hsome, rfl⟩ := Prod.mk.inj h
        obtain ⟨rfl, rfl⟩ := Prod.mk.inj (Option.some.inj hsome)
        refine ⟨[], ⟨line, fields⟩, Nat.succ_pos _, rfl, ?_, List.forall_mem_nil _, hwell, hframes,
          by rw [hstatus, hsame], hfinal⟩
        rw [length_withEnd]
        omega
      rw [if_neg hfinal] at h
      by_cases hframed : r₁.status = 101 ∨ r₁.chunked = true ∨ r₁.hasLength = true
      · rw [if_pos hframed] at h
        cases (Prod.mk.inj h).1
      rw [if_neg hframed] at h
      obtain ⟨interims, final, hcount, rfl, hleft'', hinterims, hrest⟩ := ih h
      have hplain : (Block.mk line fields).values (str "Content-Length") = [] ∧
          (Block.mk line fields).values (str "Transfer-Encoding") = [] := by
        rw [not_or, not_or] at hframed
        refine ⟨?_, ?_⟩
        · exact (hframes.length.resolve_right fun ⟨_, _, hlength, _⟩ => hframed.2.2 hlength).1
        · exact (hframes.coding.resolve_right fun ⟨_, _, hchunked, _⟩ => hframed.2.1 hchunked).1
      refine ⟨⟨line, fields⟩ :: interims, final, Nat.succ_lt_succ hcount, rfl, ?_,
        List.forall_mem_cons.2 ⟨⟨hwell, hplain⟩, hinterims⟩, hrest⟩
      rw [length_withEnd]
      omega

/-- **The header of a response is unambiguous.** However the stream is cut into reads, the answer is
the same and the stream is left at the same byte; and what is accepted is a sequence of blocks, within
the limit, of which the last one frames the response and none before it frames anything. The stream is
left behind the blank line of the last one. -/
theorem httpsHeaders_unambiguous :
    (∀ c c' : Connection, c.unread = c'.unread →
      (httpsHeaders c).1 = (httpsHeaders c').1 ∧
        (httpsHeaders c).2.unread = (httpsHeaders c').2.unread) ∧
    ∀ {c c' : Connection} {r : Headers} {left : ℕ}, httpsHeaders c = (some (r, left), c') →
      ∃ (interims : List Block) (final : Block), interims.length ≤ 4 ∧
        c.unread = blocksStream interims (final.stream c'.unread) ∧
        c.unread.length ≤ c'.unread.length + headerLimit ∧
        (∀ b ∈ interims, b.WellFormed ∧ b.values (str "Content-Length") = [] ∧
          b.values (str "Transfer-Encoding") = []) ∧
        final.WellFormed ∧ final.Frames r ∧ statusOf final.status = some r.status ∧
        200 ≤ r.status := by
  have hview : ∀ c, headersAt nextByte 5 headerLimit c.unread =
      ((httpsHeaders c).1, (httpsHeaders c).2.unread) := headersAt_view seen_unread 5 headerLimit
  refine ⟨fun c c' h => ?_, fun {c c' r left} h => ?_⟩
  · have hsame := (hview c).symm.trans ((congrArg _ h).trans (hview c'))
    exact Prod.mk.inj hsame
  · have hread := hview c
    rw [h] at hread
    dsimp only at hread
    obtain ⟨interims, final, hcount, hstream, hleft, hblocks⟩ := headersAt_eq_some hread
    exact ⟨interims, final, Nat.le_of_lt_succ hcount, hstream, by omega, hblocks⟩

lemma used_whole_le (stream : Bytes) : 0 ≤ stream.length := Nat.zero_le _

/-- A stream in one piece. -/
def whole (stream : Bytes) : Connection := ⟨stream, 0, [], .closeNotify, used_whole_le stream⟩

/-- One interim response, and a final one with a length. -/
def sampleHeader : Bytes :=
  str "HTTP/1.1 100\r\n\r\nHTTP/1.1 200\r\nCONTENT-length: 5\r\n\r\nhello"

lemma httpsHeaders_sampleHeader :
    (httpsHeaders (whole sampleHeader)).1 = some (⟨⟨false, true, 5⟩, 200, []⟩, 65485) ∧
      (httpsHeaders (whole sampleHeader)).2.unread = str "hello" := by
  have hread : headersAt nextByte 5 headerLimit sampleHeader =
      (some (⟨⟨false, true, 5⟩, 200, []⟩, 65485), str "hello") := by decide +kernel
  exact Prod.mk.inj ((headersAt_view seen_unread 5 headerLimit (whole sampleHeader)).symm.trans hread)

theorem httpsHeaders_unambiguous_sample : ∃ (interims : List Block) (final : Block) (r : Headers),
    sampleHeader = blocksStream interims (final.stream (str "hello")) ∧ final.Frames r ∧
      r.length = 5 := by
  obtain ⟨hread, hrest⟩ := httpsHeaders_sampleHeader
  have hsame := httpsHeaders_unambiguous.1 (whole sampleHeader) (whole sampleHeader) rfl
  rcases hpair : httpsHeaders (whole sampleHeader) with ⟨answer, c'⟩
  rw [hpair] at hread hrest hsame
  obtain rfl : answer = _ := hsame.1.trans hread
  obtain ⟨interims, final, -, hstream, -, -, -, hframes, -⟩ := httpsHeaders_unambiguous.2 hpair
  have hunread : (whole sampleHeader).unread = sampleHeader := List.append_nil _
  rw [hunread, hrest] at hstream
  exact ⟨interims, final, _, hstream, hframes, rfl⟩

end Wpm.Https
