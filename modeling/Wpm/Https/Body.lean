import Wpm.Https.Connection

/-!
The body of a response: `https_body` takes the framing away.

A body is framed by its length, by chunks, or by the end of the connection. Whatever the framing, and
however TLS cuts the stream, what is written is the payload; and a stream that ends before its frame
does is refused.
-/

namespace Wpm.Https

open Wpm.Lib Wpm.Lib.CString

/-- What `https_body` uses of an `https_response`. -/
structure Response where
  chunked : Bool
  hasLength : Bool
  length : ℕ
  deriving DecidableEq

/-- The body says where it ends. -/
def Response.framed (r : Response) : Bool := r.hasLength || r.chunked

/-- `wpm_progress_add`, on the count of the bytes. -/
def progressAdd (current bytes : ℕ) : ℕ :=
  if ullongMax - current < bytes then ullongMax else current + bytes

/-- The variables of `https_body`: `output` is what has been written to the file. -/
structure Download where
  connection : Connection
  remaining : ℕ
  output : Bytes
  current : ℕ

/-- How many bytes are asked for. -/
def Response.request (r : Response) (remaining requested : ℕ) : ℕ :=
  if r.framed = true ∧ remaining < requested then remaining else requested

/-- What remains of the frame when `n` bytes have come. -/
def Response.after (r : Response) (remaining n : ℕ) : ℕ :=
  if r.framed then remaining - n else remaining

/-- The bytes `b` have come and are written. -/
def Download.moved (s : Download) (r : Response) (c : Connection) (b : Bytes) : Download :=
  ⟨c, r.after s.remaining b.length, s.output ++ b, progressAdd s.current b.length⟩

/-- How a part of `https_body` ends: the function returns, with the file as it then is, or the next
part begins. -/
inductive Outcome
  | returned (ok : Bool) (output : Bytes)
  | left (s : Download)

section Unread

variable {c c' : Connection} {size : ℕ} {b : Bytes}

lemma unread_of_httpsRead (h : httpsRead c size = (.bytes b, c')) :
    b ≠ [] ∧ c.unread = b ++ c'.unread := by
  have hsize : size ≠ 0 := by
    rintro rfl
    simp [httpsRead] at h
  have hspec := httpsRead_spec (c := c) hsize
  rw [h] at hspec
  cases hspec with
  | bytes hb hlen hc hend => exact ⟨hb, hc⟩

lemma length_unread_lt (h : httpsRead c size = (.bytes b, c')) :
    c'.unread.length < c.unread.length := by
  obtain ⟨hb, hc⟩ := unread_of_httpsRead h
  have hpos := List.length_pos_iff.2 hb
  rw [hc, List.length_append]
  omega

lemma length_of_httpsLine {line : Bytes} {budget left : ℕ}
    (h : httpsLine c budget = some (line, left, c')) :
    c'.unread.length < c.unread.length ∧ left < budget := by
  obtain ⟨-, hc, hleft, -⟩ := httpsLine_eq_some h
  rw [hc, List.length_append, List.length_cons, List.length_cons]
  omega

end Unread

/-! ### The loops of `https_body` -/

section Loops

variable (r : Response) (writes : Bytes → Bytes → Bool)

/-- The inner loop, which moves what comes to the file: `writes output b` says whether `WriteFile`
writes all of `b` behind `output`. -/
def httpsData (requested : ℕ) (s : Download) : Outcome :=
  if r.framed = true ∧ s.remaining = 0 then .returned true s.output
  else
    let requested := r.request s.remaining requested
    match _h : httpsRead s.connection requested with
    | (.error, _) => .returned false s.output
    | (.closed, _) => .returned (!r.framed) s.output
    | (.bytes b, c) =>
      if ullongMax - b.length < s.current ∨ writes s.output b = false then .returned false s.output
      else
        let s := s.moved r c b
        if r.chunked = false ∨ s.remaining ≠ 0 then httpsData requested s else .left s
termination_by s.connection.unread.length
decreasing_by exact length_unread_lt _h

/-- The lines behind the last chunk. -/
def httpsTrailers (c : Connection) (budget : ℕ) : Bool :=
  match _h : httpsLine c budget with
  | none => false
  | some (line, budget', c') =>
    if line = [] then true
    else
      match httpsField line with
      | none => false
      | some (name, _) =>
        if stricmp name (str "Content-Length") = .eq ∨ stricmp name (str "Transfer-Encoding") = .eq
        then false
        else httpsTrailers c' budget'
termination_by budget
decreasing_by exact (length_of_httpsLine _h).2

/-- The line before a chunk: its size, if the line is one. -/
def httpsSize (c : Connection) : Option (ℕ × Connection) :=
  match httpsLine c lineSize with
  | none => none
  | some (line, _, c) =>
    let size := ((cutAt (ch ';') line).map Prod.fst).getD line
    (httpsNumber size 16).map fun n => (n, c)

/-- What comes before the data. -/
def httpsChunk (s : Download) : Outcome :=
  if r.chunked = false then .left s
  else
    match httpsSize s.connection with
    | none => .returned false s.output
    | some (0, c) => .returned (httpsTrailers c headerLimit) s.output
    | some (n + 1, c) => .left { s with connection := c, remaining := n + 1 }

variable {r writes}

lemma httpsChunk_left {s s' : Download} (h : httpsChunk r s = .left s') :
    s'.connection.unread.length ≤ s.connection.unread.length := by
  rw [httpsChunk] at h
  split at h
  · obtain rfl : s = s' := by simpa using h
    exact Nat.le_refl _
  · split at h
    next => simp at h
    next => simp at h
    next n c hsize =>
      obtain rfl : _ = s' := by simpa using h
      rw [httpsSize] at hsize
      split at hsize
      next => simp at hsize
      next line left c₁ hline =>
        obtain ⟨m, -, hm⟩ := Option.map_eq_some_iff.1 hsize
        obtain ⟨-, rfl⟩ := Prod.mk.inj hm
        exact (length_of_httpsLine hline).1.le

lemma httpsData_left {requested : ℕ} {s s' : Download} (h : httpsData r writes requested s = .left s') :
    s'.connection.unread.length ≤ s.connection.unread.length := by
  rw [httpsData] at h
  split at h
  · simp at h
  · dsimp only at h
    split at h
    next => simp at h
    next => simp at h
    next b c hread =>
      have hlt := length_unread_lt hread
      split at h
      · simp at h
      · split at h
        · exact (httpsData_left h).trans hlt.le
        · obtain rfl : _ = s' := by simpa using h
          exact hlt.le
termination_by s.connection.unread.length

variable (r writes)

/-- The outer loop, which goes from chunk to chunk. -/
def httpsBodyFrom (s : Download) : Bool × Bytes :=
  match _h₁ : httpsChunk r s with
  | .returned ok output => (ok, output)
  | .left s₁ =>
    match _h₂ : httpsData r writes bufferSize s₁ with
    | .returned ok output => (ok, output)
    | .left s₂ =>
      match _h₃ : httpsLine s₂.connection 2 with
      | some ([], _, c) => httpsBodyFrom { s₂ with connection := c }
      | _ => (false, s₂.output)
termination_by s.connection.unread.length
decreasing_by
  exact ((length_of_httpsLine _h₃).1.trans_le (httpsData_left _h₂)).trans_le (httpsChunk_left _h₁)

/-- `https_body`: whether it succeeds, and what the file then holds. -/
def httpsBody (c : Connection) (current : ℕ) : Bool × Bytes :=
  httpsBodyFrom r writes ⟨c, r.length, [], if r.hasLength then 0 else current⟩

end Loops

/-! ### What the inner loop does -/

section Data

variable {r : Response} {writes : Bytes → Bytes → Bool}

/-- The file takes the bytes `data` behind what it holds, and they can be counted. -/
def Takes (writes : Bytes → Bytes → Bool) (s : Download) (data : Bytes) : Prop :=
  (∀ a b, writes a b = true) ∧ s.current + data.length ≤ ullongMax

/-- How the inner loop ends when the frame is full. -/
def finish (r : Response) (s : Download) : Outcome :=
  if r.chunked then .left s else .returned true s.output

lemma not_lt_of_takes {s : Download} {b data : Bytes} (h : Takes writes s (b ++ data)) :
    ¬(ullongMax - b.length < s.current ∨ writes s.output b = false) := by
  have hcount := h.2
  rw [List.length_append] at hcount
  rintro (hlt | hw)
  · omega
  · simp [h.1] at hw

lemma moved_current {s : Download} {c : Connection} {b : Bytes}
    (h : ¬ullongMax - b.length < s.current) (hb : b.length ≤ ullongMax) :
    (s.moved r c b).current = s.current + b.length := by
  change progressAdd s.current b.length = _
  rw [progressAdd, if_neg (by omega)]

lemma takes_moved {s : Download} {c : Connection} {b data : Bytes} (h : Takes writes s (b ++ data)) :
    Takes writes (s.moved r c b) data := by
  have hcount := h.2
  rw [List.length_append] at hcount
  refine ⟨h.1, ?_⟩
  rw [moved_current (fun hlt => not_lt_of_takes h (.inl hlt)) (by omega)]
  omega

/-- One turn of the inner loop, when bytes have come. -/
lemma httpsData_of_bytes {requested : ℕ} {s : Download} {b : Bytes} {c : Connection}
    (hmore : ¬(r.framed = true ∧ s.remaining = 0))
    (hread : httpsRead s.connection (r.request s.remaining requested) = (.bytes b, c)) :
    httpsData r writes requested s =
      if ullongMax - b.length < s.current ∨ writes s.output b = false then .returned false s.output
      else if r.chunked = false ∨ (s.moved r c b).remaining ≠ 0 then
        httpsData r writes (r.request s.remaining requested) (s.moved r c b)
      else .left (s.moved r c b) := by
  rw [httpsData, if_neg hmore]
  dsimp only
  split
  next h => rw [hread] at h; simp at h
  next h => rw [hread] at h; simp at h
  next h =>
    rw [hread] at h
    obtain ⟨h₁, rfl⟩ := Prod.mk.inj h
    obtain rfl := Read.bytes.inj h₁
    rfl

/-- **A frame is moved** from the head of the stream to the file; what else can happen is that the
file does not take it. -/
theorem httpsData_frame (writes : Bytes → Bytes → Bool) (requested : ℕ) (hr : r.framed = true)
    {s : Download} {data rest : Bytes} (hreq : requested ≠ 0) (hne : data ≠ [])
    (hrem : s.remaining = data.length) (h : s.connection.unread = data ++ rest) :
    (∃ s', httpsData r writes requested s = finish r s' ∧ s'.connection.unread = rest ∧
      s'.output = s.output ++ data ∧ (Takes writes s data → s'.current = s.current + data.length)) ∨
    ¬Takes writes s data ∧ ∃ output, httpsData r writes requested s = .returned false output := by
  have hpos := List.length_pos_iff.2 hne
  have hmore : ¬(r.framed = true ∧ s.remaining = 0) := fun hz => by omega
  have hrequest : r.request s.remaining requested ≠ 0 ∧
      r.request s.remaining requested ≤ data.length := by
    rw [Response.request, hr]
    by_cases hlt : s.remaining < requested
    · rw [if_pos ⟨rfl, hlt⟩]
      omega
    · rw [if_neg fun hand => hlt hand.2]
      omega
  have hread := httpsRead_spec (c := s.connection) hrequest.1
  have hunread : s.connection.unread ≠ [] := by
    rw [h]
    exact List.append_ne_nil_of_left_ne_nil hne _
  cases hres : httpsRead s.connection (r.request s.remaining requested) with
  | mk read c =>
  rw [hres] at hread
  cases hread with
  | closed hc => exact absurd hc hunread
  | error hc => exact absurd hc hunread
  | @bytes b c hb hlen hc hend =>
    have hbpos := List.length_pos_iff.2 hb
    obtain ⟨data, rfl⟩ : b <+: data :=
      List.prefix_of_prefix_length_le ⟨c.unread, hc.symm.trans h⟩ (List.prefix_append ..)
        (hlen.trans hrequest.2)
    have hrest : c.unread = data ++ rest := by
      have := hc.symm.trans h
      rwa [List.append_assoc, List.append_cancel_left_eq] at this
    have hafter : (s.moved r c b).remaining = data.length := by
      change r.after s.remaining b.length = _
      rw [Response.after, if_pos hr, hrem, List.length_append, Nat.add_sub_cancel_left]
    have hcurrent : Takes writes s (b ++ data) → (s.moved r c b).current = s.current + b.length := by
      intro ht
      have hcount := ht.2
      rw [List.length_append] at hcount
      exact moved_current (fun hlt => not_lt_of_takes ht (.inl hlt)) (by omega)
    rw [httpsData_of_bytes hmore hres]
    by_cases hfail : ullongMax - b.length < s.current ∨ writes s.output b = false
    · rw [if_pos hfail]
      exact .inr ⟨fun ht => not_lt_of_takes ht hfail, _, rfl⟩
    · rw [if_neg hfail]
      by_cases hdata : data = []
      · subst hdata
        refine .inl ⟨s.moved r c b, ?_, hrest, by rw [List.append_nil]; rfl, ?_⟩
        · rw [finish, hafter, List.length_nil]
          cases hch : r.chunked with
          | true => simp
          | false =>
            rw [if_pos (.inl rfl), if_neg Bool.false_ne_true, httpsData,
              if_pos ⟨hr, by rw [hafter, List.length_nil]⟩]
        · intro ht
          rw [hcurrent ht, List.append_nil]
      · have hleft : (s.moved r c b).remaining ≠ 0 := by
          rw [hafter]
          exact (List.length_pos_iff.2 hdata).ne'
        rw [if_pos (.inr hleft)]
        rcases httpsData_frame writes _ hr hrequest.1 hdata hafter hrest with
          ⟨s', hs', hrest', hout, hcur⟩ | ⟨hnot, hret⟩
        · refine .inl ⟨s', hs', hrest', ?_, ?_⟩
          · rw [hout, ← List.append_assoc]
            rfl
          · intro ht
            rw [hcur (takes_moved ht), hcurrent ht, List.length_append, Nat.add_assoc]
        · exact .inr ⟨fun ht => hnot (takes_moved ht), hret⟩
termination_by s.connection.unread.length
decreasing_by exact length_unread_lt hres

/-- **A frame that the stream does not fill** is refused. -/
theorem httpsData_short (writes : Bytes → Bytes → Bool) (requested : ℕ) (hr : r.framed = true)
    {s : Download} (hreq : requested ≠ 0) (h : s.connection.unread.length < s.remaining) :
    ∃ output, httpsData r writes requested s = .returned false output := by
  have hmore : ¬(r.framed = true ∧ s.remaining = 0) := fun hz => by omega
  have hrequest : r.request s.remaining requested ≠ 0 := by
    rw [Response.request]
    split <;> omega
  have hread := httpsRead_spec (c := s.connection) hrequest
  cases hres : httpsRead s.connection (r.request s.remaining requested) with
  | mk read c =>
  rw [hres] at hread
  cases hread with
  | closed =>
    rw [httpsData, if_neg hmore]
    dsimp only
    split <;> simp_all
  | error =>
    rw [httpsData, if_neg hmore]
    dsimp only
    split <;> simp_all
  | @bytes b c hb hlen hc hend =>
    rw [httpsData_of_bytes hmore hres]
    have hshort : c.unread.length < (s.moved r c b).remaining := by
      change _ < r.after s.remaining b.length
      rw [hc, List.length_append] at h
      rw [Response.after, if_pos hr]
      omega
    split
    · exact ⟨_, rfl⟩
    · rw [if_pos (.inr (by omega))]
      exact httpsData_short writes _ hr hrequest hshort
termination_by s.connection.unread.length
decreasing_by exact length_unread_lt hres

/-- **Without a frame** everything up to the end of the connection is moved, and counts if that end
is authenticated; what else can happen is that the file does not take it. -/
theorem httpsData_unframed (writes : Bytes → Bytes → Bool) (requested : ℕ) (hr : r.framed = false)
    {s : Download} (hreq : requested ≠ 0) (hmax : requested ≤ ullongMax)
    (hcur : s.current ≤ ullongMax) :
    (httpsData r writes requested s = .returned (s.connection.ending = .closeNotify)
      (s.output ++ s.connection.unread) ∧ s.current + s.connection.unread.length ≤ ullongMax) ∨
    ¬Takes writes s s.connection.unread ∧
      ∃ output, httpsData r writes requested s = .returned false output := by
  have hmore : ¬(r.framed = true ∧ s.remaining = 0) := by simp [hr]
  have hrequest : r.request s.remaining requested = requested := by simp [Response.request, hr]
  have hchunked : r.chunked = false := by
    rw [Response.framed, Bool.or_eq_false_iff] at hr
    exact hr.2
  have hread := httpsRead_spec (c := s.connection) (hrequest ▸ hreq)
  cases hres : httpsRead s.connection (r.request s.remaining requested) with
  | mk read c =>
  rw [hres] at hread
  cases hread with
  | closed hc hend =>
    refine .inl ⟨?_, by rw [hc]; exact hcur⟩
    rw [httpsData, if_neg hmore]
    dsimp only
    split <;> simp_all
  | error hc hend =>
    refine .inl ⟨?_, by rw [hc]; exact hcur⟩
    rw [httpsData, if_neg hmore]
    dsimp only
    split <;> simp_all
  | @bytes b c hb hlen hc hend =>
    rw [httpsData_of_bytes hmore hres, hc]
    by_cases hfail : ullongMax - b.length < s.current ∨ writes s.output b = false
    · rw [if_pos hfail]
      exact .inr ⟨fun ht => not_lt_of_takes ht hfail, _, rfl⟩
    · have hcurrent : (s.moved r c b).current = s.current + b.length :=
        moved_current (fun hlt => hfail (.inl hlt)) ((hlen.trans_eq hrequest).trans hmax)
      rw [if_neg hfail, if_pos (.inl hchunked), hrequest]
      rcases httpsData_unframed writes requested (s := s.moved r c b) hr hreq hmax (by omega) with
        ⟨hret, hcount⟩ | ⟨hnot, hret⟩
      · refine .inl ⟨?_, ?_⟩
        · rw [hret, ← hend, ← List.append_assoc]
          rfl
        · rw [hcurrent] at hcount
          rw [List.length_append, ← Nat.add_assoc]
          exact hcount
      · exact .inr ⟨fun ht => hnot (takes_moved ht), hret⟩
termination_by s.connection.unread.length
decreasing_by exact length_unread_lt hres

end Data

end Wpm.Https
