import Wpm.Lib.CString
import Wpm.Lib.Numeral

/-!
The bytes of a TLS connection, as `https.c` reads them.

TLS delivers the stream in fragments of its own choice, which `https_read` keeps in a buffer and
hands on piece by piece. What the readers above it make of the stream depends on the bytes that are
still to come, `Connection.unread`, and not on the fragments.
-/

namespace Wpm.Https

open Wpm.Lib Wpm.Lib.CString

/-- `sizeof(connection->buffer)`. -/
def bufferSize : ℕ := 16384

/-- `HTTPS_LINE_SIZE`. -/
def lineSize : ℕ := 8192

/-- `HTTPS_HEADER_LIMIT`. -/
def headerLimit : ℕ := 65536

/-! ### The transport -/

/-- What one successful `mbedtls_ssl_read` delivers. -/
structure Fragment where
  bytes : Bytes
  ne_nil : bytes ≠ []
  length_le : bytes.length ≤ bufferSize

/-- How the stream ends: with an authenticated `close_notify`, or with any other error. -/
inductive Ending
  | closeNotify
  | failed
  deriving DecidableEq

/-- An `https_connection`. A read that is not a fragment is `WANT_READ` or `WANT_WRITE`. -/
structure Connection where
  buffer : Bytes
  used : ℕ
  reads : List (Option Fragment)
  ending : Ending
  used_le : used ≤ buffer.length

/-- The bytes of the fragments. -/
def delivered (reads : List (Option Fragment)) : Bytes :=
  reads.flatMap fun read => (read.map Fragment.bytes).getD []

/-- The bytes that are still to come. -/
def Connection.unread (c : Connection) : Bytes := c.buffer.drop c.used ++ delivered c.reads

/-- The loop around `mbedtls_ssl_read`: the next fragment, and the reads after it. -/
def nextFragment : List (Option Fragment) → Option (Fragment × List (Option Fragment))
  | [] => none
  | none :: reads => nextFragment reads
  | some fragment :: reads => some (fragment, reads)

/-- What `https_read` returns: a negative number, zero, or the bytes it has copied. -/
inductive Read
  | error
  | closed
  | bytes (b : Bytes)
  deriving DecidableEq

/-- What is copied from the buffer. -/
def Connection.take (c : Connection) (size : ℕ) : Read × Connection :=
  (.bytes ((c.buffer.drop c.used).take size),
    { c with
      used := c.used + min size (c.buffer.length - c.used)
      used_le := by have := c.used_le; omega })

/-- `https_read`. -/
def httpsRead (c : Connection) (size : ℕ) : Read × Connection :=
  if size = 0 then (.closed, c)
  else if c.used = c.buffer.length then
    match nextFragment c.reads with
    | none => (if c.ending = .closeNotify then .closed else .error, { c with reads := [] })
    | some (fragment, reads) =>
      Connection.take { c with buffer := fragment.bytes, used := 0, reads, used_le := by simp } size
  else c.take size

section Read

variable {c : Connection} {size : ℕ}

lemma delivered_cons_some (f : Fragment) (reads : List (Option Fragment)) :
    delivered (some f :: reads) = f.bytes ++ delivered reads := by simp [delivered]

lemma delivered_cons_none (reads : List (Option Fragment)) :
    delivered (none :: reads) = delivered reads := by simp [delivered]

lemma nextFragment_spec : ∀ (reads : List (Option Fragment)),
    match nextFragment reads with
    | none => delivered reads = []
    | some (f, reads') => delivered reads = f.bytes ++ delivered reads'
  | [] => rfl
  | none :: reads => by
    rw [nextFragment, delivered_cons_none]
    exact nextFragment_spec reads
  | some f :: reads => delivered_cons_some f reads

/-- **What a read does**: at the end of the stream it says how the stream ends, and before that it
takes some of the bytes that come next, at least one and no more than it was asked for. -/
inductive ReadSpec (c : Connection) (size : ℕ) : Read × Connection → Prop
  | closed {c' : Connection} (hc : c.unread = []) (hend : c.ending = .closeNotify) :
      ReadSpec c size (.closed, c')
  | error {c' : Connection} (hc : c.unread = []) (hend : c.ending = .failed) :
      ReadSpec c size (.error, c')
  | bytes {b : Bytes} {c' : Connection} (hb : b ≠ []) (hlen : b.length ≤ size)
      (hc : c.unread = b ++ c'.unread) (hend : c'.ending = c.ending) :
      ReadSpec c size (.bytes b, c')

lemma drop_eq_take_append {b : Bytes} {used : ℕ} (h : used ≤ b.length) :
    b.drop used = (b.drop used).take size ++ b.drop (used + min size (b.length - used)) := by
  rcases Nat.le_total size (b.length - used) with hle | hle
  · rw [Nat.min_eq_left hle, ← List.drop_drop, List.take_append_drop]
  · rw [Nat.min_eq_right hle, List.take_of_length_le (by simpa using hle), Nat.add_sub_of_le h,
      List.drop_length, List.append_nil]

lemma Connection.take_spec (hsize : size ≠ 0) (hused : c.used < c.buffer.length) :
    (c.buffer.drop c.used).take size ≠ [] ∧
      c.unread = (c.buffer.drop c.used).take size ++ (c.take size).2.unread := by
  refine ⟨?_, ?_⟩
  · intro hnil
    have hlen := congrArg List.length hnil
    rw [List.length_take, List.length_drop, List.length_nil] at hlen
    omega
  · calc c.unread
        = (c.buffer.drop c.used).take size ++
            c.buffer.drop (c.used + min size (c.buffer.length - c.used)) ++ delivered c.reads := by
          rw [← drop_eq_take_append c.used_le, Connection.unread]
      _ = _ := List.append_assoc ..

theorem httpsRead_spec (hsize : size ≠ 0) : ReadSpec c size (httpsRead c size) := by
  rw [httpsRead, if_neg hsize]
  by_cases hused : c.used = c.buffer.length
  · rw [if_pos hused]
    have hbuffer : c.buffer.drop c.used = [] := by rw [hused, List.drop_length]
    have hnext := nextFragment_spec c.reads
    cases hf : nextFragment c.reads with
    | none =>
      rw [hf] at hnext
      have hunread : c.unread = [] := by rw [Connection.unread, hbuffer, hnext, List.append_nil]
      cases hend : c.ending with
      | closeNotify => exact .closed hunread hend
      | failed => exact .error hunread hend
    | some next =>
      rw [hf] at hnext
      obtain ⟨f, reads⟩ := next
      obtain ⟨hne, hrest⟩ := Connection.take_spec
        (c := { c with buffer := f.bytes, used := 0, reads, used_le := by simp }) hsize
        (List.length_pos_iff.2 f.ne_nil)
      have hunread : c.unread = f.bytes ++ delivered reads := by
        rw [Connection.unread, hbuffer, hnext, List.nil_append]
      exact .bytes hne (List.length_take_le ..) (hunread.trans hrest) rfl
  · rw [if_neg hused]
    obtain ⟨hne, hrest⟩ := Connection.take_spec hsize (lt_of_le_of_ne c.used_le hused)
    exact .bytes hne (List.length_take_le ..) hrest rfl

end Read

/-! ### Lines -/

/-- Whether a byte may stand on a line. -/
def isText (c : UInt8) : Bool := ¬((c < 32 ∧ c ≠ 9) ∨ c = 127)

section Reader

variable {σ : Type*} (next : σ → Option UInt8 × σ)

/-- `https_line` behind a carriage return. -/
def lineEndAt (line : Bytes) : ℕ → σ → Option (Bytes × ℕ) × σ
  | 0, s => (none, s)
  | budget + 1, s => match next s with
    | (some b, s) => (if b = 10 then some (line, budget) else none, s)
    | (none, s) => (none, s)

/-- `https_line`, with the bytes of the line that are read already. -/
def lineAt (line : Bytes) : ℕ → σ → Option (Bytes × ℕ) × σ
  | 0, s => (none, s)
  | budget + 1, s =>
    if line.length + 1 < lineSize then match next s with
      | (some b, s) =>
        if b = 13 then lineEndAt next line budget s
        else if isText b then lineAt (line ++ [b]) budget s
        else (none, s)
      | (none, s) => (none, s)
    else (none, s)

end Reader

/-- `https_read` of one byte. -/
def readByte (c : Connection) : Option UInt8 × Connection := match httpsRead c 1 with
  | (.bytes b, c) => (some (cur b), c)
  | (_, c) => (none, c)

/-- `https_line` behind a carriage return, with no connection when there is no line. -/
def httpsLineEnd (line : Bytes) (budget : ℕ) (c : Connection) : Option (Bytes × ℕ × Connection) :=
  (lineEndAt readByte line budget c).1.map fun l =>
    (l.1, l.2, (lineEndAt readByte line budget c).2)

/-- `https_line` from the bytes of the line on that are read already. -/
def httpsLineFrom (line : Bytes) (budget : ℕ) (c : Connection) : Option (Bytes × ℕ × Connection) :=
  (lineAt readByte line budget c).1.map fun l => (l.1, l.2, (lineAt readByte line budget c).2)

lemma httpsLineEnd_succ (line : Bytes) (budget : ℕ) (c : Connection) :
    httpsLineEnd line (budget + 1) c = match httpsRead c 1 with
      | (.bytes b, c) => if cur b = 10 then some (line, budget, c) else none
      | _ => none := by
  rw [httpsLineEnd, lineEndAt, readByte]
  rcases httpsRead c 1 with ⟨_ | _ | b, c'⟩
  · rfl
  · rfl
  · by_cases hb : cur b = 10 <;> simp [hb]

lemma httpsLineFrom_succ (line : Bytes) (budget : ℕ) (c : Connection) :
    httpsLineFrom line (budget + 1) c =
      if line.length + 1 < lineSize then
        match httpsRead c 1 with
        | (.bytes b, c) =>
          if cur b = 13 then httpsLineEnd line budget c
          else if isText (cur b) then httpsLineFrom (line ++ [cur b]) budget c
          else none
        | _ => none
      else none := by
  rw [httpsLineFrom, lineAt, readByte]
  by_cases hsize : line.length + 1 < lineSize
  · rw [if_pos hsize, if_pos hsize]
    rcases httpsRead c 1 with ⟨_ | _ | b, c'⟩
    · rfl
    · rfl
    · dsimp only
      by_cases hcr : cur b = 13
      · rw [if_pos hcr, if_pos hcr]
        rfl
      · rw [if_neg hcr, if_neg hcr]
        by_cases htext : isText (cur b) = true
        · rw [if_pos htext, if_pos htext]
          rfl
        · rw [if_neg htext, if_neg htext]
          rfl
  · rw [if_neg hsize, if_neg hsize]
    rfl

/-- `https_line`: the line, what is left of the budget, and the connection behind the line. -/
def httpsLine (c : Connection) (budget : ℕ) : Option (Bytes × ℕ × Connection) :=
  httpsLineFrom [] budget c

section Line

variable {c c' : Connection} {line : Bytes} {budget : ℕ}

/-- A read of one byte. -/
lemma httpsRead_one {x : UInt8} {rest : Bytes} (h : c.unread = x :: rest) :
    ∃ c', httpsRead c 1 = (.bytes [x], c') ∧ c'.unread = rest ∧ c'.ending = c.ending := by
  have hspec := @httpsRead_spec c 1 Nat.one_ne_zero
  generalize httpsRead c 1 = r at hspec
  cases hspec with
  | closed hc => simp [h] at hc
  | error hc => simp [h] at hc
  | @bytes b c' hb hlen hc hend =>
    obtain ⟨y, rfl⟩ : ∃ y, b = [y] :=
      List.length_eq_one_iff.1 (le_antisymm hlen (List.length_pos_iff.2 hb))
    rw [h, List.singleton_append, List.cons.injEq] at hc
    obtain ⟨rfl, rfl⟩ := hc
    exact ⟨c', rfl, rfl, hend⟩

/-- The byte of a read of one byte. -/
lemma exists_of_httpsRead_one {b : Bytes} (h : httpsRead c 1 = (.bytes b, c')) :
    ∃ x, b = [x] ∧ c.unread = x :: c'.unread ∧ c'.ending = c.ending := by
  have hspec := @httpsRead_spec c 1 Nat.one_ne_zero
  rw [h] at hspec
  cases hspec with
  | bytes hb hlen hc hend =>
    obtain ⟨x, rfl⟩ : ∃ x, b = [x] :=
      List.length_eq_one_iff.1 (le_antisymm hlen (List.length_pos_iff.2 hb))
    exact ⟨x, rfl, hc, hend⟩

lemma httpsLineEnd_eq_some {held l : Bytes} {left : ℕ}
    (h : httpsLineEnd held budget c = some (l, left, c')) :
    l = held ∧ c.unread = 10 :: c'.unread ∧ left + 1 = budget ∧ c'.ending = c.ending := by
  cases budget with
  | zero => simp [httpsLineEnd, lineEndAt] at h
  | succ budget =>
    rw [httpsLineEnd_succ] at h
    split at h
    next b c₁ hread =>
      obtain ⟨x, rfl, hc, hend⟩ := exists_of_httpsRead_one hread
      rw [cur_cons] at h
      split at h
      next hx =>
        obtain ⟨rfl, rfl, rfl⟩ : held = l ∧ budget = left ∧ c₁ = c' := by simpa using h
        exact ⟨rfl, hx ▸ hc, rfl, hend⟩
      next => simp at h
    next => simp at h

/-- **A line is read** as far as its end, whatever the fragments. -/
theorem httpsLineFrom_append : ∀ {line : Bytes} (held : Bytes) (budget : ℕ) {c : Connection}
    {rest : Bytes}, (∀ x ∈ line, isText x = true) → c.unread = line ++ 13 :: 10 :: rest →
    held.length + line.length + 1 < lineSize → line.length + 2 ≤ budget →
    ∃ c', httpsLineFrom held budget c = some (held ++ line, budget - (line.length + 2), c') ∧
      c'.unread = rest ∧ c'.ending = c.ending
  | [], held, budget, c, rest, _, h, hsize, hbudget => by
    obtain ⟨budget, rfl⟩ : ∃ n, budget = n + 2 := Nat.exists_eq_add_of_le' hbudget
    obtain ⟨c₁, hread, hrest, hend⟩ := httpsRead_one h
    obtain ⟨c₂, hread', hrest', hend'⟩ := httpsRead_one hrest
    refine ⟨c₂, ?_, hrest', hend'.trans hend⟩
    rw [httpsLineFrom_succ, if_pos (by simpa using hsize), hread]
    simp [httpsLineEnd_succ, hread']
  | x :: line, held, budget, c, rest, htext, h, hsize, hbudget => by
    obtain ⟨budget, rfl⟩ : ∃ n, budget = n + 1 :=
      Nat.exists_eq_add_of_le' (Nat.le_trans (by omega) hbudget)
    have hx : isText x = true := htext x List.mem_cons_self
    have hcr : x ≠ 13 := by
      rintro rfl
      exact absurd hx (by decide)
    obtain ⟨c₁, hread, hrest, hend⟩ := httpsRead_one h
    obtain ⟨c₂, hline, hrest', hend'⟩ := httpsLineFrom_append (held ++ [x]) budget
      (fun y hy => htext y (List.mem_cons_of_mem _ hy)) hrest
      (by simp only [List.length_append, List.length_cons, List.length_nil] at hsize ⊢; omega)
      (by simp only [List.length_cons] at hbudget; omega)
    refine ⟨c₂, ?_, hrest', hend'.trans hend⟩
    have hleft : budget - (line.length + 2) = budget + 1 - ((x :: line).length + 2) := by
      rw [List.length_cons]
      omega
    rw [httpsLineFrom_succ, if_pos (by simp only [List.length_cons] at hsize; omega), hread]
    simp only [cur_cons, if_neg hcr, hx, if_true, hline, hleft, List.append_assoc,
      List.singleton_append]

/-- **Only a line is read**: it stands at the head of the stream, with its end. -/
theorem httpsLineFrom_eq_some : ∀ {budget : ℕ} {held l : Bytes} {left : ℕ} {c c' : Connection},
    httpsLineFrom held budget c = some (l, left, c') →
    ∃ line, l = held ++ line ∧ (∀ x ∈ line, isText x = true) ∧
      c.unread = line ++ 13 :: 10 :: c'.unread ∧ left + line.length + 2 = budget ∧
      c'.ending = c.ending
  | 0, _, _, _, _, _, h => by simp [httpsLineFrom, lineAt] at h
  | budget + 1, held, l, left, c, c', h => by
    rw [httpsLineFrom_succ] at h
    split at h
    · split at h
      next b c₁ hread =>
        obtain ⟨x, rfl, hc, hend⟩ := exists_of_httpsRead_one hread
        rw [cur_cons] at h
        split at h
        next hcr =>
          obtain ⟨rfl, hlf, hleft, hend'⟩ := httpsLineEnd_eq_some h
          refine ⟨[], by simp, by simp, ?_, by simpa using hleft, hend'.trans hend⟩
          rw [hc, hlf, hcr, List.nil_append]
        next hcr =>
          split at h
          next hx =>
            obtain ⟨line, rfl, htext, hunread, hleft, hend'⟩ := httpsLineFrom_eq_some h
            refine ⟨x :: line, by simp, by simpa [hx] using htext, ?_, ?_, hend'.trans hend⟩
            · rw [hc, hunread, List.cons_append]
            · rw [List.length_cons]
              omega
          next => simp at h
      next => simp at h
    · simp at h

theorem httpsLine_append (budget : ℕ) {rest : Bytes} (htext : ∀ x ∈ line, isText x = true)
    (h : c.unread = line ++ 13 :: 10 :: rest) (hsize : line.length + 1 < lineSize)
    (hbudget : line.length + 2 ≤ budget) :
    ∃ c', httpsLine c budget = some (line, budget - (line.length + 2), c') ∧ c'.unread = rest ∧
      c'.ending = c.ending := by
  rw [httpsLine]
  simpa using httpsLineFrom_append [] budget htext h (by simpa using hsize) hbudget

/-- An empty line is read. -/
lemma httpsLine_nil (budget : ℕ) {rest : Bytes} (h : c.unread = 13 :: 10 :: rest)
    (hbudget : 2 ≤ budget) :
    ∃ c', httpsLine c budget = some ([], budget - 2, c') ∧ c'.unread = rest ∧ c'.ending = c.ending :=
  httpsLine_append budget (List.forall_mem_nil _) h (by decide) hbudget

theorem httpsLine_eq_some {left : ℕ} (h : httpsLine c budget = some (line, left, c')) :
    (∀ x ∈ line, isText x = true) ∧ c.unread = line ++ 13 :: 10 :: c'.unread ∧
      left + line.length + 2 = budget ∧ c'.ending = c.ending := by
  rw [httpsLine] at h
  obtain ⟨l, rfl, hl⟩ := httpsLineFrom_eq_some h
  exact hl

/-- The line that is read is the one at the head of the stream. -/
lemma httpsLine_unique {l rest : Bytes} {left : ℕ} (htext : ∀ x ∈ line, isText x = true)
    (h : c.unread = line ++ 13 :: 10 :: rest) (hread : httpsLine c budget = some (l, left, c')) :
    l = line ∧ c'.unread = rest := by
  obtain ⟨hl, hunread, -, -⟩ := httpsLine_eq_some hread
  have hno : ∀ {t : Bytes}, (∀ x ∈ t, isText x = true) → (13 : UInt8) ∉ t :=
    fun ht hmem => absurd (ht 13 hmem) (by decide)
  have hcut := cutAt_eq_some.2 ⟨h, hno htext⟩
  rw [cutAt_eq_some.2 ⟨hunread, hno hl⟩] at hcut
  obtain ⟨rfl, htail⟩ := Prod.mk.inj (Option.some.inj hcut)
  exact ⟨rfl, (List.cons.inj htail).2⟩

/-- **A line without its end** is not read. -/
theorem httpsLine_eq_none {rest : Bytes} (htext : ∀ x ∈ line, isText x = true)
    (h : c.unread <+: line ++ 13 :: 10 :: rest) (hlen : c.unread.length < line.length + 2) :
    httpsLine c budget = none := by
  by_contra hne
  obtain ⟨⟨l, left, c'⟩, hsome⟩ := Option.ne_none_iff_exists'.1 hne
  obtain ⟨-, hunread, -, -⟩ := httpsLine_eq_some hsome
  -- the carriage return behind `l` would stand on the line
  have hhead : l ++ [13] <+: line ++ 13 :: 10 :: rest := by
    refine List.IsPrefix.trans ⟨10 :: c'.unread, ?_⟩ h
    rw [hunread, List.append_assoc, List.singleton_append]
  have hcr : l ++ [13] <+: line := by
    refine List.prefix_of_prefix_length_le hhead (List.prefix_append ..) ?_
    rw [hunread] at hlen
    simp only [List.length_append, List.length_cons, List.length_nil] at hlen ⊢
    omega
  have hmem := htext 13 (hcr.subset (by simp))
  exact absurd hmem (by decide)

/-- An empty line without its end is not read. -/
lemma httpsLine_nil_eq_none {rest : Bytes} (h : c.unread <+: 13 :: 10 :: rest)
    (hlen : c.unread.length < 2) : httpsLine c budget = none :=
  httpsLine_eq_none (List.forall_mem_nil _) h hlen

end Line

/-! ### Numbers and fields -/

/-- The digit of a character in `https_number`. -/
def httpsDigit (base : ℕ) (c : UInt8) : Option ℕ :=
  if ch '0' ≤ c ∧ c ≤ ch '9' then some (c - ch '0').toNat
  else if base = 16 ∧ ch 'a' ≤ c ∧ c ≤ ch 'f' then some ((c - ch 'a').toNat + 10)
  else if base = 16 ∧ ch 'A' ≤ c ∧ c ≤ ch 'F' then some ((c - ch 'A').toNat + 10)
  else none

/-- `https_number`. -/
def httpsNumber (text : Bytes) (base : ℕ) : Option ℕ :=
  if text = [] then none else Numeral.readFrom (httpsDigit base) base ullongMax 0 text

theorem httpsNumber_eq_some {text : Bytes} {base n : ℕ} (hbase : 0 < base)
    (hmax : base ≤ ullongMax) :
    httpsNumber text base = some n ↔ Numeral.Writes (httpsDigit base) base text n ∧ n ≤ ullongMax := by
  by_cases hne : text = []
  · simp [httpsNumber, hne, Numeral.Writes]
  · rw [httpsNumber, if_neg hne, Numeral.readFrom_zero_eq_some hbase hmax hne]

/-- A character of a field's name. -/
def isToken (c : UInt8) : Bool := isAlnum c || c ∈ str "!#$%&'*+-.^_`|~"

/-- `https_field`: the name and the value of the field. -/
def httpsField (line : Bytes) : Option (Bytes × Bytes) :=
  match cutAt (ch ':') line with
  | none => none
  | some (name, value) =>
    if name = [] ∨ name.all isToken = false then none
    else some (name, (value.dropWhile (· ∈ str " \t")).rdropWhile (· ∈ str " \t"))

end Wpm.Https
