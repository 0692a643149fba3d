import Wpm.JsonCompletes

/-!
`wpm_json_document_valid`, the automaton that admits a document.

The automaton keeps a stack of states in an array that is as long as the text. A turn of its loop
turns what the whole stack asks for into what it asks for after the turn, in both directions, so that
a run accepts what the grammar derives.
-/

namespace Wpm.JsonInput

open Wpm.Lib.CString Wpm.Lib.Json

/-! ### The automaton -/

/-- The variables of the loop: the array `states`, the index of its top, and the pointer. -/
structure Config where
  states : ℕ → State
  depth : ℕ
  p : Bytes

/-- What a turn of the loop comes to: the next one, the end, or an index outside the array. -/
inductive Outcome
  | next (c : Config)
  | done (valid : Bool)
  | fault

namespace Config

def set (c : Config) (s : State) (p : Bytes) : Config :=
  { c with states := Function.update c.states c.depth s, p := p }

def push (c : Config) (s : State) (p : Bytes) : Config :=
  { states := Function.update c.states (c.depth + 1) s, depth := c.depth + 1, p := p }

def pop (c : Config) (p : Bytes) : Outcome :=
  if c.depth = 0 then .fault else .next { c with depth := c.depth - 1, p := p }

end Config

/-- The part of the loop that reads a key. -/
def keyStep (c : Config) (p : Bytes) : Outcome :=
  match readString false sizeMax p with
  | some (_, p) => .next (c.set .objectColon p)
  | none => .done false

/-- The part of the loop that reads a value. -/
def valueStep (capacity : ℕ) (c : Config) (p : Bytes) : Outcome :=
  let c := c.set (c.states c.depth).afterValue p
  if cur p = ch '{' ∨ cur p = ch '[' then
    if capacity ≤ c.depth + 1 then .done false
    else .next (c.push (if cur p = ch '{' then .objectFirst else .arrayFirst) p.tail)
  else match readScalar p with
    | some p => .next { c with p := p }
    | none => .done false

/-- A turn of the loop in `wpm_json_document_valid`. -/
def documentStep (capacity : ℕ) (c : Config) : Outcome :=
  if capacity ≤ c.depth then .fault
  else
    let p := jsonSpace c.p
    match c.states c.depth with
    | .rootEnd => .done (cur p = 0)
    | .objectFirst => if cur p = ch '}' then c.pop p.tail else keyStep c p
    | .objectKey => keyStep c p
    | .objectColon => if cur p ≠ ch ':' then .done false else .next (c.set .objectValue p.tail)
    | .objectEnd =>
      if cur p = ch '}' then c.pop p.tail
      else if cur p ≠ ch ',' then .done false
      else .next (c.set .objectKey p.tail)
    | .arrayEnd =>
      if cur p = ch ']' then c.pop p.tail
      else if cur p ≠ ch ',' then .done false
      else .next (c.set .arrayValue p.tail)
    | .arrayFirst => if cur p = ch ']' then c.pop p.tail else valueStep capacity c p
    | .rootValue | .objectValue | .arrayValue => valueStep capacity c p

/-- The loop, for `n` turns at most. -/
def documentRun (capacity : ℕ) : ℕ → Config → Outcome
  | 0, c => .next c
  | n + 1, c => match documentStep capacity c with
    | .next c => documentRun capacity n c
    | .done valid => .done valid
    | .fault => .fault

/-- `strlen(p) + 1`. -/
def documentCapacity (text : Bytes) : ℕ := (jsonContent text).length + 1

/-- The loop at its start, with whatever the allocated array has in it. -/
def documentStart (memory : ℕ → State) (text : Bytes) : Config where
  states := Function.update memory 0 .rootValue
  depth := 0
  p := jsonContent text

/-- `wpm_json_document_valid`, when the array can be allocated. -/
def documentValid (text : Bytes) : Bool :=
  match documentRun (documentCapacity text) (documentCapacity text)
    (documentStart (fun _ => .rootEnd) text) with
  | .done valid => valid
  | _ => false

/-- What a stack of states asks for, the top first. -/
def Accepts : List State → Bytes → Prop
  | [], _ => True
  | s :: below, p => Completes (Accepts below) s (jsonSpace p)

/-! ### The steps -/

/-- The states below the index `d`, the last one first. -/
def stackBelow (states : ℕ → State) : ℕ → List State
  | 0 => []
  | d + 1 => states d :: stackBelow states d

/-- The stack of a configuration. -/
def Config.stack (c : Config) : List State := stackBelow c.states (c.depth + 1)

lemma stackBelow_update {states : ℕ → State} {i d : ℕ} (h : d ≤ i) (s : State) :
    stackBelow (Function.update states i s) d = stackBelow states d := by
  induction d with
  | zero => rfl
  | succ d ih =>
    rw [stackBelow, stackBelow, ih (by omega), Function.update_of_ne (by omega)]

lemma Config.stack_eq (c : Config) : c.stack = c.states c.depth :: stackBelow c.states c.depth := rfl

@[simp] lemma Config.stack_set (c : Config) (s : State) (p : Bytes) :
    (c.set s p).stack = s :: stackBelow c.states c.depth :=
  congrArg₂ List.cons (Function.update_self ..) (stackBelow_update le_rfl s)

@[simp] lemma Config.stack_push (c : Config) (s : State) (p : Bytes) :
    (c.push s p).stack = s :: c.stack :=
  congrArg₂ List.cons (Function.update_self ..) (stackBelow_update le_rfl s)

/-- The states of the root of the document. -/
def State.isRoot (s : State) : Bool := s = .rootValue || s = .rootEnd

/-- **The invariant of the loop**: the root state is at the bottom of the array and nowhere else,
and the array has room for as many states as there are bytes left. -/
structure Config.Valid (capacity : ℕ) (c : Config) : Prop where
  root : ∀ i, i ≤ c.depth → ((c.states i).isRoot = true ↔ i = 0)
  room : c.depth + c.p.length < capacity
  noZero : (0 : UInt8) ∉ c.p
  size : c.p.length ≤ sizeMax

/-- **What a turn of the loop must do**: it stays in the array, and what the stack asks for is met by
the text exactly if it is met after the turn. -/
def Config.Correct (capacity : ℕ) (c : Config) : Outcome → Prop
  | .next c' => c'.Valid capacity ∧ c'.p.length < c.p.length ∧
    (Accepts c.stack c.p ↔ Accepts c'.stack c'.p)
  | .done valid => Accepts c.stack c.p ↔ valid = true
  | .fault => False

variable {capacity : ℕ} {c : Config}

namespace Config.Valid

lemma set (h : c.Valid capacity) {s : State} {p : Bytes}
    (hs : s.isRoot = (c.states c.depth).isRoot) (hp : p <:+ c.p) :
    (c.set s p).Valid capacity where
  root i hi := by
    change (Function.update c.states c.depth s i).isRoot = true ↔ _
    by_cases hd : i = c.depth
    · subst hd
      rw [Function.update_self, hs]
      exact h.root c.depth le_rfl
    · rw [Function.update_of_ne hd]
      exact h.root i hi
  room := by
    have hlen := hp.length_le
    have hroom := h.room
    change c.depth + p.length < capacity
    omega
  noZero hmem := h.noZero (hp.subset hmem)
  size := hp.length_le.trans h.size

lemma push (h : c.Valid capacity) {s : State} {p : Bytes} (hs : s.isRoot = false)
    (hp : p <:+ c.p) (hlen : p.length < c.p.length) : (c.push s p).Valid capacity where
  root i hi := by
    change i ≤ c.depth + 1 at hi
    change (Function.update c.states (c.depth + 1) s i).isRoot = true ↔ _
    by_cases hd : i = c.depth + 1
    · subst hd
      rw [Function.update_self, hs]
      simp
    · rw [Function.update_of_ne hd]
      exact h.root i (by omega)
  room := by
    have hroom := h.room
    change c.depth + 1 + p.length < capacity
    omega
  noZero hmem := h.noZero (hp.subset hmem)
  size := hp.length_le.trans h.size

/-- Below a state that is not of the root there is another one. -/
lemma depth_pos (h : c.Valid capacity) (hs : (c.states c.depth).isRoot = false) : 0 < c.depth := by
  by_contra h0
  have hroot := (h.root c.depth le_rfl).2 (by omega)
  rw [hs] at hroot
  exact absurd hroot (by simp)

end Config.Valid

lemma suffix_jsonSpace (p : Bytes) : jsonSpace p <:+ p := List.dropWhile_suffix _

/-- The byte under the pointer is read over. -/
lemma length_tail_lt {p : Bytes} {b : UInt8} (h : cur p = b) (hb : b ≠ 0) :
    p.tail.length < p.length := by
  conv_rhs => rw [cur_eq_cons h hb]
  exact Nat.lt_succ_self _

lemma cur_eq_zero_iff {p : Bytes} (h : (0 : UInt8) ∉ p) : cur p = 0 ↔ p = [] := by
  cases p with
  | nil => exact ⟨fun _ => rfl, fun _ => rfl⟩
  | cons b p =>
    refine ⟨fun hb => ?_, fun hp => absurd hp (List.cons_ne_nil b p)⟩
    rw [cur_cons] at hb
    exact absurd (hb ▸ List.mem_cons_self) h

/-- **Closing an object or an array.** -/
lemma pop_correct (h : c.Valid capacity) (hs : (c.states c.depth).isRoot = false) {b : UInt8}
    (hb : b ≠ 0) (hcur : cur (jsonSpace c.p) = b)
    (hiff : ∀ K q, Completes K (c.states c.depth) (b :: q) ↔ K q) :
    c.Correct capacity (c.pop (jsonSpace c.p).tail) := by
  obtain ⟨d, hd⟩ := Nat.exists_eq_succ_of_ne_zero (h.depth_pos hs).ne'
  have hsuffix : (jsonSpace c.p).tail <:+ c.p :=
    (List.tail_suffix _).trans (suffix_jsonSpace c.p)
  have hless := length_tail_lt hcur hb
  have hle := length_jsonSpace_le c.p
  have hroom := h.room
  rw [Config.pop, if_neg (by omega)]
  refine ⟨⟨fun i hi => ?_, ?_, fun hmem => h.noZero (hsuffix.subset hmem),
    hsuffix.length_le.trans h.size⟩, ?_, ?_⟩
  · change i ≤ c.depth - 1 at hi
    exact h.root i (by omega)
  · change c.depth - 1 + (jsonSpace c.p).tail.length < capacity
    omega
  · change (jsonSpace c.p).tail.length < c.p.length
    omega
  · have hstack : Config.stack { c with depth := c.depth - 1, p := (jsonSpace c.p).tail } =
        stackBelow c.states c.depth := by
      change stackBelow c.states (c.depth - 1 + 1) = _
      rw [Nat.sub_add_cancel (by omega)]
    rw [hstack, Config.stack_eq, Accepts, cur_eq_cons hcur hb, hiff]
    rfl

/-- **Reading a key.** -/
lemma keyStep_correct (h : c.Valid capacity) (hs : (c.states c.depth).isRoot = false)
    (hiff : ∀ K, Completes K (c.states c.depth) (jsonSpace c.p) ↔ ∃ k r, IsString k ∧
      jsonSpace c.p = k ++ r ∧ Completes K .objectColon (jsonSpace r)) :
    c.Correct capacity (keyStep c (jsonSpace c.p)) := by
  have hsize := (length_jsonSpace_le c.p).trans h.size
  have hread := fun q => @readString_iff (jsonSpace c.p) q (lead_jsonSpace c.p) hsize
  have haccepts : Accepts c.stack c.p ↔ ∃ k r, IsString k ∧ jsonSpace c.p = k ++ r ∧
      Completes (Accepts (stackBelow c.states c.depth)) .objectColon (jsonSpace r) := hiff _
  unfold keyStep
  cases hr : readString false sizeMax (jsonSpace c.p) with
  | none =>
    refine haccepts.trans ⟨?_, fun hf => absurd hf (by simp)⟩
    rintro ⟨k, r, hk, hp, -⟩
    obtain ⟨out, hout⟩ := (hread r).2 ⟨k, hk, hp⟩
    exact absurd (hr.symm.trans hout) (by simp)
  | some pair =>
    obtain ⟨out, q⟩ := pair
    obtain ⟨k, hk, hp⟩ := (hread q).1 ⟨out, hr⟩
    have hsuffix : q <:+ c.p := (hp ▸ List.suffix_append k q).trans (suffix_jsonSpace c.p)
    have hless : q.length < (jsonSpace c.p).length := by
      obtain ⟨b, -, rfl⟩ := hk
      rw [hp, List.length_append, List.length_append, List.length_cons]
      omega
    refine ⟨h.set (by rw [hs]; rfl) hsuffix, hless.trans_le (length_jsonSpace_le c.p), ?_⟩
    rw [haccepts, Config.stack_set]
    constructor
    · rintro ⟨k', r, hk', hp', hcolon⟩
      obtain ⟨out', hout⟩ := (hread r).2 ⟨k', hk', hp'⟩
      obtain ⟨-, rfl⟩ := Prod.mk.inj (Option.some.inj (hr.symm.trans hout))
      exact hcolon
    · exact fun hcolon => ⟨k, q, hk, hp, hcolon⟩

/-- **Reading a value**, or the start of one. -/
lemma valueStep_correct (h : c.Valid capacity)
    (hroot : (c.states c.depth).afterValue.isRoot = (c.states c.depth).isRoot)
    (hiff : ∀ K, Completes K (c.states c.depth) (jsonSpace c.p) ↔ ∃ v r, Value v ∧
      jsonSpace c.p = v ++ r ∧ Completes K (c.states c.depth).afterValue (jsonSpace r)) :
    c.Correct capacity (valueStep capacity c (jsonSpace c.p)) := by
  have hsize := (length_jsonSpace_le c.p).trans h.size
  have hsuffix := suffix_jsonSpace c.p
  have hset := h.set hroot hsuffix
  have haccepts : Accepts c.stack c.p ↔ ∃ v r, Value v ∧ jsonSpace c.p = v ++ r ∧
      Accepts ((c.states c.depth).afterValue :: stackBelow c.states c.depth) r := hiff _
  unfold valueStep
  by_cases hopen : cur (jsonSpace c.p) = ch '{' ∨ cur (jsonSpace c.p) = ch '['
  · have hne : cur (jsonSpace c.p) ≠ 0 := by rcases hopen with h | h <;> rw [h] <;> decide
    have hless := length_tail_lt rfl hne
    have hfull : ¬capacity ≤ (c.set (c.states c.depth).afterValue (jsonSpace c.p)).depth + 1 := by
      have hroom := hset.room
      change c.depth + (jsonSpace c.p).length < capacity at hroom
      change ¬capacity ≤ c.depth + 1
      omega
    simp only [if_pos hopen, if_neg hfull]
    refine ⟨hset.push (by split_ifs <;> rfl) (List.tail_suffix _) hless,
      hless.trans_le (length_jsonSpace_le c.p), ?_⟩
    rw [haccepts, Config.stack_push, Config.stack_set]
    have hcons := cur_eq_cons rfl hne
    rcases hopen with hopen | hopen
    · rw [if_pos hopen, hcons, hopen]
      exact completes_object_iff
    · rw [if_neg (by rw [hopen]; decide), hcons, hopen]
      exact completes_array_iff
  · have hscalar : ∀ r, Accepts ((c.states c.depth).afterValue :: stackBelow c.states c.depth) r →
        (readScalar (jsonSpace c.p) = some r ↔ ∃ v, Value v ∧ jsonSpace c.p = v ++ r) :=
      fun r hr => ⟨readScalar_sound (lead_jsonSpace c.p) hsize, fun ⟨v, hv, hp⟩ => by
        rw [hp] at hsize hopen ⊢
        exact readScalar_append hv hsize (not_or.1 hopen) (Completes.numberEnd hr)⟩
    have hiff' : Accepts c.stack c.p ↔ ∃ r, readScalar (jsonSpace c.p) = some r ∧
        Accepts ((c.states c.depth).afterValue :: stackBelow c.states c.depth) r := by
      rw [haccepts]
      constructor
      · rintro ⟨v, r, hv, hp, hr⟩
        exact ⟨r, (hscalar r hr).2 ⟨v, hv, hp⟩, hr⟩
      · rintro ⟨r, hread, hr⟩
        obtain ⟨v, hv, hp⟩ := (hscalar r hr).1 hread
        exact ⟨v, r, hv, hp, hr⟩
    simp only [if_neg hopen]
    cases hr : readScalar (jsonSpace c.p) with
    | none =>
      rw [hr] at hiff'
      exact hiff'.trans ⟨fun ⟨_, h, _⟩ => absurd h (by simp), fun h => absurd h (by simp)⟩
    | some q =>
      obtain ⟨v, hv, hp⟩ := readScalar_sound (lead_jsonSpace c.p) hsize hr
      have hq : q <:+ jsonSpace c.p := hp ▸ List.suffix_append v q
      have hless : q.length < (jsonSpace c.p).length := by
        rw [hp, List.length_append]
        exact Nat.lt_add_of_pos_left (List.length_pos_of_ne_nil hv.ne_nil)
      refine ⟨h.set hroot (hq.trans hsuffix), hless.trans_le (length_jsonSpace_le c.p), ?_⟩
      change _ ↔ Accepts (c.set (c.states c.depth).afterValue q).stack q
      rw [hiff', hr, Config.stack_set]
      constructor
      · rintro ⟨r, hr, hacc⟩
        exact Option.some.inj hr ▸ hacc
      · exact fun hacc => ⟨q, rfl, hacc⟩

/-- **Reading over one character.** -/
lemma charStep_correct (h : c.Valid capacity) {s : State} {b : UInt8} (hb : b ≠ 0)
    (hroot : s.isRoot = (c.states c.depth).isRoot)
    (hiff : ∀ K, Completes K (c.states c.depth) (jsonSpace c.p) ↔ ∃ r, jsonSpace c.p = b :: r ∧
      Completes K s (jsonSpace r)) :
    c.Correct capacity (if cur (jsonSpace c.p) ≠ b then .done false
      else .next (c.set s (jsonSpace c.p).tail)) := by
  have haccepts : Accepts c.stack c.p ↔ ∃ r, jsonSpace c.p = b :: r ∧
      Accepts (s :: stackBelow c.states c.depth) r := hiff _
  by_cases hcur : cur (jsonSpace c.p) = b
  · have hcons := cur_eq_cons hcur hb
    rw [if_neg (not_not.2 hcur)]
    refine ⟨h.set hroot ((List.tail_suffix _).trans (suffix_jsonSpace c.p)),
      (length_tail_lt hcur hb).trans_le (length_jsonSpace_le c.p), ?_⟩
    rw [haccepts, Config.stack_set]
    constructor
    · rintro ⟨r, hr, hacc⟩
      change Accepts (s :: stackBelow c.states c.depth) (jsonSpace c.p).tail
      rw [hr]
      exact hacc
    · exact fun hacc => ⟨_, hcons, hacc⟩
  · rw [if_pos hcur]
    refine haccepts.trans ⟨?_, fun hf => absurd hf (by simp)⟩
    rintro ⟨r, hr, -⟩
    exact absurd (by rw [hr]; rfl) hcur

/-- **The step lemma.** -/
lemma documentStep_correct (h : c.Valid capacity) : c.Correct capacity (documentStep capacity c) := by
  have hroom := h.room
  unfold documentStep
  rw [if_neg (by omega)]
  cases hs : c.states c.depth with
  | rootEnd =>
    have hzero := zero_notMem_jsonSpace h.noZero
    change Accepts c.stack c.p ↔ _
    rw [Config.stack_eq, hs, Accepts, decide_eq_true_iff, cur_eq_zero_iff hzero]
    generalize jsonSpace c.p = x
    constructor
    · intro h
      cases h
      rfl
    · exact fun h => h ▸ .rootEnd
  | rootValue =>
    exact valueStep_correct h (by rw [hs]; rfl) fun K => by
      rw [hs]
      exact completes_value (.inl rfl)
  | objectValue =>
    exact valueStep_correct h (by rw [hs]; rfl) fun K => by
      rw [hs]
      exact completes_value (.inr (.inl rfl))
  | arrayValue =>
    exact valueStep_correct h (by rw [hs]; rfl) fun K => by
      rw [hs]
      exact completes_value (.inr (.inr rfl))
  | objectKey =>
    exact keyStep_correct h (by rw [hs]; rfl) fun K => hs ▸ completes_objectKey
  | objectColon =>
    exact charStep_correct h (by decide) (by rw [hs]; rfl) fun K => hs ▸ completes_objectColon
  | objectFirst =>
    by_cases hcur : cur (jsonSpace c.p) = ch '}'
    · simp only [if_pos hcur]
      exact pop_correct h (by rw [hs]; rfl) (by decide) hcur
        fun K q => hs ▸ completes_objectFirst_close
    · simp only [if_neg hcur]
      exact keyStep_correct h (by rw [hs]; rfl)
        fun K => hs ▸ (completes_objectFirst hcur).trans completes_objectKey
  | arrayFirst =>
    by_cases hcur : cur (jsonSpace c.p) = ch ']'
    · simp only [if_pos hcur]
      exact pop_correct h (by rw [hs]; rfl) (by decide) hcur
        fun K q => hs ▸ completes_arrayFirst_close
    · simp only [if_neg hcur]
      exact valueStep_correct h (by rw [hs]; rfl) fun K => by
        rw [hs]
        exact (completes_arrayFirst hcur).trans (completes_value (.inr (.inr rfl)))
  | objectEnd =>
    by_cases hcur : cur (jsonSpace c.p) = ch '}'
    · simp only [if_pos hcur]
      exact pop_correct h (by rw [hs]; rfl) (by decide) hcur
        fun K q => hs ▸ completes_objectEnd_close
    · simp only [if_neg hcur]
      exact charStep_correct h (by decide) (by rw [hs]; rfl)
        fun K => hs ▸ completes_objectEnd hcur
  | arrayEnd =>
    by_cases hcur : cur (jsonSpace c.p) = ch ']'
    · simp only [if_pos hcur]
      exact pop_correct h (by rw [hs]; rfl) (by decide) hcur
        fun K q => hs ▸ completes_arrayEnd_close
    · simp only [if_neg hcur]
      exact charStep_correct h (by decide) (by rw [hs]; rfl)
        fun K => hs ▸ completes_arrayEnd hcur

/-- **The run lemma**: with as many turns as there are bytes, and one, the loop ends, and accepts
what the stack asks for. -/
lemma documentRun_correct (h : c.Valid capacity) {n : ℕ} (hn : c.p.length < n) :
    ∃ valid, documentRun capacity n c = .done valid ∧ (valid = true ↔ Accepts c.stack c.p) := by
  induction n generalizing c with
  | zero => omega
  | succ n ih =>
    have hstep := documentStep_correct h
    rw [documentRun]
    cases hs : documentStep capacity c with
    | next c' =>
      rw [hs] at hstep
      obtain ⟨hvalid, hless, hiff⟩ := hstep
      obtain ⟨valid, hrun, hacc⟩ := ih hvalid (by omega)
      exact ⟨valid, hrun, hacc.trans hiff.symm⟩
    | done valid =>
      rw [hs] at hstep
      exact ⟨valid, rfl, Iff.symm hstep⟩
    | fault =>
      rw [hs] at hstep
      exact absurd hstep id

/-- No turn leaves the array. -/
lemma documentRun_inBounds (h : c.Valid capacity) (n : ℕ) : documentRun capacity n c ≠ .fault ∧
    ∀ c', documentRun capacity n c = .next c' → c'.depth < capacity := by
  induction n generalizing c with
  | zero =>
    refine ⟨by simp [documentRun], fun c' hc => ?_⟩
    obtain rfl := Outcome.next.inj hc
    have hroom := h.room
    omega
  | succ n ih =>
    have hstep := documentStep_correct h
    rw [documentRun]
    cases hs : documentStep capacity c with
    | next c' =>
      rw [hs] at hstep
      exact ih hstep.1
    | done valid => exact ⟨by simp, by simp⟩
    | fault =>
      rw [hs] at hstep
      exact absurd hstep id

/-- The run starts in a valid configuration. -/
lemma documentStart_valid (memory : ℕ → State) {text : Bytes} (h0 : (0 : UInt8) ∉ text)
    (hsize : text.length < sizeMax) :
    (documentStart memory text).Valid (documentCapacity text) := by
  have hsuffix : jsonContent text <:+ text := by
    refine (suffix_jsonSpace _).trans ?_
    split_ifs
    · exact List.drop_suffix _ _
    · exact List.suffix_refl _
  have hroot : (documentStart memory text).states 0 = .rootValue := by
    change Function.update memory 0 .rootValue 0 = _
    rw [Function.update_self]
  refine ⟨fun i hi => ?_, ?_, fun hmem => h0 (hsuffix.subset hmem), ?_⟩
  · obtain rfl : i = 0 := Nat.le_zero.1 hi
    rw [hroot]
    exact ⟨fun _ => rfl, fun _ => rfl⟩
  · change 0 + (jsonContent text).length < documentCapacity text
    rw [documentCapacity]
    omega
  · exact hsuffix.length_le.trans hsize.le

/-- What the run asks for at its start is a document. -/
lemma accepts_documentStart (memory : ℕ → State) (text : Bytes) :
    Accepts (documentStart memory text).stack (documentStart memory text).p ↔ Document text := by
  have hroot : (documentStart memory text).states 0 = .rootValue := by
    change Function.update memory 0 .rootValue 0 = _
    rw [Function.update_self]
  have hstack : (documentStart memory text).stack = [.rootValue] := congrArg (· :: []) hroot
  have hcontent : jsonSpace (jsonContent text) = jsonContent text :=
    jsonSpace_eq_self (lead_jsonSpace _)
  rw [hstack, document_iff text, ← hcontent]
  rfl

/-- **The validator accepts the documents of the grammar**, whatever the allocated memory has in it;
and its index of states stays within the array. -/
theorem documentValid_iff (memory : ℕ → State) {text : Bytes} (h0 : (0 : UInt8) ∉ text)
    (hsize : text.length < sizeMax) :
    (∃ valid, documentRun (documentCapacity text) (documentCapacity text)
      (documentStart memory text) = .done valid ∧ (valid = true ↔ Document text)) ∧
    ∀ n, documentRun (documentCapacity text) n (documentStart memory text) ≠ .fault ∧
      ∀ c, documentRun (documentCapacity text) n (documentStart memory text) = .next c →
        c.depth < documentCapacity text := by
  have hvalid := documentStart_valid memory h0 hsize
  refine ⟨?_, documentRun_inBounds hvalid⟩
  obtain ⟨valid, hrun, hacc⟩ := documentRun_correct hvalid (Nat.lt_succ_self _)
  exact ⟨valid, hrun, hacc.trans (accepts_documentStart memory text)⟩

/-- What the readers of documents rely on. -/
lemma document_of_documentValid {text : Bytes} (h0 : (0 : UInt8) ∉ text)
    (hsize : text.length < sizeMax) (h : documentValid text = true) : Document text := by
  obtain ⟨valid, hrun, hacc⟩ :=
    documentRun_correct (documentStart_valid (fun _ => .rootEnd) h0 hsize) (Nat.lt_succ_self _)
  change documentRun (documentCapacity text) (documentCapacity text)
    (documentStart (fun _ => .rootEnd) text) = .done valid at hrun
  rw [documentValid, hrun] at h
  exact (accepts_documentStart _ text).1 (hacc.1 h)

lemma documentValid_of_document {text : Bytes} (h0 : (0 : UInt8) ∉ text)
    (hsize : text.length < sizeMax) (h : Document text) : documentValid text = true := by
  obtain ⟨valid, hrun, hacc⟩ :=
    documentRun_correct (documentStart_valid (fun _ => .rootEnd) h0 hsize) (Nat.lt_succ_self _)
  change documentRun (documentCapacity text) (documentCapacity text)
    (documentStart (fun _ => .rootEnd) text) = .done valid at hrun
  rw [documentValid, hrun]
  exact hacc.2 ((accepts_documentStart _ text).2 h)

def sampleDocument : Bytes :=
  [0xef, 0xbb, 0xbf] ++ str " [\x7b\"a\\ud83d\\ude00\": -0.5e+1\x7d, [], true] "

theorem documentValid_iff_sample :
    ((0 : UInt8) ∉ sampleDocument ∧ sampleDocument.length < sizeMax) ∧
    ∃ valid, documentRun (documentCapacity sampleDocument) (documentCapacity sampleDocument)
      (documentStart (fun _ => .rootEnd) sampleDocument) = .done valid ∧
      (valid = true ↔ Document sampleDocument) := by
  have h0 : (0 : UInt8) ∉ sampleDocument := by decide
  have hsize : sampleDocument.length < sizeMax := by decide
  exact ⟨⟨h0, hsize⟩, (documentValid_iff (fun _ => .rootEnd) h0 hsize).1⟩

example : documentValid sampleDocument = true := by decide

end Wpm.JsonInput
