import Mathlib.Data.List.Basic
import Mathlib.Tactic.Common

/-!
Coders that work call by call, as stream compressors and decompressors do.

A call is given some input and some room for output. It takes a part of the input, fills a part of
the room and says how things stand. `Fed` follows a coder through calls that go well, and `Coded` is
what it has made of its input when it says that the stream has ended. A decoder `Decodes` a stream
when its calls give the content back and stop only for want of input or of room.

The last part makes a coder and a decoder that work on whole blocks from any prefix code. Such a
decoder takes the last character of its stream before it has given anything out.
-/

namespace Wpm.Lib.Streaming

/-- What a call says: that things go on, that the stream has ended, or that they went wrong. -/
inductive Status
  | ok
  | streamEnd
  | error
deriving DecidableEq, Repr

/-- The outcome of a call. -/
structure Turn (σ β : Type) where
  state : σ
  taken : ℕ
  produced : List β
  status : Status

/-- A coder. A call is given input, a request to finish the stream, and room for output. -/
structure Coder (α β : Type) where
  State : Type
  init : Option State
  call : State → List α → Bool → ℕ → Turn State β
  close : State → Bool
  taken_le : ∀ s input finish room, (call s input finish room).taken ≤ input.length
  produced_le : ∀ s input finish room, (call s input finish room).produced.length ≤ room

namespace Coder

variable {α β : Type}

/-- `Fed c xs ys s`: calls that went well took `xs`, gave `ys` and led to `s`. -/
inductive Fed (c : Coder α β) : List α → List β → c.State → Prop
  | init {s : c.State} : c.init = some s → Fed c [] [] s
  | call {xs : List α} {ys : List β} {s : c.State} (input : List α) (finish : Bool) (room : ℕ) :
      Fed c xs ys s → (c.call s input finish room).status = .ok →
      Fed c (xs ++ input.take (c.call s input finish room).taken)
        (ys ++ (c.call s input finish room).produced) (c.call s input finish room).state

/-- The coder makes `ys` of `xs`: calls that went well and one that took the last of `xs` and ended
the stream. -/
def Coded (c : Coder α β) (xs : List α) (ys : List β) : Prop :=
  ∃ fed out s input finish room, c.Fed fed out s ∧
    (c.call s input finish room).status = .streamEnd ∧
    (c.call s input finish room).taken = input.length ∧
    xs = fed ++ input ∧ ys = out ++ (c.call s input finish room).produced

/-- A call with room that goes well, on some input or to finish, takes or gives something. -/
def Productive (c : Coder α β) : Prop :=
  ∀ s input finish room, 0 < room → (c.call s input finish room).status = .ok →
    0 < (c.call s input finish room).taken ∨ (c.call s input finish room).produced ≠ []

/-- After the end of the stream nothing is taken and nothing is given. -/
def Stops (c : Coder α β) : Prop :=
  ∀ s input finish room, (c.call s input finish room).status = .streamEnd →
    ∀ input' finish' room',
      (c.call (c.call s input finish room).state input' finish' room').taken = 0 ∧
      (c.call (c.call s input finish room).state input' finish' room').produced = []

/-- What a decoder makes of one call, when it has given `out` for `fed` and the input goes on with
`stream`, which stands for `content`. -/
structure Decoding {σ : Type} (content : List β) (stream fed : List α) (out : List β)
    (input : List α) (room : ℕ) (t : Turn σ β) : Prop where
  ne_error : t.status ≠ .error
  correct : out ++ t.produced <+: content
  stops : t.status = .ok → t.taken = input.length ∨ t.produced.length = room
  ended : t.status = .streamEnd →
    fed ++ input.take t.taken = stream ∧ out ++ t.produced = content
  ends : fed ++ input.take t.taken = stream → t.produced.length < room → t.status = .streamEnd

/-- The decoder gives `content` for `stream`, whatever pieces of it and whatever room it is given. -/
structure Decodes (c : Coder α β) (content : List β) (stream : List α) : Prop where
  begins : c.init ≠ none
  closes : ∀ s, c.close s = true
  call : ∀ fed out s input room, c.Fed fed out s → fed ++ input <+: stream → input ≠ [] →
    0 < room → Decoding content stream fed out input room (c.call s input false room)

end Coder

/-! ### Coders of whole blocks -/

/-- A prefix code: no word begins another, and there is no empty word. -/
structure PrefixCode (α β : Type) where
  enc : List α → List β
  dec : List β → Option (List α)
  dec_eq_some : ∀ {ys xs}, dec ys = some xs ↔ ys = enc xs
  eq_of_enc_isPrefix : ∀ {xs xs'}, enc xs <+: enc xs' → xs = xs'
  enc_ne_nil : ∀ xs, enc xs ≠ []

/-- A coder of blocks has gathered a part of the block, or has all of it and holds what is left to
give. -/
inductive Blocking (α β : Type)
  | gathering (xs : List α)
  | emitting (rest : List β)

namespace Blocking

variable {α β : Type}

/-- As much of `rest` as there is room for. -/
def emit (rest : List β) (room : ℕ) : Turn (Blocking α β) β :=
  if rest.length ≤ room then ⟨emitting [], 0, rest, .streamEnd⟩
  else ⟨emitting (rest.drop room), 0, rest.take room, if room = 0 then .error else .ok⟩

/-- A call that there is no use for. -/
def refuse (s : Blocking α β) : Turn (Blocking α β) β := ⟨s, 0, [], .error⟩

@[simp] lemma emit_taken (rest : List β) (room : ℕ) : (emit rest room : Turn (Blocking α β) β).taken = 0 := by
  unfold emit
  split <;> rfl

@[simp] lemma emit_state (rest : List β) (room : ℕ) :
    (emit rest room : Turn (Blocking α β) β).state = .emitting (rest.drop room) := by
  unfold emit
  split
  · next h => rw [List.drop_eq_nil_of_le h]
  · rfl

@[simp] lemma emit_produced (rest : List β) (room : ℕ) :
    (emit rest room : Turn (Blocking α β) β).produced = rest.take room := by
  unfold emit
  split
  · next h => exact (List.take_of_length_le h).symm
  · rfl

lemma emit_status {rest : List β} {room : ℕ} (hroom : 0 < room) :
    (emit rest room : Turn (Blocking α β) β).status =
      if rest.length ≤ room then .streamEnd else .ok := by
  unfold emit
  split
  · rfl
  · exact if_neg (by omega)

end Blocking

namespace PrefixCode

open Blocking

variable {α β : Type} (C : PrefixCode α β)

/-- The calls of the coder: it takes all it is given until it is asked to finish. -/
def encodeCall : Blocking α β → List α → Bool → ℕ → Turn (Blocking α β) β
  | .gathering xs, input, false, _ =>
    if input = [] then refuse (.gathering xs) else ⟨.gathering (xs ++ input), input.length, [], .ok⟩
  | .gathering xs, input, true, room => { emit (C.enc (xs ++ input)) room with taken := input.length }
  | .emitting rest, _, false, _ => refuse (.emitting rest)
  | .emitting rest, _, true, room => emit rest room

def encoder : Coder α β where
  State := Blocking α β
  init := some (.gathering [])
  call := C.encodeCall
  close _ := true
  taken_le s input finish room := by
    cases s <;> cases finish <;> simp only [encodeCall, refuse, emit_taken] <;> grind
  produced_le s input finish room := by
    cases s <;> cases finish <;> simp only [encodeCall, refuse, emit_produced] <;> grind

/-- How many characters of the input make the block complete, and what it stands for. -/
def scan : List β → List β → ℕ × Blocking β α
  | gathered, input => match C.dec gathered, input with
    | some xs, _ => (0, .emitting xs)
    | none, [] => (0, .gathering gathered)
    | none, y :: input => ((scan (gathered ++ [y]) input).1 + 1, (scan (gathered ++ [y]) input).2)

/-- The calls of the decoder: it takes input until the block is complete, and then gives it out. -/
def decodeCall : Blocking β α → List β → Bool → ℕ → Turn (Blocking β α) α
  | .gathering ys, input, _, room => match C.scan ys input with
    | (n, .gathering ys) => ⟨.gathering ys, n, [], if n = 0 then .error else .ok⟩
    | (n, .emitting xs) => { emit xs room with taken := n }
  | .emitting rest, _, _, room => emit rest room

lemma scan_cases (gathered input : List β) :
    C.dec (gathered ++ input) = none ∧
      C.scan gathered input = (input.length, .gathering (gathered ++ input)) ∨
    ∃ n xs, C.scan gathered input = (n, .emitting xs) ∧ n ≤ input.length ∧
      gathered ++ input.take n = C.enc xs := by
  induction input generalizing gathered with
  | nil =>
    cases h : C.dec gathered with
    | some xs => exact .inr ⟨0, xs, by simp [scan, h], Nat.zero_le _,
        by simpa using C.dec_eq_some.1 h⟩
    | none => exact .inl ⟨by simpa using h, by simp [scan, h]⟩
  | cons y input ih =>
    cases h : C.dec gathered with
    | some xs =>
      exact .inr ⟨0, xs, by simp [scan, h], Nat.zero_le _, by simpa using C.dec_eq_some.1 h⟩
    | none =>
      rcases ih (gathered ++ [y]) with ⟨hnone, hscan⟩ | ⟨n, xs, hscan, hn, hxs⟩
      · exact .inl ⟨by simpa using hnone, by simp [scan, h, hscan]⟩
      · refine .inr ⟨n + 1, xs, by simp [scan, h, hscan], Nat.succ_le_succ hn, ?_⟩
        simpa using hxs

/-- On the way through a word the scan takes all its input, and is complete with the word. -/
lemma scan_of_isPrefix {gathered input : List β} {xs : List α}
    (h : gathered ++ input <+: C.enc xs) :
    gathered ++ input = C.enc xs ∧ C.scan gathered input = (input.length, .emitting xs) ∨
    gathered ++ input ≠ C.enc xs ∧
      C.scan gathered input = (input.length, .gathering (gathered ++ input)) := by
  rcases C.scan_cases gathered input with ⟨hnone, hscan⟩ | ⟨n, xs', hscan, hn, hword⟩
  · refine .inr ⟨fun he => ?_, hscan⟩
    rw [C.dec_eq_some.2 he] at hnone
    exact Option.some_ne_none _ hnone
  · have hpart : gathered ++ input.take n <+: gathered ++ input :=
      List.prefix_append_right_inj _ |>.2 (List.take_prefix n input)
    obtain rfl := C.eq_of_enc_isPrefix (hword ▸ hpart.trans h)
    have hlen := h.length_le
    rw [← hword] at hlen
    simp only [List.length_append, List.length_take] at hlen
    obtain rfl : n = input.length := by omega
    rw [List.take_length] at hword
    exact .inl ⟨hword, hscan⟩

def decoder : Coder β α where
  State := Blocking β α
  init := some (.gathering [])
  call := C.decodeCall
  close _ := true
  taken_le s input finish room := by
    cases s with
    | gathering ys =>
      rcases C.scan_cases ys input with ⟨-, h⟩ | ⟨n, xs, h, hn, -⟩
      · simp [decodeCall, h]
      · simpa [decodeCall, h] using hn
    | emitting rest => simp [decodeCall]
  produced_le s input finish room := by
    cases s with
    | gathering ys =>
      rcases C.scan_cases ys input with ⟨-, h⟩ | ⟨n, xs, h, hn, -⟩
      · simp [decodeCall, h]
      · simp only [decodeCall, h, emit_produced]
        exact List.length_take_le room xs
    | emitting rest =>
      rw [decodeCall, emit_produced]
      exact List.length_take_le room rest

theorem encoder_productive : C.encoder.Productive := by
  intro s input finish room hroom hok
  have hemit : ∀ rest : List β, (emit rest room : Turn (Blocking α β) β).status = .ok →
      (emit rest room : Turn (Blocking α β) β).produced ≠ [] := by
    intro rest h
    rw [emit_status hroom] at h
    have hlen : ¬ rest.length ≤ room := fun hle => by simp [hle] at h
    rw [emit_produced, ← List.length_pos_iff, List.length_take]
    omega
  cases s <;> cases finish <;> simp only [encoder, encodeCall] at hok ⊢
  · split at hok
    · exact absurd hok (by simp [refuse])
    · next h => exact .inl (by simpa [h] using List.length_pos_iff.2 h)
  · exact .inr (hemit _ hok)
  · exact absurd hok (by simp [refuse])
  · exact .inr (hemit _ hok)

/-- How far the coder is: it gathers, or it has the word and gives it out. -/
lemma fed_encoder {xs : List α} {ys : List β} {s : C.encoder.State} (h : C.encoder.Fed xs ys s) :
    s = (.gathering xs : Blocking α β) ∧ ys = [] ∨
    ∃ rest, s = (.emitting rest : Blocking α β) ∧ ys ++ rest = C.enc xs := by
  induction h with
  | init h => exact .inl ⟨(Option.some.inj h).symm, rfl⟩
  | @call xs ys s input finish room _ hok ih =>
    rcases ih with ⟨rfl, rfl⟩ | ⟨rest, rfl, hrest⟩ <;> cases finish <;>
      simp only [encoder, encodeCall] at hok ⊢
    · split at hok
      · exact absurd hok (by simp [refuse])
      · next h => exact .inl (by simp [h])
    · exact .inr ⟨_, emit_state _ _, by simp⟩
    · exact absurd hok (by simp [refuse])
    · exact .inr ⟨_, emit_state _ _, by simpa using hrest⟩

lemma encoder_coded {xs : List α} {ys : List β} (h : C.encoder.Coded xs ys) : ys = C.enc xs := by
  obtain ⟨fed, out, s, input, finish, room, hfed, hend, htaken, rfl, rfl⟩ := h
  have hall : ∀ rest : List β, (emit rest room : Turn (Blocking α β) β).status = .streamEnd →
      rest.take room = rest := by
    intro rest h
    refine List.take_of_length_le ?_
    unfold emit at h
    grind
  rcases C.fed_encoder hfed with ⟨rfl, rfl⟩ | ⟨rest, rfl, hrest⟩ <;> cases finish <;>
    simp only [encoder, encodeCall] at hend htaken ⊢
  · split at hend <;> exact absurd hend (by simp [refuse])
  · rw [emit_produced, List.nil_append]
    exact hall _ hend
  · exact absurd hend (by simp [refuse])
  · rw [emit_taken] at htaken
    rw [emit_produced, hall _ hend, hrest, List.length_eq_zero_iff.1 htaken.symm, List.append_nil]

/-- How far the decoder is: it gathers, or it has a word and gives out what it stands for. -/
lemma fed_decoder {ys : List β} {out : List α} {s : C.decoder.State} (h : C.decoder.Fed ys out s) :
    s = (.gathering ys : Blocking β α) ∧ out = [] ∨
    ∃ rest, s = (.emitting rest : Blocking β α) ∧ ys = C.enc (out ++ rest) := by
  induction h with
  | init h => exact .inl ⟨(Option.some.inj h).symm, rfl⟩
  | @call ys out s input finish room _ hok ih =>
    simp only [decoder] at hok ⊢
    rcases ih with ⟨rfl, rfl⟩ | ⟨rest, rfl, hrest⟩
    · rcases C.scan_cases ys input with ⟨-, h⟩ | ⟨n, xs, h, -, hxs⟩
      · exact .inl (by simp [decodeCall, h])
      · exact .inr ⟨xs.drop room, by simp [decodeCall, h], by simp [decodeCall, h, hxs]⟩
    · exact .inr ⟨rest.drop room, by simp [decodeCall], by simp [decodeCall, hrest]⟩

/-- While the decoder is given a word it has given nothing out before it has all of it. -/
lemma fed_decoder_of_isPrefix {ys input : List β} {out xs : List α} {s : C.decoder.State}
    (h : C.decoder.Fed ys out s) (hword : ys ++ input <+: C.enc xs) (hne : input ≠ []) :
    s = (.gathering ys : Blocking β α) ∧ out = [] := by
  rcases C.fed_decoder h with h | ⟨rest, -, rfl⟩
  · exact h
  · have heq := C.eq_of_enc_isPrefix ((List.prefix_append _ _).trans hword)
    have hlen := hword.length_le
    rw [heq, List.length_append] at hlen
    exact absurd (List.length_eq_zero_iff.1 (by omega)) hne

theorem decoder_stops : C.decoder.Stops := by
  have hemit : ∀ (rest : List α) room, (emit rest room : Turn (Blocking β α) α).status = .streamEnd →
      rest.drop room = [] := by
    intro rest room h
    refine List.drop_eq_nil_of_le ?_
    unfold emit at h
    grind
  intro s input finish room hend input' finish' room'
  simp only [decoder] at hend ⊢
  have hstate : (C.decodeCall s input finish room).state = .emitting [] := by
    cases s with
    | gathering ys =>
      rcases C.scan_cases ys input with ⟨-, h⟩ | ⟨n, xs, h, -, -⟩
      · simp only [decodeCall, h] at hend
        split at hend <;> exact absurd hend (by simp)
      · simp only [decodeCall, h, emit_state] at hend ⊢
        rw [hemit _ _ hend]
    | emitting rest =>
      simp only [decodeCall, emit_state] at hend ⊢
      rw [hemit _ _ hend]
  rw [hstate]
  simp [decodeCall]

theorem decoder_decodes (xs : List α) : C.decoder.Decodes xs (C.enc xs) where
  begins := Option.some_ne_none _
  closes _ := rfl
  call fed out s input room hfed hword hne hroom := by
    obtain ⟨rfl, rfl⟩ := C.fed_decoder_of_isPrefix hfed hword hne
    have hpos : input.length ≠ 0 := mt List.length_eq_zero_iff.1 hne
    rcases C.scan_of_isPrefix hword with ⟨heq, hscan⟩ | ⟨hne', hscan⟩
    · have hstatus := @emit_status β α xs room hroom
      constructor <;> simp only [decoder, decodeCall, hscan, emit_produced, List.take_length, heq,
        List.nil_append, hstatus]
      · split <;> simp
      · exact List.take_prefix _ _
      · intro _
        exact .inl trivial
      · intro h
        split at h
        · next hle => exact ⟨trivial, List.take_of_length_le hle⟩
        · exact absurd h (by simp)
      · intro _ h
        rw [List.length_take] at h
        exact if_pos (by omega)
    · constructor <;> simp [decoder, decodeCall, hscan, hpos, hne']

end PrefixCode

end Wpm.Lib.Streaming
