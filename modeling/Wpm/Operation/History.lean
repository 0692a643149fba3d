import Wpm.Operation.Drivers

/-!
What the trace of a planned run tells, and what is to hold at each of its events.

A trace is read from its newest event back. The functions here say what it tells of the plan; the
three conditions `Linear`, `WriteAhead` and `OnlyRetained` say what an event may follow. They speak
of the trace alone, and a run that stops anywhere has a trace that ends there.
-/

namespace Wpm.Operation

open Wpm.Lib.CString Wpm.Lib.Command

/-! ### What a trace tells -/

/-- The items collected, in their order. -/
def collectedItems : List Event → List Approved
  | [] => []
  | .collected a _ _ :: before => collectedItems before ++ [a]
  | _ :: before => collectedItems before

/-- The item that was consumed and is not completed. -/
def unfinished : List Event → Option ℕ
  | [] => none
  | .consumed i _ _ :: _ => some i
  | .completed _ _ :: _ => none
  | _ :: before => unfinished before

/-- The state digest recorded at the approval or at the last completion. -/
def recordedState : List Event → Option Bytes
  | [] => none
  | .approved digest :: _ => some digest
  | .completed _ digest :: _ => some digest
  | _ :: before => recordedState before

/-- The last record published for an item. -/
def lastRecord (i : ℕ) : List Event → Option Record
  | [] => none
  | .published j r :: before => if j = i then some r else lastRecord i before
  | _ :: before => lastRecord i before

/-- No journal write and no phase of any item has failed. -/
def NoFailure (before : List Event) : Prop := ∀ i, .failed i ∉ before

/-! ### Linear execution -/

/-- The call asks for the approved item: its paths are the same up to letter case, as the paths of
Windows are, and all else is equal. -/
structure Call.AsksFor (call : Call) (a : Approved) : Prop where
  action : call.action = a.action
  archive : fold call.archive = fold a.archive
  source : call.source = a.source
  oldVersion : call.oldVersion = a.oldVersion
  fingerprint : call.fingerprint = a.fingerprint
  fileIdentity : call.fileIdentity = a.fileIdentity

/-- **An item is consumed** at a moment when the state digest is the recorded one, by a call that
asks for it, once, and while no other item is unfinished. -/
structure Consumable (i : ℕ) (call : Call) (digest : Bytes) (before : List Event) : Prop where
  approved : ∃ a, (collectedItems before)[i]? = some a ∧ call.AsksFor a
  state : recordedState before = some digest
  once : ∀ call' digest', .consumed i call' digest' ∉ before
  alone : ∀ j call' digest', .consumed j call' digest' ∈ before →
    ∃ state, .completed j state ∈ before

/-- **An item may start its script, store its input or complete**: it is the unfinished one, its
call got past `wpm_operation_archive`, and nothing has failed. -/
structure Healthy (i : ℕ) (before : List Event) : Prop where
  unfinished : unfinished before = some i
  passed : .passed i ∈ before
  noFailure : NoFailure before

/-- **A call got past `wpm_operation_archive`**: an item is unfinished that a call with its arguments
has consumed. -/
structure GotPast (i : ℕ) (action : Action) (full source oldVersion : Bytes) (trace : List Event) :
    Prop where
  consumed : ∃ call digest, .consumed i call digest ∈ trace ∧ call.action = action ∧
    fold call.archive = fold full ∧ call.source = source ∧ call.oldVersion = oldVersion
  unfinished : unfinished trace = some i
  passed : .passed i ∈ trace

/-- Every call that gets past `wpm_operation_archive` has consumed an item of its own, and the item
is executed in order. -/
def Linear (e : Event) (before : List Event) : Prop :=
  match e with
  | .consumed i call digest => Consumable i call digest before
  | .passed i => unfinished before = some i ∧ .passed i ∉ before
  | .started item _ => ∃ i, item = some i ∧ Healthy i before
  | .stored i => Healthy i before
  | .completed i _ => Healthy i before
  | _ => True

/-! ### Write-ahead records -/

/-- **A record may follow the last one of its operation**, where `last` is none for the first. -/
structure Record.Follows (r : Record) (last : Option Record) : Prop where
  nodup : r.completedPhases.Nodup
  external : ∀ l, last = some l → l.external = true → r.external = true
  completedPhases : r.completedPhases = (last.map (·.completedPhases)).getD [] ∨
    ∃ l, last = some l ∧ l.status = .inProgress ∧
      r.completedPhases = l.completedPhases ++ [l.phase]
  failed : ∀ l, last = some l → l.status = .failed → r.status = .failed

/-- A process is created only when the last record of its operation says that the external state may
have changed, and the records of an operation follow each other. -/
def WriteAhead (e : Event) (before : List Event) : Prop :=
  match e with
  | .started item _ => ∃ i r, item = some i ∧ lastRecord i before = some r ∧ r.external = true
  | .published i r => r.Follows (lastRecord i before)
  | _ => True

/-! ### The bytes that are used -/

/-- Bytes read at a path: an inspection of the installed packages, at another path than that of the
unfinished item. -/
def ReadsElsewhere (env : Env) (use : Use) (path : Bytes) (before : List Event) : Prop :=
  use = .installed ∧ ∃ i a, unfinished before = some i ∧ (collectedItems before)[i]? = some a ∧
    ∀ full, env.fullPath path = some full → fold full ≠ fold a.archive

/-- The copy of item `i` was made in the file `f`, and checked. -/
def Copied (i : ℕ) (f : FileId) (before : List Event) : Prop := ∃ bytes, .retained i f bytes ∈ before

/-- The bytes have the approved fingerprint of item `i`. -/
def HasFingerprint (env : Env) (i : ℕ) (bytes : Bytes) (before : List Event) : Prop :=
  ∃ a, (collectedItems before)[i]? = some a ∧ env.hash bytes = a.fingerprint

/-- Bytes read from a held copy: it is the copy of the unfinished item, and has the approved
fingerprint. -/
def ReadsRetained (env : Env) (f : FileId) (bytes : Bytes) (before : List Event) : Prop :=
  ∃ i, unfinished before = some i ∧ Copied i f before ∧ HasFingerprint env i bytes before

/-- What is read of an archive is the held copy, and without it no script runs and nothing is
stored. -/
def OnlyRetained (env : Env) (e : Event) (before : List Event) : Prop :=
  match e with
  | .read use (.path path) _ => ReadsElsewhere env use path before
  | .read _ (.retained f) bytes => ReadsRetained env f bytes before
  | .retained i _ bytes => HasFingerprint env i bytes before
  | .started item _ => ∃ i f, item = some i ∧ Copied i f before
  | .stored i => ∃ f, Copied i f before
  | _ => True

/-- `GetFullPathNameA`, when it is asked for the full path of what it answered, answers the same up to
letter case. -/
def Env.Returns (env : Env) (full : Bytes) : Prop :=
  ∀ again, env.fullPath full = some again → fold again = fold full

/-- It does so for every answer that is the path of a collected archive. -/
def Env.ReturnsCollected (env : Env) (before : List Event) : Prop :=
  ∀ a ∈ collectedItems before, ∀ given full, env.fullPath given = some full →
    fold a.archive = fold full → env.Returns full

/-! ### What was checked before an approval -/

/-- What a collected item says is what was computed from the bytes read: the digest, the identity
and the signing key. -/
structure Seen.Yields (env : Env) (a : Approved) (allowUnsigned : Bool) (seen : Seen) : Prop where
  fingerprint : env.hash seen.hashed = a.fingerprint
  identity : env.inspect seen.inspected = some a.identity
  signingKey : env.validate allowUnsigned seen.validated = some a.signingKey

/-- The file of item `i` was hashed again, and has the approved fingerprint. -/
def Rechecked (env : Env) (i : ℕ) (a : Approved) (before : List Event) : Prop :=
  ∃ bytes, .rechecked i bytes ∈ before ∧ env.hash bytes = a.fingerprint

/-- An item is collected as it was read, and a plan is approved once every item was hashed again. -/
def Checked (env : Env) (e : Event) (before : List Event) : Prop :=
  match e with
  | .collected a allowUnsigned seen => seen.Yields env a allowUnsigned
  | .approved _ => ∀ i a, (collectedItems before)[i]? = some a → Rechecked env i a before
  | _ => True

/-- The conditions together. Only the third one relies on what is answered for full paths. -/
structure Admissible (env : Env) (e : Event) (before : List Event) : Prop where
  linear : Linear e before
  writeAhead : WriteAhead e before
  onlyRetained : env.ReturnsCollected before → OnlyRetained env e before
  checked : Checked env e before

/-- Later events leave the items collected before at their indices. -/
lemma getElem?_collectedItems {a : Approved} {i : ℕ} {l : List Event}
    (h : (collectedItems l)[i]? = some a) (e : Event) : (collectedItems (e :: l))[i]? = some a := by
  cases e with
  | collected b allowUnsigned seen =>
    exact (List.getElem?_append_left (List.getElem?_eq_some_iff.1 h).1).trans h
  | _ => exact h

lemma getElem?_collectedItems_of_suffix {a : Approved} {i : ℕ} {before l : List Event}
    (hl : before <:+ l) (h : (collectedItems before)[i]? = some a) :
    (collectedItems l)[i]? = some a := by
  obtain ⟨after, rfl⟩ := hl
  induction after with
  | nil => exact h
  | cons e after ih => exact getElem?_collectedItems ih e

/-- The item that is not completed was consumed. -/
lemma exists_consumed_of_unfinished {l : List Event} {i : ℕ} (h : unfinished l = some i) :
    ∃ call digest, .consumed i call digest ∈ l := by
  induction l with
  | nil => cases h
  | cons e l ih =>
    cases e with
    | consumed j call digest => exact ⟨call, digest, Option.some.inj h ▸ List.mem_cons_self⟩
    | completed j digest => cases h
    | _ =>
      obtain ⟨call, digest, hmem⟩ := ih h
      exact ⟨call, digest, List.mem_cons_of_mem _ hmem⟩

lemma mem_collectedItems {a : Approved} {l : List Event} :
    a ∈ collectedItems l ↔ ∃ allowUnsigned seen, .collected a allowUnsigned seen ∈ l := by
  induction l with
  | nil => simp [collectedItems]
  | cons e l ih => cases e <;> simp [collectedItems, ih, or_comm, exists_or]

lemma Env.ReturnsCollected.of_cons {env : Env} {e : Event} {before : List Event}
    (h : env.ReturnsCollected (e :: before)) : env.ReturnsCollected before := by
  intro a ha
  obtain ⟨allowUnsigned, seen, hmem⟩ := mem_collectedItems.1 ha
  exact h a (mem_collectedItems.2 ⟨allowUnsigned, seen, List.mem_cons_of_mem e hmem⟩)

/-- The bytes that are used, in a trace whose collected archives are answered with their own path. -/
lemma onlyRetained_of_history {env : Env} {l : List Event} (h : History (Admissible env) l)
    (hreturns : env.ReturnsCollected l) : History (OnlyRetained env) l := by
  induction h with
  | nil => exact .nil
  | cons he _ ih => exact .cons (he.onlyRetained hreturns.of_cons) (ih hreturns.of_cons)

lemma Copied.cons {i : ℕ} {f : FileId} {before : List Event} (h : Copied i f before) (e : Event) :
    Copied i f (e :: before) := h.imp fun _ hb => List.mem_cons_of_mem _ hb

/-! ### Events that tell nothing of the plan -/

/-- The event changes nothing of what the trace tells of the plan. -/
def Event.Silent : Event → Prop
  | .rechecked _ _ | .retained _ _ _ | .started _ _ | .exited _ | .read _ _ _ | .stored _
  | .removed => True
  | _ => False

section Silent

variable {e : Event} {l : List Event}

lemma collectedItems_silent (h : e.Silent) : collectedItems (e :: l) = collectedItems l := by
  cases e <;> first | rfl | exact h.elim

lemma unfinished_silent (h : e.Silent) : unfinished (e :: l) = unfinished l := by
  cases e <;> first | rfl | exact h.elim

lemma recordedState_silent (h : e.Silent) : recordedState (e :: l) = recordedState l := by
  cases e <;> first | rfl | exact h.elim

lemma lastRecord_silent (i : ℕ) (h : e.Silent) : lastRecord i (e :: l) = lastRecord i l := by
  cases e <;> first | rfl | exact h.elim

lemma mem_silent {e' : Event} (h : e.Silent) (h' : ¬e'.Silent) : e' ∈ e :: l ↔ e' ∈ l := by
  rw [List.mem_cons, or_iff_right]
  rintro rfl
  exact h' h

lemma noFailure_silent (h : e.Silent) : NoFailure (e :: l) ↔ NoFailure l :=
  forall_congr' fun i => not_congr (mem_silent h (id : ¬(Event.failed i).Silent))

end Silent

end Wpm.Operation
