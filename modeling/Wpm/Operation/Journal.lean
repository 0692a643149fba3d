import Wpm.Operation.Invariant

/-!
What the journal functions do to the invariant: `journal_write` and the functions that call it.

`Pending` is the state in the middle of such a function, with everything known of the item and of
its last record; `Running` is the state between two of them, while the item is executed and nothing
has failed.
-/

namespace Wpm.Operation

open Wpm.Lib.CString Wpm.Lib.Command

variable {env : Env}

/-! ### Steps that only take time -/

/-- Other processes cannot make the condition false. -/
def Stable (env : Env) (P : World → Prop) : Prop := ∀ w, P w → P (w.advance env)

section Steps

variable {α : Type} {P : World → Prop}

lemma advance_keeps (h : Stable env P) : Keeps P (advance env) := Triple.modify h

lemma sample_keeps (h : Stable env P) (f : ℕ → α) : Keeps P (sample env f) :=
  (advance_keeps h).bind fun _ => Triple.get_bind fun _ hw => Triple.pure fun _ he => he ▸ hw

lemma work_keeps (h : Stable env P) (k : Work) : Keeps P (work env k) := sample_keeps h _

lemma must_keeps (h : Stable env P) (k : Work) : Keeps P (must env k) :=
  (work_keeps h k).bind fun _ => Triple.guard (fun _ _ hw => hw) fun _ _ hw => hw

lemma openFile_keeps (h : Stable env P) (path : Bytes) : Keeps P (openFile env path) :=
  (advance_keeps h).bind fun _ => Triple.get_bind fun _ hw =>
    Triple.ofOption (fun _ _ _ he => he ▸ hw) fun _ _ he => he ▸ hw

lemma hashFile_keeps (h : Stable env P) (path : Bytes) : Keeps P (hashFile env path) := by
  refine (openFile_keeps h path).bind fun f => Triple.get_bind fun w hw => ?_
  exact ((must_keeps h .hashFile).from_state hw).bind fun _ => Triple.pure fun _ hs => hs

lemma identityAt_keeps (h : Stable env P) (path : Bytes) : Keeps P (identityAt env path) :=
  (advance_keeps h).bind fun _ => Triple.get_bind fun _ hw => Triple.pure fun _ he => he ▸ hw

lemma stateDigest_keeps (h : Stable env P) : Keeps P (stateDigest env) :=
  (sample_keeps h _).bind fun _ => Triple.ofOption (fun _ _ _ hw => hw) fun _ _ hw => hw

lemma watch_keeps (h : Stable env P) (path : Bytes) : Keeps P (watch env path) := by
  refine (openFile_keeps h path).bind fun f => Triple.get_bind fun w hw => ?_
  refine ((sample_keeps h env.reads).from_state hw).bind fun n => ?_
  refine Triple.bind (Q := fun _ => P) (Triple.modify fun s hs => ?_) fun _ =>
    Triple.pure fun _ hs => hs
  exact Function.Iterate.rec P hs h n

end Steps

/-! ### Assertions -/

/-- **In the middle of a function**: what is known of the executed item `i`, of its last record and
of the trace. -/
structure Pending (env : Env) (i : ℕ) (item : PlanItem) (last : Option Record)
    (T : List Event → Prop) (w : World) : Prop where
  inv : InvAt env (some i) w
  executing : w.executing = some i
  item_eq : w.items[i]? = some item
  consumed : item.consumed = true
  last_eq : lastRecord i w.trace = last
  trace : T w.trace

/-- The state that a function leaves in which an item is pending and which then fails. -/
def Broken (env : Env) (i : ℕ) (w : World) : Prop :=
  InvAt env (some i) w ∧ w.executing = some i

/-- Nothing has failed, and the call of item `i` got past `wpm_operation_archive`, or not yet. -/
structure Sound (i : ℕ) (passed : Bool) (trace : List Event) : Prop where
  noFailure : NoFailure trace
  passed : .passed i ∈ trace ↔ passed = true

/-- How far the execution of an item has come: whether its call got past `wpm_operation_archive`,
whether its input is retained, the phases done, the phase entered last, and whether the external
state may have changed. -/
structure Progress where
  passed : Bool
  kept : Bool
  done : List Phase
  phase : Phase
  external : Bool

/-- The executed item and its last record, while nothing has failed: the record is in progress and
says how far the execution has come. -/
structure Current (item : PlanItem) (r : Record) (a : Approved) (s : Progress) : Prop where
  approved : item.toApproved = a
  failed : item.failed = false
  journalFailed : item.journalFailed = false
  completed : item.completed = s.done
  phase : item.phase = some s.phase
  external : item.external = s.external
  retained : s.kept = true → item.retainedState = .retained
  recordPhases : r.completedPhases = s.done
  recordPhase : r.phase = s.phase
  recordStatus : r.status = .inProgress
  recordExternal : r.external = s.external

/-- **Item `i`, approved as `a`, is executed** and nothing has failed. -/
def Running (env : Env) (i : ℕ) (a : Approved) (s : Progress) (w : World) : Prop :=
  ∃ item r, Current item r a s ∧ Pending env i item (some r) (Sound i s.passed) w

section Assertions

variable {i : ℕ} {item : PlanItem} {last : Option Record} {T : List Event → Prop} {w : World}
  {a : Approved} {s : Progress}

lemma Pending.stable : Stable env (Pending env i item last T) := fun _ h =>
  ⟨h.inv.advance, h.executing, h.item_eq, h.consumed, h.last_eq, h.trace⟩

lemma Pending.broken (h : Pending env i item last T w) : Broken env i w := ⟨h.inv, h.executing⟩

lemma Halted.stable : Stable env (Halted env) := fun _ h => ⟨h.inv.advance, h.executing⟩

lemma Idle.stable : Stable env (Idle env) := fun _ h => ⟨h.inv.advance, h.executing⟩

lemma Running.stable : Stable env (Running env i a s) :=
  fun w ⟨item, r, hc, hp⟩ => ⟨item, r, hc, Pending.stable w hp⟩

lemma Pending.inv_of_current {r : Record} (h : Pending env i item (some r) T w)
    (hc : Current item r a s) : Inv env w := by
  refine h.inv.settle fun item' hi hf => ?_
  rw [h.item_eq] at hi
  obtain rfl := Option.some.inj hi
  rw [h.last_eq]
  exact ⟨hc.recordPhases.trans hc.completed.symm,
    fun he => hc.external.trans (hc.recordExternal.symm.trans he)⟩

lemma Pending.halted (h : Pending env i item last T w) (hinv : Inv env w) : Halted env w :=
  ⟨hinv, h.executing ▸ Option.some_ne_none i⟩

lemma Running.inv (h : Running env i a s w) : Inv env w := by
  obtain ⟨item, r, hc, hp⟩ := h
  exact hp.inv_of_current hc

lemma Running.halted (h : Running env i a s w) : Halted env w := by
  obtain ⟨item, r, hc, hp⟩ := h
  exact hp.halted (hp.inv_of_current hc)

lemma Sound.published {passed : Bool} (r : Record) (l : List Event) (h : Sound i passed l) :
    Sound i passed (.published i r :: l) :=
  ⟨by simpa [NoFailure] using h.noFailure, by simpa using h.passed⟩

/-- A silent event that may happen changes nothing of what is known. -/
lemma Pending.emit_silent {e : Event} {passed : Bool} (he : e.Silent)
    (ha : Admissible env e w.trace) (h : Pending env i item last (Sound i passed) w) :
    Pending env i item last (Sound i passed) (w.emit e) :=
  ⟨h.inv.emit_silent he ha, h.executing, h.item_eq, h.consumed,
    (lastRecord_silent i he).trans h.last_eq, (noFailure_silent he).2 h.trace.noFailure,
    (mem_silent he (id : ¬(Event.passed i).Silent)).trans h.trace.passed⟩

lemma Running.emit_silent {e : Event} (he : e.Silent) (ha : Admissible env e w.trace)
    (h : Running env i a s w) : Running env i a s (w.emit e) := by
  obtain ⟨item, r, hc, hp⟩ := h
  exact ⟨item, r, hc, hp.emit_silent he ha⟩

lemma noteFailure_keeps : Keeps (Halted env) noteFailure := by
  refine Triple.get_bind fun w hw => ?_
  split
  · exact Triple.modify fun s hs => hs ▸ ⟨hw.inv.emit_failed hw.executing _, hw.executing⟩
  · exact Triple.pure fun s hs => hs ▸ hw

lemma planItem_spec {E : World → Prop} : Triple (Pending env i item last T) (planItem i)
    (fun it w => it = item ∧ Pending env i item last T w) E := by
  refine Triple.get_bind fun w hw => Triple.ofOption (fun it hi s hs => ?_) fun hn => ?_
  · rw [hw.item_eq] at hi
    exact ⟨(Option.some.inj hi).symm, hs ▸ hw⟩
  · rw [hw.item_eq] at hn
    exact absurd hn (Option.some_ne_none item)

end Assertions

/-! ### Changes of the pending item -/

section Changes

variable {i : ℕ} {item : PlanItem} {last : Option Record} {T : List Event → Prop} {w : World}
  {f : PlanItem → PlanItem}

/-- A change of the pending item that keeps what is approved. -/
lemma Pending.change (f : PlanItem → PlanItem) (h : Pending env i item last T w)
    (ha : ∀ item, (f item).toApproved = item.toApproved)
    (hc : ∀ item, (f item).consumed = item.consumed) (hn : (f item).completed.Nodup)
    (hk : Kept env w i (f item)) : Pending env i (f item) last T (w.updateItem i f) where
  inv := h.inv.updateItem h.item_eq ha ((hc item).trans h.consumed) hn hk
  executing := h.executing
  item_eq := by
    rw [InvAt.getElem?_updateItem, h.item_eq]
    simp
  consumed := (hc item).trans h.consumed
  last_eq := h.last_eq
  trace := h.trace

/-- The change keeps what is approved, what is retained and that the item is consumed. -/
structure Minor (f : PlanItem → PlanItem) : Prop where
  approved : ∀ item, (f item).toApproved = item.toApproved
  consumed : ∀ item, (f item).consumed = item.consumed
  retainedInput : ∀ item, (f item).retainedInput = item.retainedInput
  retainedState : ∀ item, (f item).retainedState = item.retainedState

lemma Pending.update (hf : Minor f) (h : Pending env i item last T w)
    (hn : (f item).completed.Nodup) : Pending env i (f item) last T (w.updateItem i f) := by
  refine h.change f hf.approved hf.consumed hn fun hr => ?_
  rw [hf.retainedState] at hr
  have hk := h.inv.kept i item h.item_eq hr
  rwa [← hf.retainedInput item, ← congrArg Approved.fingerprint (hf.approved item)] at hk

lemma updateItem_spec {E : World → Prop} (hf : Minor f) (hn : (f item).completed.Nodup) :
    Triple (Pending env i item last T) (updateItem i f) (fun _ => Pending env i (f item) last T)
      E :=
  Triple.modify fun _ h => h.update hf hn

lemma Broken.update {w : World} (hf : Minor f) (hn : ∀ item, (f item).completed = item.completed)
    (h : Broken env i w) : Broken env i (w.updateItem i f) := by
  obtain ⟨-, item, hi, hc⟩ := h.1.current i h.2
  have hp : Pending env i item (lastRecord i w.trace) (fun _ => True) w :=
    ⟨h.1, h.2, hi, hc, rfl, trivial⟩
  exact (hp.update hf ((hn item).symm ▸ h.1.nodup i item hi)).broken

end Changes

/-! ### `journal_write` -/

section JournalWrite

variable {i : ℕ} {item : PlanItem} {last : Option Record} {T : List Event → Prop}
  {phase : Phase} {status : Status}

/-- What a record of the item says, whenever it is written. -/
structure RecordOf (item : PlanItem) (phase : Phase) (status : Status) (r : Record) : Prop where
  completedPhases : r.completedPhases = item.completed
  external : r.external = item.external
  phase : r.phase = phase
  status : r.status = status

/-- The item once its record is published. -/
def PlanItem.journaled (item : PlanItem) (created : Bytes) (phase : Phase) : PlanItem :=
  { item with created := created, journalStarted := true, phase := some phase }

lemma stampCreated_spec (h : item.completed.Nodup) :
    Triple (Pending env i item last T) (stampCreated env i item)
      (fun _ w => ∃ created, Pending env i { item with created := created } last T w)
      (Broken env i) := by
  refine Triple.ite (fun _ => ?_) fun _ => Triple.pure fun w hw => ⟨item.created, hw⟩
  refine Triple.bind ((sample_keeps Pending.stable _).weaken (fun _ hw => hw) (fun _ _ hw => hw)
    fun _ hw => hw.broken) fun created => ?_
  refine (updateItem_spec (by constructor <;> exact fun _ => rfl) h).post ?_
  exact fun _ w hw => ⟨created, hw⟩

/-- **A record is published, and follows the last one**, or nothing is published; after either the
function may fail. -/
lemma journalCommit_spec (hT : ∀ r l, T l → T (.published i r :: l))
    (hr : ∀ r, RecordOf item phase status r → r.Follows last) (hn : item.completed.Nodup) :
    Triple (Pending env i item last T) (journalCommit env i phase status)
      (fun _ w => ∃ created r, RecordOf item phase status r ∧ item.journalFailed = false ∧
        Pending env i (item.journaled created phase) (some r) T w)
      (Broken env i) := by
  have hmust : ∀ {it : PlanItem} {l : Option Record} (k : Work),
      Triple (Pending env i it l T) (must env k) (fun _ => Pending env i it l T) (Broken env i) :=
    fun k => (must_keeps Pending.stable k).weaken (fun _ hw => hw) (fun _ _ hw => hw)
      fun _ hw => hw.broken
  refine planItem_spec.bind fun it => Triple.of_imp ?_
  rintro rfl
  refine Triple.bind (Q := fun _ w => it.journalFailed = false ∧ Pending env i it last T w)
    (Triple.guard (fun hg w hw => ⟨hg.1, hw⟩) fun _ w hw => hw.broken) fun _ => ?_
  refine Triple.of_imp fun hj => ?_
  refine Triple.bind (Q := fun _ => Pending env i it last T)
    (Triple.ofOption (fun _ _ w hw => hw) fun _ w hw => hw.broken) fun directory => ?_
  refine (hmust _).bind fun _ => (stampCreated_spec hn).bind fun _ => Triple.of_exists fun c => ?_
  refine Triple.bind (Q := fun _ => Pending env i { it with created := c } last T)
    (Triple.guard (fun _ w hw => hw) fun _ w hw => hw.broken) fun _ => ?_
  refine (hmust _).bind fun _ => (hmust _).bind fun _ => ?_
  refine Triple.bind ((sample_keeps Pending.stable _).weaken (fun _ hw => hw) (fun _ _ hw => hw)
    fun _ hw => hw.broken) fun updated => ?_
  refine planItem_spec.bind fun it' => Triple.of_imp ?_
  rintro rfl
  refine Triple.get_bind fun w hw => ?_
  have hrec : RecordOf it phase status
      (PlanItem.record { it with created := c } w.approvedPlan updated phase status) :=
    ⟨rfl, rfl, rfl, rfl⟩
  refine Triple.bind (Q := fun _ => Pending env i { it with created := c } last T)
    (Triple.guard (fun _ s hs => hs ▸ hw) fun _ s hs => hs ▸ hw.broken) fun _ => ?_
  refine (hmust _).bind fun _ => (hmust _).bind fun _ => ?_
  -- from here on the record is there, even if the function goes on to fail
  refine Triple.bind (Q := fun _ => Pending env i { it with created := c } (some _) T)
    (Triple.modify fun s hs => ⟨hs.inv.emit_published hs.executing ?_, hs.executing, hs.item_eq,
      hs.consumed, if_pos rfl, hT _ _ hs.trace⟩) fun _ => ?_
  · rw [hs.last_eq]
    exact hr _ hrec
  refine (hmust _).bind fun _ => ?_
  refine (updateItem_spec (by constructor <;> exact fun _ => rfl) hn).post ?_
  exact fun _ s hs => ⟨c, _, hrec, hj, hs⟩

/-- **`journal_write`** publishes a record and returns one, or marks the journal as failed. -/
lemma journalWrite_spec {exitCode : Option ℕ} (hT : ∀ r l, T l → T (.published i r :: l))
    (hr : ∀ r, RecordOf item phase status r → r.Follows last) (hn : item.completed.Nodup) :
    Triple (Pending env i item last T) (journalWrite env i phase status exitCode)
      (fun _ w => ∃ created r, RecordOf item phase status r ∧ item.journalFailed = false ∧
        Pending env i (PlanItem.journaled
          { item with scriptExit := exitCode.or item.scriptExit } created phase) (some r) T w)
      (Halted env) := by
  refine (updateItem_spec (by constructor <;> exact fun _ => rfl) hn).bind
    fun _ => ?_
  refine Triple.onFail (Triple.post (journalCommit_spec hT ?_ ?_) ?_) ?_
  · exact fun r hrec => hr r ⟨hrec.completedPhases, hrec.external, hrec.phase, hrec.status⟩
  · exact hn
  · rintro _ w ⟨c, r, hrec, hj, hw⟩
    exact ⟨c, r, ⟨hrec.completedPhases, hrec.external, hrec.phase, hrec.status⟩, hj, hw⟩
  · refine Triple.bind (Q := fun _ w => Broken env i w ∧ ∀ item, w.items[i]? = some item →
      item.journalFailed = true) (Triple.modify fun w hw => ⟨hw.update
        (by constructor <;> exact fun _ => rfl) fun _ => rfl, fun item hi => ?_⟩) fun _ => ?_
    · rw [InvAt.getElem?_updateItem, Option.map_eq_some_iff] at hi
      obtain ⟨old, -, rfl⟩ := hi
      rw [if_pos rfl]
    · refine Triple.modify fun w ⟨hw, hf⟩ => ?_
      have he : w.executing ≠ none := hw.2 ▸ Option.some_ne_none i
      refine ⟨(hw.1.settle fun item hi hj => ?_).emit_failed he i, he⟩
      rw [hf item hi] at hj
      exact absurd hj (by simp)

end JournalWrite

/-! ### The functions of a phase -/

section Phases

variable {i : ℕ} {item : PlanItem} {r : Record} {last : Option Record} {T : List Event → Prop}
  {a : Approved} {s : Progress} {phase : Phase}

/-- What every function that works on the executed item reads first. -/
lemma Pending.reads {w : World} (h : Pending env i item last T w) :
    w.active = true ∧ w.collecting = false ∧ w.executing = some i :=
  ⟨h.inv.active, (h.inv.current i h.executing).1, h.executing⟩

def Progress.start (s : Progress) (phase : Phase) : Progress := { s with phase := phase }

def Progress.finish (s : Progress) : Progress := { s with done := s.done ++ [s.phase] }

def Progress.externalStart (s : Progress) (phase : Phase) : Progress :=
  { s with phase := phase, external := true }

/-- A record that adds at most the phase in progress follows the record in progress. -/
lemma Current.follows {r' : Record} (hc : Current item r a s) (s' : Progress)
    (hd : s'.done = s.done ∨ s'.done = s.done ++ [s.phase]) (hn : s'.done.Nodup)
    (hx : s.external = true → s'.external = true) (h1 : r'.completedPhases = s'.done)
    (h2 : r'.external = s'.external) : r'.Follows (some r) where
  nodup := h1 ▸ hn
  external l hl he := by
    obtain rfl := Option.some.inj hl
    rw [h2]
    exact hx (hc.recordExternal.symm.trans he)
  completedPhases := by
    rcases hd with hd | hd
    · exact .inl (h1.trans (hd.trans hc.recordPhases.symm))
    · exact .inr ⟨r, rfl, hc.recordStatus, by rw [h1, hd, hc.recordPhases, hc.recordPhase]⟩
  failed l hl he := by
    obtain rfl := Option.some.inj hl
    rw [hc.recordStatus] at he
    exact absurd he (by decide)

/-- What is to be known of the item before a record in progress of it is written. -/
structure Ahead (item : PlanItem) (a : Approved) (s : Progress) : Prop where
  approved : item.toApproved = a
  failed : item.failed = false
  completed : item.completed = s.done
  external : item.external = s.external
  retained : s.kept = true → item.retainedState = .retained

/-- A record in progress of an item that has not failed. -/
lemma inProgress_spec (h : Ahead item a s) (hn : s.done.Nodup)
    (hr : ∀ r : Record, r.completedPhases = s.done → r.external = s.external → r.status = .inProgress →
      r.Follows last) :
    Triple (Pending env i item last (Sound i s.passed))
      (journalWrite env i s.phase .inProgress none) (fun _ => Running env i a s) (Halted env) := by
  have hr' : ∀ r, RecordOf item s.phase .inProgress r → r.Follows last := fun r hrec =>
    hr r (hrec.completedPhases.trans h.completed) (hrec.external.trans h.external) hrec.status
  refine (journalWrite_spec Sound.published hr' (h.completed.symm ▸ hn)).post ?_
  rintro _ w ⟨c, r, hrec, hj, hp⟩
  refine ⟨PlanItem.journaled { item with scriptExit := none.or item.scriptExit } c s.phase, r,
    ?_, hp⟩
  exact ⟨h.approved, h.failed, hj, h.completed, rfl, h.external, h.retained,
    hrec.completedPhases.trans h.completed, hrec.phase, hrec.status,
    hrec.external.trans h.external⟩

lemma phaseStart_spec : Triple (Running env i a s) (phaseStart env phase)
    (fun _ => Running env i a (s.start phase)) (Halted env) := by
  refine Triple.of_exists fun item => Triple.of_exists fun r => Triple.of_imp fun hc => ?_
  rw [phaseStart, Cmd.guard_pos phase.length_text_lt.1, Cmd.pure_bind]
  refine Triple.get_bind fun w hw => ?_
  obtain ⟨hact, hcol, hex⟩ := hw.reads
  simp only [hact, if_true, hcol, Cmd.guard_pos, Cmd.pure_bind, hex, Cmd.ofOption_some]
  refine (planItem_spec.from_state hw).bind fun it => Triple.of_imp ?_
  rintro rfl
  rw [Cmd.guard_pos ⟨hc.failed, phase.length_text_lt.2⟩, Cmd.pure_bind]
  have hn : s.done.Nodup := hc.completed ▸ hw.inv.nodup i it hw.item_eq
  have ha : Ahead it a (s.start phase) :=
    ⟨hc.approved, hc.failed, hc.completed, hc.external, hc.retained⟩
  exact @inProgress_spec env i it (some r) a (s.start phase) ha hn fun r' h1 h2 _ =>
    hc.follows (s.start phase) (.inl rfl) hn id h1 h2

/-- The phase in progress is finished, if it was not before. -/
lemma phaseFinish_spec (hp : phase = s.phase) (hs : s.phase ∉ s.done) (hl : s.done.length < 16) :
    Triple (Running env i a s) (phaseFinish env phase) (fun _ => Running env i a s.finish)
      (Halted env) := by
  subst hp
  refine Triple.of_exists fun item => Triple.of_exists fun r => Triple.of_imp fun hc => ?_
  rw [phaseFinish, Cmd.guard_pos s.phase.length_text_lt.1, Cmd.pure_bind]
  refine Triple.get_bind fun w hw => ?_
  obtain ⟨hact, hcol, hex⟩ := hw.reads
  simp only [hact, if_true, hcol, Cmd.guard_pos, Cmd.pure_bind, hex, Cmd.ofOption_some]
  refine (planItem_spec.from_state hw).bind fun it => Triple.of_imp ?_
  rintro rfl
  have hd := hc.completed
  rw [Cmd.guard_pos ⟨hc.failed, hc.phase, hd ▸ hl.ne, s.phase.length_text_lt.2⟩, Cmd.pure_bind]
  have hn : s.finish.done.Nodup := by
    have h := hd ▸ hw.inv.nodup i it hw.item_eq
    simpa [Progress.finish, List.nodup_append, h] using fun p hp (he : p = s.phase) => hs (he ▸ hp)
  refine (updateItem_spec (by constructor <;> exact fun _ => rfl) (hd.symm ▸ hn)).bind fun _ => ?_
  have ha : Ahead { it with completed := it.completed ++ [s.phase] } a s.finish :=
    ⟨hc.approved, hc.failed, congrArg (· ++ [s.phase]) hd, hc.external, hc.retained⟩
  exact @inProgress_spec env i _ (some r) a s.finish ha hn fun r' h1 h2 _ =>
    hc.follows s.finish (.inr rfl) hn id h1 h2

/-- **Before an external process** the record that says so is published. -/
lemma externalStart_spec : Triple (Running env i a s) (externalStart env phase)
    (fun _ => Running env i a (s.externalStart phase)) (Halted env) := by
  refine Triple.of_exists fun item => Triple.of_exists fun r => Triple.of_imp fun hc => ?_
  refine Triple.get_bind fun w hw => ?_
  obtain ⟨hact, hcol, hex⟩ := hw.reads
  simp only [hact, if_true, hcol, Cmd.guard_pos, Cmd.pure_bind, hex, Cmd.ofOption_some]
  have hn := hw.inv.nodup i item hw.item_eq
  refine Triple.bind ((updateItem_spec (by constructor <;> exact fun _ => rfl) hn).from_state hw)
    fun _ => ?_
  rw [phaseStart, Cmd.guard_pos phase.length_text_lt.1, Cmd.pure_bind]
  refine Triple.get_bind fun w hw => ?_
  obtain ⟨hact, hcol, hex⟩ := hw.reads
  simp only [hact, if_true, hcol, Cmd.guard_pos, Cmd.pure_bind, hex, Cmd.ofOption_some]
  refine (planItem_spec.from_state hw).bind fun it => Triple.of_imp ?_
  rintro rfl
  rw [Cmd.guard_pos ⟨hc.failed, phase.length_text_lt.2⟩, Cmd.pure_bind]
  have ha : Ahead { item with external := true, scriptExit := none } a (s.externalStart phase) :=
    ⟨hc.approved, hc.failed, hc.completed, rfl, hc.retained⟩
  have hn' : s.done.Nodup := hc.completed ▸ hn
  exact @inProgress_spec env i _ (some r) a (s.externalStart phase) ha hn' fun r' h1 h2 _ =>
    hc.follows (s.externalStart phase) (.inl rfl) hn' (fun _ => rfl) h1 h2

end Phases

end Wpm.Operation
