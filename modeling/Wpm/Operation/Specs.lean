import Wpm.Operation.Journal

/-!
What the other functions of `operation.c` do to the invariant: a lemma for each.

The functions that only check something keep every assertion that other processes cannot break
(`Keeps`). The rest take the run from one of the assertions `Idle`, `Running` and `Halted` to
another.
-/

namespace Wpm.Operation

open Wpm.Lib.CString Wpm.Lib.Command

variable {env : Env}

section

variable {i : ℕ} {item : PlanItem} {r : Record} {last : Option Record} {T : List Event → Prop}
  {a : Approved} {s : Progress} {P : World → Prop}

lemma planItem_keeps : Keeps P (planItem i) := Keeps.get_bind fun _ _ => Keeps.ofOption

/-! ### Failures and completions -/

/-- A function that stops while an item is executed leaves the operation halted. -/
lemma Keeps.halted {α : Type} {c : Op α} (h : Keeps (Running env i a s) c) :
    Triple (Running env i a s) c (fun _ => Running env i a s) (Halted env) :=
  h.weaken (fun _ hw => hw) (fun _ _ hw => hw) fun _ hw => hw.halted

/-- The failed record of an item. -/
lemma journalFailed_spec {phase : Phase} {exitCode : Option ℕ} (hn : item.completed.Nodup)
    (hl : ∀ l, last = some l → l.completedPhases = item.completed ∧
      (l.external = true → item.external = true)) (hd : last = none → item.completed = []) :
    Triple (Pending env i item last fun _ => True) (journalWrite env i phase .failed exitCode)
      (fun _ => Halted env) (Halted env) := by
  have hr : ∀ r, RecordOf item phase .failed r → r.Follows last := by
    refine fun r hrec => ⟨hrec.completedPhases ▸ hn, fun l h he => ?_, .inl ?_, fun _ _ _ =>
      hrec.status⟩
    · rw [hrec.external]
      exact (hl l h).2 he
    · cases last with
      | none => exact hrec.completedPhases.trans (hd rfl)
      | some l => exact hrec.completedPhases.trans (hl l rfl).1.symm
  refine (journalWrite_spec (fun _ _ _ => trivial) hr hn).post ?_
  rintro _ w ⟨c, r, hrec, -, hp⟩
  refine hp.halted (hp.inv.settle fun item' hi _ => ?_)
  rw [hp.item_eq] at hi
  obtain rfl := Option.some.inj hi
  rw [hp.last_eq]
  exact ⟨hrec.completedPhases, fun he => hrec.external.symm.trans he⟩

/-- The item fails: what its last record says stays true of it. -/
lemma Pending.fail {w : World} (h : Pending env i item last T w) :
    Pending env i item last (fun _ => True) (w.emit (.failed i)) :=
  ⟨h.inv.emit_failed (h.executing ▸ Option.some_ne_none i) i, h.executing, h.item_eq, h.consumed,
    h.last_eq, trivial⟩

/-- `wpm_operation_script_result`: a script that fails leaves a failed record. -/
lemma scriptResult_spec {exitCode : ℕ} (hp : s.phase = .script) (hs : Phase.script ∉ s.done)
    (hl : s.done.length < 16) :
    Triple (Running env i a s) (scriptResult env exitCode)
      (fun _ w => if exitCode = 0 then Running env i a s.finish w else Halted env w)
      (Halted env) := by
  refine Triple.of_exists fun item => Triple.of_exists fun r => Triple.of_imp fun hc => ?_
  refine Triple.get_bind fun w hw => ?_
  obtain ⟨hact, -, hex⟩ := hw.reads
  simp only [hact, if_true, hex, Cmd.ofOption_some, Cmd.pure_bind]
  have hn := hw.inv.nodup i item hw.item_eq
  refine Triple.bind ((updateItem_spec (by constructor <;> exact fun _ => rfl) hn).from_state hw)
    fun _ => ?_
  by_cases hcode : exitCode = 0
  · subst hcode
    simp only [ne_eq, not_true, if_false, if_true]
    refine (phaseFinish_spec hp.symm (hp.symm ▸ hs) hl).pre fun w hw => ?_
    exact ⟨{ item with scriptExit := some 0 }, r, ⟨hc.approved, hc.failed, hc.journalFailed, hc.completed, hc.phase, hc.external,
      hc.retained, hc.recordPhases, hc.recordPhase, hc.recordStatus, hc.recordExternal⟩, hw⟩
  · simp only [ne_eq, hcode, not_false_eq_true, if_true, if_false]
    refine (updateItem_spec (by constructor <;> exact fun _ => rfl) hn).bind fun _ => ?_
    refine Triple.bind (Q := fun _ => Pending env i
      { item with scriptExit := some exitCode, failed := true } (some r) fun _ => True)
      (Triple.modify fun w hw => hw.fail) fun _ => ?_
    refine journalFailed_spec hn (fun l h => ?_) fun h => absurd h (Option.some_ne_none r)
    obtain rfl := Option.some.inj h
    exact ⟨hc.recordPhases.trans hc.completed.symm,
      fun he => hc.external.trans (hc.recordExternal.symm.trans he)⟩

/-- A completed item leaves the run idle. -/
lemma InvAt.complete {w : World} {digest : Bytes} (h : InvAt env (some i) w)
    (he : w.executing = some i) (hh : Healthy i w.trace)
    (hj : ∀ item, w.items[i]? = some item → item.journalFailed = false →
      Journaled item (lastRecord i w.trace)) :
    Idle env (World.emit (.completed i digest)
      { w with approvedState := digest, executing := none }) where
  executing := rfl
  inv :=
    { active := h.active
      history := .cons ⟨hh, trivial, fun _ => trivial, trivial⟩ h.history
      collected := h.collected
      executing := rfl
      current := fun j hj => absurd hj.symm (Option.some_ne_none j)
      fresh := h.fresh
      untouched := fun j hj => ⟨(h.untouched j hj).lastRecord,
        by simpa [World.emit] using (h.untouched j hj).passed,
        by simpa [World.emit] using (h.untouched j hj).consumed⟩
      alone := fun j call d hmem => by
        left
        rcases h.alone j call d (by simpa [World.emit] using hmem) with ⟨d', hd⟩ | hj
        · exact ⟨d', List.mem_cons_of_mem _ hd⟩
        · obtain rfl := Option.some.inj (he.symm.trans hj)
          exact ⟨digest, List.mem_cons_self⟩
      noFailure := fun _ => by simpa [World.emit, NoFailure] using hh.noFailure
      state := fun _ => rfl
      nodup := h.nodup
      kept := fun j item hj hr => by
        obtain ⟨f, hf, hl, hhash, ht⟩ := h.kept j item hj hr
        exact ⟨f, hf, hl, hhash, ht.cons _⟩
      journaled := fun j item _ hitem hf => (h.settle hj).journaled j item
        (Option.some_ne_none j).symm hitem hf }

lemma completed_spec (hp : s.passed = true) :
    Triple (Running env i a s) (completed env) (fun _ => Idle env) (Halted env) := by
  refine Triple.of_exists fun item => Triple.of_exists fun r => Triple.of_imp fun hc => ?_
  refine Triple.get_bind fun w hw => ?_
  obtain ⟨hact, hcol, hex⟩ := hw.reads
  simp only [hact, hcol, hex, and_self, if_true, Cmd.ofOption_some, Cmd.pure_bind]
  refine (planItem_spec.from_state hw).bind fun it => Triple.of_imp ?_
  rintro rfl
  have hn := hw.inv.nodup i it hw.item_eq
  have hr : ∀ r', RecordOf it it.completion.1 it.completion.2 r' → r'.Follows (some r) :=
    fun r' h => hc.follows s (.inl rfl) (hc.completed ▸ hn) id
      (h.completedPhases.trans hc.completed) (h.external.trans hc.external)
  refine (journalWrite_spec Sound.published hr hn).bind fun _ => ?_
  refine Triple.of_exists fun c => Triple.of_exists fun r' => Triple.of_imp fun hrec =>
    Triple.of_imp fun _ => ?_
  refine Triple.bind ((sample_keeps Pending.stable _).weaken (fun _ h => h) (fun _ _ h => h) ?_)
    fun digest => ?_
  · refine fun w hw => hw.halted (hw.inv.settle fun item' hi _ => ?_)
    rw [hw.item_eq] at hi
    obtain rfl := Option.some.inj hi
    rw [hw.last_eq]
    exact ⟨hrec.completedPhases, fun he => hrec.external.symm.trans he⟩
  · refine Triple.modify fun w hw => ?_
    refine hw.inv.complete hw.executing ⟨hw.inv.executing.symm.trans hw.executing,
      hw.trace.passed.2 hp, hw.trace.noFailure⟩ fun item' hi _ => ?_
    rw [hw.item_eq] at hi
    obtain rfl := Option.some.inj hi
    rw [hw.last_eq]
    exact ⟨hrec.completedPhases, fun he => hrec.external.symm.trans he⟩

/-- The process exits: an unfinished item gets a failed record. -/
lemma closeJournal_spec : Triple (fun w => Inv env w ∧ w.executing = some i) (closeJournal env i)
    (fun _ => Inv env) (Inv env) := by
  intro w ⟨hw, he⟩
  obtain ⟨-, item, hi, hc⟩ := hw.current i he
  have hp : Pending env i item (lastRecord i w.trace) (fun _ => True) w :=
    ⟨hw.weaken, he, hi, hc, rfl, trivial⟩
  have hT : Triple (· = w) (closeJournal env i) (fun _ => Inv env) (Inv env) := by
    refine Triple.bind (Q := fun it s => it = item ∧ s = w) (Triple.get_bind ?_) fun it =>
      Triple.of_imp ?_
    · rintro _ rfl
      rw [hi]
      exact Triple.pure fun s hs => ⟨rfl, hs⟩
    rintro rfl
    refine Triple.bind (Q := fun _ s => (it.journalStarted = true ∧ it.journalFailed = false) ∧
      s = w) (Triple.guard (fun hg s hs => ⟨hg, hs⟩) fun _ s hs => hs ▸ hw) fun _ => ?_
    refine Triple.of_imp fun hg => ?_
    refine Triple.bind (Q := fun _ s => s = w) (Triple.ofOption (fun _ _ s hs => hs)
      fun _ s hs => hs ▸ hw) fun phase => ?_
    have hj := hw.journaled i it (Option.some_ne_none i).symm hi hg.2
    refine ((journalFailed_spec (hw.nodup i it hi) (fun l hl => ?_) fun hn => ?_).from_state hp).weaken
      (fun _ hs => hs) (fun _ _ hs => hs.inv) fun _ hs => hs.inv
    · rw [hl] at hj
      exact hj
    · rw [hn] at hj
      exact hj.2
  exact hT w rfl

lemma close_spec : Triple (Inv env) (close env) (fun _ w => History (Admissible env) w.trace)
    (fun w => History (Admissible env) w.trace) := by
  refine Triple.get_bind fun w hw => ?_
  refine Triple.bind (Q := fun _ => Inv env) ?_ fun _ => Triple.modify fun s hs => hs.history
  refine (Triple.attempt (E := Inv env) (Q := fun _ => Inv env) ?_).post ?_
  · cases he : w.executing with
    | none => exact Triple.fail fun s hs => hs ▸ hw
    | some i => exact closeJournal_spec.from_state ⟨hw, he⟩
  · rintro (_ | _) s hs
    · exact hs
    · exact hs.elim fun _ h => h

/-! ### The held copy -/

/-- Neither other processes nor a change of files that are not held can break the assertion. -/
def Safe (P : World → Prop) : Prop := ∀ w d l t, P w →
  (∀ f ∈ w.locked, f ∈ l ∧ d.contents f = w.disk.contents f) →
  P { w with disk := d, locked := l, tick := t }

lemma Safe.stable (h : Safe P) : Stable env P := fun w hw =>
  h w (w.interfere env) w.locked (w.tick + 1) hw fun _ hf => ⟨hf, InvAt.contents_advance hf⟩

lemma Pending.safe : Safe (Pending env i item last T) := by
  intro w d l t h hk
  refine ⟨{ h.inv with kept := fun j it hj hr => ?_ }, h.executing, h.item_eq, h.consumed,
    h.last_eq, h.trace⟩
  obtain ⟨f, hf, hl, hhash, ht⟩ := h.inv.kept j it hj hr
  exact ⟨f, hf, (hk f hl).1, (congrArg env.hash (hk f hl).2).trans hhash, ht⟩

/-- The assertion holds, and the file is held besides what it speaks of. -/
def Beside (f : FileId) (P : World → Prop) (w : World) : Prop :=
  ∃ l, w.locked = f :: l ∧ f ∉ l ∧ P { w with locked := l }

lemma Beside.stable {f : FileId} (h : Safe P) : Stable env (Beside f P) := by
  rintro w ⟨l, hl, hf, hw⟩
  refine ⟨l, hl, hf, h { w with locked := l } (w.interfere env) l (w.tick + 1) hw ?_⟩
  exact fun g hg => ⟨hg, InvAt.contents_advance (hl ▸ List.mem_cons_of_mem _ hg)⟩

lemma copyFrom_keeps {f : FileId} {write : Work} {note : Bytes → Op Unit} {size : ℕ}
    (h : Stable env P) (hn : ∀ w, P w → Triple (· = w) (note (w.disk.contents f)) (fun _ => P) P) :
    ∀ fuel received, Keeps P (copyFrom env f write note size fuel received)
  | 0, _ => Triple.fail fun _ hw => hw
  | fuel + 1, received => by
    refine (advance_keeps h).bind fun _ => Triple.get_bind fun w hw => (hn w hw).bind fun _ => ?_
    refine Triple.ite (fun _ => Keeps.guard.bind fun _ => Triple.pure fun _ hs => hs) fun _ => ?_
    exact Keeps.guard.bind fun _ => (must_keeps h write).bind fun _ => copyFrom_keeps h hn fuel _

lemma copyFile_keeps {f : FileId} {write : Work} {note : Bytes → Op Unit} (h : Stable env P)
    (hn : ∀ w, P w → Triple (· = w) (note (w.disk.contents f)) (fun _ => P) P) :
    Keeps P (copyFile env f write note) :=
  (advance_keeps h).bind fun _ => Keeps.get_bind fun _ _ => copyFrom_keeps h hn _ _

lemma createInput_spec (h : Safe P) :
    Triple P (createInput env item) (fun output => Beside output P) P := by
  refine Triple.bind (must_keeps h.stable _) fun _ =>
    Triple.bind (sample_keeps h.stable _) fun output => Triple.get_bind fun w hw => ?_
  refine Triple.bind (Q := fun _ s => output ∉ w.locked ∧ s = w)
    (Triple.guard (fun hg s hs => ⟨hg, hs⟩) fun _ s hs => hs ▸ hw) fun _ => Triple.of_imp fun hg => ?_
  refine Triple.bind (Triple.modify (Q := fun _ => Beside output P) ?_) fun _ =>
    Triple.pure fun _ hs => hs
  rintro s rfl
  exact ⟨_, rfl, hg, h s _ s.locked s.tick hw fun f hf => ⟨hf, rfl⟩⟩

lemma fillInput_keeps {output : FileId} (h : Safe P) :
    Keeps (Beside output P) (fillInput env item output) := by
  refine (copyFile_keeps (Beside.stable h) fun w hw => Triple.pure fun _ hs => hs ▸ hw).bind
    fun bytes => ?_
  refine Keeps.bind (Triple.modify ?_) fun _ => (advance_keeps (Beside.stable h)).bind fun _ =>
    Keeps.get_bind fun _ _ => Keeps.guard.bind fun _ => must_keeps (Beside.stable h) _
  rintro w ⟨l, hl, hf, hw⟩
  refine ⟨l, hl, hf, h { w with locked := l } _ l w.tick hw fun g hg => ⟨hg, ?_⟩⟩
  exact Function.update_of_ne (by rintro rfl; exact hf hg) _ _

lemma unlock_spec {output : FileId} {E : World → Prop} :
    Triple (Beside output P) (unlock output) (fun _ => P) E := by
  refine Triple.modify ?_
  rintro w ⟨l, hl, -, hw⟩
  have he : w.locked.erase output = l := by rw [hl, List.erase_cons_head]
  rw [he]
  exact hw

/-- While the input is not retained yet, nothing is said of what is known of its copy. -/
lemma Current.withRetained {state : Retained} {input : Option FileId}
    (hc : Current item r a s) (kept : Bool) (hk : kept = true → state = .retained) :
    Current { item with retainedState := state, retainedInput := input } r a
      { s with kept := kept } :=
  ⟨hc.approved, hc.failed, hc.journalFailed, hc.completed, hc.phase, hc.external, hk,
    hc.recordPhases, hc.recordPhase, hc.recordStatus, hc.recordExternal⟩

lemma openCopy_spec {output : FileId} (hs : s.kept = false) (hc : Current item r a s)
    (hi : item.retainedState = .incomplete) :
    Triple (Pending env i item (some r) (Sound i s.passed)) (openCopy env i item output)
      (fun _ => Running env i a { s with kept := true }) (Running env i a s) := by
  have hsafe := @Pending.safe env i item (some r) (Sound i s.passed)
  have hstop : ∀ w, Pending env i item (some r) (Sound i s.passed) w → Running env i a s w :=
    fun w hw => ⟨item, r, hc, hw⟩
  refine Triple.bind ((openFile_keeps hsafe.stable _).weaken (fun _ h => h) (fun _ _ h => h) hstop)
    fun opened => ?_
  refine Triple.bind ((must_keeps hsafe.stable _).weaken (fun _ h => h) (fun _ _ h => h) hstop)
    fun _ => ?_
  refine Triple.bind (Q := fun _ w => Pending env i item (some r) (Sound i s.passed) w ∧
    opened ∈ w.locked) (Triple.modify fun w hw => ⟨hsafe w _ (opened :: w.locked) w.tick hw
      fun f hf => ⟨List.mem_cons_of_mem _ hf, rfl⟩, List.mem_cons_self⟩) fun _ => ?_
  set held : PlanItem := { item with retainedInput := some opened } with hheld
  set P : World → Prop := fun w => Pending env i held (some r) (Sound i s.passed) w ∧
    opened ∈ w.locked with hP
  have hstop' : ∀ w, P w → Running env i a s w := fun w hw =>
    ⟨held, r, hc.withRetained s.kept fun h => absurd (hs.symm.trans h) (by simp), hw.1⟩
  have hstable : Stable env P := fun w hw => ⟨Pending.stable w hw.1, hw.2⟩
  refine Triple.bind (Q := fun _ => P) (Triple.modify fun w hw => ⟨hw.1.change
    (fun item => { item with retainedInput := some opened }) (fun _ => rfl) (fun _ => rfl)
    (hw.1.inv.nodup i item hw.1.item_eq) fun h => ?_, hw.2⟩) fun _ => ?_
  · exact absurd (hi.symm.trans h) (by decide)
  refine Triple.bind (Keeps.guard.weaken (fun _ h => h) (fun _ _ h => h) hstop') fun _ => ?_
  refine Triple.bind ((advance_keeps hstable).weaken (fun _ h => h) (fun _ _ h => h) hstop')
    fun _ => Triple.get_bind fun w hw => ?_
  refine Triple.bind (Q := fun _ w' => env.hash (w.disk.contents opened) = item.fingerprint ∧ w' = w)
    (Triple.guard (fun hg w' hw' => ⟨hg, hw'⟩) fun _ w' hw' => hw' ▸ hstop' w hw) fun _ =>
      Triple.of_imp fun hg => ?_
  refine Triple.bind (Q := fun _ w' => Pending env i held (some r) (Sound i s.passed) w' ∧
    opened ∈ w'.locked ∧ env.hash (w'.disk.contents opened) = item.fingerprint ∧
    Copied i opened w'.trace) (Triple.modify ?_) fun _ => Triple.modify ?_
  · rintro _ rfl
    refine ⟨hw.1.emit_silent trivial ⟨trivial, trivial, fun _ => ⟨a, ?_, ?_⟩, trivial⟩, hw.2, hg, _,
      List.mem_cons_self⟩
    · rw [← hw.1.inv.collected, List.getElem?_map, hw.1.item_eq]
      exact congrArg some hc.approved
    · exact hg.trans (congrArg Approved.fingerprint hc.approved)
  · rintro w' ⟨hw', hl, hhash, ht⟩
    exact ⟨_, r, hc.withRetained true fun _ => rfl, hw'.change
      (fun item => { item with retainedState := .retained }) (fun _ => rfl) (fun _ => rfl)
      (hw'.inv.nodup i held hw'.item_eq) fun _ => ⟨opened, rfl, hl, hhash, ht⟩⟩

/-- **The input is retained**: what stays open has the approved fingerprint. -/
lemma retainCopy_spec (hs : s.kept = false) : Triple (Running env i a s) (retainCopy env i)
    (fun _ => Running env i a { s with kept := true }) (Running env i a s) := by
  refine Triple.of_exists fun item => Triple.of_exists fun r => Triple.of_imp fun hc => ?_
  have hkept : s.kept = true → False := fun h => Bool.false_ne_true (hs.symm.trans h)
  refine Triple.bind planItem_spec fun it => Triple.of_imp ?_
  rintro rfl
  refine Triple.bind ((must_keeps Pending.stable _).weaken (fun _ h => h) (fun _ _ h => h)
    fun w hw => ⟨it, r, hc, hw⟩) fun _ => ?_
  set part : PlanItem := { it with retainedState := .incomplete } with hpart
  have hc' : Current part r a s := hc.withRetained s.kept fun h => (hkept h).elim
  have hstop : ∀ w, Pending env i part (some r) (Sound i s.passed) w → Running env i a s w :=
    fun w hw => ⟨part, r, hc', hw⟩
  have hsafe := @Pending.safe env i part (some r) (Sound i s.passed)
  refine Triple.bind (Q := fun _ => Pending env i part (some r) (Sound i s.passed))
    (Triple.modify fun w hw => hw.change (fun item => { item with retainedState := .incomplete })
      (fun _ => rfl) (fun _ => rfl) (hw.inv.nodup i it hw.item_eq) fun h => nomatch h) fun _ => ?_
  refine Triple.bind ((createInput_spec hsafe).weaken (fun _ h => h) (fun _ _ h => h) hstop)
    fun output => ?_
  refine Triple.bind (Triple.onFail (fillInput_keeps hsafe) (unlock_spec.post fun _ => hstop))
    fun _ => Triple.bind unlock_spec fun _ => ?_
  exact openCopy_spec hs hc' rfl

lemma retainInput_spec (hs : s.kept = false) : Triple (Running env i a s) (retainInput env i)
    (fun _ => Running env i a { s with kept := true }) (Halted env) := by
  refine Triple.onFail (retainCopy_spec hs) ?_
  refine Triple.of_exists fun item => Triple.of_exists fun r => Triple.of_imp fun hc => ?_
  intro w hw
  have hn := hw.inv.nodup i item hw.item_eq
  have hT : Triple (Pending env i item (some r) (Sound i s.passed)) (do
      updateItem i fun item => { item with failed := true }
      emit (.failed i)
      journalWrite env i .retainInput .failed none) (fun _ => Halted env) (Halted env) := by
    refine Triple.bind (updateItem_spec (by constructor <;> exact fun _ => rfl) hn) fun _ => ?_
    refine Triple.bind (Q := fun _ => Pending env i { item with failed := true } (some r)
      fun _ => True) (Triple.modify fun w hw => hw.fail) fun _ => ?_
    refine journalFailed_spec hn (fun l h => ?_) fun h => absurd h (Option.some_ne_none r)
    obtain rfl := Option.some.inj h
    exact ⟨hc.recordPhases.trans hc.completed.symm,
      fun he => hc.external.trans (hc.recordExternal.symm.trans he)⟩
  exact hT w hw

end

end Wpm.Operation
