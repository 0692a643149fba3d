import Wpm.Operation.Specs

/-!
How a plan is collected, confirmed and taken up: `wpm_operation_begin`, `wpm_operation_archive` and
`wpm_operation_confirm`.

A call of `wpm_operation_archive` that succeeds either registers an item or finds one that was
approved, and then the run is in the state `Running` of that item.
-/

namespace Wpm.Operation

open Wpm.Lib.CString Wpm.Lib.Command

variable {env : Env}

/-! ### Collecting -/

/-- The state between two operations, with the variables of the plan as in `w₀`. -/
structure Still (env : Env) (w₀ w : World) : Prop where
  idle : Idle env w
  items : w.items = w₀.items
  collecting : w.collecting = w₀.collecting
  approvedState : w.approvedState = w₀.approvedState

lemma Still.stable {w₀ : World} : Stable env (Still env w₀) := fun w h =>
  ⟨Idle.stable w h.idle, h.items, h.collecting, h.approvedState⟩

lemma planRecoveryPath_keeps {P : World → Prop} (h : Stable env P) :
    Keeps P (planRecoveryPath env) :=
  Keeps.ofOption.bind fun _ => (sample_keeps h _).bind fun _ => Keeps.guard.bind fun _ =>
    Triple.pure fun _ hs => hs

/-- A collected item is untouched. -/
lemma Idle.collect {w : World} {a : Approved} {f : FileId} {allowUnsigned : Bool} {seen : Seen}
    (h : Idle env w) (hcol : w.collecting = true) (hseen : seen.Yields env a allowUnsigned) :
    Idle env (World.emit (.collected a allowUnsigned seen)
      { w with items := w.items ++ [PlanItem.collect a], locked := f :: w.locked }) := by
  have hnew : ∀ {j : ℕ} {item : PlanItem}, (w.items ++ [PlanItem.collect a])[j]? = some item →
      w.items[j]? = some item ∨ w.items[j]? = none ∧ item = PlanItem.collect a := by
    intro j item hj
    rw [List.getElem?_append] at hj
    split at hj
    · exact .inl hj
    · refine .inr ⟨List.getElem?_eq_none (not_lt.1 ‹_›), ?_⟩
      exact List.mem_singleton.1 (List.mem_of_getElem? hj)
  have hmem : ∀ {e : Event} {before : List Event}, (∀ b s, e ≠ .collected b allowUnsigned s) →
      (e ∈ .collected a allowUnsigned seen :: before ↔ e ∈ before) := fun he =>
    List.mem_cons.trans (or_iff_right (he a seen))
  refine ⟨?_, h.executing⟩
  exact
    { active := h.inv.active
      history := .cons ⟨trivial, trivial, fun _ => trivial, hseen⟩ h.inv.history
      collected := by
        rw [World.emit, List.map_append, h.inv.collected]
        rfl
      executing := h.inv.executing
      current := fun j hj => absurd (h.executing.symm.trans hj) (Option.some_ne_none j).symm
      fresh := fun j item hj hc => by
        rcases hnew hj with hj | ⟨-, rfl⟩
        · exact h.inv.fresh j item hj hc
        · rfl
      untouched := fun j hj => by
        have hu := h.inv.untouched j fun item hi => hj item
          ((List.getElem?_append_left (List.getElem?_eq_some_iff.1 hi).1).trans hi)
        exact ⟨hu.lastRecord, mt (hmem (by simp)).1 hu.passed,
          fun call d => mt (hmem (by simp)).1 (hu.consumed call d)⟩
      alone := fun j call d hj => (h.inv.alone j call d ((hmem (by simp)).1 hj)).imp_left
        (Exists.imp fun _ => List.mem_cons_of_mem _)
      noFailure := fun hn i => mt (hmem (by simp)).1 (h.inv.noFailure hn i)
      state := fun hc => absurd (hcol.symm.trans hc) (by simp)
      nodup := fun j item hj => by
        rcases hnew hj with hj | ⟨-, rfl⟩
        · exact h.inv.nodup j item hj
        · exact List.nodup_nil
      kept := fun j item hj hr => by
        rcases hnew hj with hj | ⟨-, rfl⟩
        · obtain ⟨g, hg, hl, hhash, ht⟩ := h.inv.kept j item hj hr
          exact ⟨g, hg, List.mem_cons_of_mem _ hl, hhash, ht.cons _⟩
        · exact absurd hr (by simp [PlanItem.collect])
      journaled := fun j item hp hj hf => by
        rcases hnew hj with hj | ⟨hnone, rfl⟩
        · exact h.inv.journaled j item hp hj hf
        · have hu := h.inv.untouched j fun item hi =>
            absurd (hnone.symm.trans hi) (Option.some_ne_none item).symm
          have hlast : lastRecord j (.collected a allowUnsigned seen :: w.trace) = none :=
            hu.lastRecord
          simp only [World.emit, hlast]
          exact ⟨rfl, rfl⟩ }

lemma collectItem_spec {w₀ : World} {action : Action} {full : Bytes}
    {oldVersion source : Option Bytes} {allowUnsigned : Bool} {hashed : Bytes}
    (hcol : w₀.collecting = true) :
    Triple (Still env w₀) (collectItem env action full oldVersion source allowUnsigned hashed)
      (fun _ w => Idle env w ∧ w.collecting = true) (Inv env) := by
  have hE : ∀ w, Still env w₀ w → Inv env w := fun w hw => hw.idle.inv
  have hk : ∀ {α : Type} {c : Op α}, Keeps (Still env w₀) c →
      Triple (Still env w₀) c (fun _ => Still env w₀) (Inv env) :=
    fun h => h.weaken (fun _ hw => hw) (fun _ _ hw => hw) hE
  have hopt : ∀ {α : Type} (o : Option α), Triple (Still env w₀) (Cmd.ofOption o)
      (fun x s => o = some x ∧ Still env w₀ s) (Inv env) :=
    fun _ => Triple.ofOption (fun _ ho _ hs => ⟨ho, hs⟩) fun _ s hs => hE s hs
  refine Triple.get_bind fun w hw => ?_
  refine Triple.pre ?_ (P := Still env w₀) fun s hs => hs ▸ hw
  refine Triple.bind (hk Keeps.guard) fun _ => Triple.bind (hk Keeps.guard) fun _ => ?_
  refine Triple.bind (hk (watch_keeps Still.stable _)) fun inspected => ?_
  refine (hopt (env.inspect inspected)).bind fun identity => Triple.of_imp fun hinspect => ?_
  refine Triple.bind (hk (watch_keeps Still.stable _)) fun validated => ?_
  refine (hopt (env.validate allowUnsigned validated)).bind fun signingKey =>
    Triple.of_imp fun hvalidate => ?_
  refine Triple.bind (hk (planRecoveryPath_keeps Still.stable)) fun ⟨recoveryId, retained⟩ => ?_
  refine Triple.bind (hk (openFile_keeps Still.stable _)) fun f => ?_
  refine Triple.bind (hk (must_keeps Still.stable _)) fun _ => ?_
  refine Triple.modify fun w hw => ?_
  have hc := hw.collecting.trans hcol
  exact ⟨hw.idle.collect hc ⟨rfl, hinspect, hvalidate⟩, hc⟩

/-! ### Taking up an item -/

/-- How far an item has come when its call gets past `wpm_operation_archive`. -/
def Progress.passed₀ : Progress := ⟨true, true, [.retainInput], .retainInput, false⟩

section Consume

variable {i : ℕ} {item : PlanItem} {call : Call} {digest : Bytes} {w : World}

/-- An item that is taken up: nothing was done with it before, and all others are completed. -/
lemma Idle.consume (h : Idle env w) (hcol : w.collecting = false)
    (hi : w.items[i]? = some item) (hc : item.consumed = false)
    (hask : call.AsksFor item.toApproved) (hd : w.approvedState = digest) :
    Pending env i item.consume none (Sound i false) (w.consume i call digest) := by
  have hget : ∀ j, (w.items.modify i PlanItem.consume)[j]? =
      w.items[j]?.map fun item => if i = j then item.consume else item :=
    fun j => InvAt.getElem?_updateItem _ j
  have hnew : ∀ {j : ℕ} {it : PlanItem}, (w.items.modify i PlanItem.consume)[j]? = some it →
      i = j ∧ it = item.consume ∨ i ≠ j ∧ w.items[j]? = some it := by
    intro j it hj
    rw [hget, Option.map_eq_some_iff] at hj
    obtain ⟨old, hold, rfl⟩ := hj
    by_cases hij : i = j
    · subst hij
      rw [hi] at hold
      obtain rfl := Option.some.inj hold
      exact .inl ⟨rfl, if_pos rfl⟩
    · exact .inr ⟨hij, by rw [if_neg hij]; exact hold⟩
  have hfresh := h.inv.fresh i item hi hc
  have hu := h.inv.untouched i fun it hit => by
    rw [hi] at hit
    exact Option.some.inj hit ▸ hc
  have hmem : ∀ {e : Event}, (∀ c d, e ≠ .consumed i c d) →
      (e ∈ .consumed i call digest :: w.trace ↔ e ∈ w.trace) := fun he =>
    List.mem_cons.trans (or_iff_right (he call digest))
  have hi' : (w.items.modify i PlanItem.consume)[i]? = some item.consume := by
    rw [hget, hi]
    simp
  have halone : ∀ j c d, .consumed j c d ∈ w.trace → ∃ st, .completed j st ∈ w.trace := by
    intro j c d hj
    refine (h.inv.alone j c d hj).resolve_right fun he => ?_
    exact Option.some_ne_none j (he.symm.trans h.executing)
  refine ⟨?_, rfl, hi', rfl, hu.lastRecord, ?_, ?_⟩
  · exact
      { active := h.inv.active
        history := by
          refine .cons ⟨⟨⟨item.toApproved, ?_, hask⟩, ?_, hu.consumed, halone⟩, trivial,
            fun _ => trivial, trivial⟩ h.inv.history
          · rw [← h.inv.collected, List.getElem?_map, hi]
            rfl
          · rw [h.inv.state hcol, hd]
        collected := by
          refine Eq.trans ?_ h.inv.collected
          refine List.ext_getElem? fun j => ?_
          rw [List.getElem?_map, List.getElem?_map, World.consume, hget, Option.map_map]
          refine congrArg (fun g => Option.map g w.items[j]?) (funext fun it => ?_)
          by_cases hij : i = j
          · rw [Function.comp_apply, if_pos hij]
            rfl
          · rw [Function.comp_apply, if_neg hij]
        executing := rfl
        current := fun j hj => by
          obtain rfl := Option.some.inj hj
          exact ⟨hcol, _, hi', rfl⟩
        fresh := fun j it hj hit => by
          rcases hnew hj with ⟨-, rfl⟩ | ⟨-, hj⟩
          · exact nomatch hit
          · exact h.inv.fresh j it hj hit
        untouched := fun j hj => by
          have hij : i ≠ j := by
            rintro rfl
            exact nomatch hj _ hi'
          have hu := h.inv.untouched j fun it hit => hj it <| by
            rw [World.consume, hget, hit]
            simp [hij]
          refine ⟨hu.lastRecord, mt (hmem (by simp)).1 hu.passed, fun c d => ?_⟩
          refine mt (hmem fun c' d' he => hij ?_).1 (hu.consumed c d)
          cases he
          rfl
        alone := fun j c d hj => by
          rcases List.mem_cons.1 hj with he | hj
          · cases he
            exact .inr rfl
          · obtain ⟨st, hst⟩ := halone j c d hj
            exact .inl ⟨st, List.mem_cons_of_mem _ hst⟩
        noFailure := fun hn => absurd hn (Option.some_ne_none i)
        state := h.inv.state
        nodup := fun j it hj => by
          rcases hnew hj with ⟨-, rfl⟩ | ⟨-, hj⟩
          · exact h.inv.nodup i item hi
          · exact h.inv.nodup j it hj
        kept := fun j it hj hr => by
          rcases hnew hj with ⟨-, rfl⟩ | ⟨-, hj⟩
          · rw [hfresh] at hr
            exact nomatch hr
          · obtain ⟨f, hf, hl, hhash, ht⟩ := h.inv.kept j it hj hr
            exact ⟨f, hf, hl, hhash, ht.cons _⟩
        journaled := fun j it hp hj hf => by
          rcases hnew hj with ⟨rfl, -⟩ | ⟨-, hj⟩
          · exact absurd rfl hp
          · exact h.inv.journaled j it (Option.some_ne_none j).symm hj hf }
  · exact fun j => mt (hmem (by simp)).1 (h.inv.noFailure h.executing j)
  · exact ⟨fun hp => absurd ((hmem (by simp)).1 hp) hu.passed, fun hp => absurd hp (by simp)⟩

/-- **The matched item**: its first record is published, its input is retained, and the call gets
past. -/
lemma consume_spec : Triple (fun w => Idle env w ∧ w.collecting = false ∧
      w.items[i]? = some item ∧ item.consumed = false ∧ call.AsksFor item.toApproved ∧
      w.approvedState = digest) (consume env i call digest)
    (fun _ => Running env i item.toApproved .passed₀) (Inv env) := by
  by_cases hc : item = PlanItem.collect item.toApproved
  swap
  · intro w ⟨h, _, hi, hcons, _⟩
    exact absurd (h.inv.fresh i item hi hcons) hc
  refine Triple.bind (Triple.modify fun w ⟨h, hcol, hi, hcons, hask, hd⟩ =>
    h.consume hcol hi hcons hask hd) fun _ => ?_
  let s : Progress := ⟨false, false, [], .retainInput, false⟩
  have ha : Ahead item.consume item.toApproved s := by
    rw [hc]
    exact ⟨rfl, rfl, rfl, rfl, fun h => nomatch h⟩
  have hE : ∀ w, Halted env w → Inv env w := fun w hw => hw.inv
  refine Triple.bind ((inProgress_spec ha List.nodup_nil fun r h1 _ _ => ?_).weaken
    (fun _ h => h) (fun _ _ h => h) hE) fun _ => ?_
  · exact ⟨h1 ▸ List.nodup_nil, fun l h => (nomatch h), .inl h1, fun l h => (nomatch h)⟩
  refine Triple.bind ((retainInput_spec rfl).weaken (fun _ h => h) (fun _ _ h => h) hE) fun _ => ?_
  refine Triple.bind ((phaseFinish_spec rfl (by decide) (by decide)).weaken (fun _ h => h)
    (fun _ _ h => h) hE) fun _ => ?_
  refine Triple.modify fun w hw => ?_
  obtain ⟨it, r, hcur, hp⟩ := hw
  have hpass : .passed i ∉ w.trace := fun h => Bool.false_ne_true (hp.trace.passed.1 h)
  refine ⟨it, r, ⟨hcur.approved, hcur.failed, hcur.journalFailed, hcur.completed, hcur.phase,
    hcur.external, hcur.retained, hcur.recordPhases, hcur.recordPhase, hcur.recordStatus,
    hcur.recordExternal⟩, hp.inv.emit_passed hp.executing hpass, hp.executing, hp.item_eq,
    hp.consumed, hp.last_eq, ?_, ?_⟩
  · simpa [NoFailure, World.emit] using hp.trace.noFailure
  · simp [World.emit]; rfl

/-- The run is in the state of an item that was approved for what the call asks for. -/
def TakenUp (env : Env) (action : Action) (full source oldVersion : Bytes) (w : World) : Prop :=
  ∃ i a, (a.action = action ∧ fold a.archive = fold full ∧ a.source = source ∧
    a.oldVersion = oldVersion) ∧ Running env i a .passed₀ w

lemma consumeFrom_spec {action : Action} {full source oldVersion fingerprint : Bytes}
    {w₀ : World} (hcol : w₀.collecting = false) (hd : w₀.approvedState = digest) :
    ∀ {l : List (PlanItem × ℕ)}, (∀ p ∈ l, w₀.items[p.2]? = some p.1) →
    Triple (Still env w₀) (consumeFrom env action full source oldVersion fingerprint digest l)
      (fun _ => TakenUp env action full source oldVersion) (Inv env)
  | [], _ => Triple.fail fun _ hw => hw.idle.inv
  | (item, i) :: l, hl => by
    have ih : Triple (Still env w₀)
        (consumeFrom env action full source oldVersion fingerprint digest l)
        (fun _ => TakenUp env action full source oldVersion) (Inv env) :=
      consumeFrom_spec hcol hd fun p hp => hl p (List.mem_cons_of_mem _ hp)
    rw [consumeFrom]
    refine Triple.ite (fun hm => ?_) fun _ => ih
    obtain ⟨hc, haction, harchive, hsource, hold, hfp⟩ := hm
    refine Triple.bind ((identityAt_keeps Still.stable _).weaken (fun _ h => h) (fun _ _ h => h)
      fun _ hw => hw.idle.inv) fun identity => ?_
    cases identity with
    | none => exact ih
    | some fileIdentity =>
      refine Triple.ite (fun hid => ?_) fun _ => ih
      refine consume_spec.weaken (fun w hw => ⟨hw.idle, hw.collecting.trans hcol,
        hw.items ▸ hl _ List.mem_cons_self, hc, ?_, hw.approvedState.trans hd⟩)
        (fun _ w hw => ⟨i, _, ⟨haction, harchive, hsource, hold⟩, hw⟩) fun _ h => h
      exact ⟨haction.symm, harchive.symm, hsource.symm, hold.symm, hfp.symm, hid⟩

end Consume

/-- The call has consumed the item. -/
lemma TakenUp.gotPast {action : Action} {full source oldVersion : Bytes} {w : World}
    (h : TakenUp env action full source oldVersion w) :
    ∃ i, GotPast i action full source oldVersion w.trace := by
  obtain ⟨i, a, ⟨haction, harchive, hsource, hold⟩, item, r, hcurrent, hp⟩ := h
  have hunfinished : unfinished w.trace = some i := hp.inv.executing.symm.trans hp.executing
  obtain ⟨call, digest, hmem⟩ := exists_consumed_of_unfinished hunfinished
  obtain ⟨before, hbefore, hadmits⟩ := hp.inv.history.of_mem hmem
  obtain ⟨a', ha', hask⟩ := hadmits.linear.approved
  have hitem : (collectedItems w.trace)[i]? = some a := by
    rw [← hp.inv.collected, List.getElem?_map, hp.item_eq, Option.map_some, hcurrent.approved]
  obtain rfl : a' = a := Option.some.inj ((getElem?_collectedItems_of_suffix hbefore ha').symm.trans hitem)
  exact ⟨i, ⟨call, digest, hmem, hask.action.trans haction, hask.archive.trans harchive,
    hask.source.trans hsource, hask.oldVersion.trans hold⟩, hunfinished, hp.trace.passed.2 rfl⟩

/-- What a call of `wpm_operation_archive` that succeeds leaves: a registered item, or one that is
executed. -/
def Admitted (env : Env) (action : Action) (path : Bytes) (oldVersion source : Option Bytes)
    (w : World) : Prop :=
  Idle env w ∧ w.collecting = true ∨
    ∃ full, env.fullPath path = some full ∧
      TakenUp env action full (sourceOr source full) (oldVersion.getD (str "none")) w

/-- The source of a call: the one that was selected, if there is one. -/
def World.sourceOf (w : World) (source : Option Bytes) : Option Bytes :=
  if w.selectedSource = [] then source else some w.selectedSource

lemma archive_spec {action : Action} {path : Bytes} {oldVersion source from' : Option Bytes}
    {allowUnsigned : Bool} :
    Triple (fun w => Inv env w ∧ w.sourceOf source = from')
      (archive env action path oldVersion source allowUnsigned)
      (fun _ => Admitted env action path oldVersion from') (Inv env) := by
  refine Triple.get_bind fun w ⟨hw, hfrom⟩ => ?_
  subst hfrom
  simp only [hw.active, if_true]
  refine Triple.bind (Q := fun _ s => w.executing = none ∧ s = w)
    (Triple.guard (fun hg s hs => ⟨hg, hs⟩) fun _ s hs => hs ▸ hw) fun _ => Triple.of_imp fun hex => ?_
  have hstill : Still env w w := ⟨⟨hw, hex⟩, rfl, rfl, rfl⟩
  have hE : ∀ s, Still env w s → Inv env s := fun s hs => hs.idle.inv
  refine Triple.pre ?_ (P := Still env w) fun s hs => hs ▸ hstill
  refine Triple.bind (Q := fun full s => env.fullPath path = some full ∧ Still env w s)
    (Triple.ofOption (fun full hfull s hs => ⟨hfull, hs⟩) fun _ s hs => hE s hs) fun full =>
      Triple.of_imp fun hfull => ?_
  refine Triple.bind ((hashFile_keeps Still.stable _).weaken (fun _ h => h) (fun _ _ h => h) hE)
    fun bytes => Triple.ite (fun hcol => ?_) fun hcol => ?_
  · exact (collectItem_spec hcol).post fun _ s hs => .inl hs
  · refine Triple.bind ((stateDigest_keeps Still.stable).weaken (fun _ h => h) (fun _ _ h => h) hE)
      fun state => ?_
    refine Triple.bind (Q := fun _ s => state = w.approvedState ∧ Still env w s)
      (Triple.guard (fun hg s hs => ⟨hg, hs⟩) fun _ s hs => hE s hs) fun _ =>
        Triple.of_imp fun hd => ?_
    refine (consumeFrom_spec (Bool.eq_false_iff.2 hcol) hd.symm fun p hp => ?_).post
      fun _ s hs => .inr ⟨full, hfull, hs⟩
    exact List.mem_zipIdx_iff_getElem?.1 hp

/-! ### Beginning and confirming -/

lemma begin_idle (disk : Disk) (yes : Bool) : Idle env (begin env yes (World.start disk)).2 where
  executing := rfl
  inv :=
    { active := rfl
      history := .nil
      collected := rfl
      executing := rfl
      current := fun _ hi => nomatch hi
      fresh := fun _ _ hi => nomatch hi
      untouched := fun _ _ => ⟨rfl, List.not_mem_nil, fun _ _ => List.not_mem_nil⟩
      alone := fun _ _ _ hi => nomatch hi
      noFailure := fun _ _ => List.not_mem_nil
      state := fun hc => nomatch hc
      nodup := fun _ _ hi => nomatch hi
      kept := fun _ _ hi => nomatch hi
      journaled := fun _ _ _ hi => nomatch hi }

lemma setSource_keeps {source : Option Bytes} : Keeps (Inv env) (setSource source) :=
  Triple.modify fun _ h => { h with }

/-- The plan is collected, the state digest to be approved is known, and some of the items were
hashed again. -/
structure Confirming (env : Env) (items : List PlanItem) (digest : Bytes)
    (rechecked : List (PlanItem × ℕ)) (w : World) : Prop where
  idle : Idle env w
  items : w.items = items
  collecting : w.collecting = true
  approvedState : w.approvedState = digest
  rechecked : ∀ p ∈ rechecked, Rechecked env p.2 p.1.toApproved w.trace

section Confirm

variable {items : List PlanItem} {digest : Bytes} {rechecked : List (PlanItem × ℕ)}

lemma Confirming.stable : Stable env (Confirming env items digest rechecked) := fun w h =>
  ⟨Idle.stable w h.idle, h.items, h.collecting, h.approvedState, h.rechecked⟩

lemma Confirming.inv {w : World} (h : Confirming env items digest rechecked w) : Inv env w :=
  h.idle.inv

/-- The file of an item is hashed again. -/
lemma Confirming.recheck {w : World} {i : ℕ} {bytes : Bytes}
    (h : Confirming env items digest rechecked w) :
    Confirming env items digest rechecked (w.emit (.rechecked i bytes)) where
  idle := ⟨h.idle.inv.emit_silent trivial ⟨trivial, trivial, fun _ => trivial, trivial⟩,
    h.idle.executing⟩
  items := h.items
  collecting := h.collecting
  approvedState := h.approvedState
  rechecked p hp := (h.rechecked p hp).imp fun _ hb => ⟨List.mem_cons_of_mem _ hb.1, hb.2⟩

/-- **Every item** is hashed again. -/
lemma recheckFrom_spec : ∀ {l : List (PlanItem × ℕ)} {rechecked : List (PlanItem × ℕ)},
    Triple (Confirming env items digest rechecked) (recheckFrom env l)
      (fun _ => Confirming env items digest (rechecked ++ l)) (Inv env)
  | [], rechecked => by
    rw [List.append_nil]
    exact Triple.pure fun _ h => h
  | (item, i) :: l, rechecked => by
    have hk : ∀ {α : Type} {c : Op α}, Keeps (Confirming env items digest rechecked) c →
        Triple (Confirming env items digest rechecked) c
          (fun _ => Confirming env items digest rechecked) (Inv env) :=
      fun h => h.weaken (fun _ hw => hw) (fun _ _ hw => hw) fun _ => Confirming.inv
    refine (hk (identityAt_keeps Confirming.stable _)).bind fun _ => ?_
    refine (hk Keeps.guard).bind fun _ => ?_
    refine (hk (hashFile_keeps Confirming.stable _)).bind fun bytes => ?_
    refine Triple.bind (Q := fun _ w => .rechecked i bytes ∈ w.trace ∧
      Confirming env items digest rechecked w)
      (Triple.modify fun w h => ⟨List.mem_cons_self, h.recheck⟩) fun _ => ?_
    refine Triple.bind (Q := fun _ => Confirming env items digest (rechecked ++ [(item, i)]))
      (Triple.guard (fun hg w hw => ?_) fun _ w hw => hw.2.inv) fun _ => ?_
    · refine ⟨hw.2.idle, hw.2.items, hw.2.collecting, hw.2.approvedState, fun p hp => ?_⟩
      rcases List.mem_append.1 hp with hp | hp
      · exact hw.2.rechecked p hp
      · obtain rfl := List.mem_singleton.1 hp
        exact ⟨bytes, hw.1, hg⟩
    · have ih := @recheckFrom_spec l (rechecked ++ [(item, i)])
      rwa [List.append_assoc] at ih

end Confirm

lemma askApproval_keeps {P : World → Prop} (h : Stable env P) (w : World) :
    Keeps P (askApproval env w) :=
  Triple.ite (fun _ => must_keeps h _) fun _ => Triple.pure fun _ hs => hs

lemma confirm_keeps : Keeps (Inv env) (confirm env) := by
  refine Triple.get_bind fun w hw => ?_
  refine Triple.bind (Q := fun _ s => w.collecting = true ∧ s = w)
    (Triple.guard (fun hg s hs => ⟨hg.2, hs⟩) fun _ s hs => hs ▸ hw) fun _ =>
      Triple.of_imp fun hcol => ?_
  have hidle : Idle env w := by
    refine ⟨hw, ?_⟩
    cases he : w.executing with
    | none => rfl
    | some i => exact absurd (hcol.symm.trans (hw.current i he).1) (by simp)
  have hE : ∀ s, Still env w s → Inv env s := fun s hs => hs.idle.inv
  have hstill : Still env w w := ⟨hidle, rfl, rfl, rfl⟩
  refine Triple.pre ?_ (P := Still env w) fun s hs => hs ▸ hstill
  refine Triple.bind ((stateDigest_keeps Still.stable).weaken (fun _ h => h) (fun _ _ h => h) hE)
    fun digest => ?_
  have hk : ∀ {α : Type} {c : Op α}, Keeps (Confirming env w.items digest []) c →
      Triple (Confirming env w.items digest []) c
        (fun _ => Confirming env w.items digest []) (Inv env) :=
    fun h => h.weaken (fun _ hw => hw) (fun _ _ hw => hw) fun _ => Confirming.inv
  have hset : ∀ {s : World} {a p : Bytes}, Idle env s → s.collecting = true →
      Idle env { s with approvedState := a, approvedPlan := p } := fun h hc =>
    ⟨{ h.inv with state := fun hf => absurd (hc.symm.trans hf) (by simp) }, h.executing⟩
  refine Triple.bind (Q := fun _ => Confirming env w.items digest []) (Triple.modify fun s hs =>
    ⟨hset hs.idle (hs.collecting.trans hcol), hs.items, hs.collecting.trans hcol, rfl,
      fun _ hp => absurd hp List.not_mem_nil⟩) fun _ => ?_
  refine Triple.bind (hk Keeps.ofOption) fun _ => ?_
  refine Triple.bind (Q := fun _ => Confirming env w.items digest []) (Triple.modify fun s hs =>
    ⟨hset hs.idle hs.collecting, hs.items, hs.collecting, hs.approvedState, hs.rechecked⟩)
    fun _ => ?_
  refine Triple.bind (hk Keeps.guard) fun _ => ?_
  refine Triple.bind (hk (askApproval_keeps Confirming.stable _)) fun _ => ?_
  refine Triple.bind (hk (stateDigest_keeps Confirming.stable)) fun _ => ?_
  refine Triple.bind (hk Keeps.guard) fun _ => Triple.bind recheckFrom_spec fun _ => ?_
  refine Triple.modify fun s hs => ?_
  have hchecked : ∀ i a, (collectedItems s.trace)[i]? = some a → Rechecked env i a s.trace := by
    intro i a hi
    rw [← hs.idle.inv.collected, List.getElem?_map, Option.map_eq_some_iff] at hi
    obtain ⟨item, hitem, rfl⟩ := hi
    refine hs.rechecked (item, i) ?_
    rw [List.nil_append, List.mem_zipIdx_iff_getElem?, ← hs.items]
    exact hitem
  exact
    { hs.idle.inv with
      history := .cons ⟨trivial, trivial, fun _ => trivial, hchecked⟩ hs.idle.inv.history
      current := fun i hi => absurd (hs.idle.executing.symm.trans hi) (Option.some_ne_none i).symm
      untouched := fun j hj => ⟨(hs.idle.inv.untouched j hj).lastRecord,
        by simpa [World.emit] using (hs.idle.inv.untouched j hj).passed,
        by simpa [World.emit] using (hs.idle.inv.untouched j hj).consumed⟩
      alone := fun j c d hj => by
        simpa [World.emit] using hs.idle.inv.alone j c d (by simpa [World.emit] using hj)
      noFailure := fun hn => by simpa [World.emit, NoFailure] using hs.idle.inv.noFailure hn
      state := fun _ => congrArg some hs.approvedState.symm
      kept := fun j item hj hr => by
        obtain ⟨f, hf, hl, hhash, ht⟩ := hs.idle.inv.kept j item hj hr
        exact ⟨f, hf, hl, hhash, ht.cons _⟩ }

end Wpm.Operation
