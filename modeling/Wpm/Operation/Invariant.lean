import Wpm.Operation.History

/-!
The invariant of a planned run, and what each change of the world does to it.

`InvAt` couples the variables of `operation.c` with the trace. Its last clause, that the journal is
up to date with an item, is open for one item while a function of the source is between the change
of the item and the record of it; `Inv` is the invariant with no item open.
-/

namespace Wpm.Operation

open Wpm.Lib.CString Wpm.Lib.Command

variable {env : Env}

/-! ### The invariant -/

/-- The last record of the operation has the phases of the item, and is not ahead of it. -/
def Journaled (item : PlanItem) : Option Record → Prop
  | none => item.journalStarted = false ∧ item.completed = []
  | some r => r.completedPhases = item.completed ∧ (r.external = true → item.external = true)

/-- A retained copy is held open, and its bytes have the approved fingerprint. -/
def Kept (env : Env) (w : World) (i : ℕ) (item : PlanItem) : Prop :=
  item.retainedState = .retained → ∃ f, item.retainedInput = some f ∧ f ∈ w.locked ∧
    env.hash (w.disk.contents f) = item.fingerprint ∧ Copied i f w.trace

/-- Nothing was done with the item at this index. -/
structure Untouched (i : ℕ) (trace : List Event) : Prop where
  lastRecord : lastRecord i trace = none
  passed : .passed i ∉ trace
  consumed : ∀ call digest, .consumed i call digest ∉ trace

/-- **The invariant of a planned run**, with the journal of the item `pending` left open. -/
structure InvAt (env : Env) (pending : Option ℕ) (w : World) : Prop where
  active : w.active = true
  history : History (Admissible env) w.trace
  collected : w.items.map PlanItem.toApproved = collectedItems w.trace
  executing : w.executing = unfinished w.trace
  current : ∀ i, w.executing = some i →
    w.collecting = false ∧ ∃ item, w.items[i]? = some item ∧ item.consumed = true
  fresh : ∀ (i : ℕ) item, w.items[i]? = some item → item.consumed = false →
    item = PlanItem.collect item.toApproved
  untouched : ∀ i : ℕ, (∀ item, w.items[i]? = some item → item.consumed = false) → Untouched i w.trace
  alone : ∀ j call digest, .consumed j call digest ∈ w.trace →
    (∃ state, .completed j state ∈ w.trace) ∨ w.executing = some j
  noFailure : w.executing = none → NoFailure w.trace
  state : w.collecting = false → recordedState w.trace = some w.approvedState
  nodup : ∀ (i : ℕ) item, w.items[i]? = some item → item.completed.Nodup
  kept : ∀ (i : ℕ) item, w.items[i]? = some item → Kept env w i item
  journaled : ∀ (i : ℕ) item, pending ≠ some i → w.items[i]? = some item → item.journalFailed = false →
    Journaled item (lastRecord i w.trace)

abbrev Inv (env : Env) : World → Prop := InvAt env none

/-- **Between two operations**: no item is executed. -/
structure Idle (env : Env) (w : World) : Prop where
  inv : Inv env w
  executing : w.executing = none

/-- **An operation has stopped**: its item stays unfinished. -/
structure Halted (env : Env) (w : World) : Prop where
  inv : Inv env w
  executing : w.executing ≠ none

/-! ### What a change of the world keeps -/

namespace InvAt

variable {w : World} {p : Option ℕ} {i : ℕ} {item : PlanItem}

/-- The item that is executed is pending. -/
lemma weaken (h : Inv env w) : InvAt env p w :=
  { h with journaled := fun i item _ => h.journaled i item (Option.some_ne_none i).symm }

/-- The journal of the pending item is up to date again. -/
lemma settle (h : InvAt env (some i) w) (hi : ∀ item, w.items[i]? = some item →
    item.journalFailed = false → Journaled item (lastRecord i w.trace)) : Inv env w := by
  refine { h with journaled := fun j item _ hj hf => ?_ }
  by_cases hij : i = j
  · subst hij
    exact hi item hj hf
  · exact h.journaled j item (fun he => hij (Option.some.inj he)) hj hf

lemma contents_advance {f : FileId} (hf : f ∈ w.locked) :
    (w.advance env).disk.contents f = w.disk.contents f := if_pos hf

/-- **What other processes do** does not matter, as they cannot write to a held file. -/
lemma advance (h : InvAt env p w) : InvAt env p (w.advance env) := by
  refine { h with kept := fun i item hi hr => ?_ }
  obtain ⟨f, hf, hl, hh, ht⟩ := h.kept i item hi hr
  exact ⟨f, hf, hl, (congrArg env.hash (contents_advance hl)).trans hh, ht⟩

/-- A silent event that may happen. -/
lemma emit_silent {e : Event} (h : InvAt env p w) (he : e.Silent) (ha : Admissible env e w.trace) :
    InvAt env p (w.emit e) := by
  have hmem : ∀ {e' : Event}, ¬e'.Silent → (e' ∈ e :: w.trace ↔ e' ∈ w.trace) := mem_silent he
  refine { h with
    history := .cons ha h.history
    collected := h.collected.trans (collectedItems_silent he).symm
    executing := h.executing.trans (unfinished_silent he).symm
    untouched := fun j hj => ?_
    alone := fun j call digest hj => ?_
    noFailure := fun hn => (noFailure_silent he).2 (h.noFailure hn)
    state := fun hc => (recordedState_silent he).trans (h.state hc)
    kept := fun j item hj hr => ?_
    journaled := fun j item hp hj hf => ?_ }
  · have hu := h.untouched j hj
    exact ⟨(lastRecord_silent j he).trans hu.lastRecord, mt (hmem id).1 hu.passed,
      fun call digest => mt (hmem id).1 (hu.consumed call digest)⟩
  · exact (h.alone j call digest ((hmem id).1 hj)).imp_left
      (Exists.imp fun _ => (hmem id).2)
  · obtain ⟨f, hf, hl, hh, ht⟩ := h.kept j item hj hr
    exact ⟨f, hf, hl, hh, ht.cons _⟩
  · have hj' := h.journaled j item hp hj hf
    rwa [← lastRecord_silent j he] at hj'

/-- A failure of the item that is executed. -/
lemma emit_failed (h : InvAt env p w) (he : w.executing ≠ none) (j : ℕ) :
    InvAt env p (w.emit (.failed j)) where
  active := h.active
  history := .cons ⟨trivial, trivial, fun _ => trivial, trivial⟩ h.history
  collected := h.collected
  executing := h.executing
  current := h.current
  fresh := h.fresh
  untouched i hi := ⟨(h.untouched i hi).lastRecord,
    by simpa [World.emit] using (h.untouched i hi).passed,
    by simpa [World.emit] using (h.untouched i hi).consumed⟩
  alone j call digest hj := by
    simpa [World.emit] using h.alone j call digest (by simpa [World.emit] using hj)
  noFailure hn := absurd hn he
  state := h.state
  nodup := h.nodup
  kept i item hi hr := by
    obtain ⟨f, hf, hl, hh, ht⟩ := h.kept i item hi hr
    exact ⟨f, hf, hl, hh, ht.cons _⟩
  journaled := h.journaled

/-- A record of the pending item. -/
lemma emit_published {r : Record} (h : InvAt env (some i) w) (he : w.executing = some i)
    (hr : r.Follows (lastRecord i w.trace)) : InvAt env (some i) (w.emit (.published i r)) where
  active := h.active
  history := .cons ⟨trivial, hr, fun _ => trivial, trivial⟩ h.history
  collected := h.collected
  executing := h.executing
  current := h.current
  fresh := h.fresh
  untouched j hj := by
    have hu := h.untouched j hj
    have hij : i ≠ j := by
      rintro rfl
      obtain ⟨-, item, hi, hc⟩ := h.current i he
      rw [hj item hi] at hc
      exact Bool.false_ne_true hc
    exact ⟨(if_neg hij).trans hu.lastRecord, by simpa [World.emit] using hu.passed,
      by simpa [World.emit] using hu.consumed⟩
  alone j call digest hj := by
    simpa [World.emit] using h.alone j call digest (by simpa [World.emit] using hj)
  noFailure hn := absurd (he.symm.trans hn) (Option.some_ne_none i)
  state := h.state
  nodup := h.nodup
  kept j item hj hr := by
    obtain ⟨f, hf, hl, hh, ht⟩ := h.kept j item hj hr
    exact ⟨f, hf, hl, hh, ht.cons _⟩
  journaled j item hp hj hf := by
    have hij : i ≠ j := fun hij => hp (congrArg some hij)
    have hl : lastRecord j (w.emit (.published i r)).trace = lastRecord j w.trace := if_neg hij
    rw [hl]
    exact h.journaled j item hp hj hf

/-- The call of the item that is executed gets past `wpm_operation_archive`. -/
lemma emit_passed (h : InvAt env p w) (he : w.executing = some i) (hp : .passed i ∉ w.trace) :
    InvAt env p (w.emit (.passed i)) where
  active := h.active
  history := .cons ⟨⟨h.executing.symm.trans he, hp⟩, trivial, fun _ => trivial, trivial⟩ h.history
  collected := h.collected
  executing := h.executing
  current := h.current
  fresh := h.fresh
  untouched j hj := by
    have hu := h.untouched j hj
    have hij : j ≠ i := by
      rintro rfl
      obtain ⟨-, item, hi, hc⟩ := h.current j he
      rw [hj item hi] at hc
      exact Bool.false_ne_true hc
    exact ⟨hu.lastRecord, by simpa [World.emit, hij] using hu.passed,
      by simpa [World.emit] using hu.consumed⟩
  alone j call digest hj := by
    simpa [World.emit] using h.alone j call digest (by simpa [World.emit] using hj)
  noFailure hn := absurd (he.symm.trans hn) (Option.some_ne_none i)
  state := h.state
  nodup := h.nodup
  kept j item hj hr := by
    obtain ⟨f, hf, hl, hh, ht⟩ := h.kept j item hj hr
    exact ⟨f, hf, hl, hh, ht.cons _⟩
  journaled := h.journaled

/-- The items after a change of the pending one. -/
lemma getElem?_updateItem (f : PlanItem → PlanItem) (j : ℕ) :
    (w.updateItem i f).items[j]? = (w.items[j]?).map fun item => if i = j then f item else item := by
  rw [World.updateItem, List.getElem?_modify]
  rfl

/-- A change of the pending item, which keeps what is approved. -/
lemma updateItem {f : PlanItem → PlanItem} (h : InvAt env (some i) w)
    (hi : w.items[i]? = some item)
    (ha : ∀ item, (f item).toApproved = item.toApproved) (hc' : (f item).consumed = true)
    (hn : (f item).completed.Nodup) (hk : Kept env w i (f item)) :
    InvAt env (some i) (w.updateItem i f) where
  active := h.active
  history := h.history
  collected := by
    refine Eq.trans ?_ h.collected
    refine List.ext_getElem? fun j => ?_
    rw [List.getElem?_map, List.getElem?_map, getElem?_updateItem, Option.map_map]
    refine congrArg (fun g => Option.map g w.items[j]?) (funext fun item => ?_)
    by_cases hij : i = j <;> simp [hij, ha]
  executing := h.executing
  current j hj := by
    obtain ⟨hcol, item', hj', hcons⟩ := h.current j hj
    rw [getElem?_updateItem, hj']
    by_cases hij : i = j
    · subst hij
      rw [hi] at hj'
      obtain rfl := Option.some.inj hj'
      exact ⟨hcol, f item, by simp, hc'⟩
    · exact ⟨hcol, item', by simp [hij], hcons⟩
  fresh j item' hj hcons := by
    rw [getElem?_updateItem, Option.map_eq_some_iff] at hj
    obtain ⟨old, hold, rfl⟩ := hj
    by_cases hij : i = j
    · subst hij
      rw [hi] at hold
      obtain rfl := Option.some.inj hold
      rw [if_pos rfl, hc'] at hcons
      exact absurd hcons.symm Bool.false_ne_true
    · rw [if_neg hij] at hcons ⊢
      exact h.fresh j old hold hcons
  untouched j hj := by
    refine h.untouched j fun old hold => ?_
    by_cases hij : i = j
    · subst hij
      rw [hi] at hold
      obtain rfl := Option.some.inj hold
      have := hj (f item) (by rw [getElem?_updateItem, hi]; simp)
      rw [hc'] at this
      exact absurd this.symm Bool.false_ne_true
    · exact hj old (by rw [getElem?_updateItem, hold]; simp [hij])
  alone := h.alone
  noFailure := h.noFailure
  state := h.state
  nodup j item' hj := by
    rw [getElem?_updateItem, Option.map_eq_some_iff] at hj
    obtain ⟨old, hold, rfl⟩ := hj
    by_cases hij : i = j
    · subst hij
      rw [hi] at hold
      obtain rfl := Option.some.inj hold
      rwa [if_pos rfl]
    · rw [if_neg hij]
      exact h.nodup j old hold
  kept j item' hj := by
    rw [getElem?_updateItem, Option.map_eq_some_iff] at hj
    obtain ⟨old, hold, rfl⟩ := hj
    by_cases hij : i = j
    · subst hij
      rw [hi] at hold
      obtain rfl := Option.some.inj hold
      rwa [if_pos rfl]
    · rw [if_neg hij]
      exact h.kept j old hold
  journaled j item' hp hj hf := by
    have hij : i ≠ j := fun hij => hp (congrArg some hij)
    rw [getElem?_updateItem, Option.map_eq_some_iff] at hj
    obtain ⟨old, hold, rfl⟩ := hj
    rw [if_neg hij] at hf ⊢
    exact h.journaled j old hp hold hf

end InvAt

end Wpm.Operation
