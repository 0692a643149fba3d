import Mathlib.Data.List.Range

/-!
Tasks in slots, run in any order.

A batch is a list of slots; a task reads and writes its own slot only. `runSlots` runs the tasks in
a given order, as a pool of workers and a caller that helps out may do together. A task that can be
repeated without effect may run any number of times: if every slot is run, the result is the batch
with every task done, whatever the order was (`runSlots_eq_map`).
-/

namespace Wpm.Lib.Slots

variable {α : Type*}

/-- Run `task` on the slots named by `order`, one after the other. -/
def runSlots (task : α → α) : List ℕ → List α → List α
  | [], slots => slots
  | i :: order, slots => runSlots task order (slots.modify i task)

variable {task : α → α}

/-- A slot that is run holds its finished task, and any other slot is untouched. -/
lemma getElem?_runSlots (hidem : ∀ a, task (task a) = task a) :
    ∀ {order : List ℕ} {slots : List α} {i : ℕ},
      (runSlots task order slots)[i]? = if i ∈ order then slots[i]?.map task else slots[i]?
  | [], slots, i => by simp [runSlots]
  | j :: order, slots, i => by
    rw [runSlots, getElem?_runSlots hidem, List.getElem?_modify]
    by_cases hij : j = i
    · subst hij
      cases slots[j]? <;> simp [hidem]
    · simp [hij, Ne.symm hij]

/-- **If every slot is run, all tasks are done, whatever the order.** -/
theorem runSlots_eq_map (hidem : ∀ a, task (task a) = task a) {order : List ℕ} {slots : List α}
    (h : ∀ i < slots.length, i ∈ order) : runSlots task order slots = slots.map task := by
  refine List.ext_getElem? fun i => ?_
  rw [getElem?_runSlots hidem, List.getElem?_map]
  by_cases hi : i < slots.length
  · rw [if_pos (h i hi)]
  · simp [List.getElem?_eq_none (not_lt.1 hi)]

end Wpm.Lib.Slots
