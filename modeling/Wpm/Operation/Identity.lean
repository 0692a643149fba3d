import Wpm.Operation.Runs

/-!
Which bytes the approved identity of an archive belongs to.

Collecting an item opens its archive four times by the same path: to hash it, to inspect it, to
validate it and to hold it. Only the digest is computed again at the confirmation. So another
process may show `wpm_archive_inspect` other bytes than those hashed, and put the first ones back;
the run at the end of this module is one in which it does.
-/

namespace Wpm.Operation

open Wpm.Lib.CString Wpm.Lib.Command

variable {env : Env}

/-! ### Identified plans -/

/-- The identity and the signing key of the item are those of bytes that have its fingerprint. -/
def Approved.OfBytes (env : Env) (a : Approved) (allowUnsigned : Bool) : Prop :=
  ∃ bytes, env.hash bytes = a.fingerprint ∧ env.inspect (fun _ => bytes) = some a.identity ∧
    env.validate allowUnsigned (fun _ => bytes) = some a.signingKey

/-- An approved plan has such items only. -/
def Identified (env : Env) (e : Event) (before : List Event) : Prop :=
  match e with
  | .approved _ => ∀ a allowUnsigned seen, .collected a allowUnsigned seen ∈ before →
    a.OfBytes env allowUnsigned
  | _ => True

/-- **A change would be noticed**: when the file of an item, hashed again, has the digest of the
bytes hashed first, these were the bytes that were inspected and validated. -/
def Undisturbed (env : Env) (l : List Event) : Prop :=
  ∀ i a allowUnsigned seen bytes, (collectedItems l)[i]? = some a →
    .collected a allowUnsigned seen ∈ l → .rechecked i bytes ∈ l →
    env.hash bytes = env.hash seen.hashed →
    ∀ k, seen.inspected k = seen.hashed ∧ seen.validated k = seen.hashed

lemma Undisturbed.of_cons {e : Event} {l : List Event} (h : Undisturbed env (e :: l)) :
    Undisturbed env l := fun i a allowUnsigned seen bytes hi hc hr =>
  h i a allowUnsigned seen bytes (getElem?_collectedItems hi e) (List.mem_cons_of_mem e hc)
    (List.mem_cons_of_mem e hr)

/-- Every collected item is as it was read. -/
lemma yields_of_history {l : List Event} (h : History (Checked env) l) {a : Approved}
    {allowUnsigned : Bool} {seen : Seen} (ha : .collected a allowUnsigned seen ∈ l) :
    seen.Yields env a allowUnsigned := by
  induction h with
  | nil => exact absurd ha List.not_mem_nil
  | cons hc _ ih =>
    rcases List.mem_cons.1 ha with rfl | ha
    · exact hc
    · exact ih ha

/-- An item whose views are the bytes hashed is identified. -/
lemma Seen.Yields.ofBytes {a : Approved} {allowUnsigned : Bool} {seen : Seen}
    (h : seen.Yields env a allowUnsigned)
    (hv : ∀ k, seen.inspected k = seen.hashed ∧ seen.validated k = seen.hashed) :
    a.OfBytes env allowUnsigned := by
  have hi : seen.inspected = fun _ => seen.hashed := funext fun k => (hv k).1
  have hs : seen.validated = fun _ => seen.hashed := funext fun k => (hv k).2
  exact ⟨seen.hashed, h.fingerprint, hi ▸ h.identity, hs ▸ h.signingKey⟩

/-- **The step lemma**: an approval that is checked identifies all its items. -/
lemma Checked.identified {e : Event} {before : List Event} (h : Checked env e before)
    (hl : History (Checked env) before) (hu : Undisturbed env before) :
    Identified env e before := by
  cases e with
  | approved digest =>
    intro a allowUnsigned seen ha
    have hy := yields_of_history hl ha
    obtain ⟨i, hi⟩ := List.mem_iff_getElem?.1 (mem_collectedItems.2 ⟨allowUnsigned, seen, ha⟩)
    obtain ⟨bytes, hr, hb⟩ := h i a hi
    exact hy.ofBytes (hu i a allowUnsigned seen bytes hi ha hr (hb.trans hy.fingerprint.symm))
  | _ => trivial

lemma identified_of_history {l : List Event} (h : History (Checked env) l)
    (hu : Undisturbed env l) : History (Identified env) l := by
  induction h with
  | nil => exact .nil
  | cons hc hl ih => exact .cons (hc.identified hl hu.of_cons) (ih hu.of_cons)

/-- **The approved identity belongs to the approved bytes**, in every run in which a change of an
archive would be noticed. -/
theorem run_identified (disk : Disk) (yes : Bool) (l : List Step)
    (hu : Undisturbed env (run env disk yes l).trace) (n : ℕ) :
    History (Identified env) ((run env disk yes l).trace.drop n) := by
  have hl := (@run_history env disk yes l).mono fun _ _ h => h.checked
  exact (identified_of_history hl hu).drop n

/-! ### An archive that nobody touches, and one that is changed and put back -/

def planSteps : List Step := [.install (str "tool.zip") none true, .confirm]

def quietEnv : Env := { sampleEnv with reads := fun _ => 0, foreign := fun _ disk => disk }

lemma quietRun_trace : ∃ seen a digest bytes, (run quietEnv sampleDisk true planSteps).trace =
      [.approved digest, .rechecked 0 bytes, .collected a true seen] ∧
    ∀ k, seen.inspected k = seen.hashed ∧ seen.validated k = seen.hashed := by
  refine ⟨_, _, _, _, rfl, fun k => ?_⟩
  have hk : min k (quietEnv.reads 0) = 0 := Nat.min_zero k
  constructor
  · change ((World.advance quietEnv)^[min k (quietEnv.reads 0)] _).disk.contents _ = _
    rw [hk]
    rfl
  · change ((World.advance quietEnv)^[min k (quietEnv.reads 0)] _).disk.contents _ = _
    rw [hk]
    rfl

lemma quietRun_undisturbed :
    Undisturbed quietEnv (run quietEnv sampleDisk true planSteps).trace := by
  obtain ⟨seen, a, digest, bytes, hl, hv⟩ := quietRun_trace
  intro i b allowUnsigned seen' bytes' _ hc _ _
  have he : seen' = seen := by
    rw [hl] at hc
    simp only [List.mem_cons, List.not_mem_nil, or_false, reduceCtorEq, false_or] at hc
    exact (Event.collected.inj hc).2.2
  rw [he]
  exact hv

theorem run_identified_sample :
    (∃ digest before, (run quietEnv sampleDisk true planSteps).trace = .approved digest :: before) ∧
    History (Identified quietEnv) ((run quietEnv sampleDisk true planSteps).trace.drop 0) := by
  refine ⟨?_, run_identified sampleDisk true planSteps quietRun_undisturbed 0⟩
  obtain ⟨seen, a, digest, bytes, hl, -⟩ := quietRun_trace
  exact ⟨digest, _, hl⟩

/-- Another process replaces the archive once it was hashed, and restores it once it was
inspected. -/
def restoringEnv : Env := { sampleEnv with
  inspect := fun view => if view 0 = str "other" then
    some { name := str "other", version := str "2.0.0", arch := str "x64" } else none
  reads := fun _ => 0
  foreign := fun n disk =>
    if n = 1 then { disk with contents := fun _ => str "other" }
    else if n = 3 then { disk with contents := fun _ => str "archive" }
    else disk }

lemma restoringRun_trace : ∃ seen a digest bytes,
    (run restoringEnv sampleDisk true planSteps).trace =
      [.approved digest, .rechecked 0 bytes, .collected a true seen] ∧
    a.fingerprint = restoringEnv.hash (str "archive") := ⟨_, _, _, _, rfl, rfl⟩

/-- **The approved identity is another archive's**: no bytes with the approved fingerprint have the
identity that was shown. -/
theorem restoringRun_misidentified :
    ¬∀ n, History (Identified restoringEnv)
      ((run restoringEnv sampleDisk true planSteps).trace.drop n) := by
  intro h
  obtain ⟨seen, a, digest, bytes, hl, hf⟩ := restoringRun_trace
  have h0 := h 0
  rw [List.drop_zero, hl] at h0
  have hi : Identified restoringEnv (.approved digest)
      [.rechecked 0 bytes, .collected a true seen] := by
    cases h0 with
    | cons hi _ => exact hi
  obtain ⟨b, hb, hinspect, -⟩ := hi a true seen (by simp)
  rw [hf] at hb
  have hother : b = str "other" := by
    by_contra hne
    exact absurd hinspect (by simp [restoringEnv, hne])
  rw [hother] at hb
  exact absurd hb (by decide)

end Wpm.Operation
