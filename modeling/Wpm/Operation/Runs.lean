import Wpm.Operation.Approval

/-!
Planned runs: the operations of `archive.c` keep the invariant, and so every run has a history of
events that were allowed.

The proofs follow the operations step by step. What a step leaves is `Running` with the progress of
the item spelled out, so that each `phaseFinish` finds its phase entered and not finished before.
-/

namespace Wpm.Operation

open Wpm.Lib.CString Wpm.Lib.Command

variable {env : Env}

/-! ### What is known while an item is executed -/

section Running

variable {i : ℕ} {a : Approved} {s : Progress} {w : World}

lemma Running.unfinished (h : Running env i a s w) : unfinished w.trace = some i := by
  obtain ⟨item, r, hc, hp⟩ := h
  exact hp.inv.executing.symm.trans hp.executing

lemma Running.collected (h : Running env i a s w) : (collectedItems w.trace)[i]? = some a := by
  obtain ⟨item, r, hc, hp⟩ := h
  rw [← hp.inv.collected, List.getElem?_map, hp.item_eq]
  exact congrArg some hc.approved

lemma Running.healthy (h : Running env i a s w) (hs : s.passed = true) : Healthy i w.trace := by
  have hu := h.unfinished
  obtain ⟨item, r, hc, hp⟩ := h
  exact ⟨hu, hp.trace.passed.2 hs, hp.trace.noFailure⟩

/-- The copy that is held: its file, and what is known of it. -/
structure Holds (env : Env) (i : ℕ) (a : Approved) (s : Progress) (f : FileId) (w : World) :
    Prop where
  running : Running env i a s w
  locked : f ∈ w.locked
  hash : env.hash (w.disk.contents f) = a.fingerprint
  retained : Copied i f w.trace

lemma Holds.stable {f : FileId} : Stable env (Holds env i a s f) := fun w h =>
  ⟨Running.stable w h.running, h.locked,
    (congrArg env.hash (InvAt.contents_advance h.locked)).trans h.hash, h.retained⟩

lemma Holds.emit {f : FileId} {e : Event} (h : Holds env i a s f w) (he : e.Silent)
    (ha : Admissible env e w.trace) : Holds env i a s f (w.emit e) :=
  ⟨h.running.emit_silent he ha, h.locked, h.hash, h.retained.cons _⟩

lemma Pending.holds {item : PlanItem} {r : Record} (hc : Current item r a s)
    (hp : Pending env i item (some r) (Sound i s.passed) w) (hs : s.kept = true) :
    ∃ f, item.retainedInput = some f ∧ Holds env i a s f w := by
  obtain ⟨f, hf, hl, hh, ht⟩ := hp.inv.kept i item hp.item_eq (hc.retained hs)
  exact ⟨f, hf, ⟨item, r, hc, hp⟩, hl, hc.approved ▸ hh, ht⟩

/-- Bytes of the held copy may be read. -/
lemma Holds.read {f : FileId} {use : Use} (h : Holds env i a s f w) :
    Holds env i a s f (w.emit (.read use (.retained f) (w.disk.contents f))) :=
  h.emit trivial ⟨trivial, trivial, fun _ =>
    ⟨i, h.running.unfinished, h.retained, a, h.running.collected, h.hash⟩, trivial⟩

end Running

/-! ### Reading and storing the archive -/

section Archive

variable {i : ℕ} {a : Approved} {s : Progress}

lemma readPieces_keeps {P : World → Prop} {use : Use} {source : Source} {f : FileId}
    (h : Stable env P) (he : ∀ w, P w → P (w.emit (.read use source (w.disk.contents f)))) :
    ∀ n, Keeps P (readPieces env use source f n)
  | 0 => Triple.pure fun _ hw => hw
  | n + 1 => by
    refine (advance_keeps h).bind fun _ => Triple.get_bind fun w hw => ?_
    exact Triple.bind (Q := fun _ => P) (Triple.modify fun s hs => hs ▸ he w hw) fun _ =>
      readPieces_keeps h he n

/-- The path of the item that is executed, as an operation gets it: one whose full path is that of
the item's archive, or an answer that is that path itself. -/
def Names (env : Env) (path : Bytes) (a : Approved) : Prop :=
  (∃ full, env.fullPath path = some full ∧ fold a.archive = fold full) ∨
    ∃ given, env.fullPath given = some path ∧ fold a.archive = fold path

/-- The full path of such a path is that of the item's archive. -/
lemma Names.fullPath {path full : Bytes} {a : Approved} {before : List Event} {i : ℕ}
    (h : Names env path a) (hi : (collectedItems before)[i]? = some a)
    (hreturns : env.ReturnsCollected before) (hfull : env.fullPath path = some full) :
    fold full = fold a.archive := by
  rcases h with ⟨full', hfull', ha⟩ | ⟨given, hgiven, ha⟩
  · rw [hfull, Option.some.injEq] at hfull'
    rw [hfull', ha]
  · rw [hreturns a (List.mem_of_getElem? hi) given path hgiven ha full hfull, ha]

/-- **Reading an archive** reads the held copy, or another archive than the item's. -/
lemma readArchive_keeps {use : Use} {path : Bytes} (hs : s.kept = true)
    (hpath : use ≠ .installed → Names env path a) :
    Keeps (Running env i a s) (readArchive env use path) := by
  refine Triple.of_exists fun item => Triple.of_exists fun r => Triple.of_imp fun hc => ?_
  refine Triple.get_bind fun w hw => ?_
  have hrun : Running env i a s w := ⟨item, r, hc, hw⟩
  obtain ⟨hact, hcol, hex⟩ := hw.reads
  obtain ⟨f, hf, hheld⟩ := Pending.holds hc hw hs
  cases hfull : env.fullPath path with
  | none =>
    have hin : input env w path = .refused := by
      simp [input, hact, hcol, hex, hw.item_eq, hfull]
    rw [hin]
    exact Triple.fail fun _ he => he ▸ hrun
  | some full =>
    have hin : input env w path = if fold full ≠ fold item.archive ∧
        fold full ≠ fold item.retained then .unrelated else .controlled f := by
      simp [input, hact, hcol, hex, hw.item_eq, hfull, hc.failed, hc.journalFailed,
        hc.retained hs, hf]
    rw [hin]
    split_ifs with hne
    · have hother : ∀ w, Running env i a s w → env.ReturnsCollected w.trace →
          use = .installed := by
        intro w hw hreturns
        by_contra huse
        have hfold := (hpath huse).fullPath hw.collected hreturns hfull
        exact hne.1 (hfold.trans (congrArg (fun a => fold a.archive) hc.approved).symm)
      have hread : ∀ w f, Running env i a s w → Running env i a s
          (w.emit (.read use (.path path) (w.disk.contents f))) := by
        refine fun w f hw => hw.emit_silent trivial ⟨trivial, trivial, fun hreturns => ?_, trivial⟩
        refine ⟨hother w hw hreturns, i, a, hw.unfinished, hw.collected, fun full' hfull' => ?_⟩
        rw [hfull] at hfull'
        obtain rfl := Option.some.inj hfull'
        exact fun he => hne.1 (he.trans (congrArg (fun a => fold a.archive) hc.approved).symm)
      refine Triple.pre (P := Running env i a s) ?_ fun _ he => he ▸ hrun
      refine (openFile_keeps Running.stable _).bind fun g => ?_
      refine (sample_keeps Running.stable _).bind fun n => ?_
      exact (readPieces_keeps Running.stable (fun w hw => hread w g hw) n).bind fun _ =>
        must_keeps Running.stable _
    · refine Triple.weaken (P := Holds env i a s f) (Q := fun _ => Holds env i a s f)
        (E := Holds env i a s f) ?_ (fun _ he => he ▸ hheld) (fun _ _ h => h.running)
        fun _ h => h.running
      refine (sample_keeps Holds.stable _).bind fun n => ?_
      exact (readPieces_keeps Holds.stable (fun w hw => hw.read) n).bind fun _ =>
        must_keeps Holds.stable _

lemma extract_keeps {path : Bytes} (hs : s.kept = true)
    (hpath : Names env path a) :
    Keeps (Running env i a s) (extract env path) :=
  (must_keeps Running.stable _).bind fun _ => readArchive_keeps hs fun _ => hpath

lemma inspectInstalled_keeps (hs : s.kept = true) : ∀ paths,
    Keeps (Running env i a s) (inspectInstalled env paths)
  | [] => Triple.pure fun _ h => h
  | path :: paths => by
    have hread : Keeps (Running env i a s) (readArchive env .installed path) :=
      readArchive_keeps hs fun h => absurd rfl h
    refine Keeps.bind ((Triple.attempt hread).post ?_) fun _ => inspectInstalled_keeps hs paths
    rintro (_ | _) w hw
    · exact hw
    · exact hw.elim fun _ h => h

lemma installedArchitectureIsCompatible_keeps (hs : s.kept = true) :
    Keeps (Running env i a s) (installedArchitectureIsCompatible env) :=
  (sample_keeps Running.stable _).bind fun _ => (inspectInstalled_keeps hs _).bind fun _ =>
    must_keeps Running.stable _

/-- **Storing the input** reads the held copy only. -/
lemma storeInput_keeps {destination : Bytes} (hs : s.kept = true) (hp : s.passed = true) :
    Keeps (Running env i a s) (storeInput env destination) := by
  refine Triple.of_exists fun item => Triple.of_exists fun r => Triple.of_imp fun hc => ?_
  refine Triple.get_bind fun w hw => ?_
  obtain ⟨hact, hcol, hex⟩ := hw.reads
  obtain ⟨f, hf, hheld⟩ := Pending.holds hc hw hs
  simp only [hcol, hex, Cmd.guard_pos, Cmd.ofOption_some, Cmd.pure_bind]
  have hitem : Triple (· = w) (planItem i) (fun it w' => it = item ∧ w' = w)
      (Running env i a s) := by
    refine Triple.get_bind ?_
    rintro _ rfl
    rw [hw.item_eq]
    exact Triple.pure fun _ he => ⟨rfl, he⟩
  refine hitem.bind fun it => Triple.of_imp ?_
  rintro rfl
  refine Triple.weaken (P := Holds env i a s f) (Q := fun _ => Holds env i a s f)
    (E := Holds env i a s f) ?_ (fun _ he => he ▸ hheld) (fun _ _ h => h.running) fun _ h =>
      h.running
  refine Keeps.guard.bind fun _ => Keeps.ofOption.bind fun name => Keeps.ofOption.bind fun _ => ?_
  refine (stateDigest_keeps Holds.stable).bind fun _ => Keeps.guard.bind fun _ => ?_
  refine Keeps.ofOption.bind fun _ => Keeps.guard.bind fun _ => Keeps.ofOption.bind fun _ => ?_
  refine Keeps.guard.bind fun _ => (must_keeps Holds.stable _).bind fun _ => ?_
  refine (must_keeps Holds.stable _).bind fun _ => ?_
  rw [hf, Cmd.ofOption_some, Cmd.pure_bind]
  refine (copyFile_keeps Holds.stable fun w hw =>
    Triple.modify (by rintro _ rfl; exact hw.read)).bind
    fun bytes => Keeps.guard.bind fun _ => (must_keeps Holds.stable _).bind fun _ => ?_
  refine Keeps.bind (Triple.modify fun w hw => ?_) fun _ => must_keeps Holds.stable _
  have hh := hw.running.healthy hp
  exact hw.emit trivial ⟨hh, trivial, fun _ => ⟨f, hw.retained⟩, trivial⟩

lemma archiveStoreInput_keeps {source destination : Bytes} (hs : s.kept = true)
    (hp : s.passed = true) : Keeps (Running env i a s) (archiveStoreInput env source destination) :=
  Triple.get_bind fun w hw => by
    rw [if_pos hw.inv.active]
    exact (storeInput_keeps hs hp).from_state hw

lemma storeName_keeps {given : Bytes} {size : ℕ} :
    Keeps (Running env i a s) (storeName given size) :=
  Keeps.get_bind fun w hw => by
    rw [if_pos hw.inv.active]
    exact Keeps.guard.bind fun _ => Keeps.ofOption.bind fun _ => planItem_keeps.bind fun _ =>
      Keeps.ofOption

/-! ### The script -/

lemma beforeScript_keeps : Keeps (Running env i a s) (beforeScript env) := by
  refine (must_keeps Running.stable _).bind fun _ => Keeps.get_bind fun w hw => ?_
  rw [if_pos hw.inv.active]
  refine Keeps.guard.bind fun _ => Keeps.ofOption.bind fun _ => planItem_keeps.bind fun _ => ?_
  refine (identityAt_keeps Running.stable _).bind fun _ => Keeps.guard.bind fun _ => ?_
  refine (hashFile_keeps Running.stable _).bind fun _ => Keeps.guard.bind fun _ => ?_
  exact (stateDigest_keeps Running.stable).bind fun _ => Keeps.guard.bind fun _ => Keeps.guard

/-- **A process is started** only once the last record says so. -/
lemma Running.started {w : World} {handoff : Bool} (h : Running env i a s w)
    (hp : s.passed = true) (hk : s.kept = true) (hx : s.external = true) :
    Running env i a s (w.emit (.started w.executing handoff)) := by
  have hh := h.healthy hp
  obtain ⟨item, r, hc, hw⟩ := h
  obtain ⟨f, -, hheld⟩ := Pending.holds hc hw hk
  refine ⟨item, r, hc, hw.emit_silent trivial ⟨⟨i, hw.executing, hh⟩,
    ⟨i, r, hw.executing, hw.last_eq, hc.recordExternal.trans hx⟩, fun _ => ?_, trivial⟩⟩
  exact ⟨i, f, hw.executing, hheld.retained⟩

end Archive

/-- Item `i` is executed, its input is retained, and the phases `done` are finished. -/
abbrev InPhase (env : Env) (i : ℕ) (a : Approved) (done : List Phase) (phase : Phase)
    (external : Bool) : World → Prop := Running env i a ⟨true, true, done, phase, external⟩

section Operations

variable {i : ℕ} {a : Approved} {done : List Phase} {phase : Phase} {external : Bool}

lemma start_spec {phase' : Phase} : Triple (InPhase env i a done phase external)
    (phaseStart env phase') (fun _ => InPhase env i a done phase' external) (Halted env) :=
  phaseStart_spec

lemma finish_spec (hs : phase ∉ done) (hl : done.length < 16) :
    Triple (InPhase env i a done phase external) (phaseFinish env phase)
      (fun _ => InPhase env i a (done ++ [phase]) phase external) (Halted env) :=
  phaseFinish_spec rfl hs hl

lemma runPackageScript_spec {staging scriptName : Bytes} (hs : Phase.script ∉ done)
    (hl : done.length < 16) :
    Triple (InPhase env i a done phase external) (runPackageScript env staging scriptName)
      (fun _ w => ∃ x, InPhase env i a (done ++ [.script]) .script x w) (Halted env) := by
  refine Triple.bind (Keeps.halted beforeScript_keeps) fun _ => ?_
  refine Triple.bind start_spec fun _ => Triple.bind (Keeps.halted Keeps.ofOption) fun scriptPath => ?_
  refine Triple.bind (Keeps.halted (work_keeps Running.stable _)) fun scriptExists => ?_
  refine Triple.ite (fun _ => ?_) fun _ => ?_
  · exact (finish_spec hs hl).post fun _ w hw => ⟨external, hw⟩
  refine Triple.bind (Keeps.halted (must_keeps Running.stable _)) fun _ => ?_
  refine Triple.bind (Keeps.halted Keeps.guard) fun _ => ?_
  refine Triple.bind (Keeps.halted (must_keeps Running.stable _)) fun _ => ?_
  refine Triple.bind externalStart_spec fun _ => ?_
  refine Triple.bind (Keeps.halted (must_keeps Running.stable _)) fun _ => Triple.get_bind fun w hw => ?_
  refine Triple.bind (Q := fun _ => InPhase env i a done .script true) (Triple.modify ?_) fun _ => ?_
  · rintro _ rfl
    exact hw.started rfl rfl rfl
  refine Triple.bind (Keeps.halted (sample_keeps Running.stable _)) fun exitCode => ?_
  refine Triple.bind (Q := fun _ => InPhase env i a done .script true) (Triple.modify fun w hw =>
    hw.emit_silent trivial ⟨trivial, trivial, fun _ => trivial, trivial⟩) fun _ => ?_
  refine Triple.bind (scriptResult_spec rfl hs hl) fun _ => ?_
  refine Triple.guard (fun hcode w hw => ?_) fun hcode w hw => ?_
  · rw [if_pos hcode] at hw
    exact ⟨true, hw⟩
  · rwa [if_neg hcode] at hw

/-! ### The blocks -/

lemma orAudit_spec {c : Op Unit} {P : World → Prop} {Q : Unit → World → Prop}
    (h : Triple P c Q (Halted env)) : Triple P (orAudit env c) Q (Halted env) :=
  Triple.onFail h ((work_keeps Halted.stable _).bind fun _ => Triple.pure fun _ hw => hw)

lemma extractAndValidate_spec {extracting validating : Op Unit}
    (h1 : Triple (InPhase env i a [.retainInput, .stage] .extract external) extracting
      (fun _ => InPhase env i a [.retainInput, .stage] .extract external) (Halted env))
    (h2 : Triple (InPhase env i a [.retainInput, .stage, .extract] .validate external) validating
      (fun _ => InPhase env i a [.retainInput, .stage, .extract] .validate external) (Halted env)) :
    Triple (InPhase env i a [.retainInput] .stage external)
      (extractAndValidate env extracting validating)
      (fun _ => InPhase env i a [.retainInput, .stage, .extract, .validate] .validate external)
      (Halted env) := by
  refine Triple.bind (finish_spec (by decide) (by decide)) fun _ => ?_
  refine Triple.bind start_spec fun _ => Triple.bind h1 fun _ => ?_
  refine Triple.bind (finish_spec (by decide) (by decide)) fun _ => ?_
  refine Triple.bind start_spec fun _ => Triple.bind h2 fun _ => ?_
  exact finish_spec (by decide) (by decide)

/-- The label `cleanup`, with what it needs of the block before it. -/
lemma withCleanup_spec {block : Op Unit} {P : World → Prop}
    (h : Triple P block (fun _ w => ∃ done phase external, (Phase.cleanup ∉ done ∧
      done.length < 16) ∧ InPhase env i a done phase external w) (Halted env)) :
    Triple P (withCleanup env block) (fun _ => Idle env) (Halted env) := by
  refine Triple.bind (Triple.attempt (Triple.onFail h noteFailure_keeps)) fun success => ?_
  cases success with
  | false =>
    refine Triple.bind (Q := fun _ => Halted env) (Triple.pure fun _ hw => hw) fun _ => ?_
    refine Triple.bind (work_keeps Halted.stable _) fun _ => ?_
    exact Triple.bind (Q := fun _ _ => False) (Triple.guard (fun h => nomatch h.2) fun _ _ hw => hw)
      fun _ => fun _ hw => hw.elim
  | true =>
    refine Triple.of_exists fun _ => Triple.of_exists fun done => Triple.of_exists fun phase =>
      Triple.of_exists fun external => Triple.of_imp fun ⟨hs, hl⟩ => ?_
    refine Triple.bind start_spec fun _ => ?_
    refine Triple.bind (Keeps.halted (work_keeps Running.stable _)) fun _ => ?_
    refine Triple.bind (Keeps.halted Keeps.guard) fun _ => ?_
    refine Triple.bind (finish_spec hs hl) fun _ => ?_
    exact completed_spec rfl

lemma installBlock_spec {full staging stored : Bytes} (hpath : Names env full a) :
    Triple (InPhase env i a [.retainInput] .stage false) (installBlock env full staging stored)
      (fun _ w => ∃ done phase external, (Phase.cleanup ∉ done ∧ done.length < 16) ∧
        InPhase env i a done phase external w) (Halted env) := by
  refine Triple.bind (extractAndValidate_spec (Keeps.halted (extract_keeps rfl hpath)) ?_) fun _ => ?_
  · exact Keeps.halted <| (must_keeps Running.stable _).bind fun _ =>
      (must_keeps Running.stable _).bind fun _ => (must_keeps Running.stable _).bind fun _ =>
        installedArchitectureIsCompatible_keeps rfl
  refine Triple.bind (runPackageScript_spec (by decide) (by decide)) fun _ =>
    Triple.of_exists fun x => ?_
  refine Triple.bind start_spec fun _ => ?_
  refine Triple.bind (Keeps.halted (archiveStoreInput_keeps rfl rfl)) fun _ => ?_
  refine Triple.bind (finish_spec (by decide) (by decide)) fun _ => ?_
  refine Triple.bind start_spec fun _ => ?_
  refine Triple.bind (Keeps.halted (work_keeps Running.stable _)) fun _ => ?_
  refine Triple.bind (Keeps.halted (must_keeps Running.stable _)) fun _ => ?_
  refine (finish_spec (by decide) (by decide)).post fun _ w hw => ?_
  exact ⟨_, _, _, ⟨by decide, by decide⟩, hw⟩

lemma upgradeBlock_spec {full stage stored : Bytes} (hpath : Names env full a) :
    Triple (InPhase env i a [.retainInput] .stage false) (upgradeBlock env full stage stored)
      (fun _ w => ∃ done phase external, (Phase.cleanup ∉ done ∧ done.length < 16) ∧
        InPhase env i a done phase external w) (Halted env) := by
  have hmust : ∀ k, Triple (InPhase env i a [.retainInput, .stage, .extract] .validate false)
      (orAudit env (must env k))
      (fun _ => InPhase env i a [.retainInput, .stage, .extract] .validate false) (Halted env) :=
    fun k => orAudit_spec (Keeps.halted (must_keeps Running.stable k))
  refine Triple.bind (extractAndValidate_spec (orAudit_spec (Keeps.halted (extract_keeps rfl hpath))) ?_)
    fun _ => ?_
  · exact Triple.bind (hmust _) fun _ => Triple.bind (hmust _) fun _ => Triple.bind (hmust _)
      fun _ => Triple.bind (hmust _) fun _ =>
        orAudit_spec (Keeps.halted (installedArchitectureIsCompatible_keeps rfl))
  refine Triple.bind (orAudit_spec (runPackageScript_spec (by decide) (by decide))) fun _ =>
    Triple.of_exists fun x => ?_
  refine Triple.bind start_spec fun _ => ?_
  refine Triple.bind (orAudit_spec (Keeps.halted (archiveStoreInput_keeps rfl rfl))) fun _ => ?_
  refine Triple.bind (finish_spec (by decide) (by decide)) fun _ => ?_
  refine Triple.bind start_spec fun _ => ?_
  refine Triple.bind (Keeps.halted (work_keeps Running.stable _)) fun _ => ?_
  refine Triple.bind (Keeps.halted (must_keeps Running.stable _)) fun _ => ?_
  refine (finish_spec (by decide) (by decide)).post fun _ w hw => ?_
  exact ⟨_, _, _, ⟨by decide, by decide⟩, hw⟩

lemma removeBlock_spec {stored staging : Bytes} (hpath : Names env stored a) :
    Triple (InPhase env i a [.retainInput] .stage false) (removeBlock env stored staging)
      (fun _ w => ∃ done phase external, (Phase.cleanup ∉ done ∧ done.length < 16) ∧
        InPhase env i a done phase external w) (Halted env) := by
  refine Triple.bind (extractAndValidate_spec (Keeps.halted (extract_keeps rfl hpath)) ?_) fun _ => ?_
  · exact Keeps.halted <| (must_keeps Running.stable _).bind fun _ => must_keeps Running.stable _
  refine Triple.bind (runPackageScript_spec (by decide) (by decide)) fun _ =>
    Triple.of_exists fun x => ?_
  refine Triple.bind start_spec fun _ => ?_
  refine Triple.bind (Keeps.halted (must_keeps Running.stable _)) fun _ => ?_
  refine Triple.bind (Q := fun _ => InPhase env i a
    [.retainInput, .stage, .extract, .validate, .script] .removeRecord x)
    (Triple.modify fun w hw => hw.emit_silent trivial ⟨trivial, trivial, fun _ => trivial, trivial⟩)
    fun _ => ?_
  refine (finish_spec (by decide) (by decide)).post fun _ w hw => ?_
  exact ⟨_, _, _, ⟨by decide, by decide⟩, hw⟩

lemma handoffBlock_spec {full : Bytes} (hpath : Names env full a) :
    Triple (InPhase env i a done phase external) (handoffBlock env full)
      (fun _ => InPhase env i a done .handoff true) (Halted env) := by
  have hmust : ∀ k, Triple (InPhase env i a done phase external) (orAudit env (must env k))
      (fun _ => InPhase env i a done phase external) (Halted env) :=
    fun k => orAudit_spec (Keeps.halted (must_keeps Running.stable k))
  refine Triple.bind (orAudit_spec (Keeps.halted (extract_keeps rfl hpath))) fun _ => ?_
  refine Triple.bind (orAudit_spec (Keeps.halted ?_)) fun _ => Triple.bind (hmust _) fun _ => ?_
  · exact (must_keeps Running.stable _).bind fun _ => (must_keeps Running.stable _).bind fun _ =>
      must_keeps Running.stable _
  refine Triple.bind (Keeps.halted (must_keeps Running.stable _)) fun _ => ?_
  refine Triple.bind (Keeps.halted (must_keeps Running.stable _)) fun _ => ?_
  refine Triple.bind externalStart_spec fun _ => ?_
  refine Triple.bind (Keeps.halted (must_keeps Running.stable _)) fun _ => Triple.get_bind ?_
  refine fun w hw => Triple.modify ?_
  rintro _ rfl
  exact hw.started rfl rfl rfl

end Operations

/-! ### The operations -/

/-- What an operation does with the item that its call took up. -/
def Executes (env : Env) (path : Bytes) (body : Op Unit) : Prop :=
  ∀ i a full, env.fullPath path = some full → fold a.archive = fold full →
    Triple (InPhase env i a [.retainInput] .retainInput false) body (fun _ => Idle env) (Halted env)

lemma execute_keeps {action : Action} {path : Bytes} {oldVersion source : Option Bytes}
    {allowUnsigned : Bool} {body : Op Unit} (h : Executes env path body) :
    Keeps (Inv env) (do
      archive env action path oldVersion source allowUnsigned
      execute body) := by
  intro w₀ hw₀
  have hspec : Triple (· = w₀) (archive env action path oldVersion source allowUnsigned)
      (fun _ => Admitted env action path oldVersion (w₀.sourceOf source)) (Inv env) :=
    archive_spec.from_state ⟨hw₀, rfl⟩
  refine Triple.bind hspec (fun _ => Triple.get_bind fun w hw => ?_) w₀ rfl
  rcases hw with ⟨hidle, hcol⟩ | ⟨full, hfull, i, a, ⟨-, ha, -, -⟩, hrun⟩
  · rw [if_pos ⟨hidle.inv.active, hcol⟩]
    exact Triple.pure fun _ he => he ▸ hidle.inv
  · have hcol : w.collecting = false := by
      obtain ⟨item, r, -, hp⟩ := hrun
      exact hp.reads.2.1
    rw [if_neg fun hc => Bool.false_ne_true (hcol.symm.trans hc.2)]
    refine Triple.weaken (P := InPhase env i a [.retainInput] .retainInput false)
      (Triple.onFail (h i a full hfull ha) noteFailure_keeps) (fun _ he => he ▸ hrun)
      (fun _ _ hs => hs.inv) fun _ hs => hs.inv

/-- The phase `stage`, up to the block of the operation. -/
lemma stage_spec {i : ℕ} {a : Approved} {block : Op Unit}
    (h : Triple (InPhase env i a [.retainInput] .stage false) block
      (fun _ w => ∃ done phase external, (Phase.cleanup ∉ done ∧ done.length < 16) ∧
        InPhase env i a done phase external w) (Halted env)) :
    Triple (InPhase env i a [.retainInput] .stage false) (do
      must env .createDirectories
      must env .removeDirectoryTree
      withCleanup env block) (fun _ => Idle env) (Halted env) := by
  refine Triple.bind (Keeps.halted (must_keeps Running.stable _)) fun _ => ?_
  exact Triple.bind (Keeps.halted (must_keeps Running.stable _)) fun _ => withCleanup_spec h

lemma install_keeps {path : Bytes} {repositoryUrl : Option Bytes} {allowUnsigned : Bool} :
    Keeps (Inv env) (install env path repositoryUrl allowUnsigned) := by
  refine execute_keeps fun i a full hfull ha => ?_
  rw [hfull, Cmd.ofOption_some, Cmd.pure_bind]
  have hpath : Names env full a := .inr ⟨path, hfull, ha⟩
  refine Triple.bind (Keeps.halted Keeps.guard) fun _ => ?_
  refine Triple.bind (Keeps.halted ((Triple.attempt (readArchive_keeps rfl fun _ => hpath)).post
    ?_)) fun _ => ?_
  · rintro (_ | _) w hw
    · exact hw
    · exact hw.elim fun _ h => h
  refine Triple.bind (Keeps.halted storeName_keeps) fun storedName => ?_
  refine Triple.bind (Keeps.halted Keeps.ofOption) fun root => ?_
  refine Triple.bind (Keeps.halted Keeps.ofOption) fun tempRoot => ?_
  refine Triple.bind (Keeps.halted Keeps.ofOption) fun packageStore => ?_
  refine Triple.bind (Keeps.halted Keeps.ofOption) fun staging => ?_
  refine Triple.bind (Keeps.halted Keeps.ofOption) fun stored => ?_
  exact Triple.bind start_spec fun _ => stage_spec (installBlock_spec hpath)

lemma upgrade_keeps {path : Bytes} {repositoryUrl : Option Bytes} {allowUnsigned : Bool}
    {oldVersion : Bytes} :
    Keeps (Inv env) (upgrade env path repositoryUrl allowUnsigned oldVersion) := by
  refine execute_keeps fun i a full hfull ha => ?_
  rw [hfull, Cmd.ofOption_some, Cmd.pure_bind]
  have hpath : Names env full a := .inr ⟨path, hfull, ha⟩
  refine Triple.bind (Keeps.halted storeName_keeps) fun base => Triple.bind start_spec fun _ => ?_
  refine Triple.bind (Keeps.halted Keeps.ofOption) fun root => ?_
  refine Triple.bind (Keeps.halted Keeps.ofOption) fun temp => ?_
  refine Triple.bind (Keeps.halted Keeps.ofOption) fun store => ?_
  refine Triple.bind (Keeps.halted Keeps.ofOption) fun stage => ?_
  refine Triple.bind (Keeps.halted Keeps.ofOption) fun stored => ?_
  exact stage_spec (upgradeBlock_spec hpath)

lemma remove_keeps {packageName : Bytes} : Keeps (Inv env) (remove env packageName) := by
  have hstable : Stable env (Inv env) := fun _ h => h.advance
  refine Keeps.guard.bind fun _ => Keeps.guard.bind fun _ => Keeps.ofOption.bind fun root => ?_
  refine Keeps.ofOption.bind fun tempRoot => Keeps.ofOption.bind fun packageStore => ?_
  refine Keeps.ofOption.bind fun staging => Keeps.guard.bind fun _ => ?_
  refine Keeps.ofOption.bind fun stored => (must_keeps hstable _).bind fun _ => ?_
  refine execute_keeps fun i a full hfull ha => Triple.bind start_spec fun _ => ?_
  exact stage_spec (removeBlock_spec (.inl ⟨full, hfull, ha⟩))

lemma scheduleSelfUpgrade_keeps {path : Bytes} {repositoryUrl : Option Bytes}
    {allowUnsigned : Bool} {oldVersion : Bytes} :
    Keeps (Inv env) (scheduleSelfUpgrade env path repositoryUrl allowUnsigned oldVersion) := by
  refine execute_keeps fun i a full hfull ha => ?_
  have hpath : Names env full a := .inr ⟨path, hfull, ha⟩
  refine Triple.bind (Keeps.halted (must_keeps Running.stable _)) fun _ => ?_
  rw [hfull, Cmd.ofOption_some, Cmd.pure_bind]
  refine Triple.bind (Keeps.halted (must_keeps Running.stable _)) fun _ => ?_
  refine Triple.bind (Keeps.halted (must_keeps Running.stable _)) fun _ => ?_
  refine Triple.bind (Triple.attempt (Triple.onFail (handoffBlock_spec hpath) noteFailure_keeps))
    fun result => ?_
  cases result with
  | false =>
    refine Triple.bind (work_keeps Halted.stable _) fun _ => ?_
    exact Triple.bind (Q := fun _ _ => False) (Triple.guard (fun h => nomatch h.2) fun _ _ hw => hw)
      fun _ => fun _ hw => hw.elim
  | true =>
    refine Triple.of_exists fun _ => ?_
    refine Triple.bind (Keeps.halted (work_keeps Running.stable _)) fun _ => ?_
    refine Triple.bind (Keeps.halted Keeps.guard) fun _ => ?_
    exact completed_spec rfl

/-! ### Runs -/

/-- **The step lemma**: every step of a planned run keeps the invariant. -/
lemma step_keeps (step : Step) : Keeps (Inv env) (step.op env) := by
  cases step with
  | setSource source => exact setSource_keeps
  | confirm => exact confirm_keeps
  | install path repositoryUrl allowUnsigned => exact install_keeps
  | upgrade path repositoryUrl allowUnsigned oldVersion => exact upgrade_keeps
  | remove packageName => exact remove_keeps
  | scheduleSelfUpgrade path repositoryUrl allowUnsigned oldVersion =>
    exact scheduleSelfUpgrade_keeps

/-- **The run lemma**: the invariant holds after any steps. -/
lemma steps_inv {w : World} (h : Inv env w) (l : List Step) : Inv env (steps env l w) := by
  refine Keeps.foldl (fun c hc => ?_) h
  obtain ⟨step, -, rfl⟩ := List.mem_map.1 hc
  exact step_keeps step

/-- Every event of a planned run, up to its last one at the exit of the process, was allowed by the
events before it. -/
lemma run_history (disk : Disk) (yes : Bool) (l : List Step) :
    History (Admissible env) (run env disk yes l).trace :=
  close_spec.left (steps_inv (begin_idle disk yes).inv l)

/-- **The execution of an approved plan is linear and bound to the approval**: in every run, stopped
at any of its events; and after any steps a call that gets past `wpm_operation_archive` has consumed an
item of its own with its arguments. -/
theorem run_linear (disk : Disk) (yes : Bool) (l : List Step) (n : ℕ) :
    History Linear ((run env disk yes l).trace.drop n) ∧
      ∀ w, w = steps env l (begin env yes (World.start disk)).2 →
        ∀ action path oldVersion source allowUnsigned w',
        archive env action path oldVersion source allowUnsigned w = (some (), w') →
        w'.collecting = false → ∃ i full, env.fullPath path = some full ∧
          GotPast i action full (sourceOr (w.sourceOf source) full) (oldVersion.getD (str "none"))
            w'.trace := by
  refine ⟨((run_history disk yes l).mono fun _ _ h => h.linear).drop n, ?_⟩
  rintro w rfl action path oldVersion source allowUnsigned w' harchive hcollecting
  have hinv : Inv env (steps env l (begin env yes (World.start disk)).2) :=
    steps_inv (begin_idle disk yes).inv l
  rcases (archive_spec _ ⟨hinv, rfl⟩).1 () w' harchive with ⟨-, hcol⟩ | ⟨full, hfull, htaken⟩
  · exact absurd (hcol.symm.trans hcollecting) (by decide)
  · obtain ⟨i, hpast⟩ := htaken.gotPast
    exact ⟨i, full, hfull, hpast⟩

/-- **The recovery evidence is written ahead**: in every run, stopped at any of its events. -/
theorem run_writeAhead (disk : Disk) (yes : Bool) (l : List Step) (n : ℕ) :
    History WriteAhead ((run env disk yes l).trace.drop n) :=
  ((run_history disk yes l).mono fun _ _ h => h.writeAhead).drop n

/-- **The execution uses only the approved bytes**, whatever other processes do to the files, in every
run, stopped at any of its events, whose collected archives are answered with their own path when it
is asked for again. -/
theorem run_onlyRetained (disk : Disk) (yes : Bool) (l : List Step) (n : ℕ)
    (hreturns : env.ReturnsCollected (run env disk yes l).trace) :
    History (OnlyRetained env) ((run env disk yes l).trace.drop n) :=
  (onlyRetained_of_history (run_history disk yes l) hreturns).drop n

/-! ### A run in which another process overwrites every file it can -/

def sampleFile (n : ℕ) : FileId := ⟨1, 0, UInt32.ofNat n⟩

def sampleEnv : Env where
  dataRoot := some (str "C:\\WPM")
  fullPath path := some (if (str "C:\\").isPrefixOf path then path else str "C:\\" ++ path)
  readonly := false
  hash bytes := (bytes ++ List.replicate 32 0).take 32
  inspect view := if view 0 = str "archive" then
    some { name := str "tool", version := str "1.0.0", arch := str "x64" } else none
  validate _ _ := some (str "unsigned")
  ok _ _ := true
  stateDigest _ := some (List.replicate 32 1)
  now _ := str "2026-01-02T03:04:05.006Z"
  random n := List.replicate 16 (UInt8.ofNat n)
  exitCode _ := 0
  created n := sampleFile (n + 1)
  reads _ := 1
  storeArchives _ := []
  foreign n disk := if n < 60 then disk else { disk with contents := fun _ => str "other" }

def sampleDisk : Disk where
  names path := if path = str "c:\\tool.zip" then some (sampleFile 0) else none
  contents _ := str "archive"

def sampleSteps : List Step :=
  [.install (str "tool.zip") none true, .confirm, .install (str "tool.zip") none true]

def Event.isStored : Event → Bool
  | .stored _ => true
  | _ => false

lemma sampleEnv_returns (full : Bytes) {given : Bytes} (h : sampleEnv.fullPath given = some full) :
    sampleEnv.Returns full := by
  intro again hagain
  obtain rfl := Option.some.inj h
  obtain rfl := Option.some.inj hagain
  refine congrArg fold (if_pos ?_)
  split_ifs with hp
  · exact hp
  · exact List.isPrefixOf_iff_prefix.2 (List.prefix_append _ _)

lemma sampleRun_stores :
    (run sampleEnv sampleDisk true sampleSteps).trace.any Event.isStored = true := by
  decide +kernel

theorem run_onlyRetained_sample :
    (run sampleEnv sampleDisk true sampleSteps).trace.any Event.isStored = true ∧
    History (OnlyRetained sampleEnv) ((run sampleEnv sampleDisk true sampleSteps).trace.drop 0) :=
  ⟨sampleRun_stores, run_onlyRetained sampleDisk true sampleSteps 0
    fun _ _ _ full hfull _ => sampleEnv_returns full hfull⟩

/-! ### A full path that is answered with another one -/

/-- The current directory has a character that the code page writes as a slash, so that the full path
of `tool.zip` has a slash in it, which the next answer turns. -/
def slashedEnv : Env :=
  { sampleEnv with
    fullPath := fun path =>
      if path = str "tool.zip" then some (str "C:\\a/b\\tool.zip")
      else some (path.map fun c => if c = ch '/' then ch '\\' else c) }

/-- The file has the path with either of them. -/
def slashedDisk : Disk where
  names path := if path = str "c:\\a/b\\tool.zip" ∨ path = str "c:\\a\\b\\tool.zip" then
    some (sampleFile 0) else none
  contents _ := str "archive"

/-- Bytes that are extracted from a path. -/
def Event.extractsPath : Event → Bool
  | .read .extract (.path _) _ => true
  | _ => false

lemma Event.eq_of_extractsPath {e : Event} (h : e.extractsPath = true) :
    ∃ path bytes, e = .read .extract (.path path) bytes := by
  unfold Event.extractsPath at h
  split at h
  · exact ⟨_, _, rfl⟩
  · cases h

lemma slashedRun_extractsPath :
    (run slashedEnv slashedDisk true sampleSteps).trace.any Event.extractsPath = true := by
  decide +kernel

/-- The item is extracted from its path, where another process may have put another file. -/
theorem run_not_onlyRetained : ¬∀ (env : Env) (disk : Disk) (yes : Bool) (l : List Step) (n : ℕ),
    History (OnlyRetained env) ((run env disk yes l).trace.drop n) := by
  intro h
  obtain ⟨e, he, hpath⟩ := List.any_eq_true.1 slashedRun_extractsPath
  have hrun := h slashedEnv slashedDisk true sampleSteps 0
  rw [List.drop_zero] at hrun
  obtain ⟨before, -, hadmits⟩ := hrun.of_mem he
  obtain ⟨path, bytes, rfl⟩ := Event.eq_of_extractsPath hpath
  exact absurd hadmits.1 (by decide)

end Wpm.Operation
