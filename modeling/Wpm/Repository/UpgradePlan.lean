import Wpm.Repository.Upgrade

/-!
The upgrades that are counted, printed and attempted.

`count_upgrade_candidates`, `print_upgrade_plan` and `wpm_repo_upgrade` go through the installed
records one after the other, each with its own tests. What they find is one list, `upgrades`.
-/

namespace Wpm.Repository

open Wpm.Lib.CString Wpm.Lib.SemVer Wpm.Lib.Command Wpm.Operation

/-! ### The three loops -/

/-- `count_upgrade_candidates`. -/
def countUpgradeCandidates (l : Loaded) (sel : Selectors) : ℕ :=
  l.installed.zipIdx.countP fun p => (sel.all || requested p.1.name sel.names) &&
    sel.picksArch p.1 && (installedIsLatest l.installed p.2 p.1 &&
      !conflictingAny l.installed p.2 p.1) &&
    (l.candidate p.1 sel.version).any fun e => semverCompare e.version p.1.version = some .gt

/-- The entry that a record is upgraded to. -/
def upgradeOf (l : Loaded) (sel : Selectors) (p : InstalledEntry × ℕ) : Option PackageEntry :=
  if sel.picks p.1 && installedIsLatest l.installed p.2 p.1 && !conflictingAny l.installed p.2 p.1
  then l.newerCandidate p.1 sel.version
  else none

/-- The upgrades of the records, in their order. -/
def upgrades (l : Loaded) (sel : Selectors) (records : List (InstalledEntry × ℕ)) :
    List (InstalledEntry × PackageEntry) :=
  records.filterMap fun p => (upgradeOf l sel p).map fun e => (p.1, e)

/-- **What is counted.** -/
lemma countUpgradeCandidates_eq (l : Loaded) (sel : Selectors) :
    countUpgradeCandidates l sel = (upgrades l sel l.installed.zipIdx).length := by
  rw [countUpgradeCandidates, upgrades, List.length_filterMap_eq_countP]
  congr 1
  funext p
  have hnewer : (l.newerCandidate p.1 sel.version).isSome = (l.candidate p.1 sel.version).any
      fun e => semverCompare e.version p.1.version = some .gt := by
    unfold Loaded.newerCandidate
    cases l.candidate p.1 sel.version with
    | none => rfl
    | some e => rw [Option.filter_some, Option.any_some]; split <;> simp [*]
  rw [Option.isSome_map, upgradeOf, ← hnewer, Selectors.picks]
  cases (sel.all || requested p.1.name sel.names) <;> cases sel.picksArch p.1 <;>
    cases installedIsLatest l.installed p.2 p.1 <;>
    cases conflictingAny l.installed p.2 p.1 <;> simp

/-- **What is printed** before an upgrade of everything. -/
lemma printedPlan_eq {l : Loaded} {sel : Selectors} (hall : sel.all = true)
    (hversion : sel.version = none) : printedPlan l sel =
      (upgrades l sel l.installed.zipIdx).map fun a => planLine a.1 a.2 := by
  rw [printedPlan, upgrades, List.map_filterMap]
  refine List.filterMap_congr fun p _ => ?_
  rw [Option.map_map, upgradeOf, Selectors.picks, hall, hversion, Bool.true_or, Bool.true_and]
  split <;> rfl

section

variable {σ : Type} {rest : Rest σ} {sel : Selectors} {l : Loaded}

/-- The body of the loop, for a record that is upgraded. -/
lemma upgradeStep_of_some {t : Tally} {p : InstalledEntry × ℕ} {e : PackageEntry}
    (h : upgradeOf l sel p = some e) : upgradeStep rest sel l t p =
      ((do
        let ok ← attemptUpgrade rest p.1 e
        pure (if ok then t.process else t.process.fail)) : Cmd (Session σ) Tally) := by
  rw [upgradeOf, Option.ite_none_right_eq_some] at h
  obtain ⟨htests, hnewer⟩ := h
  simp only [Bool.and_eq_true, Bool.not_eq_true'] at htests
  obtain ⟨⟨hpick, hlatest⟩, hconflict⟩ := htests
  rw [Loaded.newerCandidate, Option.filter_eq_some_iff] at hnewer
  obtain ⟨hcand, hgt⟩ := hnewer
  rw [upgradeStep, if_neg (by simp [hpick]), if_neg (by simp [hlatest]),
    if_neg (by simp [hconflict]), hcand]
  exact if_neg (not_not.2 (of_decide_eq_true hgt))

/-- The body of the loop, for any other record. -/
lemma upgradeStep_of_none {t : Tally} {p : InstalledEntry × ℕ} (h : upgradeOf l sel p = none) :
    ∃ t', upgradeStep rest sel l t p = pure t' := by
  unfold upgradeStep
  by_cases hpick : sel.picks p.1 = false
  · exact ⟨_, if_pos hpick⟩
  by_cases hlatest : installedIsLatest l.installed p.2 p.1 = false
  · exact ⟨t, by rw [if_neg hpick, if_pos hlatest]⟩
  by_cases hconflict : conflictingAny l.installed p.2 p.1 = true
  · exact ⟨_, by rw [if_neg hpick, if_neg hlatest, if_pos hconflict]⟩
  rw [if_neg hpick, if_neg hlatest, if_neg hconflict]
  simp only [Bool.not_eq_false, Bool.not_eq_true] at hpick hlatest hconflict
  rw [upgradeOf, hpick, hlatest, hconflict, if_pos (by rfl), Loaded.newerCandidate] at h
  cases hcand : l.candidate p.1 sel.version with
  | none => exact ⟨_, rfl⟩
  | some e =>
    rw [hcand, Option.filter_some, ite_eq_iff] at h
    obtain ⟨-, h⟩ | ⟨hgt, -⟩ := h
    · exact absurd h (by simp)
    · exact ⟨_, if_pos (by simpa using hgt)⟩

/-- **The step**: the body of the loop attempts the upgrade of its record, if there is one, and
goes on. -/
lemma upgradeStep_eq (t : Tally) (p : InstalledEntry × ℕ) (s : Session σ) :
    ∃ t' world, upgradeStep rest sel l t p s =
      (some t', ⟨(upgrades l sel [p]).reverse ++ s.attempts, world⟩) := by
  cases h : upgradeOf l sel p with
  | none =>
    obtain ⟨t', ht'⟩ := @upgradeStep_of_none σ rest sel l t p h
    refine ⟨t', s.world, ?_⟩
    rw [ht', upgrades, List.filterMap_cons_none (by rw [h]; rfl)]
    rfl
  | some e =>
    rw [upgradeStep_of_some h, upgrades, List.filterMap_cons_some (by rw [h]; rfl)]
    exact ⟨_, _, rfl⟩

/-- **The loop**: it attempts the upgrades in the order of the records. -/
lemma upgradeLoop_eq (records : List (InstalledEntry × ℕ)) : ∀ (t : Tally) (s : Session σ),
    ∃ t' world, (records.foldlM (upgradeStep rest sel l) t) s =
      (some t', ⟨(upgrades l sel records).reverse ++ s.attempts, world⟩) := by
  induction records with
  | nil => exact fun t s => ⟨t, s.world, rfl⟩
  | cons p records ih =>
    intro t s
    obtain ⟨t1, world1, h1⟩ := @upgradeStep_eq σ rest sel l t p s
    obtain ⟨t2, world2, h2⟩ := ih t1 ⟨(upgrades l sel [p]).reverse ++ s.attempts, world1⟩
    refine ⟨t2, world2, ?_⟩
    have hcons : upgrades l sel (p :: records) = upgrades l sel [p] ++ upgrades l sel records :=
      List.filterMap_append (l := [p])
    rw [List.foldlM_cons, Cmd.bind_of_some h1, hcons, List.reverse_append, List.append_assoc]
    exact h2

/-- The question leaves the attempts alone. -/
lemma askUpgrade_attempts (collecting : Bool) (s : Session σ) :
    (askUpgrade rest sel l collecting s).2.attempts = s.attempts := by
  unfold askUpgrade
  split
  · rfl
  · rfl

/-- **What is attempted**: every upgrade if the call goes on after the question, and otherwise
nothing. -/
lemma upgradeLoaded_attempts (collecting : Bool) (world : σ) :
    (upgradeLoaded rest sel l collecting ⟨[], world⟩).2.attempts =
      if (askUpgrade rest sel l collecting ⟨[], world⟩).1 = some true then
        (upgrades l sel l.installed.zipIdx).reverse
      else [] := by
  have hnone := @askUpgrade_attempts σ rest sel l collecting ⟨[], world⟩
  unfold upgradeLoaded
  rcases hask : askUpgrade rest sel l collecting ⟨[], world⟩ with ⟨_ | proceed, s⟩
  · rw [hask] at hnone
    rw [Cmd.bind_of_none hask, if_neg (by simp)]
    exact hnone
  rw [hask] at hnone
  rw [Cmd.bind_of_some hask]
  cases proceed
  · rw [if_neg (by simp)]
    exact hnone
  · obtain ⟨t, world', hloop⟩ := @upgradeLoop_eq σ rest sel l l.installed.zipIdx ⟨0, 0⟩ s
    rw [if_pos rfl, if_pos rfl, Cmd.bind_of_some hloop, hnone, List.append_nil]
    unfold Cmd.guard
    split
    · rfl
    · rfl

end

/-! ### Counting, printing and doing -/

/-- The selectors that the command line admits. -/
def Selectors.Admitted (sel : Selectors) : Prop :=
  ¬((sel.all = false ∧ sel.names = []) ∨ (sel.all = true ∧ sel.names ≠ []) ∨
    (sel.all = true ∧ sel.version.isSome = true))

/-- The upgrades that a call of `wpm_repo_upgrade` attempts, in their order. -/
def attempted {σ : Type} (rest : Rest σ) (sel : Selectors) (collecting : Bool) (targetArch : Bytes)
    (policy : Option Bytes) (found : List (Option PackageInfo)) (entries : List PackageEntry)
    (world : σ) : List (InstalledEntry × PackageEntry) :=
  (repoUpgrade rest sel collecting targetArch policy (some found) (some entries)
    ⟨[], world⟩).2.attempts.reverse

/-- The call goes on to the upgrades: the selected version is one, and the question, if it is asked,
is answered with yes. -/
def GoesOn {σ : Type} (rest : Rest σ) (sel : Selectors) (l : Loaded) (collecting : Bool)
    (world : σ) : Prop :=
  (sel.version.all fun v => (semverParse v).isSome) = true ∧
    (askUpgrade rest sel l collecting ⟨[], world⟩).1 = some true

section

variable {σ : Type} (rest : Rest σ) (sel : Selectors) (collecting : Bool) (targetArch : Bytes)
  (policy : Option Bytes) (found : List (Option PackageInfo)) (entries : List PackageEntry)
  (world : σ)

lemma attempted_eq :
    (GoesOn rest sel ⟨targetArch, policy, loadInstalled found, entries⟩ collecting world →
      attempted rest sel collecting targetArch policy found entries world =
        upgrades ⟨targetArch, policy, loadInstalled found, entries⟩ sel
          (loadInstalled found).zipIdx) ∧
    (¬GoesOn rest sel ⟨targetArch, policy, loadInstalled found, entries⟩ collecting world →
      attempted rest sel collecting targetArch policy found entries world = []) := by
  have hrun := @upgradeLoaded_attempts σ rest sel ⟨targetArch, policy, loadInstalled found, entries⟩
    collecting world
  unfold attempted repoUpgrade
  rw [Cmd.ofOption_some, Cmd.ofOption_some, Cmd.pure_bind, Cmd.pure_bind]
  by_cases hversion : (sel.version.all fun v => (semverParse v).isSome) = true
  · rw [Cmd.guard_pos hversion, Cmd.pure_bind, hrun]
    refine ⟨fun h => ?_, fun h => ?_⟩
    · rw [if_pos h.2, List.reverse_reverse]
    · rw [if_neg fun hask => h ⟨hversion, hask⟩, List.reverse_nil]
  · refine ⟨fun h => absurd h.1 hversion, fun _ => ?_⟩
    rw [Cmd.guard, if_neg hversion]
    rfl

/-- **Counting, listing and doing agree**: a call that goes on attempts as many upgrades as
`count_upgrade_candidates` counts, whatever becomes of each, and before an upgrade of everything
`print_upgrade_plan` prints exactly these, in the same order. A call that does not go on attempts
none. -/
theorem counted_printed_attempted (hsel : sel.Admitted) :
    (GoesOn rest sel ⟨targetArch, policy, loadInstalled found, entries⟩ collecting world →
      (attempted rest sel collecting targetArch policy found entries world).length =
          countUpgradeCandidates ⟨targetArch, policy, loadInstalled found, entries⟩ sel ∧
        (sel.all = true →
          printedPlan ⟨targetArch, policy, loadInstalled found, entries⟩ sel =
            (attempted rest sel collecting targetArch policy found entries world).map
              fun a => planLine a.1 a.2)) ∧
    (¬GoesOn rest sel ⟨targetArch, policy, loadInstalled found, entries⟩ collecting world →
      attempted rest sel collecting targetArch policy found entries world = []) := by
  obtain ⟨hgo, hstop⟩ := attempted_eq rest sel collecting targetArch policy found entries world
  refine ⟨fun h => ?_, hstop⟩
  rw [hgo h]
  refine ⟨(countUpgradeCandidates_eq _ _).symm, fun hall => printedPlan_eq hall ?_⟩
  rw [Selectors.Admitted, not_or, not_or] at hsel
  exact Option.not_isSome_iff_eq_none.1 fun hsome => hsel.2.2 ⟨hall, hsome⟩

end

theorem counted_printed_attempted_sample :
    (attempted sampleRest sampleSelectors false (str "x64") none sampleFound [sampleEntry]
      ()).length = countUpgradeCandidates ⟨str "x64", none, loadInstalled sampleFound,
        [sampleEntry]⟩ sampleSelectors :=
  ((counted_printed_attempted sampleRest sampleSelectors false (str "x64") none sampleFound
    [sampleEntry] () (by unfold Selectors.Admitted; decide)).1
      ⟨by decide, by decide⟩).1

/-! ### One upgrade for each package -/

/-- `obtain` and `candidate_matches`: the archive of an entry, if it says what the entry says. -/
def matchedArchive (inspect : Bytes → Option PackageInfo) (obtain : PackageEntry → Option Bytes)
    (e : PackageEntry) : Option Bytes :=
  (obtain e).filter fun path => (inspect path).any fun info =>
    fold info.name = fold e.name && fold info.arch = fold e.arch && info.version = e.version

/-- **At most one upgrade for each name and architecture**, and so no archive twice: the search of
`wpm_operation_archive` for the archive among the collected ones, ignoring case, finds none. -/
structure OneEach (attempts : List (InstalledEntry × PackageEntry)) : Prop where
  distinct : (attempts.map fun a => (fold a.1.name, fold a.1.arch)).Nodup
  collected : ∀ (inspect : Bytes → Option PackageInfo) (obtain : PackageEntry → Option Bytes),
    (∀ p q, fold p = fold q → inspect p = inspect q) →
      ((attempts.filterMap fun a => matchedArchive inspect obtain a.2).map fold).Nodup

/-- No record that is upgraded has another record beside it, of its name and architecture, whose
version has the same precedence. -/
def Untied (l : Loaded) (sel : Selectors) : Prop :=
  ∀ (i : ℕ) (a : InstalledEntry), l.installed[i]? = some a → (upgradeOf l sel (a, i)).isSome = true →
    ∀ (j : ℕ) (b : InstalledEntry), l.installed[j]? = some b → j ≠ i → fold b.name = fold a.name →
      fold b.arch = fold a.arch → semverCompare b.version a.version ≠ some .eq

/-- The tests that `upgradeOf` makes. -/
lemma upgradeOf_eq_some {l : Loaded} {sel : Selectors} {p : InstalledEntry × ℕ} {e : PackageEntry} :
    upgradeOf l sel p = some e ↔ (sel.picks p.1 = true ∧
      installedIsLatest l.installed p.2 p.1 = true ∧ conflictingAny l.installed p.2 p.1 = false) ∧
      l.candidate p.1 sel.version = some e ∧ semverCompare e.version p.1.version = some .gt := by
  rw [upgradeOf, Option.ite_none_right_eq_some, Loaded.newerCandidate, Option.filter_eq_some_iff,
    decide_eq_true_iff]
  simp only [Bool.and_eq_true, Bool.not_eq_true', and_assoc]

/-- The candidate depends on the name and the architecture of the record, ignoring case. -/
lemma Loaded.candidate_congr {l : Loaded} {a b : InstalledEntry} {version : Option Bytes}
    (hname : fold b.name = fold a.name) (harch : fold b.arch = fold a.arch) :
    l.candidate b version = l.candidate a version := by
  have hpolicy := prereleaseEffective_congr l.policy hname
  unfold Loaded.candidate selectCandidate
  congr 1
  funext selected e
  simp only [selectStep, Wanted.Admits, hname, hpolicy, Option.getD_some, harch, reduceCtorEq,
    and_false, if_false]

/-- The entry of an upgrade has the name and the architecture of the record. -/
lemma key_of_upgradeOf {l : Loaded} {sel : Selectors} {p : InstalledEntry × ℕ} {e : PackageEntry}
    (h : upgradeOf l sel p = some e) :
    fold e.name = fold p.1.name ∧ fold e.arch = fold p.1.arch := by
  obtain ⟨-, hcand, -⟩ := upgradeOf_eq_some.1 h
  obtain ⟨-, hname, harch, -⟩ := Loaded.candidate_spec hcand
  exact ⟨hname, harch⟩

/-- **A tie is upgraded with its record.** -/
lemma upgradeOf_of_tie {l : Loaded} {sel : Selectors} {i j : ℕ} {a b : InstalledEntry}
    (hi : l.installed[i]? = some a) (hname : fold b.name = fold a.name)
    (harch : fold b.arch = fold a.arch) (htie : semverCompare b.version a.version = some .eq)
    (h : (upgradeOf l sel (a, i)).isSome = true) : (upgradeOf l sel (b, j)).isSome = true := by
  obtain ⟨e, he⟩ := Option.isSome_iff_exists.1 h
  obtain ⟨⟨hpick, hlatest, hconflict⟩, hcand, hgt⟩ := upgradeOf_eq_some.1 he
  obtain ⟨u, hu, w, hw, hwu⟩ : ∃ u, versionOf a.version = some u ∧
      ∃ w, versionOf b.version = some w ∧ precedence w u = .eq := by
    rw [semverCompare_eq, Option.bind_eq_some_iff] at htie
    obtain ⟨w, hw, htie⟩ := htie
    obtain ⟨u, hu, htie⟩ := Option.map_eq_some_iff.1 htie
    exact ⟨u, hu, w, hw, htie⟩
  have hsame : ∀ text, semverCompare text b.version = semverCompare text a.version := by
    intro text
    rw [semverCompare_eq, semverCompare_eq, hu, hw]
    cases versionOf text with
    | none => rfl
    | some v => exact congrArg some (Std.TransCmp.congr_right hwu)
  refine Option.isSome_iff_exists.2 ⟨e, upgradeOf_eq_some.2 ⟨⟨?_, ?_, ?_⟩, ?_, ?_⟩⟩
  · -- the selectors look at the name and the architecture
    rw [← hpick]
    unfold Selectors.picks Selectors.picksArch requested
    rw [hname, harch]
  · -- nothing is newer than the tie
    unfold installedIsLatest at hlatest ⊢
    refine List.all_eq_true.2 fun p hp => ?_
    have hall := List.all_eq_true.1 hlatest p hp
    rw [hname, harch, hsame]
    by_cases hpi : p.2 = i
    · have hpa : p.1 = a := by
        have hget := List.mem_zipIdx_iff_getElem?.1 hp
        rw [hpi, hi] at hget
        exact (Option.some.inj hget).symm
      have heq : semverCompare p.1.version a.version = some .eq := by
        rw [hpa, semverCompare_eq, hu]
        exact congrArg some Std.ReflCmp.compare_self
      simp [heq]
    · simp only [ne_eq, hpi, not_false_eq_true, decide_true, Bool.true_and] at hall
      simp only [Bool.not_eq_true', Bool.and_eq_false_iff] at hall ⊢
      tauto
  · -- a conflict of the tie is one of the record
    unfold conflictingAny at hconflict ⊢
    rw [harch, hname]
    by_cases hany : fold a.arch = str "any"
    · rw [decide_eq_true hany, Bool.true_and] at hconflict ⊢
      refine List.any_eq_false.2 fun p hp => ?_
      have hnone := List.any_eq_false.1 hconflict p hp
      by_cases hpi : p.2 = i
      · have hpa : p.1 = a := by
          have hget := List.mem_zipIdx_iff_getElem?.1 hp
          rw [hpi, hi] at hget
          exact (Option.some.inj hget).symm
        simp [hpa, hany]
      · simp only [ne_eq, hpi, not_false_eq_true, decide_true, Bool.true_and] at hnone
        simp only [Bool.and_eq_true, not_and] at hnone ⊢
        exact fun hj => hnone hj.2
    · rw [decide_eq_false hany, Bool.false_and]
  · exact (Loaded.candidate_congr hname harch).trans hcand
  · rw [hsame]
    exact hgt

/-- Two records of one name and architecture that are both upgraded are a tie. -/
lemma tie_of_upgrades {l : Loaded} {sel : Selectors}
    (hl : ∀ item ∈ l.installed, ∃ v, versionOf item.version = some v) {i j : ℕ}
    {a b : InstalledEntry} (hi : l.installed[i]? = some a) (hj : l.installed[j]? = some b)
    (hname : fold b.name = fold a.name) (harch : fold b.arch = fold a.arch)
    (ha : (upgradeOf l sel (a, i)).isSome = true) (hb : (upgradeOf l sel (b, j)).isSome = true) :
    semverCompare b.version a.version = some .eq := by
  obtain ⟨e, he⟩ := Option.isSome_iff_exists.1 ha
  obtain ⟨f, hf⟩ := Option.isSome_iff_exists.1 hb
  have hmema := List.mem_of_getElem? hi
  have hmemb := List.mem_of_getElem? hj
  obtain ⟨u, hu⟩ := hl a hmema
  obtain ⟨w, hw⟩ := hl b hmemb
  have hle : (precedence w u).isLE := installedIsLatest_spec (upgradeOf_eq_some.1 he).1.2.1 hi hmemb
    hname.symm harch.symm hu hw
  have hge : (precedence u w).isLE := installedIsLatest_spec (upgradeOf_eq_some.1 hf).1.2.1 hj hmema
    hname harch hw hu
  rw [semverCompare_eq, hw, hu]
  exact congrArg some (Std.OrientedCmp.isLE_antisymm hle hge)

/-- **The names and architectures of the upgrades differ** exactly if there are no ties. -/
lemma upgrades_nodup_iff {l : Loaded} {sel : Selectors}
    (hl : ∀ item ∈ l.installed, ∃ v, versionOf item.version = some v) :
    ((upgrades l sel l.installed.zipIdx).map fun a => (fold a.1.name, fold a.1.arch)).Nodup ↔
      Untied l sel := by
  rw [List.Nodup, List.pairwise_map, upgrades, List.pairwise_filterMap]
  constructor
  · intro h i a hi ha j b hj hji hname harch htie
    have hb : (upgradeOf l sel (b, j)).isSome = true := upgradeOf_of_tie hi hname harch htie ha
    obtain ⟨e, he⟩ := Option.isSome_iff_exists.1 ha
    obtain ⟨f, hf⟩ := Option.isSome_iff_exists.1 hb
    have hget : ∀ {k : ℕ} {c : InstalledEntry}, l.installed[k]? = some c →
        ∃ hk : k < l.installed.zipIdx.length, l.installed.zipIdx[k] = (c, k) := by
      intro k c hk
      obtain ⟨hlt, hc⟩ := List.getElem?_eq_some_iff.1 hk
      exact ⟨by simpa using hlt, by simp [hc]⟩
    obtain ⟨hilt, hi'⟩ := hget hi
    obtain ⟨hjlt, hj'⟩ := hget hj
    rcases Nat.lt_or_gt_of_ne hji with hlt | hlt
    · refine List.pairwise_iff_getElem.1 h j i hjlt hilt hlt (b, f) ?_ (a, e) ?_ ?_
      · rw [hj', hf]
        rfl
      · rw [hi', he]
        rfl
      · exact Prod.ext hname harch
    · refine List.pairwise_iff_getElem.1 h i j hilt hjlt hlt (a, e) ?_ (b, f) ?_ ?_
      · rw [hi', he]
        rfl
      · rw [hj', hf]
        rfl
      · exact Prod.ext hname.symm harch.symm
  · intro h
    refine List.pairwise_iff_getElem.2 fun i j hi hj hlt p hp q hq hkey => ?_
    rw [List.getElem_zipIdx] at hp hq
    obtain ⟨e, he, rfl⟩ := Option.map_eq_some_iff.1 hp
    obtain ⟨f, hf, rfl⟩ := Option.map_eq_some_iff.1 hq
    have hilt : i < l.installed.length := by simpa using hi
    have hjlt : j < l.installed.length := by simpa using hj
    have hi' : l.installed[0 + i]? = some l.installed[i] := by simp
    have hj' : l.installed[0 + j]? = some l.installed[j] := by simp
    obtain ⟨hname, harch⟩ := Prod.mk.inj hkey
    have hae := Option.isSome_iff_exists.2 ⟨e, he⟩
    have hbf := Option.isSome_iff_exists.2 ⟨f, hf⟩
    exact h _ _ hi' hae _ _ hj' (by omega) hname.symm harch.symm
      (tie_of_upgrades hl hi' hj' hname.symm harch.symm hae hbf)

/-- Different names or architectures mean different archives. -/
lemma oneEach_of_nodup {l : Loaded} {sel : Selectors} {records : List (InstalledEntry × ℕ)}
    (h : ((upgrades l sel records).map fun a => (fold a.1.name, fold a.1.arch)).Nodup) :
    OneEach (upgrades l sel records) := by
  refine ⟨h, fun inspect obtain hcase => ?_⟩
  have hmem : ∀ a ∈ upgrades l sel records,
      fold a.2.name = fold a.1.name ∧ fold a.2.arch = fold a.1.arch := by
    intro a ha
    obtain ⟨p, -, hp⟩ := List.mem_filterMap.1 ha
    obtain ⟨e, he, rfl⟩ := Option.map_eq_some_iff.1 hp
    exact key_of_upgradeOf he
  rw [List.Nodup, List.pairwise_map] at h ⊢
  rw [List.pairwise_filterMap]
  refine List.Pairwise.imp_of_mem ?_ h
  intro a b ha hb hne p hp q hq hpath
  obtain ⟨-, hpa⟩ := Option.filter_eq_some_iff.1 hp
  obtain ⟨-, hqb⟩ := Option.filter_eq_some_iff.1 hq
  rw [hcase p q hpath] at hpa
  obtain ⟨info, hinfo⟩ : ∃ info, inspect q = some info := by
    cases hinfo : inspect q with
    | none => exact absurd (hinfo ▸ hpa) (by simp)
    | some info => exact ⟨info, rfl⟩
  rw [hinfo, Option.any_some] at hpa hqb
  simp only [Bool.and_eq_true, decide_eq_true_iff] at hpa hqb
  obtain ⟨han, haa⟩ := hmem a ha
  obtain ⟨hbn, hba⟩ := hmem b hb
  refine hne (Prod.ext ?_ ?_)
  · rw [← han, ← hpa.1.1, hqb.1.1, hbn]
  · rw [← haa, ← hpa.1.2, hqb.1.2, hba]

/-- **One upgrade for each package** is attempted exactly if the call stops before the upgrades, or
no record that is upgraded is tied with another one. -/
theorem oneEach_iff {σ : Type} (rest : Rest σ) (sel : Selectors) (collecting : Bool)
    (targetArch : Bytes) (policy : Option Bytes) (found : List (Option PackageInfo))
    (entries : List PackageEntry) (world : σ) :
    OneEach (attempted rest sel collecting targetArch policy found entries world) ↔
      (GoesOn rest sel ⟨targetArch, policy, loadInstalled found, entries⟩ collecting world →
        Untied ⟨targetArch, policy, loadInstalled found, entries⟩ sel) := by
  obtain ⟨hgo, hstop⟩ := attempted_eq rest sel collecting targetArch policy found entries world
  have hl : ∀ item ∈ loadInstalled found, ∃ v, versionOf item.version = some v :=
    fun item h => versionOf_loadInstalled h
  constructor
  · intro h hgoes
    rw [hgo hgoes] at h
    exact (upgrades_nodup_iff hl).1 h.distinct
  · intro h
    by_cases hgoes : GoesOn rest sel ⟨targetArch, policy, loadInstalled found, entries⟩ collecting
      world
    · rw [hgo hgoes]
      exact oneEach_of_nodup ((upgrades_nodup_iff hl).2 (h hgoes))
    · rw [hstop hgoes]
      exact ⟨List.nodup_nil, fun _ _ _ => List.nodup_nil⟩

/-- Two retained archives whose versions differ in their build metadata. -/
def sampleBuilds : List (Option PackageInfo) :=
  [some ⟨str "tool", str "1.0.0+a", str "x64"⟩, some ⟨str "tool", str "1.0.0+b", str "x64"⟩]

theorem upgrade_twice : ¬OneEach (attempted sampleRest ⟨false, [str "tool"], none, none⟩ true
    (str "x64") none sampleBuilds [sampleEntry] ()) := by
  intro h
  exact absurd h.distinct (by decide)

end Wpm.Repository
