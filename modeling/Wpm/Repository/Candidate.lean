import Wpm.Lib.Best
import Wpm.Repository.Select

/-!
The entry that `select_candidate` chooses is the best of the eligible ones.
-/

namespace Wpm.Repository

open Wpm.Lib Wpm.Lib.CString Wpm.Lib.SemVer

/-- An entry that `select_candidate` may choose: admitted, and of the architecture asked for. -/
def Wanted.Eligible (w : Wanted) (e : PackageEntry) : Prop :=
  w.Admits e ∧ if w.installMode ∧ w.arch = none then
      fold e.arch = fold w.targetArch ∨ fold e.arch = str "any"
    else fold e.arch = fold (w.arch.getD [])

instance (w : Wanted) (e : PackageEntry) : Decidable (w.Eligible e) :=
  inferInstanceAs (Decidable (_ ∧ _))

/-- An installation that names no architecture prefers the native one. -/
def Wanted.native (w : Wanted) (e : PackageEntry) : Bool :=
  w.installMode && w.arch.isNone && fold e.arch = fold w.targetArch

instance : Ord Version := ⟨precedence⟩

instance : Std.TransOrd Version := inferInstanceAs (Std.TransCmp precedence)

/-- **The rank of the entries**: the native architecture, the precedence of the version, the
priority of the repository, and the place of the repository from behind. -/
def Wanted.rank (w : Wanted) : PackageEntry → PackageEntry → Ordering :=
  compareLex (compareOn w.native) (compareLex (compareOn fun e => versionOf e.version)
    (compareLex (compareOn PackageEntry.priority) fun a b => compareOn PackageEntry.order b a))

instance (w : Wanted) : Std.TransCmp w.rank :=
  inferInstanceAs (Std.TransCmp (compareLex _ (compareLex _ (compareLex _ _))))

lemma versionOf_of_admits {w : Wanted} {e : PackageEntry} (h : w.Admits e) :
    ∃ v, versionOf e.version = some v := by
  obtain ⟨v, hv⟩ := Option.isSome_iff_exists.1 h.2.1
  exact ⟨v.version, congrArg (Option.map Semver.version) hv⟩

/-- `better_candidate` is the rank, without the architecture. -/
lemma betterCandidate_iff {w : Wanted} {e s : PackageEntry} (he : w.Admits e) (hs : w.Admits s)
    (hnative : w.native e = w.native s) : betterCandidate e (some s) = true ↔ w.rank e s = .gt := by
  obtain ⟨v, hv⟩ := versionOf_of_admits he
  obtain ⟨u, hu⟩ := versionOf_of_admits hs
  have hcmp : semverCompare e.version s.version = some (precedence v u) := by
    rw [semverCompare_eq, hv, hu]
    rfl
  have hself : compareOn w.native e s = .eq := by
    rw [compareOn, hnative]
    exact Std.ReflOrd.compare_self
  have hversion : compareOn (fun e : PackageEntry => versionOf e.version) e s = precedence v u := by
    rw [compareOn, hv, hu]
    rfl
  have hrank : w.rank e s = (precedence v u).then ((compare e.priority s.priority).then
      (compare s.order e.order)) := by
    rw [Wanted.rank, compareLex, hself, compareLex, hversion]
    rfl
  have hbetter : betterCandidate e (some s) = (precedence v u = .gt ||
      (precedence v u = .eq && (s.priority < e.priority ||
        (e.priority = s.priority && e.order < s.order)))) := by
    rw [betterCandidate, hcmp]
  rw [hrank, hbetter]
  simp only [Bool.or_eq_true, Bool.and_eq_true, decide_eq_true_eq, Ordering.then_eq_gt,
    compare_gt_iff_gt, compare_eq_iff_eq]

/-- The architecture decides first. -/
lemma rank_of_native {w : Wanted} {e s : PackageEntry} (he : w.native e = true)
    (hs : w.native s = false) : w.rank e s = .gt ∧ w.rank s e = .lt := by
  have hes : compareOn w.native e s = .gt := by
    rw [compareOn, he, hs]
    rfl
  have hse : compareOn w.native s e = .lt := by
    rw [compareOn, he, hs]
    rfl
  exact ⟨by rw [Wanted.rank, compareLex, hes]; rfl, by rw [Wanted.rank, compareLex, hse]; rfl⟩

/-- An entry that is better is taken, if it is of the same kind of architecture. -/
lemma better_eq_step {w : Wanted} {selected : Option PackageEntry} {e : PackageEntry}
    (he : w.Admits e) (hs : ∀ s ∈ selected, w.Admits s ∧ w.native e = w.native s) :
    (if betterCandidate e selected then some e else selected) = Best.step w.rank selected e := by
  cases selected with
  | none => rfl
  | some s =>
    obtain ⟨hadmits, hnative⟩ := hs s rfl
    exact if_congr (betterCandidate_iff he hadmits hnative) rfl rfl

/-- **The step** of `select_candidate` is the step of the pass that holds the best entry. -/
lemma selectStep_eq {w : Wanted} {selected : Option PackageEntry} {e : PackageEntry}
    (htarget : fold w.targetArch ≠ str "any") (hs : ∀ s ∈ selected, w.Eligible s) :
    selectStep w selected e =
      if w.Eligible e then Best.step w.rank selected e else selected := by
  unfold selectStep
  by_cases hadmits : w.Admits e
  swap
  · rw [if_pos hadmits, if_neg fun h => hadmits h.1]
  rw [if_neg (not_not.2 hadmits)]
  by_cases hmode : w.installMode = true ∧ w.arch = none
  · have heligible : ∀ x, w.Eligible x ↔
        w.Admits x ∧ (fold x.arch = fold w.targetArch ∨ fold x.arch = str "any") := by
      intro x
      rw [Wanted.Eligible, if_pos hmode]
    have hnative : ∀ x, w.native x = decide (fold x.arch = fold w.targetArch) := by
      intro x
      simp [Wanted.native, hmode]
    have hany : ∀ x : PackageEntry, fold x.arch = str "any" → w.native x = false := by
      intro x hx
      rw [hnative, hx]
      exact decide_eq_false htarget.symm
    rw [if_pos hmode]
    by_cases hneither : fold e.arch ≠ fold w.targetArch ∧ fold e.arch ≠ str "any"
    · rw [if_pos hneither, if_neg]
      intro h
      exact ((heligible e).1 h).2.elim hneither.1 hneither.2
    have harch : fold e.arch = fold w.targetArch ∨ fold e.arch = str "any" := by
      by_contra h
      exact hneither (not_or.1 h)
    rw [if_neg hneither, if_pos ((heligible e).2 ⟨hadmits, harch⟩)]
    cases selected with
    | none => rfl
    | some s =>
      obtain ⟨hsadmits, hsarch⟩ := (heligible s).1 (hs s rfl)
      have hstep : Best.step w.rank (some s) e =
        if w.rank e s = .gt then some e else some s := rfl
      simp only [Option.any_some, decide_eq_true_eq]
      rcases harch with he | he
      · have hne : fold e.arch ≠ str "any" := fun h => htarget (he.symm.trans h)
        have hen : w.native e = true := by rw [hnative, decide_eq_true he]
        rw [if_neg fun h => hne h.2]
        rcases hsarch with hn | hn
        · -- both are native
          rw [if_neg fun h => htarget (hn.symm.trans h.1)]
          refine better_eq_step hadmits fun x hx => ?_
          obtain rfl := Option.some.inj hx
          exact ⟨hsadmits, by rw [hnative, hnative, he, hn]⟩
        · -- the native one replaces the one for any architecture
          rw [if_pos ⟨hn, he⟩, hstep, if_pos (rank_of_native hen (hany s hn)).1]
      · have hne : fold e.arch ≠ fold w.targetArch := fun h => htarget (h.symm.trans he)
        rcases hsarch with hn | hn
        · -- the native one stays
          have hsn : w.native s = true := by rw [hnative, decide_eq_true hn]
          rw [if_pos ⟨hn, he⟩, hstep, if_neg]
          rw [(rank_of_native hsn (hany e he)).2]
          decide
        · -- both are for any architecture
          rw [if_neg fun h => htarget (h.1.symm.trans hn), if_neg fun h => hne h.2]
          refine better_eq_step hadmits fun x hx => ?_
          obtain rfl := Option.some.inj hx
          exact ⟨hsadmits, by rw [hany e he, hany s hn]⟩
  · have heligible : ∀ x, w.Eligible x ↔ w.Admits x ∧ fold x.arch = fold (w.arch.getD []) := by
      intro x
      rw [Wanted.Eligible, if_neg hmode]
    have hnative : ∀ x, w.native x = false := by
      intro x
      rw [not_and] at hmode
      cases hi : w.installMode
      · simp [Wanted.native, hi]
      · have := hmode hi
        simp [Wanted.native, Option.isNone_iff_eq_none, this]
    rw [if_neg hmode]
    by_cases harch : fold e.arch = fold (w.arch.getD [])
    · rw [if_neg (not_not.2 harch), if_pos ((heligible e).2 ⟨hadmits, harch⟩)]
      exact better_eq_step hadmits fun x hx =>
        ⟨((heligible x).1 (hs x hx)).1, (hnative e).trans (hnative x).symm⟩
    · rw [if_pos harch, if_neg fun h => harch ((heligible e).1 h).2]

/-- `select_candidate` is the pass over the eligible entries. -/
lemma selectCandidate_eq {w : Wanted} (htarget : fold w.targetArch ≠ str "any")
    (entries : List PackageEntry) : selectCandidate entries w =
      (entries.filter fun e => w.Eligible e).foldl (Best.step w.rank) none := by
  have hrun : ∀ (entries : List PackageEntry) (selected : Option PackageEntry),
      (∀ s ∈ selected, w.Eligible s) → entries.foldl (selectStep w) selected =
        (entries.filter fun e => w.Eligible e).foldl (Best.step w.rank) selected := by
    intro entries
    induction entries with
    | nil => exact fun _ _ => rfl
    | cons e entries ih =>
      intro selected hs
      rw [List.foldl_cons, selectStep_eq htarget hs]
      by_cases he : w.Eligible e
      · rw [if_pos he, List.filter_cons, if_pos (decide_eq_true he), List.foldl_cons]
        refine ih _ fun s h => ?_
        cases selected with
        | none => exact Option.some.inj h ▸ he
        | some t =>
          simp only [Best.step, Option.mem_def] at h
          split_ifs at h
          · exact Option.some.inj h ▸ he
          · exact hs s h
      · rw [if_neg he, List.filter_cons, if_neg (by simpa using he)]
        exact ih selected hs
  exact hrun entries none fun s h => absurd h (by simp)

/-- **`select_candidate` returns the optimum**: nothing exactly if no entry is eligible, and
otherwise the first of the eligible entries of the highest rank. Any other order of the list that
keeps the order within each repository gives the same entry. -/
theorem selectCandidate_optimal (w : Wanted) (entries : List PackageEntry)
    (htarget : fold w.targetArch ≠ str "any") :
    (selectCandidate entries w = none ↔ ∀ e ∈ entries, ¬w.Eligible e) ∧
      (∀ s, selectCandidate entries w = some s → w.Eligible s ∧ ∃ before after,
        entries = before ++ s :: after ∧ (∀ e ∈ before, w.Eligible e → w.rank e s = .lt) ∧
          ∀ e ∈ after, w.Eligible e → w.rank e s ≠ .gt) ∧
      ∀ entries' : List PackageEntry, entries'.Perm entries →
        (∀ k, entries'.filter (fun e => e.order = k) = entries.filter fun e => e.order = k) →
        selectCandidate entries' w = selectCandidate entries w := by
  refine ⟨?_, fun s h => ?_, fun entries' hperm hrepo => ?_⟩
  · rw [selectCandidate_eq htarget, (Best.foldl_step _).1, List.filter_eq_nil_iff]
    simp
  · rw [selectCandidate_eq htarget] at h
    obtain ⟨fbefore, fafter, hcut, hlt, hle⟩ := (Best.foldl_step _).2 s h
    obtain ⟨before, rest, rfl, hbefore, hrest⟩ := List.filter_eq_append_iff.1 hcut
    obtain ⟨skipped, after, rfl, hskipped, hs, hafter⟩ := List.filter_eq_cons_iff.1 hrest
    refine ⟨of_decide_eq_true hs, before ++ skipped, after, by simp, fun e he heligible => ?_,
      fun e he heligible => ?_⟩
    · rcases List.mem_append.1 he with he | he
      · refine hlt e ?_
        rw [← hbefore]
        exact List.mem_filter.2 ⟨he, decide_eq_true heligible⟩
      · exact absurd (decide_eq_true heligible) (hskipped e he)
    · refine hle e ?_
      rw [← hafter]
      exact List.mem_filter.2 ⟨he, decide_eq_true heligible⟩
  · rw [selectCandidate_eq htarget, selectCandidate_eq htarget]
    refine Best.foldl_step_perm (hperm.filter _) fun s => ?_
    -- entries of equal rank are of one repository
    have horder : ∀ e : PackageEntry, w.rank e s = .eq → e.order = s.order := by
      intro e he
      simp only [Wanted.rank, compareLex, Ordering.then_eq_eq] at he
      exact (compare_eq_iff_eq.1 he.2.2.2).symm
    have hsplit : ∀ l : List PackageEntry, (l.filter fun e => w.Eligible e).filter
        (fun e => w.rank e s = .eq) = ((l.filter fun e => e.order = s.order).filter
          fun e => w.Eligible e).filter fun e => w.rank e s = .eq := by
      intro l
      rw [List.filter_filter, List.filter_filter, List.filter_filter]
      refine List.filter_congr fun e _ => ?_
      by_cases he : w.rank e s = .eq
      · simp [he, horder e he]
      · simp [he]
    rw [hsplit entries', hsplit entries, hrepo]

/-- A native entry and a newer one for any architecture, of another repository. -/
def sampleNative : PackageEntry := ⟨str "tool", str "1.0.0", str "x64", [], 0, 0⟩

def sampleAny : PackageEntry := ⟨str "tool", str "2.0.0", str "any", [], 0, 1⟩

def sampleWanted : Wanted := ⟨str "x64", false, str "tool", none, none, true⟩

theorem selectCandidate_optimal_sample : selectCandidate [sampleAny, sampleNative] sampleWanted =
    selectCandidate [sampleNative, sampleAny] sampleWanted := by
  refine (selectCandidate_optimal sampleWanted [sampleNative, sampleAny] (by decide)).2.2 _
    (List.Perm.swap _ _ _) fun k => ?_
  rcases k with _ | _ | k
  · rfl
  · rfl
  · rfl

end Wpm.Repository
