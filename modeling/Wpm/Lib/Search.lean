import Mathlib.Data.List.Sort

/-!
Sorting and searching with a three-way comparator.

The lists here are what a C program passes to `qsort` and `bsearch`: a comparator answers with an
`Ordering`, it may call two different elements equal, and nothing but the comparator is ever
looked at. `sortBy` is the sorted list, `distinctAdjacent` is the scan that follows a sort to find
repeated elements, and `bsearch` is the halving search. The two facts used of them are that the
scan after the sort finds every repetition (`distinctAdjacent_sortBy`), and that the search on a
sorted list finds an element exactly when there is one (`bsearch_isSome_iff`).
-/

namespace Wpm.Lib.Search

open Std

variable {α : Type*} (cmp : α → α → Ordering)

/-! ### Sorting -/

/-- `a` may stand before `b`. -/
def Le (a b : α) : Prop := (cmp a b).isLE = true

instance : DecidableRel (Le cmp) := fun a b => inferInstanceAs (Decidable ((cmp a b).isLE = true))

/-- The list in the order of the comparator. -/
def sortBy (l : List α) : List α := l.insertionSort (Le cmp)

lemma mem_sortBy {l : List α} {x : α} : x ∈ sortBy cmp l ↔ x ∈ l :=
  (List.perm_insertionSort (Le cmp) l).mem_iff

section Preorder

variable [TransCmp cmp]

lemma cmp_swap (a b : α) : cmp a b = (cmp b a).swap := OrientedCmp.eq_swap

lemma le_total (a b : α) : Le cmp a b ∨ Le cmp b a := by
  unfold Le
  rw [cmp_swap cmp b a]
  cases cmp a b <;> simp [Ordering.swap, Ordering.isLE]

lemma le_trans {a b c : α} (h1 : Le cmp a b) (h2 : Le cmp b c) : Le cmp a c :=
  TransCmp.isLE_trans h1 h2

instance : Std.Total (Le cmp) := ⟨le_total cmp⟩

instance : IsTrans α (Le cmp) := ⟨fun _ _ _ => le_trans cmp⟩

lemma sortBy_pairwise (l : List α) : (sortBy cmp l).Pairwise (Le cmp) :=
  List.pairwise_insertionSort (Le cmp) l

/-- In a sorted list what lies between two equal elements is equal to them. -/
lemma eq_of_le_of_le {a b c : α} (h1 : Le cmp a b) (h2 : Le cmp b c) (h : cmp a c = .eq) :
    cmp a b = .eq := by
  have hca : Le cmp c a := by
    unfold Le
    rw [cmp_swap cmp, h]
    rfl
  have hba : Le cmp b a := le_trans cmp h2 hca
  unfold Le at h1 hba
  rw [cmp_swap cmp] at hba
  revert h1 hba
  cases cmp a b <;> simp [Ordering.swap, Ordering.isLE]

end Preorder

/-! ### `qsort` -/

section Qsort

variable {cmp} {l l' : List α}

/-- The comparator orders the elements of the list. -/
structure Consistent (cmp : α → α → Ordering) (l : List α) : Prop where
  swap : ∀ a ∈ l, ∀ b ∈ l, cmp a b = (cmp b a).swap
  trans : ∀ a ∈ l, ∀ b ∈ l, ∀ c ∈ l, Le cmp a b → Le cmp b c → Le cmp a c

/-- **What is specified of `qsort`**: where the comparator orders the elements they come out in its
order, and equal ones in any order among themselves. -/
def IsQsort (qsort : (α → α → Ordering) → List α → List α) : Prop :=
  ∀ cmp l, Consistent cmp l → (qsort cmp l).Perm l ∧ (qsort cmp l).Pairwise (Le cmp)

lemma Consistent.perm (h : Consistent cmp l) (hperm : l.Perm l') : Consistent cmp l' where
  swap a ha b hb := h.swap a (hperm.mem_iff.2 ha) b (hperm.mem_iff.2 hb)
  trans a ha b hb c hc :=
    h.trans a (hperm.mem_iff.2 ha) b (hperm.mem_iff.2 hb) c (hperm.mem_iff.2 hc)

/-- The comparator as one on the elements of the list. -/
def onElements (cmp : α → α → Ordering) (l : List α) (a b : {x // x ∈ l}) : Ordering :=
  cmp a.1 b.1

lemma Consistent.transCmp (h : Consistent cmp l) : TransCmp (onElements cmp l) where
  eq_swap {a b} := h.swap a.1 a.2 b.1 b.2
  isLE_trans {a b c} hab hbc := h.trans a.1 a.2 b.1 b.2 c.1 c.2 hab hbc

/-- Sorting by insertion is as specified. -/
theorem isQsort_sortBy : IsQsort (@sortBy α) := by
  intro cmp l h
  refine ⟨List.perm_insertionSort _ l, ?_⟩
  have := h.transCmp
  have hsorted := sortBy_pairwise (onElements cmp l) l.attach
  have hmap : (sortBy (onElements cmp l) l.attach).map Subtype.val = sortBy cmp l := by
    rw [sortBy, sortBy, List.map_insertionSort (Le (onElements cmp l)) (Le cmp) Subtype.val l.attach
      fun a _ b _ => Iff.rfl, List.attach_map_subtype_val]
  rw [← hmap, List.pairwise_map]
  exact hsorted

/-- **Only one order is sorted** where the comparator tells different elements apart. -/
theorem eq_of_sorted_perm (h : Consistent cmp l)
    (hdistinct : ∀ a ∈ l, ∀ b ∈ l, cmp a b = .eq → a = b) (hperm : l.Perm l')
    (hl : l.Pairwise (Le cmp)) (hl' : l'.Pairwise (Le cmp)) : l = l' := by
  refine List.Perm.eq_of_pairwise (fun a b ha hb hab hba => ?_) hl hl' hperm
  have hb := hperm.mem_iff.2 hb
  refine hdistinct a ha b hb ?_
  have hswap := h.swap a ha b hb
  unfold Le at hab hba
  rw [hswap] at hab
  rw [hswap]
  revert hab hba
  cases cmp b a <;> simp [Ordering.swap, Ordering.isLE]

end Qsort

/-! ### Repeated elements -/

/-- No two neighbours of the list are equal. -/
def distinctAdjacent : List α → Bool
  | a :: b :: l => decide (cmp a b ≠ .eq) && distinctAdjacent (b :: l)
  | _ => true

/-- No two elements of the list are equal. -/
def Distinct (l : List α) : Prop := l.Pairwise fun a b => cmp a b ≠ .eq

variable [TransCmp cmp]

lemma distinctAdjacent_of_sorted : ∀ {l : List α}, l.Pairwise (Le cmp) →
    (distinctAdjacent cmp l = true ↔ Distinct cmp l)
  | [], _ => by simp [distinctAdjacent, Distinct]
  | [a], _ => by simp [distinctAdjacent, Distinct]
  | a :: b :: l, h => by
    obtain ⟨ha, hbl⟩ := List.pairwise_cons.1 h
    have ih := distinctAdjacent_of_sorted hbl
    simp only [distinctAdjacent, Bool.and_eq_true, decide_eq_true_eq, ih, Distinct,
      List.pairwise_cons (a := a)]
    refine and_congr_left fun _ => ⟨fun hab c hc heq => ?_, fun hall => hall b (by simp)⟩
    -- the elements after `b` are above `b`, so one equal to `a` would make `b` equal to `a`
    rcases List.mem_cons.1 hc with rfl | hc'
    · exact hab heq
    · exact hab (eq_of_le_of_le cmp (ha b (by simp)) ((List.pairwise_cons.1 hbl).1 c hc') heq)

lemma distinct_perm {l₁ l₂ : List α} (h : l₁.Perm l₂) : Distinct cmp l₁ ↔ Distinct cmp l₂ :=
  h.pairwise_iff fun h1 h2 => h1 (by rw [cmp_swap cmp, h2]; rfl)

/-- **The scan after the sort finds every repetition.** -/
theorem distinctAdjacent_sortBy (l : List α) :
    distinctAdjacent cmp (sortBy cmp l) = true ↔ Distinct cmp l := by
  rw [distinctAdjacent_of_sorted cmp (sortBy_pairwise cmp l)]
  exact distinct_perm cmp (List.perm_insertionSort (Le cmp) l)

/-! ### Binary search -/

/-- The search of the sorted list `l` for an element equal to `key`: look at the middle, and go on
in the half that can still hold it. -/
def bsearchIn (key : α) : ℕ → List α → Option α
  | 0, _ => none
  | fuel + 1, l =>
    match l.drop (l.length / 2) with
    | [] => none
    | x :: above =>
      match cmp key x with
      | .eq => some x
      | .lt => bsearchIn key fuel (l.take (l.length / 2))
      | .gt => bsearchIn key fuel above

/-- The search, with enough fuel for every list. -/
def bsearch (key : α) (l : List α) : Option α := bsearchIn cmp key l.length l

omit [TransCmp cmp] in
lemma bsearchIn_sound {key : α} : ∀ {fuel : ℕ} {l : List α} {x : α},
    bsearchIn cmp key fuel l = some x → x ∈ l ∧ cmp key x = .eq
  | fuel + 1, l, x, h => by
    unfold bsearchIn at h
    cases hd : l.drop (l.length / 2) with
    | nil => simp [hd] at h
    | cons y above =>
      have hsub : ∀ z ∈ y :: above, z ∈ l := fun z hz => List.mem_of_mem_drop (hd ▸ hz)
      simp only [hd] at h
      cases hc : cmp key y with
      | eq =>
        simp only [hc, Option.some.injEq] at h
        subst h
        exact ⟨hsub y (by simp), hc⟩
      | lt =>
        simp only [hc] at h
        obtain ⟨h1, h2⟩ := bsearchIn_sound h
        exact ⟨List.mem_of_mem_take h1, h2⟩
      | gt =>
        simp only [hc] at h
        obtain ⟨h1, h2⟩ := bsearchIn_sound h
        exact ⟨hsub x (by simp [h1]), h2⟩

lemma bsearchIn_complete {key : α} : ∀ {fuel : ℕ} {l : List α}, l.length ≤ fuel →
    l.Pairwise (Le cmp) → (∃ x ∈ l, cmp key x = .eq) → (bsearchIn cmp key fuel l).isSome = true
  | 0, l, hf, _, ⟨x, hx, _⟩ => by simp [List.length_eq_zero_iff.1 (Nat.le_zero.1 hf)] at hx
  | fuel + 1, l, hf, hs, ⟨x, hx, hxk⟩ => by
    unfold bsearchIn
    have hsplit : l = l.take (l.length / 2) ++ l.drop (l.length / 2) :=
      (List.take_append_drop _ _).symm
    have hpos : 0 < l.length := List.length_pos_of_mem hx
    cases hd : l.drop (l.length / 2) with
    | nil =>
      have := congrArg List.length hd
      simp only [List.length_drop, List.length_nil] at this
      omega
    | cons y above =>
      have hlen : above.length + 1 = l.length - l.length / 2 := by
        rw [← List.length_drop, hd, List.length_cons]
      rw [hd] at hsplit
      rw [hsplit, List.pairwise_append] at hs
      obtain ⟨hlow, hhigh, hcross⟩ := hs
      rw [hsplit, List.mem_append, List.mem_cons] at hx
      cases hc : cmp key y with
      | eq => simp [hc]
      | lt =>
        simp only [hc]
        -- `key` is below the middle: the equal element is not above it
        refine bsearchIn_complete (by simp; omega) hlow ⟨x, ?_, hxk⟩
        rcases hx with hx | rfl | hx
        · exact hx
        · rw [hc] at hxk; cases hxk
        · have hyx : Le cmp y x := (List.pairwise_cons.1 hhigh).1 x hx
          have hky : Le cmp key y := by unfold Le; rw [hc]; rfl
          rw [eq_of_le_of_le cmp hky hyx hxk] at hc
          cases hc
      | gt =>
        simp only [hc]
        refine bsearchIn_complete (by omega) (List.pairwise_cons.1 hhigh).2 ⟨x, ?_, hxk⟩
        rcases hx with hx | rfl | hx
        · have hxy : Le cmp x y := hcross x hx y (by simp)
          have hkx : Le cmp key x := by unfold Le; rw [hxk]; rfl
          have hky : Le cmp key y := le_trans cmp hkx hxy
          unfold Le at hky
          rw [hc] at hky
          cases hky
        · rw [hc] at hxk; cases hxk
        · exact hx

/-- **The search finds an element equal to the key exactly when the sorted list holds one.** -/
theorem bsearch_isSome_iff (key : α) (l : List α) :
    (bsearch cmp key (sortBy cmp l)).isSome = true ↔ ∃ x ∈ l, cmp key x = .eq := by
  constructor
  · intro h
    obtain ⟨x, hx⟩ := Option.isSome_iff_exists.1 h
    obtain ⟨hm, hk⟩ := bsearchIn_sound cmp hx
    exact ⟨x, (mem_sortBy cmp).1 hm, hk⟩
  · rintro ⟨x, hx, hk⟩
    exact bsearchIn_complete cmp le_rfl (sortBy_pairwise cmp l)
      ⟨x, (mem_sortBy cmp).2 hx, hk⟩

end Wpm.Lib.Search
