import Mathlib.Data.List.Pairwise
import Mathlib.Data.List.Forall2
import Mathlib.Data.List.Perm.Basic

/-!
Gathering a list of different things.

Each source gives a thing or nothing. The loop stops with nothing at a source that gives nothing, at
a thing that clashes with one that it already has, and when there is no more room. So what it gives
is what the sources give, one by one (`gather_eq_some`), and the order of the sources is only the
order of the result (`gather_perm`).
-/

namespace Wpm.Lib.Gather

variable {α β : Type*} (read : α → Option β) (clash : β → β → Bool) (room : ℕ)

/-- One turn of the loop. -/
def push (things : List β) (source : α) : Option (List β) :=
  if things.length = room then none
  else (read source).bind fun y =>
    if things.any fun old => clash old y then none else some (things ++ [y])

def gather (things : List β) (sources : List α) : Option (List β) :=
  sources.foldlM (push read clash room) things

/-- No two of the things clash. -/
def NoClash (things : List β) : Prop := things.Pairwise fun old y => clash old y = false

variable {read clash room}

lemma push_eq_some {things l : List β} {source : α} :
    push read clash room things source = some l ↔ things.length ≠ room ∧
      ∃ y, read source = some y ∧ (∀ old ∈ things, clash old y = false) ∧ l = things ++ [y] := by
  rw [push, Option.ite_none_left_eq_some, Option.bind_eq_some_iff]
  refine and_congr_right fun _ => exists_congr fun y => and_congr_right fun _ => ?_
  rw [Option.ite_none_left_eq_some, Option.some.injEq, List.any_eq_true]
  refine and_congr ?_ eq_comm
  constructor
  · intro h old hold
    by_contra hclash
    exact h ⟨old, hold, by simpa using hclash⟩
  · rintro h ⟨old, hold, hclash⟩
    rw [h old hold] at hclash
    exact absurd hclash (by decide)

lemma NoClash.concat {things : List β} {y : β} (h : NoClash clash things)
    (hy : ∀ old ∈ things, clash old y = false) : NoClash clash (things ++ [y]) := by
  refine List.pairwise_append.2 ⟨h, List.pairwise_singleton _ _, fun old hold z hz => ?_⟩
  rw [List.mem_singleton.1 hz]
  exact hy old hold

/-- **What is gathered** are the things that the sources give, when no two of them clash and there is
room for all. -/
theorem gather_eq_some {sources : List α} : ∀ {things l : List β}, NoClash clash things →
    things.length ≤ room → (gather read clash room things sources = some l ↔
      ∃ new, List.Forall₂ (fun source y => read source = some y) sources new ∧
        l = things ++ new ∧ NoClash clash l ∧ l.length ≤ room) := by
  induction sources with
  | nil =>
    intro things l hclear hlen
    rw [gather, List.foldlM_nil]
    constructor
    · intro h
      obtain rfl : things = l := Option.some.inj h
      exact ⟨[], .nil, (List.append_nil _).symm, hclear, hlen⟩
    · rintro ⟨new, hnew, rfl, -⟩
      obtain rfl := List.forall₂_nil_left_iff.1 hnew
      exact congrArg some (List.append_nil _).symm
  | cons source sources ih =>
    intro things l hclear hlen
    rw [gather, List.foldlM_cons]
    constructor
    · intro h
      obtain ⟨l', hpush, hrest⟩ := Option.bind_eq_some_iff.1 h
      obtain ⟨hroom, y, hy, hnew, rfl⟩ := push_eq_some.1 hpush
      have hlen' : (things ++ [y]).length ≤ room := by
        rw [List.length_append, List.length_singleton]
        omega
      obtain ⟨new, hread, rfl, hall⟩ := (ih (hclear.concat hnew) hlen').1 hrest
      exact ⟨y :: new, .cons hy hread, by simp, hall⟩
    · rintro ⟨new, hread, rfl, hall, hmax⟩
      obtain ⟨y, new', hy, hread', rfl⟩ := List.forall₂_cons_left_iff.1 hread
      have hassoc : things ++ y :: new' = things ++ [y] ++ new' := by simp
      rw [hassoc] at hall hmax ⊢
      have hclear' : NoClash clash (things ++ [y]) := (List.pairwise_append.1 hall).1
      have hlen' : things.length + 1 ≤ room := by
        rw [List.length_append, List.length_append, List.length_singleton] at hmax
        omega
      refine Option.bind_eq_some_iff.2 ⟨things ++ [y], push_eq_some.2 ⟨by omega, y, hy, ?_, rfl⟩, ?_⟩
      · exact fun old hold => (List.pairwise_append.1 hclear').2.2 old hold y (by simp)
      · refine (ih hclear' ?_).2 ⟨new', hread', rfl, hall, hmax⟩
        rwa [List.length_append, List.length_singleton]

/-- Each thing that is gathered comes from a source. -/
lemma exists_source {R : α → β → Prop} {sources : List α} {things : List β}
    (h : List.Forall₂ R sources things) {y : β} (hy : y ∈ things) : ∃ x ∈ sources, R x y := by
  induction h with
  | nil => exact absurd hy List.not_mem_nil
  | @cons x z sources things hxz _ ih =>
    rcases List.mem_cons.1 hy with rfl | hy
    · exact ⟨x, List.mem_cons_self, hxz⟩
    · obtain ⟨x', hx', hR⟩ := ih hy
      exact ⟨x', List.mem_cons_of_mem x hx', hR⟩

lemma NoClash.perm {l l' : List β} (hsymm : ∀ x y, clash x y = clash y x) (hperm : l.Perm l')
    (h : NoClash clash l) : NoClash clash l' :=
  (hperm.pairwise_iff fun {x y} hxy => (hsymm y x).trans hxy).1 h

/-- Two things of the list that clash are one thing, where each clashes with itself. -/
lemma NoClash.eq_of_clash {l : List β} (hsymm : ∀ x y, clash x y = clash y x) (h : NoClash clash l)
    {x y : β} (hx : x ∈ l) (hy : y ∈ l) (hclash : clash x y = true) : x = y := by
  by_contra hne
  have : Std.Symm fun x y => clash x y = false := ⟨fun x y hxy => (hsymm y x).trans hxy⟩
  have hfalse := List.Pairwise.forall h hx hy hne
  rw [hclash] at hfalse
  exact absurd hfalse (by decide)

/-- **The order of the sources is only that of the result.** -/
theorem gather_perm {sources sources' : List α} {l : List β}
    (hsymm : ∀ x y, clash x y = clash y x) (hperm : sources.Perm sources')
    (h : gather read clash room [] sources = some l) :
    ∃ l', gather read clash room [] sources' = some l' ∧ l.Perm l' := by
  obtain ⟨new, hread, rfl, hclear, hmax⟩ :=
    (gather_eq_some List.Pairwise.nil (Nat.zero_le _)).1 h
  obtain ⟨new', hnew', hread'⟩ := List.perm_comp_forall₂ hperm.symm hread
  refine ⟨new', (gather_eq_some List.Pairwise.nil (Nat.zero_le _)).2
    ⟨new', hnew', rfl, ?_, ?_⟩, hread'.symm⟩
  · exact hclear.perm hsymm hread'.symm
  · rwa [hread'.length_eq]

end Wpm.Lib.Gather
