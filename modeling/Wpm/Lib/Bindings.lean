import Mathlib.Data.List.Induction
import Mathlib.Order.Basic

/-!
A map kept as a list of bindings, in which the last binding of a key counts.
-/

namespace Wpm.Lib.Bindings

variable {K V : Type*} [DecidableEq K]

/-- The value that is bound to the key last. -/
def last (k : K) (bs : List (K × V)) : Option V :=
  bs.foldl (fun v b => if b.1 = k then some b.2 else v) none

/-- The key is bound. -/
def Binds (bs : List (K × V)) (k : K) : Prop := ∃ b ∈ bs, b.1 = k

instance (bs : List (K × V)) (k : K) : Decidable (Binds bs k) :=
  inferInstanceAs (Decidable (∃ b ∈ bs, b.1 = k))

/-- Every binding of the key is changed, or taken away; a new one is put behind if there is none. -/
def rebind (k : K) (v : Option V) (bs : List (K × V)) : List (K × V) :=
  (bs.flatMap fun b => if b.1 = k then (v.map fun v => (k, v)).toList else [b]) ++
    if Binds bs k then [] else (v.map fun v => (k, v)).toList

lemma last_append_singleton (k : K) (bs : List (K × V)) (b : K × V) :
    last k (bs ++ [b]) = if b.1 = k then some b.2 else last k bs := by
  rw [last, List.foldl_append]
  rfl

/-- Bindings of other keys make no difference. -/
lemma last_append_of_ne {k : K} {bs : List (K × V)} : ∀ {cs : List (K × V)}, (∀ c ∈ cs, c.1 ≠ k) →
    last k (bs ++ cs) = last k bs := by
  intro cs
  induction cs using List.reverseRecOn with
  | nil => exact fun _ => by rw [List.append_nil]
  | append_singleton cs c ih =>
    intro h
    rw [← List.append_assoc, last_append_singleton, if_neg (h c (by simp)),
      ih fun d hd => h d (by simp [hd])]

/-- A list whose bindings of the key all have the same value. -/
lemma last_of_forall {k : K} {v : V} {bs : List (K × V)} (hv : ∀ b ∈ bs, b.1 = k → b.2 = v)
    (h : Binds bs k) : last k bs = some v := by
  induction bs using List.reverseRecOn with
  | nil =>
    obtain ⟨b, hb, -⟩ := h
    exact absurd hb List.not_mem_nil
  | append_singleton bs b ih =>
    rw [last_append_singleton]
    split_ifs with hb
    · rw [hv b (by simp) hb]
    · refine ih (fun c hc => hv c (by simp [hc])) ?_
      obtain ⟨c, hc, hkey⟩ := h
      rcases List.mem_append.1 hc with hc | hc
      · exact ⟨c, hc, hkey⟩
      · exact absurd (List.mem_singleton.1 hc ▸ hkey) hb

lemma last_ne_none_iff {k : K} {bs : List (K × V)} : last k bs ≠ none ↔ Binds bs k := by
  induction bs using List.reverseRecOn with
  | nil => exact ⟨fun h => absurd rfl h, fun ⟨b, hb, _⟩ => absurd hb List.not_mem_nil⟩
  | append_singleton bs b ih =>
    have hbinds : Binds (bs ++ [b]) k ↔ Binds bs k ∨ b.1 = k := by
      unfold Binds
      simp only [List.mem_append, List.mem_singleton, or_and_right, exists_or, exists_eq_left]
    rw [last_append_singleton, hbinds, ← ih]
    split_ifs with hb
    · simp [hb]
    · simp [hb]

/-- **The key has the new value.** -/
theorem last_rebind_self (k : K) (v : Option V) (bs : List (K × V)) : last k (rebind k v bs) = v := by
  have hmem : ∀ b ∈ rebind k v bs, b.1 = k → some b.2 = v := by
    intro b hb hkey
    rcases List.mem_append.1 hb with hb | hb
    · obtain ⟨c, -, hc⟩ := List.mem_flatMap.1 hb
      split_ifs at hc with hck
      · obtain ⟨w, hw, rfl⟩ := Option.map_eq_some_iff.1 (Option.mem_toList.1 hc)
        exact hw.symm
      · exact absurd (List.mem_singleton.1 hc ▸ hkey) hck
    · split_ifs at hb with hbinds
      · exact absurd hb List.not_mem_nil
      · obtain ⟨w, hw, rfl⟩ := Option.map_eq_some_iff.1 (Option.mem_toList.1 hb)
        exact hw.symm
  cases v with
  | none =>
    have hne : ∀ b ∈ rebind k none bs, b.1 ≠ k := fun b hb hkey => absurd (hmem b hb hkey) (by simp)
    exact @last_append_of_ne _ _ _ k [] _ hne
  | some v =>
    refine last_of_forall (fun b hb hkey => Option.some.inj (hmem b hb hkey)) ⟨(k, v), ?_, rfl⟩
    by_cases hbinds : Binds bs k
    · obtain ⟨b, hb, hkey⟩ := hbinds
      refine List.mem_append_left _ (List.mem_flatMap.2 ⟨b, hb, ?_⟩)
      rw [if_pos hkey]
      exact List.mem_singleton_self _
    · refine List.mem_append_right _ ?_
      rw [if_neg hbinds]
      exact List.mem_singleton_self _

/-- **The other keys keep their values.** -/
theorem last_rebind_of_ne {k k' : K} (h : k' ≠ k) (v : Option V) (bs : List (K × V)) :
    last k' (rebind k v bs) = last k' bs := by
  have hother : ∀ b ∈ (v.map fun v => (k, v)).toList, b.1 ≠ k' := by
    intro b hb
    obtain ⟨w, -, rfl⟩ := Option.map_eq_some_iff.1 (Option.mem_toList.1 hb)
    exact h.symm
  have htail : ∀ b ∈ (if Binds bs k then [] else (v.map fun v => (k, v)).toList), b.1 ≠ k' := by
    split_ifs
    · exact fun b hb => absurd hb List.not_mem_nil
    · exact hother
  rw [rebind, last_append_of_ne htail]
  clear htail
  induction bs using List.reverseRecOn with
  | nil => rfl
  | append_singleton bs b ih =>
    rw [List.flatMap_append, List.flatMap_singleton, last_append_singleton]
    split_ifs with hb hb' hb'
    · exact absurd (hb'.symm.trans hb) h
    · rw [last_append_of_ne hother, ih]
    · rw [last_append_singleton, if_pos hb']
    · rw [last_append_singleton, if_neg hb', ih]

/-! ### Lists of entries that bind -/

section Entries

variable {L : Type*} {setting : L → Option (K × V)} {concerns : L → Bool} {remove : Bool}
  {entry lines : List L}

/-- Every entry that is concerned is written anew or left out; a new one is put behind if there is
none. -/
def replaceAll (concerns : L → Bool) (remove : Bool) (entry lines : List L) : List L :=
  (lines.flatMap fun line => if concerns line then (if remove then [] else entry) else [line]) ++
    if remove = false ∧ lines.any concerns = false then entry else []

lemma mem_replaceAll {line : L} (hline : line ∈ replaceAll concerns remove entry lines) :
    line ∈ lines ∨ line ∈ entry ∧ remove = false := by
  rcases List.mem_append.1 hline with hline | hline
  · obtain ⟨old, hold, hline⟩ := List.mem_flatMap.1 hline
    split_ifs at hline with _ hremove
    · exact absurd hline List.not_mem_nil
    · exact .inr ⟨hline, by simpa using hremove⟩
    · exact .inl (List.mem_singleton.1 hline ▸ hold)
  · split_ifs at hline with hnew
    · exact .inr ⟨hline, hnew.1⟩
    · exact absurd hline List.not_mem_nil

/-- What is written does not depend on where the new entry is cut. -/
lemma flatten_replaceAll {α : Type*} {concerns : List α → Bool} {entry entry' lines : List (List α)}
    (h : entry.flatten = entry'.flatten) :
    (replaceAll concerns remove entry lines).flatten =
      (replaceAll concerns remove entry' lines).flatten := by
  have hbody : (lines.flatMap fun line =>
        if concerns line then (if remove then [] else entry) else [line]).flatten =
      (lines.flatMap fun line =>
        if concerns line then (if remove then [] else entry') else [line]).flatten := by
    induction lines with
    | nil => rfl
    | cons line lines ih =>
      rw [List.flatMap_cons, List.flatten_append, ih, List.flatMap_cons, List.flatten_append]
      congr 1
      split_ifs
      · rfl
      · exact h
      · rfl
  unfold replaceAll
  rw [List.flatten_append, List.flatten_append, hbody]
  congr 1
  split_ifs
  · exact h
  · rfl

/-- **The bindings after a change**, if the entries that are concerned are those that bind the key and
what is written binds the new value. -/
theorem filterMap_replaceAll {k : K} {v : V}
    (hconcerns : ∀ line ∈ lines, concerns line = true ↔ ∃ w, setting line = some (k, w))
    (hentry : remove = false → entry.filterMap setting = [(k, v)]) :
    (replaceAll concerns remove entry lines).filterMap setting =
      rebind k (if remove then none else some v) (lines.filterMap setting) := by
  have hnew : (if remove then [] else entry).filterMap setting =
      ((if remove then none else some v : Option V).map fun v => (k, v)).toList := by
    cases remove with
    | true => rfl
    | false => exact hentry rfl
  have hbody : (lines.flatMap fun line =>
        if concerns line then (if remove then [] else entry) else [line]).filterMap setting =
      (lines.filterMap setting).flatMap fun b => if b.1 = k then
        ((if remove then none else some v : Option V).map fun v => (k, v)).toList else [b] := by
    clear hentry
    induction lines with
    | nil => rfl
    | cons line lines ih =>
      obtain ⟨hline, hlines⟩ := List.forall_mem_cons.1 hconcerns
      have hcons : (line :: lines).filterMap setting =
          (setting line).toList ++ lines.filterMap setting := by
        rw [List.filterMap_cons]
        cases setting line <;> rfl
      rw [List.flatMap_cons, List.filterMap_append, hcons, List.flatMap_append, ih hlines]
      congr 1
      by_cases hc : concerns line = true
      · obtain ⟨w, hw⟩ := hline.1 hc
        rw [if_pos hc, hnew, hw, Option.toList_some, List.flatMap_singleton, if_pos rfl]
      · rw [if_neg hc]
        cases hs : setting line with
        | none => simp [hs]
        | some b =>
          have hb : ¬b.1 = k := fun h => hc (hline.2 ⟨b.2, by rw [hs, ← h]⟩)
          simp [hs, hb]
  have hfound : lines.any concerns = true ↔ Binds (lines.filterMap setting) k := by
    rw [List.any_eq_true]
    constructor
    · rintro ⟨line, hline, hc⟩
      obtain ⟨w, hw⟩ := (hconcerns line hline).1 hc
      exact ⟨_, List.mem_filterMap.2 ⟨line, hline, hw⟩, rfl⟩
    · rintro ⟨b, hb, hkey⟩
      obtain ⟨line, hline, hset⟩ := List.mem_filterMap.1 hb
      exact ⟨line, hline, (hconcerns line hline).2 ⟨b.2, by rw [hset, ← hkey]⟩⟩
  unfold replaceAll rebind
  rw [List.filterMap_append, hbody]
  congr 1
  by_cases hf : lines.any concerns = true
  · rw [if_neg (by simp [hf]), if_pos (hfound.1 hf)]
    rfl
  · rw [if_neg (mt hfound.2 hf), ← hnew]
    cases remove with
    | true => rfl
    | false =>
      rw [if_pos ⟨rfl, by simpa using hf⟩]
      rfl

end Entries

/-! ### Each key once -/

/-- The keys are bound once each. -/
def Once (bs : List (K × V)) : Prop := (bs.map Prod.fst).Nodup

/-- A key that is bound once has one binding, with its value. -/
lemma Once.filter_eq {bs : List (K × V)} (h : Once bs) (k : K) :
    (bs.filter fun b => b.1 = k).map Prod.snd = (last k bs).toList := by
  induction bs using List.reverseRecOn with
  | nil => rfl
  | append_singleton bs b ih =>
    unfold Once at h
    rw [List.map_append, List.nodup_append] at h
    obtain ⟨hbs, -, hne⟩ := h
    rw [List.filter_append, List.map_append, last_append_singleton]
    by_cases hb : b.1 = k
    · have hnone : bs.filter (fun b => b.1 = k) = [] := by
        refine List.filter_eq_nil_iff.2 fun c hc hck => ?_
        have hck : c.1 = k := of_decide_eq_true hck
        exact hne c.1 (List.mem_map_of_mem hc) b.1 (by simp) (hck.trans hb.symm)
      rw [hnone, if_pos hb]
      simp [hb]
    · rw [if_neg hb, ih hbs]
      simp [hb]

/-- A change keeps it so. -/
theorem Once.rebind {bs : List (K × V)} (h : Once bs) (k : K) (v : Option V) :
    Once (rebind k v bs) := by
  have hnew : ((v.map fun v => (k, v)).toList.map Prod.fst).Sublist [k] := by
    cases v with
    | none => exact List.nil_sublist _
    | some v => exact List.Sublist.refl _
  have hbody : ((bs.flatMap fun b => if b.1 = k then (v.map fun v => (k, v)).toList
      else [b]).map Prod.fst).Sublist (bs.map Prod.fst) := by
    clear h
    induction bs with
    | nil => exact List.Sublist.refl _
    | cons b bs ih =>
      have hcons : (b :: bs).map Prod.fst = [b.1] ++ bs.map Prod.fst := rfl
      rw [List.flatMap_cons, List.map_append, hcons]
      refine List.Sublist.append ?_ ih
      split_ifs with hb
      · rw [hb]
        exact hnew
      · exact List.Sublist.refl _
  unfold Once Bindings.rebind
  rw [List.map_append]
  by_cases hbinds : Binds bs k
  · rw [if_pos hbinds, List.map_nil, List.append_nil]
    exact h.sublist hbody
  · rw [if_neg hbinds]
    refine List.nodup_append.2 ⟨h.sublist hbody,
      (List.nodup_cons.2 ⟨List.not_mem_nil, List.nodup_nil⟩ : [k].Nodup).sublist hnew, ?_⟩
    intro a ha b hb hab
    obtain ⟨c, hc, hca⟩ := List.mem_map.1 (hbody.subset ha)
    exact hbinds ⟨c, hc, (hca.trans hab).trans (List.mem_singleton.1 (hnew.subset hb))⟩

end Wpm.Lib.Bindings
