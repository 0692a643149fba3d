import Mathlib.Data.List.Nodup
import Mathlib.Order.Basic

/-!
Directories, files and links, and what a name in a directory leads to.

A volume gives each directory its entries. `enter` walks down names and goes through the links it
meets, `locate` does so up to the last name and stops at the entry that has it. `Within` is the
containment of entries: it goes down directories and never through a link.
-/

namespace Wpm.Lib.FileTree

/-- What an entry of a directory is. A link to a directory may lead nowhere. -/
inductive Item
  | file
  | directory (node : ℕ)
  | link (toDirectory : Bool) (target : Option ℕ)
  deriving DecidableEq

/-- The directory attribute, which a link to a directory has too. -/
def Item.isDirectory : Item → Bool
  | file => false
  | directory _ => true
  | link toDirectory _ => toDirectory

/-- The attribute of reparse points. -/
def Item.isReparsePoint : Item → Bool
  | link _ _ => true
  | _ => false

/-- The directory that is reached by entering the item. -/
def Item.leadsTo : Item → Option ℕ
  | file => none
  | directory node => some node
  | link toDirectory target => if toDirectory then target else none

lemma Item.eq_directory {item : Item} (h : item.isDirectory = true)
    (h' : item.isReparsePoint = false) : ∃ d, item = directory d := by
  cases item with
  | file => exact absurd h (by decide)
  | directory d => exact ⟨d, rfl⟩
  | link => exact absurd h' (by simp [isReparsePoint])

lemma Item.isDirectory_of_leadsTo {item : Item} {d : ℕ} (h : item.leadsTo = some d) :
    item.isDirectory = true := by
  cases item with
  | file => exact absurd h (by simp [leadsTo])
  | directory => rfl
  | link toDirectory target =>
    rw [leadsTo] at h
    split_ifs at h with hto
    exact hto

lemma Item.eq_directory_of_leadsTo {item : Item} {d : ℕ} (h : item.leadsTo = some d)
    (h' : item.isReparsePoint = false) : item = .directory d := by
  cases item with
  | file => exact absurd h (by simp [leadsTo])
  | directory node => rw [Option.some.inj h]
  | link => exact absurd h' (by simp [isReparsePoint])

/-- An entry, with the directory it is in. -/
structure Object (N : Type*) where
  dir : ℕ
  name : N
  item : Item
  deriving DecidableEq

/-- The entries of each directory. No two entries of a directory have one name. -/
structure Volume (N : Type*) where
  entries : ℕ → List (N × Item)
  unique : ∀ d, ((entries d).map Prod.fst).Nodup

variable {N : Type*}

/-! ### Names -/

section Names

variable [DecidableEq N]

def Volume.find (v : Volume N) (d : ℕ) (name : N) : Option Item := (v.entries d).lookup name

/-- The directory that is reached from `d` down the names. -/
def Volume.enter (v : Volume N) : ℕ → List N → Option ℕ
  | d, [] => some d
  | d, name :: names => ((v.find d name).bind Item.leadsTo).bind (v.enter · names)

/-- The entry that the last of the names has, in the directory that the others lead to. -/
def Volume.locate (v : Volume N) (d : ℕ) (names : List N) : Option (Object N) :=
  names.getLast?.bind fun name => (v.enter d names.dropLast).bind fun dir =>
    (v.find dir name).map (⟨dir, name, ·⟩)

lemma lookup_eq_some_of_nodup {l : List (N × Item)} (hl : (l.map Prod.fst).Nodup) {name : N}
    {item : Item} : l.lookup name = some item ↔ (name, item) ∈ l := by
  induction l with
  | nil => simp
  | cons e l ih =>
    obtain ⟨n, i⟩ := e
    rw [List.map_cons, List.nodup_cons] at hl
    rw [List.lookup_cons, List.mem_cons, Prod.mk.injEq]
    by_cases h : name = n
    · subst h
      have hnot : (name, item) ∉ l := fun hm => hl.1 (List.mem_map.2 ⟨_, hm, rfl⟩)
      simp [hnot, eq_comm]
    · have hbeq : (name == n) = false := beq_eq_false_iff_ne.2 h
      simp only [hbeq, h, false_and, false_or]
      exact ih hl.2

lemma Volume.find_eq_some {v : Volume N} {d : ℕ} {name : N} {item : Item} :
    v.find d name = some item ↔ (name, item) ∈ v.entries d :=
  lookup_eq_some_of_nodup (v.unique d)

lemma Volume.enter_append (v : Volume N) (more : List N) : ∀ (names : List N) (d : ℕ),
    v.enter d (names ++ more) = (v.enter d names).bind (v.enter · more)
  | [], d => rfl
  | name :: names, d => by
    have hstep : (v.enter · (names ++ more)) = fun d' => (v.enter d' names).bind (v.enter · more) :=
      funext fun d' => v.enter_append more names d'
    rw [List.cons_append, enter, enter, hstep, ← Option.bind_assoc]

lemma Volume.enter_singleton (v : Volume N) (d : ℕ) (name : N) :
    v.enter d [name] = (v.find d name).bind Item.leadsTo := by
  simp only [enter]
  exact Option.bind_fun_some _

lemma Volume.locate_concat (v : Volume N) (d : ℕ) (names : List N) (name : N) :
    v.locate d (names ++ [name]) =
      (v.enter d names).bind fun dir => (v.find dir name).map (⟨dir, name, ·⟩) := by
  rw [locate, List.getLast?_concat, List.dropLast_concat]
  rfl

/-- To enter names is to locate them and to enter what they have there. -/
lemma Volume.enter_eq_locate (v : Volume N) (d : ℕ) {names : List N} (h : names ≠ []) :
    v.enter d names = (v.locate d names).bind (·.item.leadsTo) := by
  obtain ⟨names, name, rfl⟩ := (List.eq_nil_or_concat' names).resolve_left h
  rw [locate_concat, enter_append, Option.bind_assoc]
  refine Option.bind_congr fun dir _ => ?_
  rw [enter_singleton, Option.bind_map]
  rfl

/-- An object that has been located is an entry of its directory. -/
lemma Volume.mem_of_locate {v : Volume N} {d : ℕ} {names : List N} {o : Object N}
    (h : v.locate d names = some o) : (o.name, o.item) ∈ v.entries o.dir := by
  simp only [locate, Option.bind_eq_some_iff, Option.map_eq_some_iff] at h
  obtain ⟨name, -, dir, -, item, hfind, rfl⟩ := h
  exact find_eq_some.1 hfind

/-- An entry of a directory that is entered is located by its name. -/
lemma Volume.locate_of_enter {v : Volume N} {d dir : ℕ} {names : List N} {name : N} {item : Item}
    (h : v.enter d names = some dir) (hmem : (name, item) ∈ v.entries dir) :
    v.locate d (names ++ [name]) = some ⟨dir, name, item⟩ := by
  rw [locate_concat, h, Option.bind_some, find_eq_some.2 hmem, Option.map_some]

/-- What cannot be located leads to nothing. -/
lemma Volume.locate_append_eq_none {v : Volume N} {d : ℕ} {names more : List N}
    (hne : names ≠ []) (h : v.locate d names = none) : v.locate d (names ++ more) = none := by
  rcases List.eq_nil_or_concat' more with rfl | ⟨more, name, rfl⟩
  · rw [List.append_nil, h]
  · rw [← List.append_assoc, locate_concat, enter_append, enter_eq_locate v d hne, h]
    rfl

end Names

/-! ### Volumes that have lost entries -/

/-- The first volume is the second one with some entries missing. -/
instance : Preorder (Volume N) where
  le v w := ∀ d, (v.entries d).Sublist (w.entries d)
  le_refl v d := List.Sublist.refl _
  le_trans u v w huv hvw d := (huv d).trans (hvw d)

section Loss

variable [DecidableEq N] {v w : Volume N}

lemma find_mono (h : v ≤ w) {d : ℕ} {name : N} {item : Item} (hfind : v.find d name = some item) :
    w.find d name = some item :=
  Volume.find_eq_some.2 ((h d).subset (Volume.find_eq_some.1 hfind))

lemma enter_mono (h : v ≤ w) : ∀ {names : List N} {d e : ℕ}, v.enter d names = some e →
    w.enter d names = some e
  | [], d, e, he => he
  | name :: names, d, e, he => by
    simp only [Volume.enter, Option.bind_eq_some_iff] at he ⊢
    obtain ⟨next, ⟨item, hfind, hleads⟩, hrest⟩ := he
    exact ⟨next, ⟨item, find_mono h hfind, hleads⟩, enter_mono h hrest⟩

/-- **What is located after a loss is what was located there before.** -/
lemma locate_mono (h : v ≤ w) {names : List N} {d : ℕ} {o : Object N}
    (ho : v.locate d names = some o) : w.locate d names = some o := by
  simp only [Volume.locate, Option.bind_eq_some_iff, Option.map_eq_some_iff] at ho ⊢
  obtain ⟨name, hlast, dir, henter, item, hfind, rfl⟩ := ho
  exact ⟨name, hlast, dir, enter_mono h henter, item, find_mono h hfind, rfl⟩

/-- The volume without the entry. -/
def Volume.remove (v : Volume N) (o : Object N) : Volume N where
  entries d := (v.entries d).filter fun e => ¬(d = o.dir ∧ e.1 = o.name)
  unique d := (v.unique d).sublist (List.filter_sublist.map _)

lemma remove_le (v : Volume N) (o : Object N) : v.remove o ≤ v := fun _ => List.filter_sublist

/-- What has been removed is not located any more. -/
lemma locate_remove {names : List N} {d : ℕ} {o : Object N} (ho : v.locate d names = some o) :
    (v.remove o).locate d names = none := by
  rw [Option.eq_none_iff_forall_not_mem]
  intro o' ho'
  have hsame : o' = o := by
    have := locate_mono (remove_le v o) ho'
    rw [ho] at this
    exact (Option.some.inj this).symm
  have hmem := Volume.mem_of_locate ho'
  rw [hsame, Volume.remove, List.mem_filter] at hmem
  simpa using hmem.2

end Loss

/-! ### Containment -/

/-- The object is the root or is contained in it. -/
inductive Within (v : Volume N) (root : Object N) : Object N → Prop
  | root : Within v root root
  | entry {o : Object N} {d : ℕ} {name : N} {item : Item} (ho : Within v root o)
      (hdir : o.item = .directory d) (hmem : (name, item) ∈ v.entries d) :
      Within v root ⟨d, name, item⟩

/-- Only a directory contains objects. -/
lemma within_iff_of_not_directory {v : Volume N} {root o : Object N}
    (h : ∀ d, root.item ≠ .directory d) : Within v root o ↔ o = root := by
  refine ⟨fun ho => ?_, fun ho => ho ▸ .root⟩
  induction ho with
  | root => rfl
  | entry _ hdir _ ih => exact absurd (ih ▸ hdir) (h _)

end Wpm.Lib.FileTree
