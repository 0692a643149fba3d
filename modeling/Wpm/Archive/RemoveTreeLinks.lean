import Wpm.Archive.RemoveTreeLaws

/-!
The removal of a link to a directory.

`remove_directory_tree` asks of its path only whether it has the directory attribute, and a link to
a directory has it. So the removal enumerates the directory that the link leads to and deletes what
it finds there. It comes first to the object that `Loses` describes.
-/

namespace Wpm.Archive.RemoveTree

open Wpm.Lib.CString Wpm.Lib.FileTree

variable {disk : Disk} {env : Env} {path : Bytes}

/-- The first object that the removal deletes when no call is refused, from these entries of a
directory with this path: an entry that is no ordinary directory, or an ordinary directory that is
empty. The attributes of a directory on the way can be read, and the paths fit. -/
inductive Loses (disk : Disk) (unreadable : Bytes → Bool) :
    Bytes → ℕ → List (Bytes × Item) → Object Bytes → Prop
  | entry {path entryPath name : Bytes} {d : ℕ} {item : Item} {rest : List (Bytes × Item)}
      (hjoin : joinPath path name = some entryPath)
      (hitem : item.isDirectory = true → item.isReparsePoint = true) :
      Loses disk unreadable path d ((name, item) :: rest) ⟨d, name, item⟩
  | emptied {path entryPath name : Bytes} {d e : ℕ} {rest : List (Bytes × Item)}
      (hjoin : joinPath path name = some entryPath) (hread : unreadable entryPath = false)
      (hfits : (joinPath entryPath (str "*")).isSome) (hempty : disk.volume.entries e = []) :
      Loses disk unreadable path d ((name, .directory e) :: rest) ⟨d, name, .directory e⟩
  | inside {path entryPath name : Bytes} {d e : ℕ} {rest : List (Bytes × Item)} {x : Object Bytes}
      (hjoin : joinPath path name = some entryPath) (hread : unreadable entryPath = false)
      (hfits : (joinPath entryPath (str "*")).isSome)
      (h : Loses disk unreadable entryPath e (disk.volume.entries e) x) :
      Loses disk unreadable path d ((name, .directory e) :: rest) x
  | skipped {path entryPath name : Bytes} {d e : ℕ} {rest : List (Bytes × Item)} {x : Object Bytes}
      (hjoin : joinPath path name = some entryPath) (hread : unreadable entryPath = true)
      (h : Loses disk unreadable path d rest x) :
      Loses disk unreadable path d ((name, .directory e) :: rest) x

/-- The path can be removed without harm: the attributes of its object can be read, and if it is a
link to a directory, which the path with a separator at its end names too, then the removal comes
first to the link itself, or to nothing. -/
def Guarded (disk : Disk) (env : Env) (path : Bytes) : Prop :=
  env.mayWrite = true → ∀ root, locate env path disk.volume = some root →
    env.unreadable path = false ∧
      (root.item.isReparsePoint = true → locate env (slashed path) disk.volume = some root →
        ∀ d, root.item.leadsTo = some d →
        (joinPath path (str "*")).isSome →
        ∀ x, Loses disk env.unreadable path d (disk.volume.entries d) x → x = root)

/-! ### The steps of the removal -/

section Steps

variable {removeTree : Bytes → World → Bool × World} {w : World}

lemma removeEntries_of_false {e : Bytes × Item} {rest : List (Bytes × Item)} {w' : World}
    (h : removeEntry removeTree env path e.1 e.2 w = (false, w')) :
    removeEntries removeTree env path (e :: rest) w = (false, w') := by
  rw [removeEntries, h]

lemma removeEntries_of_true {e : Bytes × Item} {rest : List (Bytes × Item)} {w' : World}
    (h : removeEntry removeTree env path e.1 e.2 w = (true, w')) :
    removeEntries removeTree env path (e :: rest) w =
      if env.refuses w'.calls then (false, w'.tick)
      else removeEntries removeTree env path rest w'.tick := by
  rw [removeEntries, h]

/-- The two dots are passed over. -/
lemma removeEntries_dots (removeTree : Bytes → World → Bool × World) (env : Env) (path : Bytes)
    (d : ℕ) (entries : List (Bytes × Item)) (w : World) :
    ∃ w', w'.volume = w.volume ∧ w'.deleted = w.deleted ∧
      ((removeEntries removeTree env path
          ([(str ".", .directory d), (str "..", .directory d)] ++ entries) w = (false, w') ∧
        ∃ n, env.refuses n = true) ∨
      removeEntries removeTree env path
          ([(str ".", .directory d), (str "..", .directory d)] ++ entries) w =
        removeEntries removeTree env path entries w') := by
  rw [List.cons_append, removeEntries_of_true (removeEntry_of_dot (Or.inl rfl))]
  split_ifs with hfirst
  · exact ⟨w.tick, rfl, rfl, Or.inl ⟨rfl, _, hfirst⟩⟩
  · rw [List.cons_append, List.nil_append,
      removeEntries_of_true (removeEntry_of_dot (Or.inr rfl))]
    split_ifs with hsecond
    · exact ⟨w.tick.tick, rfl, rfl, Or.inl ⟨rfl, _, hsecond⟩⟩
    · exact ⟨w.tick.tick, rfl, rfl, Or.inr rfl⟩

/-- The removal of a path whose attributes are not those of a directory changes nothing. -/
lemma removeDirectoryTreeTo_of_not_isDirectory (hdir : isDirectory env path w = false)
    (depth : ℕ) : (removeDirectoryTreeTo env depth path w).2 = w := by
  cases depth with
  | zero => rfl
  | succ depth =>
    simp only [removeDirectoryTreeTo, hdir, Bool.not_false, if_true]
    split_ifs <;> rfl

/-- An entry that was to be deleted, and is deleted. -/
lemma mem_deleted_erase {deletes : Volume Bytes → Item → Bool} {x : Object Bytes}
    (hx : x ∈ w.deleted) : x ∈ (erase deletes env path w).2.deleted := by
  rcases erase_cases deletes env path w with ⟨o, -, -, he⟩ | he <;> rw [he]
  · exact List.mem_append_left _ hx
  · exact hx

/-- What has been deleted stays deleted. -/
lemma mem_deleted_removeDirectoryTreeTo {x : Object Bytes} (depth : ℕ) (path : Bytes) (w : World)
    (hx : x ∈ w.deleted) : x ∈ (removeDirectoryTreeTo env depth path w).2.deleted :=
  removeDirectoryTreeTo_inv (I := fun w => x ∈ w.deleted) (P := fun _ => True)
    (D := fun _ => True) (fun _ hw => hw) (fun _ _ _ _ hw => mem_deleted_erase hw)
    (fun _ _ => trivial) (fun _ _ _ _ _ _ _ _ _ _ _ _ _ => ⟨trivial, fun _ _ => trivial⟩)
    depth path w trivial hx

lemma mem_deleted_removeEntries {x : Object Bytes} {depth : ℕ} (entries : List (Bytes × Item))
    (w : World) (hx : x ∈ w.deleted) :
    x ∈ (removeEntries (removeDirectoryTreeTo env depth) env path entries w).2.deleted :=
  removeEntries_inv (I := fun w => x ∈ w.deleted) (fun _ hw => hw)
    (fun _ _ _ hw => removeEntry_inv (I := fun w => x ∈ w.deleted)
      (fun _ _ _ => ⟨fun _ _ => mem_deleted_removeDirectoryTreeTo depth _ _ hw,
        fun _ => mem_deleted_erase hw⟩) hw) w hx

end Steps

/-! ### Through the link -/

lemma removeEntries_dots_of_not_refused (hfree : ∀ n, env.refuses n = false)
    (removeTree : Bytes → World → Bool × World) (d : ℕ) (entries : List (Bytes × Item))
    (w : World) :
    ∃ w', w'.volume = w.volume ∧ removeEntries removeTree env path
        ([(str ".", .directory d), (str "..", .directory d)] ++ entries) w =
      removeEntries removeTree env path entries w' := by
  obtain ⟨w', hv, -, ⟨-, n, hn⟩ | h⟩ := removeEntries_dots removeTree env path d entries w
  · rw [hfree n] at hn
    exact absurd hn (by decide)
  · exact ⟨w', hv, h⟩

/-- The removal of a directory that nothing refuses: its entries, and then itself. -/
lemma removeDirectoryTreeTo_of_not_refused (hfree : ∀ n, env.refuses n = false)
    (hwrite : env.mayWrite = true) {w : World} {o : Object Bytes} {d : ℕ}
    (ho : At env path w.volume (some o)) (hleads : o.item.leadsTo = some d)
    (hread : env.unreadable path = false)
    (hfits : (joinPath path (str "*")).isSome) (depth : ℕ) :
    ∃ w', w'.volume = w.volume ∧ removeDirectoryTreeTo env (depth + 1) path w =
      removeEmptied env path
        (removeEntries (removeDirectoryTreeTo env depth) env path (w.volume.entries d) w') := by
  have hisdir : isDirectory env path w = true := by
    rw [isDirectory_of_locate ho.bare hread]
    exact Item.isDirectory_of_leadsTo hleads
  obtain ⟨searchPath, hsearch⟩ := Option.isSome_iff_exists.1 hfits
  have hfind : findFiles env searchPath w =
      (some ([(str ".", .directory d), (str "..", .directory d)] ++ w.volume.entries d),
        w.tick) := by
    rw [findFiles, locate_searchPath hsearch, ho.slashed, Option.bind_some, hleads]
    exact if_neg (by rw [hfree]; decide)
  obtain ⟨w', hv, hloop⟩ := @removeEntries_dots_of_not_refused env path hfree
    (removeDirectoryTreeTo env depth) d (w.volume.entries d) w.tick
  refine ⟨w', hv, ?_⟩
  rw [removeDirectoryTreeTo, hwrite, hisdir]
  simp only [Bool.not_true, Bool.false_eq_true, if_false, hsearch, hfind]
  rw [hloop]

lemma Plain.not_dots {name : Bytes} (h : Plain name) : ¬(name = str "." ∨ name = str "..") :=
  not_or.2 h.isName.2

lemma removable_of_link (v : Volume Bytes) {item : Item} (hdir : item.isDirectory = true)
    (hlink : item.isReparsePoint = true) : removable v item = true := by
  cases item with
  | file => exact hdir
  | directory d => exact absurd hlink Bool.false_ne_true
  | link => exact hdir

lemma mem_deleted_of_head {x : Object Bytes} {depth : ℕ} {e : Bytes × Item}
    {rest : List (Bytes × Item)} {w : World}
    (hx : x ∈ (removeEntry (removeDirectoryTreeTo env depth) env path e.1 e.2 w).2.deleted) :
    x ∈ (removeEntries (removeDirectoryTreeTo env depth) env path (e :: rest) w).2.deleted := by
  obtain ⟨⟨ok, w'⟩, hresult⟩ : ∃ result, removeEntry (removeDirectoryTreeTo env depth) env path
      e.1 e.2 w = result := ⟨_, rfl⟩
  rw [hresult] at hx
  cases ok with
  | false =>
    rw [removeEntries_of_false hresult]
    exact hx
  | true =>
    rw [removeEntries_of_true hresult]
    split_ifs
    · exact hx
    · exact mem_deleted_removeEntries rest _ hx

/-- **The first object is deleted** when no call is refused. -/
lemma mem_deleted_of_loses (hfree : ∀ n, env.refuses n = false) (hwrite : env.mayWrite = true)
    {d : ℕ} {entries : List (Bytes × Item)} {x : Object Bytes}
    (h : Loses disk env.unreadable path d entries x) : ∀ {depth : ℕ} {w : World} {o : Object Bytes},
      w.volume = disk.volume → locate env (slashed path) disk.volume = some o →
      o.item.leadsTo = some d →
      (∀ e ∈ entries, e ∈ disk.volume.entries d) → pathSize ≤ depth + 1 + path.length →
      x ∈ (removeEntries (removeDirectoryTreeTo env depth) env path entries w).2.deleted := by
  induction h with
  | @entry path entryPath name d item rest hjoin hitem =>
    intro depth w o hv ho hleads hmem hdepth
    have hentry := hmem _ List.mem_cons_self
    have hname := disk.plain d _ hentry
    have hlocate := locate_entry ho hleads hname hentry hjoin
    rw [← hv] at hlocate
    have hlocate := hlocate.bare
    refine mem_deleted_of_head ?_
    rw [removeEntry_of_joinPath hname.not_dots hjoin]
    split_ifs with hplain hdir
    · rw [Bool.and_eq_true, Bool.not_eq_true'] at hplain
      rw [hitem hplain.1] at hplain
      exact absurd hplain.2 (by decide)
    · rw [removeDirectory, erase_of_not_refused (hfree _) hlocate
        (removable_of_link _ hdir (hitem hdir))]
      exact List.mem_append_right _ List.mem_cons_self
    · rw [deleteFile, erase_of_not_refused (hfree _) hlocate (by simpa using hdir)]
      exact List.mem_append_right _ List.mem_cons_self
  | @emptied path entryPath name d e rest hjoin hread hfits hempty =>
    intro depth w o hv ho hleads hmem hdepth
    have hentry := hmem _ List.mem_cons_self
    have hname := disk.plain d _ hentry
    have hlocate := locate_entry ho hleads hname hentry hjoin
    have hlen := length_joinPath hname.isName.1 hjoin
    obtain ⟨depth, rfl⟩ := Nat.exists_eq_succ_of_ne_zero (show depth ≠ 0 by omega)
    obtain ⟨w', hv', heq⟩ := removeDirectoryTreeTo_of_not_refused hfree hwrite
      (hv.symm ▸ hlocate) rfl hread hfits depth
    refine mem_deleted_of_head ?_
    rw [removeEntry_directory hname.not_dots hjoin, heq, hv, hempty]
    rw [hv] at hv'
    have hdel : (w'.volume.entries e).isEmpty = true := by rw [hv', hempty]; rfl
    rw [removeEntries, removeEmptied, removeDirectory,
      erase_of_not_refused (hfree _) (hv'.symm ▸ hlocate.bare) hdel]
    exact List.mem_append_right _ List.mem_cons_self
  | @inside path entryPath name d e rest x hjoin hread hfits h ih =>
    intro depth w o hv ho hleads hmem hdepth
    have hentry := hmem _ List.mem_cons_self
    have hname := disk.plain d _ hentry
    have hlocate := locate_entry ho hleads hname hentry hjoin
    have hlen := length_joinPath hname.isName.1 hjoin
    obtain ⟨depth, rfl⟩ := Nat.exists_eq_succ_of_ne_zero (show depth ≠ 0 by omega)
    obtain ⟨w', hv', heq⟩ := removeDirectoryTreeTo_of_not_refused hfree hwrite
      (hv.symm ▸ hlocate) rfl hread hfits depth
    refine mem_deleted_of_head ?_
    rw [removeEntry_directory hname.not_dots hjoin, heq, hv]
    rw [hv] at hv'
    exact removeEmptied_inv (I := fun w => x ∈ w.deleted) (fun w hw => mem_deleted_erase hw)
      (ih hv' hlocate.slashed rfl (fun _ he => he) (by omega))
  | @skipped path entryPath name d e rest x hjoin hread h ih =>
    intro depth w o hv ho hleads hmem hdepth
    have hname := disk.plain d _ (hmem _ List.mem_cons_self)
    have hlen := length_joinPath hname.isName.1 hjoin
    obtain ⟨depth, rfl⟩ := Nat.exists_eq_succ_of_ne_zero (show depth ≠ 0 by omega)
    have hskip : removeDirectoryTreeTo env (depth + 1) entryPath w = (true, w) := by
      rw [removeDirectoryTreeTo, isDirectory, getFileAttributes, hwrite, hread]
      rfl
    have hhead : removeEntry (removeDirectoryTreeTo env (depth + 1)) env path name (.directory e)
        w = (true, w) := by
      rw [removeEntry_directory hname.not_dots hjoin, hskip]
    rw [removeEntries_of_true hhead, hfree, if_neg (by decide)]
    exact ih hv ho hleads (fun e he => hmem e (List.mem_cons_of_mem _ he)) hdepth

/-! ### A link that does no harm -/

/-- Nothing has been deleted. -/
structure Untouched (disk : Disk) (w : World) : Prop where
  volume : w.volume = disk.volume
  deleted : w.deleted = []

/-- The object alone has been deleted. -/
structure Unlinked (disk : Disk) (root : Object Bytes) (w : World) : Prop where
  volume : w.volume = disk.volume.remove root
  deleted : w.deleted = [root]

section Link

variable {root : Object Bytes}

lemma erase_of_untouched {deletes : Volume Bytes → Item → Bool} {w : World} (hw : Untouched disk w)
    (h : ∀ o, locate env path disk.volume = some o → deletes disk.volume o.item = true →
      o = root) :
    Untouched disk (erase deletes env path w).2 ∧ (erase deletes env path w).1 = false ∨
      Unlinked disk root (erase deletes env path w).2 := by
  rcases erase_cases deletes env path w with ⟨o, ho, hdel, he⟩ | he <;> rw [he]
  · rw [hw.volume] at ho hdel
    have hroot := h o ho hdel
    subst hroot
    exact Or.inr ⟨by rw [hw.volume], by rw [hw.deleted]; rfl⟩
  · exact Or.inl ⟨⟨hw.volume, hw.deleted⟩, rfl⟩

/-- A call through a path where nothing is changes nothing. -/
lemma erase_of_unlinked {deletes : Volume Bytes → Item → Bool} {w : World}
    (hw : Unlinked disk root w) (h : locate env path (disk.volume.remove root) = none) :
    Unlinked disk root (erase deletes env path w).2 := by
  rcases erase_cases deletes env path w with ⟨o, ho, -, -⟩ | he
  · rw [hw.volume, h] at ho
    exact absurd ho (by simp)
  · rw [he]
    exact ⟨hw.volume, hw.deleted⟩

lemma removeDirectoryTreeTo_of_unlinked {w : World} (hw : Unlinked disk root w)
    (h : locate env path (disk.volume.remove root) = none) (depth : ℕ) :
    Unlinked disk root (removeDirectoryTreeTo env depth path w).2 := by
  have hdir : isDirectory env path w = false := by
    rw [Bool.eq_false_iff]
    intro hdir
    obtain ⟨o, ho, -⟩ := isDirectory_eq_true hdir
    rw [hw.volume, h] at ho
    exact absurd ho (by simp)
  rw [removeDirectoryTreeTo_of_not_isDirectory hdir depth]
  exact hw

/-- So does a loop over the entries that were there. -/
lemma removeEntries_of_unlinked {depth d : ℕ} {entries : List (Bytes × Item)} {w : World}
    (hw : Unlinked disk root w) (hne : full env (slashed path) ≠ [])
    (h : locate env (slashed path) (disk.volume.remove root) = none)
    (hmem : ∀ e ∈ entries, e ∈ disk.volume.entries d) :
    Unlinked disk root
      (removeEntries (removeDirectoryTreeTo env depth) env path entries w).2 := by
  refine removeEntries_inv (fun w hw => ⟨hw.volume, hw.deleted⟩) (fun e he w hw => ?_) w hw
  refine removeEntry_inv (I := Unlinked disk root) (fun entryPath _ hjoin => ?_) hw
  have hentry := (locate_entry_eq_none hne h (disk.plain d e (hmem e he)) hjoin).bare
  exact ⟨fun _ _ => removeDirectoryTreeTo_of_unlinked hw hentry depth,
    fun _ => erase_of_unlinked hw hentry⟩

/-- The removal, to this depth, of a directory where it comes first to the link or to nothing. It
succeeds only on a directory whose attributes cannot be read. -/
def Harmless (disk : Disk) (env : Env) (root : Object Bytes) (depth : ℕ) : Prop :=
  ∀ (path : Bytes) (w : World) (o : Object Bytes) (d : ℕ),
    At env path disk.volume (some o) → o.item = .directory d →
    At env path (disk.volume.remove root) none →
    (env.unreadable path = false → (joinPath path (str "*")).isSome →
      disk.volume.entries d ≠ [] ∧
        ∀ x, Loses disk env.unreadable path d (disk.volume.entries d) x → x = root) →
    Untouched disk w →
    Untouched disk (removeDirectoryTreeTo env depth path w).2 ∧
        ((removeDirectoryTreeTo env depth path w).1 = true → env.unreadable path = true) ∨
      Unlinked disk root (removeDirectoryTreeTo env depth path w).2

/-- A loop that comes first to the link or to nothing. It goes on only past directories whose
attributes cannot be read. -/
lemma removeEntries_of_untouched {depth : ℕ} (hlink : root.item.isReparsePoint = true)
    (htree : Harmless disk env root depth)
    {o : Object Bytes} {d : ℕ} (ho : locate env (slashed path) disk.volume = some o)
    (hleads : o.item.leadsTo = some d)
    (hgone : locate env (slashed path) (disk.volume.remove root) = none) :
    ∀ {entries : List (Bytes × Item)} {w : World}, (∀ e ∈ entries, e ∈ disk.volume.entries d) →
      (∀ x, Loses disk env.unreadable path d entries x → x = root) → Untouched disk w →
      Untouched disk (removeEntries (removeDirectoryTreeTo env depth) env path entries w).2 ∨
        Unlinked disk root
          (removeEntries (removeDirectoryTreeTo env depth) env path entries w).2 := by
  intro entries
  induction entries with
  | nil => exact fun _ _ hw => Or.inl hw
  | cons e rest ih =>
    obtain ⟨name, item⟩ := e
    intro w hmem hloses hw
    have hmem' : ∀ e ∈ rest, e ∈ disk.volume.entries d := fun e he =>
      hmem e (List.mem_cons_of_mem _ he)
    have hentry := hmem _ List.mem_cons_self
    have hname : Plain name := disk.plain d _ hentry
    have hne := (locate_ne_nil ho).2
    cases hjoin : joinPath path name with
    | none =>
      rw [removeEntries_of_false (removeEntry_of_joinPath_eq_none hname.not_dots hjoin)]
      exact Or.inl hw
    | some entryPath =>
      have hlocate := locate_entry ho hleads hname hentry hjoin
      have hnone := locate_entry_eq_none hne hgone hname hjoin
      obtain ⟨⟨ok, w'⟩, hresult⟩ : ∃ result, removeEntry (removeDirectoryTreeTo env depth) env path
          name item w = result := ⟨_, rfl⟩
      -- the entry itself
      have hhead : Untouched disk w' ∧ (ok = true → (∃ e, item = .directory e) ∧
          env.unreadable entryPath = true) ∨ Unlinked disk root w' := by
        have hdelete : ∀ deletes, (item.isDirectory = true → item.isReparsePoint = true) →
            erase deletes env entryPath w = (ok, w') →
            Untouched disk w' ∧ (ok = true → (∃ e, item = .directory e) ∧
              env.unreadable entryPath = true) ∨ Unlinked disk root w' := by
          intro deletes hitem he
          have hcases := @erase_of_untouched disk env entryPath root deletes w hw fun o ho _ => by
              rw [hlocate.bare, Option.some.injEq] at ho
              exact ho ▸ hloses _ (.entry hjoin hitem)
          rw [he] at hcases
          rcases hcases with ⟨hw', hfalse⟩ | hw'
          · exact Or.inl ⟨hw', fun htrue => absurd (hfalse.symm.trans htrue) (by decide)⟩
          · exact Or.inr hw'
        rw [removeEntry_of_joinPath hname.not_dots hjoin] at hresult
        split_ifs at hresult with hplain hdir
        · rw [Bool.and_eq_true, Bool.not_eq_true'] at hplain
          obtain ⟨e, rfl⟩ := Item.eq_directory hplain.1 hplain.2
          have hcases := htree entryPath w _ e hlocate rfl hnone (fun hread hfits => by
            refine ⟨fun hempty => ?_, fun x hx => hloses x (.inside hjoin hread hfits hx)⟩
            have hroot := hloses _ (.emptied hjoin hread hfits hempty)
            rw [← hroot] at hlink
            exact absurd hlink Bool.false_ne_true) hw
          rw [hresult] at hcases
          rcases hcases with ⟨hw', hread⟩ | hw'
          · exact Or.inl ⟨hw', fun htrue => ⟨⟨e, rfl⟩, hread htrue⟩⟩
          · exact Or.inr hw'
        · have hitem : item.isReparsePoint = true := by
            rw [hdir, Bool.true_and, Bool.not_eq_true', Bool.not_eq_false] at hplain
            exact hplain
          exact hdelete _ (fun _ => hitem) hresult
        · exact hdelete _ (fun h => absurd h hdir) hresult
      cases ok with
      | false =>
        rw [removeEntries_of_false hresult]
        exact hhead.imp_left And.left
      | true =>
        rw [removeEntries_of_true hresult]
        rcases hhead with ⟨hw', hskip⟩ | hw'
        · obtain ⟨⟨e, rfl⟩, hread⟩ := hskip rfl
          split_ifs
          · exact Or.inl ⟨hw'.volume, hw'.deleted⟩
          · exact ih hmem' (fun x hx => hloses x (.skipped hjoin hread hx))
              ⟨hw'.volume, hw'.deleted⟩
        · split_ifs
          · exact Or.inr ⟨hw'.volume, hw'.deleted⟩
          · exact Or.inr (removeEntries_of_unlinked ⟨hw'.volume, hw'.deleted⟩ hne hgone hmem')

/-- So does the loop over all that the enumeration delivers. -/
lemma removeEntries_dots_of_untouched {depth : ℕ} (hlink : root.item.isReparsePoint = true)
    (htree : Harmless disk env root depth)
    {o : Object Bytes} {d : ℕ} (ho : locate env (slashed path) disk.volume = some o)
    (hleads : o.item.leadsTo = some d)
    (hgone : locate env (slashed path) (disk.volume.remove root) = none)
    (hfirst : ∀ x, Loses disk env.unreadable path d (disk.volume.entries d) x → x = root)
    {w : World} (hw : Untouched disk w) :
    let result := removeEntries (removeDirectoryTreeTo env depth) env path
      ([(str ".", .directory d), (str "..", .directory d)] ++ w.volume.entries d) w.tick
    Untouched disk result.2 ∨ Unlinked disk root result.2 := by
  obtain ⟨w', hv, hd, ⟨hloop, -⟩ | hloop⟩ := removeEntries_dots (removeDirectoryTreeTo env depth)
    env path d (w.volume.entries d) w.tick
  all_goals
    have hw' : Untouched disk w' := ⟨hv.trans hw.volume, hd.trans hw.deleted⟩
    rw [hloop]
  · exact Or.inl hw'
  · rw [hw.volume]
    exact removeEntries_of_untouched hlink htree ho hleads hgone (fun _ he => he) hfirst hw'

lemma removeEmptied_of_untouched {result : Bool × World}
    (h : ∀ o, locate env path disk.volume = some o → removable disk.volume o.item = true →
      o = root) (hgone : locate env path (disk.volume.remove root) = none)
    (hresult : Untouched disk result.2 ∨ Unlinked disk root result.2) :
    Untouched disk (removeEmptied env path result).2 ∧ (removeEmptied env path result).1 = false ∨
      Unlinked disk root (removeEmptied env path result).2 := by
  obtain ⟨ok, w⟩ := result
  cases ok with
  | false => exact hresult.imp_left fun hw => ⟨hw, rfl⟩
  | true =>
    rcases hresult with hw | hw
    · exact erase_of_untouched hw h
    · exact Or.inr (erase_of_unlinked hw hgone)

/-- A directory that is not the link, where the removal comes first to the link or to nothing. It is
not deleted itself, as it is not empty. -/
lemma removeDirectoryTreeTo_of_untouched (hlink : root.item.isReparsePoint = true) :
    ∀ depth, Harmless disk env root depth := by
  intro depth
  induction depth with
  | zero => exact fun _ _ _ _ _ _ _ _ hw => Or.inl ⟨hw, fun h => absurd h Bool.false_ne_true⟩
  | succ depth ih =>
    intro path w o d ho hitem hgone hloses hw
    unfold removeDirectoryTreeTo
    split_ifs with hwrite hdir
    · exact Or.inl ⟨hw, fun h => h.elim⟩
    · refine Or.inl ⟨hw, fun h => ?_⟩
      unfold getFileAttributes at h
      split_ifs at h with hread
      · exact hread
      · rw [hw.volume, ho.bare] at h
        exact absurd h Bool.false_ne_true
    cases hsearch : joinPath path (str "*") with
    | none => exact Or.inl ⟨hw, fun h => absurd h Bool.false_ne_true⟩
    | some searchPath =>
      dsimp only
      obtain ⟨o', ho', -, hread⟩ := isDirectory_eq_true (by simpa using hdir)
      obtain ⟨hnonempty, hfirst⟩ := hloses hread (by rw [hsearch]; rfl)
      rcases findFiles_cases hsearch w with ⟨o', d', ho', hleads, hfind⟩ | hfind <;> rw [hfind]
      · rw [hw.volume, ho.slashed, Option.some.injEq] at ho'
        subst ho'
        rw [hitem, Item.leadsTo, Option.some.injEq] at hleads
        subst hleads
        have hkept : ∀ o, locate env path disk.volume = some o →
            removable disk.volume o.item = true → o = root := by
          intro o' ho' hempty
          rw [ho.bare, Option.some.injEq] at ho'
          rw [← ho', hitem] at hempty
          exact absurd (List.isEmpty_iff.1 hempty) hnonempty
        have hloop := removeEntries_dots_of_untouched hlink ih ho.slashed (by rw [hitem]; rfl)
          hgone.slashed hfirst hw
        exact (removeEmptied_of_untouched hkept hgone.bare hloop).imp_left fun h =>
          ⟨h.1, fun htrue => absurd (h.2.symm.trans htrue) (by decide)⟩
      · exact Or.inl ⟨⟨hw.volume, hw.deleted⟩, fun h => absurd h Bool.false_ne_true⟩

/-- **The removal of a link that does no harm** deletes the link or nothing. -/
lemma removeDirectoryTreeTo_of_link (hlink : root.item.isReparsePoint = true)
    (hroot : locate env path disk.volume = some root)
    (hstraight : ∀ o, locate env (slashed path) disk.volume = some o → o = root)
    (hloses : locate env (slashed path) disk.volume = some root →
      ∀ d, root.item.leadsTo = some d → (joinPath path (str "*")).isSome →
      ∀ x, Loses disk env.unreadable path d (disk.volume.entries d) x → x = root) (depth : ℕ)
    {w : World} (hw : Untouched disk w ∨ Unlinked disk root w) :
    Untouched disk (removeDirectoryTreeTo env depth path w).2 ∨
      Unlinked disk root (removeDirectoryTreeTo env depth path w).2 := by
  have hgone : locate env path (disk.volume.remove root) = none := by
    have hne := (locate_ne_nil hroot).1
    rw [locate_eq hne] at hroot ⊢
    exact locate_remove hroot
  rcases hw with hw | hw
  swap
  · exact Or.inr (removeDirectoryTreeTo_of_unlinked hw hgone depth)
  cases depth with
  | zero => exact Or.inl hw
  | succ depth =>
    unfold removeDirectoryTreeTo
    split_ifs with hwrite hdir
    · exact Or.inl hw
    · exact Or.inl hw
    cases hsearch : joinPath path (str "*") with
    | none => exact Or.inl hw
    | some searchPath =>
      dsimp only
      rcases findFiles_cases hsearch w with ⟨o, d, ho, hleads, hfind⟩ | hfind <;> rw [hfind]
      · rw [hw.volume] at ho
        obtain rfl := hstraight o ho
        have hfirst := hloses ho d hleads (by rw [hsearch]; rfl)
        have hslashed : locate env (slashed path) (disk.volume.remove o) = none := by
          rw [locate_eq (slashed_ne_nil path)] at ho ⊢
          exact locate_remove ho
        have hloop := removeEntries_dots_of_untouched hlink
          (removeDirectoryTreeTo_of_untouched hlink depth) ho hleads hslashed hfirst hw
        refine (removeEmptied_of_untouched (fun o ho _ => ?_) hgone hloop).imp_left And.left
        rw [hroot, Option.some.injEq] at ho
        exact ho.symm
      · exact Or.inl ⟨hw.volume, hw.deleted⟩

end Link

/-! ### Safety -/

/-- Without the right to write the removal only fails. -/
lemma removeDirectoryTreeTo_of_not_mayWrite (hwrite : env.mayWrite = false) (depth : ℕ)
    (w : World) : removeDirectoryTreeTo env depth path w = (false, w) := by
  cases depth with
  | zero => rfl
  | succ depth =>
    rw [removeDirectoryTreeTo, hwrite]
    rfl

/-- What every attempt keeps makes the removal safe, when the attributes of what is there can be
read. -/
lemma safe_of_inv {I : World → Prop} (hstart : I (start disk))
    (hattempt : ∀ w, I w → I (removeDirectoryTree env path w).2)
    (hle : ∀ w, I w → w.volume ≤ disk.volume)
    (hcontained : ∀ w, I w → ∀ x ∈ w.deleted,
      ∃ root, locate env path disk.volume = some root ∧ Within disk.volume root x)
    (hread : env.mayWrite = true → env.unreadable path = true →
      locate env path disk.volume = none) :
    Safe disk env path (removeDirectoryTree env path (start disk)) ∧
      Safe disk env path (removeDirectoryTreeWithRetry env path (start disk)) := by
  have hgone : ∀ {w w'}, I w' → removeDirectoryTree env path w = (true, w') →
      locate env path w'.volume = none := by
    intro w w' hw' h
    refine locate_of_removeDirectoryTreeTo (fun hunread => ?_) h
    have hwrite : env.mayWrite = true := by
      by_contra hwrite
      rw [removeDirectoryTree,
        removeDirectoryTreeTo_of_not_mayWrite (Bool.not_eq_true _ ▸ hwrite)] at h
      exact Bool.false_ne_true (congrArg Prod.fst h)
    have hnone := hread hwrite hunread
    rw [Option.eq_none_iff_forall_ne_some]
    intro o ho
    rw [locate_le (hle w' hw') ho] at hnone
    exact absurd hnone (by simp)
  have hretry := retry_inv hattempt 100 (start disk) hstart
  refine ⟨⟨hcontained _ (hattempt _ hstart), fun h => ?_⟩, ⟨hcontained _ hretry, fun h => ?_⟩⟩
  · exact hgone (hattempt _ hstart) (Prod.ext h rfl)
  · obtain ⟨w, hw⟩ := retry_eq_true (Prod.ext h rfl)
    exact hgone hretry hw

/-- A guarded removal is safe, if its path is none of a drive with another current directory than its
root. -/
lemma safe_of_guarded (hdrive : ¬Strayed env path) (h : Guarded disk env path) :
    Safe disk env path (removeDirectoryTree env path (start disk)) ∧
      Safe disk env path (removeDirectoryTreeWithRetry env path (start disk)) := by
  have hread : env.mayWrite = true → env.unreadable path = true →
      locate env path disk.volume = none := by
    intro hwrite hunread
    rw [Option.eq_none_iff_forall_ne_some]
    intro root hroot
    rw [(h hwrite root hroot).1] at hunread
    exact absurd hunread (by decide)
  have hstart : Untouched disk (start disk) := ⟨rfl, rfl⟩
  have hnothing : ∀ w, Untouched disk w → ∀ x ∈ w.deleted,
      ∃ root, locate env path disk.volume = some root ∧ Within disk.volume root x := by
    intro w hw x hx
    rw [hw.deleted] at hx
    exact absurd hx List.not_mem_nil
  by_cases hwrite : env.mayWrite = true
  swap
  · refine safe_of_inv hstart (fun w hw => ?_) (fun w hw => hw.volume.le) hnothing hread
    rw [removeDirectoryTree, removeDirectoryTreeTo_of_not_mayWrite (Bool.not_eq_true _ ▸ hwrite)]
    exact hw
  cases hroot : locate env path disk.volume with
  | none =>
    refine safe_of_inv hstart (fun w hw => ?_) (fun w hw => hw.volume.le) hnothing hread
    have hdir : isDirectory env path w = false := by
      rw [isDirectory, getFileAttributes, hw.volume, hroot]
      split_ifs <;> rfl
    rw [removeDirectoryTree, removeDirectoryTreeTo_of_not_isDirectory hdir]
    exact hw
  | some root =>
    have hstraight : ∀ o, locate env (slashed path) disk.volume = some o → o = root := by
      intro o ho
      have hpath := locate_of_slashed (locate_ne_nil hroot).1 hdrive ho
      rw [hroot, Option.some.injEq] at hpath
      exact hpath.symm
    by_cases hlink : root.item.isReparsePoint = true
    · refine safe_of_inv (I := fun w => Untouched disk w ∨ Unlinked disk root w) (Or.inl hstart)
        (fun w hw => removeDirectoryTreeTo_of_link hlink hroot hstraight
          ((h hwrite root hroot).2 hlink) pathSize hw) ?_ ?_ hread
      · rintro w (hw | hw)
        · exact hw.volume.le
        · rw [hw.volume]
          exact remove_le _ root
      · rintro w (hw | hw) x hx
        · exact hnothing w hw x hx
        · rw [hw.deleted, List.mem_singleton] at hx
          exact ⟨root, hroot, hx ▸ .root⟩
    · refine safe_of_inv (I := fun w => w.volume ≤ disk.volume ∧
        ∀ x ∈ w.deleted, Within disk.volume root x) ⟨le_refl _, fun x hx => absurd hx
          List.not_mem_nil⟩ (fun w hw => ?_) (fun w hw => hw.1)
        (fun w hw x hx => ⟨root, hroot, hw.2 x hx⟩) hread
      refine ⟨removeDirectoryTreeTo_le _ path w hw.1, removeDirectoryTreeTo_within ?_ hw.1 hw.2⟩
      intro o ho
      have heq : o = root := by
        rcases ho with ho | ho
        · exact (Option.some.inj (hroot.symm.trans ho)).symm
        · exact hstraight o ho
      subst heq
      exact ⟨Bool.eq_false_iff.2 hlink, .root⟩

/-! ### A staging directory that is a link -/

/-- On the drive `c:`, `stage` is a link to the directory `data`, which has one file. -/
def linkedDisk : Disk where
  volume.entries
    | 0 => [(str "c:", .directory 1)]
    | 1 => [(str "data", .directory 2), (str "stage", .link true (some 2))]
    | 2 => [(str "a", .file)]
    | _ => []
  volume.unique
    | 0 | 1 | 2 => by decide
    | _ + 3 => List.nodup_nil
  plain
    | 0 | 1 | 2 => by
      intro e he
      simp only [List.mem_cons, List.not_mem_nil, or_false] at he
      rcases he with rfl | rfl
      all_goals
        exact ⟨by decide, forall_mem_of_all (by decide), by decide, by decide, by decide⟩
    | _ + 3 => fun e he => absurd he List.not_mem_nil

/-- A process that may write, which Windows refuses nothing. -/
def linkedEnv : Env := ⟨[str "c:"], [], fun _ => [], true, fun _ => false, fun _ => false⟩

end Wpm.Archive.RemoveTree
