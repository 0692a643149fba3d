import Wpm.Archive.RemoveTreePaths

/-!
What the removal of a directory deletes.

A call through a path deletes what the path located at the start, as a volume only loses entries.
So the removal of an ordinary directory stays inside it. The removal of a link to a directory goes
down the directory it leads to: `Loses` is the first object that it comes to there.
-/

namespace Wpm.Archive.RemoveTree

open Wpm.Lib.CString Wpm.Lib.FileTree

variable {env : Env} {path entryPath name : Bytes}

/-! ### One call -/

section Calls

variable {deletes : Volume Bytes → Item → Bool} {w : World}

/-- A call deletes what has its path, or it changes nothing. -/
lemma erase_cases (deletes : Volume Bytes → Item → Bool) (env : Env) (path : Bytes) (w : World) :
    (∃ o, locate env path w.volume = some o ∧ deletes w.volume o.item = true ∧
      erase deletes env path w = (true, ⟨w.volume.remove o, w.calls + 1, w.deleted ++ [o]⟩)) ∨
    erase deletes env path w = (false, w.tick) := by
  unfold erase
  cases ho : locate env path w.volume with
  | none => exact Or.inr rfl
  | some o =>
    by_cases h : (!env.refuses w.calls && deletes w.volume o.item) = true
    · exact Or.inl ⟨o, rfl, (Bool.and_eq_true_iff.1 h).2, if_pos h⟩
    · exact Or.inr (if_neg h)

lemma erase_of_not_refused (hrefuse : env.refuses w.calls = false) {o : Object Bytes}
    (ho : locate env path w.volume = some o) (hdel : deletes w.volume o.item = true) :
    erase deletes env path w = (true, ⟨w.volume.remove o, w.calls + 1, w.deleted ++ [o]⟩) := by
  unfold erase
  rw [ho]
  exact if_pos (by rw [hrefuse, hdel]; rfl)

/-- After a deletion nothing has the path. -/
lemma locate_of_erase (h : (erase deletes env path w).1 = true) :
    locate env path (erase deletes env path w).2.volume = none := by
  rcases erase_cases deletes env path w with ⟨o, ho, -, he⟩ | he
  · have hne := (locate_ne_nil ho).1
    rw [he]
    rw [locate_eq hne] at ho ⊢
    exact locate_remove ho
  · rw [he] at h
    exact absurd h Bool.false_ne_true

/-- The attributes of a directory are those of the object that has the path. -/
lemma isDirectory_eq_true (h : isDirectory env path w = true) :
    ∃ o, locate env path w.volume = some o ∧ o.item.isDirectory = true ∧
      env.unreadable path = false := by
  unfold isDirectory getFileAttributes at h
  split_ifs at h with hread
  · exact absurd h (by decide)
  · cases ho : locate env path w.volume with
    | none => exact absurd h (by rw [ho]; decide)
    | some o => exact ⟨o, rfl, by rw [ho] at h; exact h, Bool.eq_false_iff.2 hread⟩

lemma isDirectory_of_locate {o : Object Bytes} (ho : locate env path w.volume = some o)
    (hread : env.unreadable path = false) : isDirectory env path w = o.item.isDirectory := by
  rw [isDirectory, getFileAttributes, hread, ho]
  rfl

/-- What a search path is made of leads to what is found behind the path. -/
lemma locate_searchPath {searchPath : Bytes} (hjoin : joinPath path (str "*") = some searchPath)
    (v : Volume Bytes) :
    v.locate 0 (full env searchPath).dropLast = locate env (slashed path) v := by
  rw [locate_eq (slashed_ne_nil path)]
  refine congrArg (v.locate 0) ?_
  by_cases hslash : NoSlash path
  · rw [full_joinPath hslash plain_star hjoin, List.dropLast_concat]
  · obtain ⟨hverbatim, hmem⟩ := Classical.not_imp.1 hslash
    rw [not_not] at hmem
    have hall := (verbatim_append path plain_star []).2 hverbatim
    rw [List.append_nil] at hall
    rw [eq_of_joinPath hjoin, full_of_verbatim hall, full_of_verbatim hverbatim, literal, literal,
      if_pos hmem, if_pos]
    · rfl
    · rw [List.drop_append_of_le_length (length_of_verbatim hverbatim)]
      exact List.mem_append_left _ hmem

/-- An enumeration delivers the two dots and the entries of the directory that is found behind the
path. -/
lemma findFiles_cases {searchPath : Bytes} (hjoin : joinPath path (str "*") = some searchPath)
    (w : World) :
    (∃ o d, locate env (slashed path) w.volume = some o ∧ o.item.leadsTo = some d ∧
      findFiles env searchPath w =
        (some ([(str ".", .directory d), (str "..", .directory d)] ++ w.volume.entries d),
          w.tick)) ∨
    findFiles env searchPath w = (none, w.tick) := by
  unfold findFiles
  rw [locate_searchPath hjoin]
  cases ho : locate env (slashed path) w.volume with
  | none => exact Or.inr rfl
  | some o =>
    cases hd : o.item.leadsTo with
    | none => exact Or.inr (by rw [Option.bind_some, hd])
    | some d =>
      rw [Option.bind_some, hd]
      by_cases h : env.refuses w.calls = true
      · exact Or.inr (if_pos h)
      · exact Or.inl ⟨o, d, rfl, hd, if_neg h⟩

lemma removeEntry_of_dot {removeTree : Bytes → World → Bool × World} {item : Item}
    (h : name = str "." ∨ name = str "..") :
    removeEntry removeTree env path name item w = (true, w) := if_pos h

/-- The three ways to remove an entry that has a path. -/
lemma removeEntry_of_joinPath {removeTree : Bytes → World → Bool × World} {item : Item}
    (h : ¬(name = str "." ∨ name = str "..")) (hjoin : joinPath path name = some entryPath) :
    removeEntry removeTree env path name item w =
      if item.isDirectory && !item.isReparsePoint then removeTree entryPath w
      else if item.isDirectory then removeDirectory env entryPath w
      else deleteFile env entryPath w := by
  rw [removeEntry, if_neg h, hjoin]

lemma removeEntry_directory {removeTree : Bytes → World → Bool × World} {d : ℕ}
    (h : ¬(name = str "." ∨ name = str "..")) (hjoin : joinPath path name = some entryPath) :
    removeEntry removeTree env path name (.directory d) w = removeTree entryPath w := by
  rw [removeEntry_of_joinPath h hjoin]
  rfl

lemma removeEntry_of_joinPath_eq_none {removeTree : Bytes → World → Bool × World} {item : Item}
    (h : ¬(name = str "." ∨ name = str "..")) (hjoin : joinPath path name = none) :
    removeEntry removeTree env path name item w = (false, w) := by
  rw [removeEntry, if_neg h, hjoin]

end Calls

/-! ### Runs -/

section Runs

variable {I : World → Prop} {removeTree : Bytes → World → Bool × World}

/-- What the ways to remove an entry keep, its removal keeps. -/
lemma removeEntry_inv {item : Item} {w : World}
    (h : ∀ entryPath, ¬(name = str "." ∨ name = str "..") → joinPath path name = some entryPath →
      (item.isDirectory = true → item.isReparsePoint = false → I (removeTree entryPath w).2) ∧
        ∀ deletes, I (erase deletes env entryPath w).2) (hw : I w) :
    I (removeEntry removeTree env path name item w).2 := by
  by_cases hdots : name = str "." ∨ name = str ".."
  · rw [removeEntry_of_dot hdots]
    exact hw
  cases hjoin : joinPath path name with
  | none =>
    rw [removeEntry_of_joinPath_eq_none hdots hjoin]
    exact hw
  | some entryPath =>
    obtain ⟨htree, herase⟩ := h entryPath hdots hjoin
    rw [removeEntry_of_joinPath hdots hjoin]
    split_ifs with hplain hlink
    · rw [Bool.and_eq_true, Bool.not_eq_true'] at hplain
      exact htree hplain.1 hplain.2
    · exact herase _
    · exact herase _

/-- **What every entry and every further call keep, the loop keeps.** -/
lemma removeEntries_inv (htick : ∀ w, I w → I w.tick) : ∀ {entries : List (Bytes × Item)},
    (∀ e ∈ entries, ∀ w, I w → I (removeEntry removeTree env path e.1 e.2 w).2) →
    ∀ w, I w → I (removeEntries removeTree env path entries w).2
  | [], _, w, hw => hw
  | (name, item) :: entries, hentry, w, hw => by
    have hnext := hentry _ List.mem_cons_self w hw
    unfold removeEntries
    split
    · rename_i next heq
      rw [heq] at hnext
      exact hnext
    · rename_i next heq
      rw [heq] at hnext
      split
      · exact htick _ hnext
      · exact removeEntries_inv htick (fun e he => hentry e (List.mem_cons_of_mem _ he)) _
          (htick _ hnext)

lemma removeEmptied_inv (h : ∀ w, I w → I (removeDirectory env path w).2) {result : Bool × World}
    (hw : I result.2) : I (removeEmptied env path result).2 := by
  obtain ⟨ok, w⟩ := result
  cases ok with
  | false => exact hw
  | true => exact h w hw

/-- What one attempt keeps, all attempts keep. -/
lemma retry_inv {attempt : World → Bool × World} (h : ∀ w, I w → I (attempt w).2) :
    ∀ attempts w, I w → I (retry attempt attempts w).2 := by
  intro attempts
  induction attempts with
  | zero => exact h
  | succ attempts ih =>
    intro w hw
    have hnext := h w hw
    unfold retry
    split
    · rename_i next heq
      rw [heq] at hnext
      exact hnext
    · rename_i next heq
      rw [heq] at hnext
      exact ih _ hnext

/-- A success is the success of the last attempt. -/
lemma retry_eq_true {attempt : World → Bool × World} : ∀ {attempts w w'},
    retry attempt attempts w = (true, w') → ∃ w, attempt w = (true, w')
  | 0, w, w', h => ⟨w, h⟩
  | attempts + 1, w, w', h => by
    unfold retry at h
    split at h
    · rename_i next heq
      exact ⟨w, heq.trans h⟩
    · exact retry_eq_true h

/-- **What every call keeps, the removal keeps**: `D` is of the paths that it goes down, and `P` of
those whose objects it deletes. -/
lemma removeDirectoryTreeTo_inv {P D : Bytes → Prop} (htick : ∀ w, I w → I w.tick)
    (herase : ∀ deletes path w, P path → I w → I (erase deletes env path w).2)
    (hroot : ∀ path, D path → P path)
    (hentry : ∀ path w o d, D path → I w → locate env (slashed path) w.volume = some o →
      o.item.leadsTo = some d → ∀ name item entryPath,
      (name, item) ∈ w.volume.entries d → joinPath path name = some entryPath →
      P entryPath ∧
        (item.isDirectory = true → item.isReparsePoint = false → D entryPath)) :
    ∀ depth path w, D path → I w → I (removeDirectoryTreeTo env depth path w).2 := by
  intro depth
  induction depth with
  | zero => exact fun path w _ hw => hw
  | succ depth ih =>
    intro path w hD hw
    unfold removeDirectoryTreeTo
    split_ifs with hwrite hdir
    · exact hw
    · exact hw
    cases hsearch : joinPath path (str "*") with
    | none => exact hw
    | some searchPath =>
      dsimp only
      rcases findFiles_cases hsearch w with ⟨o, d, ho, hleads, hfind⟩ | hfind <;> rw [hfind]
      · have hloop : ∀ e ∈ [(str ".", Item.directory d), (str "..", Item.directory d)] ++
            w.volume.entries d, ∀ w, I w →
            I (removeEntry (removeDirectoryTreeTo env depth) env path e.1 e.2 w).2 := by
          rintro ⟨name, item⟩ he w' hw'
          refine removeEntry_inv (fun entryPath hdots hjoin => ?_) hw'
          have hmem : (name, item) ∈ w.volume.entries d := by
            simp only [List.cons_append, List.nil_append, List.mem_cons, Prod.mk.injEq] at he
            rcases he with ⟨rfl, -⟩ | ⟨rfl, -⟩ | he
            · exact absurd (Or.inl rfl) hdots
            · exact absurd (Or.inr rfl) hdots
            · exact he
          obtain ⟨hP, hdown⟩ := hentry path w o d hD hw ho hleads name item entryPath hmem hjoin
          exact ⟨fun hdir hlink => ih entryPath w' (hdown hdir hlink) hw',
            fun deletes => herase deletes entryPath w' hP hw'⟩
        exact removeEmptied_inv (fun w hw => herase _ path w (hroot path hD) hw)
          (removeEntries_inv htick hloop _ (htick w hw))
      · exact htick w hw

end Runs

/-! ### What is deleted -/

/-- The run of the removal from a disk: what it deletes is the object of the path or is contained in
it, and it succeeds only when nothing has the path any more. -/
structure Safe (disk : Disk) (env : Env) (path : Bytes) (result : Bool × World) : Prop where
  contained : ∀ x ∈ result.2.deleted,
    ∃ root, locate env path disk.volume = some root ∧ Within disk.volume root x
  gone : result.1 = true → locate env path result.2.volume = none

/-- **A success of the removal leaves nothing at the path**, if the attributes of what is there can
be read. -/
lemma locate_of_removeDirectoryTreeTo {depth : ℕ} {w w' : World}
    (hread : env.unreadable path = true → locate env path w'.volume = none)
    (h : removeDirectoryTreeTo env depth path w = (true, w')) :
    locate env path w'.volume = none := by
  cases depth with
  | zero => exact absurd (congrArg Prod.fst h) Bool.false_ne_true
  | succ depth =>
    unfold removeDirectoryTreeTo at h
    split_ifs at h with hwrite hdir
    · exact absurd (congrArg Prod.fst h) Bool.false_ne_true
    · rw [Prod.mk.injEq] at h
      obtain ⟨hnone, rfl⟩ := h
      unfold getFileAttributes at hnone
      split_ifs at hnone with hunread
      · exact hread hunread
      · rw [Option.isNone_map, Option.isNone_iff_eq_none] at hnone
        exact hnone
    split at h
    · exact absurd (congrArg Prod.fst h) Bool.false_ne_true
    · split at h
      · exact absurd (congrArg Prod.fst h) Bool.false_ne_true
      · unfold removeEmptied at h
        split at h
        · exact absurd (congrArg Prod.fst h) Bool.false_ne_true
        · have hgone := @locate_of_erase env path _ _ (congrArg Prod.fst h)
          rw [show erase _ env path _ = _ from h] at hgone
          exact hgone

/-- The calls only take entries away. -/
lemma erase_le {v : Volume Bytes} (deletes : Volume Bytes → Item → Bool) (path : Bytes) (w : World)
    (hw : w.volume ≤ v) : (erase deletes env path w).2.volume ≤ v := by
  rcases erase_cases deletes env path w with ⟨o, -, -, he⟩ | he <;> rw [he]
  · exact (remove_le _ o).trans hw
  · exact hw

lemma removeDirectoryTreeTo_le {v : Volume Bytes} (depth : ℕ) (path : Bytes) (w : World)
    (hw : w.volume ≤ v) : (removeDirectoryTreeTo env depth path w).2.volume ≤ v :=
  removeDirectoryTreeTo_inv (I := fun w => w.volume ≤ v) (P := fun _ => True)
    (D := fun _ => True) (fun _ hw => hw) (fun deletes path w _ => erase_le deletes path w)
    (fun _ _ => trivial) (fun _ _ _ _ _ _ _ _ _ _ _ _ _ => ⟨trivial, fun _ _ => trivial⟩)
    depth path w trivial hw

/-- **The removal of an ordinary directory stays inside it**, when the directory is what is found
behind its path. -/
lemma removeDirectoryTreeTo_within {disk : Disk} {root : Object Bytes} {depth : ℕ} {w : World}
    (hroot : ∀ o, locate env path disk.volume = some o ∨
      locate env (slashed path) disk.volume = some o →
      o.item.isReparsePoint = false ∧ Within disk.volume root o)
    (hle : w.volume ≤ disk.volume) (hw : ∀ x ∈ w.deleted, Within disk.volume root x) :
    ∀ x ∈ (removeDirectoryTreeTo env depth path w).2.deleted, Within disk.volume root x := by
  let P : Bytes → Prop := fun path => ∀ o, locate env path disk.volume = some o →
    Within disk.volume root o
  let D : Bytes → Prop := fun path => ∀ o, locate env path disk.volume = some o ∨
      locate env (slashed path) disk.volume = some o →
    o.item.isReparsePoint = false ∧ Within disk.volume root o
  let I : World → Prop := fun w => w.volume ≤ disk.volume ∧
    ∀ x ∈ w.deleted, Within disk.volume root x
  have herase : ∀ deletes path w, P path → I w → I (erase deletes env path w).2 := by
    intro deletes path w hP hI
    refine ⟨erase_le deletes path w hI.1, ?_⟩
    rcases erase_cases deletes env path w with ⟨o, ho, -, he⟩ | he <;> rw [he]
    · intro x hx
      rcases List.mem_append.1 hx with hx | hx
      · exact hI.2 x hx
      · rw [List.mem_singleton.1 hx]
        exact hP o (locate_le hI.1 ho)
    · exact hI.2
  refine (removeDirectoryTreeTo_inv (I := I) (P := P) (D := D) (fun _ hI => hI) herase
    (fun path hD o ho => (hD o (Or.inl ho)).2) ?_ depth path w hroot ⟨hle, hw⟩).2
  -- the directory is not a link, so its entries are contained in it
  intro path w o d hD hI ho hleads name item entryPath hmem hjoin
  have ho' := locate_le hI.1 ho
  obtain ⟨hplain, hwithin⟩ := hD o (Or.inr ho')
  have hitem : o.item = .directory d := Item.eq_directory_of_leadsTo hleads hplain
  have hmem' : (name, item) ∈ disk.volume.entries d := (hI.1 d).subset hmem
  have hentry := locate_entry ho' hleads (disk.plain d _ hmem') hmem' hjoin
  have hinside := Within.entry hwithin hitem hmem'
  refine ⟨fun x hx => ?_, fun _ hlink x hx => ?_⟩
  · rw [hentry.bare, Option.some.injEq] at hx
    exact hx ▸ hinside
  · rw [hentry.bare, hentry.slashed, or_self, Option.some.injEq] at hx
    subst hx
    exact ⟨hlink, hinside⟩

end Wpm.Archive.RemoveTree
