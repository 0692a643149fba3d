import Wpm.Operation.Drivers
import Wpm.Lib.Glob

/-!
Which files of a package are left out of its index: the patterns of `wpmignore.txt`.

A pattern that ends in a slash is a directory, a star in it stands for itself; another pattern with a
star is matched by `wildcard_match`, and any other pattern is a path or a name.
-/

namespace Wpm.Archive

open Wpm.Lib.CString Wpm.Lib.Glob
open Wpm.Operation (pathBasename)

/-! ### Patterns -/

/-- The loop of `wildcard_match` after a star: the rest of the pattern is tried on the text from every
place on, and at its end. -/
def matchFrom (rest : Bytes → Bool) : Bytes → Bool
  | [] => rest []
  | c :: text => rest (c :: text) || matchFrom rest text

/-- `wildcard_match`. -/
def wildcardMatch : Bytes → Bytes → Bool
  | [], text => text = []
  | c :: pattern, text =>
    if c = ch '*' then (if pattern = [] then true else matchFrom (wildcardMatch pattern) text)
    else match text with
      | [] => false
      | d :: text => if c ≠ d then false else wildcardMatch pattern text

/-- `ignore_pattern_matches`. -/
def ignorePatternMatches (pattern archivePath : Bytes) : Bool :=
  let basename := pathBasename archivePath
  if pattern = [] then false
  else if pattern.getLast? = some (ch '/') then (fold pattern).isPrefixOf (fold archivePath)
  else if ch '*' ∈ pattern then wildcardMatch pattern archivePath || wildcardMatch pattern basename
  else stricmp pattern archivePath = .eq || stricmp pattern basename = .eq

/-- `is_ignored_by_list`. -/
def isIgnoredByList (patterns : List Bytes) (archivePath : Bytes) : Bool :=
  patterns.any fun pattern => ignorePatternMatches pattern archivePath

/-! ### The matcher -/

lemma matchFrom_iff {rest : Bytes → Bool} : ∀ {text : Bytes},
    matchFrom rest text = true ↔ ∃ tail, tail <:+ text ∧ rest tail = true
  | [] => by
    rw [matchFrom]
    constructor
    · exact fun h => ⟨[], List.suffix_refl [], h⟩
    · rintro ⟨tail, htail, h⟩
      rwa [List.suffix_nil.1 htail] at h
  | c :: text => by
    rw [matchFrom, Bool.or_eq_true, matchFrom_iff]
    constructor
    · rintro (h | ⟨tail, htail, h⟩)
      · exact ⟨c :: text, List.suffix_refl _, h⟩
      · exact ⟨tail, htail.trans (List.suffix_cons c text), h⟩
    · rintro ⟨tail, htail, h⟩
      rcases List.suffix_cons_iff.1 htail with rfl | htail
      · exact .inl h
      · exact .inr ⟨tail, htail, h⟩

/-- **The matcher decides the language of a pattern.** -/
theorem wildcardMatch_iff : ∀ {pattern text : Bytes},
    wildcardMatch pattern text = true ↔ text ∈ glob (ch '*') pattern
  | [], text => by
    rw [wildcardMatch, decide_eq_true_iff, mem_glob_nil]
  | c :: pattern, text => by
    by_cases hstar : c = ch '*'
    · subst hstar
      rw [wildcardMatch.eq_def, mem_glob_star]
      simp only [if_true]
      by_cases hlast : pattern = []
      · subst hlast
        -- The matcher returns at once, since the rest of the text may be anything.
        simp only [if_true, true_iff]
        exact ⟨[], List.nil_suffix, mem_glob_nil.2 rfl⟩
      · rw [if_neg hlast, matchFrom_iff]
        exact exists_congr fun tail => and_congr_right fun _ => wildcardMatch_iff
    · rw [wildcardMatch.eq_def, mem_glob_cons hstar]
      simp only [if_neg hstar]
      cases text with
      | nil => simp
      | cons d text =>
        by_cases hc : c = d
        · subst hc
          simp only [ne_eq, not_true_eq_false, if_false, List.cons.injEq, true_and,
            exists_eq_left']
          exact wildcardMatch_iff
        · have hd : ¬d = c := fun h => hc h.symm
          simp [hc, hd]

/-! ### Paths in a package -/

/-- A name that a file can have. -/
def FileName (name : Bytes) : Prop := name ≠ [] ∧ ∀ c ∈ name, isSeparator c = false ∧ c ≠ ch '*'

/-- **A path in a package**, as `write_index_entries` puts it together: names below one another. -/
inductive ArchivePath : Bytes → Prop
  | name {name : Bytes} (hname : FileName name) : ArchivePath name
  | child {directory name : Bytes} (hdir : ArchivePath directory) (hname : FileName name) :
    ArchivePath (directory ++ str "/" ++ name)

lemma isSeparator_of_mem_pathBasename {path : Bytes} {c : UInt8} (h : c ∈ pathBasename path) :
    isSeparator c = false := by
  have hmem := List.mem_takeWhile_imp (List.mem_reverse.1 h)
  simpa using hmem

lemma pathBasename_of_name {name : Bytes} (h : FileName name) : pathBasename name = name := by
  rw [pathBasename, List.takeWhile_eq_self_iff.2, List.reverse_reverse]
  intro c hc
  rw [(h.2 c (List.mem_reverse.1 hc)).1]
  rfl

/-- The last segment of a path is its last name. -/
lemma pathBasename_child {directory name : Bytes} (h : FileName name) :
    pathBasename (directory ++ str "/" ++ name) = name := by
  have hname : (name.reverse.takeWhile fun c => !isSeparator c) = name.reverse := by
    rw [List.takeWhile_eq_self_iff]
    intro c hc
    rw [(h.2 c (List.mem_reverse.1 hc)).1]
    rfl
  have hslash : str "/" = [ch '/'] := rfl
  rw [pathBasename, hslash, List.reverse_append, List.reverse_append, List.takeWhile_append,
    if_pos (by rw [hname]), List.reverse_singleton, List.singleton_append,
    List.takeWhile_cons_of_neg (by decide), List.append_nil, List.reverse_reverse]

/-- The last segment is the end of the path. -/
lemma pathBasename_suffix (path : Bytes) : pathBasename path <:+ path := by
  rw [pathBasename, ← List.reverse_prefix, List.reverse_reverse]
  exact List.takeWhile_prefix _

/-- A path has no star, and does not end in a slash. -/
lemma ArchivePath.plain {path : Bytes} (h : ArchivePath path) :
    ch '*' ∉ path ∧ path.getLast? ≠ some (ch '/') := by
  have hlast : ∀ {name : Bytes}, FileName name → ∀ directory : Bytes,
      (directory ++ name).getLast? ≠ some (ch '/') := by
    intro name hname directory hslash
    rw [List.getLast?_append_of_ne_nil _ hname.1] at hslash
    have hmem := List.mem_of_getLast? hslash
    exact absurd (hname.2 _ hmem).1 (by decide)
  induction h with
  | name hname => exact ⟨fun hmem => (hname.2 _ hmem).2 rfl, hlast hname []⟩
  | child hdir hname ih =>
    refine ⟨fun hmem => ?_, hlast hname _⟩
    rcases List.mem_append.1 hmem with hmem | hmem
    · rcases List.mem_append.1 hmem with hmem | hmem
      · exact ih.1 hmem
      · exact absurd hmem (by decide)
    · exact (hname.2 _ hmem).2 rfl

/-! ### The list -/

/-- **A pattern leaves a path out**: it is a directory above the path, or it has a star and its
language has the path or its last segment, or it is one of these up to letter case. -/
def LeavesOut (pattern path : Bytes) : Prop :=
  (pattern.getLast? = some (ch '/') ∧ fold pattern <+: fold path) ∨
  (ch '*' ∈ pattern ∧
    (path ∈ glob (ch '*') pattern ∨ pathBasename path ∈ glob (ch '*') pattern)) ∨
  fold pattern = fold path ∨ fold pattern = fold (pathBasename path)

/-- What the three kinds of patterns match, in any text. -/
lemma ignorePatternMatches_iff (pattern text : Bytes) :
    ignorePatternMatches pattern text = true ↔ pattern ≠ [] ∧
      if pattern.getLast? = some (ch '/') then fold pattern <+: fold text
      else if ch '*' ∈ pattern then
        text ∈ glob (ch '*') pattern ∨ pathBasename text ∈ glob (ch '*') pattern
      else fold pattern = fold text ∨ fold pattern = fold (pathBasename text) := by
  rw [ignorePatternMatches]
  by_cases hempty : pattern = []
  · simp [hempty]
  · simp only [hempty, if_false, ne_eq, not_false_eq_true, true_and]
    split_ifs
    · exact List.isPrefixOf_iff_prefix
    · rw [Bool.or_eq_true, wildcardMatch_iff, wildcardMatch_iff]
    · rw [Bool.or_eq_true, decide_eq_true_iff, decide_eq_true_iff, stricmp_eq_iff, stricmp_eq_iff]

lemma star_mem_of_fold_eq {a b : Bytes} (h : fold a = fold b) (ha : ch '*' ∈ a) : ch '*' ∈ b := by
  have hlower : ∀ c : Fin 256, lower (UInt8.ofFin c) = ch '*' → UInt8.ofFin c = ch '*' := by
    decide +kernel
  have hmem : ch '*' ∈ fold b := h ▸ List.mem_map_of_mem (f := lower) ha
  obtain ⟨c, hc, heq⟩ := List.mem_map.1 hmem
  exact hlower c.toFin heq ▸ hc

lemma getLast?_of_fold_eq {a b : Bytes} (h : fold a = fold b) (ha : a.getLast? = some (ch '/')) :
    b.getLast? = some (ch '/') := by
  have hlower : ∀ c : Fin 256, lower (UInt8.ofFin c) = ch '/' → UInt8.ofFin c = ch '/' := by
    decide +kernel
  have hmap := congrArg List.getLast? h
  rw [fold, fold, List.getLast?_map, List.getLast?_map, ha, Option.map_some, eq_comm,
    Option.map_eq_some_iff] at hmap
  obtain ⟨c, hc, heq⟩ := hmap
  rw [hc]
  exact congrArg some (hlower c.toFin heq)

/-- For a path, the kinds of patterns need not be told apart. -/
lemma ignorePatternMatches_iff_leavesOut {path : Bytes} (h : ArchivePath path) (pattern : Bytes) :
    ignorePatternMatches pattern path = true ↔ LeavesOut pattern path := by
  obtain ⟨hstar, hslash⟩ := h.plain
  have hbase := pathBasename_suffix path
  have hstarBase : ch '*' ∉ pathBasename path := fun hmem => hstar (hbase.subset hmem)
  have hslashBase : (pathBasename path).getLast? ≠ some (ch '/') := fun hlast => by
    exact absurd (isSeparator_of_mem_pathBasename (List.mem_of_getLast? hlast)) (by decide)
  have hne : path ≠ [] ∧ pathBasename path ≠ [] := by
    cases h with
    | name hname =>
      rw [pathBasename_of_name hname]
      exact ⟨hname.1, hname.1⟩
    | child hdir hname =>
      rw [pathBasename_child hname]
      exact ⟨List.append_ne_nil_of_right_ne_nil _ hname.1, hname.1⟩
  rw [ignorePatternMatches_iff, LeavesOut]
  by_cases hdirectory : pattern.getLast? = some (ch '/')
  · rw [if_pos hdirectory]
    -- No text of the pattern's language, and no text that it equals, is a path or a name.
    have hlanguage : ∀ text, text ∈ glob (ch '*') pattern → text.getLast? = some (ch '/') := by
      intro text htext
      obtain ⟨rest, rfl⟩ := List.getLast?_eq_some_iff.1 hdirectory
      exact getLast?_of_mem_glob (by decide) htext
    constructor
    · exact fun h => .inl ⟨hdirectory, h.2⟩
    · rintro (⟨-, h⟩ | ⟨-, h | h⟩ | h | h)
      · refine ⟨?_, h⟩
        rintro rfl
        cases hdirectory
      · exact absurd (hlanguage _ h) hslash
      · exact absurd (hlanguage _ h) hslashBase
      · exact absurd (getLast?_of_fold_eq h hdirectory) hslash
      · exact absurd (getLast?_of_fold_eq h hdirectory) hslashBase
  · rw [if_neg hdirectory]
    by_cases hmem : ch '*' ∈ pattern
    · rw [if_pos hmem]
      constructor
      · exact fun h => .inr (.inl ⟨hmem, h.2⟩)
      · rintro (⟨h, -⟩ | ⟨-, h⟩ | h | h)
        · exact absurd h hdirectory
        · exact ⟨List.ne_nil_of_mem hmem, h⟩
        · exact absurd (star_mem_of_fold_eq h hmem) hstar
        · exact absurd (star_mem_of_fold_eq h hmem) hstarBase
    · rw [if_neg hmem]
      constructor
      · exact fun h => .inr (.inr h.2)
      · rintro (⟨h, -⟩ | ⟨h, -⟩ | h)
        · exact absurd h hdirectory
        · exact absurd h hmem
        · refine ⟨?_, h⟩
          rintro rfl
          rcases h with h | h
          · exact hne.1 (List.map_eq_nil_iff.1 h.symm)
          · exact hne.2 (List.map_eq_nil_iff.1 h.symm)

/-- **What the patterns leave out**: the matcher decides the language of every pattern, and a path is
left out when some pattern of the list leaves it out. Of other texts each kind of pattern has its
own. -/
theorem isIgnoredByList_iff :
    (∀ pattern text : Bytes, wildcardMatch pattern text = true ↔ text ∈ glob (ch '*') pattern) ∧
    (∀ (patterns : List Bytes) (path : Bytes), ArchivePath path →
      (isIgnoredByList patterns path = true ↔ ∃ pattern ∈ patterns, LeavesOut pattern path)) ∧
    ∀ (patterns : List Bytes) (text : Bytes), isIgnoredByList patterns text = true ↔
      ∃ pattern ∈ patterns, pattern ≠ [] ∧
        if pattern.getLast? = some (ch '/') then fold pattern <+: fold text
        else if ch '*' ∈ pattern then
          text ∈ glob (ch '*') pattern ∨ pathBasename text ∈ glob (ch '*') pattern
        else fold pattern = fold text ∨ fold pattern = fold (pathBasename text) := by
  refine ⟨fun _ _ => wildcardMatch_iff, fun patterns path hpath => ?_, fun patterns text => ?_⟩
  · rw [isIgnoredByList, List.any_eq_true]
    exact exists_congr fun pattern => and_congr_right fun _ =>
      ignorePatternMatches_iff_leavesOut hpath pattern
  · rw [isIgnoredByList, List.any_eq_true]
    exact exists_congr fun pattern => and_congr_right fun _ => ignorePatternMatches_iff pattern text

/-- A star stands for separators, too. -/
theorem isIgnoredByList_iff_sample :
    ∃ pattern ∈ [str "docs/", str "s*.o"], LeavesOut pattern (str "src/a/b.o") := by
  have hname : ∀ name ∈ [str "src", str "a", str "b.o"], FileName name := by
    have hall : ∀ name ∈ [str "src", str "a", str "b.o"], name ≠ [] ∧
        (name.all fun c => decide (isSeparator c = false ∧ c ≠ ch '*')) = true :=
      forall_mem_of_all (by decide)
    exact fun name hmem => ⟨(hall name hmem).1, forall_mem_of_all (hall name hmem).2⟩
  have hpath : ArchivePath (str "src" ++ str "/" ++ str "a" ++ str "/" ++ str "b.o") :=
    .child (.child (.name (hname _ (by simp))) (hname _ (by simp))) (hname _ (by simp))
  exact (isIgnoredByList_iff.2.1 _ _ hpath).1 (by decide)

end Wpm.Archive
