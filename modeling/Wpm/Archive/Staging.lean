import Wpm.Archive.VerifyIndex
import Wpm.Lib.FilePath
import Wpm.Operation.Drivers

/-!
Where a package is staged, and where its entries are extracted.

The directory of the stage is made from the name of the archive, and the path of an entry from its
name in the archive. The names are checked as they are written; where the paths made from them lead
is read here from their pieces.
-/

namespace Wpm.Archive

open Wpm.Lib.CString
open Wpm.Lib.FilePath (pieces Unbroken IsName enter resolve trimEnd trimPeriod settle)
open Wpm.Operation (stripZip isValidPackageName)

/-! ### The paths -/

/-- The `destination_path` of `wpm_archive_extract_with_label` for an entry of this name. -/
def entryPath (destination filename : Bytes) : Option Bytes :=
  if pathSize ≤ filename.length ∨ isSafeArchivePath filename = false then none
  else joinPath destination (filename.map toBackslash)

/-- The `temp_root` of the commands. -/
def tempRoot (dataRoot : Bytes) : Option Bytes := joinPath dataRoot (str "temp")

/-- The `staging_path` of `wpm_archive_install` and `wpm_archive_remove` for an archive of this
name. -/
def stagingPath (dataRoot archiveName : Bytes) : Option Bytes :=
  let name := stripZip archiveName
  if isValidPackageName name then (tempRoot dataRoot).bind fun root => joinPath root name else none

/-! ### Joining -/

lemma isSeparator_eq : isSeparator = Lib.FilePath.isSeparator := by
  funext c
  simp only [isSeparator, Lib.FilePath.isSeparator, Bool.decide_or, Bool.or_comm]

/-- A joined path has the pieces of its left part, and behind them those of its right part. -/
lemma pieces_joinPath {left right path : Bytes} (h : joinPath left right = some path) :
    ∃ before, pieces path = before ++ pieces right ∧ before.foldl enter [] = resolve left := by
  have hslash : Lib.FilePath.isSeparator (ch '\\') = true := by decide
  obtain ⟨-, hpath⟩ := Option.ite_none_right_eq_some.1 h
  by_cases hend : left ≠ [] ∧ isSeparator (left.getLastD 0) = true
  · rw [if_pos hend, List.append_nil] at hpath
    obtain ⟨hne, hsep⟩ := hend
    rw [List.getLastD_eq_getLast?, List.getLast?_eq_some_getLast hne, Option.getD_some,
      isSeparator_eq] at hsep
    have hleft : left = left.dropLast ++ [left.getLast hne] :=
      (List.dropLast_append_getLast hne).symm
    refine ⟨pieces left.dropLast, ?_, ?_⟩
    · rw [← Lib.FilePath.pieces_append hsep, ← Option.some.inj hpath]
      conv_lhs => rw [hleft]
      rw [List.append_assoc, List.singleton_append]
    · conv_rhs => rw [hleft, Lib.FilePath.resolve_append hsep, Lib.FilePath.pieces_nil]
      rw [List.foldl_cons, Lib.FilePath.enter_nil, List.foldl_nil]
      rfl
  · rw [if_neg hend, List.append_assoc, List.singleton_append] at hpath
    refine ⟨pieces left, ?_, rfl⟩
    rw [← Option.some.inj hpath, Lib.FilePath.pieces_append hslash]

/-! ### Entries -/

/-- **The path of an entry lies in the directory at every step**: behind the pieces that lead to the
directory there are those of the entry's name, and none of them leaves it. -/
def StaysIn (directory filename path : Bytes) : Prop :=
  (∃ before, pieces path = before ++ pieces filename ∧ before.foldl enter [] = resolve directory) ∧
    ∀ n, resolve directory <+: ((pieces filename).take n).foldl enter (resolve directory)

/-- The loop of `is_safe_archive_path` meets every segment. -/
lemma safeSegments_iff : ∀ {path segment : Bytes}, Unbroken segment →
    (safeSegments segment path = true ↔ str ".." ∉ pieces (segment ++ path))
  | [], segment, hsegment => by
    rw [List.append_nil, Lib.FilePath.pieces_eq_singleton hsegment, List.mem_singleton, safeSegments,
      decide_eq_true_eq]
    exact ne_comm
  | c :: path, segment, hsegment => by
    rw [safeSegments]
    by_cases hc : isSeparator c = true
    · rw [if_pos hc, Bool.and_eq_true, decide_eq_true_eq,
        safeSegments_iff (fun _ h => absurd h List.not_mem_nil), List.nil_append,
        Lib.FilePath.pieces_append (isSeparator_eq ▸ hc),
        Lib.FilePath.pieces_eq_singleton hsegment, List.singleton_append, List.mem_cons, not_or]
      exact and_congr_left fun _ => ne_comm
    · have hsegment' : Unbroken (segment ++ [c]) := by
        intro d hd
        rcases List.mem_append.1 hd with hd | hd
        · exact hsegment d hd
        · rw [List.mem_singleton.1 hd, ← isSeparator_eq]
          exact Bool.eq_false_iff.2 hc
      rw [if_neg hc, safeSegments_iff hsegment', List.append_assoc, List.singleton_append]

lemma isSeparator_toBackslash (c : UInt8) :
    Lib.FilePath.isSeparator (toBackslash c) = Lib.FilePath.isSeparator c := by
  unfold toBackslash
  split_ifs with h
  · rw [h]
    decide
  · rfl

/-- Nothing but separators is rewritten, so the pieces stay. -/
lemma pieces_map_toBackslash (path : Bytes) : pieces (path.map toBackslash) = pieces path := by
  induction path with
  | nil => rfl
  | cons c path ih =>
    rw [List.map_cons]
    by_cases hc : Lib.FilePath.isSeparator c = true
    · rw [Lib.FilePath.pieces_cons (by rwa [isSeparator_toBackslash]), Lib.FilePath.pieces_cons hc,
        ih]
    · have hne : toBackslash c = c := by
        refine if_neg fun h => hc ?_
        rw [h]
        decide
      rw [pieces, pieces, List.splitOnP_cons_eq_if_modifyHead, List.splitOnP_cons_eq_if_modifyHead,
        isSeparator_toBackslash, if_neg hc, if_neg hc, hne]
      rw [pieces, pieces] at ih
      rw [ih]

/-- Without a `..` the walk only goes on. -/
lemma isPrefix_foldl_enter {names : List Bytes} (h : str ".." ∉ names) (walk : List Bytes) :
    walk <+: names.foldl enter walk := by
  induction names generalizing walk with
  | nil => exact List.prefix_refl walk
  | cons name names ih =>
    rw [List.mem_cons, not_or] at h
    rw [List.foldl_cons]
    refine List.IsPrefix.trans ?_ (ih h.2 _)
    unfold enter
    rw [if_neg (ne_comm.1 h.1)]
    split_ifs
    · exact List.prefix_refl walk
    · exact List.prefix_append walk [name]

/-- **Extraction stays inside the destination.** -/
theorem entryPath_staysIn {destination filename path : Bytes}
    (h : entryPath destination filename = some path) : StaysIn destination filename path := by
  obtain ⟨hsafe, hjoin⟩ := Option.ite_none_left_eq_some.1 h
  rw [not_or, Bool.not_eq_false] at hsafe
  obtain ⟨before, hpieces, hwalk⟩ := pieces_joinPath hjoin
  rw [pieces_map_toBackslash] at hpieces
  refine ⟨⟨before, hpieces, hwalk⟩, fun n => ?_⟩
  have hsegments : safeSegments [] filename = true := by
    have hall := hsafe.2
    simp only [isSafeArchivePath, Bool.and_eq_true] at hall
    exact hall.2
  have hno : str ".." ∉ pieces filename :=
    (safeSegments_iff fun _ h => absurd h List.not_mem_nil).1 hsegments
  exact isPrefix_foldl_enter (fun hmem => hno (List.mem_of_mem_take hmem)) _

theorem entryPath_staysIn_sample :
    StaysIn (str "C:\\data\\..\\temp") (str "a/\\./b...\\c")
      (str "C:\\data\\..\\temp\\a\\\\.\\b...\\c") :=
  entryPath_staysIn (by decide)

/-! ### The stage -/

/-- The directory that a path names: its last name loses the periods and blanks at its end. -/
def directoryNamed (path : Bytes) : List Bytes := settle (resolve path)

/-- **The path names a directory strictly below the root.** -/
def ProperChild (root path : Bytes) : Prop :=
  ∃ name, IsName name ∧ directoryNamed path = directoryNamed root ++ [name]

lemma settle_concat (names : List Bytes) (name : Bytes) :
    settle (names ++ [name]) =
      names.map trimPeriod ++ if trimEnd name = [] then [] else [trimEnd name] := by
  induction names with
  | nil => rfl
  | cons first names ih =>
    cases names with
    | nil => rfl
    | cons next names =>
      rw [List.cons_append, List.cons_append, settle, ← List.cons_append, ih, ← List.cons_append,
        ← List.map_cons]

lemma isName_of_isValidPackageName {name : Bytes} (h : isValidPackageName name = true) :
    IsName name ∧ Unbroken name := by
  simp only [isValidPackageName, Bool.and_eq_true, decide_eq_true_eq, List.all_eq_true,
    and_assoc] at h
  refine ⟨⟨h.1, h.2.1, h.2.2.1⟩, fun c hc => ?_⟩
  obtain ⟨hback, hslash, -⟩ := h.2.2.2 c hc
  simp [Lib.FilePath.isSeparator, hback, hslash]

/-- **The stage is a proper child of the temporary directory** exactly when its name does not
consist of periods and blanks. -/
theorem stagingPath_properChild_iff {dataRoot archiveName root path : Bytes}
    (hroot : tempRoot dataRoot = some root) (h : stagingPath dataRoot archiveName = some path) :
    ProperChild root path ↔ ∃ c ∈ stripZip archiveName, c ≠ ch '.' ∧ c ≠ ch ' ' := by
  obtain ⟨hvalid, hjoin⟩ := Option.ite_none_right_eq_some.1 h
  rw [hroot, Option.bind_some] at hjoin
  obtain ⟨hname, hunbroken⟩ := isName_of_isValidPackageName hvalid
  have htemp : IsName (str "temp") ∧ pieces (str "temp") = [str "temp"] := by decide
  have htrim : trimPeriod (str "temp") = str "temp" ∧ trimEnd (str "temp") = str "temp" ∧
      str "temp" ≠ [] := by decide
  -- both paths go to the directory `temp`, and one goes on
  have hresolveRoot : resolve root = resolve dataRoot ++ [str "temp"] := by
    obtain ⟨before, hpieces, hwalk⟩ := pieces_joinPath hroot
    rw [resolve, hpieces, htemp.2, List.foldl_append, hwalk, List.foldl_cons, List.foldl_nil,
      Lib.FilePath.enter_of_isName htemp.1]
  have hresolve : resolve path = resolve root ++ [stripZip archiveName] := by
    obtain ⟨before, hpieces, hwalk⟩ := pieces_joinPath hjoin
    rw [resolve, hpieces, Lib.FilePath.pieces_eq_singleton hunbroken, List.foldl_append, hwalk,
      List.foldl_cons, List.foldl_nil, Lib.FilePath.enter_of_isName hname]
  have hnamedRoot : directoryNamed root = (resolve root).map trimPeriod := by
    rw [directoryNamed, hresolveRoot, settle_concat, htrim.2.1, if_neg htrim.2.2, List.map_append,
      List.map_singleton, htrim.1]
  generalize stripZip archiveName = name at hname hunbroken hresolve ⊢
  have hnamed : directoryNamed path =
      directoryNamed root ++ if trimEnd name = [] then [] else [trimEnd name] := by
    rw [directoryNamed, hresolve, settle_concat, hnamedRoot]
  have hempty : trimEnd name = [] ↔ ¬∃ c ∈ name, c ≠ ch '.' ∧ c ≠ ch ' ' := by
    rw [trimEnd, List.rdropWhile_eq_nil_iff]
    simp only [decide_eq_true_eq, not_exists, not_and, not_not]
    exact forall₂_congr fun c _ => or_iff_not_imp_left
  constructor
  · rintro ⟨name, -, heq⟩
    by_contra hnone
    rw [hnamed, if_pos (hempty.2 hnone), List.append_nil] at heq
    exact absurd heq (by simp)
  · intro hsome
    have hne : trimEnd name ≠ [] := fun hnil => hempty.1 hnil hsome
    refine ⟨_, Lib.FilePath.isName_of_getLast? hne (Lib.FilePath.trimEnd_getLast? _), ?_⟩
    rw [hnamed, if_neg hne]

theorem stagingPath_properChild_sample :
    ProperChild (str "D:\\wpm\\temp") (str "D:\\wpm\\temp\\tool. ") :=
  (@stagingPath_properChild_iff (str "D:\\wpm") (str "tool. .ZIP") _ _ (by decide)
    (by decide)).2 ⟨ch 't', by decide⟩

/-- Of an archive `....zip`, the stage is the temporary directory itself. -/
theorem stagingPath_is_temp :
    ∃ root path, tempRoot (str "D:\\wpm") = some root ∧
      stagingPath (str "D:\\wpm") (str "....zip") = some path ∧
      directoryNamed path = directoryNamed root ∧ ¬ProperChild root path := by
  refine ⟨str "D:\\wpm\\temp", str "D:\\wpm\\temp\\...", by decide, by decide,
    by decide, ?_⟩
  rintro ⟨name, -, h⟩
  have heq : directoryNamed (str "D:\\wpm\\temp\\...") = directoryNamed (str "D:\\wpm\\temp") := by
    decide
  rw [heq] at h
  exact absurd h (by simp)

end Wpm.Archive
