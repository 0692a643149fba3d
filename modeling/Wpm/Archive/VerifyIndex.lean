import Mathlib.Tactic.Tauto
import Wpm.Lib.Search
import Wpm.Lib.Slots
import Wpm.Lib.Text
import Wpm.Signing
import Wpm.Archive.Stage
import Wpm.Archive.Validate

/-!
Verification of the index of a staged package.

`verifyPackageIndex` is `verify_package_index` on a stage. Its first pass (`verifyLines`) parses the
rows of the index line by line, collects them into batches and has every row's file hashed, by a
pool of workers or in place; its second pass, for a signed stage, loads the first column of the
index again (`loadIndexPaths`) and walks the tree to see that every file stands in it
(`verifyIndexCompleteness`). `textMode` is the translation of a file that the C runtime makes in
text mode.
-/

namespace Wpm.Archive

open Wpm.Lib.CString Wpm.Lib.Check Wpm.Lib.Search Wpm.Lib.Slots Wpm.Lib.Text Wpm.Signing

/-! ### The worker pool -/

/-- The pool of one verification: the number of processors, whether the pool could be created, and
whether task `i` of a batch could be submitted. -/
structure Pool where
  processors : ℕ
  created : Bool
  submits : ℕ → ℕ → Bool

namespace Pool

variable (pool : Pool)

/-- `WPM_VERIFY_BATCH_SIZE` and `WPM_VERIFY_MAX_WORKERS`. -/
def batchSize : ℕ := 16

def maxWorkers : ℕ := 4

def workerCount : ℕ := min pool.processors maxWorkers

/-- Task `i` is run by a worker, and not in place by the caller. -/
def takes (batch i : ℕ) : Bool := 1 < pool.workerCount && pool.created && pool.submits batch i

/-- The tasks that the caller of `verify_file_batch` runs, and those that the workers run. -/
def inlineTasks (batch count : ℕ) : List ℕ := (List.range count).filter (!pool.takes batch ·)

def workerTasks (batch count : ℕ) : List ℕ := (List.range count).filter (pool.takes batch ·)

end Pool

/-- A run of the pool: the order in which the tasks of each batch are run. The wait at the end of
a batch lasts until every submitted task has run once. -/
structure PoolRun extends Pool where
  order : ℕ → ℕ → List ℕ
  order_perm : ∀ batch count, (order batch count).Perm
    (toPool.inlineTasks batch count ++ toPool.workerTasks batch count)

/-- Verification without a pool. -/
def PoolRun.inPlace : PoolRun where
  processors := 1
  created := false
  submits _ _ := false
  order _ count := List.range count
  order_perm _ _ := by simp [Pool.inlineTasks, Pool.workerTasks, Pool.takes]

lemma PoolRun.mem_order (pool : PoolRun) {batch count i : ℕ} (hi : i < count) :
    i ∈ pool.order batch count := by
  rw [(pool.order_perm batch count).mem_iff, List.mem_append, Pool.inlineTasks, Pool.workerTasks,
    List.mem_filter, List.mem_filter, List.mem_range]
  cases pool.takes batch i <;> simp [hi]

/-! ### Files -/

/-- `wpm_verify_file`. The path is the one in the stage. -/
structure VerifyFile where
  filename : Bytes
  path : Bytes
  expectedHash : Bytes
  expectedSize : ℕ
  valid : Bool

section Verify

variable (S : Sodium) (stage : Stage)

/-- The size of the read buffer in `verify_file_task`. -/
def readBufferSize : ℕ := 64 * 1024

/-- The loop of `verify_file_task`, with the bytes hashed so far. -/
def hashChunks (expectedSize : ℕ) : ℕ → Bytes → Bytes → Option Bytes
  | 0, _, _ => none
  | fuel + 1, hashed, rest =>
    if rest = [] then some hashed
    else if expectedSize - hashed.length < (rest.take readBufferSize).length then none
    else
      hashChunks expectedSize fuel (hashed ++ rest.take readBufferSize) (rest.drop readBufferSize)

lemma hashChunks_eq {e : ℕ} : ∀ {fuel : ℕ} {hashed rest : Bytes}, rest.length < fuel →
    hashed.length ≤ e → hashChunks e fuel hashed rest =
      if hashed.length + rest.length ≤ e then some (hashed ++ rest) else none
  | fuel + 1, hashed, rest, hfuel, hle => by
    unfold hashChunks
    by_cases hrest : rest = []
    · subst hrest
      simp [hle]
    · have hpos : 0 < rest.length := List.length_pos_of_ne_nil hrest
      have htake : (rest.take readBufferSize).length = min readBufferSize rest.length :=
        List.length_take
      have hbuf : readBufferSize = 65536 := rfl
      rw [if_neg hrest]
      split_ifs with h1 h2 h2
      · omega
      · rfl
      · rw [hashChunks_eq (by rw [List.length_drop]; omega) (by rw [List.length_append]; omega),
          if_pos (by rw [List.length_append, List.length_drop]; omega), List.append_assoc,
          List.take_append_drop]
      · rw [hashChunks_eq (by rw [List.length_drop]; omega) (by rw [List.length_append]; omega),
          if_neg (by rw [List.length_append, List.length_drop]; omega)]

/-- `verify_file_task`. -/
def verifyFileTask (task : VerifyFile) : VerifyFile :=
  { task with
    valid :=
      match stage.opens task.path with
      | none => false
      | some f =>
        match hashChunks task.expectedSize (f.2.length + 1) [] f.2 with
        | none => false
        | some bytes => bytes.length = task.expectedSize ∧
            stricmp (bin2hex (S.generichash bytes)) task.expectedHash = .eq }

/-- The task's file is staged, with the size and the digest expected. -/
def FileMatches (task : VerifyFile) : Prop :=
  ∃ f, stage.opens task.path = some f ∧ f.2.length = task.expectedSize ∧
    fold (bin2hex (S.generichash f.2)) = fold task.expectedHash

lemma verifyFileTask_valid {task : VerifyFile} :
    (verifyFileTask S stage task).valid = true ↔ FileMatches S stage task := by
  unfold verifyFileTask FileMatches
  cases hopen : stage.opens task.path with
  | none => simp
  | some f =>
    have hchunks : hashChunks task.expectedSize (f.2.length + 1) [] f.2 =
        if f.2.length ≤ task.expectedSize then some f.2 else none := by
      rw [hashChunks_eq (Nat.lt_succ_self _) (Nat.zero_le _), List.length_nil, Nat.zero_add,
        List.nil_append]
    simp only [hchunks, Option.some.injEq, exists_eq_left']
    by_cases hle : f.2.length ≤ task.expectedSize
    · simp [hle]
    · simp only [if_neg hle, Bool.false_eq_true, false_iff, not_and]
      intro h
      omega

lemma verifyFileTask_idem (task : VerifyFile) :
    verifyFileTask S stage (verifyFileTask S stage task) = verifyFileTask S stage task := rfl

/-- `verify_file_batch`. -/
def verifyFileBatch (pool : PoolRun) (batch : ℕ) (tasks : List VerifyFile) :
    Except (List Bytes) Unit :=
  match (runSlots (verifyFileTask S stage) (pool.order batch tasks.length) tasks).find?
      (!·.valid) with
  | none => .ok ()
  | some task => .error
      [str "Error: package signature verification failed for " ++ task.filename ++ str ".\n"]

/-- A batch is accepted when all its files match, whoever runs which task and in which order. -/
lemma verifyFileBatch_eq_ok (pool : PoolRun) (batch : ℕ) {tasks : List VerifyFile} :
    verifyFileBatch S stage pool batch tasks = .ok () ↔ ∀ t ∈ tasks, FileMatches S stage t := by
  have hfind : verifyFileBatch S stage pool batch tasks = .ok () ↔
      (runSlots (verifyFileTask S stage) (pool.order batch tasks.length) tasks).find?
        (!·.valid) = none := by
    unfold verifyFileBatch
    split <;> simp_all
  rw [hfind, runSlots_eq_map (verifyFileTask_idem S stage) fun i hi => pool.mem_order hi,
    List.find?_eq_none]
  simp [verifyFileTask_valid]

/-! ### Rows -/

/-- The buffer of a line. -/
def lineSize : ℕ := pathSize + blake2bHexSize + 64

def toBackslash (c : UInt8) : UInt8 := if c = ch '/' then ch '\\' else c

def invalidEntry (lineNumber : ℕ) : List Bytes :=
  [str "Error: invalid package index entry at line " ++ str (toString lineNumber) ++ str ".\n"]

/-- A row of the index as a task for batch number `batch`. The tasks are zeroed at first, and after
a batch that was accepted all of them are marked as valid. -/
def rowTask (batch lineNumber : ℕ) (line : Bytes) : Except (List Bytes) VerifyFile := do
  let row ← orElse (splitRow line) (invalidEntry lineNumber)
  require (isSafeArchivePath row.filename = true) (invalidEntry lineNumber)
  let expectedSize ← orElse (scanU64 row.sizeText) (invalidEntry lineNumber)
  require (row.expectedHash.length = blake2bHexSize - 1) (invalidEntry lineNumber)
  require (stricmp row.algorithm (str "blake2b") = .eq) (invalidEntry lineNumber)
  require (row.filename.length < pathSize ∧ (joinPath stage.destinationDir row.filename).isSome)
    [str "Error: indexed package path is too long.\n"]
  .ok ⟨row.filename, row.filename.map toBackslash, row.expectedHash, expectedSize, 0 < batch⟩

/-- The loop over the lines in `verify_package_index_contents`: the number of lines read, the
number of batches verified, and the tasks of the batch that is being filled. -/
def verifyLines (pool : PoolRun) :
    ℕ → ℕ → List VerifyFile → List Bytes → Except (List Bytes) Unit
  | _, batch, tasks, [] => verifyFileBatch S stage pool batch tasks
  | lineNumber, batch, tasks, line :: lines =>
    if (lineNumber = 0 ∧ stricmp (trimLine line) indexHeader = .eq) ∨ trimLine line = [] then
      verifyLines pool (lineNumber + 1) batch tasks lines
    else do
      let task ← rowTask stage batch (lineNumber + 1) (trimLine line)
      if tasks.length + 1 = Pool.batchSize then
        match verifyFileBatch S stage pool batch (tasks ++ [task]) with
        | .ok () => verifyLines pool (lineNumber + 1) (batch + 1) [] lines
        | .error e => .error e
      else verifyLines pool (lineNumber + 1) batch (tasks ++ [task]) lines

end Verify

/-! ### Completeness -/

/-- `load_index_paths`, before the sort: what stands before the first comma of a line. -/
def indexPathsOf (lines : List Bytes) : List Bytes :=
  (lines.map trimLine).filterMap fun line =>
    if stricmp line indexHeader = .eq then none
    else (cutAt (ch ',') line).map fun p => normalizeArchiveSeparators p.1

def loadIndexPaths (lines : List Bytes) : List Bytes := sortBy stricmp (indexPathsOf lines)

/-- `FindFirstFile` on a directory of the stage. -/
def canSearch (destinationDir rel : Bytes) (searchable : Bool) : Bool :=
  searchable &&
    ((joinPath destinationDir rel).bind fun dir => joinPath dir (str "*")).isSome

def isControlFile (path : Bytes) : Bool :=
  stricmp path indexName = .eq ∨ stricmp path signatureName = .eq

/-- The relative path in the buffer of `verify_index_completeness`. -/
def relativePath (rel name : Bytes) : Bytes :=
  normalizeArchiveSeparators (if rel = [] then name else (pathIn rel name).take (pathSize - 1))

/-- The search loop of `verify_index_completeness`, in a directory that could be opened. However
the search ends, it is not looked at why. -/
def verifyIndexCompleteness (destinationDir : Bytes) (paths : List Bytes) :
    Bytes → Listing → Except (List Bytes) Unit
  | _, .done => .ok ()
  | _, .broken _ => .ok ()
  | rel, .file name _ rest => do
    require (isControlFile (relativePath rel name) = true ∨
        indexContainsPath paths (relativePath rel name) = true)
      [str "Error: package contains unindexed file: " ++ relativePath rel name ++ str ".\n"]
    verifyIndexCompleteness destinationDir paths rel rest
  | rel, .dir name searchable inner rest => do
    require (canSearch destinationDir (relativePath rel name) searchable = true) []
    verifyIndexCompleteness destinationDir paths (relativePath rel name) inner
    verifyIndexCompleteness destinationDir paths rel rest

/-! ### The verification -/

variable (S : Sodium) (textMode : Bytes → Bytes) (stage : Stage)

/-- What the loops on `fgets` see of the index file, as C strings. -/
def indexLines (index : Bytes) : List Bytes := (fgetsAll lineSize (textMode index)).map cstr

/-- `verify_package_index_contents`. -/
def verifyPackageIndexContents (pool : PoolRun) (index : Bytes) : Except (List Bytes) Unit := do
  verifyLines S stage pool 0 0 [] (indexLines textMode index)
  if stage.fileExistsAtPath signatureName then do
    require (canSearch stage.destinationDir [] stage.searchable = true) []
    verifyIndexCompleteness stage.destinationDir (loadIndexPaths (indexLines textMode index)) []
      stage.root
  else .ok ()

/-- `verify_package_index`. -/
def verifyPackageIndex (pool : PoolRun) : Except (List Bytes) Unit :=
  if (joinPath stage.destinationDir indexName).isSome then
    if stage.fileExistsAtPath indexName then
      match stage.opens indexName with
      | none => .error [str "Error: could not open package index: " ++ indexName ++ str "\n"]
      | some f => verifyPackageIndexContents S textMode stage pool f.2
    else .ok ()
  else .error [str "Error: package index path is too long.\n"]

/-! ### The first pass -/

/-- The lines after a header on the first line. -/
def dropHeader : List Bytes → List Bytes
  | [] => []
  | line :: lines => if stricmp line indexHeader = .eq then lines else line :: lines

/-- The row lines of an index, trimmed: all lines but a header on the first line and blank ones. -/
def stagedRowLines (lines : List Bytes) : List Bytes :=
  (dropHeader (lines.map trimLine)).filter (· ≠ [])

/-- The line is a well-formed row that names a staged file of the row's size and digest. -/
def RowVerified (line : Bytes) : Prop :=
  ∃ row size f, splitRow line = some row ∧ isSafeArchivePath row.filename = true ∧
    scanU64 row.sizeText = some size ∧ row.expectedHash.length = blake2bHexSize - 1 ∧
    fold row.algorithm = str "blake2b" ∧ stage.opens row.filename = some f ∧ f.2.length = size ∧
    fold (bin2hex (S.generichash f.2)) = fold row.expectedHash

lemma opens_toBackslash (filename : Bytes) :
    stage.opens (filename.map toBackslash) = stage.opens filename := by
  refine stage.opens_congr ?_
  rw [normalizeArchiveSeparators, normalizeArchiveSeparators, List.map_map]
  refine congrArg fold (List.map_congr_left fun c _ => ?_)
  simp only [Function.comp_apply, toSlash, toBackslash, ch]
  grind

lemma length_lt_of_opens {name : Bytes} {f : Bytes × Bytes} (h : stage.opens name = some f) :
    name.length < pathSize ∧ (joinPath stage.destinationDir name).isSome = true := by
  have hfit := stage.opens_fits h
  refine ⟨?_, hfit⟩
  simp only [joinPath, Option.isSome_ite, List.length_append] at hfit
  omega

/-- A line becomes a task whose file matches exactly when it is a row that verifies. -/
lemma rowTask_matches (batch lineNumber : ℕ) {line : Bytes} :
    (∃ task, rowTask stage batch lineNumber line = .ok task ∧ FileMatches S stage task) ↔
      RowVerified S stage line := by
  simp only [rowTask, bind_eq_ok, orElse_eq_ok, require_eq_ok, exists_const, Except.ok.injEq,
    FileMatches, RowVerified, stricmp_eq_iff]
  constructor
  · rintro ⟨_, ⟨row, hrow, hsafe, size, hsize, hhash, halg, -, rfl⟩, f, hopen, hlen, hdigest⟩
    rw [opens_toBackslash] at hopen
    exact ⟨row, size, f, hrow, hsafe, hsize, hhash, halg, hopen, hlen, hdigest⟩
  · rintro ⟨row, size, f, hrow, hsafe, hsize, hhash, halg, hopen, hlen, hdigest⟩
    exact ⟨_, ⟨row, hrow, hsafe, size, hsize, hhash, halg, length_lt_of_opens stage hopen, rfl⟩,
      f, by rw [opens_toBackslash, hopen], hlen, hdigest⟩

/-- The row lines that are still to come after `lineNumber` lines. -/
def rowLinesFrom (lineNumber : ℕ) (lines : List Bytes) : List Bytes :=
  if lineNumber = 0 then stagedRowLines lines else (lines.map trimLine).filter (· ≠ [])

lemma rowLinesFrom_skip {n : ℕ} {line : Bytes} {lines : List Bytes}
    (h : (n = 0 ∧ stricmp (trimLine line) indexHeader = .eq) ∨ trimLine line = []) :
    rowLinesFrom n (line :: lines) = rowLinesFrom (n + 1) lines := by
  have hnil : stricmp [] indexHeader ≠ .eq := by decide
  simp only [rowLinesFrom, stagedRowLines, dropHeader, List.map_cons, Nat.succ_ne_zero, if_false]
  rcases h with ⟨rfl, h⟩ | h
  · simp [h]
  · by_cases hn : n = 0 <;> simp [hn, h, hnil]

lemma rowLinesFrom_row {n : ℕ} {line : Bytes} {lines : List Bytes}
    (h : ¬ ((n = 0 ∧ stricmp (trimLine line) indexHeader = .eq) ∨ trimLine line = [])) :
    rowLinesFrom n (line :: lines) = trimLine line :: rowLinesFrom (n + 1) lines := by
  rw [not_or, not_and] at h
  simp only [rowLinesFrom, stagedRowLines, dropHeader, List.map_cons, Nat.succ_ne_zero, if_false]
  by_cases hn : n = 0
  · simp [hn, h.1 hn, h.2]
  · simp [hn, h.2]

/-- **The first pass accepts exactly when all rows verify**, wherever the batches end. -/
theorem verifyLines_eq_ok {pool : PoolRun} : ∀ {lines : List Bytes} {n batch : ℕ}
    {tasks : List VerifyFile}, verifyLines S stage pool n batch tasks lines = .ok () ↔
      (∀ t ∈ tasks, FileMatches S stage t) ∧
      ∀ line ∈ rowLinesFrom n lines, RowVerified S stage line
  | [], n, batch, tasks => by
    have hnil : rowLinesFrom n [] = [] := by simp [rowLinesFrom, stagedRowLines, dropHeader]
    rw [verifyLines, verifyFileBatch_eq_ok, hnil]
    simp
  | line :: lines, n, batch, tasks => by
    unfold verifyLines
    by_cases hskip : (n = 0 ∧ stricmp (trimLine line) indexHeader = .eq) ∨ trimLine line = []
    · rw [if_pos hskip, verifyLines_eq_ok, rowLinesFrom_skip hskip]
    · rw [if_neg hskip, rowLinesFrom_row hskip, List.forall_mem_cons,
        ← rowTask_matches S stage batch (n + 1), bind_eq_ok]
      -- the task joins the batch, which is verified now or with the lines that follow
      have hstep : ∀ task, (if tasks.length + 1 = Pool.batchSize then
            match verifyFileBatch S stage pool batch (tasks ++ [task]) with
            | .ok () => verifyLines S stage pool (n + 1) (batch + 1) [] lines
            | .error e => .error e
          else verifyLines S stage pool (n + 1) batch (tasks ++ [task]) lines) = .ok () ↔
          (∀ t ∈ tasks ++ [task], FileMatches S stage t) ∧
          ∀ line ∈ rowLinesFrom (n + 1) lines, RowVerified S stage line := by
        intro task
        split_ifs with hfull
        · rw [← verifyFileBatch_eq_ok S stage pool batch]
          cases hb : verifyFileBatch S stage pool batch (tasks ++ [task]) with
          | ok u => simp [verifyLines_eq_ok]
          | error e => simp
        · rw [verifyLines_eq_ok]
      simp only [hstep, List.forall_mem_append, List.forall_mem_singleton]
      constructor
      · rintro ⟨task, htask, ⟨ht, hm⟩, hrest⟩
        exact ⟨ht, ⟨task, htask, hm⟩, hrest⟩
      · rintro ⟨ht, ⟨task, htask, hm⟩, hrest⟩
        exact ⟨task, htask, ⟨ht, hm⟩, hrest⟩

/-! ### The second pass -/

/-- Every directory that the searches come to can be searched. -/
def Listing.Searchable (destinationDir : Bytes) : Bytes → Listing → Prop
  | _, .done => True
  | _, .broken _ => True
  | rel, .file _ _ rest => rest.Searchable destinationDir rel
  | rel, .dir name searchable inner rest =>
    canSearch destinationDir (pathIn rel name) searchable = true ∧
      inner.Searchable destinationDir (pathIn rel name) ∧ rest.Searchable destinationDir rel

lemma relativePath_eq {rel name : Bytes} (hrel : Slashed rel)
    (hname : ∀ c ∈ name, isSeparator c = false) (hlen : (pathIn rel name).length < pathSize) :
    relativePath rel name = pathIn rel name := by
  have hslash := slashed_pathIn hrel hname
  unfold relativePath
  split_ifs with h
  · rw [pathIn, if_pos h] at hslash ⊢
    exact hslash
  · rw [List.take_of_length_le (by omega)]
    exact hslash

lemma canSearch_of_long {destinationDir rel : Bytes} {b : Bool} (h : pathSize - 1 ≤ rel.length) :
    canSearch destinationDir rel b = false := by
  have hsize : pathSize = 4096 := rfl
  have hjoin : joinPath destinationDir rel = none := by
    unfold joinPath
    rw [if_neg]
    by_cases hl : destinationDir = []
    · simp [hl]
      omega
    · have := List.length_pos_of_ne_nil hl
      simp only [List.length_append]
      omega
  simp [canSearch, hjoin]

/-- A directory path that was cut off cannot be searched, and neither can the whole one. -/
lemma canSearch_relativePath {destinationDir rel name : Bytes} {b : Bool} (hrel : Slashed rel)
    (hname : ∀ c ∈ name, isSeparator c = false) :
    canSearch destinationDir (relativePath rel name) b =
      canSearch destinationDir (pathIn rel name) b := by
  by_cases hlen : (pathIn rel name).length < pathSize
  · rw [relativePath_eq hrel hname hlen]
  · have hcut : pathSize - 1 ≤ (relativePath rel name).length := by
      unfold relativePath
      rw [length_normalize]
      split_ifs with h
      · rw [pathIn, if_pos h] at hlen
        omega
      · rw [List.length_take]
        omega
    rw [canSearch_of_long hcut, canSearch_of_long (by omega)]

lemma length_lt_of_canSearch {destinationDir rel : Bytes} {b : Bool}
    (h : canSearch destinationDir rel b = true) : rel.length < pathSize := by
  by_contra hlen
  rw [canSearch_of_long (by omega)] at h
  cases h

/-- The walk accepts exactly when it can search every directory it comes to and every file it
comes across stands in the index. -/
lemma verifyIndexCompleteness_eq_ok {destinationDir : Bytes} {paths : List Bytes} :
    ∀ {l : Listing} {rel : Bytes}, l.Named → Slashed rel →
      (∀ f ∈ l.files rel, f.1.length < pathSize) →
      (verifyIndexCompleteness destinationDir paths rel l = .ok () ↔
        l.Searchable destinationDir rel ∧
        ∀ f ∈ l.seen rel, isControlFile f.1 = true ∨ indexContainsPath paths f.1 = true)
  | .done, rel, _, _, _ => by
    simp [verifyIndexCompleteness, Listing.Searchable, Listing.seen]
  | .broken rest, rel, _, _, _ => by
    simp [verifyIndexCompleteness, Listing.Searchable, Listing.seen]
  | .file name content rest, rel, hnamed, hrel, hlen => by
    rw [Listing.files, List.forall_mem_cons] at hlen
    have ih := @verifyIndexCompleteness_eq_ok destinationDir paths rest rel hnamed.2 hrel hlen.2
    simp only [verifyIndexCompleteness, then_eq_ok, require_eq_ok, Listing.Searchable,
      Listing.seen, List.forall_mem_cons, ih, relativePath_eq hrel hnamed.1 hlen.1]
    tauto
  | .dir name searchable inner rest, rel, hnamed, hrel, hlen => by
    rw [Listing.files, List.forall_mem_append] at hlen
    have ih := @verifyIndexCompleteness_eq_ok destinationDir paths rest rel hnamed.2.2 hrel hlen.2
    have ihin := @verifyIndexCompleteness_eq_ok destinationDir paths inner _ hnamed.2.1
      (slashed_pathIn hrel hnamed.1) hlen.1
    simp only [verifyIndexCompleteness, then_eq_ok, require_eq_ok, Listing.Searchable,
      Listing.seen, List.forall_mem_append, ih, canSearch_relativePath hrel hnamed.1]
    by_cases hs : canSearch destinationDir (pathIn rel name) searchable = true
    · rw [relativePath_eq hrel hnamed.1 (length_lt_of_canSearch hs), ihin]
      tauto
    · simp [hs]

/-- The row on this line stands for the path: its first column, as it is written, is the path up
to letter case and slashes. -/
def Lists (line path : Bytes) : Prop :=
  ∃ name rest, cutAt (ch ',') line = some (name, rest) ∧
    fold (normalizeArchiveSeparators name) = fold path

/-- The row on this line was compared with the file. -/
def Compares (line : Bytes) (f : Bytes × Bytes) : Prop :=
  ∃ row, splitRow line = some row ∧ stage.opens row.filename = some f

lemma not_header_of_rowVerified {line : Bytes} (h : RowVerified S stage line) :
    stricmp line indexHeader ≠ .eq := by
  obtain ⟨row, size, f, hrow, -, hsize, -⟩ := h
  intro hheader
  rw [stricmp_eq_iff] at hheader
  simp only [splitRow, option_bind_eq_some, Option.some.injEq, Prod.exists] at hrow
  obtain ⟨a, b, hab, c, d, hcd, e, g, -, rfl⟩ := hrow
  -- the second field of a header is letters, in whatever case, and has no digit
  have h1 : cutAt (ch ',') (fold indexHeader) = some (fold a, fold b) := by
    rw [← hheader, cutAt_fold, hab]
    rfl
  have h2 : cutAt (ch ',') (fold b) = some (fold c, fold d) := by rw [cutAt_fold, hcd]; rfl
  have hb : fold b = str "size,hash,algorithm" := by
    rw [show cutAt (ch ',') (fold indexHeader) = some (str "filename", str "size,hash,algorithm")
      by decide, Option.some.injEq, Prod.mk.injEq] at h1
    exact h1.2.symm
  have hc : fold c = str "size" := by
    rw [hb, show cutAt (ch ',') (str "size,hash,algorithm") =
      some (str "size", str "hash,algorithm") by decide, Option.some.injEq, Prod.mk.injEq] at h2
    exact h2.1.symm
  obtain ⟨x, hx, hdigit⟩ := exists_isDigit_of_scanU64 hsize
  have hmem : x ∈ fold c :=
    List.mem_map.2 ⟨x, mem_of_mem_trimLine hx, lower_eq_self_of_isDigit hdigit⟩
  have hletters : (str "size").all (!isDigit ·) = true := by decide
  have hx := List.all_eq_true.1 hletters x (hc ▸ hmem)
  simp [hdigit] at hx

lemma mem_stagedRowLines {lines : List Bytes} {line : Bytes}
    (hheader : stricmp line indexHeader ≠ .eq) (hne : line ≠ []) :
    line ∈ stagedRowLines lines ↔ line ∈ lines.map trimLine := by
  rw [stagedRowLines, List.mem_filter, decide_eq_true_eq]
  refine ⟨fun h => ?_, fun h => ⟨?_, hne⟩⟩
  · revert h
    cases lines.map trimLine with
    | nil => simp [dropHeader]
    | cons a l =>
      simp only [dropHeader]
      split_ifs <;> simp +contextual
  · revert h
    cases lines.map trimLine with
    | nil => simp
    | cons a l =>
      simp only [dropHeader, List.mem_cons]
      rintro (rfl | h)
      · rw [if_neg hheader]
        simp
      · split_ifs <;> simp [h]

/-- When all rows verify, the names that the second pass loads are the first columns of the rows. -/
lemma indexContainsPath_iff {lines : List Bytes} {path : Bytes}
    (hrows : ∀ line ∈ stagedRowLines lines, RowVerified S stage line) :
    indexContainsPath (loadIndexPaths lines) path = true ↔
      ∃ line ∈ stagedRowLines lines, Lists line path := by
  rw [indexContainsPath, loadIndexPaths, bsearch_isSome_iff]
  simp only [indexPathsOf, List.mem_filterMap, Lists, stricmp_eq_iff]
  constructor
  · rintro ⟨name, ⟨line, hline, hname⟩, hpath⟩
    rw [Option.ite_none_left_eq_some, Option.map_eq_some_iff] at hname
    obtain ⟨hheader, ⟨raw, rest⟩, hcut, rfl⟩ := hname
    refine ⟨line, (mem_stagedRowLines (mt stricmp_eq_iff.1 hheader) ?_).2 hline, raw, rest, hcut,
      hpath.symm⟩
    rintro rfl
    simp [cutAt] at hcut
  · rintro ⟨line, hline, name, rest, hcut, hpath⟩
    have hheader := not_header_of_rowVerified S stage (hrows line hline)
    refine ⟨_, ⟨line, ?_, ?_⟩, hpath.symm⟩
    · refine (mem_stagedRowLines hheader ?_).1 hline
      rintro rfl
      simp [cutAt] at hcut
    · rw [if_neg (mt stricmp_eq_iff.2 hheader), hcut]
      rfl

/-! ### What the verification decides -/

/-- The stage is signed. -/
def Stage.Signed : Prop := ∃ f, stage.opens signatureName = some f

/-- Every directory that the searches come to can be searched, and every file that they come across
is a control file or is listed. -/
def AllListed (rows : List Bytes) : Prop :=
  canSearch stage.destinationDir [] stage.searchable = true ∧
    stage.root.Searchable stage.destinationDir [] ∧
    ∀ f ∈ stage.root.seen [], isControlFile f.1 = true ∨ ∃ line ∈ rows, Lists line f.1

/-- Every staged file is a control file or was compared with a row. -/
def AllCompared (rows : List Bytes) : Prop :=
  ∀ f ∈ stage.files, isControlFile f.1 = true ∨ ∃ line ∈ rows, Compares stage line f

/-- The rows of the staged index, if there is one: its lines but a header on the first line and
blank lines. -/
def stagedRows (index : Bytes × Bytes) : List Bytes :=
  stagedRowLines (textLines (textMode index.2))

/-- The stage is what its index says: there is no index, or all rows verify and, in a signed stage,
every file was compared with a row. -/
def IndexVerified : Prop :=
  ∀ index ∈ stage.opens indexName,
    (∀ line ∈ stagedRows textMode index, RowVerified S stage line) ∧
      (stage.Signed → AllCompared stage (stagedRows textMode index))

/-- A run of the verification decides the index: it accepts exactly the stages that are what their
index says, and takes no search that stopped with an error for a complete one. -/
def DecidesIndex (pool : PoolRun) : Prop :=
  (verifyPackageIndex S textMode stage pool = .ok () ↔ IndexVerified S textMode stage) ∧
    (verifyPackageIndex S textMode stage pool = .ok () → ∀ index ∈ stage.opens indexName,
      stage.Signed → stage.root.Enumerated)

/-- `fgets` reads the lines of the index: none is too long for the buffer, and there are no
terminators in it. -/
def IndexReadable : Prop :=
  ∀ index ∈ stage.opens indexName,
    LinesFit lineSize (textMode index.2) ∧ (0 : UInt8) ∉ textMode index.2

/-- The attributes of the control files can be read, if they are there. -/
def ControlsShown : Prop :=
  ∀ index ∈ stage.opens indexName, stage.shows indexName = true ∧
    (stage.Signed → stage.shows signatureName = true)

/-- **What it takes to decide the index**: the attributes of the control files can be read; and, when
all rows of a signed stage verify, every search begins and runs to its end, and every row opens the
file that its first column, as it is written, is the path of. -/
def IndexDecidable : Prop :=
  ControlsShown stage ∧
    ∀ index ∈ stage.opens indexName, stage.Signed →
      (∀ line ∈ stagedRows textMode index, RowVerified S stage line) →
      (canSearch stage.destinationDir [] stage.searchable = true ∧
        stage.root.Searchable stage.destinationDir []) ∧
        stage.root.Enumerated ∧
        ∀ line ∈ stagedRows textMode index, ∀ f, Compares stage line f → Lists line f.1

variable {S textMode stage}

lemma map_trimLine_indexLines {index : Bytes} (hfit : LinesFit lineSize (textMode index))
    (hzero : (0 : UInt8) ∉ textMode index) :
    (indexLines textMode index).map trimLine = (textLines (textMode index)).map trimLine := by
  rw [indexLines, List.map_map]
  refine (map_fgetsAll (trimLine ∘ cstr) (trimLine_cstr_concat (by decide)) hfit (by decide)).trans ?_
  exact List.map_congr_left fun line hline => congrArg trimLine
    (cstr_eq_self fun h => hzero (mem_of_mem_textLines hline h))

lemma stagedRowLines_indexLines {index : Bytes × Bytes}
    (hfit : LinesFit lineSize (textMode index.2)) (hzero : (0 : UInt8) ∉ textMode index.2) :
    stagedRowLines (indexLines textMode index.2) = stagedRows textMode index := by
  rw [stagedRows, stagedRowLines, map_trimLine_indexLines hfit hzero, ← stagedRowLines]

/-- **What the verification accepts** when it finds the control files that are there: all rows verify
and, in a signed stage, all is listed. -/
theorem verifyPackageIndex_eq_ok {pool : PoolRun} (hread : IndexReadable textMode stage)
    (hshown : ControlsShown stage) :
    verifyPackageIndex S textMode stage pool = .ok () ↔
      ∀ index ∈ stage.opens indexName,
        (∀ line ∈ stagedRows textMode index, RowVerified S stage line) ∧
          (stage.Signed → AllListed stage (stagedRows textMode index)) := by
  have hjoin : (joinPath stage.destinationDir indexName).isSome = true := by
    have h := stage.control_fits
    have h1 : (str ".wpm/signature.json").length = 19 := by decide
    have h2 : indexName.length = 14 := by decide
    simp only [joinPath, Option.isSome_ite, List.length_append] at h ⊢
    omega
  rw [verifyPackageIndex, if_pos hjoin]
  cases hindex : stage.opens indexName with
  | none => simp [Stage.fileExistsAtPath, hindex]
  | some index =>
    obtain ⟨hshows, hsignature⟩ := hshown index hindex
    have hexists : stage.fileExistsAtPath indexName = true := by
      simp [Stage.fileExistsAtPath, hshows, hindex]
    obtain ⟨hfit, hzero⟩ := hread index hindex
    have hpaths : ∀ f ∈ stage.root.files [], f.1.length < pathSize := fun f hf =>
      (length_lt_of_opens stage (stage.opens_self f hf)).1
    rw [if_pos hexists]
    simp only [Option.mem_some_iff, forall_eq', verifyPackageIndexContents, then_eq_ok,
      verifyLines_eq_ok, rowLinesFrom, if_true, stagedRowLines_indexLines hfit hzero,
      List.not_mem_nil, false_implies, implies_true, true_and]
    refine and_congr_right fun hrows => ?_
    have hcontains : ∀ path, indexContainsPath (loadIndexPaths (indexLines textMode index.2)) path =
        true ↔ ∃ line ∈ stagedRows textMode index, Lists line path := by
      rw [← stagedRowLines_indexLines hfit hzero] at hrows ⊢
      exact fun path => indexContainsPath_iff S stage hrows
    by_cases hsigned : stage.Signed
    · obtain ⟨f, hsig⟩ := hsigned
      have hfound : stage.fileExistsAtPath signatureName = true := by
        simp [Stage.fileExistsAtPath, hsignature ⟨f, hsig⟩, hsig]
      rw [if_pos hfound]
      simp only [then_eq_ok, require_eq_ok, show stage.Signed from ⟨f, hsig⟩, true_implies,
        AllListed, verifyIndexCompleteness_eq_ok stage.named slashed_nil hpaths, hcontains]
    · have hnone : stage.opens signatureName = none := by
        rw [Option.eq_none_iff_forall_ne_some]
        exact fun f hf => hsigned ⟨f, hf⟩
      have hlost : ¬stage.fileExistsAtPath signatureName = true := by
        simp [Stage.fileExistsAtPath, hnone]
      rw [if_neg hlost]
      simp [hsigned]

/-- Where every search begins and ends and every row opens the file that it lists, listing and
comparing every file go together. -/
lemma allListed_iff {index : Bytes × Bytes}
    (hrows : ∀ line ∈ stagedRows textMode index, RowVerified S stage line)
    (hopen : canSearch stage.destinationDir [] stage.searchable = true ∧
      stage.root.Searchable stage.destinationDir [])
    (hend : stage.root.Enumerated)
    (hdirect : ∀ line ∈ stagedRows textMode index, ∀ f, Compares stage line f → Lists line f.1) :
    AllListed stage (stagedRows textMode index) ↔
      AllCompared stage (stagedRows textMode index) := by
  rw [AllListed, Listing.seen_eq_files hend, AllCompared, Stage.files]
  simp only [hopen, true_and]
  refine forall₂_congr fun f hf => or_congr_right ⟨?_, ?_⟩
  · -- the row that lists the file opened some file, and that one has the same path
    rintro ⟨line, hline, hlists⟩
    obtain ⟨row, size, g, hrow, -, -, -, -, hg, -⟩ := hrows line hline
    have hglists := hdirect line hline g ⟨row, hrow, hg⟩
    obtain ⟨name, rest, hcut, hname⟩ := hlists
    obtain ⟨name', rest', hcut', hname'⟩ := hglists
    rw [hcut, Option.some.injEq, Prod.mk.injEq] at hcut'
    rw [← hcut'.1, hname] at hname'
    rw [stage.eq_of_fold_eq hf (stage.opens_mem hg) hname']
    exact ⟨line, hline, row, hrow, hg⟩
  · rintro ⟨line, hline, hcompares⟩
    exact ⟨line, hline, hdirect line hline f hcompares⟩

/-! ### A search that breaks off -/

/-- Text mode: a carriage return before a line feed is dropped. -/
def dropCarriageReturn : Bytes → Bytes
  | [] => []
  | c :: text =>
    if c = 13 ∧ cur text = 10 then dropCarriageReturn text else c :: dropCarriageReturn text

/-- The stage of the sample archive. The search in its root goes on with `rest`. -/
def sampleRoot (rest : Listing) : Listing :=
  .dir (str ".wpm") true
    (.file (str "index.csv") sampleIndex (.file (str "signature.json") sampleSignatureFile .done))
    (.file (str "a") (str "b") rest)

def sampleStage : Stage :=
  .ofListing (str "C:\\stage") true (sampleRoot .done) (by decide) (by decide) (by decide)
    (by decide)

/-- The same stage with another file in it, before which the search breaks off. -/
def brokenStage : Stage :=
  .ofListing (str "C:\\stage") true (sampleRoot (.broken (.file (str "c") (str "b") .done)))
    (by decide) (by decide) (by decide) (by decide)

def sampleRow : Bytes :=
  str "a,1,6e5c1f45cbaf19f94230ba3501c378a5335af71a331b5b5aed62792332288dc3,blake2b"

end Wpm.Archive
