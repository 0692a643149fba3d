import Wpm.Lib.FileTree
import Wpm.Lib.FilePath
import Wpm.Archive.Path

/-!
The removal of a directory and all that is in it.

The volume changes by the removal's own calls only, and Windows may refuse any of them. Names are
in lower case, as Windows compares them without regard to it.
-/

namespace Wpm.Archive.RemoveTree

open Wpm.Lib.CString Wpm.Lib.FileTree
open Wpm.Lib.FilePath (IsName Unbroken pieces canonical)

/-! ### Windows -/

/-- What Windows decides: the drive or the share of the current directory and the names under it, the
current directory of each drive, whether the process may write, the paths whose attributes it does
not give, and which of the other calls, by their number, it refuses. -/
structure Env where
  currentVolume : List Bytes
  currentNames : List Bytes
  drive : UInt8 → List Bytes
  mayWrite : Bool
  unreadable : Bytes → Bool
  refuses : ℕ → Bool

/-- The volume, the number of calls so far, and the objects that have been deleted, in order. -/
structure World where
  volume : Volume Bytes
  calls : ℕ
  deleted : List (Object Bytes)

/-- A name that Windows leaves as it is at the end of a path, and that makes no device of a path. -/
structure Plain (name : Bytes) : Prop where
  isName : IsName name
  unbroken : Unbroken name
  noMark : name ≠ str "?"
  lowerCase : fold name = name
  trimmed : name.getLastD 0 ≠ ch '.' ∧ name.getLastD 0 ≠ ch ' '

/-- A volume as the removal finds it: an enumerated name that is put at the end of a path names the
entry again. -/
structure Disk where
  volume : Volume Bytes
  plain : ∀ d, ∀ e ∈ volume.entries d, Plain e.1

/-- The names to which Windows normalizes the pieces of a path: of the device namespace, of the
share of a server, and of a path that starts on the current drive, on a given one (in the current
directory of that drive, if no separator follows), or in the current directory. -/
def normalize (env : Env) : List Bytes → List Bytes
  | [] :: [] :: server :: rest =>
    if server = str "." ∨ server = str "?" then canonical rest
    else str "unc" :: ((server :: rest).take 2).filter (· ≠ []) ++ canonical (rest.drop 1)
  | [] :: rest => env.currentVolume ++ canonical rest
  | (letter :: colon :: tail) :: rest =>
    if colon = ch ':' then
      [letter, colon] :: canonical (if tail = [] ∧ rest ≠ [] then rest
        else env.drive letter ++ tail :: rest)
    else env.currentVolume ++ canonical (env.currentNames ++ (letter :: colon :: tail) :: rest)
  | rest => env.currentVolume ++ canonical (env.currentNames ++ rest)

/-- A path that Windows takes as it is written. -/
def Verbatim (path : Bytes) : Prop := path.take 4 = str "\\\\?\\"

instance (path : Bytes) : Decidable (Verbatim path) := inferInstanceAs (Decidable (_ = _))

/-- The names of a path that is taken as it is written. A slash is part of a name there, and no name
has one. -/
def literal (path : Bytes) : List Bytes :=
  if ch '/' ∈ path then []
  else if (pieces path).getLast? = some [] then (pieces path).dropLast
  else pieces path

/-- The names that Windows walks down for a path, from where all drives and servers are. -/
def full (env : Env) (path : Bytes) : List Bytes :=
  (if Verbatim path then literal (path.drop 4) else normalize env (pieces path)).map fold

/-- The object that has the path. -/
def locate (env : Env) (path : Bytes) (v : Volume Bytes) : Option (Object Bytes) :=
  if path = [] then none else v.locate 0 (full env path)

/-- The disk before the first call. -/
def start (disk : Disk) : World := ⟨disk.volume, 0, []⟩

/-- A call that changes nothing. -/
def World.tick (w : World) : World := { w with calls := w.calls + 1 }

/-- `GetFileAttributesA`. -/
def getFileAttributes (env : Env) (path : Bytes) (w : World) : Option Item :=
  if env.unreadable path then none else (locate env path w.volume).map (·.item)

/-- The entries that `FindFirstFileA` and `FindNextFileA` deliver for a search path: all that are in
the directory that the names before its last one, `*`, lead to. -/
def findFiles (env : Env) (searchPath : Bytes) (w : World) :
    Option (List (Bytes × Item)) × World :=
  match (w.volume.locate 0 (full env searchPath).dropLast).bind (·.item.leadsTo) with
  | none => (none, w.tick)
  | some d =>
    if env.refuses w.calls then (none, w.tick)
    else (some ([(str ".", .directory d), (str "..", .directory d)] ++ w.volume.entries d), w.tick)

/-- The deletion of the object that has the path, if it is one that the call deletes. -/
def erase (deletes : Volume Bytes → Item → Bool) (env : Env) (path : Bytes) (w : World) :
    Bool × World :=
  match locate env path w.volume with
  | none => (false, w.tick)
  | some o =>
    if !env.refuses w.calls && deletes w.volume o.item then
      (true, ⟨w.volume.remove o, w.calls + 1, w.deleted ++ [o]⟩)
    else (false, w.tick)

/-- `DeleteFileA` deletes no directory and no link to one. -/
def deleteFile : Env → Bytes → World → Bool × World := erase fun _ item => !item.isDirectory

/-- An empty directory, or a link to a directory. -/
def removable (v : Volume Bytes) : Item → Bool
  | .file => false
  | .directory d => (v.entries d).isEmpty
  | .link toDirectory _ => toDirectory

/-- `RemoveDirectoryA`. -/
def removeDirectory : Env → Bytes → World → Bool × World := erase removable

/-! ### The removal -/

/-- `is_directory`. -/
def isDirectory (env : Env) (path : Bytes) (w : World) : Bool :=
  ((getFileAttributes env path w).map Item.isDirectory).getD false

/-- What the loop of `remove_directory_tree` does with one entry. -/
def removeEntry (removeTree : Bytes → World → Bool × World) (env : Env) (path name : Bytes)
    (item : Item) (w : World) : Bool × World :=
  if name = str "." ∨ name = str ".." then (true, w)
  else match joinPath path name with
    | none => (false, w)
    | some entryPath =>
      if item.isDirectory && !item.isReparsePoint then removeTree entryPath w
      else if item.isDirectory then removeDirectory env entryPath w
      else deleteFile env entryPath w

/-- The loop of `remove_directory_tree`: it goes on with each entry that is delivered next. -/
def removeEntries (removeTree : Bytes → World → Bool × World) (env : Env) (path : Bytes) :
    List (Bytes × Item) → World → Bool × World
  | [], w => (true, w)
  | (name, item) :: entries, w =>
    match removeEntry removeTree env path name item w with
    | (false, w) => (false, w)
    | (true, w) =>
      if env.refuses w.calls then (false, w.tick)
      else removeEntries removeTree env path entries w.tick

/-- The end of `remove_directory_tree`: the directory itself goes when the loop has come to its
end. -/
def removeEmptied (env : Env) (path : Bytes) : Bool × World → Bool × World
  | (false, w) => (false, w)
  | (true, w) => removeDirectory env path w

/-- `remove_directory_tree`, to the given depth. -/
def removeDirectoryTreeTo (env : Env) : ℕ → Bytes → World → Bool × World
  | 0, _, w => (false, w)
  | depth + 1, path, w =>
    if !env.mayWrite then (false, w)
    else if !isDirectory env path w then ((getFileAttributes env path w).isNone, w)
    else match joinPath path (str "*") with
      | none => (false, w)
      | some searchPath => match findFiles env searchPath w with
        | (none, w) => (false, w)
        | (some entries, w) => removeEmptied env path
            (removeEntries (removeDirectoryTreeTo env depth) env path entries w)

/-- `remove_directory_tree`. Each step down makes the path longer, so it goes no deeper than a path
has characters. -/
def removeDirectoryTree (env : Env) (path : Bytes) (w : World) : Bool × World :=
  removeDirectoryTreeTo env pathSize path w

/-- Up to `attempts` further attempts. -/
def retry (attempt : World → Bool × World) : ℕ → World → Bool × World
  | 0, w => attempt w
  | attempts + 1, w =>
    match attempt w with
    | (true, w) => (true, w)
    | (false, w) => retry attempt attempts w

/-- `remove_directory_tree_with_retry`. -/
def removeDirectoryTreeWithRetry (env : Env) (path : Bytes) (w : World) : Bool × World :=
  retry (removeDirectoryTree env path) 100 w

end Wpm.Archive.RemoveTree
