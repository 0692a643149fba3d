import Mathlib.Data.List.Nodup
import Wpm.Archive.Path

/-!
The stage: a directory tree as the directory searches show it.

A `Listing` is what is in one directory, in the order of the search. A search can stop before the
end with an error: `broken rest` marks the point at which `FindNextFile` fails although `rest` is
still there. A subdirectory may also refuse to be searched at all. `files` are all the files of a
tree under their relative paths, `seen` those that the searches come across.

A `Stage` is such a tree with the meaning of path names in it: `opens` is the file that a relative
path opens, and a path opens the same file whatever its letter case and its slashes. That a file is
there does not mean that its attributes can be read: `shows` says of which paths they can.
-/

namespace Wpm.Archive

open Wpm.Lib.CString

/-- The contents of a directory, as a search goes through them. -/
inductive Listing
  | done
  | broken (rest : Listing)
  | file (name content : Bytes) (rest : Listing)
  | dir (name : Bytes) (searchable : Bool) (inner rest : Listing)
  deriving DecidableEq

/-- The relative path of `name` in the directory `rel`. -/
def pathIn (rel name : Bytes) : Bytes := if rel = [] then name else rel ++ ch '/' :: name

namespace Listing

/-- All files, with their relative paths. -/
def files : Bytes → Listing → List (Bytes × Bytes)
  | _, done => []
  | rel, broken rest => rest.files rel
  | rel, file name content rest => (pathIn rel name, content) :: rest.files rel
  | rel, dir name _ inner rest => inner.files (pathIn rel name) ++ rest.files rel

/-- The files that the searches come across. -/
def seen : Bytes → Listing → List (Bytes × Bytes)
  | _, done => []
  | _, broken _ => []
  | rel, file name content rest => (pathIn rel name, content) :: rest.seen rel
  | rel, dir name _ inner rest => inner.seen (pathIn rel name) ++ rest.seen rel

/-- Every search runs to its end. -/
def Enumerated : Listing → Prop
  | done => True
  | broken _ => False
  | file _ _ rest => rest.Enumerated
  | dir _ _ inner rest => inner.Enumerated ∧ rest.Enumerated

/-- A name holds no separator. -/
def Named : Listing → Prop
  | done => True
  | broken rest => rest.Named
  | file name _ rest => (∀ c ∈ name, isSeparator c = false) ∧ rest.Named
  | dir name _ inner rest => (∀ c ∈ name, isSeparator c = false) ∧ inner.Named ∧ rest.Named

instance decidableEnumerated : ∀ l : Listing, Decidable l.Enumerated
  | done => isTrue trivial
  | broken _ => isFalse id
  | file _ _ rest => decidableEnumerated rest
  | dir _ _ inner rest => @instDecidableAnd _ _ (decidableEnumerated inner)
      (decidableEnumerated rest)

instance decidableNamed : ∀ l : Listing, Decidable l.Named
  | done => isTrue trivial
  | broken rest => decidableNamed rest
  | file name _ rest => @instDecidableAnd (∀ c ∈ name, isSeparator c = false) _
      (List.decidableBAll _ name) (decidableNamed rest)
  | dir name _ inner rest => @instDecidableAnd (∀ c ∈ name, isSeparator c = false) _
      (List.decidableBAll _ name) (@instDecidableAnd _ _ (decidableNamed inner)
        (decidableNamed rest))

lemma seen_eq_files : ∀ {l : Listing} {rel : Bytes}, l.Enumerated → l.seen rel = l.files rel
  | done, _, _ => rfl
  | broken _, _, h => h.elim
  | file _ _ rest, rel, h => by rw [seen, files, seen_eq_files (l := rest) h]
  | dir _ _ inner rest, rel, h => by
    rw [seen, files, seen_eq_files (l := inner) h.1, seen_eq_files (l := rest) h.2]

end Listing

/-! ### Paths of the tree -/

lemma toSlash_eq_self {c : UInt8} (h : isSeparator c = false) : toSlash c = c := by
  simp only [isSeparator, toSlash, ch] at h ⊢
  grind

lemma normalize_eq_self {name : Bytes} (h : ∀ c ∈ name, isSeparator c = false) :
    normalizeArchiveSeparators name = name := by
  rw [normalizeArchiveSeparators]
  exact (List.map_congr_left fun c hc => toSlash_eq_self (h c hc)).trans (List.map_id name)

/-- A path with forward slashes only. -/
def Slashed (path : Bytes) : Prop := normalizeArchiveSeparators path = path

lemma slashed_nil : Slashed [] := rfl

lemma slashed_pathIn {rel name : Bytes} (hrel : Slashed rel)
    (hname : ∀ c ∈ name, isSeparator c = false) : Slashed (pathIn rel name) := by
  unfold Slashed at *
  unfold pathIn
  split_ifs
  · exact normalize_eq_self hname
  · have hn := normalize_eq_self hname
    simp only [normalizeArchiveSeparators] at hrel hn ⊢
    rw [List.map_append, List.map_cons, hrel, hn]
    rfl

lemma Listing.slashed_of_mem_files : ∀ {l : Listing} {rel : Bytes} {f : Bytes × Bytes}, l.Named →
    Slashed rel → f ∈ l.files rel → Slashed f.1
  | .broken rest, rel, f, h, hrel, hf => slashed_of_mem_files (l := rest) h hrel hf
  | .file name content rest, rel, f, h, hrel, hf => by
    rw [files, List.mem_cons] at hf
    rcases hf with rfl | hf
    · exact slashed_pathIn hrel h.1
    · exact slashed_of_mem_files (l := rest) h.2 hrel hf
  | .dir name _ inner rest, rel, f, h, hrel, hf => by
    rw [files, List.mem_append] at hf
    rcases hf with hf | hf
    · exact slashed_of_mem_files (l := inner) h.2.1 (slashed_pathIn hrel h.1) hf
    · exact slashed_of_mem_files (l := rest) h.2.2 hrel hf

/-! ### Stages -/

/-- A staged package tree in the directory `destinationDir`. -/
structure Stage where
  destinationDir : Bytes
  /-- `FindFirstFile` succeeds on the stage itself. -/
  searchable : Bool
  root : Listing
  /-- The staged file that a relative path opens, with its bytes. -/
  opens : Bytes → Option (Bytes × Bytes)
  /-- `GetFileAttributesA` gives the attributes of what has the path. -/
  shows : Bytes → Bool
  named : root.Named
  opens_mem : ∀ {p f}, opens p = some f → f ∈ root.files []
  opens_self : ∀ f ∈ root.files [], opens f.1 = some f
  opens_congr : ∀ {p q}, fold (normalizeArchiveSeparators p) = fold (normalizeArchiveSeparators q) →
    opens p = opens q
  opens_fits : ∀ {p f}, opens p = some f → (joinPath destinationDir p).isSome
  control_fits : (joinPath destinationDir (str ".wpm/signature.json")).isSome

namespace Stage

/-- A tree on a file system that looks names up in any letter case and knows no other names of a
file: its paths differ in more than letter case, and fit the path buffers. All attributes can be
read. -/
def ofListing (destinationDir : Bytes) (searchable : Bool) (root : Listing) (named : root.Named)
    (distinct : (root.files []).Pairwise fun f g => fold f.1 ≠ fold g.1)
    (fits : ∀ f ∈ root.files [], (joinPath destinationDir f.1).isSome)
    (control_fits : (joinPath destinationDir (str ".wpm/signature.json")).isSome) : Stage where
  destinationDir := destinationDir
  searchable := searchable
  root := root
  opens p := (root.files []).find? fun f => fold f.1 = fold (normalizeArchiveSeparators p)
  shows _ := true
  named := named
  opens_mem h := List.mem_of_find?_eq_some h
  opens_self f hf := by
    have hslash : Slashed f.1 := Listing.slashed_of_mem_files named slashed_nil hf
    rw [hslash]
    have hsome : ((root.files []).find? fun g => fold g.1 = fold f.1).isSome :=
      List.find?_isSome.2 ⟨f, hf, decide_eq_true rfl⟩
    obtain ⟨g, hg⟩ := Option.isSome_iff_exists.1 hsome
    have heq := List.find?_some hg
    rw [decide_eq_true_eq] at heq
    rw [hg, List.inj_on_of_nodup_map (List.pairwise_map.2 distinct)
      (List.mem_of_find?_eq_some hg) hf heq]
  opens_congr h := by rw [h]
  opens_fits {p f} h := by
    have heq := List.find?_some h
    rw [decide_eq_true_eq] at heq
    refine joinPath_isSome_of_length_le (fits f (List.mem_of_find?_eq_some h)) ?_
    rw [← length_normalize p, ← length_fold, ← heq, length_fold]
  control_fits := control_fits

variable (stage : Stage)

/-- `file_exists_at_path`. -/
def fileExistsAtPath (path : Bytes) : Bool := stage.shows path && (stage.opens path).isSome

/-- The files of the stage. -/
def files : List (Bytes × Bytes) := stage.root.files []

lemma slashed_of_mem {f : Bytes × Bytes} (h : f ∈ stage.files) : Slashed f.1 :=
  Listing.slashed_of_mem_files stage.named slashed_nil h

lemma eq_of_fold_eq {f g : Bytes × Bytes} (hf : f ∈ stage.files) (hg : g ∈ stage.files)
    (h : fold f.1 = fold g.1) : f = g := by
  have hopen : stage.opens f.1 = stage.opens g.1 := stage.opens_congr (by
    rw [(stage.slashed_of_mem hf), (stage.slashed_of_mem hg), h])
  rw [stage.opens_self f hf, stage.opens_self g hg] at hopen
  exact Option.some.inj hopen

end Stage

end Wpm.Archive
