import Mathlib.Data.List.DropRight
import Wpm.Lib.CString

/-!
Paths of Windows, as the pieces between their separators.

`resolve` walks down the pieces of a path, and `Beneath` is what the walk says about two paths.
`FullPathName` is what Windows documents of its function `GetFullPathNameA` on paths that start
with a volume: the walk is carried out, a piece loses a single period at its end, and the last one
loses all the periods and blanks at its end.
-/

namespace Wpm.Lib.FilePath

open Wpm.Lib.CString

def isSeparator (c : UInt8) : Bool := c = ch '\\' ∨ c = ch '/'

/-- No character of a piece is a separator. -/
def Unbroken (piece : Bytes) : Prop := ∀ c ∈ piece, isSeparator c = false

/-- The pieces between the separators. -/
def pieces (path : Bytes) : List Bytes := path.splitOnP isSeparator

lemma pieces_nil : pieces [] = [[]] := List.splitOnP_nil

lemma pieces_append {c : UInt8} (hc : isSeparator c = true) (left right : Bytes) :
    pieces (left ++ c :: right) = pieces left ++ pieces right :=
  List.splitOnP_append_cons left right hc

lemma pieces_cons {c : UInt8} (hc : isSeparator c = true) (path : Bytes) :
    pieces (c :: path) = [] :: pieces path := pieces_append hc [] path

lemma pieces_eq_singleton {piece : Bytes} (h : Unbroken piece) : pieces piece = [piece] :=
  List.splitOnP_eq_singleton h

lemma pieces_ne_nil (path : Bytes) : pieces path ≠ [] := List.splitOnP_ne_nil _ _

lemma unbroken_of_mem_pieces {piece : Bytes} : ∀ {path : Bytes}, piece ∈ pieces path →
    Unbroken piece
  | [], h => by
    rw [pieces_nil, List.mem_singleton] at h
    subst h
    exact fun c hc => absurd hc List.not_mem_nil
  | c :: path, h => by
    by_cases hc : isSeparator c = true
    · rw [pieces_cons hc, List.mem_cons] at h
      rcases h with rfl | h
      · exact fun c hc => absurd hc List.not_mem_nil
      · exact unbroken_of_mem_pieces h
    · rw [pieces, List.splitOnP_cons_eq_if_modifyHead, if_neg hc] at h
      cases hp : List.splitOnP isSeparator path with
      | nil => exact absurd hp (List.splitOnP_ne_nil _ _)
      | cons first rest =>
        rw [hp, List.modifyHead_cons, List.mem_cons] at h
        have hfirst : first ∈ pieces path := by rw [pieces, hp]; exact List.mem_cons_self
        rcases h with rfl | h
        · intro d hd
          rcases List.mem_cons.1 hd with rfl | hd
          · exact Bool.eq_false_iff.2 hc
          · exact unbroken_of_mem_pieces hfirst d hd
        · exact @unbroken_of_mem_pieces _ path
            (by rw [pieces, hp]; exact List.mem_cons_of_mem _ h)

/-- The pieces of a text that does not start with a separator. -/
lemma pieces_cons_unbroken {c : UInt8} (hc : isSeparator c = false) (text : Bytes) :
    ∃ first rest, pieces text = first :: rest ∧ pieces (c :: text) = (c :: first) :: rest := by
  obtain ⟨first, rest, hsplit⟩ := List.exists_cons_of_ne_nil (pieces_ne_nil text)
  refine ⟨first, rest, hsplit, ?_⟩
  rw [pieces] at hsplit ⊢
  rw [List.splitOnP_cons_eq_if_modifyHead, if_neg (by rw [hc]; decide), hsplit, List.modifyHead_cons]

/-- A text whose last piece is empty is empty or ends in a separator. -/
lemma ends_of_pieces {text : Bytes} (h : (pieces text).getLast? = some []) :
    text = [] ∨ ∃ left c, isSeparator c = true ∧ text = left ++ [c] := by
  induction text with
  | nil => exact Or.inl rfl
  | cons c text ih =>
    refine Or.inr ?_
    by_cases hc : isSeparator c = true
    · rw [pieces_cons hc, List.getLast?_cons_of_ne_nil (pieces_ne_nil text)] at h
      rcases ih h with rfl | ⟨left, d, hd, rfl⟩
      · exact ⟨[], c, hc, rfl⟩
      · exact ⟨c :: left, d, hd, rfl⟩
    · obtain ⟨first, rest, hsplit, hpieces⟩ := pieces_cons_unbroken (Bool.eq_false_iff.2 hc) text
      cases rest with
      | nil =>
        rw [hpieces, List.getLast?_singleton] at h
        exact absurd (Option.some.inj h) (List.cons_ne_nil c first)
      | cons second rest =>
        rw [hpieces, List.getLast?_cons_cons] at h
        rw [hsplit, List.getLast?_cons_cons] at ih
        rcases ih h with rfl | ⟨left, d, hd, rfl⟩
        · rw [pieces_nil] at hsplit
          exact absurd hsplit (by simp)
        · exact ⟨c :: left, d, hd, rfl⟩

lemma eq_of_pieces_eq_singleton {text piece : Bytes} (h : pieces text = [piece]) : text = piece := by
  induction text generalizing piece with
  | nil => exact List.singleton_inj.1 h
  | cons c text ih =>
    by_cases hc : isSeparator c = true
    · rw [pieces_cons hc, List.cons.injEq] at h
      exact absurd h.2 (pieces_ne_nil text)
    · obtain ⟨first, rest, hsplit, hpieces⟩ := pieces_cons_unbroken (Bool.eq_false_iff.2 hc) text
      rw [hpieces, List.cons.injEq] at h
      rw [h.2] at hsplit
      rw [ih hsplit, h.1]

/-! ### The walk -/

/-- A piece that is a name: `.` stays where it is and `..` goes up. -/
def IsName (piece : Bytes) : Prop := piece ≠ [] ∧ piece ≠ str "." ∧ piece ≠ str ".."

instance (piece : Bytes) : Decidable (IsName piece) := inferInstanceAs (Decidable (_ ∧ _ ∧ _))

/-- One piece of the walk. -/
def enter (walk : List Bytes) (piece : Bytes) : List Bytes :=
  if piece = [] ∨ piece = str "." then walk
  else if piece = str ".." then walk.dropLast
  else walk ++ [piece]

/-- The walk down a path. -/
def resolve (path : Bytes) : List Bytes := (pieces path).foldl enter []

@[simp] lemma enter_nil (walk : List Bytes) : enter walk [] = walk := if_pos (Or.inl rfl)

lemma enter_of_isName {piece : Bytes} (h : IsName piece) (walk : List Bytes) :
    enter walk piece = walk ++ [piece] := by
  rw [enter, if_neg (not_or.2 ⟨h.1, h.2.1⟩), if_neg h.2.2]

lemma foldl_enter_of_isName {names : List Bytes} (h : ∀ name ∈ names, IsName name) :
    ∀ walk, names.foldl enter walk = walk ++ names := by
  induction names with
  | nil => simp
  | cons name names ih =>
    intro walk
    rw [List.foldl_cons, enter_of_isName (h name List.mem_cons_self),
      ih fun n hn => h n (List.mem_cons_of_mem _ hn), List.append_assoc, List.singleton_append]

/-- A walk only comes to names that were there or were entered. -/
lemma mem_foldl_enter {piece : Bytes} : ∀ {path walk : List Bytes},
    piece ∈ path.foldl enter walk → piece ∈ walk ∨ piece ∈ path ∧ IsName piece
  | [], walk, h => Or.inl h
  | p :: path, walk, h => by
    rw [List.foldl_cons] at h
    rcases mem_foldl_enter h with h | ⟨h, hname⟩
    · unfold enter at h
      split_ifs at h with hdot hup
      · exact Or.inl h
      · exact Or.inl (List.mem_of_mem_dropLast h)
      · rcases List.mem_append.1 h with h | h
        · exact Or.inl h
        · rw [List.mem_singleton] at h
          subst h
          rw [not_or] at hdot
          exact Or.inr ⟨List.mem_cons_self, hdot.1, hdot.2, hup⟩
    · exact Or.inr ⟨List.mem_cons_of_mem _ h, hname⟩

/-- **The path is beneath the root**: it starts in the same way, and its walk goes on where the
root's ends. -/
structure Beneath (root path : Bytes) : Prop where
  start : (path.takeWhile isSeparator).length = (root.takeWhile isSeparator).length
  inside : ∃ rest ≠ [], resolve path = resolve root ++ rest

lemma Beneath.trans {a b c : Bytes} (hab : Beneath a b) (hbc : Beneath b c) : Beneath a c := by
  obtain ⟨rest, hne, hrest⟩ := hab.inside
  obtain ⟨more, -, hmore⟩ := hbc.inside
  refine ⟨hbc.start.trans hab.start, rest ++ more, ?_, ?_⟩
  · exact List.append_ne_nil_of_left_ne_nil hne more
  · rw [hmore, hrest, List.append_assoc]

/-- The walk of a path that is joined with a separator. -/
lemma resolve_append {c : UInt8} (hc : isSeparator c = true) (left right : Bytes) :
    resolve (left ++ c :: right) = (pieces right).foldl enter (resolve left) := by
  rw [resolve, pieces_append hc, List.foldl_append]
  rfl

/-- Some character of the root is not a separator. -/
lemma takeWhile_append_of_exists {root : Bytes} (h : ∃ c ∈ root, isSeparator c = false)
    (path : Bytes) : (root ++ path).takeWhile isSeparator = root.takeWhile isSeparator := by
  rw [List.takeWhile_append, if_neg]
  intro hlen
  obtain ⟨c, hc, hsep⟩ := h
  have heq := (List.takeWhile_prefix (l := root) isSeparator).eq_of_length hlen
  rw [List.takeWhile_eq_self_iff.1 heq c hc] at hsep
  exact Bool.noConfusion hsep

/-- **A path of names that is joined to a root is beneath it.** -/
theorem beneath_append {root item : Bytes} {c : UInt8} (hc : isSeparator c = true)
    (hroot : ∃ c ∈ root, isSeparator c = false) (hitem : ∀ piece ∈ pieces item, IsName piece) :
    Beneath root (root ++ c :: item) := by
  refine ⟨by rw [takeWhile_append_of_exists hroot], pieces item, pieces_ne_nil item, ?_⟩
  rw [resolve_append hc, foldl_enter_of_isName hitem]

/-- So it is when the root ends in a separator already. -/
theorem beneath_append_of_separator {root item : Bytes} {c : UInt8} (hc : isSeparator c = true)
    (hroot : ∃ c ∈ root, isSeparator c = false) (hitem : ∀ piece ∈ pieces item, IsName piece) :
    Beneath (root ++ [c]) (root ++ [c] ++ item) := by
  refine ⟨?_, pieces item, pieces_ne_nil item, ?_⟩
  · rw [List.append_assoc, takeWhile_append_of_exists hroot, takeWhile_append_of_exists hroot]
  · rw [List.append_assoc, List.singleton_append, resolve_append hc, resolve_append hc,
      pieces_nil, foldl_enter_of_isName hitem]
    simp

/-! ### Volumes -/

/-- What a path starts with: a drive, or the share of a server. -/
inductive Volume
  | drive (letter : UInt8)
  | share (server name : Bytes)

/-- The volume as it is written. -/
def Volume.text : Volume → Bytes
  | drive letter => [letter, ch ':']
  | share server name => [ch '\\', ch '\\'] ++ server ++ ch '\\' :: name

def Volume.pieces : Volume → List Bytes
  | drive letter => [[letter, ch ':']]
  | share server name => [[], [], server, name]

/-- A volume of its own: not one of the namespaces `\\.\` and `\\?\` of devices. -/
def Volume.Proper : Volume → Prop
  | drive letter => isAlpha letter = true
  | share server name => IsName server ∧ server ≠ str "?" ∧ name ≠ [] ∧ Unbroken server ∧
      Unbroken name

/-- The path starts with a volume, and `rest` are the pieces after it. A drive takes a separator
after it. -/
structure Qualified (path : Bytes) (v : Volume) (rest : List Bytes) : Prop where
  proper : v.Proper
  pieces_eq : pieces path = v.pieces ++ rest
  rooted : ∀ letter, v = .drive letter → rest ≠ []

/-- The path of a volume and the names under it. -/
def fullName (v : Volume) (names : List Bytes) : Bytes :=
  v.text ++ names.flatMap fun name => ch '\\' :: name

lemma not_isSeparator_of_isAlpha {c : UInt8} (h : isAlpha c = true) : isSeparator c = false := by
  simp only [isAlpha, isSeparator, ch] at h ⊢
  grind

lemma Volume.Proper.pieces_text {v : Volume} (h : v.Proper) : FilePath.pieces v.text = v.pieces := by
  have hback : isSeparator (ch '\\') = true := by decide
  cases v with
  | drive letter =>
    refine pieces_eq_singleton fun c hc => ?_
    rcases List.mem_cons.1 hc with rfl | hc
    · exact not_isSeparator_of_isAlpha h
    · rw [List.mem_singleton] at hc
      subst hc
      decide
  | share server name =>
    obtain ⟨-, -, -, hserver, hname⟩ := h
    change FilePath.pieces (ch '\\' :: ch '\\' :: (server ++ ch '\\' :: name)) = _
    rw [pieces_cons hback, pieces_cons hback, pieces_append hback, pieces_eq_singleton hserver,
      pieces_eq_singleton hname]
    rfl

lemma pieces_append_flatMap {names : List Bytes} (h : ∀ name ∈ names, Unbroken name) :
    ∀ text : Bytes, pieces (text ++ names.flatMap fun name => ch '\\' :: name) =
      pieces text ++ names := by
  induction names with
  | nil => simp
  | cons name names ih =>
    intro text
    have hback : isSeparator (ch '\\') = true := by decide
    rw [List.flatMap_cons, ← List.append_assoc, ih fun n hn => h n (List.mem_cons_of_mem _ hn),
      pieces_append hback, pieces_eq_singleton (h name List.mem_cons_self), List.append_assoc,
      List.singleton_append]

lemma pieces_fullName {v : Volume} {names : List Bytes} (hv : v.Proper)
    (h : ∀ name ∈ names, Unbroken name) : pieces (fullName v names) = v.pieces ++ names := by
  rw [fullName, pieces_append_flatMap h, hv.pieces_text]

/-! ### `GetFullPathNameA` -/

/-- A single period at the end of a piece is dropped. -/
def trimPeriod (piece : Bytes) : Bytes :=
  if piece.getLast? = some (ch '.') ∧ piece.dropLast.getLast? ≠ some (ch '.') then piece.dropLast
  else piece

/-- All the periods and blanks at the end of a piece are dropped. -/
def trimEnd (piece : Bytes) : Bytes := piece.rdropWhile fun c => c = ch '.' ∨ c = ch ' '

/-- What becomes of the names of a path that does not end in a separator. -/
def settle : List Bytes → List Bytes
  | [] => []
  | [name] => if trimEnd name = [] then [] else [trimEnd name]
  | name :: next :: names => trimPeriod name :: settle (next :: names)

/-- The names that the full path has after its volume, of the pieces given. -/
def canonical (rest : List Bytes) : List Bytes :=
  if rest.getLast? = some [] then (rest.foldl enter []).map trimPeriod
  else settle (rest.foldl enter [])

/-- The separators made the same. -/
def unify (path : Bytes) : Bytes := path.map fun c => if c = ch '/' then ch '\\' else c

/-- **What is documented of `GetFullPathNameA`** on a path that starts with a volume: unless it
answers with the name of a device, it answers with the volume and the canonical names under it, and
may leave a separator at the end. -/
structure FullPathName (fullPath : Bytes → Option Bytes) : Prop where
  qualified : ∀ path v rest result, Qualified path v rest → fullPath path = some result →
    (unify result).take 4 ∈ [str "\\\\.\\", str "\\\\?\\"] ∨
      unify result = fullName v (canonical rest) ∨
      unify result = fullName v (canonical rest) ++ [ch '\\']

/-- Names that the function leaves as they are, the last one apart. -/
structure Settled (names : List Bytes) : Prop where
  isName : ∀ name ∈ names, IsName name
  unbroken : ∀ name ∈ names, Unbroken name
  trimmed : ∀ name ∈ names, trimPeriod name = name

lemma isName_of_getLast? {piece : Bytes} (hne : piece ≠ [])
    (h : piece.getLast? ≠ some (ch '.')) : IsName piece := by
  refine ⟨hne, ?_, ?_⟩ <;> rintro rfl <;> exact h (by decide)

lemma trimPeriod_of_getLast? {piece : Bytes} (h : piece.getLast? ≠ some (ch '.')) :
    trimPeriod piece = piece := if_neg fun hp => h hp.1

lemma trimPeriod_isPrefix (piece : Bytes) : trimPeriod piece <+: piece := by
  unfold trimPeriod
  split_ifs
  · exact List.dropLast_prefix piece
  · exact List.prefix_rfl

lemma trimPeriod_trimPeriod (piece : Bytes) : trimPeriod (trimPeriod piece) = trimPeriod piece := by
  by_cases h : piece.getLast? = some (ch '.') ∧ piece.dropLast.getLast? ≠ some (ch '.')
  · have heq : trimPeriod piece = piece.dropLast := if_pos h
    rw [heq, trimPeriod_of_getLast? h.2]
  · have heq : trimPeriod piece = piece := if_neg h
    rw [heq, heq]

lemma IsName.trimPeriod {piece : Bytes} (h : IsName piece) : IsName (trimPeriod piece) := by
  unfold FilePath.trimPeriod
  split_ifs with hp
  · refine isName_of_getLast? (fun hnil => ?_) hp.2
    -- a piece of one character that is a period is no name
    have hne := h.1
    have hpiece : piece = piece.dropLast ++ [piece.getLast hne] :=
      (List.dropLast_append_getLast hne).symm
    rw [List.getLast?_eq_some_getLast hne, Option.some.injEq] at hp
    rw [hnil, hp.1] at hpiece
    exact h.2.1 hpiece
  · exact h

lemma trimEnd_getLast? (piece : Bytes) : (trimEnd piece).getLast? ≠ some (ch '.') := by
  intro h
  have hne : trimEnd piece ≠ [] := by
    intro hnil
    rw [hnil] at h
    exact absurd h (by simp)
  rw [List.getLast?_eq_some_getLast hne, Option.some.injEq] at h
  have hlast := List.rdropWhile_last_not _ piece hne
  rw [show (List.rdropWhile _ piece).getLast hne = ch '.' from h] at hlast
  exact hlast (by decide)

lemma Unbroken.of_isPrefix {a b : Bytes} (h : Unbroken b) (hpre : a <+: b) : Unbroken a :=
  fun c hc => h c (hpre.subset hc)

/-- The names that a full path has are left as they are by the next one. -/
lemma settled_map_trimPeriod {names : List Bytes} (hname : ∀ name ∈ names, IsName name)
    (hunbroken : ∀ name ∈ names, Unbroken name) : Settled (names.map trimPeriod) := by
  refine ⟨?_, ?_, ?_⟩ <;> intro piece h <;> obtain ⟨name, hmem, rfl⟩ := List.mem_map.1 h
  · exact (hname name hmem).trimPeriod
  · exact (hunbroken name hmem).of_isPrefix (trimPeriod_isPrefix name)
  · exact trimPeriod_trimPeriod name

lemma settled_settle : ∀ {names : List Bytes}, (∀ name ∈ names, IsName name) →
    (∀ name ∈ names, Unbroken name) → Settled (settle names)
  | [], _, _ => ⟨by simp [settle], by simp [settle], by simp [settle]⟩
  | [name], hname, hunbroken => by
    unfold settle
    split_ifs with h
    · exact ⟨by simp, by simp, by simp⟩
    · refine ⟨?_, ?_, ?_⟩ <;> intro piece hp <;> rw [List.mem_singleton] at hp <;> subst hp
      · exact isName_of_getLast? h (trimEnd_getLast? name)
      · exact (hunbroken name List.mem_cons_self).of_isPrefix (List.rdropWhile_prefix _ _)
      · exact trimPeriod_of_getLast? (trimEnd_getLast? name)
  | name :: next :: names, hname, hunbroken => by
    have ih := @settled_settle (next :: names)
      (fun n hn => hname n (List.mem_cons_of_mem _ hn))
      (fun n hn => hunbroken n (List.mem_cons_of_mem _ hn))
    have hhead := @settled_map_trimPeriod [name]
      (fun n hn => hname n (List.mem_singleton.1 hn ▸ List.mem_cons_self))
      (fun n hn => hunbroken n (List.mem_singleton.1 hn ▸ List.mem_cons_self))
    unfold settle
    refine ⟨?_, ?_, ?_⟩ <;> intro piece hp <;> rcases List.mem_cons.1 hp with rfl | hp
    · exact hhead.isName _ List.mem_cons_self
    · exact ih.isName piece hp
    · exact hhead.unbroken _ List.mem_cons_self
    · exact ih.unbroken piece hp
    · exact hhead.trimmed _ List.mem_cons_self
    · exact ih.trimmed piece hp

theorem settled_canonical {rest : List Bytes} (h : ∀ piece ∈ rest, Unbroken piece) :
    Settled (canonical rest) := by
  have hwalk : ∀ name ∈ rest.foldl enter [], IsName name ∧ Unbroken name := by
    intro name hname
    rcases mem_foldl_enter hname with hnil | ⟨hmem, hn⟩
    · exact absurd hnil List.not_mem_nil
    · exact ⟨hn, h name hmem⟩
  unfold canonical
  split_ifs
  · exact settled_map_trimPeriod (fun n hn => (hwalk n hn).1) fun n hn => (hwalk n hn).2
  · exact settled_settle (fun n hn => (hwalk n hn).1) fun n hn => (hwalk n hn).2

lemma settle_append {names items : List Bytes} (htrim : ∀ name ∈ names, trimPeriod name = name)
    (hne : items ≠ []) : settle (names ++ items) = names ++ settle items := by
  induction names with
  | nil => rfl
  | cons name names ih =>
    have hrest : names ++ items ≠ [] := List.append_ne_nil_of_right_ne_nil names hne
    obtain ⟨next, more, hmore⟩ := List.exists_cons_of_ne_nil hrest
    rw [List.cons_append, hmore, settle, ← hmore, htrim name List.mem_cons_self,
      ih fun n hn => htrim n (List.mem_cons_of_mem _ hn), List.cons_append]

/-- **The names that are added to settled ones are settled under them.** -/
theorem Settled.canonical_append {names items : List Bytes} (h : Settled names) (hne : items ≠ [])
    (hitems : ∀ item ∈ items, IsName item) : canonical (names ++ items) = names ++ settle items := by
  have hlast : (names ++ items).getLast? ≠ some [] := by
    rw [List.getLast?_append_of_ne_nil names hne]
    intro hnil
    exact (hitems [] (List.mem_of_getLast? hnil)).1 rfl
  have hall : ∀ name ∈ names ++ items, IsName name := by
    intro name hmem
    rcases List.mem_append.1 hmem with hmem | hmem
    · exact h.isName name hmem
    · exact hitems name hmem
  rw [canonical, if_neg hlast, foldl_enter_of_isName hall, List.nil_append,
    settle_append h.trimmed hne]

/-! ### Names at the end of a path -/

/-- The names of a path that ends in a separator, or goes on. -/
def inner (rest : List Bytes) : List Bytes := (rest.foldl enter []).map trimPeriod

/-- A name that stays as it is at the end of a path. -/
structure Trimmed (name : Bytes) : Prop where
  isName : IsName name
  period : name.getLastD 0 ≠ ch '.'
  blank : name.getLastD 0 ≠ ch ' '

lemma getLast?_eq_getLastD {piece : Bytes} (h : piece ≠ []) :
    piece.getLast? = some (piece.getLastD 0) := by
  rw [List.getLast?_eq_some_getLast h, List.getLastD_eq_getLast?, List.getLast?_eq_some_getLast h,
    Option.getD_some]

lemma Trimmed.trimPeriod_eq {name : Bytes} (h : Trimmed name) : trimPeriod name = name := by
  refine trimPeriod_of_getLast? fun hlast => h.period ?_
  rw [getLast?_eq_getLastD h.isName.1, Option.some.injEq] at hlast
  exact hlast

lemma Trimmed.trimEnd_eq {name : Bytes} (h : Trimmed name) : trimEnd name = name := by
  refine List.rdropWhile_eq_self_iff.2 fun hne hlast => ?_
  have hget : name.getLast hne = name.getLastD 0 :=
    Option.some.inj ((List.getLast?_eq_some_getLast hne).symm.trans (getLast?_eq_getLastD hne))
  rw [hget, decide_eq_true_eq] at hlast
  exact hlast.elim h.period h.blank

lemma settle_concat (names : List Bytes) (name : Bytes) :
    settle (names ++ [name]) = names.map trimPeriod ++ settle [name] := by
  induction names with
  | nil => rfl
  | cons first names ih =>
    obtain ⟨next, more, hmore⟩ := List.exists_cons_of_ne_nil
      (List.append_ne_nil_of_right_ne_nil names (List.cons_ne_nil name []))
    rw [List.cons_append, hmore]
    change trimPeriod first :: settle (next :: more) = _
    rw [← hmore, ih, List.map_cons, List.cons_append]

lemma canonical_concat_nil (rest : List Bytes) : canonical (rest ++ [[]]) = inner rest := by
  rw [canonical, if_pos List.getLast?_concat, List.foldl_append, List.foldl_cons, List.foldl_nil,
    enter_nil, inner]

lemma canonical_concat {name : Bytes} (h : Trimmed name) (rest : List Bytes) :
    canonical (rest ++ [name]) = inner rest ++ [name] := by
  have hlast : (rest ++ [name]).getLast? ≠ some [] := by
    rw [List.getLast?_concat]
    exact fun hnil => h.isName.1 (Option.some.inj hnil)
  rw [canonical, if_neg hlast, List.foldl_append, List.foldl_cons, List.foldl_nil,
    enter_of_isName h.isName, settle_concat, settle, h.trimEnd_eq, if_neg h.isName.1, inner]

lemma inner_concat {name : Bytes} (h : Trimmed name) (rest : List Bytes) :
    inner (rest ++ [name]) = inner rest ++ [name] := by
  rw [inner, List.foldl_append, List.foldl_cons, List.foldl_nil, enter_of_isName h.isName,
    List.map_append, List.map_singleton, h.trimPeriod_eq, inner]

/-- A piece that only loses a period is trimmed to the same at the end of a path. -/
lemma trimEnd_eq_of_trimPeriod {piece : Bytes} (h : Trimmed (trimPeriod piece)) :
    trimEnd piece = trimPeriod piece := by
  have hself := h.trimEnd_eq
  by_cases hp : piece.getLast? = some (ch '.') ∧ piece.dropLast.getLast? ≠ some (ch '.')
  · have heq : trimPeriod piece = piece.dropLast := if_pos hp
    rw [heq] at hself ⊢
    have hne : piece ≠ [] := by
      rintro rfl
      exact absurd hp.1 (by simp)
    rw [List.getLast?_eq_some_getLast hne, Option.some.injEq] at hp
    have hpiece : piece = piece.dropLast ++ [ch '.'] := by
      rw [← hp.1]
      exact (List.dropLast_append_getLast hne).symm
    rw [hpiece, trimEnd, List.rdropWhile_concat_pos _ _ _ (by decide), ← hpiece]
    exact hself
  · have heq : trimPeriod piece = piece := if_neg hp
    rw [heq] at hself ⊢
    exact hself

/-- A path without a separator at its end has the same names as with one, if the last of these is
one that stays as it is. -/
lemma canonical_eq_inner {rest : List Bytes} (hlast : rest.getLast? ≠ some [])
    (h : ∀ name, (inner rest).getLast? = some name → Trimmed name) :
    canonical rest = inner rest := by
  rw [canonical, if_neg hlast, inner]
  rw [inner] at h
  rcases List.eq_nil_or_concat' (rest.foldl enter []) with hnil | ⟨names, name, hnames⟩
  · rw [hnil]
    rfl
  · rw [hnames] at h ⊢
    have htrim : Trimmed (trimPeriod name) := h _ (by simp)
    rw [settle_concat, List.map_append, List.map_singleton, settle,
      trimEnd_eq_of_trimPeriod htrim, if_neg htrim.isName.1]

/-! ### Letter case -/

lemma isSeparator_lower (c : UInt8) : isSeparator (lower c) = isSeparator c := by
  simp only [isSeparator, lower, ch]
  grind

lemma pieces_fold (path : Bytes) : pieces (fold path) = (pieces path).map fold := by
  induction path with
  | nil => rfl
  | cons c path ih =>
    rw [fold_cons]
    by_cases hc : isSeparator c = true
    · rw [pieces_cons ((isSeparator_lower c).trans hc), pieces_cons hc, ih]
      rfl
    · have hlower : ¬ isSeparator (lower c) = true := (isSeparator_lower c).symm ▸ hc
      rw [pieces, pieces, List.splitOnP_cons_eq_if_modifyHead, List.splitOnP_cons_eq_if_modifyHead,
        if_neg hc, if_neg hlower]
      unfold pieces at ih
      rw [ih]
      cases List.splitOnP isSeparator path <;> rfl

lemma isName_of_fold_eq {a b : Bytes} (h : fold a = fold b) (ha : IsName a) : IsName b := by
  refine ⟨?_, ?_, ?_⟩ <;> rintro rfl
  · exact ha.1 (eq_of_fold_eq (by simp) h)
  · exact ha.2.1 (eq_of_fold_eq (by decide +kernel) h)
  · exact ha.2.2 (eq_of_fold_eq (by decide +kernel) h)

lemma Trimmed.of_fold {piece : Bytes} (h : Trimmed (fold piece)) : Trimmed piece := by
  have hname : IsName piece := isName_of_fold_eq (fold_fold piece) h.isName
  obtain ⟨init, c, rfl⟩ := (List.eq_nil_or_concat' piece).resolve_left hname.1
  have hperiod := h.period
  have hblank := h.blank
  rw [fold_append, show fold [c] = [lower c] from rfl, List.getLastD_concat] at hperiod hblank
  refine ⟨hname, fun hc => hperiod ?_, fun hc => hblank ?_⟩ <;> rw [List.getLastD_concat] at hc <;>
    rw [hc] <;> decide

/-- A path that is a qualified one up to letter case is qualified. -/
theorem Qualified.of_fold_eq {a b : Bytes} {v : Volume} {rest : List Bytes}
    (hq : Qualified a v rest) (h : fold a = fold b) :
    ∃ v' rest', Qualified b v' rest' := by
  have hpieces : (v.pieces ++ rest).map fold = (pieces b).map fold := by
    rw [← hq.pieces_eq, ← pieces_fold, ← pieces_fold, h]
  have hnil : ∀ piece : Bytes, fold [] = fold piece → piece = [] :=
    fun piece h => eq_of_fold_eq (by simp) h.symm
  have hunbroken : ∀ piece ∈ pieces b, Unbroken piece := fun _ h => unbroken_of_mem_pieces h
  cases v with
  | drive letter =>
    obtain ⟨first, more, hb, hfirst, hmore⟩ := List.map_eq_cons_iff.1 hpieces.symm
    obtain ⟨letter', colon', rfl, hletter, hcolon⟩ := List.map_eq_cons_iff.1 hfirst
    obtain ⟨colon, tail, rfl, hletterColon, htail⟩ := List.map_eq_cons_iff.1 hcolon
    obtain rfl : tail = [] := List.map_eq_nil_iff.1 htail
    have hcolon' : colon = ch ':' := eq_of_lower_eq (by decide) hletterColon
    subst hcolon'
    refine ⟨.drive letter', more, ?_, hb, fun _ _ hmore' => ?_⟩
    · have hproper : isAlpha letter = true := hq.proper
      rw [← isAlpha_lower, ← hletter, isAlpha_lower] at hproper
      exact hproper
    · rw [hmore', List.map_nil] at hmore
      exact hq.rooted letter rfl (List.map_eq_nil_iff.1 hmore.symm)
  | share server name =>
    obtain ⟨p, _, hb, hp, h1⟩ := List.map_eq_cons_iff.1 hpieces.symm
    obtain ⟨q, _, rfl, hq', h2⟩ := List.map_eq_cons_iff.1 h1
    obtain ⟨server', _, rfl, hserver, h3⟩ := List.map_eq_cons_iff.1 h2
    obtain ⟨name', more, rfl, hname, -⟩ := List.map_eq_cons_iff.1 h3
    obtain ⟨hs, hmark, hn, -, -⟩ := hq.proper
    rw [hnil p hp.symm, hnil q hq'.symm] at hb
    refine ⟨.share server' name', more, ⟨isName_of_fold_eq hserver.symm hs, ?_, ?_, ?_, ?_⟩, hb,
      fun _ h => Volume.noConfusion h⟩
    · rintro rfl
      exact hmark (eq_of_fold_eq (by decide +kernel) hserver.symm)
    · rintro rfl
      exact hn (eq_of_fold_eq (by simp) hname.symm)
    · exact hunbroken server' (by rw [hb]; simp)
    · exact hunbroken name' (by rw [hb]; simp)

/-! ### A full path of its own -/

/-- The volume at the start of the pieces. -/
def splitVolume : List Bytes → Option (Volume × List Bytes)
  | [] :: [] :: server :: name :: rest => some (.share server name, rest)
  | [letter, colon] :: rest => if colon = ch ':' then some (.drive letter, rest) else none
  | _ => none

lemma splitVolume_append (v : Volume) (rest : List Bytes) :
    splitVolume (v.pieces ++ rest) = some (v, rest) := by
  cases v with
  | drive letter => simp [Volume.pieces, splitVolume]
  | share server name => rfl

/-- A function that does what is documented, and answers for nothing else. -/
def fullPathName (path : Bytes) : Option Bytes :=
  (splitVolume (pieces path)).map fun p =>
    let result := fullName p.1 (canonical p.2)
    if result.length < 3 then result ++ [ch '\\'] else result

lemma slash_notMem_unify (path : Bytes) : ch '/' ∉ unify path := by
  rw [unify, List.mem_map]
  rintro ⟨c, -, hc⟩
  split_ifs at hc with h
  · exact absurd hc (by decide)
  · exact h hc

lemma unify_eq_self {path : Bytes} (h : ch '/' ∉ path) : unify path = path := by
  have hid : ∀ c ∈ path, (if c = ch '/' then ch '\\' else c) = id c := by
    intro c hc
    refine if_neg ?_
    rintro rfl
    exact h hc
  rw [unify, List.map_congr_left hid, List.map_id]

lemma slash_notMem_fullName {v : Volume} {names : List Bytes} (hv : v.Proper)
    (h : ∀ name ∈ names, Unbroken name) : ch '/' ∉ fullName v names := by
  have hslash : ∀ {piece : Bytes}, Unbroken piece → ch '/' ∉ piece :=
    fun hp hmem => absurd (hp _ hmem) (by decide)
  rw [fullName, List.mem_append, not_or, List.mem_flatMap]
  constructor
  · cases v with
    | drive letter =>
      intro hmem
      rcases List.mem_cons.1 hmem with heq | hmem
      · have hsep := not_isSeparator_of_isAlpha hv
        rw [← heq] at hsep
        exact absurd hsep (by decide)
      · exact absurd hmem (by decide)
    | share server name =>
      obtain ⟨-, -, -, hserver, hname⟩ := hv
      simp only [Volume.text, List.mem_append, List.mem_cons, not_or]
      exact ⟨⟨⟨by decide, by decide, List.not_mem_nil⟩, hslash hserver⟩, by decide, hslash hname⟩
  · rintro ⟨name, hmem, hin⟩
    rcases List.mem_cons.1 hin with heq | hin
    · exact absurd heq (by decide)
    · exact hslash (h name hmem) hin

theorem fullPathName_fullPathName : FullPathName fullPathName := by
  refine ⟨fun path v rest result hq h => Or.inr ?_⟩
  have hrest : ∀ piece ∈ rest, Unbroken piece := fun piece hp =>
    @unbroken_of_mem_pieces _ path (by rw [hq.pieces_eq]; exact List.mem_append_right _ hp)
  have hslash := slash_notMem_fullName hq.proper (settled_canonical hrest).unbroken
  rw [fullPathName, hq.pieces_eq, splitVolume_append, Option.map_some, Option.some.injEq] at h
  dsimp only at h
  split_ifs at h with hlen
  · subst h
    right
    exact unify_eq_self (by rw [List.mem_append, not_or]; exact ⟨hslash, by decide⟩)
  · subst h
    left
    exact unify_eq_self hslash

end Wpm.Lib.FilePath
