import Wpm.Archive.RemoveTree

/-!
The paths of the removal of a directory.

What Windows walks down for a path is normalized, and a name that is put behind a path is walked down
last, behind what the path with a separator at its end is walked down for. That is what the path
itself leads to, but for a drive without a separator, which means the current directory of the drive.
-/

namespace Wpm.Archive.RemoveTree

open Wpm.Lib.CString Wpm.Lib.FileTree
open Wpm.Lib.FilePath (IsName Unbroken Trimmed pieces canonical inner canonical_concat
  canonical_concat_nil inner_concat canonical_eq_inner pieces_append pieces_eq_singleton pieces_nil
  pieces_ne_nil ends_of_pieces eq_of_pieces_eq_singleton)

variable {env : Env} {path entryPath name : Bytes}

/-! ### Paths -/

lemma isSeparator_eq (c : UInt8) : Lib.FilePath.isSeparator c = isSeparator c := by
  simp only [Lib.FilePath.isSeparator, isSeparator, or_comm]

lemma Plain.trim {name : Bytes} (h : Plain name) : Trimmed name :=
  ⟨h.isName, h.trimmed.1, h.trimmed.2⟩

lemma plain_star : Plain (str "*") :=
  ⟨by decide, forall_mem_of_all (by decide), by decide, by decide, by decide⟩

/-- The path with a separator at its end. -/
def slashed (path : Bytes) : Bytes :=
  path ++ if path ≠ [] ∧ isSeparator (path.getLastD 0) then [] else [ch '\\']

lemma eq_of_joinPath (h : joinPath path name = some entryPath) :
    entryPath = slashed path ++ name := by
  unfold joinPath at h
  dsimp only at h
  split_ifs at h with hend hlen hlen
  · rw [slashed, if_pos hend]
    exact (Option.some.inj h).symm
  · rw [slashed, if_neg hend]
    exact (Option.some.inj h).symm

lemma exists_slashed_eq (path : Bytes) :
    ∃ left c, isSeparator c = true ∧ slashed path = left ++ [c] := by
  unfold slashed
  split_ifs with hend
  · obtain ⟨left, c, rfl⟩ := (List.eq_nil_or_concat' path).resolve_left hend.1
    exact ⟨left, c, by simpa using hend.2, by rw [List.append_nil]⟩
  · exact ⟨path, ch '\\', by decide, rfl⟩

lemma getLastD_append_name {left : Bytes} (h : Plain name) :
    isSeparator ((left ++ name).getLastD 0) = false := by
  obtain ⟨init, c, rfl⟩ := (List.eq_nil_or_concat' name).resolve_left h.isName.1
  rw [← List.append_assoc, List.getLastD_concat, ← isSeparator_eq]
  exact h.unbroken c (List.mem_append_right _ List.mem_cons_self)

lemma slashed_append (h : Plain name) (left : Bytes) :
    slashed (left ++ name) = left ++ name ++ [ch '\\'] := by
  rw [slashed, getLastD_append_name h]
  simp

lemma normalize_device {server : Bytes} (h : server = str "." ∨ server = str "?")
    (pieces : List Bytes) : normalize env ([] :: [] :: server :: pieces) = canonical pieces :=
  if_pos h

lemma normalize_share {server : Bytes} (h : ¬(server = str "." ∨ server = str "?"))
    (pieces : List Bytes) : normalize env ([] :: [] :: server :: pieces) =
      str "unc" :: ((server :: pieces).take 2).filter (· ≠ []) ++ canonical (pieces.drop 1) :=
  if_neg h

lemma normalize_rooted (c : UInt8) (tail : Bytes) (pieces : List Bytes) :
    normalize env ([] :: (c :: tail) :: pieces) =
      env.currentVolume ++ canonical ((c :: tail) :: pieces) := rfl

lemma normalize_drive (letter colon : UInt8) (tail : Bytes) (pieces : List Bytes) :
    normalize env ((letter :: colon :: tail) :: pieces) =
      if colon = ch ':' then
        [letter, colon] :: canonical (if tail = [] ∧ pieces ≠ [] then pieces
          else env.drive letter ++ tail :: pieces)
      else env.currentVolume ++
        canonical (env.currentNames ++ (letter :: colon :: tail) :: pieces) := rfl

lemma normalize_relative (letter : UInt8) (pieces : List Bytes) :
    normalize env ([letter] :: pieces) =
      env.currentVolume ++ canonical (env.currentNames ++ [letter] :: pieces) := rfl

/-- A name behind a path, and a separator behind that or not, is walked down last. -/
lemma normalize_append {rest : List Bytes} (hne : rest ≠ []) (hname : Plain name)
    {ending : List Bytes} (hending : ending = [] ∨ ending = [[]]) :
    normalize env (rest ++ name :: ending) = normalize env (rest ++ [[]]) ++ [name] := by
  have hcanonical : ∀ more : List Bytes,
      canonical (more ++ name :: ending) = canonical (more ++ [[]]) ++ [name] := by
    intro more
    rw [canonical_concat_nil]
    rcases hending with rfl | rfl
    · exact canonical_concat hname.trim more
    · rw [List.append_cons, canonical_concat_nil, inner_concat hname.trim]
  have hnames : ((name :: ending).take 2).filter (· ≠ []) = [name] := by
    rcases hending with rfl | rfl <;> simp [hname.isName.1]
  have hdrop : canonical ending = [] ∧ canonical (ending.drop 1) = [] := by
    rcases hending with rfl | rfl <;> exact ⟨rfl, rfl⟩
  have hmark : ¬(name = str "." ∨ name = str "?") := not_or.2 ⟨hname.isName.2.1, hname.noMark⟩
  match rest, hne with
  | [[]], _ =>
    obtain ⟨c, tail, hcons⟩ := List.exists_cons_of_ne_nil hname.isName.1
    have hrooted : normalize env ([] :: name :: ending) =
        env.currentVolume ++ canonical (name :: ending) := by
      rw [hcons, normalize_rooted]
    have hroot : normalize env [[], []] = env.currentVolume ++ canonical [[]] := rfl
    rw [List.singleton_append, hrooted, List.singleton_append, hroot, List.append_assoc,
      ← List.nil_append [[]], ← hcanonical []]
    rfl
  | [[], []], _ =>
    have hroot : normalize env ([[], []] ++ [[]]) = [str "unc"] := rfl
    rw [hroot, List.cons_append, List.cons_append, List.nil_append, normalize_share hmark, hnames,
      hdrop.2]
    rfl
  | [] :: [] :: server :: more, _ =>
    by_cases hdevice : server = str "." ∨ server = str "?"
    · simp only [List.cons_append, normalize_device hdevice, hcanonical]
    · simp only [List.cons_append, normalize_share hdevice]
      cases more with
      | nil =>
        have hshare : ([server, name] : List Bytes).filter (· ≠ []) =
            ([server, []] : List Bytes).filter (· ≠ []) ++ [name] := by
          by_cases hserver : server = [] <;> simp [hserver, hname.isName.1]
        have hroot : canonical ([] : List Bytes) = [] := rfl
        simp only [List.nil_append, List.drop_succ_cons, List.drop_zero, hdrop.1, hroot,
          List.take_succ_cons, List.take_zero, List.append_nil]
        rw [hshare]
      | cons share more =>
        simp only [List.cons_append, List.drop_succ_cons, List.drop_zero, hcanonical,
          List.take_succ_cons, List.take_zero, List.append_assoc]
  | [] :: (c :: tail) :: more, _ =>
    simp only [List.cons_append, normalize_rooted]
    rw [← List.cons_append, hcanonical, List.append_assoc, List.cons_append]
  | (letter :: colon :: tail) :: more, _ =>
    have hfollow : more ++ name :: ending ≠ [] ∧ more ++ [[]] ≠ [] := by simp
    simp only [List.cons_append, normalize_drive, hfollow.1, hfollow.2, ne_eq, not_false_eq_true,
      and_true]
    split_ifs
    · rw [hcanonical, List.cons_append]
    · rw [← List.cons_append, ← List.cons_append, ← List.append_assoc, hcanonical, List.append_assoc,
        List.cons_append, List.cons_append]
    · rw [← List.cons_append, ← List.append_assoc, hcanonical]
      simp
  | [letter] :: more, _ =>
    simp only [List.cons_append, normalize_relative]
    rw [← List.cons_append, ← List.append_assoc, hcanonical]
    simp

/-- The pieces of a text that is empty or ends in a separator, and of what is put behind it. -/
lemma exists_pieces_eq {text : Bytes} (h : text = [] ∨ ∃ left c, isSeparator c = true ∧
    text = left ++ [c]) : ∃ rest, (text ≠ [] → rest ≠ []) ∧ pieces text = rest ++ [[]] ∧
      ∀ name, Unbroken name → pieces (text ++ name) = rest ++ [name] ∧
        pieces (text ++ name ++ [ch '\\']) = rest ++ [name, []] := by
  have hback : Lib.FilePath.isSeparator (ch '\\') = true := by decide
  rcases h with rfl | ⟨left, c, hc, rfl⟩
  · refine ⟨[], fun h => absurd rfl h, pieces_nil, fun name hname => ?_⟩
    rw [List.nil_append, pieces_append hback, pieces_eq_singleton hname, pieces_nil]
    exact ⟨rfl, rfl⟩
  · rw [← isSeparator_eq] at hc
    refine ⟨pieces left, fun _ => pieces_ne_nil left, ?_, fun name hname => ?_⟩
    · rw [pieces_append hc, pieces_nil]
    · have hpieces : pieces (left ++ [c] ++ name) = pieces left ++ [name] := by
        rw [List.append_assoc, List.singleton_append, pieces_append hc, pieces_eq_singleton hname]
      rw [pieces_append hback, hpieces, pieces_nil, List.append_assoc]
      exact ⟨rfl, rfl⟩

/-- A name behind a path does not change whether it is taken as it is written. -/
lemma verbatim_append (path : Bytes) (hname : Plain name) (ending : Bytes) :
    Verbatim (slashed path ++ name ++ ending) ↔ Verbatim (slashed path) := by
  obtain ⟨left, c, hc, heq⟩ := exists_slashed_eq path
  obtain ⟨d, tail, rfl⟩ := List.exists_cons_of_ne_nil hname.isName.1
  have hd : isSeparator d = false := by
    rw [← isSeparator_eq]
    exact hname.unbroken d List.mem_cons_self
  have hprefix : str "\\\\?\\" = [ch '\\', ch '\\', ch '?', ch '\\'] := by decide
  have hback : isSeparator (ch '\\') = true := by decide
  simp only [heq, Verbatim, hprefix]
  match left with
  | [] =>
    -- the name would start with a separator
    refine ⟨fun h => ?_, fun h => absurd h (by simp)⟩
    simp only [List.nil_append, List.cons_append, List.take_succ_cons, List.cons.injEq] at h
    rw [h.2.1, hback] at hd
    exact absurd hd (by decide)
  | [a] =>
    -- the name would be the mark, or have a separator in it
    refine ⟨fun h => ?_, fun h => absurd h (by simp)⟩
    simp only [List.nil_append, List.cons_append, List.take_succ_cons, List.cons.injEq] at h
    cases tail with
    | nil => exact absurd (by rw [h.2.2.1]; decide) hname.noMark
    | cons e tail =>
      have he := hname.unbroken e (List.mem_cons_of_mem _ List.mem_cons_self)
      simp only [List.cons_append, List.take_succ_cons, List.cons.injEq] at h
      rw [isSeparator_eq, h.2.2.2.1, hback] at he
      exact absurd he (by decide)
  | [a, b] =>
    refine ⟨fun h => ?_, fun h => absurd h (by simp)⟩
    simp only [List.nil_append, List.cons_append, List.take_succ_cons, List.cons.injEq] at h
    rw [h.2.2.1] at hc
    exact absurd hc (by decide)
  | a :: b :: e :: left =>
    cases left <;> simp

lemma full_of_verbatim (h : Verbatim path) : full env path = (literal (path.drop 4)).map fold := by
  rw [full, if_pos h]

lemma full_of_not_verbatim (h : ¬Verbatim path) :
    full env path = (normalize env (pieces path)).map fold := by
  rw [full, if_neg h]

/-- A path that is taken as it is written has no slash. -/
def NoSlash (path : Bytes) : Prop := Verbatim (slashed path) → ch '/' ∉ (slashed path).drop 4

lemma noSlash_of_ne_nil (h : full env (slashed path) ≠ []) : NoSlash path := by
  intro hverbatim hmem
  rw [full_of_verbatim hverbatim, literal, if_pos hmem] at h
  exact h rfl

lemma length_of_verbatim (h : Verbatim path) : 4 ≤ path.length := by
  have hlength := congrArg List.length h
  rw [List.length_take, show (str "\\\\?\\").length = 4 from rfl] at hlength
  omega

/-- **A name behind a path is walked down last**, with a separator behind it or not. -/
lemma full_append (hslashed : NoSlash path) (hname : Plain name) {ending : Bytes}
    (hending : ending = [] ∨ ending = [ch '\\']) :
    full env (slashed path ++ name ++ ending) = full env (slashed path) ++ [name] := by
  have hfold : [name].map fold = [name] := by rw [List.map_singleton, hname.lowerCase]
  have hslash : ch '/' ∉ name ++ ending := by
    rw [List.mem_append, not_or]
    refine ⟨fun hmem => absurd (hname.unbroken _ hmem) (by decide), ?_⟩
    rcases hending with rfl | rfl <;> decide
  obtain ⟨left, c, hc, heq⟩ := exists_slashed_eq path
  by_cases hverbatim : Verbatim (slashed path)
  · -- the text behind the mark is empty or ends in the separator of the path
    have hall : Verbatim (slashed path ++ name ++ ending) :=
      (verbatim_append path hname ending).2 hverbatim
    have hlen := length_of_verbatim hverbatim
    have hno := hslashed hverbatim
    rw [full_of_verbatim hverbatim, full_of_verbatim hall, List.append_assoc,
      List.drop_append_of_le_length hlen]
    have htext : (slashed path).drop 4 = [] ∨ ∃ left c, isSeparator c = true ∧
        (slashed path).drop 4 = left ++ [c] := by
      rw [heq] at hlen ⊢
      rw [List.length_append, List.length_singleton] at hlen
      rcases Nat.lt_or_ge left.length 4 with hlt | hge
      · exact Or.inl (List.drop_eq_nil_of_le (by simp; omega))
      · exact Or.inr ⟨left.drop 4, c, hc, List.drop_append_of_le_length hge⟩
    obtain ⟨rest, -, hpieces, happend⟩ := exists_pieces_eq htext
    have hnoAll : ch '/' ∉ (slashed path).drop 4 ++ (name ++ ending) := by
      rw [List.mem_append, not_or]
      exact ⟨hno, hslash⟩
    have hliteral : literal ((slashed path).drop 4) = rest := by
      rw [literal, if_neg hno, hpieces, if_pos List.getLast?_concat, List.dropLast_concat]
    have hliteralAll : literal ((slashed path).drop 4 ++ (name ++ ending)) = rest ++ [name] := by
      rw [literal, if_neg hnoAll, ← List.append_assoc]
      rcases hending with rfl | rfl
      · rw [List.append_nil, (happend name hname.unbroken).1, List.getLast?_concat,
          if_neg fun h => hname.isName.1 (Option.some.inj h)]
      · rw [(happend name hname.unbroken).2, show rest ++ [name, []] = rest ++ [name] ++ [[]] by simp,
          List.getLast?_concat, if_pos rfl, List.dropLast_concat]
    rw [hliteral, hliteralAll, List.map_append, hfold]
  · have hall : ¬Verbatim (slashed path ++ name ++ ending) :=
      fun h => hverbatim ((verbatim_append path hname ending).1 h)
    obtain ⟨rest, hne, hpieces, happend⟩ :=
      exists_pieces_eq (Or.inr ⟨left, c, hc, heq⟩ : slashed path = [] ∨ _)
    have hrest : rest ≠ [] := hne (by rw [heq]; exact List.concat_ne_nil _ _)
    have hnormalize : normalize env (pieces (slashed path ++ name ++ ending)) =
        normalize env (rest ++ [[]]) ++ [name] := by
      rcases hending with rfl | rfl
      · rw [List.append_nil, (happend name hname.unbroken).1]
        exact normalize_append hrest hname (Or.inl rfl)
      · rw [(happend name hname.unbroken).2]
        exact normalize_append hrest hname (Or.inr rfl)
    rw [full_of_not_verbatim hall, full_of_not_verbatim hverbatim, hpieces, hnormalize,
      List.map_append, hfold]

/-- A name that is joined to a path is walked down last. -/
lemma full_joinPath (hslashed : NoSlash path) (hname : Plain name)
    (h : joinPath path name = some entryPath) :
    full env entryPath = full env (slashed path) ++ [name] := by
  rw [eq_of_joinPath h, ← List.append_nil name, ← List.append_assoc]
  exact (full_append hslashed hname (Or.inl rfl)).trans (by rw [List.append_nil])

/-- The path that results leads where it does with a separator at its end. -/
lemma full_slashed_joinPath (hslashed : NoSlash path) (hname : Plain name)
    (h : joinPath path name = some entryPath) :
    full env (slashed entryPath) = full env entryPath := by
  rw [full_joinPath hslashed hname h, eq_of_joinPath h, slashed_append hname]
  exact full_append hslashed hname (Or.inr rfl)

/-! ### A path without a separator at its end -/

/-- Behind the first piece, the last one is not empty either. -/
lemma getLast?_of_cons {first : Bytes} {more : List Bytes} (h : (first :: more).getLast? ≠ some []) :
    more.getLast? ≠ some [] := by
  intro hnil
  rw [List.getLast?_cons, hnil] at h
  exact h rfl

/-- Nor is it with a piece, and others, put before. -/
lemma getLast?_append_cons (before : List Bytes) {first : Bytes} {more : List Bytes}
    (hfirst : first ≠ []) (h : more.getLast? ≠ some []) :
    (before ++ first :: more).getLast? ≠ some [] := by
  intro hnil
  rw [List.getLast?_append, List.getLast?_cons] at hnil
  cases hmore : more.getLast? with
  | none =>
    rw [hmore] at hnil
    exact hfirst (Option.some.inj hnil)
  | some last =>
    rw [hmore] at hnil h
    exact h hnil

lemma append_canonical_slash (base : List Bytes) {more : List Bytes} (hlast : more.getLast? ≠ some [])
    (h : ∀ name, (base ++ canonical (more ++ [[]])).getLast? = some name → Trimmed name) :
    base ++ canonical more = base ++ canonical (more ++ [[]]) := by
  rw [canonical_concat_nil] at h ⊢
  rw [canonical_eq_inner hlast fun name hname => h name (by rw [List.getLast?_append, hname]; rfl)]

/-- The separator makes no difference, but for a drive without one. -/
lemma normalize_slash {rest : List Bytes} (hlast : rest.getLast? ≠ some []) (hne : rest ≠ [])
    (hdrive : ∀ letter, rest ≠ [[letter, ch ':']])
    (h : ∀ name, (normalize env (rest ++ [[]])).getLast? = some name → Trimmed name) :
    normalize env rest = normalize env (rest ++ [[]]) := by
  match rest, hne with
  | [[]], _ => exact absurd rfl hlast
  | [[], []], _ => exact absurd rfl hlast
  | [] :: [] :: server :: more, _ =>
    have hlast' : (server :: more).getLast? ≠ some [] := getLast?_of_cons (getLast?_of_cons hlast)
    by_cases hdevice : server = str "." ∨ server = str "?"
    · simp only [List.cons_append, normalize_device hdevice] at h ⊢
      exact append_canonical_slash [] (getLast?_of_cons hlast') h
    · cases more with
      | nil =>
        have hserver : server ≠ [] := fun hnil => hlast' (by rw [hnil]; rfl)
        simp only [List.cons_append, List.nil_append, normalize_share hdevice]
        simp [hserver]
      | cons share more =>
        simp only [List.cons_append, normalize_share hdevice, List.drop_succ_cons, List.drop_zero,
          List.take_succ_cons, List.take_zero] at h ⊢
        exact append_canonical_slash (str "unc" :: [server, share].filter (· ≠ []))
          (getLast?_of_cons (getLast?_of_cons hlast')) h
  | [] :: (c :: tail) :: more, _ =>
    simp only [List.cons_append, normalize_rooted] at h ⊢
    exact append_canonical_slash _ (getLast?_of_cons hlast) h
  | (letter :: colon :: tail) :: more, _ =>
    have hfollow : more ++ [[]] ≠ [] := by simp
    simp only [List.cons_append, normalize_drive, hfollow, ne_eq, not_false_eq_true, and_true] at h ⊢
    by_cases hcolon : colon = ch ':'
    · rw [if_pos hcolon] at h ⊢
      rw [if_pos hcolon]
      by_cases htail : tail = []
      · have hne : more ≠ [] := by
          rintro rfl
          exact hdrive letter (by rw [hcolon, htail])
        rw [if_pos htail] at h ⊢
        rw [if_pos ⟨htail, hne⟩]
        exact append_canonical_slash [[letter, colon]] (getLast?_of_cons hlast) h
      · rw [if_neg htail] at h ⊢
        rw [if_neg fun h => htail h.1]
        rw [← List.cons_append, ← List.append_assoc] at h ⊢
        exact append_canonical_slash [[letter, colon]]
          (getLast?_append_cons _ htail (getLast?_of_cons hlast)) h
    · rw [if_neg hcolon] at h ⊢
      rw [if_neg hcolon]
      rw [← List.cons_append, ← List.append_assoc] at h ⊢
      exact append_canonical_slash _
        (getLast?_append_cons _ (List.cons_ne_nil _ _) (getLast?_of_cons hlast)) h
  | [letter] :: more, _ =>
    simp only [List.cons_append, normalize_relative] at h ⊢
    rw [← List.cons_append, ← List.append_assoc] at h ⊢
    exact append_canonical_slash _
      (getLast?_append_cons _ (List.cons_ne_nil _ _) (getLast?_of_cons hlast)) h

/-- The path is a drive without a separator, and the current directory of the drive is not its
root. -/
def Strayed (env : Env) (path : Bytes) : Prop :=
  ∃ letter, path = [letter, ch ':'] ∧ full env path ≠ full env (slashed path)

/-- **What is found behind a path is found where the path leads**: a separator at its end makes no
difference, if a name that stays as it is is the last one with it. -/
lemma full_eq_slashed (hpath : path ≠ []) (hdrive : ¬Strayed env path)
    (h : ∀ name, (full env (slashed path)).getLast? = some name → Plain name) :
    full env path = full env (slashed path) := by
  by_cases hend : path ≠ [] ∧ isSeparator (path.getLastD 0) = true
  · rw [slashed, if_pos hend, List.append_nil]
  have hslashed : slashed path = path ++ [ch '\\'] := by rw [slashed, if_neg hend]
  have hunended : ∀ {text : Bytes}, text ≠ [] → text.getLastD 0 = path.getLastD 0 →
      (pieces text).getLast? ≠ some [] := by
    intro text hne hlast hnil
    rcases ends_of_pieces hnil with rfl | ⟨left, c, hc, rfl⟩
    · exact hne rfl
    · rw [List.getLastD_concat] at hlast
      rw [isSeparator_eq, hlast] at hc
      exact hend ⟨hpath, hc⟩
  have hpieces : ∀ text : Bytes, pieces (text ++ [ch '\\']) = pieces text ++ [[]] := fun text => by
    rw [pieces_append (by decide), pieces_nil]
  by_cases hletter : ∃ letter, path = [letter, ch ':']
  · obtain ⟨letter, hletter⟩ := hletter
    by_contra hne
    exact hdrive ⟨letter, hletter, hne⟩
  rw [hslashed] at h ⊢
  by_cases hverbatim : Verbatim path
  · have hlen := length_of_verbatim hverbatim
    have hall : Verbatim (path ++ [ch '\\']) := by
      rw [Verbatim, List.take_append_of_le_length hlen]
      exact hverbatim
    have hbehind : path.drop 4 ≠ [] := by
      intro hnil
      have hpath' : path = str "\\\\?\\" := by
        rw [← List.take_append_drop 4 path, hnil, List.append_nil]
        exact hverbatim
      exact hend ⟨hpath, by rw [hpath']; decide⟩
    have hlast : (path.drop 4).getLastD 0 = path.getLastD 0 := by
      rw [List.getLastD_eq_getLast?, List.getLastD_eq_getLast?, List.getLast?_drop, if_neg]
      intro hle
      exact hbehind (List.drop_eq_nil_of_le hle)
    have hslash : ch '/' ∈ path.drop 4 ++ [ch '\\'] ↔ ch '/' ∈ path.drop 4 := by
      rw [List.mem_append, or_iff_left (by decide)]
    rw [full_of_verbatim hverbatim, full_of_verbatim hall, List.drop_append_of_le_length hlen]
    refine congrArg (List.map fold) ?_
    rw [literal, literal, hpieces, List.getLast?_concat, if_pos rfl, List.dropLast_concat,
      if_neg (hunended hbehind hlast)]
    simp only [hslash]
  · by_cases hall : Verbatim (path ++ [ch '\\'])
    · have hpath' : path = str "\\\\?" := by
        have hlt : path.length < 4 := by
          by_contra hlen
          rw [Verbatim, List.take_append_of_le_length (by omega)] at hall
          exact hverbatim hall
        rw [Verbatim, List.take_of_length_le (by simp; omega)] at hall
        exact List.append_cancel_right (hall.trans (by decide : _ = str "\\\\?" ++ [ch '\\']))
      rw [full_of_not_verbatim hverbatim, full_of_verbatim hall, hpath']
      have hpieces' : pieces (str "\\\\?") = [[], [], str "?"] := by decide
      rw [hpieces', normalize_device (Or.inr rfl)]
      decide
    · rw [full_of_not_verbatim hall] at h
      rw [full_of_not_verbatim hverbatim, full_of_not_verbatim hall, hpieces]
      rw [hpieces] at h
      refine congrArg (List.map fold) (normalize_slash (hunended hpath rfl) (pieces_ne_nil path)
        (fun letter hpath' => hletter ⟨letter, eq_of_pieces_eq_singleton hpath'⟩) fun name hname => ?_)
      refine Trimmed.of_fold (h (fold name) ?_).trim
      rw [List.getLast?_map, hname]
      rfl

/-! ### What has a path -/

lemma joinPath_ne_nil (hname : Plain name) (h : joinPath path name = some entryPath) :
    entryPath ≠ [] := by
  rw [eq_of_joinPath h]
  exact List.append_ne_nil_of_right_ne_nil _ hname.isName.1

lemma length_joinPath (hname : name ≠ []) (h : joinPath path name = some entryPath) :
    path.length < entryPath.length ∧ entryPath.length < pathSize := by
  have hpos := List.length_pos_of_ne_nil hname
  simp only [joinPath] at h
  split_ifs at h with hend hlen hlen <;> rw [Option.some.injEq] at h <;> subst h <;>
    refine ⟨?_, hlen⟩ <;> simp only [List.length_append] <;> omega

lemma slashed_ne_nil (path : Bytes) : slashed path ≠ [] := by
  obtain ⟨left, c, -, heq⟩ := exists_slashed_eq path
  rw [heq]
  exact List.concat_ne_nil _ _

lemma locate_ne_nil {v : Volume Bytes} {o : Object Bytes} (h : locate env path v = some o) :
    path ≠ [] ∧ full env path ≠ [] := by
  unfold locate at h
  split_ifs at h with hne
  refine ⟨hne, fun hfull => ?_⟩
  rw [hfull] at h
  exact absurd h (by simp [Volume.locate])

lemma locate_eq (hne : path ≠ []) (v : Volume Bytes) :
    locate env path v = v.locate 0 (full env path) := if_neg hne

/-- What has the path, with a separator at its end and without. -/
structure At (env : Env) (path : Bytes) (v : Volume Bytes) (found : Option (Object Bytes)) :
    Prop where
  bare : locate env path v = found
  slashed : locate env (slashed path) v = found

/-- An entry of the directory that is found behind a path has the path that its name is joined
to. -/
lemma locate_entry {v : Volume Bytes} {o : Object Bytes} {d : ℕ} {item : Item}
    (ho : locate env (slashed path) v = some o) (hleads : o.item.leadsTo = some d)
    (hname : Plain name) (hmem : (name, item) ∈ v.entries d)
    (hjoin : joinPath path name = some entryPath) :
    At env entryPath v (some ⟨d, name, item⟩) := by
  obtain ⟨hne, hfull⟩ := locate_ne_nil ho
  rw [locate_eq hne] at ho
  have hentry : locate env entryPath v = some ⟨d, name, item⟩ := by
    rw [locate_eq (joinPath_ne_nil hname hjoin), full_joinPath (noSlash_of_ne_nil hfull) hname hjoin]
    refine Volume.locate_of_enter ?_ hmem
    rw [v.enter_eq_locate 0 hfull, ho, Option.bind_some, hleads]
  refine ⟨hentry, ?_⟩
  rw [locate_eq (joinPath_ne_nil hname hjoin)] at hentry
  rw [locate_eq (slashed_ne_nil entryPath),
    full_slashed_joinPath (noSlash_of_ne_nil hfull) hname hjoin, hentry]

/-- Nothing has a path that goes on from where nothing is. -/
lemma locate_entry_eq_none {v : Volume Bytes} (hfull : full env (slashed path) ≠ [])
    (ho : locate env (slashed path) v = none) (hname : Plain name)
    (hjoin : joinPath path name = some entryPath) : At env entryPath v none := by
  rw [locate_eq (slashed_ne_nil path)] at ho
  have hnone : v.locate 0 (full env entryPath) = none := by
    rw [full_joinPath (noSlash_of_ne_nil hfull) hname hjoin]
    exact Volume.locate_append_eq_none hfull ho
  refine ⟨?_, ?_⟩
  · rw [locate_eq (joinPath_ne_nil hname hjoin), hnone]
  · rw [locate_eq (slashed_ne_nil entryPath),
      full_slashed_joinPath (noSlash_of_ne_nil hfull) hname hjoin, hnone]

lemma locate_le {v w : Volume Bytes} (h : v ≤ w) {o : Object Bytes}
    (ho : locate env path v = some o) : locate env path w = some o := by
  have hne := (locate_ne_nil ho).1
  rw [locate_eq hne] at ho ⊢
  exact locate_mono h ho

/-- **What is found behind a path has the path**, unless that is a drive with another current
directory than its root. -/
lemma locate_of_slashed {disk : Disk} {o : Object Bytes} (hpath : path ≠ [])
    (hdrive : ¬Strayed env path) (h : locate env (slashed path) disk.volume = some o) :
    locate env path disk.volume = some o := by
  rw [locate_eq (slashed_ne_nil path)] at h
  have hplain : ∀ name, (full env (slashed path)).getLast? = some name → Plain name := by
    intro name hname
    obtain ⟨names, hnames⟩ := List.getLast?_eq_some_iff.1 hname
    rw [hnames, Volume.locate_concat] at h
    simp only [Option.bind_eq_some_iff, Option.map_eq_some_iff] at h
    obtain ⟨dir, -, item, hfind, -⟩ := h
    exact disk.plain dir _ (Volume.find_eq_some.1 hfind)
  rw [locate_eq hpath, full_eq_slashed hpath hdrive hplain, h]

end Wpm.Archive.RemoveTree
