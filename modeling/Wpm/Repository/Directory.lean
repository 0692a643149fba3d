import Wpm.Repository.Locator

/-!
The repositories that are directories.

The path of a directory is kept as its volume and the names that the operating system leaves as they
are (`rootName`). The item of a package and a link of an index are joined to it, and what is made of
a link is again such a path, with more names (`normalize_path_join`).
-/

namespace Wpm.Repository

open Wpm.Lib.CString Wpm.Lib.FilePath
open Wpm.Archive (pathSize)

variable {fullPath : Bytes → Option Bytes} {v : Volume} {names : List Bytes}

/-- The path of a directory, as it is kept: a drive keeps the separator after it. -/
def rootName : Volume → List Bytes → Bytes
  | .drive letter, [] => [letter, ch ':', ch '\\']
  | v, names => fullName v names

/-- What starts with a volume is no web address. -/
lemma isWebRepository_volume (v : Volume) (path : Bytes) :
    isWebRepository (v.text ++ path) = false := by
  have hhttp : ∀ {n : ℕ} {source : Bytes} {t : Bytes}, fold (source.take (n + 2)) =
      ch 'h' :: ch 't' :: t → lower (cur source) = ch 'h' ∧ lower (cur source.tail) = ch 't' := by
    intro n source t h
    match source with
    | [] => exact absurd h (List.cons_ne_nil _ _).symm
    | [c] =>
      rw [List.take_succ_cons, List.take_nil, fold_cons] at h
      exact absurd (List.cons.inj h).2 (List.cons_ne_nil _ _).symm
    | c :: d :: source =>
      rw [List.take_succ_cons, List.take_succ_cons, fold_cons, fold_cons, List.cons.injEq,
        List.cons.injEq] at h
      exact ⟨h.1, h.2.1⟩
  have hstart : ¬ (lower (cur (v.text ++ path)) = ch 'h' ∧
      lower (cur (v.text ++ path).tail) = ch 't') := by
    rintro ⟨h1, h2⟩
    cases v with
    | drive letter => exact absurd h2 (by change ¬ lower (ch ':') = ch 't'; decide)
    | share server name => exact absurd h1 (by change ¬ lower (ch '\\') = ch 'h'; decide)
  by_contra h
  rw [Bool.not_eq_false, isWebRepository, Bool.or_eq_true] at h
  rcases h with h | h
  · exact hstart (@hhttp 6 _ (str "tps://") (of_decide_eq_true h))
  · exact hstart (@hhttp 5 _ (str "tp://") (of_decide_eq_true h))

lemma exists_not_isSeparator (hv : v.Proper) : ∃ c ∈ v.text, isSeparator c = false := by
  cases v with
  | drive letter => exact ⟨letter, List.mem_cons_self, not_isSeparator_of_isAlpha hv⟩
  | share server name =>
    obtain ⟨hserver, -, -, hunbroken, -⟩ := hv
    obtain ⟨c, hc⟩ := List.exists_mem_of_ne_nil _ hserver.1
    exact ⟨c, by simp [Volume.text, hc], hunbroken c hc⟩

/-- A path of names does not end in a separator. -/
lemma getLast?_append_flatMap (hsettled : Settled names) {text : Bytes}
    (htext : text.getLast? ≠ some (ch '\\')) :
    (text ++ names.flatMap fun name => ch '\\' :: name).getLast? ≠ some (ch '\\') := by
  induction names using List.reverseRecOn with
  | nil => simpa using htext
  | append_singleton names name _ =>
    have hmem : name ∈ names ++ [name] := List.mem_append_right _ List.mem_cons_self
    have hne := (hsettled.isName name hmem).1
    rw [List.flatMap_append, List.flatMap_singleton, ← List.append_assoc,
      List.append_cons (text ++ _), List.getLast?_append_of_ne_nil _ hne]
    intro hlast
    have hsep := hsettled.unbroken name hmem _ (List.mem_of_getLast? hlast)
    exact absurd hsep (by decide)

lemma text_getLast? (hv : v.Proper) : v.text.getLast? ≠ some (ch '\\') := by
  cases v with
  | drive letter => exact (by decide : ¬ some (ch ':') = some (ch '\\'))
  | share server name =>
    obtain ⟨-, -, hname, -, hunbroken⟩ := hv
    rw [Volume.text, List.append_cons, List.getLast?_append_of_ne_nil _ hname]
    intro hlast
    exact absurd (hunbroken _ (List.mem_of_getLast? hlast)) (by decide)

lemma rdropWhile_separators {path tail : Bytes} (h : path.getLast? ≠ some (ch '\\'))
    (htail : tail = [] ∨ tail = [ch '\\']) :
    (path ++ tail).rdropWhile (· = ch '\\') = path := by
  have hself : path.rdropWhile (· = ch '\\') = path := by
    rw [List.rdropWhile_eq_self_iff]
    intro hne hlast
    rw [decide_eq_true_eq] at hlast
    exact h (by rw [List.getLast?_eq_some_getLast hne, hlast])
  rcases htail with rfl | rfl
  · rw [List.append_nil, hself]
  · rw [List.rdropWhile_concat_pos _ _ _ (by decide), hself]

lemma trimTrailing_append {c : UInt8} (start rest : Bytes) :
    trimTrailing c start.length (start ++ rest) = start ++ rest.rdropWhile (· = c) := by
  rw [trimTrailing, List.take_left, List.drop_left]

/-- Trimming the full path gives the path as it is kept. -/
lemma trimTrailing_drive (hsettled : Settled names) {letter : UInt8} {tail : Bytes}
    (htail : tail = [] ∨ tail = [ch '\\'])
    (hlen : 3 ≤ (fullName (.drive letter) names ++ tail).length) :
    trimTrailing (ch '\\') 3 (fullName (.drive letter) names ++ tail) =
      rootName (.drive letter) names := by
  cases names with
  | nil =>
    rcases htail with rfl | rfl
    · exact absurd hlen (by simp [fullName, Volume.text])
    · rfl
  | cons name names =>
    have hrest : (name ++ names.flatMap fun name => ch '\\' :: name).getLast? ≠
        some (ch '\\') := by
      refine getLast?_append_flatMap ⟨fun x hx => hsettled.isName x (List.mem_cons_of_mem _ hx),
        fun x hx => hsettled.unbroken x (List.mem_cons_of_mem _ hx),
        fun x hx => hsettled.trimmed x (List.mem_cons_of_mem _ hx)⟩ fun hlast => ?_
      exact absurd (hsettled.unbroken name List.mem_cons_self _ (List.mem_of_getLast? hlast))
        (by decide)
    have hfull : fullName (.drive letter) (name :: names) ++ tail = [letter, ch ':', ch '\\'] ++
        (name ++ names.flatMap (fun name => ch '\\' :: name) ++ tail) := by
      simp [fullName, Volume.text]
    rw [hfull]
    refine (trimTrailing_append [letter, ch ':', ch '\\'] _).trans ?_
    rw [rdropWhile_separators hrest htail]
    simp [rootName, fullName, Volume.text]

lemma trimTrailing_share {server name : Bytes} (hv : (Volume.share server name).Proper)
    (hsettled : Settled names) {tail : Bytes} (htail : tail = [] ∨ tail = [ch '\\']) :
    trimTrailing (ch '\\') 2 (fullName (.share server name) names ++ tail) =
      rootName (.share server name) names := by
  obtain ⟨-, -, hname, -, hunbroken⟩ := hv
  have hrest : (server ++ ch '\\' :: name ++ names.flatMap fun name => ch '\\' :: name).getLast? ≠
      some (ch '\\') := by
    refine getLast?_append_flatMap hsettled ?_
    rw [List.append_cons, List.getLast?_append_of_ne_nil _ hname]
    intro hlast
    exact absurd (hunbroken _ (List.mem_of_getLast? hlast)) (by decide)
  have hfull : fullName (.share server name) names ++ tail = [ch '\\', ch '\\'] ++
      (server ++ ch '\\' :: name ++ names.flatMap (fun name => ch '\\' :: name) ++ tail) := by
    simp [fullName, Volume.text]
  rw [hfull]
  refine (trimTrailing_append [ch '\\', ch '\\'] _).trans ?_
  rw [rdropWhile_separators hrest htail]
  simp [rootName, fullName, Volume.text]

/-- The name of a device is refused. -/
lemma uncLocatorValid_device {path : Bytes}
    (h : path.take 4 ∈ [str "\\\\.\\", str "\\\\?\\"]) : uncLocatorValid path = false := by
  have hpath : ∃ c, (c = ch '.' ∨ c = ch '?') ∧ ∃ rest, path = ch '\\' :: ch '\\' :: c :: rest := by
    rw [← List.take_append_drop 4 path]
    simp only [List.mem_cons, List.not_mem_nil, or_false] at h
    rcases h with h | h <;> rw [h]
    · exact ⟨ch '.', Or.inl rfl, _, rfl⟩
    · exact ⟨ch '?', Or.inr rfl, _, rfl⟩
  obtain ⟨c, hc, rest, rfl⟩ := hpath
  rcases hc with rfl | rfl <;> simp [uncLocatorValid]

/-- What `repository_normalize` makes of the path that it gets from the operating system. -/
inductive Trimmed (path result : Bytes) : Prop
  | share (h : uncLocatorValid path = true) (heq : result = trimTrailing (ch '\\') 2 path)
  | drive (h : path.take 2 ≠ str "\\\\") (hlen : 3 ≤ path.length)
      (hletter : isAlpha (cur path) = true) (hcolon : path.tail.take 2 = [ch ':', ch '\\'])
      (heq : result = trimTrailing (ch '\\') 3 path)

lemma exists_trimmed {source result : Bytes} (hweb : isWebRepository source = false)
    (h : repositoryNormalize fullPath source = some result) :
    ∃ path, fullPath source = some path ∧ Trimmed (unify path) result := by
  unfold repositoryNormalize at h
  have hnot : ¬ isWebRepository source = true := Bool.eq_false_iff.1 hweb
  by_cases h1 : source = [] ∨ source.any (· ∈ [9, 13, 10])
  · rw [if_pos h1] at h
    exact absurd h (by simp)
  rw [if_neg h1, if_neg hnot] at h
  by_cases h2 : (strstr (str "://") source).isSome = true
  · rw [if_pos h2] at h
    exact absurd h (by simp)
  rw [if_neg h2, Option.bind_eq_bind, Option.bind_eq_some_iff] at h
  obtain ⟨path, hpath, h⟩ := h
  refine ⟨path, hpath, ?_⟩
  dsimp only at h
  split_ifs at h with h3 h4 h5 h6 h7
  · exact .share h5 (Option.some.inj h).symm
  · simp only [not_or, not_lt, Bool.not_eq_false, not_not] at h6
    exact .drive h4 h6.1 h6.2.1 h6.2.2 (Option.some.inj h).symm

/-- **What is kept of a path that starts with a volume.** -/
theorem normalize_path (hfull : FullPathName fullPath) {source result : Bytes} {rest : List Bytes}
    (hq : Qualified source v rest) (hweb : isWebRepository source = false)
    (h : repositoryNormalize fullPath source = some result) :
    result = rootName v (canonical rest) := by
  have hunbroken : ∀ piece ∈ rest, Unbroken piece := fun piece hp =>
    @unbroken_of_mem_pieces _ source (hq.pieces_eq ▸ List.mem_append_right _ hp)
  have hsettled := settled_canonical hunbroken
  obtain ⟨path, hpath, htrim⟩ := exists_trimmed hweb h
  rcases hfull.qualified source v rest path hq hpath with hdevice | hname
  · have hinvalid := uncLocatorValid_device hdevice
    cases htrim with
    | share hvalid _ => exact absurd (hinvalid.symm.trans hvalid) Bool.false_ne_true
    | drive hstart _ _ _ _ =>
      -- the name of a device starts with two separators
      refine absurd ?_ hstart
      have htake : ((unify path).take 4).take 2 = (unify path).take 2 := by
        rw [List.take_take]
        rfl
      rw [← htake]
      simp only [List.mem_cons, List.not_mem_nil, or_false] at hdevice
      rcases hdevice with h4 | h4 <;> rw [h4] <;> rfl
  · obtain ⟨tail, htail, hname⟩ : ∃ tail, (tail = [] ∨ tail = [ch '\\']) ∧
        unify path = fullName v (canonical rest) ++ tail := by
      rcases hname with hname | hname
      · exact ⟨[], Or.inl rfl, by rw [hname, List.append_nil]⟩
      · exact ⟨[ch '\\'], Or.inr rfl, hname⟩
    rw [hname] at htrim
    have hproper := hq.proper
    cases v with
    | drive letter =>
      cases htrim with
      | share hvalid _ =>
        have hletter : letter = ch '\\' := by
          simp only [fullName, Volume.text, List.cons_append, uncLocatorValid, Bool.and_eq_true,
            decide_eq_true_eq] at hvalid
          exact hvalid.1.1.1.1.1
        subst hletter
        exact absurd hproper (by change ¬ isAlpha (ch '\\') = true; decide)
      | drive _ hlen _ _ heq => rw [heq, trimTrailing_drive hsettled htail hlen]
    | share server name =>
      cases htrim with
      | share _ heq => rw [heq, trimTrailing_share hproper hsettled htail]
      | drive hstart _ _ _ _ => exact absurd rfl hstart

/-- The path that is kept starts with a volume. -/
theorem Trimmed.exists_qualified {path result : Bytes} (h : Trimmed path result)
    (hslash : ch '/' ∉ path) : ∃ v rest, Qualified result v rest := by
  have hback : isSeparator (ch '\\') = true := by decide
  cases h with
  | share hvalid heq =>
    obtain ⟨a, b, text, rfl⟩ : ∃ a b text, path = a :: b :: text := by
      rcases path with _ | ⟨a, _ | ⟨b, text⟩⟩
      · exact absurd hvalid Bool.false_ne_true
      · exact absurd hvalid Bool.false_ne_true
      · exact ⟨a, b, text, rfl⟩
    rw [uncLocatorValid] at hvalid
    simp only [Bool.and_eq_true, decide_eq_true_eq] at hvalid
    obtain ⟨⟨⟨⟨⟨rfl, rfl⟩, hdot⟩, hmark⟩, hnone⟩, hcut⟩ := hvalid
    cases hsplit : cutAt (ch '\\') text with
    | none => rw [hsplit] at hcut; exact absurd hcut Bool.false_ne_true
    | some p =>
      obtain ⟨server, share⟩ := p
      rw [hsplit] at hcut
      simp only [Bool.and_eq_true, decide_eq_true_eq] at hcut
      obtain ⟨⟨hserver, hne⟩, hshare⟩ := hcut
      obtain ⟨rfl, hbroken⟩ := cutAt_eq_some.1 hsplit
      obtain ⟨c, share, rfl⟩ := List.exists_cons_of_ne_nil hne
      rw [cur_cons] at hshare
      obtain ⟨s, server, rfl⟩ := List.exists_cons_of_ne_nil hserver
      simp only [List.mem_cons, List.mem_append, not_or] at hslash hbroken
      rw [List.cons_append, cur_cons] at hdot hmark
      -- the share has a character that stays
      have hlast : ∀ hne : (s :: server) ++ [ch '\\', c] ≠ [],
          decide ((s :: server ++ [ch '\\', c]).getLast hne = ch '\\') = false := by
        intro hne
        simp [hshare]
      have htrim : result = ch '\\' :: ch '\\' :: ((s :: server) ++ ch '\\' ::
          c :: share.rdropWhile (· = ch '\\')) := by
        have hdrop := rdropWhile_append (p := (· = ch '\\')) hlast share
        rw [heq]
        refine (trimTrailing_append [ch '\\', ch '\\'] _).trans ?_
        rw [List.append_assoc, List.append_assoc] at hdrop
        exact congrArg (fun text => ch '\\' :: ch '\\' :: text) hdrop
      have hunbroken : Unbroken (s :: server) := by
        intro d hd
        rw [isSeparator, decide_eq_false_iff_not, not_or]
        constructor <;> rintro rfl <;> rcases List.mem_cons.1 hd with heq | hmem
        · exact hbroken.1 heq
        · exact hbroken.2 hmem
        · exact hslash.2.2.1.1 heq
        · exact hslash.2.2.1.2 hmem
      have hc : ¬ isSeparator c = true := by
        rw [isSeparator, decide_eq_true_eq, not_or]
        exact ⟨hshare, Ne.symm hslash.2.2.2.2.1⟩
      obtain ⟨first, more, hmore⟩ : ∃ first more,
          pieces (c :: share.rdropWhile (· = ch '\\')) = (c :: first) :: more := by
        rw [pieces, List.splitOnP_cons_eq_if_modifyHead, if_neg hc]
        cases hp : List.splitOnP isSeparator (share.rdropWhile (· = ch '\\')) with
        | nil => exact absurd hp (List.splitOnP_ne_nil _ _)
        | cons first more => exact ⟨first, more, rfl⟩
      refine ⟨.share (s :: server) (c :: first), more, ⟨⟨hserver, ?_, ?_⟩, ?_, ?_, hunbroken, ?_⟩,
        ?_, fun _ h => Volume.noConfusion h⟩
      · exact fun h => hdot (List.cons.inj h).1
      · exact fun h => hdot (List.cons.inj h).1
      · exact fun h => hmark (List.cons.inj h).1
      · exact List.cons_ne_nil _ _
      · exact unbroken_of_mem_pieces (hmore ▸ List.mem_cons_self)
      · rw [htrim, pieces_cons hback, pieces_cons hback, pieces_append hback,
          pieces_eq_singleton hunbroken, hmore]
        rfl
  | drive _ hlen hletter hcolon heq =>
    obtain ⟨letter, colon, slash, rest, rfl⟩ :
        ∃ letter colon slash rest, path = letter :: colon :: slash :: rest := by
      rcases path with _ | ⟨letter, _ | ⟨colon, _ | ⟨slash, rest⟩⟩⟩
      · exact absurd hlen (by simp)
      · exact absurd hlen (by simp)
      · exact absurd hlen (by simp)
      · exact ⟨letter, colon, slash, rest, rfl⟩
    rw [List.tail_cons, List.take_succ_cons, List.take_succ_cons, List.take_zero,
      List.cons.injEq, List.cons.injEq] at hcolon
    obtain ⟨rfl, rfl, -⟩ := hcolon
    rw [cur_cons] at hletter
    have htrim := trimTrailing_append (c := ch '\\') [letter, ch ':', ch '\\'] rest
    refine ⟨.drive letter, pieces (rest.rdropWhile (· = ch '\\')), hletter, ?_, ?_⟩
    · have hunbroken : Unbroken [letter, ch ':'] := by
        intro c hc
        rcases List.mem_cons.1 hc with rfl | hc
        · exact not_isSeparator_of_isAlpha hletter
        · rw [List.mem_singleton] at hc
          subst hc
          decide
      rw [heq]
      refine (congrArg pieces htrim).trans ?_
      refine (pieces_append hback [letter, ch ':'] _).trans ?_
      rw [pieces_eq_singleton hunbroken]
      rfl
    · exact fun _ _ => pieces_ne_nil _

/-! ### What is joined to a directory -/

/-- The path of a repository that is kept: a volume, and names that are settled under it. -/
structure Directory (root : Bytes) (v : Volume) (names : List Bytes) : Prop where
  proper : v.Proper
  settled : Settled names
  root_eq : root = rootName v names

lemma Directory.isWebRepository_eq {root : Bytes} (h : Directory root v names) :
    isWebRepository root = false := by
  rw [h.root_eq]
  cases v with
  | drive letter =>
    cases names with
    | nil => exact isWebRepository_volume (.drive letter) [ch '\\']
    | cons name names => exact isWebRepository_volume _ _
  | share server name => exact isWebRepository_volume _ _

/-- A locator that is configured as it is kept. -/
theorem exists_directory (hfull : FullPathName fullPath) {source result : Bytes}
    (hweb : isWebRepository source = false)
    (h : repositoryNormalize fullPath source = some result) (hfold : fold source = fold result) :
    ∃ v names, Directory result v names := by
  obtain ⟨path, -, htrim⟩ := exists_trimmed hweb h
  obtain ⟨v, rest, hq⟩ := htrim.exists_qualified (slash_notMem_unify path)
  obtain ⟨v, rest, hq⟩ := hq.of_fold_eq hfold.symm
  have hunbroken : ∀ piece ∈ rest, Unbroken piece := fun piece hp =>
    @unbroken_of_mem_pieces _ source (hq.pieces_eq ▸ List.mem_append_right _ hp)
  exact ⟨v, canonical rest, hq.proper, settled_canonical hunbroken, normalize_path hfull hq hweb h⟩

lemma Directory.joinPath_eq {root item path : Bytes} (h : Directory root v names)
    (hjoin : joinPath root item = some path) : path = fullName v names ++ ch '\\' :: item := by
  have hlast : (fullName v names).getLast? ≠ some (ch '\\') :=
    getLast?_append_flatMap h.settled (text_getLast? h.proper)
  have hplain : rootName v names = fullName v names →
      path = fullName v names ++ ch '\\' :: item := by
    intro hroot
    have hslash : ¬ (fullName v names).getLastD 0 = ch '\\' := by
      rw [List.getLastD_eq_getLast?]
      cases hl : (fullName v names).getLast? with
      | none => exact (by decide : ¬ (0 : UInt8) = ch '\\')
      | some c =>
        rintro rfl
        exact hlast hl
    rw [h.root_eq, hroot, joinPath, if_neg hslash] at hjoin
    split_ifs at hjoin
    rw [← Option.some.inj hjoin, List.append_assoc, List.singleton_append]
  cases v with
  | share server name => exact hplain rfl
  | drive letter =>
    cases names with
    | cons name names => exact hplain rfl
    | nil =>
      rw [h.root_eq, joinPath] at hjoin
      split_ifs at hjoin with h1 h2
      · exact (Option.some.inj hjoin).symm
      · exact absurd rfl h1

/-- The pieces of a safe item are names. -/
lemma isName_of_safeRelativeItem {item : Bytes} (h : safeRelativeItem item = true) :
    ∀ piece ∈ pieces item, IsName piece := by
  rw [safeRelativeItem, Bool.and_eq_true, List.all_eq_true] at h
  intro piece hp
  have hpiece := h.2 piece hp
  rw [Bool.and_eq_true, Bool.and_eq_true, decide_eq_true_eq, decide_eq_true_eq,
    decide_eq_true_eq] at hpiece
  exact ⟨hpiece.1.1, hpiece.1.2, hpiece.2⟩

/-- **What is joined to a directory is beneath it.** -/
theorem Directory.beneath_join {root item path : Bytes} (h : Directory root v names)
    (hitem : ∀ piece ∈ pieces item, IsName piece) (hjoin : joinPath root item = some path) :
    Beneath root path := by
  have hback : isSeparator (ch '\\') = true := by decide
  obtain ⟨c, hc, hsep⟩ := exists_not_isSeparator h.proper
  have hfull : ∃ c ∈ fullName v names, isSeparator c = false :=
    ⟨c, List.mem_append_left _ hc, hsep⟩
  rw [h.joinPath_eq hjoin, h.root_eq]
  cases v with
  | share server name => exact beneath_append hback hfull hitem
  | drive letter =>
    cases names with
    | cons name names => exact beneath_append hback hfull hitem
    | nil => exact @beneath_append_of_separator [letter, ch ':'] _ _ hback hfull hitem

/-- **What is kept of a link is a directory again**, with the names of the link as they settle. -/
theorem Directory.normalize_join (hfull : FullPathName fullPath) {root item path result : Bytes}
    (h : Directory root v names) (hitem : ∀ piece ∈ pieces item, IsName piece)
    (hjoin : joinPath root item = some path)
    (hresult : repositoryNormalize fullPath path = some result) :
    Directory result v (names ++ settle (pieces item)) := by
  have hpath := h.joinPath_eq hjoin
  have hunbroken : ∀ piece ∈ names ++ pieces item, Unbroken piece := by
    intro piece hp
    rcases List.mem_append.1 hp with hp | hp
    · exact h.settled.unbroken piece hp
    · exact unbroken_of_mem_pieces hp
  have hcanonical := h.settled.canonical_append (pieces_ne_nil item) hitem
  have hq : Qualified path v (names ++ pieces item) := by
    refine ⟨h.proper, ?_, fun _ _ hnil => ?_⟩
    · rw [hpath, pieces_append (by decide), pieces_fullName h.proper h.settled.unbroken,
        List.append_assoc]
    · exact pieces_ne_nil item (List.append_eq_nil_iff.1 hnil).2
  have hweb : isWebRepository path = false := by
    rw [hpath, fullName, List.append_assoc]
    exact isWebRepository_volume v _
  have heq := normalize_path hfull hq hweb hresult
  have hsettled := settled_canonical hunbroken
  rw [hcanonical] at heq hsettled
  exact ⟨h.proper, hsettled, heq⟩

/-- A directory with more names is beneath. -/
theorem Directory.beneath {root path : Bytes} {more : List Bytes} (h : Directory root v names)
    (hpath : Directory path v (names ++ more)) (hmore : more ≠ []) : Beneath root path := by
  obtain ⟨c, hc, hsep⟩ := exists_not_isSeparator h.proper
  have htext : ∃ c ∈ v.text, isSeparator c = false := ⟨c, hc, hsep⟩
  -- the separator that a drive keeps makes no difference to the walk
  have hroot : ∀ {root : Bytes} {names : List Bytes}, Directory root v names →
      root.takeWhile isSeparator = v.text.takeWhile isSeparator ∧
        resolve root = v.pieces.foldl enter [] ++ names := by
    intro root names h
    have hfull : resolve (fullName v names) = v.pieces.foldl enter [] ++ names := by
      rw [resolve, pieces_fullName h.proper h.settled.unbroken, List.foldl_append,
        foldl_enter_of_isName h.settled.isName]
    have hstart : (fullName v names).takeWhile isSeparator = v.text.takeWhile isSeparator :=
      takeWhile_append_of_exists htext _
    rw [h.root_eq]
    cases v with
    | share server name => exact ⟨hstart, hfull⟩
    | drive letter =>
      cases names with
      | cons name names => exact ⟨hstart, hfull⟩
      | nil =>
        have hslash : rootName (.drive letter) [] = fullName (.drive letter) [] ++ ch '\\' :: [] :=
          rfl
        refine ⟨?_, ?_⟩
        · rw [hslash, takeWhile_append_of_exists (by simpa [fullName] using htext), hstart]
        · rw [hslash, resolve_append (by decide), hfull, pieces_nil]
          rfl
  refine ⟨?_, more, hmore, ?_⟩
  · rw [(hroot h).1, (hroot hpath).1]
  · rw [(hroot h).2, (hroot hpath).2, List.append_assoc]

end Wpm.Repository
