import Wpm.Archive.Path
import Wpm.Lib.FilePath

/-!
The locators of repositories: web addresses and paths of directories.

`repository_normalize` gives the one form in which a locator is kept. Of a web address it keeps the
scheme and the authority (`webOrigin_normalize`); of a path it keeps what the operating system
makes of it, which `normalize_path` says for a path that starts with a volume.
-/

namespace Wpm.Repository

open Wpm.Lib.CString Wpm.Lib.FilePath
open Wpm.Archive (pathSize)

/-! ### Web addresses -/

/-- `is_https_repository`. -/
def isHttpsRepository (source : Bytes) : Bool := fold (source.take 8) = str "https://"

/-- `is_http_repository`. -/
def isHttpRepository (source : Bytes) : Bool := fold (source.take 7) = str "http://"

/-- `is_web_repository`. -/
def isWebRepository (source : Bytes) : Bool := isHttpsRepository source || isHttpRepository source

/-- The length of the scheme, with the slashes after it. -/
def schemeLength (source : Bytes) : ℕ := if isHttpsRepository source then 8 else 7

/-- What comes before the first slash after the scheme. -/
def webAuthority (source : Bytes) : Bytes := spanNot [ch '/'] (source.drop (schemeLength source))

/-- `web_origin_length`. -/
def webOriginLength (source : Bytes) : ℕ :=
  if isWebRepository source then schemeLength source + (webAuthority source).length else 0

/-- `same_web_origin`. -/
def sameWebOrigin (left right : Bytes) : Bool :=
  webOriginLength left ≠ 0 && webOriginLength left = webOriginLength right &&
    fold (left.take (webOriginLength left)) = fold (right.take (webOriginLength left))

/-- `web_locator_valid`. -/
def webLocatorValid (source : Bytes) (schemeLength : ℕ) : Bool :=
  let authority := source.drop schemeLength
  let server := spanNot [ch '/'] authority
  authority ≠ [] && ch '?' ∉ authority && ch '#' ∉ authority &&
    server.all (fun c => c ∉ str "\\@?#") && server ≠ []

/-! ### Paths -/

/-- `unc_locator_valid`. -/
def uncLocatorValid (source : Bytes) : Bool :=
  match source with
  | a :: b :: server =>
    a = ch '\\' && b = ch '\\' && cur server ≠ ch '.' && cur server ≠ ch '?' &&
      cur server ≠ ch '\\' &&
      match cutAt (ch '\\') server with
      | some (name, share) => name ≠ [] && share ≠ [] && cur share ≠ ch '\\'
      | none => false
  | _ => false

/-- A character that is dropped from the end of a string, down to a length. -/
def trimTrailing (c : UInt8) (floor : ℕ) (s : Bytes) : Bytes :=
  s.take floor ++ (s.drop floor).rdropWhile (· = c)

/-- `repository_normalize`, with `GetFullPathNameA`. -/
def repositoryNormalize (fullPath : Bytes → Option Bytes) (source : Bytes) : Option Bytes :=
  if source = [] ∨ source.any (· ∈ [9, 13, 10]) then none
  else if isWebRepository source then
    if source.any (· ∈ [ch ' ', 9, 13, 10]) ∨ pathSize ≤ source.length then none
    else if webLocatorValid source (schemeLength source) = false then none
    else some (trimTrailing (ch '/') (schemeLength source) source)
  else if (strstr (str "://") source).isSome then none
  else do
    let result ← fullPath source
    if pathSize ≤ result.length then none
    else
      let result := unify result
      if result.take 2 = str "\\\\" then
        if uncLocatorValid result then some (trimTrailing (ch '\\') 2 result) else none
      else if result.length < 3 ∨ isAlpha (cur result) = false ∨
          result.tail.take 2 ≠ [ch ':', ch '\\'] then none
      else if ch ':' ∈ result.drop 2 then none
      else some (trimTrailing (ch '\\') 3 result)

/-- `join_path`. -/
def joinPath (left right : Bytes) : Option Bytes :=
  let path := left ++ (if left.getLastD 0 = ch '\\' then [] else [ch '\\']) ++ right
  if path.length < pathSize then some path else none

/-! ### What is derived from a root -/

/-- `safe_relative_item`: no piece of it is empty, `.` or `..`. -/
def safeRelativeItem (item : Bytes) : Bool :=
  item ≠ [] && cur item ≠ ch '/' && cur item ≠ ch '\\' && ch ':' ∉ item &&
    (pieces item).all fun segment => segment ≠ [] && segment ≠ str "." && segment ≠ str ".."

/-- `package_source`. -/
def packageSource (root item : Bytes) : Option Bytes :=
  if isWebRepository root then
    if isHttpsRepository item then
      if isHttpsRepository root ∧ item.length < pathSize then some item else none
    else if isHttpRepository item then
      if isHttpRepository root ∧ sameWebOrigin root item ∧ item.length < pathSize then some item
      else none
    else if safeRelativeItem item then
      let source := root ++ str "/" ++ item
      if source.length < pathSize then some source else none
    else none
  else if safeRelativeItem item then joinPath root item
  else none

/-- `index_source`. A web address that is too long is cut off. -/
def indexSource (root : Bytes) : Option Bytes :=
  if isWebRepository root then some ((root ++ str "/index.json").take (pathSize - 1))
  else joinPath root (str "index.json")

/-- `http_redirect_url`. -/
def httpRedirectUrl (initial location : Bytes) : Option Bytes :=
  if isHttpRepository location then
    if sameWebOrigin initial location ∧ location.length < pathSize then some location else none
  else if isWebRepository location ∨ cur location ≠ ch '/' then none
  else
    let result := initial.take (webOriginLength initial) ++ location
    if result.length < pathSize then some result else none

/-! ### The origin of a web address -/

/-- The scheme, with the slashes after it. -/
def scheme (https : Bool) : Bytes := if https then str "https://" else str "http://"

/-- Whether a web address is one of `https`, and its authority in lower case. -/
def webOrigin (source : Bytes) : Option (Bool × Bytes) :=
  if isHttpsRepository source then some (true, fold (webAuthority source))
  else if isHttpRepository source then some (false, fold (webAuthority source))
  else none

lemma isHttpsRepository_append {start rest : Bytes} (h : fold start = scheme true) :
    isHttpsRepository (start ++ rest) = true := by
  have hlen : start.length = 8 := by rw [← length_fold, h]; decide
  rw [isHttpsRepository, ← hlen, List.take_left, h]
  decide

lemma isHttpRepository_append {start rest : Bytes} (h : fold start = scheme false) :
    isHttpRepository (start ++ rest) = true := by
  have hlen : start.length = 7 := by rw [← length_fold, h]; decide
  rw [isHttpRepository, ← hlen, List.take_left, h]
  decide

lemma isHttpsRepository_eq_false {start rest : Bytes} (h : fold start = scheme false) :
    isHttpsRepository (start ++ rest) = false := by
  have hlen : start.length = 7 := by rw [← length_fold, h]; decide
  by_contra hne
  rw [Bool.not_eq_false, isHttpsRepository, decide_eq_true_eq] at hne
  -- the two schemes differ in their first seven characters
  have htake := congrArg (List.take 7) hne
  rw [fold, ← List.map_take, List.take_take, Nat.min_eq_left (by omega), ← hlen, List.take_left]
    at htake
  rw [fold] at h
  rw [h, hlen] at htake
  exact absurd htake (by decide)

lemma spanNot_append {authority rest : Bytes} (ha : ch '/' ∉ authority)
    (hrest : rest = [] ∨ cur rest = ch '/') : spanNot [ch '/'] (authority ++ rest) = authority := by
  have hall : ∀ c ∈ authority, (decide (c ∉ [ch '/'])) = true := by
    intro c hc
    rw [decide_eq_true_eq, List.mem_singleton]
    rintro rfl
    exact ha hc
  rw [spanNot, List.takeWhile_append_of_pos hall]
  rcases hrest with rfl | hcur
  · exact List.append_nil authority
  · cases rest with
    | nil => exact List.append_nil authority
    | cons c rest =>
      rw [cur_cons] at hcur
      subst hcur
      rw [List.takeWhile_cons_of_neg (by decide), List.append_nil]

/-- The parts of a web address. -/
structure WebParts (https : Bool) (start authority rest : Bytes) : Prop where
  start_eq : fold start = scheme https
  authority_slash : ch '/' ∉ authority
  rest_slash : rest = [] ∨ cur rest = ch '/'

variable {https : Bool} {start authority rest : Bytes}

lemma WebParts.schemeLength_eq (h : WebParts https start authority rest) :
    schemeLength (start ++ authority ++ rest) = start.length := by
  have hlen : start.length = (scheme https).length := by rw [← length_fold, h.start_eq]
  rw [schemeLength, List.append_assoc, hlen]
  have hstart := h.start_eq
  cases https with
  | true => rw [if_pos (isHttpsRepository_append hstart)]; rfl
  | false =>
    rw [if_neg (Bool.eq_false_iff.1 (isHttpsRepository_eq_false hstart))]
    rfl

lemma WebParts.webAuthority_eq (h : WebParts https start authority rest) :
    webAuthority (start ++ authority ++ rest) = authority := by
  rw [webAuthority, h.schemeLength_eq, List.append_assoc, List.drop_left,
    spanNot_append h.authority_slash h.rest_slash]

lemma WebParts.webOrigin_eq (h : WebParts https start authority rest) :
    webOrigin (start ++ authority ++ rest) = some (https, fold authority) := by
  rw [webOrigin, h.webAuthority_eq, List.append_assoc]
  have hstart := h.start_eq
  cases https with
  | true => rw [if_pos (isHttpsRepository_append hstart)]
  | false =>
    rw [if_neg (Bool.eq_false_iff.1 (isHttpsRepository_eq_false hstart)),
      if_pos (isHttpRepository_append hstart)]

lemma WebParts.isWebRepository_eq (h : WebParts https start authority rest) :
    isWebRepository (start ++ authority ++ rest) = true := by
  rw [isWebRepository, List.append_assoc, Bool.or_eq_true]
  have hstart := h.start_eq
  cases https with
  | true => exact Or.inl (isHttpsRepository_append hstart)
  | false => exact Or.inr (isHttpRepository_append hstart)

lemma WebParts.webOriginLength_eq (h : WebParts https start authority rest) :
    webOriginLength (start ++ authority ++ rest) = (start ++ authority).length := by
  rw [webOriginLength, if_pos h.isWebRepository_eq, h.schemeLength_eq, h.webAuthority_eq,
    List.length_append]

/-- **Every web address is in three parts.** -/
lemma exists_webParts {source : Bytes} (h : isWebRepository source = true) :
    ∃ https start authority rest, WebParts https start authority rest ∧
      source = start ++ authority ++ rest := by
  have hsplit : ∀ n, ch '/' ∉ spanNot [ch '/'] (source.drop n) ∧
      ((source.drop n).dropWhile (· ∉ [ch '/']) = [] ∨
        cur ((source.drop n).dropWhile (· ∉ [ch '/'])) = ch '/') ∧
      source = source.take n ++ spanNot [ch '/'] (source.drop n) ++
        (source.drop n).dropWhile (· ∉ [ch '/']) := by
    intro n
    refine ⟨fun hmem => ?_, ?_, ?_⟩
    · have hp := List.mem_takeWhile_imp hmem
      exact absurd hp (by decide)
    · cases hd : (source.drop n).dropWhile (· ∉ [ch '/']) with
      | nil => exact Or.inl rfl
      | cons c rest =>
        right
        have hp := List.head?_dropWhile_not (fun c => decide (c ∉ [ch '/'])) (source.drop n)
        rw [hd] at hp
        simpa using hp
    · rw [List.append_assoc, spanNot, List.takeWhile_append_dropWhile, List.take_append_drop]
  unfold isWebRepository at h
  rw [Bool.or_eq_true] at h
  rcases h with h | h
  · obtain ⟨hslash, hrest, heq⟩ := hsplit 8
    exact ⟨true, _, _, _, ⟨of_decide_eq_true h, hslash, hrest⟩, heq⟩
  · obtain ⟨hslash, hrest, heq⟩ := hsplit 7
    exact ⟨false, _, _, _, ⟨of_decide_eq_true h, hslash, hrest⟩, heq⟩

lemma isHttpsRepository_iff {source : Bytes} :
    isHttpsRepository source = true ↔ ∃ authority, webOrigin source = some (true, authority) := by
  unfold webOrigin
  by_cases h : isHttpsRepository source = true
  · simp [h]
  · simp [h]

lemma isHttpRepository_iff {source : Bytes} :
    isHttpRepository source = true ↔ ∃ authority, webOrigin source = some (false, authority) := by
  constructor
  · intro h
    have hweb : isWebRepository source = true := by rw [isWebRepository, h, Bool.or_true]
    obtain ⟨https, start, authority, rest, hparts, rfl⟩ := exists_webParts hweb
    refine ⟨fold authority, ?_⟩
    rw [hparts.webOrigin_eq]
    cases https with
    | false => rfl
    | true =>
      -- an address of `https` is not one of `http`
      have hstart : fold ((start ++ authority ++ rest).take 8) = str "https://" := by
        have := @isHttpsRepository_append start (authority ++ rest) hparts.start_eq
        rw [← List.append_assoc] at this
        exact of_decide_eq_true this
      have htake := congrArg (List.take 7) hstart
      have h' : fold ((start ++ authority ++ rest).take 7) = str "http://" := of_decide_eq_true h
      rw [fold, ← List.map_take, List.take_take, Nat.min_eq_left (by omega)] at htake
      rw [fold, htake] at h'
      exact absurd h' (by decide)
  · rintro ⟨authority, h⟩
    unfold webOrigin at h
    split_ifs at h with h1 h2
    · exact absurd h (by simp)
    · exact h2

lemma isWebRepository_iff {source : Bytes} :
    isWebRepository source = true ↔ ∃ origin, webOrigin source = some origin := by
  rw [isWebRepository, Bool.or_eq_true, isHttpsRepository_iff, isHttpRepository_iff]
  constructor
  · rintro (⟨authority, h⟩ | ⟨authority, h⟩)
    · exact ⟨_, h⟩
    · exact ⟨_, h⟩
  · rintro ⟨⟨https, authority⟩, h⟩
    cases https with
    | true => exact Or.inl ⟨authority, h⟩
    | false => exact Or.inr ⟨authority, h⟩

/-- What comes after a slash is not part of the origin. -/
lemma webOrigin_append {source more : Bytes} (h : isWebRepository source = true)
    (hmore : more = [] ∨ cur more = ch '/') : webOrigin (source ++ more) = webOrigin source := by
  obtain ⟨https, start, authority, rest, hparts, rfl⟩ := exists_webParts h
  have hrest : rest ++ more = [] ∨ cur (rest ++ more) = ch '/' := by
    cases rest with
    | nil => exact hmore
    | cons c rest =>
      rcases hparts.rest_slash with hnil | hcur
      · exact absurd hnil (List.cons_ne_nil c rest)
      · exact Or.inr hcur
  rw [List.append_assoc, WebParts.webOrigin_eq ⟨hparts.start_eq, hparts.authority_slash, hrest⟩,
    hparts.webOrigin_eq]

lemma webOrigin_eq_of_sameWebOrigin {left right : Bytes} (h : sameWebOrigin left right = true) :
    webOrigin left = webOrigin right := by
  rw [sameWebOrigin, Bool.and_eq_true, Bool.and_eq_true, decide_eq_true_eq, decide_eq_true_eq,
    decide_eq_true_eq] at h
  obtain ⟨⟨hne, hlen⟩, heq⟩ := h
  have hweb : ∀ {source : Bytes}, webOriginLength source ≠ 0 → isWebRepository source = true := by
    intro source h
    by_contra hnot
    rw [webOriginLength, if_neg hnot] at h
    exact h rfl
  obtain ⟨https, start, authority, rest, hl, rfl⟩ := exists_webParts (hweb hne)
  obtain ⟨https', start', authority', rest', hr, rfl⟩ := exists_webParts (hweb (hlen ▸ hne))
  rw [hl.webOriginLength_eq, hr.webOriginLength_eq] at hlen
  rw [hl.webOriginLength_eq, List.take_left, hlen, List.take_left, fold_append, fold_append,
    hl.start_eq, hr.start_eq] at heq
  rw [hl.webOrigin_eq, hr.webOrigin_eq]
  -- the schemes are told apart by their fifth character
  have hscheme : https = https' := by
    have hget := congrArg (fun s => s[4]?) heq
    have hfour : ∀ (b : Bool) (t : Bytes), (scheme b ++ t)[4]? =
        some (if b then ch 's' else ch ':') := by
      intro b t
      cases b <;> rfl
    simp only [hfour, Option.some.injEq] at hget
    cases https <;> cases https' <;> first | rfl | exact absurd hget (by decide)
  subst hscheme
  rw [List.append_cancel_left heq]

/-- **The origins of what is derived from a web address.** -/
theorem webOrigin_packageSource {root item source : Bytes} (hroot : isWebRepository root = true)
    (h : packageSource root item = some source) :
    webOrigin source = webOrigin root ∨
      isHttpsRepository root = true ∧ isHttpsRepository source = true := by
  unfold packageSource at h
  rw [if_pos hroot] at h
  dsimp only at h
  split_ifs at h with h1 h2 h3 h4 h5
  · rw [Option.some.injEq] at h
    exact Or.inr ⟨h2.1, h ▸ h1⟩
  · rw [Option.some.injEq] at h
    exact Or.inl (h ▸ (webOrigin_eq_of_sameWebOrigin h4.2.1).symm)
  · rw [Option.some.injEq] at h
    subst h
    left
    rw [List.append_assoc]
    exact webOrigin_append hroot (Or.inr rfl)

theorem webOrigin_indexSource {root source : Bytes} (hroot : isWebRepository root = true)
    (hlen : root.length < pathSize) (h : indexSource root = some source) :
    webOrigin source = webOrigin root := by
  unfold indexSource at h
  rw [if_pos hroot, Option.some.injEq, List.take_append,
    List.take_of_length_le (Nat.le_sub_one_of_lt hlen)] at h
  subst h
  refine webOrigin_append hroot ?_
  cases hn : pathSize - 1 - root.length with
  | zero => exact Or.inl rfl
  | succ n => exact Or.inr rfl

theorem webOrigin_httpRedirectUrl {initial location result : Bytes}
    (hinitial : isWebRepository initial = true)
    (h : httpRedirectUrl initial location = some result) :
    webOrigin result = webOrigin initial := by
  unfold httpRedirectUrl at h
  split_ifs at h with h1 h2 h3
  · rw [Option.some.injEq] at h
    exact h ▸ (webOrigin_eq_of_sameWebOrigin h2.1).symm
  · rw [not_or, not_not] at h3
    dsimp only at h
    split_ifs at h
    rw [Option.some.injEq] at h
    subst h
    obtain ⟨https, start, authority, rest, hparts, rfl⟩ := exists_webParts hinitial
    rw [hparts.webOriginLength_eq, List.take_left, hparts.webOrigin_eq,
      WebParts.webOrigin_eq ⟨hparts.start_eq, hparts.authority_slash, Or.inr h3.2⟩]

/-! ### The web addresses that are kept -/

/-- An authority without user information, and without a character that other readers of addresses
take for its end. -/
structure PlainAuthority (authority : Bytes) : Prop where
  ne_nil : authority ≠ []
  plain : ∀ c ∈ authority, c ∉ str "\\@?#"

/-- The parts of a web address that is normalized: separators go from its end only. -/
lemma exists_webParts_normalize {fullPath : Bytes → Option Bytes} {source result : Bytes}
    (hweb : isWebRepository source = true)
    (h : repositoryNormalize fullPath source = some result) :
    ∃ https start authority rest, source = start ++ authority ++ rest ∧
      result = start ++ authority ++ rest.rdropWhile (· = ch '/') ∧
      WebParts https start authority rest ∧
      WebParts https start authority (rest.rdropWhile (· = ch '/')) ∧ PlainAuthority authority := by
  unfold repositoryNormalize at h
  rw [if_pos hweb] at h
  split_ifs at h with h1 h2 h3
  rw [Option.some.injEq] at h
  subst h
  obtain ⟨https, start, authority, rest, hparts, rfl⟩ := exists_webParts hweb
  rw [hparts.schemeLength_eq] at h3 ⊢
  rw [Bool.not_eq_false, webLocatorValid] at h3
  simp only [List.append_assoc, List.drop_left, spanNot_append hparts.authority_slash
    hparts.rest_slash, Bool.and_eq_true, decide_eq_true_eq, List.all_eq_true] at h3
  obtain ⟨⟨-, hplain⟩, hne⟩ := h3
  have hslash : ∀ hne : authority ≠ [], decide (authority.getLast hne = ch '/') = false := by
    intro hne
    rw [decide_eq_false_iff_not]
    intro hlast
    exact hparts.authority_slash (hlast ▸ List.getLast_mem hne)
  have htrim : trimTrailing (ch '/') start.length (start ++ authority ++ rest) =
      start ++ authority ++ rest.rdropWhile (· = ch '/') := by
    rw [trimTrailing, List.append_assoc, List.take_left, List.drop_left, rdropWhile_append hslash,
      List.append_assoc]
  have hstart := List.rdropWhile_prefix (fun c => decide (c = ch '/')) rest
  have hrest : rest.rdropWhile (· = ch '/') = [] ∨ cur (rest.rdropWhile (· = ch '/')) = ch '/' := by
    cases hr : rest.rdropWhile (· = ch '/') with
    | nil => exact Or.inl rfl
    | cons c more =>
      rw [hr] at hstart
      obtain ⟨dropped, hdropped⟩ := hstart
      rcases hparts.rest_slash with hnil | hcur
      · rw [hnil] at hdropped
        exact absurd hdropped (List.cons_ne_nil _ _)
      · rw [← hdropped] at hcur
        exact Or.inr hcur
  exact ⟨https, start, authority, rest, rfl, htrim, hparts,
    ⟨hparts.start_eq, hparts.authority_slash, hrest⟩, hne, hplain⟩

theorem webOrigin_normalize {fullPath : Bytes → Option Bytes} {source result : Bytes}
    (hweb : isWebRepository source = true)
    (h : repositoryNormalize fullPath source = some result) :
    webOrigin result = webOrigin source ∧ result.length < pathSize ∧
      PlainAuthority (webAuthority result) := by
  obtain ⟨https, start, authority, rest, hsource, hresult, hparts, hparts', hauthority⟩ :=
    exists_webParts_normalize hweb h
  have hlength : source.length < pathSize := by
    unfold repositoryNormalize at h
    rw [if_pos hweb] at h
    split_ifs at h with h1 h2
    rw [not_or, not_le] at h2
    exact h2.2
  have hle := (List.rdropWhile_prefix (fun c => decide (c = ch '/')) rest).length_le
  rw [hresult, hparts'.webOrigin_eq, hparts'.webAuthority_eq, hsource, hparts.webOrigin_eq]
  rw [hsource, List.length_append] at hlength
  refine ⟨rfl, ?_, hauthority⟩
  rw [List.length_append]
  omega

/-- **A web address that is normalized stays as it is**, when it is normalized again. -/
theorem repositoryNormalize_twice {fullPath : Bytes → Option Bytes} {source result : Bytes}
    (hweb : isWebRepository source = true)
    (h : repositoryNormalize fullPath source = some result) :
    repositoryNormalize fullPath result = some result := by
  obtain ⟨https, start, authority, rest, hsource, hresult, hparts, hparts', hauthority⟩ :=
    exists_webParts_normalize hweb h
  unfold repositoryNormalize at h
  rw [if_pos hweb] at h
  split_ifs at h with hbad hblank hvalid
  rw [not_or, not_le] at hblank
  have hstart := List.rdropWhile_prefix (fun c => decide (c = ch '/')) rest
  have hle := hstart.length_le
  have hsub : result ⊆ source := by
    rw [hsource, hresult]
    exact List.append_subset.2 ⟨List.subset_append_left _ _,
      fun c hc => List.mem_append_right _ (hstart.subset hc)⟩
  have hany : ∀ stop : Bytes, ¬source.any (· ∈ stop) → ¬result.any (· ∈ stop) := by
    intro stop hnot hmem
    obtain ⟨c, hc, hstop⟩ := List.any_eq_true.1 hmem
    exact hnot (List.any_eq_true.2 ⟨c, hsub hc, hstop⟩)
  have hne : result ≠ [] := by
    intro hnil
    have hlength := congrArg List.length (hresult.symm.trans hnil)
    have hpos := List.length_pos_iff.2 hauthority.ne_nil
    rw [List.length_append, List.length_append, List.length_nil] at hlength
    omega
  have hlength : result.length < pathSize := by
    refine Nat.lt_of_le_of_lt ?_ hblank.2
    calc result.length = (start ++ authority).length +
          (rest.rdropWhile (· = ch '/')).length := by rw [hresult, List.length_append]
      _ ≤ (start ++ authority).length + rest.length := Nat.add_le_add_left hle _
      _ = (start ++ authority ++ rest).length := List.length_append.symm
      _ = source.length := by rw [hsource]
  have hvalid' : webLocatorValid result (schemeLength result) = true := by
    rw [Bool.not_eq_false, hsource, hparts.schemeLength_eq] at hvalid
    rw [hresult, hparts'.schemeLength_eq]
    simp only [webLocatorValid, List.append_assoc, List.drop_left,
      spanNot_append hparts.authority_slash hparts.rest_slash,
      spanNot_append hparts'.authority_slash hparts'.rest_slash, Bool.and_eq_true,
      decide_eq_true_eq, List.mem_append, not_or] at hvalid ⊢
    obtain ⟨⟨⟨⟨-, hquestion⟩, hnumber⟩, hplain⟩, hnonempty⟩ := hvalid
    exact ⟨⟨⟨⟨by simp [hnonempty], hquestion.1, fun hc => hquestion.2 (hstart.subset hc)⟩,
      hnumber.1, fun hc => hnumber.2 (hstart.subset hc)⟩, hplain⟩, hnonempty⟩
  have htrim : trimTrailing (ch '/') (schemeLength result) result = result := by
    have hlast : ∀ hne : authority ≠ [], decide (authority.getLast hne = ch '/') = false := by
      intro hne
      rw [decide_eq_false_iff_not]
      intro hlast
      exact hparts.authority_slash (hlast ▸ List.getLast_mem hne)
    rw [hresult, hparts'.schemeLength_eq, trimTrailing, List.append_assoc, List.take_left,
      List.drop_left, rdropWhile_append hlast, List.rdropWhile_idempotent]
  have hweb' : isWebRepository result = true := hresult ▸ hparts'.isWebRepository_eq
  rw [repositoryNormalize, if_neg (not_or.2 ⟨hne, hany _ (not_or.1 hbad).2⟩), if_pos hweb',
    if_neg (not_or.2 ⟨hany _ hblank.1, Nat.not_le.2 hlength⟩), if_neg (by simp [hvalid']), htrim]

end Wpm.Repository
