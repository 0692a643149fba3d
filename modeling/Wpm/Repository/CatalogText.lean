import Wpm.JsonVersion
import Wpm.Lib.Gather
import Wpm.Lib.JsonFrame
import Wpm.Lib.JsonText
import Wpm.Repository.CatalogReaders

/-!
A catalog, by the grammar, as its publisher's reader takes it.

`author_read_catalog` reads the elements of `packages` one after the other. What it makes of an
element does not depend on the text behind it, and what it asks of the rest of the document does not
depend on the elements. So a catalog is a frame with a list of elements in it (`exists_catalog`), and
any other list of elements may stand in the same frame (`authorCatalog_text`).
-/

namespace Wpm.Repository

open Wpm.Lib.CString Wpm.Lib.Json Wpm.Lib.Gather Wpm.JsonInput
open Wpm.Archive (pathSize)

/-! ### An element -/

/-- What is read of a field that may be there once and is not empty. -/
def once (size : ℕ) (old : Option Bytes) (v : Bytes) : Option Bytes :=
  match old, stringOf size v with
  | none, some value => if value = [] then none else some value
  | _, _ => none

lemma readOnce_append {size : ℕ} {old : Option Bytes} {w v : Bytes} (hw : Whitespace w)
    (hv : Value v) (q : Bytes) :
    readOnce size old (w ++ (v ++ q)) = (once size old v).map fun value => (value, q) := by
  unfold readOnce once
  rw [readString_value size hw hv]
  cases old with
  | some value => cases stringOf size v <;> rfl
  | none =>
    cases stringOf size v with
    | none => rfl
    | some value =>
      simp only [Option.map_some]
      split_ifs <;> rfl

/-- What `author_entry` makes of a member, by its name and its value. -/
def AuthorFields.take (f : AuthorFields) (key v : Bytes) : Option AuthorFields :=
  if key = str "name" then (once 128 f.name v).map fun value => { f with name := some value }
  else if key = str "version" then
    (once 64 f.version v).map fun value => { f with version := some value }
  else if key = str "arch" then (once 16 f.arch v).map fun value => { f with arch := some value }
  else if key = str "url" then
    (once pathSize f.url v).map fun value => { f with url := some value }
  else some f

/-- **The value of a member** is read up to the comma or the brace behind it. -/
lemma AuthorFields.read_append {f : AuthorFields} {key w v after : Bytes} (hw : Whitespace w)
    (hv : Value v) (hafter : Whitespace after) (l : List Bytes) (q : Bytes) :
    (f.read key (w ++ (v ++ (after ++ closing (ch '}') l q)))).map
      (fun r => (r.1, jsonSpace r.2)) = (f.take key v).map fun f' => (f', closing (ch '}') l q) := by
  have hspace : jsonSpace (after ++ closing (ch '}') l q) = closing (ch '}') l q :=
    jsonSpace_append hafter (lead_closing (by decide) l q)
  have hspace' : jsonSpace (closing (ch '}') l q) = closing (ch '}') l q :=
    jsonSpace_eq_self (lead_closing (by decide) l q)
  have hend := valueEnd_closing (.inl rfl) hw hv hafter l q
  unfold AuthorFields.read AuthorFields.take
  simp only [readOnce_append hw hv, hend, if_true]
  split_ifs <;>
    simp only [Option.map_map, Option.map_some, Function.comp_def, hspace, hspace']

/-- What the loop of `author_entry` makes of the members of an object. -/
def AuthorFields.takeAll (f : AuthorFields) (ms : List Member) : Option AuthorFields :=
  ms.foldlM (fun f m => f.take (keyOf m.key) m.value) f

/-- **The loop over the members.** -/
lemma authorMembers_opened {q : Bytes} : ∀ {ms : List Member} {fuel : ℕ} {f : AuthorFields},
    (∀ m ∈ ms, m.Framed ∧ Value m.value) →
    (opened (ch '}') (ms.map Member.text) q).length ≤ sizeMax → ms.length < fuel →
    authorMembers fuel f (opened (ch '}') (ms.map Member.text) q) =
      (f.takeAll ms).map fun f' => (f', q)
  | _, 0, _, _, _, hfuel => absurd hfuel (Nat.not_lt_zero _)
  | [], fuel + 1, f, _, _, _ => by
    have hlead : Lead (ch '}' :: q) := lead_cons _ (by decide)
    rw [List.map_nil, opened, authorMembers, jsonSpace_eq_self hlead]
    exact if_pos rfl
  | m :: ms, fuel + 1, f, hms, hsize, hfuel => by
    obtain ⟨hframed, hv⟩ := hms m List.mem_cons_self
    change (m.text ++ closing (ch '}') (ms.map Member.text) q).length ≤ sizeMax at hsize
    obtain ⟨hcur, p, hkey, hcolon⟩ := readKey_member hframed hsize
    have hread := @AuthorFields.read_append f (keyOf m.key) _ _ _ hframed.afterColon hv hframed.after
      (ms.map Member.text) q
    -- the turns that are left
    have hrest : ∀ f', (if cur (closing (ch '}') (ms.map Member.text) q) = ch ',' then
        authorMembers fuel f' (closing (ch '}') (ms.map Member.text) q).tail
        else if cur (closing (ch '}') (ms.map Member.text) q) = ch '}' then
          authorMembers fuel f' (closing (ch '}') (ms.map Member.text) q)
        else none) = (f'.takeAll ms).map fun f'' => (f'', q) := by
      intro f'
      have hms' : ∀ m' ∈ ms, m'.Framed ∧ Value m'.value :=
        fun m' h => hms m' (List.mem_cons_of_mem m h)
      have hfuel' : ms.length < fuel := by simpa using hfuel
      cases ms with
      | nil =>
        have hloop := @authorMembers_opened q [] fuel f' hms' (by
          simp only [List.map_nil, opened, closing, List.length_append, List.length_cons] at hsize ⊢
          omega) hfuel'
        rw [List.map_nil, opened] at hloop
        rw [List.map_nil, closing, cur_cons, if_neg (by decide), if_pos rfl, hloop]
      | cons m' ms =>
        rw [List.map_cons, closing, List.length_append, List.length_cons] at hsize
        rw [List.map_cons, closing, cur_cons, if_pos rfl, List.tail_cons]
        refine @authorMembers_opened q (m' :: ms) fuel f' hms' ?_ hfuel'
        rw [List.map_cons, opened]
        omega
    rw [List.map_cons, opened, authorMembers, AuthorFields.takeAll, List.foldlM_cons]
    simp only [hcur, if_neg (by decide : ¬ch '"' = ch '}'), hkey, Option.bind_eq_bind,
      Option.bind_some, hcolon, cur_cons, ne_eq, not_true_eq_false, if_false, List.tail_cons]
    cases htake : f.take (keyOf m.key) m.value with
    | none =>
      rw [htake, Option.map_none, Option.map_eq_none_iff] at hread
      rw [hread]
      rfl
    | some f' =>
      rw [htake, Option.map_some] at hread
      obtain ⟨⟨f'', p'⟩, hvalue, hpair⟩ := Option.map_eq_some_iff.1 hread
      obtain ⟨rfl, hp'⟩ := Prod.mk.inj hpair
      simp only at hp'
      rw [hvalue]
      simp only [Option.bind_some, hp']
      exact hrest f''

/-- The entry of which the fields have been read. -/
def AuthorFields.entry : AuthorFields → Option PackageEntry
  | ⟨some name, some version, some arch, some url⟩ =>
    if (semverParse version).isSome ∧ knownArch arch then
      some ⟨name, version, arch, url, 0, 0⟩
    else none
  | _ => none

/-- The entry that `author_entry` makes of a value. -/
def valueEntry (v : Bytes) : Option PackageEntry := (authorEntry v).map Prod.fst

lemma authorEntry_eq {p : Bytes} (h : cur (jsonSpace p) = ch '{') : authorEntry p =
    (authorMembers (jsonSpace p).length ⟨none, none, none, none⟩ (jsonSpace p).tail).bind
      fun r => r.1.entry.map fun e => (e, r.2) := by
  unfold authorEntry
  simp only [h, ne_eq, not_true_eq_false, if_false]
  cases authorMembers (jsonSpace p).length ⟨none, none, none, none⟩ (jsonSpace p).tail with
  | none => rfl
  | some r =>
    obtain ⟨⟨_ | name, _ | version, _ | arch, _ | url⟩, q⟩ := r
    case some.some.some.some =>
      simp only [Option.bind_some, AuthorFields.entry]
      split_ifs <;> rfl
    all_goals rfl

/-- The entry of an object. -/
lemma authorEntry_object {ms : List Member} {w v : Bytes} (hw : Whitespace w) (h : IsObject ms v)
    (q : Bytes) (hsize : (v ++ q).length ≤ sizeMax) : authorEntry (w ++ (v ++ q)) =
      ((AuthorFields.takeAll ⟨none, none, none, none⟩ ms).bind AuthorFields.entry).map
        fun e => (e, q) := by
  have hspace : jsonSpace (w ++ (v ++ q)) = v ++ q := jsonSpace_append hw h.isValue.lead
  have hcur : cur (v ++ q) = ch '{' := (cur_value_append h.isValue q).trans h.cur_eq
  obtain ⟨w', hw', hempty, htext⟩ := h.exists_opened q
  have hms : ∀ m ∈ ms, m.Framed ∧ Value m.value := fun m hm => ⟨h.framed m hm, h.value m hm⟩
  have hopened := length_opened (ch '}') (ms.map Member.text) q
  have hloop : authorMembers (v ++ q).length ⟨none, none, none, none⟩ (v ++ q).tail =
      (AuthorFields.takeAll ⟨none, none, none, none⟩ ms).map fun f => (f, q) := by
    have hlength := congrArg List.length htext
    rw [List.length_cons, List.length_append] at hlength
    rw [List.length_map] at hopened
    cases ms with
    | nil =>
      have hbrace : jsonSpace (w' ++ ch '}' :: q) = ch '}' :: q :=
        jsonSpace_append hw' (lead_cons _ (by decide))
      rw [htext, List.map_nil, opened, List.tail_cons, List.length_cons, authorMembers, hbrace]
      exact if_pos rfl
    | cons m ms =>
      obtain rfl := hempty (List.cons_ne_nil m ms)
      rw [List.nil_append] at htext hlength
      rw [htext, List.tail_cons]
      refine authorMembers_opened hms ?_ ?_
      · rw [List.length_append] at hsize
        omega
      · simp only [List.length_cons] at hopened ⊢
        omega
  rw [authorEntry_eq (by rw [hspace, hcur]), hspace, hloop]
  cases AuthorFields.takeAll ⟨none, none, none, none⟩ ms with
  | none => rfl
  | some f => cases f.entry <;> rfl

/-- **A value** gives the same entry, whatever the text behind it. -/
lemma authorEntry_append {w v : Bytes} (hw : Whitespace w) (hv : Value v) (q : Bytes)
    (hsize : (v ++ q).length ≤ sizeMax) :
    authorEntry (w ++ (v ++ q)) = (valueEntry v).map fun e => (e, q) := by
  have hlead : Lead v := by simpa using @Value.lead v [] hv
  by_cases hobject : cur v = ch '{'
  · have hms : ∃ ms, IsObject ms v := by
      obtain ⟨c, v', rfl, -⟩ := hv.exists_cons
      obtain rfl : c = ch '{' := hobject
      exact hv.isObject
    obtain ⟨ms, hms⟩ := hms
    have hself := authorEntry_object whitespace_nil hms [] (by
      rw [List.length_append] at hsize
      rw [List.append_nil]
      omega)
    rw [List.nil_append, List.append_nil] at hself
    rw [authorEntry_object hw hms q hsize, valueEntry, hself, Option.map_map]
    cases (AuthorFields.takeAll ⟨none, none, none, none⟩ ms).bind AuthorFields.entry <;> rfl
  · have hspace : jsonSpace (w ++ (v ++ q)) = v ++ q := jsonSpace_append hw hv.lead
    have hnone : authorEntry v = none := by
      unfold authorEntry
      rw [jsonSpace_eq_self hlead]
      exact if_pos hobject
    rw [valueEntry, hnone, authorEntry, hspace]
    exact if_pos (by rwa [cur_value_append hv])

/-! ### The packages -/

/-- The two entries are of the same package. -/
def samePackage (old e : PackageEntry) : Bool :=
  fold old.name = fold e.name && fold old.arch = fold e.arch && old.version = e.version

/-- The loop of `author_read_catalog`, with the pointer to the bracket at which it ends. -/
def authorEntriesTo : ℕ → List PackageEntry → Bytes → Option (List PackageEntry × Bytes)
  | 0, _, _ => none
  | fuel + 1, entries, p =>
    let p := jsonSpace p
    if cur p = ch ']' then some (entries, p)
    else if entries.length = maxPackages then none
    else match authorEntry p with
      | none => none
      | some (e, p) =>
        if entries.any fun old => samePackage old e then none
        else
          let p := jsonSpace p
          if cur p = ch ',' then authorEntriesTo fuel (entries ++ [e]) p.tail
          else if cur p = ch ']' then authorEntriesTo fuel (entries ++ [e]) p
          else none

/-- `author_read_catalog` with both of its results: the entries, and `array_end`. -/
def authorCatalog (text : Bytes) : Option (List PackageEntry × Bytes) :=
  if queryCatalogDocument text then
    (packagesArray text).bind fun p => authorEntriesTo p.length [] p
  else none

lemma authorEntriesFrom_eq : ∀ (fuel : ℕ) (entries : List PackageEntry) (p : Bytes),
    authorEntriesFrom fuel entries p = (authorEntriesTo fuel entries p).map Prod.fst
  | 0, _, _ => rfl
  | fuel + 1, entries, p => by
    have ih := authorEntriesFrom_eq fuel
    rw [authorEntriesFrom, authorEntriesTo]
    simp only
    split_ifs
    · rfl
    · rfl
    · cases authorEntry (jsonSpace p) with
      | none => rfl
      | some r =>
        obtain ⟨e, q⟩ := r
        by_cases hsame : (entries.any fun old => samePackage old e) = true
        · simp only [if_pos hsame]
          exact if_pos hsame
        · simp only [if_neg hsame]
          refine (if_neg hsame).trans ?_
          simp only [ih]
          split_ifs <;> rfl

lemma authorReadCatalog_eq (text : Bytes) :
    authorReadCatalog text = (authorCatalog text).map Prod.fst := by
  unfold authorReadCatalog authorCatalog
  split_ifs
  · cases packagesArray text with
    | none => rfl
    | some p => exact authorEntriesFrom_eq _ _ _
  · rfl

/-- The entries of the elements of an array, behind those that there are. -/
def entriesOf (entries : List PackageEntry) (es : List Element) : Option (List PackageEntry) :=
  gather (fun e : Element => valueEntry e.value) samePackage maxPackages entries es

/-- **The loop over the packages.** -/
lemma authorEntriesTo_opened {q : Bytes} : ∀ {es : List Element} {fuel : ℕ}
    {entries : List PackageEntry}, (∀ e ∈ es, e.Framed ∧ Value e.value) →
    (opened (ch ']') (es.map Element.text) q).length ≤ sizeMax → es.length < fuel →
    authorEntriesTo fuel entries (opened (ch ']') (es.map Element.text) q) =
      (entriesOf entries es).map fun entries => (entries, ch ']' :: q)
  | _, 0, _, _, _, hfuel => absurd hfuel (Nat.not_lt_zero _)
  | [], fuel + 1, entries, _, _, _ => by
    have hlead : Lead (ch ']' :: q) := lead_cons _ (by decide)
    rw [List.map_nil, opened, authorEntriesTo, jsonSpace_eq_self hlead]
    exact if_pos rfl
  | e :: es, fuel + 1, entries, hes, hsize, hfuel => by
    obtain ⟨hframed, hv⟩ := hes e List.mem_cons_self
    change (e.text ++ closing (ch ']') (es.map Element.text) q).length ≤ sizeMax at hsize
    have htext : e.text ++ closing (ch ']') (es.map Element.text) q =
        e.before ++ (e.value ++ (e.after ++ closing (ch ']') (es.map Element.text) q)) := by
      simp [Element.text]
    have hspace : jsonSpace (e.text ++ closing (ch ']') (es.map Element.text) q) =
        e.value ++ (e.after ++ closing (ch ']') (es.map Element.text) q) := by
      rw [htext]
      exact jsonSpace_append hframed.before hv.lead
    have hend : jsonSpace (e.after ++ closing (ch ']') (es.map Element.text) q) =
        closing (ch ']') (es.map Element.text) q :=
      jsonSpace_append hframed.after (lead_closing (by decide) _ q)
    have hcur : cur (e.value ++ (e.after ++ closing (ch ']') (es.map Element.text) q)) ≠ ch ']' := by
      rw [cur_value_append hv]
      obtain ⟨c, v', hv', hc⟩ := hv.exists_cons
      rw [hv', cur_cons]
      rintro rfl
      exact absurd hc (by decide)
    have hentry := @authorEntry_append [] e.value whitespace_nil hv
      (e.after ++ closing (ch ']') (es.map Element.text) q) (by
        rw [htext, List.length_append] at hsize
        omega)
    rw [List.nil_append] at hentry
    -- the turns that are left
    have hrest : ∀ entries', (if cur (closing (ch ']') (es.map Element.text) q) = ch ',' then
        authorEntriesTo fuel entries' (closing (ch ']') (es.map Element.text) q).tail
        else if cur (closing (ch ']') (es.map Element.text) q) = ch ']' then
          authorEntriesTo fuel entries' (closing (ch ']') (es.map Element.text) q)
        else none) = (entriesOf entries' es).map fun entries => (entries, ch ']' :: q) := by
      intro entries'
      have hes' : ∀ e' ∈ es, e'.Framed ∧ Value e'.value :=
        fun e' h => hes e' (List.mem_cons_of_mem e h)
      have hfuel' : es.length < fuel := by simpa using hfuel
      cases es with
      | nil =>
        have hloop := @authorEntriesTo_opened q [] fuel entries' hes' (by
          simp only [List.map_nil, opened, closing, List.length_append, List.length_cons] at hsize ⊢
          omega) hfuel'
        rw [List.map_nil, opened] at hloop
        rw [List.map_nil, closing, cur_cons, if_neg (by decide), if_pos rfl, hloop]
      | cons e' es =>
        rw [List.map_cons, closing, List.length_append, List.length_cons] at hsize
        rw [List.map_cons, closing, cur_cons, if_pos rfl, List.tail_cons]
        refine @authorEntriesTo_opened q (e' :: es) fuel entries' hes' ?_ hfuel'
        rw [List.map_cons, opened]
        omega
    rw [List.map_cons, opened, authorEntriesTo, entriesOf, gather, List.foldlM_cons, push]
    simp only [hspace, if_neg hcur, hentry]
    by_cases hroom : entries.length = maxPackages
    · simp only [if_pos hroom]
      rfl
    · simp only [if_neg hroom]
      cases valueEntry e.value with
      | none => rfl
      | some x =>
        simp only [Option.map_some, Option.bind_some, hend, hrest]
        split_ifs <;> rfl

/-- The loop from the bracket on that opens the array. -/
lemma authorEntriesTo_inside {es : List Element} {inner : Bytes}
    (hes : ∀ e ∈ es, e.Framed ∧ Value e.value) (hinner : Inside (es.map Element.text) inner)
    (q : Bytes) (hsize : (inner ++ ch ']' :: q).length ≤ sizeMax) :
    authorEntriesTo (inner ++ ch ']' :: q).length [] (inner ++ ch ']' :: q) =
      (entriesOf [] es).map fun entries => (entries, ch ']' :: q) := by
  obtain ⟨w, hw, hempty, htext⟩ := hinner.append (ch ']') q
  have hopened := length_opened (ch ']') (es.map Element.text) q
  rw [List.length_map] at hopened
  have hlength := congrArg List.length htext
  rw [@List.length_append _ w] at hlength
  cases es with
  | nil =>
    have hspace : jsonSpace (w ++ ch ']' :: q) = ch ']' :: q :=
      jsonSpace_append hw (lead_cons _ (by decide))
    rw [htext, List.map_nil, opened, List.length_append, List.length_cons, ← Nat.add_assoc,
      authorEntriesTo, hspace]
    exact if_pos rfl
  | cons e es =>
    obtain rfl := hempty (by simp)
    rw [List.nil_append] at htext
    rw [List.length_nil] at hlength
    have hfuel : (e :: es).length < (inner ++ ch ']' :: q).length := by
      have hlt := length_closing (ch ']') (es.map Element.text) q
      obtain ⟨c, v, hv, -⟩ := (hes e List.mem_cons_self).2.exists_cons
      have hpos : 0 < e.text.length := by
        simp only [Element.text, hv, List.length_append, List.length_cons]
        omega
      rw [htext, List.map_cons, opened, List.length_append, List.length_cons]
      rw [List.length_map] at hlt
      omega
    rw [htext] at hfuel hsize ⊢
    exact authorEntriesTo_opened hes hsize hfuel

/-! ### The root -/

/-- What `author_catalog_fields` asks of the members of the root, with whether `version` and
`packages` have been there. -/
def fieldsOnce : Bool → Bool → List Member → Bool
  | version, packages, [] => version && packages
  | version, packages, m :: ms =>
    if (keyOf m.key = str "version" ∧ version) ∨ (keyOf m.key = str "packages" ∧ packages) then false
    else fieldsOnce (version || keyOf m.key = str "version")
      (packages || keyOf m.key = str "packages") ms

/-- How many of the members have the name. -/
def named (name : Bytes) (ms : List Member) : ℕ := ms.countP fun m => keyOf m.key = name

lemma named_cons (name : Bytes) (m : Member) (ms : List Member) :
    named name (m :: ms) = named name ms + if keyOf m.key = name then 1 else 0 := by
  rw [named, List.countP_cons]
  simp [named]

/-- **Each of the two fields is there once.** -/
lemma fieldsOnce_iff : ∀ {version packages : Bool} {ms : List Member},
    fieldsOnce version packages ms = true ↔
      named (str "version") ms + version.toNat = 1 ∧ named (str "packages") ms + packages.toNat = 1
  | version, packages, [] => by cases version <;> cases packages <;> decide
  | version, packages, m :: ms => by
    have hne : str "version" ≠ str "packages" := by decide
    rw [fieldsOnce, named_cons, named_cons]
    by_cases hversion : keyOf m.key = str "version"
    · have hpackages : keyOf m.key ≠ str "packages" := hversion ▸ hne
      cases version with
      | true => simp [hversion]
      | false =>
        rw [if_neg (by simp [hpackages]), fieldsOnce_iff]
        simp [hversion, hne]
    · by_cases hpackages : keyOf m.key = str "packages"
      · cases packages with
        | true => simp [hpackages]
        | false =>
          rw [if_neg (by simp [hversion]), fieldsOnce_iff]
          simp [hpackages, hne.symm]
      · rw [if_neg (by simp [hversion, hpackages]), fieldsOnce_iff]
        simp [hversion, hpackages]

/-- **The loop over the members of the root.** -/
lemma authorCatalogFieldsFrom_opened {q : Bytes} : ∀ {ms : List Member} {fuel : ℕ}
    {version packages : Bool}, (∀ m ∈ ms, m.Framed ∧ Value m.value) →
    (opened (ch '}') (ms.map Member.text) q).length ≤ sizeMax → ms.length < fuel →
    authorCatalogFieldsFrom fuel version packages (opened (ch '}') (ms.map Member.text) q) =
      fieldsOnce version packages ms
  | _, 0, _, _, _, _, hfuel => absurd hfuel (Nat.not_lt_zero _)
  | [], fuel + 1, version, packages, _, _, _ => by
    have hlead : Lead (ch '}' :: q) := lead_cons _ (by decide)
    rw [List.map_nil, opened, authorCatalogFieldsFrom, jsonSpace_eq_self hlead]
    exact if_pos rfl
  | m :: ms, fuel + 1, version, packages, hms, hsize, hfuel => by
    obtain ⟨hframed, hv⟩ := hms m List.mem_cons_self
    change (m.text ++ closing (ch '}') (ms.map Member.text) q).length ≤ sizeMax at hsize
    obtain ⟨hcur, p, hkey, hcolon⟩ := readKey_member hframed hsize
    have hend := valueEnd_closing (.inl rfl) hframed.afterColon hv hframed.after
      (ms.map Member.text) q
    have hafter : jsonSpace (closing (ch '}') (ms.map Member.text) q) =
        closing (ch '}') (ms.map Member.text) q := jsonSpace_eq_self (lead_closing (by decide) _ q)
    -- the turns that are left
    have hrest : ∀ version' packages', (if cur (closing (ch '}') (ms.map Member.text) q) = ch ',' then
        authorCatalogFieldsFrom fuel version' packages'
          (closing (ch '}') (ms.map Member.text) q).tail
        else if cur (closing (ch '}') (ms.map Member.text) q) = ch '}' then
          authorCatalogFieldsFrom fuel version' packages' (closing (ch '}') (ms.map Member.text) q)
        else false) = fieldsOnce version' packages' ms := by
      intro version' packages'
      have hms' : ∀ m' ∈ ms, m'.Framed ∧ Value m'.value :=
        fun m' h => hms m' (List.mem_cons_of_mem m h)
      have hfuel' : ms.length < fuel := by simpa using hfuel
      cases ms with
      | nil =>
        have hloop := @authorCatalogFieldsFrom_opened q [] fuel version' packages' hms' (by
          simp only [List.map_nil, opened, closing, List.length_append, List.length_cons] at hsize ⊢
          omega) hfuel'
        rw [List.map_nil, opened] at hloop
        rw [List.map_nil, closing, cur_cons, if_neg (by decide), if_pos rfl, hloop]
      | cons m' ms =>
        rw [List.map_cons, closing, List.length_append, List.length_cons] at hsize
        rw [List.map_cons, closing, cur_cons, if_pos rfl, List.tail_cons]
        refine @authorCatalogFieldsFrom_opened q (m' :: ms) fuel version' packages' hms' ?_ hfuel'
        rw [List.map_cons, opened]
        omega
    rw [List.map_cons, opened, authorCatalogFieldsFrom, fieldsOnce]
    simp only [hcur, if_neg (by decide : ¬ch '"' = ch '}'), hkey, hcolon, cur_cons, List.tail_cons,
      hend, ne_eq, not_true_eq_false, Bool.true_eq_false, or_false, hafter, hrest]

lemma authorCatalogFields_root {ms : List Member} {after text : Bytes} (h : RootObject ms after text)
    (hsize : text.length ≤ sizeMax) : authorCatalogFields text = fieldsOnce false false ms := by
  obtain ⟨w, hw, hempty, hcontent, hle⟩ := h.exists_content
  obtain ⟨-, -, v, -, -, hobject, -, -⟩ := h
  have hlength := congrArg List.length hcontent
  rw [List.length_cons, List.length_append] at hlength
  have hopened := length_opened (ch '}') (ms.map Member.text) after
  rw [List.length_map] at hopened
  have hms := fun m hm => And.intro (hobject.framed m hm) (hobject.value m hm)
  rw [authorCatalogFields, hcontent]
  simp only [cur_cons, ne_eq, not_true_eq_false, if_false, List.tail_cons, List.length_cons,
    List.length_append]
  cases ms with
  | nil =>
    have hspace : jsonSpace (w ++ ch '}' :: after) = ch '}' :: after :=
      jsonSpace_append hw (lead_cons _ (by decide))
    rw [List.map_nil, opened, authorCatalogFieldsFrom, hspace]
    exact if_pos rfl
  | cons m ms =>
    obtain rfl := hempty (List.cons_ne_nil m ms)
    rw [List.nil_append]
    exact authorCatalogFieldsFrom_opened hms (by omega) (by rw [List.length_nil]; omega)

/-- The value is a number without a sign that says one. -/
def IsOne (v : Bytes) : Prop := ∃ i f e, Integer i ∧ Fraction f ∧ Exponent e ∧ v = i ++ f ++ e ∧
  (decValue (i ++ f.tail) : ℚ) * 10 ^ (exponentValue e - f.tail.length) = 1

/-- The version of a document is the value of its first member of that name. -/
lemma jsonVersionOne_first {text rest : Bytes} {m : Member}
    (h : FirstMember (str "version") text m rest) (hsize : text.length ≤ documentLimit) :
    jsonVersionOne text = true ↔ IsOne m.value := by
  obtain ⟨hv, hends, hnext⟩ := h.valid
  have hle := h.length_le
  have hnumber : ∀ {i f e}, Integer i → Fraction f → Exponent e → m.value = i ++ f ++ e →
      (acceptsOne (m.value ++ rest) = true ↔
        (decValue (i ++ f.tail) : ℚ) * 10 ^ (exponentValue e - f.tail.length) = 1) := by
    intro i f e hi hf he hvalue
    have htail : f.tail.length ≤ f.length := by
      rw [List.length_tail]
      omega
    rw [hvalue] at hle ⊢
    simp only [List.length_append] at hle
    rw [List.append_assoc, List.append_assoc]
    exact acceptsOne_number hi hf he hends hnext (by rw [List.length_append]; omega)
  rw [jsonVersionOne_eq, h.field (hsize.trans (by decide))]
  constructor
  · intro hone
    have hdigit : isDigit (cur m.value) = true := by
      have hd := (acceptsOne_iff.1 hone).1
      rwa [cur_value_append hv] at hd
    obtain ⟨minus, i, f, e, hminus, hi, hf, he, hvalue⟩ := isNumber_of_digit hv hdigit
    obtain rfl : minus = [] := hminus.resolve_right fun hc => by
      have hminus : isDigit (cur m.value) = isDigit (ch '-') := by
        rw [hvalue, hc]
        rfl
      rw [hminus] at hdigit
      exact absurd hdigit (by decide)
    exact ⟨i, f, e, hi, hf, he, hvalue, (hnumber hi hf he hvalue).1 hone⟩
  · rintro ⟨i, f, e, hi, hf, he, hvalue, hq⟩
    exact (hnumber hi hf he hvalue).2 hq

/-- A member whose name there is once is the first one of that name. -/
lemma exists_named {name : Bytes} {ms : List Member} (h : named name ms = 1) :
    ∃ front m behind, ms = front ++ m :: behind ∧ keyOf m.key = name ∧
      ∀ m' ∈ front ++ behind, keyOf m'.key ≠ name := by
  obtain ⟨m, hm, hkey⟩ := List.countP_pos_iff.1 (h ▸ Nat.one_pos)
  obtain ⟨front, behind, rfl⟩ := List.append_of_mem hm
  have hkey := of_decide_eq_true hkey
  refine ⟨front, m, behind, rfl, hkey, ?_⟩
  have hcount : named name front + (named name behind + 1) = 1 := by
    have hcons := named_cons name m behind
    rw [if_pos hkey] at hcons
    rw [named, List.countP_append] at h
    rw [named] at hcons ⊢
    omega
  have hnone : ∀ l : List Member, named name l = 0 → ∀ m' ∈ l, keyOf m'.key ≠ name :=
    fun l hl m' hm' => by simpa using List.countP_eq_zero.1 hl m' hm'
  intro m' hm'
  rcases List.mem_append.1 hm' with hm' | hm'
  · exact hnone front (by omega) m' hm'
  · exact hnone behind (by omega) m' hm'

/-- The name of a member, as a document is read for it. -/
lemma keyOf_eq_iff_stringIs {wanted k : Bytes} (hne : wanted ≠ []) (hzero : 0 ∉ wanted)
    (hlen : wanted.length < 32) (hk : IsString k) : keyOf k = wanted ↔ StringIs k wanted :=
  nameIn_eq_iff_stringIs (by decide) hne hzero hlen hk

/-- **The version** of a document whose root names one once. -/
lemma jsonVersionOne_root {ms : List Member} {after text : Bytes} (h : RootObject ms after text)
    (hsize : text.length ≤ documentLimit) (hversion : named (str "version") ms = 1) :
    jsonVersionOne text = true ↔ ∃ m ∈ ms, keyOf m.key = str "version" ∧ IsOne m.value := by
  obtain ⟨front, m, behind, rfl, hkey, hothers⟩ := exists_named hversion
  obtain ⟨hne, hzero, hlen⟩ := stringIs_version rfl
  have hname : ∀ m' ∈ front ++ m :: behind,
      keyOf m'.key = str "version" ↔ StringIs m'.key (str "version") := by
    obtain ⟨-, -, v, -, -, hobject, -, -⟩ := h
    exact fun m' hm' => keyOf_eq_iff_stringIs hne hzero hlen (hobject.framed m' hm').key
  have hfirst : FirstMember (str "version") text m
      (m.after ++ closing (ch '}') (behind.map Member.text) after) := by
    refine ⟨⟨front, behind, after, h, fun m' hm' his => ?_, rfl⟩, (hname m (by simp)).1 hkey⟩
    exact hothers m' (by simp [hm']) ((hname m' (by simp [hm'])).2 his)
  rw [jsonVersionOne_first hfirst hsize]
  constructor
  · exact fun hone => ⟨m, by simp, hkey, hone⟩
  · rintro ⟨m', hm', hkey', hone⟩
    by_cases hsame : m' = m
    · exact hsame ▸ hone
    · refine absurd hkey' (hothers m' ?_)
      simp only [List.mem_append, List.mem_cons] at hm' ⊢
      rcases hm' with hm' | hm' | hm'
      · exact .inl hm'
      · exact absurd hm' hsame
      · exact .inr hm'

/-! ### The catalog -/

/-- A catalog without its packages: a document with a place for what stands between the brackets of
the member `packages`. -/
structure Catalog where
  mark : Bytes
  before : Bytes
  frame : Frame
  after : Bytes

/-- The text up to and with the bracket that opens the array. -/
def Catalog.head (c : Catalog) : Bytes := c.mark ++ c.before ++ c.frame.head ++ [ch '[']

/-- The text from the bracket on that closes the array. -/
def Catalog.rest (c : Catalog) : Bytes := ch ']' :: c.frame.rest c.after

/-- The document, with the text `inner` between the brackets. -/
def Catalog.text (c : Catalog) (inner : Bytes) : Bytes := c.head ++ (inner ++ c.rest)

/-- **What the publisher's reader asks** of the text outside the brackets. -/
structure Catalog.Sound (c : Catalog) : Prop where
  mark : c.mark = [] ∨ c.mark = [0xef, 0xbb, 0xbf]
  before : Whitespace c.before
  after : Whitespace c.after
  frame : c.frame.Valid
  packages : keyOf c.frame.member.key = str "packages"
  fields : fieldsOnce false false (c.frame.front ++ c.frame.member :: c.frame.behind) = true
  version : ∃ m ∈ c.frame.front ++ c.frame.behind, keyOf m.key = str "version" ∧ IsOne m.value

/-- The elements are the text between the brackets. -/
structure Elements (es : List Element) (inner : Bytes) : Prop where
  valid : ∀ e ∈ es, e.Framed ∧ Value e.value
  inside : Inside (es.map Element.text) inner

lemma Elements.isArray {es : List Element} {inner : Bytes} (h : Elements es inner) :
    IsArray es (ch '[' :: inner ++ [ch ']']) :=
  ⟨fun e he => (h.valid e he).1, fun e he => (h.valid e he).2, inner, h.inside, rfl⟩

lemma Catalog.text_eq (c : Catalog) (inner : Bytes) : c.text inner =
    c.mark ++ c.before ++ c.frame.text (ch '[' :: inner ++ [ch ']']) ++ c.after := by
  rw [List.append_assoc _ (c.frame.text _), Frame.text_append]
  simp [Catalog.text, Catalog.head, Catalog.rest]

lemma named_members (name : Bytes) (f : Frame) (v : Bytes) :
    named name (f.members v) = named name (f.front ++ f.member :: f.behind) := by
  simp [named, Frame.members, List.countP_append, List.countP_cons]

lemma fieldsOnce_members (f : Frame) (v : Bytes) : fieldsOnce false false (f.members v) =
    fieldsOnce false false (f.front ++ f.member :: f.behind) := by
  rw [Bool.eq_iff_iff, fieldsOnce_iff, fieldsOnce_iff, named_members, named_members]

variable {c : Catalog} {es : List Element} {inner : Bytes}

lemma Catalog.Sound.root (h : c.Sound) (hes : Elements es inner) :
    RootObject (c.frame.members (ch '[' :: inner ++ [ch ']'])) c.after (c.text inner) :=
  ⟨c.mark, c.before, _, h.mark, h.before, h.frame.isObject hes.isArray.isValue, h.after,
    c.text_eq inner⟩

/-- The place that is read as `packages`. -/
lemma Catalog.Sound.packagesArray (h : c.Sound) (hes : Elements es inner)
    (hsize : (c.text inner).length ≤ sizeMax) :
    packagesArray (c.text inner) = some (inner ++ c.rest) := by
  obtain ⟨-, hnamed⟩ := fieldsOnce_iff.1 h.fields
  rw [Bool.toNat_false, Nat.add_zero] at hnamed
  have hfront : ∀ m ∈ c.frame.front, keyOf m.key ≠ str "packages" := by
    have hcons := named_cons (str "packages") c.frame.member c.frame.behind
    rw [if_pos h.packages] at hcons
    have hcount : named (str "packages") c.frame.front = 0 := by
      rw [named, List.countP_append] at hnamed
      rw [named] at hcons ⊢
      omega
    exact fun m hm => by simpa using List.countP_eq_zero.1 hcount m hm
  have hobject := h.frame.isObject hes.isArray.isValue
  rw [Frame.members] at hobject
  have hfield := @jsonField_append _ _ _ c.after _ _ _ _ h.mark h.before hobject hfront h.packages
    (by rwa [← c.text_eq])
  rw [← c.text_eq] at hfield
  rw [Repository.packagesArray, hfield]
  simp only [List.cons_append, cur_cons, if_true, List.tail_cons, List.append_assoc,
    List.nil_append]
  rfl

/-- **Any packages may stand in the frame**: the reader gives their entries, and the place of the
bracket behind them. -/
theorem authorCatalog_text (h : c.Sound) (hes : Elements es inner)
    (hsize : (c.text inner).length ≤ 4 * 1024 * 1024) (hzero : 0 ∉ c.text inner) :
    authorCatalog (c.text inner) = (entriesOf [] es).map fun entries => (entries, c.rest) := by
  have hlimit : (c.text inner).length ≤ documentLimit := hsize
  have hsizeMax : (c.text inner).length < sizeMax := hsize.trans_lt (by decide)
  have hroot := h.root hes
  have hfields : authorCatalogFields (c.text inner) = true := by
    rw [authorCatalogFields_root hroot hsizeMax.le, fieldsOnce_members, h.fields]
  obtain ⟨hversions, -⟩ := fieldsOnce_iff.1 ((fieldsOnce_members c.frame _).trans h.fields)
  have hversion : jsonVersionOne (c.text inner) = true := by
    obtain ⟨m, hm, hkey, hone⟩ := h.version
    refine (jsonVersionOne_root hroot hlimit (by simpa using hversions)).2 ⟨m, ?_, hkey, hone⟩
    rw [Frame.members, List.mem_append, List.mem_cons]
    rcases List.mem_append.1 hm with hm | hm
    · exact .inl hm
    · exact .inr (.inr hm)
  have hdocument : documentValid (c.text inner) = true := by
    refine documentValid_of_document hzero hsizeMax ?_
    exact ⟨c.mark, c.before, _, c.after, h.mark, h.before,
      (h.frame.isObject hes.isArray.isValue).isValue, h.after, c.text_eq inner⟩
  have hlower : 2 ≤ (c.text inner).length := by
    simp only [Catalog.text, Catalog.head, Catalog.rest, List.length_append, List.length_cons]
    omega
  have hsupported : queryCatalogDocument (c.text inner) = true := by
    rw [queryCatalogDocument, documentSupported, indexSizeValid, hdocument, hversion, hfields]
    simp [hlower, hsize, hzero]
  rw [authorCatalog, if_pos hsupported, h.packagesArray hes hsizeMax.le, Option.bind_some]
  refine authorEntriesTo_inside hes.valid hes.inside _ (le_trans ?_ hsizeMax.le)
  change (inner ++ c.rest).length ≤ (c.head ++ (inner ++ c.rest)).length
  simp only [List.length_append]
  omega

/-- **What the reader takes is a frame** with the elements of its packages, of which it gives the
entries and the place of the bracket behind them. -/
theorem exists_catalog {text p : Bytes} {entries : List PackageEntry}
    (h : authorCatalog text = some (entries, p)) : ∃ (c : Catalog) (es : List Element)
      (inner : Bytes), c.Sound ∧ Elements es inner ∧ text = c.text inner ∧ p = c.rest ∧
        entriesOf [] es = some entries := by
  obtain ⟨hquery, hread⟩ := Option.ite_none_right_eq_some.1 h
  rw [queryCatalogDocument, documentSupported, indexSizeValid] at hquery
  simp only [Bool.and_eq_true, decide_eq_true_eq] at hquery
  obtain ⟨⟨⟨⟨⟨hlower, hsize⟩, hzero⟩, hdocument⟩, hversion⟩, hfields⟩ := hquery
  have hsizeMax : text.length < sizeMax := hsize.trans_lt (by decide)
  obtain ⟨mark, before, v, after, hmark, hbefore, hv, hafter, htext⟩ :=
    document_of_documentValid hzero hsizeMax hdocument
  have hobject : ∃ ms, IsObject ms v := by
    obtain ⟨b, v', rfl, -⟩ := hv.exists_cons
    have hb : b = ch '{' := by
      by_contra hne
      rw [authorCatalogFields, htext, jsonContent_append hmark hbefore hv, List.cons_append] at hfields
      exact absurd hfields (by simp [hne])
    subst hb
    exact hv.isObject
  obtain ⟨ms, hms⟩ := hobject
  have hroot : RootObject ms after text := ⟨mark, before, v, hmark, hbefore, hms, hafter, htext⟩
  rw [authorCatalogFields_root hroot hsizeMax.le] at hfields
  obtain ⟨hversions, hpackages⟩ := fieldsOnce_iff.1 hfields
  rw [Bool.toNat_false, Nat.add_zero] at hversions hpackages
  obtain ⟨front, m, behind, rfl, hkey, hothers⟩ := exists_named hpackages
  obtain ⟨hframe, hvtext⟩ := Frame.of_isObject hms
  obtain ⟨q, hq, hread⟩ := Option.bind_eq_some_iff.1 hread
  -- the member `packages` is an array
  have hfield := @jsonField_append mark before v after (str "packages") m front behind hmark hbefore
    hms (fun m' hm' => hothers m' (List.mem_append_left _ hm')) hkey (by rw [← htext]; exact hsizeMax.le)
  rw [← htext] at hfield
  rw [packagesArray, hfield] at hq
  obtain ⟨hbracket, -⟩ := Option.ite_none_right_eq_some.1 hq
  have hvalue := hms.value m (by simp)
  rw [cur_value_append hvalue] at hbracket
  have harray : ∃ es, IsArray es m.value := by
    obtain ⟨b, v', hm', -⟩ := hvalue.exists_cons
    rw [hm'] at hvalue hbracket ⊢
    obtain rfl : b = ch '[' := hbracket
    exact hvalue.isArray
  obtain ⟨es, hframed, hvalues, inner, hinner, hinnerText⟩ := harray
  let c : Catalog := ⟨mark, before, ⟨front, m, behind⟩, after⟩
  have hes : Elements es inner := ⟨fun e he => ⟨hframed e he, hvalues e he⟩, hinner⟩
  have hctext : text = c.text inner := by
    rw [c.text_eq, ← hinnerText, ← hvtext, htext]
  have hone : ∃ m' ∈ front ++ behind, keyOf m'.key = str "version" ∧ IsOne m'.value := by
    obtain ⟨m', hm', hkey', hone⟩ := (jsonVersionOne_root hroot hsize hversions).1 hversion
    refine ⟨m', ?_, hkey', hone⟩
    simp only [List.mem_append, List.mem_cons] at hm' ⊢
    rcases hm' with hm' | rfl | hm'
    · exact .inl hm'
    · rw [hkey] at hkey'
      exact absurd hkey' (by decide)
    · exact .inr hm'
  have hsound : c.Sound := ⟨hmark, hbefore, hafter, hframe, hkey, hfields, hone⟩
  have hresult := authorCatalog_text hsound hes (hctext ▸ hsize) (hctext ▸ hzero)
  rw [← hctext, h] at hresult
  obtain ⟨entries', hentries, hpair⟩ := Option.map_eq_some_iff.1 hresult.symm
  obtain ⟨rfl, rfl⟩ := Prod.mk.inj hpair
  exact ⟨c, es, inner, hsound, hes, hctext, rfl, hentries⟩

end Wpm.Repository
