import Wpm.Repository.Catalog
import Wpm.Repository.Containment

/-!
The table of the repositories, while the indexes are read that add to it.

Whatever the indexes link to, back to their own root or in a circle, a root is added once, the table
has room for what is added, and its rows are numbered. So the loops over it end, and the number that
an entry carries leads back to the repository that lists it.
-/

namespace Wpm.Repository

open Wpm.Lib Wpm.Lib.CString Wpm.JsonInput
open Wpm.Archive (pathSize)

variable {fullPath : Bytes → Option Bytes} {config : Option Bytes} {σ : Type*}

/-- **The table is well formed**, with `configured` rows from the configuration. -/
structure WellFormed (configured : ℕ) (repositories : List RepositoryEntry) : Prop where
  length_le : repositories.length ≤ maxRepositories
  configured_le : configured ≤ repositories.length
  numbered : Numbered repositories
  /-- A linked root is none of those before it. -/
  linked : ∀ i j r s, i < j → configured ≤ j → repositories[i]? = some r →
    repositories[j]? = some s → fold r.url ≠ fold s.url

/-- **The entry is one that a document lists**, which has been read for the repository of the
entry's number. -/
structure Attributed (listed : RepositoryEntry → Bytes → List PackageEntry) (v : Survey σ)
    (e : PackageEntry) (r : RepositoryEntry) (text : Bytes) : Prop where
  found : v.repositories[e.order]? = some r
  read : (r, text) ∈ v.documents
  listed : e ∈ listed r text
  priority : e.priority = r.priority
  /-- Its package is retrieved from beneath the root of that repository. -/
  source : ∀ source, obtainSource v.repositories e = some source →
    packageSource r.url e.url = some source

/-- What holds while a loop goes over the repositories. -/
structure Survey.Valid (fullPath : Bytes → Option Bytes) (config : Option Bytes)
    (listed : RepositoryEntry → Bytes → List PackageEntry) (v : Survey σ) : Prop where
  explored : Explored fullPath config v.repositories
  wellFormed : WellFormed (loadRepositories fullPath config).length v.repositories
  attributed : ∀ e ∈ v.entries, ∃ r text, Attributed listed v e r text

/-- **The loop is sound**: its state is valid at every turn, it ends, and it ends with no
repository left to go to. -/
structure Sound (fullPath : Bytes → Option Bytes) (config : Option Bytes)
    (listed : RepositoryEntry → Bytes → List PackageEntry)
    (turn : ℕ → RepositoryEntry → Survey σ → Survey σ) (state : σ) (run : Option (Survey σ)) :
    Prop where
  valid : ∀ i v, Worklist.Reached Survey.repositories turn (.start fullPath config state) i v →
    v.Valid fullPath config listed
  ends : ∃ i v, run = some v ∧ v.repositories.length ≤ i ∧
    Worklist.Reached Survey.repositories turn (.start fullPath config state) i v

/-! ### The table -/

variable {configured : ℕ} {repositories : List RepositoryEntry} {r parent : RepositoryEntry}

lemma length_foldl_loadLine_le : ∀ (lines : List Bytes) (result : List RepositoryEntry),
    result.length ≤ maxRepositories →
      (lines.foldl (loadLine fullPath) result).length ≤ maxRepositories
  | [], _, h => h
  | line :: lines, result, h => by
    refine length_foldl_loadLine_le lines (loadLine fullPath result line) ?_
    unfold loadLine
    split
    · exact h
    · split
      · exact h
      · split_ifs with hpath hroom
        · exact h
        · exact h
        · rw [List.length_append, List.length_singleton]
          omega

lemma length_loadRepositories_le : (loadRepositories fullPath config).length ≤ maxRepositories := by
  have hlines := @length_foldl_loadLine_le fullPath (configLines config) [] (Nat.zero_le _)
  unfold loadRepositories
  dsimp only
  split_ifs with hfull
  · exact hlines
  · rw [not_or] at hfull
    rw [List.length_append, List.length_singleton]
    omega

/-- A root that the table has room for, and does not have, is added. -/
lemma WellFormed.concat (h : WellFormed configured repositories)
    (hroom : repositories.length < maxRepositories) (hr : r.order = repositories.length)
    (hfresh : ∀ s ∈ repositories, fold s.url ≠ fold r.url) :
    WellFormed configured (repositories ++ [r]) where
  length_le := by
    rw [List.length_append, List.length_singleton]
    omega
  configured_le := by
    have := h.configured_le
    rw [List.length_append, List.length_singleton]
    omega
  numbered := h.numbered.concat hr
  linked := by
    intro i j s t hij hj hi ht
    rcases Nat.lt_or_ge j repositories.length with hlt | hge
    · rw [List.getElem?_append_left (by omega)] at hi
      rw [List.getElem?_append_left hlt] at ht
      exact h.linked i j s t hij hj hi ht
    · -- the later root is the new one
      have hjlen : j < (repositories ++ [r]).length := (List.getElem?_eq_some_iff.1 ht).1
      rw [List.length_append, List.length_singleton] at hjlen
      obtain rfl : j = repositories.length := by omega
      rw [List.getElem?_concat_length] at ht
      obtain rfl := Option.some.inj ht
      rw [List.getElem?_append_left hij] at hi
      exact hfresh s (List.mem_of_getElem? hi)

lemma appendRepositoryLink_room {link : Bytes} {repositories' : List RepositoryEntry}
    (h : appendRepositoryLink fullPath repositories parent link = some repositories') :
    repositories' = repositories ∨ repositories.length < maxRepositories ∧
      ∃ child, repositories' = repositories ++ [child] ∧ child.order = repositories.length ∧
        ∀ s ∈ repositories, fold s.url ≠ fold child.url := by
  simp only [appendRepositoryLink, Option.bind_eq_bind, Option.bind_eq_some_iff] at h
  obtain ⟨source, -, normalized, -, h⟩ := h
  split_ifs at h with hknown hroom
  · exact Or.inl (Option.some.inj h).symm
  · refine Or.inr ⟨Nat.lt_of_not_le hroom, _, (Option.some.inj h).symm, rfl, ?_⟩
    intro s hs hfold
    exact hknown (List.any_eq_true.2 ⟨s, hs, decide_eq_true hfold⟩)

/-- **Every table that a command comes to is well formed.** -/
theorem Explored.wellFormed (h : Explored fullPath config repositories) :
    WellFormed (loadRepositories fullPath config).length repositories := by
  induction h with
  | load =>
    refine ⟨length_loadRepositories_le, le_rfl, Explored.load.numbered, ?_⟩
    intro i j r s _ hj _ hs
    exact absurd (List.getElem?_eq_some_iff.1 hs).1 (Nat.not_lt_of_le hj)
  | link _ _ happend ih =>
    obtain rfl | ⟨hroom, child, rfl, horder, hfresh⟩ := appendRepositoryLink_room happend
    · exact ih
    · exact ih.concat hroom horder hfresh

/-- The table only grows at its end. -/
lemma prefix_followLinks (text : Bytes) :
    repositories <+: followLinks fullPath parent repositories text := by
  unfold followLinks
  induction repositoryLinks text generalizing repositories with
  | nil => exact List.prefix_rfl
  | cons link links ih =>
    rw [List.foldl_cons]
    refine List.IsPrefix.trans ?_ ih
    cases happend : appendRepositoryLink fullPath repositories parent link with
    | none => exact List.prefix_rfl
    | some repositories' =>
      obtain rfl | ⟨-, child, rfl, -, -⟩ := appendRepositoryLink_room happend
      · exact List.prefix_rfl
      · exact List.prefix_append ..

/-! ### The entries -/

variable {listed : RepositoryEntry → Bytes → List PackageEntry} {v v' : Survey σ} {e : PackageEntry}
  {text : Bytes}

/-- An entry of a repository's document, while that repository is in the table. -/
lemma Attributed.of_listed (hfound : v.repositories[e.order]? = some r)
    (hread : (r, text) ∈ v.documents) (hlisted : e ∈ listed r text)
    (hpriority : e.priority = r.priority) : Attributed listed v e r text where
  found := hfound
  read := hread
  listed := hlisted
  priority := hpriority
  source := by
    intro source hsource
    rw [obtainSource, hfound] at hsource
    dsimp only at hsource
    split_ifs at hsource
    exact hsource

/-- An entry stays attributed while the table grows and more documents are read. -/
lemma Attributed.mono (h : Attributed listed v e r text)
    (hrepositories : v.repositories <+: v'.repositories)
    (hdocuments : ∀ d ∈ v.documents, d ∈ v'.documents) : Attributed listed v' e r text := by
  have hfound : v'.repositories[e.order]? = some r := by
    obtain ⟨more, hmore⟩ := hrepositories
    have hlt := (List.getElem?_eq_some_iff.1 h.found).1
    rw [← hmore, List.getElem?_append_left hlt]
    exact h.found
  exact .of_listed hfound (hdocuments _ h.read) h.listed h.priority

lemma mem_addEntries {entries more : List PackageEntry} (h : e ∈ addEntries entries more) :
    e ∈ entries ∨ e ∈ more :=
  (List.mem_append.1 h).imp_right List.mem_of_mem_take

/-- The entries of an index carry the number and the priority of its repository. -/
lemma mem_indexEntries (h : e ∈ indexEntries r text) :
    e.order = r.order ∧ e.priority = r.priority := by
  unfold indexEntries at h
  split at h
  · exact absurd h List.not_mem_nil
  · obtain ⟨m, -, hm⟩ := List.mem_filterMap.1 h
    unfold Members.entry at hm
    split_ifs at hm
    rw [← Option.some.inj hm]
    exact ⟨rfl, rfl⟩

lemma queryRecord_eq {i : ℕ} {p q : Bytes} (h : queryRecord i r p = some (e, q)) :
    e.order = i ∧ e.priority = r.priority := by
  unfold queryRecord at h
  split at h
  · exact absurd h.symm (Option.some_ne_none _)
  · split_ifs at h
    rw [← (Prod.mk.inj (Option.some.inj h)).1]
    exact ⟨rfl, rfl⟩

/-- The records of an index carry the number and the priority of its repository. -/
lemma mem_queryRecords {i : ℕ} (h : e ∈ queryRecords i r text) :
    e.order = i ∧ e.priority = r.priority := by
  have hloop : ∀ (fuel : ℕ) (p : Bytes), e ∈ queryRecordsFrom i r fuel p →
      e.order = i ∧ e.priority = r.priority := by
    intro fuel
    induction fuel with
    | zero => exact fun p h => absurd h List.not_mem_nil
    | succ fuel ih =>
      intro p h
      unfold queryRecordsFrom at h
      dsimp only at h
      by_cases hend : cur (jsonSpace p) = ch ']'
      · rw [if_pos hend] at h
        exact absurd h List.not_mem_nil
      · rw [if_neg hend] at h
        cases hrecord : queryRecord i r (jsonSpace p) with
        | some record =>
          rw [hrecord] at h
          rcases List.mem_cons.1 h with rfl | h
          · exact queryRecord_eq hrecord
          · split_ifs at h
            · exact ih _ h
            · exact ih _ h
            · exact absurd h List.not_mem_nil
        | none =>
          rw [hrecord] at h
          dsimp only at h
          split_ifs at h
          · exact absurd h List.not_mem_nil
          · exact ih _ h
          · exact ih _ h
          · exact absurd h List.not_mem_nil
  unfold queryRecords at h
  split at h
  · exact absurd h List.not_mem_nil
  · exact hloop _ _ h

/-! ### The turns -/

variable {read : RepositoryEntry → σ → Option Bytes × σ} {i : ℕ}

/-- A turn keeps the state valid, when it adds to the table and the documents what a command comes
to, and only entries that are attributed. -/
lemma Survey.Valid.extend (h : v.Valid fullPath config listed)
    (hexplored : Explored fullPath config v'.repositories)
    (hrepositories : v.repositories <+: v'.repositories)
    (hdocuments : ∀ d ∈ v.documents, d ∈ v'.documents)
    (hentries : ∀ e ∈ v'.entries, e ∈ v.entries ∨ ∃ r text, Attributed listed v' e r text) :
    v'.Valid fullPath config listed where
  explored := hexplored
  wellFormed := hexplored.wellFormed
  attributed := by
    intro e he
    rcases hentries e he with hold | hnew
    · obtain ⟨r, text, hattr⟩ := h.attributed e hold
      exact ⟨r, text, hattr.mono hrepositories hdocuments⟩
    · exact hnew

lemma Survey.Valid.start (state : σ) :
    (Survey.start fullPath config state).Valid fullPath config listed where
  explored := .load
  wellFormed := Explored.load.wellFormed
  attributed := fun _ he => absurd he List.not_mem_nil

/-- Reading a document changes neither the table nor the entries. -/
lemma Survey.Valid.readDocument (h : v.Valid fullPath config listed) :
    (v.readDocument read r).2.Valid fullPath config listed :=
  h.extend h.explored List.prefix_rfl (fun _ hd => List.mem_append_left _ hd) fun _ he => Or.inl he

lemma mem_documents_readDocument (h : (v.readDocument read r).1 = some text) :
    (r, text) ∈ (v.readDocument read r).2.documents := by
  have hread : (read r v.state).1 = some text := h
  refine List.mem_append_right _ (List.mem_map.2 ⟨text, ?_, rfl⟩)
  rw [hread]
  exact List.mem_singleton_self text

/-- **A turn of `load_entries`** keeps the state valid. -/
lemma Survey.Valid.loadTurn (h : v.Valid fullPath config indexEntries)
    (hi : v.repositories[i]? = some r) :
    (loadTurn fullPath read i r v).Valid fullPath config indexEntries := by
  have hread : (v.readDocument read r).2.Valid fullPath config indexEntries := h.readDocument
  unfold Wpm.Repository.loadTurn
  split
  · rename_i v₁ heq
    rw [heq] at hread
    exact hread
  · rename_i text v₁ heq
    have hmem := mem_documents_readDocument (congrArg Prod.fst heq)
    have hrepositories : v₁.repositories = v.repositories :=
      (congrArg (fun p => p.2.repositories) heq).symm
    rw [heq] at hread hmem
    unfold parseIndex
    split_ifs with hsupported
    · have hparent : r ∈ v₁.repositories := hrepositories ▸ List.mem_of_getElem? hi
      refine hread.extend (hread.explored.followLinks hparent text) (prefix_followLinks text)
        (fun _ hd => hd) fun e he => ?_
      rcases mem_addEntries he with he | he
      · exact Or.inl he
      · obtain ⟨horder, hpriority⟩ := mem_indexEntries he
        have hfound : v₁.repositories[e.order]? = some r := by
          rw [horder, h.wellFormed.numbered i r hi, hrepositories]
          exact hi
        have hattr : Attributed indexEntries v₁ e r text := .of_listed hfound hmem he hpriority
        exact Or.inr ⟨r, text, hattr.mono (prefix_followLinks text) fun _ hd => hd⟩
    · exact hread

/-- Following the links of an index adds no entry. -/
lemma Survey.Valid.followTurn (h : v.Valid fullPath config listed) (hr : r ∈ v.repositories) :
    (followTurn fullPath read i r v).Valid fullPath config listed := by
  have hread : (v.readDocument read r).2.Valid fullPath config listed := h.readDocument
  unfold Wpm.Repository.followTurn
  split
  · rename_i v₁ heq
    rw [heq] at hread
    exact hread
  · rename_i text v₁ heq
    have hrepositories : v₁.repositories = v.repositories :=
      (congrArg (fun p => p.2.repositories) heq).symm
    rw [heq] at hread
    unfold diagnoseLinks
    split_ifs
    · exact hread.extend (hread.explored.followLinks (hrepositories ▸ hr) text)
        (prefix_followLinks text) (fun _ hd => hd) fun _ he => Or.inl he
    · exact hread

/-- **A turn of `diagnose_repositories`** keeps the state valid. -/
lemma Survey.Valid.diagnoseTurn {follow : Bool} (h : v.Valid fullPath config listed)
    (hi : v.repositories[i]? = some r) :
    (diagnoseTurn fullPath read follow i r v).Valid fullPath config listed := by
  have hread : (v.readDocument read r).2.Valid fullPath config listed := h.readDocument
  unfold Wpm.Repository.diagnoseTurn
  split
  · rename_i v₁ heq
    rw [heq] at hread
    exact hread
  · rename_i text v₁ heq
    have hrepositories : v₁.repositories = v.repositories :=
      (congrArg (fun p => p.2.repositories) heq).symm
    rw [heq] at hread
    split_ifs
    · exact hread.followTurn (hrepositories ▸ List.mem_of_getElem? hi)
    · exact hread

/-- Following links adds to the table and to the documents. -/
lemma followTurn_extends : v.repositories <+: (followTurn fullPath read i r v).repositories ∧
    ∀ d ∈ v.documents, d ∈ (followTurn fullPath read i r v).documents := by
  unfold followTurn Survey.readDocument
  cases (read r v.state).1 with
  | none => exact ⟨List.prefix_rfl, fun _ hd => List.mem_append_left _ hd⟩
  | some text =>
    dsimp only
    unfold diagnoseLinks
    split_ifs
    · exact ⟨prefix_followLinks text, fun _ hd => List.mem_append_left _ hd⟩
    · exact ⟨List.prefix_rfl, fun _ hd => List.mem_append_left _ hd⟩

/-- **A turn of `query_available_records`** keeps the state valid. -/
lemma Survey.Valid.queryTurn
    (h : v.Valid fullPath config fun r text => queryRecords r.order r text)
    (hi : v.repositories[i]? = some r) :
    (queryTurn fullPath read i r v).Valid fullPath config
      fun r text => queryRecords r.order r text := by
  have hread : (v.readDocument read r).2.Valid fullPath config
      fun r text => queryRecords r.order r text := h.readDocument
  have horder := h.wellFormed.numbered i r hi
  unfold Wpm.Repository.queryTurn
  split
  · rename_i v₁ heq
    rw [heq] at hread
    exact hread
  · rename_i text v₁ heq
    have hmem := mem_documents_readDocument (congrArg Prod.fst heq)
    have hrepositories : v₁.repositories = v.repositories :=
      (congrArg (fun p => p.2.repositories) heq).symm
    rw [heq] at hread hmem
    split_ifs
    · have hlinks := @Survey.Valid.followTurn fullPath config _ r _ v₁ read i hread
        (hrepositories ▸ List.mem_of_getElem? hi)
      obtain ⟨hgrows, hdocuments⟩ := @followTurn_extends fullPath _ r v₁ read i
      refine hlinks.extend hlinks.explored List.prefix_rfl (fun _ hd => hd) fun e he => ?_
      rcases mem_addEntries he with he | he
      · exact Or.inl he
      · obtain ⟨heorder, hpriority⟩ := mem_queryRecords he
        have hfound : v₁.repositories[e.order]? = some r := by
          rw [heorder, hrepositories]
          exact hi
        have hlisted : e ∈ queryRecords r.order r text := horder.symm ▸ he
        have hattr : Attributed (fun r text => queryRecords r.order r text) v₁ e r text :=
          .of_listed hfound hmem hlisted hpriority
        exact Or.inr ⟨r, text, hattr.mono hgrows hdocuments⟩
    · exact hread

/-- A loop whose turns keep the state valid is sound: the table never has more rows than turns. -/
lemma sound_survey {turn : ℕ → RepositoryEntry → Survey σ → Survey σ}
    (hturn : ∀ i r (v : Survey σ), v.Valid fullPath config listed → v.repositories[i]? = some r →
      (turn i r v).Valid fullPath config listed) (state : σ) :
    Sound fullPath config listed turn state (survey fullPath turn config state) := by
  have hvalid : ∀ i v,
      Worklist.Reached Survey.repositories turn (.start fullPath config state) i v →
        v.Valid fullPath config listed := by
    intro i v h
    induction h with
    | start => exact .start state
    | turn _ hi ih => exact hturn _ _ _ ih hi
  refine ⟨hvalid, ?_⟩
  have hstart : Worklist.Reached Survey.repositories turn (.start fullPath config state) 0
      (.start fullPath config state) := .start
  obtain ⟨v, hrun⟩ := hstart.exists_walk (by omega : maxRepositories ≤ 0 + maxRepositories)
    fun i v h => (hvalid i v h).wellFormed.length_le
  obtain ⟨i, hreached, hlength⟩ := hstart.of_walk hrun
  exact ⟨i, v, hrun, hlength, hreached⟩

/-- **The repository table stays well formed**, in each of the loops over it: for every list of the
configuration, and whatever the documents hold and link to. It never outgrows its capacity, its
rows are numbered, no linked root is one of those before it, the loop ends, and every entry is one
of a document that has been read for the repository of its number. -/
theorem table_sound (fullPath : Bytes → Option Bytes) (config : Option Bytes) (state : σ)
    (read : RepositoryEntry → σ → Option Bytes × σ) :
    Sound fullPath config indexEntries (loadTurn fullPath read) state
        (loadEntries fullPath read config state) ∧
      (∀ follow, Sound fullPath config (fun _ _ => []) (diagnoseTurn fullPath read follow) state
        (diagnoseRepositories fullPath read follow config state)) ∧
      Sound fullPath config (fun r text => queryRecords r.order r text) (queryTurn fullPath read)
        state (queryAvailableRecords fullPath read config state) :=
  ⟨sound_survey (fun _ _ _ h hi => h.loadTurn hi) state,
    fun _ => sound_survey (fun _ _ _ h hi => h.diagnoseTurn hi) state,
    sound_survey (fun _ _ _ h hi => h.queryTurn hi) state⟩

end Wpm.Repository
