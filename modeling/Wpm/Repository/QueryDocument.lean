import Wpm.JsonEncoding
import Wpm.Repository.Query
import Wpm.Repository.Table

/-!
What the queries print is one JSON document, unless a warning is printed into it.
-/

namespace Wpm.Repository

open Wpm.Lib Wpm.Lib.CString Wpm.Lib.Worklist Wpm.Lib.Decimal Wpm.Lib.Json Wpm.Operation
open Wpm.JsonOutput (encodeString stringIs_encodeString)

variable {fullPath : Bytes → Option Bytes} {files : QueryFiles}

/-- The output is a JSON document and a line end behind it. -/
def OneDocument (out : Bytes) : Prop := ∃ document, Value document ∧ out = document ++ [10]

/-- The line is ignored with a warning. -/
def Warns (fullPath : Bytes → Option Bytes) (line : Bytes) : Prop :=
  ∃ priority url allowHttp, parseEntry line = some (priority, url, allowHttp) ∧
    refusedLocator fullPath url = true

/-! ### Values -/

lemma value_jsonString (text : Option Bytes) : Value (jsonString text) := by
  unfold jsonString
  cases hout : encodeString text with
  | none => exact .literal (Or.inr (Or.inr rfl))
  | some out =>
    cases text with
    | none =>
      rw [← Option.some.inj hout]
      exact .literal (Or.inr (Or.inr rfl))
    | some text =>
      have hzero := zero_notMem_cstr text
      have hsame : encodeString (some (cstr text)) = some out := by
        rw [← hout, encodeString, encodeString, cstr_eq_self hzero]
      exact .string (JsonInput.StringIs.isString (stringIs_encodeString hzero hsame).1)

lemma value_jsonNat (n : ℕ) : Value (jsonNat n) := .number (isNumber_printInt n)

lemma value_jsonBool (b : Bool) : Value (jsonBool b) := by
  cases b with
  | false => exact .literal (Or.inr (Or.inl rfl))
  | true => exact .literal (Or.inl rfl)

lemma value_null : Value (str "null") := .literal (Or.inr (Or.inr rfl))

/-- The result of a query that is made, and else `null`. -/
lemma value_part {part : Option QueryPart} (h : ∀ p ∈ part, Value p.text) :
    Value ((part.map QueryPart.text).getD (str "null")) := by
  cases part with
  | none => exact value_null
  | some part => exact h part rfl

lemma value_quotedText {text : Bytes} (h : Plain text) : Value (quotedText text) := .string h.isString

lemma fields_jsonIdentity (name arch version : Option Bytes) :
    Fields (jsonIdentity name arch version) :=
  .cons (by decide) (value_jsonString name) <|
    .cons (by decide) (value_jsonString arch) <|
    .cons (by decide) (value_jsonString version) .nil

lemma value_catalogRow (files : QueryFiles) (c : Catalogs) (e : PackageEntry) :
    Value (catalogRow files c e) := by
  have hpolicy : ∀ a b : Bool, Plain (if a then str "stable" else if b then
      str "prerelease_allowed" else str "prerelease_excluded") := by
    intro a b
    split_ifs <;> exact forall_mem_of_all (by decide)
  have hparent : Value (if c.graph.parents.getD e.order 0 = 0 then str "null"
      else jsonNat (c.graph.parents.getD e.order 0)) := by
    split_ifs
    · exact value_null
    · exact value_jsonNat _
  refine value_objectText (.append (fields_jsonIdentity _ _ _) ?_)
  exact .cons (by decide) (value_jsonNat _) <|
    .cons (by decide) (.number (isNumber_printInt _)) <|
    .cons (by decide) (value_quotedText (hpolicy _ _)) <|
    .cons (by decide) (value_jsonBool _) <|
    .cons (by decide) hparent .nil

lemma value_retainedRow (record : InstalledEntry × Bytes) : Value (retainedRow record) :=
  value_objectText (.append (fields_jsonIdentity _ _ _)
    (.cons (by decide) (value_jsonString _) .nil))

lemma value_retainedText {rows : List Bytes} (h : ∀ row ∈ rows, Value row)
    (issues encodingIssues : ℕ) (limited readable complete : Bool) :
    Value (retainedText rows issues encodingIssues limited readable complete) := by
  have hsummary : Value (objectText [
      (str "matches", jsonNat rows.length), (str "issues", jsonNat issues),
      (str "limited", jsonBool limited), (str "serialization_issues", jsonNat encodingIssues)]) :=
    value_objectText <|
      .cons (by decide) (value_jsonNat _) <| .cons (by decide) (value_jsonNat _) <|
      .cons (by decide) (value_jsonBool _) <| .cons (by decide) (value_jsonNat _) .nil
  exact value_objectText <|
    .cons (by decide) (value_arrayText h) <|
    .cons (by decide) hsummary <|
    .cons (by decide) (value_jsonBool _) <|
    .cons (by decide) (value_jsonBool _) .nil

/-- What `query_available_records` prints when no warning is. -/
lemma value_catalogText {rows : List Bytes} (h : ∀ row ∈ rows, Value row)
    (configured inspected issues encodingIssues : ℕ) (limited loaded complete : Bool) :
    Value (catalogText [] rows configured inspected issues encodingIssues limited loaded
      complete) := by
  have hsummary : Value (objectText [
      (str "matches", jsonNat rows.length), (str "configured_roots", jsonNat configured),
      (str "inspected_roots", jsonNat inspected), (str "issues", jsonNat issues),
      (str "limited", jsonBool limited), (str "serialization_issues", jsonNat encodingIssues)]) :=
    value_objectText <|
      .cons (by decide) (value_jsonNat _) <| .cons (by decide) (value_jsonNat _) <|
      .cons (by decide) (value_jsonNat _) <| .cons (by decide) (value_jsonNat _) <|
      .cons (by decide) (value_jsonBool _) <| .cons (by decide) (value_jsonNat _) .nil
  exact value_objectText <|
    .cons (by decide) (value_arrayText h) <|
    .cons (by decide) hsummary <|
    .cons (by decide) (value_jsonBool loaded) <|
    .cons (by decide) (value_jsonBool complete) .nil

/-! ### Warnings -/

/-- A warning is no JSON. -/
lemma spoiled_printWarning (coloured : Bool) : Spoiled (printWarning coloured
    (str "Warning: invalid configured repository entry ignored.\n")) := by
  cases coloured <;> decide

lemma printed_eq_nil {loaded : LoadedRoots} (h : loaded.warnings = 0) (coloured : Bool) :
    loaded.printed coloured = [] := by
  rw [LoadedRoots.printed, h]
  rfl

lemma spoiled_printed {loaded : LoadedRoots} (h : loaded.warnings ≠ 0) (coloured : Bool) :
    Spoiled (loaded.printed coloured) := by
  obtain ⟨n, hn⟩ := Nat.exists_eq_succ_of_ne_zero h
  rw [LoadedRoots.printed, hn, List.replicate_succ, List.flatten_cons]
  exact (spoiled_printWarning coloured).append _

/-- So is what has one in it. -/
lemma spoiled_catalogText {warnings : Bytes} (h : Spoiled warnings) (rows : List Bytes)
    (configured inspected issues encodingIssues : ℕ) (limited loaded complete : Bool) :
    Spoiled (catalogText warnings rows configured inspected issues encodingIssues limited loaded
      complete) := by
  have hbracket : Balanced [ch '['] := by decide
  have hrecords : Spoiled (ch '[' :: (warnings ++ commas rows) ++ [ch ']']) :=
    (hbracket.append_spoiled (h.append _)).append _
  exact @spoiled_objectText [] _ _ _ .nil (forall_mem_of_all (by decide)) hrecords

/-- There is a warning for each line that is ignored with one. -/
lemma warnings_foldl_read (fullPath : Bytes → Option Bytes) (lines : List Bytes) :
    ∀ loaded : LoadedRoots, (lines.foldl (LoadedRoots.read fullPath) loaded).warnings = 0 ↔
      loaded.warnings = 0 ∧ ∀ line ∈ lines, ¬Warns fullPath line := by
  induction lines with
  | nil => simp
  | cons line lines ih =>
    intro loaded
    have hstep : (loaded.read fullPath line).warnings = 0 ↔
        loaded.warnings = 0 ∧ ¬Warns fullPath line := by
      unfold LoadedRoots.read Warns
      cases hline : parseEntry line with
      | none =>
        dsimp only
        split_ifs <;> simp
      | some entry =>
        obtain ⟨priority, url, allowHttp⟩ := entry
        dsimp only
        split_ifs with hrefused hroom <;> simp [hrefused]
    rw [List.foldl_cons, ih, hstep, List.forall_mem_cons, and_assoc]

/-! ### The lines that are loaded -/

/-- The repositories are those that are loaded when invalid lines are not counted. -/
lemma repositories_foldl_read (fullPath : Bytes → Option Bytes) (lines : List Bytes) :
    ∀ loaded : LoadedRoots, (lines.foldl (LoadedRoots.read fullPath) loaded).repositories =
      lines.foldl (loadLine fullPath) loaded.repositories := by
  induction lines with
  | nil => exact fun _ => rfl
  | cons line lines ih =>
    intro loaded
    have hstep : (loaded.read fullPath line).repositories =
        loadLine fullPath loaded.repositories line := by
      unfold LoadedRoots.read loadLine refusedLocator
      cases parseEntry line with
      | none =>
        dsimp only
        split_ifs <;> rfl
      | some entry =>
        obtain ⟨priority, url, allowHttp⟩ := entry
        cases hn : repositoryNormalize fullPath url with
        | none => simp only [hn, if_true]
        | some normalized =>
          simp only [hn, Bool.and_eq_true, Bool.not_eq_true', decide_eq_true_eq, Option.getD_some]
          split_ifs <;> rfl
    rw [List.foldl_cons, List.foldl_cons, ih, hstep]

lemma repositories_loadCounted {loaded : LoadedRoots}
    (h : loadCounted fullPath files = some loaded) :
    loaded.repositories = loadRepositories fullPath files.config := by
  unfold loadCounted at h
  split at h
  · exact absurd h (by simp)
  · rw [← Option.some.inj h]
    dsimp only
    rw [repositories_foldl_read]
    rfl

/-! ### The loops end -/

section Ends

variable {i : ℕ} {r : RepositoryEntry}

lemma Graph.length_link {g : Graph} (h : g.repositories.length ≤ maxRepositories) (link : Bytes) :
    (g.link fullPath i r link).repositories.length ≤ maxRepositories := by
  unfold Graph.link
  split
  · exact h
  · rename_i repositories hlink
    simp only [appendRepositoryLink, Option.bind_eq_bind, Option.bind_eq_some_iff] at hlink
    obtain ⟨source, -, normalized, -, hlink⟩ := hlink
    split_ifs at hlink with hknown hfull
    · exact Option.some.inj hlink ▸ h
    · rw [← Option.some.inj hlink, List.length_append, List.length_singleton]
      omega

lemma Graph.length_followFrom : ∀ (fuel : ℕ) (p : Bytes) {g : Graph},
    g.repositories.length ≤ maxRepositories →
    (g.followFrom fullPath i r fuel p).repositories.length ≤ maxRepositories := by
  intro fuel
  induction fuel with
  | zero => exact fun _ _ h => h
  | succ fuel ih =>
    intro p g h
    unfold Graph.followFrom
    dsimp only
    split_ifs with hend
    · exact h
    · split
      · exact h
      · split_ifs
        · exact ih _ (Graph.length_link h _)
        · exact Graph.length_link h _

lemma Graph.length_follow (document : Option Bytes) {g : Graph}
    (h : g.repositories.length ≤ maxRepositories) :
    (g.follow fullPath i r document).2.repositories.length ≤ maxRepositories := by
  unfold Graph.follow
  split
  · exact h
  · split_ifs
    · exact h
    · split
      · exact h
      · split_ifs
        · exact h
        · exact Graph.length_followFrom _ _ h

/-- The loop over the packages leaves the roots as they are. -/
lemma Catalogs.repositories_readFrom : ∀ (fuel : ℕ) (p : Bytes) (c : Catalogs),
    (c.readFrom i r fuel p).graph.repositories = c.graph.repositories := by
  intro fuel
  induction fuel with
  | zero => exact fun _ _ => rfl
  | succ fuel ih =>
    intro p c
    unfold Catalogs.readFrom
    dsimp only
    split_ifs
    · rfl
    · rfl
    · split
      · split_ifs
        · exact ih _ _
        · exact ih _ _
        · rfl
      · split
        · rfl
        · split_ifs
          · exact ih _ _
          · exact ih _ _
          · rfl

lemma Catalogs.length_links (document : Option Bytes) {c : Catalogs}
    (h : c.graph.repositories.length ≤ maxRepositories) :
    (c.links fullPath i r document).graph.repositories.length ≤ maxRepositories := by
  have hfollow := @Graph.length_follow fullPath i r document c.graph h
  unfold Catalogs.links
  split <;> rename_i heq <;> rw [heq] at hfollow <;> exact hfollow

lemma Catalogs.length_turn {c : Catalogs} (h : c.graph.repositories.length ≤ maxRepositories) :
    (c.turn fullPath files i r).graph.repositories.length ≤ maxRepositories := by
  have hage : ∀ stale, (c.age i stale).graph.repositories.length ≤ maxRepositories := by
    intro stale
    unfold Catalogs.age
    split_ifs <;> exact h
  unfold Catalogs.turn
  split
  · exact h
  · split
    · exact h
    · split_ifs
      · exact h
      · split
        · exact h
        · rw [Catalogs.repositories_readFrom]
          exact Catalogs.length_links _ (hage _)

/-- The rows that have been printed are values, and the roots have room. -/
structure Health.Sound (h : Health) : Prop where
  length : h.graph.repositories.length ≤ maxRepositories
  rows : ∀ row ∈ h.rows, Value row

lemma Health.Sound.row {h : Health} (hs : h.Sound) (configured : ℕ) {status : Bytes}
    (hstatus : Plain status) : (h.row configured i r status).Sound := by
  have htransport : Plain (if !isWebRepository r.url then str "filesystem"
      else if isHttpRepository r.url then str "http" else str "https") := by
    split_ifs <;> exact forall_mem_of_all (by decide)
  refine ⟨hs.length, fun row hrow => ?_⟩
  rcases List.mem_append.1 hrow with hrow | hrow
  · exact hs.rows row hrow
  · rw [List.mem_singleton.1 hrow]
    exact value_objectText <|
      .cons (by decide) (value_jsonNat _) <| .cons (by decide) (value_jsonBool _) <|
      .cons (by decide) (value_jsonNat _) <|
      .cons (by decide) (value_quotedText htransport) <|
      .cons (by decide) (value_jsonBool _) <|
      .cons (by decide) (value_quotedText hstatus) .nil

lemma Health.Sound.turn {h : Health} (hs : h.Sound) (followLinks : Bool) (configured : ℕ) :
    (h.turn fullPath files followLinks configured i r).Sound := by
  have hunavailable : Plain (str "unavailable") := forall_mem_of_all (by decide)
  have hinvalid : Plain (str "invalid") := forall_mem_of_all (by decide)
  have hstale : Plain (str "stale") := forall_mem_of_all (by decide)
  have hvalid : Plain (str "valid") := forall_mem_of_all (by decide)
  have hgraph : ∀ document,
      (h.graph.followIf fullPath followLinks i r document).2.repositories.length ≤
        maxRepositories := by
    intro document
    unfold Graph.followIf
    split_ifs
    · exact Graph.length_follow _ hs.length
    · exact hs.length
  unfold Health.turn
  split
  · refine Health.Sound.row ?_ configured hunavailable
    exact ⟨hs.length, hs.rows⟩
  · rename_i path _
    split
    · refine Health.Sound.row ?_ configured hinvalid
      exact ⟨hs.length, hs.rows⟩
    · have hle := hgraph (files.document path)
      split <;> rename_i heq <;> rw [heq] at hle
      · refine Health.Sound.row ?_ configured hinvalid
        exact ⟨hle, hs.rows⟩
      · split
        · refine Health.Sound.row ?_ configured hstale
          exact ⟨hle, hs.rows⟩
        · refine Health.Sound.row ?_ configured hvalid
          exact ⟨hle, hs.rows⟩

end Ends

/-! ### The documents -/

/-- `query_available_records` comes to an end. What it prints is a value, if no warning is printed,
and none if one is. -/
lemma exists_queryAvailable (fullPath : Bytes → Option Bytes) (files : QueryFiles)
    (s : QuerySelectors) : ∃ part, queryAvailable fullPath files s = some part ∧
      (Value part.text ∧ (s.ordinal ≤ maxRepositories → ∀ loaded,
          loadCounted fullPath files = some loaded → loaded.warnings = 0) ∨
        Spoiled part.text ∧ s.ordinal ≤ maxRepositories ∧ ∃ loaded,
          loadCounted fullPath files = some loaded ∧ loaded.warnings ≠ 0) := by
  unfold queryAvailable
  have hnone : Value (catalogText [] [] 0 0 0 0 false false false) :=
    value_catalogText (fun _ h => absurd h List.not_mem_nil) 0 0 0 0 false false false
  by_cases hordinal : maxRepositories < s.ordinal
  · rw [if_pos hordinal]
    exact ⟨_, rfl, Or.inl ⟨hnone, fun hle => absurd hle (Nat.not_le.2 hordinal)⟩⟩
  rw [if_neg hordinal]
  cases hload : loadCounted fullPath files with
  | none => exact ⟨_, rfl, Or.inl ⟨hnone, fun _ _ h => absurd h (by simp)⟩⟩
  | some loaded =>
    have hstart : loaded.repositories.length ≤ maxRepositories := by
      rw [repositories_loadCounted hload]
      exact length_loadRepositories_le
    have hlength : ∀ j c, Worklist.Reached (fun c : Catalogs => c.graph.repositories)
        (Catalogs.turn fullPath files)
        ⟨⟨loaded.repositories, loaded.repositories.map fun _ => 0, loaded.invalid⟩, [], [], false⟩
        j c → c.graph.repositories.length ≤ maxRepositories := by
      intro j c hreached
      induction hreached with
      | start => exact hstart
      | turn _ _ ih => exact Catalogs.length_turn ih
    have hend : maxRepositories ≤ 0 + maxRepositories := by omega
    obtain ⟨c, hwalk⟩ := Worklist.Reached.start.exists_walk hend hlength
    simp only [hwalk, Option.map_some]
    refine ⟨_, rfl, ?_⟩
    have hrows : ∀ (c : Catalogs) (records : List PackageEntry),
        ∀ row ∈ records.map (catalogRow files c), Value row := by
      intro c records row hrow
      obtain ⟨e, -, rfl⟩ := List.mem_map.1 hrow
      exact value_catalogRow files c e
    by_cases hwarn : loaded.warnings = 0
    · refine Or.inl ⟨?_, fun _ loaded' h => Option.some.inj h ▸ hwarn⟩
      rw [printed_eq_nil hwarn]
      exact value_catalogText (hrows _ _) _ _ _ _ _ _ _
    · exact Or.inr ⟨spoiled_catalogText (spoiled_printed hwarn _) _ _ _ _ _ _ _ _,
        Nat.not_lt.1 hordinal, loaded, rfl, hwarn⟩

lemma value_reportRetained (s : QuerySelectors) (c : RetainedScan) :
    Value (reportRetained s c).text := by
  refine value_retainedText (fun row hrow => ?_) _ _ _ _ _
  obtain ⟨record, -, rfl⟩ := List.mem_map.1 hrow
  exact value_retainedRow record

/-- What `query_installed_records` prints is a value. -/
lemma value_queryInstalled (files : QueryFiles) (s : QuerySelectors) :
    Value (queryInstalled files s).text := by
  have hnone : Value (retainedText [] 0 0 false false false) :=
    value_retainedText (fun _ h => absurd h List.not_mem_nil) 0 0 false false false
  unfold queryInstalled
  dsimp only
  split
  · exact hnone
  · split
    · exact value_reportRetained s _
    · exact hnone
    · exact hnone
    · split_ifs
      · exact hnone
      · exact value_reportRetained s _
    · exact hnone
    · split
      · exact hnone
      · exact value_reportRetained s _

/-- A document with a byte outside its strings that no value has there is none. -/
lemma not_oneDocument {text : Bytes} (h : Spoiled text) : ¬OneDocument (text ++ [10]) := by
  rintro ⟨document, hvalue, heq⟩
  rw [(List.append_inj' heq rfl).1] at h
  exact h.not_balanced hvalue.balanced

lemma value_healthSummary (configured inspected usable unavailable invalid stale configuration
    links : ℕ) : Value (healthSummary configured inspected usable unavailable invalid stale
      configuration links) :=
  value_objectText <|
    .cons (by decide) (value_jsonNat _) <| .cons (by decide) (value_jsonNat _) <|
    .cons (by decide) (value_jsonNat _) <| .cons (by decide) (value_jsonNat _) <|
    .cons (by decide) (value_jsonNat _) <| .cons (by decide) (value_jsonNat _) <|
    .cons (by decide) (value_jsonNat _) <| .cons (by decide) (value_jsonNat _) .nil

/-- **The diagnosis is one document.** -/
lemma exists_repoDiagnoseJson (fullPath : Bytes → Option Bytes) (files : QueryFiles)
    (followLinks : Bool) :
    ∃ out, repoDiagnoseJson fullPath files followLinks = some out ∧ OneDocument out := by
  unfold repoDiagnoseJson
  cases hload : loadCounted fullPath files with
  | none =>
    refine ⟨_, rfl, _, ?_, rfl⟩
    have hroots : Value (arrayText []) := value_arrayText fun _ h => absurd h List.not_mem_nil
    exact value_objectText <|
      .cons (by decide) (value_jsonNat 1) <|
      .cons (by decide) (value_jsonBool _) <| .cons (by decide) (value_jsonBool false) <|
      .cons (by decide) (value_quotedText (forall_mem_of_all (by decide))) <|
      .cons (by decide) hroots <|
      .cons (by decide) (value_healthSummary _ _ _ _ _ _ _ _) .nil
  | some loaded =>
    have hstart : loaded.repositories.length ≤ maxRepositories := by
      rw [repositories_loadCounted hload]
      exact length_loadRepositories_le
    have hsound : ∀ j h, Worklist.Reached (fun h : Health => h.graph.repositories)
        (Health.turn fullPath files followLinks loaded.repositories.length)
        ⟨⟨loaded.repositories, loaded.repositories.map fun _ => 0, 0⟩, [], 0, 0, 0, 0⟩ j h →
        h.Sound := by
      intro j h hreached
      induction hreached with
      | start => exact ⟨hstart, fun _ h => absurd h List.not_mem_nil⟩
      | turn _ _ ih => exact ih.turn followLinks _
    have hend : maxRepositories ≤ 0 + maxRepositories := by omega
    obtain ⟨h, hwalk⟩ := Worklist.Reached.start.exists_walk hend fun j h hreached =>
      (hsound j h hreached).length
    obtain ⟨j, hreached, -⟩ := Worklist.Reached.start.of_walk hwalk
    simp only [hwalk, Option.map_some]
    refine ⟨_, rfl, _, ?_, rfl⟩
    exact value_objectText <|
      .cons (by decide) (value_jsonNat 1) <|
      .cons (by decide) (value_jsonBool _) <|
      .cons (by decide) (value_arrayText (hsound j h hreached).rows) <|
      .cons (by decide) (value_healthSummary _ _ _ _ _ _ _ _) <|
      .cons (by decide) (value_jsonBool _) .nil

/-- The members of the document up to the catalogs. -/
lemma fields_queryDocument {command : QueryCommand} {s : QuerySelectors}
    {retained : Option QueryPart} (h : ∀ part ∈ retained, Value part.text) :
    Fields [
      (str "schema", quotedText (str "wpm.package-query.v1")),
      (str "command", quotedText (if command.isShow then str "show" else str "list")),
      (str "mode", quotedText <|
        if command.isShow then str "both" else if command.catalog then str "catalog"
        else str "retained"),
      (str "selectors", objectText (jsonIdentity s.name s.arch s.version ++
        [(str "repository", if s.ordinal = 0 then str "null" else jsonNat s.ordinal)])),
      (str "retained", (retained.map QueryPart.text).getD (str "null"))] := by
  have hcommand : Plain (if command.isShow then str "show" else str "list") := by
    split_ifs <;> exact forall_mem_of_all (by decide)
  have hmode : Plain (if command.isShow then str "both" else if command.catalog then str "catalog"
      else str "retained") := by
    split_ifs <;> exact forall_mem_of_all (by decide)
  have hordinal : Value (if s.ordinal = 0 then str "null" else jsonNat s.ordinal) := by
    split_ifs
    · exact value_null
    · exact value_jsonNat _
  have hselectors : Value (objectText (jsonIdentity s.name s.arch s.version ++
      [(str "repository", if s.ordinal = 0 then str "null" else jsonNat s.ordinal)])) :=
    value_objectText <| (fields_jsonIdentity s.name s.arch s.version).append <|
      .cons (by decide) hordinal .nil
  exact .cons (by decide) (value_quotedText (forall_mem_of_all (by decide))) <|
    .cons (by decide) (value_quotedText hcommand) <|
    .cons (by decide) (value_quotedText hmode) <|
    .cons (by decide) hselectors <|
    .cons (by decide) (value_part h) .nil

lemma value_queryDocument {command : QueryCommand} {s : QuerySelectors}
    {retained catalog : Option QueryPart} (hretained : ∀ part ∈ retained, Value part.text)
    (hcatalog : ∀ part ∈ catalog, Value part.text) :
    Value (queryDocument command s retained catalog) := by
  have hstatus : ∀ complete success : Bool, Plain (if !complete then str "partial" else
      if success then str "complete" else str "not_found") := by
    intro complete success
    split_ifs <;> exact forall_mem_of_all (by decide)
  exact value_objectText <| (fields_queryDocument hretained).append <|
    .cons (by decide) (value_part hcatalog) <| .cons (by decide) (value_jsonNat _) <|
    .cons (by decide) (value_jsonBool _) <|
    .cons (by decide) (value_quotedText (hstatus _ _)) <|
    .cons (by decide) (value_jsonNat _) <| .cons (by decide) (value_jsonBool true) <|
    .cons (by decide) (value_jsonBool false) <| .cons (by decide) (value_jsonBool false) <|
    .cons (by decide) (value_jsonBool false) .nil

lemma spoiled_queryDocument {command : QueryCommand} {s : QuerySelectors}
    {retained : Option QueryPart} {catalog : QueryPart}
    (hretained : ∀ part ∈ retained, Value part.text) (hcatalog : Spoiled catalog.text) :
    Spoiled (queryDocument command s retained (some catalog)) :=
  spoiled_objectText (fields_queryDocument hretained) (forall_mem_of_all (by decide)) hcatalog

/-- `wpm list` and `wpm show` print one document exactly when no warning is printed. -/
lemma exists_repoQueryJson (fullPath : Bytes → Option Bytes) (files : QueryFiles)
    (command : QueryCommand) (s : QuerySelectors) :
    ∃ out, repoQueryJson fullPath files command s = some out ∧
      (OneDocument out ↔ (command.catalog = true → s.ordinal ≤ maxRepositories → ∀ loaded,
        loadCounted fullPath files = some loaded → loaded.warnings = 0)) := by
  have hretained : ∀ part ∈ (if command.retained then some (queryInstalled files s) else none),
      Value part.text := by
    intro part hpart
    split_ifs at hpart
    · rw [← Option.some.inj hpart]
      exact value_queryInstalled files s
    · exact absurd hpart (by simp)
  unfold repoQueryJson
  dsimp only
  by_cases hcommand : command.catalog = true
  · rw [if_pos hcommand]
    obtain ⟨part, hpart, hcases⟩ := exists_queryAvailable fullPath files s
    rw [hpart]
    refine ⟨_, rfl, ?_⟩
    rcases hcases with ⟨hvalue, hquiet⟩ | ⟨hspoiled, hle, loaded, hload, hwarn⟩
    · refine iff_of_true ⟨_, value_queryDocument hretained ?_, rfl⟩ fun _ => hquiet
      rintro _ ⟨rfl⟩
      exact hvalue
    · exact iff_of_false (not_oneDocument (spoiled_queryDocument hretained hspoiled))
        fun h => hwarn (h hcommand hle loaded hload)
  · rw [if_neg hcommand]
    refine ⟨_, rfl, iff_of_true ⟨_, value_queryDocument hretained ?_, rfl⟩ fun h =>
      absurd h hcommand⟩
    exact fun part hpart => absurd hpart (by simp)

/-- No warning is printed when no line is ignored with one. -/
lemma warnings_loadCounted (fullPath : Bytes → Option Bytes) (files : QueryFiles) :
    (∀ loaded, loadCounted fullPath files = some loaded → loaded.warnings = 0) ↔
      (files.configPath.isSome → ∀ line ∈ configLines files.config, ¬Warns fullPath line) := by
  unfold loadCounted
  cases hpath : files.configPath with
  | none => simp
  | some path =>
    have hlines := warnings_foldl_read fullPath (configLines files.config) ⟨[], 0, 0⟩
    simp only [Option.some.injEq, forall_eq', Option.isSome_some, true_imp_iff]
    rw [hlines]
    exact and_iff_right rfl

/-- **Each command prints one JSON document**, exactly when it does not load the configuration or
no line there is ignored with a warning. -/
theorem jsonQuery_oneDocument_iff (fullPath : Bytes → Option Bytes) (files : QueryFiles)
    (query : JsonQuery) : ∃ out, query.output fullPath files = some out ∧
      (OneDocument out ↔ (query.loads = true → files.configPath.isSome →
        ∀ line ∈ configLines files.config, ¬Warns fullPath line)) := by
  cases query with
  | package command selectors =>
    obtain ⟨out, hout, hiff⟩ := exists_repoQueryJson fullPath files command selectors
    refine ⟨out, hout, hiff.trans ?_⟩
    simp only [JsonQuery.loads, Bool.and_eq_true, decide_eq_true_eq, and_imp]
    rw [← warnings_loadCounted]
  | diagnose followLinks =>
    obtain ⟨out, hout, hone⟩ := exists_repoDiagnoseJson fullPath files followLinks
    exact ⟨out, hout, iff_of_true hone fun h => absurd h Bool.false_ne_true⟩

/-! ### A path that is spelled another way -/

/-- A line whose path is not the one that Windows makes of it. -/
def spoiledFiles : QueryFiles where
  dataRoot := some (str "C:\\ProgramData\\WPM")
  config := some (str "0\tC:\\repo\\.\r\n")
  configPresent := true
  catalog _ := none
  document _ := none
  present _ := false
  fresh _ := false
  policy := none
  store := .absent
  coloured := false

/-- `wpm list --available --json` prints the warning into the list of records. -/
theorem jsonQuery_not_oneDocument : ¬∀ (fullPath : Bytes → Option Bytes) (files : QueryFiles)
    (query : JsonQuery), ∃ out, query.output fullPath files = some out ∧ OneDocument out := by
  intro h
  let fullPath : Bytes → Option Bytes := fun path =>
    some (if path = str "C:\\repo\\." then str "C:\\repo" else path)
  let selectors : QuerySelectors := ⟨none, none, none, 0⟩
  have hwarns : Warns fullPath (str "0\tC:\\repo\\.\n") := by
    refine ⟨0, str "C:\\repo\\.", false, ?_, ?_⟩ <;> decide
  have hline : str "0\tC:\\repo\\.\n" ∈ configLines spoiledFiles.config := by decide
  obtain ⟨out, hout, hone⟩ := h fullPath spoiledFiles (.package (.list true) selectors)
  obtain ⟨out', hout', hiff⟩ := exists_repoQueryJson fullPath spoiledFiles (.list true) selectors
  have hsame : out' = out := Option.some.inj (hout'.symm.trans hout)
  have hquiet := hiff.1 (hsame ▸ hone) rfl (Nat.zero_le _)
  exact (warnings_loadCounted fullPath spoiledFiles).1 hquiet (by decide) _ hline hwarns

end Wpm.Repository
