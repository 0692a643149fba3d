import Wpm.Lib.Critical
import Wpm.Repository.CatalogIndex

/-!
Publishing in a repository from several processes at the same time.

`wpm_repo_add_package`, `wpm_repo_index` and `wpm_repo_sign` work under the lock file
`.wpm-publish.lock`, which is made by the process that takes the lock and goes away when the process
closes it or ends. Each of them reads `index.json`, decides what is to be written, and then writes
one file after the other: it makes a candidate, `.index.json.new` for `index.json`, writes it, closes
it and moves it to its name. Any check or call may fail, and a process may be stopped before any of
its actions.

`step` is one action of one process. The history of a run has the files that were moved to their
names, and `Event.apply` is what such an event means when nothing else happens meanwhile.
-/

namespace Wpm.Publication

open Wpm.Lib.CString Wpm.Lib.Critical Wpm.Lib.Search
open Wpm.Archive (archiveInspect)
open Wpm.Operation (PackageInfo)
open Wpm.Repository (PackageEntry IndexedFile authorCatalog addedCatalog addedItem addedEntry
  indexedCatalog)

/-! ### Files -/

/-- A file that the commands publish. -/
inductive Name
  | index
  | signature
  | archive (item : Bytes)
  deriving DecidableEq

/-- What is at the names. -/
abbrev Files := Name → Option Bytes

/-- The directory of the repository: the files, the candidates for them, and the process that has the
lock. -/
structure Directory (ι : Type) where
  file : Files
  candidate : Files
  lock : Option ι

/-- What the commands get from elsewhere: the hash of an archive, the metadata in it, the sorting of
the C library, and the path of the directory `packages`. -/
structure World where
  hash : Bytes → Bytes
  length_hash : ∀ b, (hash b).length = 32
  metadata : Bytes → Option Bytes
  qsort : (PackageEntry → PackageEntry → Ordering) → List PackageEntry → List PackageEntry
  isQsort : IsQsort qsort
  packages : Bytes

/-- What a process is asked to do. An archive that is added is open, so that its bytes stay as they
are; `document` is the signature of a catalog that `wpm_sign_repository_bytes` makes with the key. -/
inductive Command
  | add (archive : Bytes)
  | index
  | sign (document : Bytes → Bytes) (replace : Bool)

/-- A file comes to its name, or a process leaves a candidate behind. -/
inductive Event (ι : Type)
  | store (i : ι) (archive : Bytes)
  | add (i : ι) (archive : Bytes)
  | rebuild (i : ι) (found : List IndexedFile) (whole : Bool)
  | sign (i : ι) (document : Bytes → Bytes)
  | left (i : ι)

variable {ι : Type} (w : World)

/-- The place of an archive that is added. -/
def World.place (archive : Bytes) : Name := .archive (addedItem (w.hash archive))

/-- `wpm_archive_inspect` of an archive. -/
def World.inspect (archive : Bytes) : Option PackageInfo := (w.metadata archive).bind archiveInspect

/-- **What an event means**: a new archive gets its name, the catalog gets the entry of an archive
that is there, the catalog is rebuilt, or it is signed. -/
def Event.apply : Event ι → Files → Option Files
  | .store _ archive, f =>
    if f (w.place archive) = none then some (Function.update f (w.place archive) (some archive))
    else none
  | .add _ archive, f =>
    if (f (w.place archive)).any fun stored => w.hash stored = w.hash archive then
      (w.inspect archive).bind fun info => (f .index).bind fun text =>
        (addedCatalog text info (w.hash archive)).map fun updated =>
          Function.update f .index (some updated)
    else none
  | .rebuild _ found whole, f =>
    (f .index).bind fun text => (indexedCatalog w.qsort text w.packages found whole).map
      fun updated => Function.update f .index (some updated)
  | .sign _ document, f =>
    (f .index).bind fun text => if (authorCatalog text).isSome = true then
      some (Function.update f .signature (some (document text))) else none
  | .left _, f => some f

/-- One event after the other. -/
def replay (log : List (Event ι)) (f : Files) : Option Files := log.foldlM (fun f e => e.apply w f) f

/-! ### Processes -/

/-- A file that a process is to publish. -/
structure Item (ι : Type) where
  name : Name
  content : Bytes
  replace : Bool
  event : Event ι

/-- Where a process is: it has the lock; it has `index.json` open, and has read it; it comes to the
next of the files; it has a candidate open and has written so many bytes; it has closed it; it is on
its way out, with the candidate that it owns; it has returned; it was stopped. -/
inductive Phase (ι : Type)
  | start
  | locked
  | opened (text : Bytes)
  | ready (items : List (Item ι))
  | writing (item : Item ι) (rest : List (Item ι)) (written : ℕ)
  | closed (item : Item ι) (rest : List (Item ι))
  | leaving (ok : Bool) (owned : Option Name)
  | done (ok : Bool)
  | stopped

/-- An action. `refuse` is a check that does not hold, or a call that fails; the files that an index
run finds, and whether a candidate can be deleted, are up to the file system. -/
inductive Action
  | lock
  | read
  | prepare (found : List IndexedFile) (whole : Bool)
  | create
  | write (n : ℕ)
  | close
  | move
  | finish
  | refuse
  | delete (done : Bool)
  | release
  | stop

/-- What the process has decided to publish, when the catalog is `text`: none when a check does not
hold, and no file when the catalog is already current. -/
def Command.items (i : ι) (d : Directory ι) (text : Bytes) (found : List IndexedFile)
    (whole : Bool) : Command → Option (List (Item ι))
  | .add archive =>
    (w.inspect archive).bind fun info =>
    (addedCatalog text info (w.hash archive)).bind fun updated =>
      if d.candidate .index ≠ none ∨ d.candidate (w.place archive) ≠ none then none
      else match d.file (w.place archive) with
        | none => some [⟨w.place archive, archive, false, .store i archive⟩,
            ⟨.index, updated, true, .add i archive⟩]
        | some stored =>
          if w.hash stored = w.hash archive then some [⟨.index, updated, true, .add i archive⟩]
          else none
  | .index =>
    if d.candidate .index ≠ none then none
    else (indexedCatalog w.qsort text w.packages found whole).map fun updated =>
      if text = updated then [] else [⟨.index, updated, true, .rebuild i found whole⟩]
  | .sign document replace =>
    if d.candidate .signature ≠ none ∨ (d.file .signature ≠ none ∧ replace = false) then none
    else some [⟨.signature, document text, replace, .sign i document⟩]

/-- The candidate that the process has made and neither moved nor deleted. -/
def Phase.owned : Phase ι → Option Name
  | .writing item _ _ => some item.name
  | .closed item _ => some item.name
  | .leaving _ owned => owned
  | _ => none

/-- The process has the lock. -/
def Phase.inside : Phase ι → Bool
  | .start => false
  | .done _ => false
  | .stopped => false
  | _ => true

def Directory.setCandidate (d : Directory ι) (name : Name) (content : Option Bytes) : Directory ι :=
  { d with candidate := Function.update d.candidate name content }

/-- The candidate gets its name. -/
def Directory.publish (d : Directory ι) (name : Name) : Directory ι :=
  { d with
    file := Function.update d.file name (d.candidate name)
    candidate := Function.update d.candidate name none }

def Directory.release (d : Directory ι) : Directory ι := { d with lock := none }

variable (command : ι → Command)

/-- **One action of the process `i`**, if it can come next there. -/
def step (i : ι) (phase : Phase ι) (d : Directory ι) (a : Action) :
    Option (Phase ι × Directory ι × List (Event ι)) :=
  match a, phase with
  | .lock, .start =>
    match d.lock with
    | none => some (.locked, { d with lock := some i }, [])
    | some _ => some (.done false, d, [])
  | .read, .locked =>
    match d.file .index with
    | none => some (.leaving false none, d, [])
    | some text =>
      if (authorCatalog text).isSome = true then some (.opened text, d, [])
      else some (.leaving false none, d, [])
  | .prepare found whole, .opened text =>
    match (command i).items w i d text found whole with
    | none => some (.leaving false none, d, [])
    | some items => some (.ready items, d, [])
  | .create, .ready (item :: rest) =>
    if d.candidate item.name = none then
      some (.writing item rest 0, d.setCandidate item.name (some []), [])
    else some (.leaving false none, d, [])
  | .write n, .writing item rest _ =>
    some (.writing item rest n, d.setCandidate item.name (some (item.content.take n)), [])
  | .close, .writing item rest n =>
    if n < item.content.length then none else some (.closed item rest, d, [])
  | .move, .closed item rest =>
    if item.replace = true ∨ d.file item.name = none then
      some (.ready rest, d.publish item.name, [item.event])
    else some (.leaving false (some item.name), d, [])
  | .finish, .ready [] => some (.leaving true none, d, [])
  | .refuse, .start => some (.done false, d, [])
  | .refuse, .locked => some (.leaving false none, d, [])
  | .refuse, .opened _ => some (.leaving false none, d, [])
  | .refuse, .ready (_ :: _) => some (.leaving false none, d, [])
  | .refuse, .writing item _ _ => some (.leaving false (some item.name), d, [])
  | .refuse, .closed item _ => some (.leaving false (some item.name), d, [])
  | .delete true, .leaving ok (some name) => some (.leaving ok none, d.setCandidate name none, [])
  | .delete false, .leaving ok (some _) => some (.leaving ok none, d, [.left i])
  | .release, .leaving ok none => some (.done ok, d.release, [])
  | .stop, .start => some (.stopped, d, [])
  | .stop, .done _ => none
  | .stop, .stopped => none
  | .stop, phase =>
    some (.stopped, d.release, if phase.owned = none then [] else [.left i])
  | _, _ => none

/-! ### What an action does -/

/-- The actions of the process `i`, by what they change. -/
inductive Acts (i : ι) : Phase ι → Directory ι → Phase ι → Directory ι → List (Event ι) → Prop
  | quit {d phase} : phase = .done false ∨ phase = .stopped → Acts i .start d phase d []
  | lock {d} : d.lock = none → Acts i .start d .locked { d with lock := some i } []
  | read {d text} : d.file .index = some text → (authorCatalog text).isSome = true →
      Acts i .locked d (.opened text) d []
  | prepare {d text found whole items} : (command i).items w i d text found whole = some items →
      Acts i (.opened text) d (.ready items) d []
  | create {d item rest} : d.candidate item.name = none →
      Acts i (.ready (item :: rest)) d (.writing item rest 0) (d.setCandidate item.name (some [])) []
  | write {d item rest m n} : Acts i (.writing item rest m) d (.writing item rest n)
      (d.setCandidate item.name (some (item.content.take n))) []
  | close {d item rest n} : item.content.length ≤ n →
      Acts i (.writing item rest n) d (.closed item rest) d []
  | move {d item rest} :
      Acts i (.closed item rest) d (.ready rest) (d.publish item.name) [item.event]
  | finish {d} : Acts i (.ready []) d (.leaving true none) d []
  | refuse {d phase} : phase.inside = true → (∀ ok owned, phase ≠ .leaving ok owned) →
      phase ≠ .ready [] → Acts i phase d (.leaving false phase.owned) d []
  | delete {d ok name} : Acts i (.leaving ok (some name)) d (.leaving ok none)
      (d.setCandidate name none) []
  | leave {d ok name} : Acts i (.leaving ok (some name)) d (.leaving ok none) d [.left i]
  | release {d ok} : Acts i (.leaving ok none) d (.done ok) d.release []
  | stop {d phase} : phase.inside = true → Acts i phase d .stopped d.release
      (if phase.owned = none then [] else [.left i])

variable {w command} {i : ι} {phase phase' : Phase ι} {d d' : Directory ι} {a : Action}
  {events : List (Event ι)}

/-- **Each action is one of these.** -/
lemma step_acts (h : step w command i phase d a = some (phase', d', events)) :
    Acts w command i phase d phase' d' events := by
  unfold step at h
  split at h
  case h_1 =>
    split at h
    · next hlock =>
      cases h
      exact .lock hlock
    · cases h
      exact .quit (.inl rfl)
  case h_2 =>
    split at h
    · cases h
      exact .refuse rfl (by simp) (by simp)
    · next hfile =>
      split at h
      · next hcatalog =>
        cases h
        exact .read hfile hcatalog
      · cases h
        exact .refuse rfl (by simp) (by simp)
  case h_3 =>
    split at h
    · cases h
      exact .refuse rfl (by simp) (by simp)
    · next hitems =>
      cases h
      exact .prepare hitems
  case h_4 =>
    split at h
    · next hnone =>
      cases h
      exact .create hnone
    · cases h
      exact .refuse rfl (by simp) (by simp)
  case h_5 =>
    cases h
    exact .write
  case h_6 =>
    split at h
    · cases h
    · next hlen =>
      cases h
      exact .close (Nat.le_of_not_lt hlen)
  case h_7 =>
    split at h
    · cases h
      exact .move
    · cases h
      exact .refuse rfl (by simp) (by simp)
  case h_8 =>
    cases h
    exact .finish
  case h_9 =>
    cases h
    exact .quit (.inl rfl)
  case h_15 =>
    cases h
    exact .delete
  case h_16 =>
    cases h
    exact .leave
  case h_17 =>
    cases h
    exact .release
  case h_18 =>
    cases h
    exact .quit (.inr rfl)
  case h_21 hstart hdone hstopped =>
    cases h
    refine .stop ?_
    cases phase with
    | start => exact absurd rfl hstart
    | done ok => exact absurd rfl (hdone ok)
    | stopped => exact absurd rfl hstopped
    | _ => rfl
  case h_19 => cases h
  case h_20 => cases h
  case h_22 => cases h
  -- a check that does not hold, or a call that fails
  all_goals
    cases h
    exact .refuse rfl (by simp) (by simp)

/-! ### What a process knows -/

/-- The event is that the process `i` changes the catalog, or its signature. -/
def Event.Publishes (i : ι) : Event ι → Prop
  | .add j _ => j = i
  | .rebuild j _ _ => j = i
  | .sign j _ => j = i
  | _ => False

def Unpublished (i : ι) (log : List (Event ι)) : Prop := ∀ e ∈ log, ¬e.Publishes i

/-- The event that stands for the success of a command. -/
def Command.Announced (i : ι) : Command → Event ι → Prop
  | .add archive, e => e = .add i archive
  | .index, e => ∃ found whole, e = .rebuild i found whole
  | .sign document _, e => e = .sign i document

/-- What the process reports when it returns: with success the event is in the history, but for an
index run that has found the catalog current; without it the process has not changed the catalog. -/
def Command.Reports (i : ι) (c : Command) (log : List (Event ι)) : Bool → Prop
  | true => (∃ e ∈ log, c.Announced i e) ∨ (c = .index ∧ Unpublished i log)
  | false => Unpublished i log

variable (w) in
/-- The files can be published one after the other, and this is what their events mean. -/
def Enabled : List (Item ι) → Files → Prop
  | [], _ => True
  | item :: rest, f =>
    item.event.apply w f = some (Function.update f item.name (some item.content)) ∧
      Enabled rest (Function.update f item.name (some item.content))

/-- The last of the files is the one that the command is about. -/
def Command.Ends (i : ι) (c : Command) : List (Item ι) → Prop
  | [] => False
  | item :: rest => (rest = [] ∧ c.Announced i item.event) ∨
      ((∃ archive, item.event = .store i archive) ∧ c.Ends i rest)

/-- Where the process is with its files. -/
def Command.Outlook (i : ι) (c : Command) (items : List (Item ι)) (log : List (Event ι)) : Prop :=
  (items = [] ∧ c.Reports i log true) ∨ (c.Ends i items ∧ Unpublished i log)

variable (w) in
/-- **What a process knows**, where it is. -/
def Command.Knows (i : ι) (c : Command) : Phase ι → List (Event ι) → Directory ι → Prop
  | .start, log, _ => Unpublished i log
  | .locked, log, _ => Unpublished i log
  | .opened text, log, d =>
    d.file .index = some text ∧ (authorCatalog text).isSome = true ∧ Unpublished i log
  | .ready items, log, d => Enabled w items d.file ∧ c.Outlook i items log
  | .writing item rest n, log, d => Enabled w (item :: rest) d.file ∧
      d.candidate item.name = some (item.content.take n) ∧ c.Ends i (item :: rest) ∧
      Unpublished i log
  | .closed item rest, log, d => Enabled w (item :: rest) d.file ∧
      d.candidate item.name = some item.content ∧ c.Ends i (item :: rest) ∧ Unpublished i log
  | .leaving ok _, log, _ => c.Reports i log ok
  | .done ok, log, _ => c.Reports i log ok
  | .stopped, _, _ => True

variable (w command) in
/-- What holds from the files `f₀` on: the history leads to the files that are there. -/
def published (f₀ : Files) : Knowledge ι (Phase ι) (Directory ι) (Event ι) where
  holder := Directory.lock
  inside phase := phase.inside = true
  holds log d := replay w log f₀ = some d.file
  knows i phase log d := (command i).Knows w i phase log d

lemma Unpublished.append {log : List (Event ι)} (h : Unpublished i log)
    (hevents : ∀ e ∈ events, ¬e.Publishes i) : Unpublished i (log ++ events) := fun e he =>
  (List.mem_append.1 he).elim (h e) (hevents e)

lemma Command.Reports.append {c : Command} {ok : Bool} {log : List (Event ι)}
    (h : c.Reports i log ok) (hevents : ∀ e ∈ events, ¬e.Publishes i) :
    c.Reports i (log ++ events) ok := by
  cases ok with
  | false => exact Unpublished.append h hevents
  | true =>
    obtain ⟨e, he, hannounced⟩ | ⟨hindex, hnone⟩ := h
    · exact .inl ⟨e, List.mem_append_left events he, hannounced⟩
    · exact .inr ⟨hindex, hnone.append hevents⟩

/-- What a process knows does not depend on what others do, as long as they leave the files. -/
lemma Command.Knows.frame {c : Command} {log : List (Event ι)} (h : c.Knows w i phase log d)
    (hsame : phase.inside = true → d'.file = d.file ∧ d'.candidate = d.candidate)
    (hevents : ∀ e ∈ events, ¬e.Publishes i) : c.Knows w i phase (log ++ events) d' := by
  cases phase with
  | start => exact Unpublished.append h hevents
  | locked => exact Unpublished.append h hevents
  | opened text =>
    obtain ⟨hfile, hcatalog, hnone⟩ := h
    exact ⟨(hsame rfl).1 ▸ hfile, hcatalog, hnone.append hevents⟩
  | ready items =>
    obtain ⟨henabled, houtlook⟩ := h
    refine ⟨(hsame rfl).1 ▸ henabled, ?_⟩
    obtain ⟨hnil, hreports⟩ | ⟨hends, hnone⟩ := houtlook
    · exact .inl ⟨hnil, hreports.append hevents⟩
    · exact .inr ⟨hends, hnone.append hevents⟩
  | writing item rest n =>
    obtain ⟨henabled, hcandidate, hends, hnone⟩ := h
    exact ⟨(hsame rfl).1 ▸ henabled, (hsame rfl).2 ▸ hcandidate, hends, hnone.append hevents⟩
  | closed item rest =>
    obtain ⟨henabled, hcandidate, hends, hnone⟩ := h
    exact ⟨(hsame rfl).1 ▸ henabled, (hsame rfl).2 ▸ hcandidate, hends, hnone.append hevents⟩
  | leaving ok owned => exact Command.Reports.append h hevents
  | done ok => exact Command.Reports.append h hevents
  | stopped => trivial

/-! ### What is decided -/

lemma replay_append (log events : List (Event ι)) (f : Files) :
    replay w (log ++ events) f = (replay w log f).bind (replay w events) := by
  rw [replay, List.foldlM_append]
  rfl

lemma World.place_ne_index (archive : Bytes) : w.place archive ≠ .index := by
  rw [World.place]
  simp

/-- A process that has the bytes of the archive in place adds it to the catalog that it has read. -/
lemma apply_add {f : Files} {text updated archive stored : Bytes} {info : PackageInfo}
    (hinfo : w.inspect archive = some info) (hfile : f .index = some text)
    (hadded : addedCatalog text info (w.hash archive) = some updated)
    (hstored : f (w.place archive) = some stored) (hhash : w.hash stored = w.hash archive) :
    (Event.add i archive).apply w f = some (Function.update f .index (some updated)) := by
  rw [Event.apply, hstored, Option.any_some, if_pos (decide_eq_true hhash), hinfo, Option.bind_some,
    hfile, Option.bind_some, hadded]
  rfl

/-- **What a process decides to publish** can be published, and ends in what it is asked to do. -/
lemma Command.items_sound {c : Command} {text : Bytes} {found : List IndexedFile} {whole : Bool}
    {items : List (Item ι)} {log : List (Event ι)} (h : c.items w i d text found whole = some items)
    (hfile : d.file .index = some text) (hcatalog : (authorCatalog text).isSome = true)
    (hnone : Unpublished i log) : Enabled w items d.file ∧ c.Outlook i items log := by
  cases c with
  | add archive =>
    obtain ⟨info, hinfo, h⟩ := Option.bind_eq_some_iff.1 h
    obtain ⟨updated, hadded, h⟩ := Option.bind_eq_some_iff.1 h
    obtain ⟨-, h⟩ := Option.ite_none_left_eq_some.1 h
    split at h
    next habsent =>
      obtain rfl := Option.some.inj h
      refine ⟨⟨?_, ?_, trivial⟩, .inr ⟨.inr ⟨⟨archive, rfl⟩, .inl ⟨rfl, rfl⟩⟩, hnone⟩⟩
      · rw [Event.apply, if_pos habsent]
      · refine apply_add hinfo ?_ hadded (Function.update_self ..) rfl
        rw [Function.update_of_ne (World.place_ne_index archive).symm]
        exact hfile
    next stored hstored =>
      obtain ⟨hhash, h⟩ := Option.ite_none_right_eq_some.1 h
      obtain rfl := Option.some.inj h
      exact ⟨⟨apply_add hinfo hfile hadded hstored hhash, trivial⟩,
        .inr ⟨.inl ⟨rfl, rfl⟩, hnone⟩⟩
  | index =>
    obtain ⟨-, h⟩ := Option.ite_none_left_eq_some.1 h
    obtain ⟨updated, hindexed, rfl⟩ := Option.map_eq_some_iff.1 h
    split_ifs with hcurrent
    · exact ⟨trivial, .inl ⟨rfl, .inr ⟨rfl, hnone⟩⟩⟩
    · refine ⟨⟨?_, trivial⟩, .inr ⟨.inl ⟨rfl, found, whole, rfl⟩, hnone⟩⟩
      rw [Event.apply, hfile, Option.bind_some, hindexed]
      rfl
  | sign document replace =>
    obtain ⟨-, h⟩ := Option.ite_none_left_eq_some.1 h
    obtain rfl := Option.some.inj h
    refine ⟨⟨?_, trivial⟩, .inr ⟨.inl ⟨rfl, rfl⟩, hnone⟩⟩
    rw [Event.apply, hfile, Option.bind_some, if_pos hcatalog]

/-! ### Each action keeps what is known -/

/-- **What an action changes for the others**: nothing without the lock, and then only the lock. -/
lemma Acts.frame (h : Acts w command i phase d phase' d' events)
    (hinside : phase.inside = true ↔ d.lock = some i) {j : ι} (hj : j ≠ i) :
    (phase.inside = false → d'.file = d.file ∧ d'.candidate = d.candidate) ∧
      (d'.lock = some j ↔ d.lock = some j) := by
  have hother : ∀ {d : Directory ι}, d.lock = some i → d.lock ≠ some j := fun hlock hlock' =>
    hj (Option.some.inj (hlock'.symm.trans hlock))
  cases h with
  | quit => exact ⟨fun _ => ⟨rfl, rfl⟩, Iff.rfl⟩
  | lock hlock => exact ⟨fun _ => ⟨rfl, rfl⟩, by simp [hlock, hj.symm]⟩
  | release =>
    have hlock := hother (hinside.1 rfl)
    exact ⟨fun hfalse => absurd hfalse (by simp [Phase.inside]), by simp [Directory.release, hlock]⟩
  | stop hin =>
    have hlock := hother (hinside.1 hin)
    exact ⟨fun hfalse => by simp [hin] at hfalse, by simp [Directory.release, hlock]⟩
  | refuse hin => exact ⟨fun hfalse => by simp [hin] at hfalse, Iff.rfl⟩
  | _ => exact ⟨fun hfalse => absurd hfalse (by simp [Phase.inside]), Iff.rfl⟩

lemma Command.Announced.publishes {c : Command} {e : Event ι} (h : c.Announced i e) {j : ι}
    (hpublishes : e.Publishes j) : j = i := by
  cases c with
  | add archive =>
    obtain rfl : e = .add i archive := h
    exact Eq.symm hpublishes
  | index =>
    obtain ⟨found, whole, rfl⟩ := h
    exact Eq.symm hpublishes
  | sign document replace =>
    obtain rfl : e = .sign i document := h
    exact Eq.symm hpublishes

/-- The events of a process are its own. -/
lemma Acts.events_own {log : List (Event ι)} (h : Acts w command i phase d phase' d' events)
    (hknows : (command i).Knows w i phase log d) {j : ι} (hj : j ≠ i) :
    ∀ e ∈ events, ¬e.Publishes j := by
  intro e he hpublishes
  cases h with
  | move =>
    obtain rfl := List.mem_singleton.1 he
    obtain ⟨-, -, ⟨-, hannounced⟩ | ⟨⟨archive, hstore⟩, -⟩, -⟩ := hknows
    · exact hj (hannounced.publishes hpublishes)
    · rw [hstore] at hpublishes
      exact hpublishes
  | leave =>
    obtain rfl := List.mem_singleton.1 he
    exact hpublishes
  | stop =>
    split_ifs at he with howned
    · exact absurd he List.not_mem_nil
    · obtain rfl := List.mem_singleton.1 he
      exact hpublishes
  | _ => exact absurd he List.not_mem_nil

lemma replay_singleton (e : Event ι) (f : Files) : replay w [e] f = e.apply w f := by
  rw [replay, List.foldlM_cons]
  cases e.apply w f <;> rfl

/-- A process that gives up has not changed the catalog. -/
lemma Command.Knows.unpublished {c : Command} {log : List (Event ι)} (h : c.Knows w i phase log d)
    (hinside : phase.inside = true) (hleaving : ∀ ok owned, phase ≠ .leaving ok owned)
    (hready : phase ≠ .ready []) : Unpublished i log := by
  cases phase with
  | locked => exact h
  | opened text => exact h.2.2
  | ready items =>
    obtain ⟨-, ⟨rfl, -⟩ | ⟨-, hnone⟩⟩ := h
    · exact absurd rfl hready
    · exact hnone
  | writing item rest n => exact h.2.2.2
  | closed item rest => exact h.2.2.2
  | leaving ok owned => exact absurd rfl (hleaving ok owned)
  | _ => exact absurd hinside (by simp [Phase.inside])

/-- The file that is moved to its name is what its event means. -/
lemma Command.Knows.move {c : Command} {log : List (Event ι)} {item : Item ι}
    {rest : List (Item ι)} {f₀ : Files} (h : c.Knows w i (.closed item rest) log d)
    (hreplay : replay w log f₀ = some d.file) :
    replay w (log ++ [item.event]) f₀ = some (d.publish item.name).file ∧
      c.Knows w i (.ready rest) (log ++ [item.event]) (d.publish item.name) := by
  obtain ⟨⟨happly, hrest⟩, hcandidate, hends, hnone⟩ := h
  have hfile : (d.publish item.name).file =
      Function.update d.file item.name (some item.content) := by
    rw [Directory.publish, hcandidate]
  refine ⟨?_, hfile ▸ hrest, ?_⟩
  · rw [replay_append, hreplay, Option.bind_some, replay_singleton, happly, hfile]
  · obtain ⟨rfl, hannounced⟩ | ⟨⟨archive, hstore⟩, hends⟩ := hends
    · exact .inl ⟨rfl, .inl ⟨item.event, by simp, hannounced⟩⟩
    · refine .inr ⟨hends, hnone.append fun e he => ?_⟩
      rw [List.mem_singleton.1 he, hstore]
      exact not_false

/-- **Each action keeps what is known.** -/
theorem guarded_published (f₀ : Files) : Guarded (step w command) (published w command f₀) where
  self {i phase d a phase' d' events log} hreplay hat hstep := by
    obtain ⟨hinside, hknows⟩ := hat
    change replay w log f₀ = some d.file at hreplay
    change (command i).Knows w i phase log d at hknows
    change replay w (log ++ events) f₀ = some d'.file ∧
      (published w command f₀).At i phase' (log ++ events) d'
    cases step_acts hstep with
    | quit hphase =>
      rw [List.append_nil]
      obtain rfl | rfl := hphase
      · exact ⟨hreplay, hinside, hknows⟩
      · exact ⟨hreplay, hinside, trivial⟩
    | lock hlock =>
      rw [List.append_nil]
      exact ⟨hreplay, by simp [published, Phase.inside], hknows⟩
    | read hfile hcatalog =>
      rw [List.append_nil]
      exact ⟨hreplay, hinside, hfile, hcatalog, hknows⟩
    | prepare hitems =>
      rw [List.append_nil]
      obtain ⟨hfile, hcatalog, hnone⟩ := hknows
      exact ⟨hreplay, hinside, Command.items_sound hitems hfile hcatalog hnone⟩
    | create hcandidate =>
      rw [List.append_nil]
      obtain ⟨henabled, ⟨hnil, -⟩ | ⟨hends, hnone⟩⟩ := hknows
      · exact absurd hnil (by simp)
      · exact ⟨hreplay, hinside, henabled, Function.update_self .., hends, hnone⟩
    | write =>
      rw [List.append_nil]
      obtain ⟨henabled, -, hends, hnone⟩ := hknows
      exact ⟨hreplay, hinside, henabled, Function.update_self .., hends, hnone⟩
    | close hlen =>
      rw [List.append_nil]
      obtain ⟨henabled, hcandidate, hends, hnone⟩ := hknows
      rw [List.take_of_length_le hlen] at hcandidate
      exact ⟨hreplay, hinside, henabled, hcandidate, hends, hnone⟩
    | move =>
      obtain ⟨hreplay', hknows'⟩ := hknows.move hreplay
      exact ⟨hreplay', hinside, hknows'⟩
    | finish =>
      rw [List.append_nil]
      obtain ⟨-, ⟨-, hreports⟩ | ⟨hends, -⟩⟩ := hknows
      · exact ⟨hreplay, hinside, hreports⟩
      · exact absurd hends not_false
    | refuse hin hleaving hready =>
      rw [List.append_nil]
      exact ⟨hreplay, ⟨fun _ => hinside.1 hin, fun _ => rfl⟩,
        hknows.unpublished hin hleaving hready⟩
    | delete =>
      rw [List.append_nil]
      exact ⟨hreplay, hinside, hknows⟩
    | leave =>
      refine ⟨?_, hinside, hknows.append fun e he => ?_⟩
      · rw [replay_append, hreplay, Option.bind_some, replay_singleton]
        rfl
      · rw [List.mem_singleton.1 he]
        exact not_false
    | release =>
      rw [List.append_nil]
      exact ⟨hreplay, by simp [published, Phase.inside, Directory.release], hknows⟩
    | stop hin =>
      refine ⟨?_, by simp [published, Phase.inside, Directory.release], trivial⟩
      split_ifs
      · rwa [List.append_nil]
      · rw [replay_append, hreplay, Option.bind_some, replay_singleton]
        rfl
  other {i phase d a phase' d' events log j other} hj hreplay hat hstep hother := by
    have hacts := step_acts hstep
    obtain ⟨hfiles, hlock⟩ := hacts.frame hat.inside_iff hj
    have hevents := hacts.events_own hat.knows hj
    refine ⟨hother.inside_iff.trans hlock.symm, hother.knows.frame (fun hin => ?_) hevents⟩
    -- the other one has the lock, so this one has not
    refine hfiles (Bool.eq_false_iff.2 fun hin' => hj ?_)
    exact Option.some.inj ((hother.inside_iff.1 hin).symm.trans (hat.inside_iff.1 hin'))

/-! ### Whole runs -/

/-- Nobody has begun. -/
structure Initial (s : System ι (Phase ι) (Directory ι)) : Prop where
  start : ∀ i, s.own i = .start
  unlocked : s.shared.lock = none

lemma Initial.published {s₀ : System ι (Phase ι) (Directory ι)} (h : Initial s₀) :
    (published w command s₀.shared.file).Holds [] s₀ where
  holds := rfl
  each i := by
    refine ⟨?_, ?_⟩
    · simp [Publication.published, h.start i, h.unlocked, Phase.inside]
    · change (command i).Knows w i (s₀.own i) [] s₀.shared
      rw [h.start i]
      exact fun e he => absurd he List.not_mem_nil

variable {s₀ s : System ι (Phase ι) (Directory ι)} {log : List (Event ι)}

/-- **The processes publish one after the other.** Whatever they do at the same time and wherever
they are stopped, the files are what the events of the history make of the old files in turn, two
processes are never in the section, and a process that has returned has reported what it has done. -/
theorem publication_serializable [DecidableEq ι] (h₀ : Initial s₀)
    (h : Run (step w command) s₀ log s) :
    replay w log s₀.shared.file = some s.shared.file ∧
      (∀ i j, (s.own i).inside = true → (s.own j).inside = true → i = j) ∧
      ∀ i ok, s.own i = .done ok → (command i).Reports i log ok := by
  have hholds := h.invariant (guarded_published s₀.shared.file) h₀.published
  refine ⟨hholds.holds, fun i j hi hj => hholds.exclusive hi hj, fun i ok hdone => ?_⟩
  have hknows := (hholds.each i).knows
  change (command i).Knows w i (s.own i) log s.shared at hknows
  rwa [hdone] at hknows

/-- A ZIP file that holds `.wpm/package.txt`, and its SHA-256. -/
def sampleArchive : Bytes :=
  [80, 75, 3, 4, 20, 0, 0, 0, 0, 0, 0, 0, 33, 0, 116, 128, 117, 167, 33, 0, 0, 0, 33, 0, 0, 0,
   16, 0, 0, 0, 46, 119, 112, 109, 47, 112, 97, 99, 107, 97, 103, 101, 46, 116, 120, 116, 110,
   97, 109, 101, 61, 116, 111, 111, 108, 10, 118, 101, 114, 115, 105, 111, 110, 61, 49, 46, 48,
   46, 48, 10, 97, 114, 99, 104, 61, 120, 54, 52, 10, 80, 75, 1, 2, 20, 3, 20, 0, 0, 0, 0, 0,
   0, 0, 33, 0, 116, 128, 117, 167, 33, 0, 0, 0, 33, 0, 0, 0, 16, 0, 0, 0, 0, 0, 0, 0, 0, 0, 0,
   0, 128, 1, 0, 0, 0, 0, 46, 119, 112, 109, 47, 112, 97, 99, 107, 97, 103, 101, 46, 116, 120,
   116, 80, 75, 5, 6, 0, 0, 0, 0, 1, 0, 1, 0, 62, 0, 0, 0, 79, 0, 0, 0, 0, 0]

def sampleHash : Bytes :=
  [254, 178, 36, 43, 59, 87, 177, 61, 235, 91, 71, 158, 204, 93, 70, 139, 136, 127, 133, 149,
   54, 162, 211, 196, 91, 150, 84, 227, 78, 24, 42, 116]

def sampleWorld : World where
  hash b := if b = sampleArchive then sampleHash else List.replicate 32 0
  length_hash b := by split_ifs <;> decide
  metadata b := if b = sampleArchive then some Repository.newMetadata else none
  qsort := sortBy
  isQsort := isQsort_sortBy
  packages := str "C:\\r\\packages"

/-- One process adds the archive, the other one builds the catalog anew. -/
def sampleCommand : Bool → Command
  | false => .add sampleArchive
  | true => .index

def sampleStart : System Bool (Phase Bool) (Directory Bool) where
  own _ := .start
  shared := ⟨fun name => if name = .index then some Repository.sampleCatalog else none,
    fun _ => none, none⟩

/-- The second process comes to the lock while the first one has it. -/
def sampleOrders : List (Bool × Action) :=
  [(false, .lock), (true, .lock), (false, .read), (false, .prepare [] true), (false, .create),
    (false, .write 1000), (false, .close), (false, .move), (false, .create), (false, .write 1000),
    (false, .close), (false, .move), (false, .finish), (false, .release)]

/-- The first process is stopped before its catalog gets its name. -/
def stoppedOrders : List (Bool × Action) := sampleOrders.take 10 ++ [(false, .stop)]

/-- What the run leads to. -/
def sampleRun (orders : List (Bool × Action)) :
    List (Event Bool) × System Bool (Phase Bool) (Directory Bool) :=
  sampleStart.follow (step sampleWorld sampleCommand) orders

lemma run_sampleRun (orders : List (Bool × Action)) : Run (step sampleWorld sampleCommand)
    sampleStart (sampleRun orders).1 (sampleRun orders).2 :=
  run_follow (step sampleWorld sampleCommand) sampleStart orders

lemma initial_sampleStart : Initial sampleStart := ⟨fun _ => rfl, rfl⟩

/-- What a process has returned. -/
def Phase.returned : Phase ι → Option Bool
  | .done ok => some ok
  | _ => none

lemma Phase.of_returned {ok : Bool} (h : phase.returned = some ok) : phase = .done ok := by
  cases phase with
  | done ok' => rw [Option.some.inj h]
  | _ => exact absurd h (by simp [Phase.returned])

theorem publication_serializable_sample :
    replay sampleWorld (sampleRun sampleOrders).1 sampleStart.shared.file =
        some (sampleRun sampleOrders).2.shared.file ∧
      (∀ i j, ((sampleRun sampleOrders).2.own i).inside = true →
        ((sampleRun sampleOrders).2.own j).inside = true → i = j) ∧
      ∀ i ok, (sampleRun sampleOrders).2.own i = .done ok →
        (sampleCommand i).Reports i (sampleRun sampleOrders).1 ok :=
  publication_serializable initial_sampleStart (run_sampleRun sampleOrders)

/-! ### No addition is lost -/

/-- What the events keep is kept by the history. -/
lemma replay_keeps {P : Files → Prop} {log : List (Event ι)} :
    ∀ {f f' : Files}, (∀ e ∈ log, ∀ {f f'}, P f → e.apply w f = some f' → P f') →
      replay w log f = some f' → P f → P f' := by
  induction log with
  | nil =>
    intro f f' _ h hf
    exact Option.some.inj h ▸ hf
  | cons e log ih =>
    intro f f' hkeeps h hf
    rw [replay, List.foldlM_cons] at h
    obtain ⟨g, happly, h⟩ := Option.bind_eq_some_iff.1 h
    exact ih (fun e' he' => hkeeps e' (List.mem_cons_of_mem e he')) h
      (hkeeps e List.mem_cons_self hf happly)

variable (w) in
/-- The name of the archive has bytes with its hash. -/
def Stored (archive : Bytes) (f : Files) : Prop :=
  ∃ stored, f (w.place archive) = some stored ∧ w.hash stored = w.hash archive

/-- The catalog lists the entry. -/
def Listed (e : PackageEntry) (f : Files) : Prop :=
  ∃ text entries rest, f .index = some text ∧ authorCatalog text = some (entries, rest) ∧ e ∈ entries

/-- An archive that has its name keeps it. -/
lemma Stored.apply {archive : Bytes} {e : Event ι} {f f' : Files} (h : Stored w archive f)
    (happly : e.apply w f = some f') : Stored w archive f' := by
  obtain ⟨stored, hstored, hhash⟩ := h
  have hname : w.place archive ≠ .signature := by simp [World.place]
  cases e with
  | store j new =>
    obtain ⟨hnone, happly⟩ := Option.ite_none_right_eq_some.1 happly
    obtain rfl := Option.some.inj happly
    have hne : w.place archive ≠ w.place new := fun heq => by
      rw [heq, hnone] at hstored
      exact absurd hstored (by simp)
    exact ⟨stored, by rwa [Function.update_of_ne hne], hhash⟩
  | add j new =>
    obtain ⟨-, happly⟩ := Option.ite_none_right_eq_some.1 happly
    obtain ⟨info, -, happly⟩ := Option.bind_eq_some_iff.1 happly
    obtain ⟨text, -, happly⟩ := Option.bind_eq_some_iff.1 happly
    obtain ⟨updated, -, rfl⟩ := Option.map_eq_some_iff.1 happly
    exact ⟨stored, by rwa [Function.update_of_ne (World.place_ne_index archive)], hhash⟩
  | rebuild j found whole =>
    obtain ⟨text, -, happly⟩ := Option.bind_eq_some_iff.1 happly
    obtain ⟨updated, -, rfl⟩ := Option.map_eq_some_iff.1 happly
    exact ⟨stored, by rwa [Function.update_of_ne (World.place_ne_index archive)], hhash⟩
  | sign j document =>
    obtain ⟨text, -, happly⟩ := Option.bind_eq_some_iff.1 happly
    obtain ⟨-, happly⟩ := Option.ite_none_right_eq_some.1 happly
    obtain rfl := Option.some.inj happly
    exact ⟨stored, by rwa [Function.update_of_ne hname], hhash⟩
  | left j =>
    obtain rfl := Option.some.inj happly
    exact ⟨stored, hstored, hhash⟩

/-- An archive that is added has its entry in the catalog, behind the others. -/
lemma apply_add_eq_some {archive : Bytes} {f f' : Files}
    (happly : (Event.add i archive).apply w f = some f') :
    Stored w archive f ∧ ∃ info text updated entries rest, w.inspect archive = some info ∧
      f .index = some text ∧ f' = Function.update f .index (some updated) ∧
      authorCatalog text = some (entries, rest) ∧
      authorCatalog updated = some (entries ++ [addedEntry info (w.hash archive)], rest) := by
  obtain ⟨hany, happly⟩ := Option.ite_none_right_eq_some.1 happly
  obtain ⟨info, hinfo, happly⟩ := Option.bind_eq_some_iff.1 happly
  obtain ⟨text, hfile, happly⟩ := Option.bind_eq_some_iff.1 happly
  obtain ⟨updated, hadded, rfl⟩ := Option.map_eq_some_iff.1 happly
  obtain ⟨metadata, -, hinspect⟩ := Option.bind_eq_some_iff.1 hinfo
  obtain ⟨stored, hstored, hhash⟩ := (Option.any_eq_true _ _).1 hany
  obtain ⟨c, inner, element, entries, rfl, rfl, hread, hread', -⟩ :=
    Repository.authorCatalog_added hinspect (w.length_hash archive) hadded
  exact ⟨⟨stored, hstored, of_decide_eq_true hhash⟩, info, _, _, entries, c.rest, hinfo, hfile, rfl,
    hread, hread'⟩

/-- The event rebuilds the catalog. -/
def Event.Rebuilds : Event ι → Prop
  | .rebuild _ _ _ => True
  | _ => False

/-- An entry of the catalog stays, unless the catalog is rebuilt. -/
lemma Listed.apply {entry : PackageEntry} {e : Event ι} {f f' : Files} (h : Listed entry f)
    (hkept : ¬e.Rebuilds) (happly : e.apply w f = some f') : Listed entry f' := by
  obtain ⟨text, entries, rest, hfile, hread, hentry⟩ := h
  cases e with
  | store j new =>
    obtain ⟨-, happly⟩ := Option.ite_none_right_eq_some.1 happly
    obtain rfl := Option.some.inj happly
    exact ⟨text, entries, rest,
      by rwa [Function.update_of_ne (World.place_ne_index new).symm], hread, hentry⟩
  | add j new =>
    obtain ⟨-, info, text', updated, entries', rest', -, hfile', rfl, hread', hread''⟩ :=
      apply_add_eq_some happly
    obtain rfl : text = text' := Option.some.inj (hfile.symm.trans hfile')
    obtain ⟨rfl, rfl⟩ := Prod.mk.inj (Option.some.inj (hread.symm.trans hread'))
    exact ⟨updated, _, rest, Function.update_self .., hread'', List.mem_append_left _ hentry⟩
  | rebuild j found whole => exact absurd trivial hkept
  | sign j document =>
    obtain ⟨text', -, happly⟩ := Option.bind_eq_some_iff.1 happly
    obtain ⟨-, happly⟩ := Option.ite_none_right_eq_some.1 happly
    obtain rfl := Option.some.inj happly
    exact ⟨text, entries, rest, by rwa [Function.update_of_ne (by simp)], hread, hentry⟩
  | left j =>
    obtain rfl := Option.some.inj happly
    exact ⟨text, entries, rest, hfile, hread, hentry⟩

/-- A part of the history. -/
lemma replay_split {l₁ l₂ : List (Event ι)} {f f' : Files} (h : replay w (l₁ ++ l₂) f = some f') :
    ∃ g, replay w l₁ f = some g ∧ replay w l₂ g = some f' := by
  rw [replay_append] at h
  exact Option.bind_eq_some_iff.1 h

lemma replay_cons {e : Event ι} {l : List (Event ι)} {f f' : Files}
    (h : replay w (e :: l) f = some f') : ∃ g, e.apply w f = some g ∧ replay w l g = some f' := by
  rw [replay, List.foldlM_cons] at h
  exact Option.bind_eq_some_iff.1 h

/-- **No addition is lost.** When a process has reported that it has added its archive, then the
archive is there under its hash, and its entry is in the catalog, unless the catalog was rebuilt
behind the addition; whatever the other processes have done and wherever they were stopped. -/
theorem added_stays [DecidableEq ι] (h₀ : Initial s₀) (h : Run (step w command) s₀ log s)
    {archive : Bytes} (hcommand : command i = .add archive) (hdone : s.own i = .done true) :
    ∃ info l₁ l₂, w.inspect archive = some info ∧ log = l₁ ++ .add i archive :: l₂ ∧
      Stored w archive s.shared.file ∧
      ((∀ e ∈ l₂, ¬e.Rebuilds) → Listed (addedEntry info (w.hash archive)) s.shared.file) := by
  have hholds := h.invariant (guarded_published s₀.shared.file) h₀.published
  have hknows := (hholds.each i).knows
  change (command i).Knows w i (s.own i) log s.shared at hknows
  rw [hdone, hcommand] at hknows
  obtain ⟨e, he, rfl⟩ | ⟨hindex, -⟩ := hknows
  swap
  · exact absurd hindex (by simp)
  obtain ⟨l₁, l₂, rfl⟩ := List.append_of_mem he
  obtain ⟨f, -, hreplay⟩ := replay_split hholds.holds
  obtain ⟨g, happly, hreplay⟩ := replay_cons hreplay
  obtain ⟨hstored, info, text, updated, entries, rest, hinfo, hfile, rfl, hread, hread'⟩ :=
    apply_add_eq_some happly
  refine ⟨info, l₁, l₂, hinfo, rfl, ?_, fun hkept => ?_⟩
  · exact replay_keeps (fun e' _ _ _ hP happly' => hP.apply happly') hreplay (hstored.apply happly)
  · exact replay_keeps (fun e' he' _ _ hP happly' => hP.apply (hkept e' he') happly') hreplay
      ⟨updated, _, rest, Function.update_self .., hread', by simp⟩

theorem added_stays_sample : ∃ info l₁ l₂, sampleWorld.inspect sampleArchive = some info ∧
    (sampleRun sampleOrders).1 = l₁ ++ .add false sampleArchive :: l₂ ∧
    Stored sampleWorld sampleArchive (sampleRun sampleOrders).2.shared.file ∧
    ((∀ e ∈ l₂, ¬e.Rebuilds) → Listed (addedEntry info (sampleWorld.hash sampleArchive))
      (sampleRun sampleOrders).2.shared.file) := by
  have hreturned : ((sampleRun sampleOrders).2.own false).returned = some true := by decide +kernel
  exact added_stays initial_sampleStart (run_sampleRun sampleOrders) rfl
    (Phase.of_returned hreturned)

/-! ### What the readers see -/

/-- The name that gets another file. -/
def Event.target (w : World) : Event ι → Option Name
  | .store _ archive => some (w.place archive)
  | .add _ _ => some .index
  | .rebuild _ _ _ => some .index
  | .sign _ _ => some .signature
  | .left _ => none

/-- An event changes its own name only. -/
lemma apply_frame {e : Event ι} {f f' : Files} (h : e.apply w f = some f') {name : Name}
    (hname : e.target w ≠ some name) : f' name = f name := by
  cases e with
  | store j archive =>
    obtain ⟨-, h⟩ := Option.ite_none_right_eq_some.1 h
    obtain rfl := Option.some.inj h
    exact Function.update_of_ne (fun heq => hname (congrArg some heq.symm)) ..
  | add j archive =>
    obtain ⟨-, info, text, updated, entries, rest, -, -, rfl, -⟩ := apply_add_eq_some h
    exact Function.update_of_ne (fun heq => hname (congrArg some heq.symm)) ..
  | rebuild j found whole =>
    obtain ⟨text, -, h⟩ := Option.bind_eq_some_iff.1 h
    obtain ⟨updated, -, rfl⟩ := Option.map_eq_some_iff.1 h
    exact Function.update_of_ne (fun heq => hname (congrArg some heq.symm)) ..
  | sign j document =>
    obtain ⟨text, -, h⟩ := Option.bind_eq_some_iff.1 h
    obtain ⟨-, h⟩ := Option.ite_none_right_eq_some.1 h
    obtain rfl := Option.some.inj h
    exact Function.update_of_ne (fun heq => hname (congrArg some heq.symm)) ..
  | left j => rw [Option.some.inj h]

lemma replay_frame {f f' : Files} (h : replay w log f = some f') {name : Name}
    (hname : ∀ e ∈ log, e.target w ≠ some name) : f' name = f name :=
  replay_keeps (P := fun g => g name = f name)
    (fun e he _ _ hg happly => (apply_frame happly (hname e he)).trans hg) h rfl

/-- The catalog is the one of `f₀`, or a reader takes it. -/
def Complete (f₀ f : Files) : Prop :=
  f .index = f₀ .index ∨ ∃ text, f .index = some text ∧ (authorCatalog text).isSome = true

lemma Complete.apply {f₀ f f' : Files} {e : Event ι} (h : Complete f₀ f)
    (happly : e.apply w f = some f') : Complete f₀ f' := by
  by_cases htarget : e.target w = some .index
  · cases e with
    | add j archive =>
      obtain ⟨-, info, text, updated, entries, rest, -, -, rfl, -, hread⟩ :=
        apply_add_eq_some happly
      exact .inr ⟨updated, Function.update_self .., by rw [hread]; rfl⟩
    | rebuild j found whole =>
      obtain ⟨text, -, happly⟩ := Option.bind_eq_some_iff.1 happly
      obtain ⟨updated, hindexed, rfl⟩ := Option.map_eq_some_iff.1 happly
      obtain ⟨c, inner, inner', entries, listed, -, -, -, -, -, -, hread, -⟩ :=
        Repository.authorCatalog_indexed w.isQsort hindexed
      exact .inr ⟨updated, Function.update_self .., by rw [hread]; rfl⟩
    | store j archive => exact absurd (Option.some.inj htarget) (World.place_ne_index archive)
    | sign j document => exact absurd (Option.some.inj htarget) (by simp)
    | left j => exact absurd htarget (by simp [Event.target])
  · unfold Complete
    rwa [apply_frame happly htarget]

/-- **The documents that are seen are whole**: at any time `index.json` is the old one or one that the
reader takes. What was last published as its signature is over the catalog that was there then, and
that is the catalog still as long as no catalog is published. -/
theorem documents_whole [DecidableEq ι] (h₀ : Initial s₀) (h : Run (step w command) s₀ log s) :
    Complete s₀.shared.file s.shared.file ∧
      ∀ l₁ document l₂, log = l₁ ++ .sign i document :: l₂ →
        (∀ e ∈ l₂, e.target w ≠ some .signature) →
        ∃ f text, replay w l₁ s₀.shared.file = some f ∧ f .index = some text ∧
          s.shared.file .signature = some (document text) ∧
          ((∀ e ∈ l₂, e.target w ≠ some .index) → s.shared.file .index = some text) := by
  have hreplay := (h.invariant (guarded_published s₀.shared.file) h₀.published).holds
  refine ⟨replay_keeps (fun _ _ _ _ hP happly => hP.apply happly) hreplay (.inl rfl), ?_⟩
  rintro l₁ document l₂ rfl hlast
  obtain ⟨f, hbefore, hreplay⟩ := replay_split hreplay
  obtain ⟨g, happly, hreplay⟩ := replay_cons hreplay
  have hindex : g .index = f .index := apply_frame happly (by simp [Event.target])
  obtain ⟨text, hfile, happly⟩ := Option.bind_eq_some_iff.1 happly
  obtain ⟨-, happly⟩ := Option.ite_none_right_eq_some.1 happly
  obtain rfl := Option.some.inj happly
  refine ⟨f, text, hbefore, hfile, ?_, fun hkept => ?_⟩
  · rw [replay_frame hreplay hlast]
    exact Function.update_self ..
  · rw [replay_frame hreplay hkept, hindex, hfile]

/-- One process adds the archive, the other one signs the catalog. -/
def signingCommand : Bool → Command
  | false => .add sampleArchive
  | true => .sign (fun text => str "signed " ++ text) false

/-- The second process comes to the lock when the first one has it no more. -/
def signingRun : List (Event Bool) × System Bool (Phase Bool) (Directory Bool) :=
  sampleStart.follow (step sampleWorld signingCommand) (sampleOrders.filter (fun o => !o.1) ++
    [(true, .lock), (true, .read), (true, .prepare [] true), (true, .create), (true, .write 1000),
      (true, .close), (true, .move), (true, .finish), (true, .release)])

/-- A signature is published. -/
def Event.signs : Event ι → Bool
  | .sign _ _ => true
  | _ => false

theorem documents_whole_sample : signingRun.1.any Event.signs = true ∧
    (signingRun.2.shared.file .signature).isSome = true ∧
    Complete sampleStart.shared.file signingRun.2.shared.file ∧
      ∀ l₁ document l₂, signingRun.1 = l₁ ++ .sign true document :: l₂ →
        (∀ e ∈ l₂, e.target sampleWorld ≠ some .signature) →
        ∃ f text, replay sampleWorld l₁ sampleStart.shared.file = some f ∧ f .index = some text ∧
          signingRun.2.shared.file .signature = some (document text) ∧
          ((∀ e ∈ l₂, e.target sampleWorld ≠ some .index) →
            signingRun.2.shared.file .index = some text) :=
  ⟨by decide +kernel, by decide +kernel, documents_whole initial_sampleStart
    (run_follow (step sampleWorld signingCommand) sampleStart _)⟩

/-! ### Candidates -/

/-- Nobody was stopped with a candidate, and each candidate that was given up could be deleted. -/
def Tidy (log : List (Event ι)) : Prop := ∀ i, Event.left i ∉ log

lemma Tidy.of_append {log : List (Event ι)} (h : Tidy (log ++ events)) : Tidy log := fun i hi =>
  h i (List.mem_append_left events hi)

/-- The candidates of the beginning, `c₀`, are the only ones but for the one that a process owns. -/
def tidied (c₀ : Files) : Knowledge ι (Phase ι) (Directory ι) (Event ι) where
  holder := Directory.lock
  inside phase := phase.inside = true
  holds log d := Tidy log → d.lock = none → d.candidate = c₀
  knows _ phase log d := phase.inside = true → Tidy log → ∀ name,
    (phase.owned = some name → c₀ name = none) ∧
      (phase.owned ≠ some name → d.candidate name = c₀ name)

/-- The candidate that the process owns gets other bytes, or is gone. -/
lemma own_setCandidate {c₀ : Files} {name : Name} {content : Option Bytes} {owned : Option Name}
    (hname : c₀ name = none) (hothers : ∀ other, other ≠ name → d.candidate other = c₀ other)
    (howned : owned = some name ∨ (owned = none ∧ content = none)) (other : Name) :
    (owned = some other → c₀ other = none) ∧ (owned ≠ some other →
      (d.setCandidate name content).candidate other = c₀ other) := by
  by_cases heq : other = name
  · subst heq
    obtain rfl | ⟨rfl, rfl⟩ := howned
    · exact ⟨fun _ => hname, fun hne => absurd rfl hne⟩
    · exact ⟨fun hsome => absurd hsome (by simp), fun _ => (Function.update_self ..).trans hname.symm⟩
  · refine ⟨fun hsome => ?_, fun _ => (Function.update_of_ne heq ..).trans (hothers other heq)⟩
    obtain rfl | ⟨rfl, -⟩ := howned
    · exact absurd (Option.some.inj hsome).symm heq
    · exact absurd hsome (by simp)

theorem guarded_tidied (c₀ : Files) : Guarded (step w command) (tidied c₀) where
  self {i phase d a phase' d' events log} hholds hat hstep := by
    obtain ⟨hinside, hknows⟩ := hat
    change phase.inside = true ↔ d.lock = some i at hinside
    change Tidy log → d.lock = none → d.candidate = c₀ at hholds
    have hfree : phase.inside = true → d.lock ≠ none := fun hin hnone => by
      rw [hinside.1 hin] at hnone
      exact absurd hnone (by simp)
    -- a process that goes on inside, with what it knows
    have hgoes : ∀ {phase' : Phase ι} {d' : Directory ι} {events : List (Event ι)},
        phase'.inside = true → d'.lock = some i →
        (Tidy (log ++ events) → ∀ name, (phase'.owned = some name → c₀ name = none) ∧
          (phase'.owned ≠ some name → d'.candidate name = c₀ name)) →
        (tidied c₀).holds (log ++ events) d' ∧
          (tidied c₀).At i phase' (log ++ events) d' := by
      intro phase' d' events hin hlock hall
      refine ⟨fun _ hnone => ?_, ⟨fun _ => hlock, fun _ => hin⟩, fun _ => hall⟩
      rw [hlock] at hnone
      exact absurd hnone (by simp)
    -- what is known without a candidate
    have hnone : phase.inside = true → phase.owned = none → Tidy log → ∀ name,
        d.candidate name = c₀ name := fun hin howned htidy name =>
      (hknows hin htidy name).2 (by simp [howned])
    -- a process that has left
    have hgone : ∀ {phase' : Phase ι} {d' : Directory ι} {events : List (Event ι)},
        phase'.inside = false → d'.lock ≠ some i →
        (Tidy (log ++ events) → d'.lock = none → d'.candidate = c₀) →
        (tidied c₀).holds (log ++ events) d' ∧ (tidied c₀).At i phase' (log ++ events) d' := by
      intro phase' d' events hin hlock hall
      refine ⟨hall, ⟨fun hin' => ?_, fun hlock' => absurd hlock' hlock⟩, fun hin' => ?_⟩
      · exact absurd (hin.symm.trans hin') (by decide)
      · exact absurd (hin.symm.trans hin') (by decide)
    cases step_acts hstep with
    | quit hphase =>
      have hout : phase'.inside = false := by obtain rfl | rfl := hphase <;> rfl
      exact hgone hout (fun hlock => absurd (hinside.2 hlock) (by simp [Phase.inside]))
        fun htidy => hholds htidy.of_append
    | lock hlock =>
      refine hgoes rfl rfl fun htidy name => ⟨fun hsome => absurd hsome (by simp [Phase.owned]),
        fun _ => ?_⟩
      exact congrFun (hholds htidy.of_append hlock) name
    | read => exact hgoes rfl (hinside.1 rfl) fun htidy => hknows rfl htidy.of_append
    | prepare => exact hgoes rfl (hinside.1 rfl) fun htidy => hknows rfl htidy.of_append
    | @create d item rest hcandidate =>
      refine hgoes rfl (hinside.1 rfl) fun htidy => ?_
      have hall := hnone rfl rfl htidy.of_append
      exact own_setCandidate ((hall item.name).symm.trans hcandidate) (fun other _ => hall other)
        (.inl rfl)
    | @write d item rest m n =>
      refine hgoes rfl (hinside.1 rfl) fun htidy => ?_
      have hall := hknows rfl htidy.of_append
      exact own_setCandidate ((hall item.name).1 rfl)
        (fun other hne => (hall other).2 fun heq => hne (Option.some.inj heq).symm) (.inl rfl)
    | close => exact hgoes rfl (hinside.1 rfl) fun htidy => hknows rfl htidy.of_append
    | @move d item rest =>
      refine hgoes rfl (hinside.1 rfl) fun htidy => ?_
      have hall := hknows rfl htidy.of_append
      exact own_setCandidate ((hall item.name).1 rfl)
        (fun other hne => (hall other).2 fun heq => hne (Option.some.inj heq).symm)
        (.inr ⟨rfl, rfl⟩)
    | finish => exact hgoes rfl (hinside.1 rfl) fun htidy => hknows rfl htidy.of_append
    | refuse hin => exact hgoes rfl (hinside.1 hin) fun htidy => hknows hin htidy.of_append
    | @delete d ok name =>
      refine hgoes rfl (hinside.1 rfl) fun htidy => ?_
      have hall := hknows rfl htidy.of_append
      exact own_setCandidate ((hall name).1 rfl)
        (fun other hne => (hall other).2 fun heq => hne (Option.some.inj heq).symm)
        (.inr ⟨rfl, rfl⟩)
    | leave =>
      refine hgoes rfl (hinside.1 rfl) fun htidy => absurd ?_ (htidy i)
      exact List.mem_append_right log (List.mem_singleton_self _)
    | release =>
      exact hgone rfl (by simp [Directory.release]) fun htidy _ =>
        funext (hnone rfl rfl htidy.of_append)
    | stop hin =>
      refine hgone rfl (by simp [Directory.release]) fun htidy _ => ?_
      by_cases howned : phase.owned = none
      · exact funext (hnone hin howned htidy.of_append)
      · rw [if_neg howned] at htidy
        exact absurd (List.mem_append_right log (List.mem_singleton_self _)) (htidy i)
  other {i phase d a phase' d' events log j other} hj hholds hat hstep hother := by
    obtain ⟨hfiles, hlock⟩ := (step_acts hstep).frame hat.inside_iff hj
    refine ⟨hother.inside_iff.trans hlock.symm, fun hin htidy => ?_⟩
    have hout : phase.inside = false := Bool.eq_false_iff.2 fun hin' => hj <|
      Option.some.inj ((hother.inside_iff.1 hin).symm.trans (hat.inside_iff.1 hin'))
    rw [(hfiles hout).2]
    exact hother.knows hin htidy.of_append

/-- **No candidate is left behind**, whatever fails: when no process has the lock, there are the
candidates that were there at the beginning, if none was stopped with a candidate of its own and the
deletion of none was refused. -/
theorem candidates_tidy [DecidableEq ι] (h₀ : Initial s₀) (h : Run (step w command) s₀ log s)
    (htidy : Tidy log) (hlock : s.shared.lock = none) :
    s.shared.candidate = s₀.shared.candidate := by
  have hinitial : (tidied s₀.shared.candidate).Holds [] s₀ := by
    refine ⟨fun _ _ => rfl, fun i => ?_⟩
    rw [h₀.start i]
    refine ⟨by simp [tidied, h₀.unlocked, Phase.inside], fun hin => ?_⟩
    exact absurd hin (by simp [Phase.inside])
  exact (h.invariant (guarded_tidied s₀.shared.candidate) hinitial).holds htidy hlock

/-- A candidate was left. -/
def Event.isLeft : Event ι → Bool
  | .left _ => true
  | _ => false

lemma tidy_of_all {log : List (Event ι)} (h : (log.all fun e => !e.isLeft) = true) : Tidy log :=
  fun i hi => absurd (List.all_eq_true.1 h _ hi) (by simp [Event.isLeft])

theorem candidates_tidy_sample :
    (sampleRun sampleOrders).2.shared.candidate = sampleStart.shared.candidate := by
  have hlock : (sampleRun sampleOrders).2.shared.lock = none := by decide +kernel
  exact candidates_tidy initial_sampleStart (run_sampleRun sampleOrders)
    (tidy_of_all (by decide +kernel)) hlock

/-- The files that a process has yet to publish. -/
def Phase.items : Phase ι → List (Item ι)
  | .ready items => items
  | .writing item rest _ => item :: rest
  | .closed item rest => item :: rest
  | _ => []

/-- Each file comes with the event of its name. -/
def Named (w : World) (items : List (Item ι)) : Prop :=
  ∀ item ∈ items, item.event.target w = some item.name

lemma Command.items_named {c : Command} {text : Bytes} {found : List IndexedFile} {whole : Bool}
    {items : List (Item ι)} (h : c.items w i d text found whole = some items) : Named w items := by
  cases c with
  | add archive =>
    obtain ⟨info, -, h⟩ := Option.bind_eq_some_iff.1 h
    obtain ⟨updated, -, h⟩ := Option.bind_eq_some_iff.1 h
    obtain ⟨-, h⟩ := Option.ite_none_left_eq_some.1 h
    split at h
    · obtain rfl := Option.some.inj h
      simp [Named, Event.target]
    · obtain ⟨-, h⟩ := Option.ite_none_right_eq_some.1 h
      obtain rfl := Option.some.inj h
      simp [Named, Event.target]
  | index =>
    obtain ⟨-, h⟩ := Option.ite_none_left_eq_some.1 h
    obtain ⟨updated, -, rfl⟩ := Option.map_eq_some_iff.1 h
    split_ifs
    · exact fun item hitem => absurd hitem List.not_mem_nil
    · simp [Named, Event.target]
  | sign document replace =>
    obtain ⟨-, h⟩ := Option.ite_none_left_eq_some.1 h
    obtain rfl := Option.some.inj h
    simp [Named, Event.target]

/-- The candidate for `name` is nobody's, and what is at the name stays there. -/
def blocked (w : World) (name : Name) (candidate : Bytes) (file : Option Bytes) :
    Knowledge ι (Phase ι) (Directory ι) (Event ι) where
  holder := Directory.lock
  inside phase := phase.inside = true
  holds log d := d.candidate name = some candidate ∧ d.file name = file ∧
    ∀ e ∈ log, e.target w ≠ some name
  knows _ phase _ _ := phase.owned ≠ some name ∧ Named w phase.items

theorem guarded_blocked (name : Name) (candidate : Bytes) (file : Option Bytes) :
    Guarded (step w command) (blocked w name candidate file) where
  self {i phase d a phase' d' events log} hholds hat hstep := by
    obtain ⟨hinside, howned, hnamed⟩ := hat
    change phase.inside = true ↔ d.lock = some i at hinside
    obtain ⟨hcandidate, hfile, hlog⟩ := hholds
    have hleft : ∀ e ∈ log ++ [Event.left i], e.target w ≠ some name := fun e he => by
      rcases List.mem_append.1 he with he | he
      · exact hlog e he
      · rw [List.mem_singleton.1 he]
        simp [Event.target]
    have hset : ∀ {other : Name} {content : Option Bytes}, name ≠ other →
        (d.setCandidate other content).candidate name = some candidate := fun hne =>
      (Function.update_of_ne hne ..).trans hcandidate
    change (d'.candidate name = some candidate ∧ d'.file name = file ∧
      ∀ e ∈ log ++ events, e.target w ≠ some name) ∧
        (blocked w name candidate file).At i phase' (log ++ events) d'
    cases step_acts hstep with
    | quit hphase =>
      rw [List.append_nil]
      obtain rfl | rfl := hphase <;>
        exact ⟨⟨hcandidate, hfile, hlog⟩, hinside, by simp [Phase.owned],
          fun item hitem => absurd hitem List.not_mem_nil⟩
    | lock hlock =>
      rw [List.append_nil]
      exact ⟨⟨hcandidate, hfile, hlog⟩, by simp [blocked, Phase.inside], by simp [Phase.owned],
        fun item hitem => absurd hitem List.not_mem_nil⟩
    | read =>
      rw [List.append_nil]
      exact ⟨⟨hcandidate, hfile, hlog⟩, hinside, howned, hnamed⟩
    | prepare hitems =>
      rw [List.append_nil]
      exact ⟨⟨hcandidate, hfile, hlog⟩, hinside, by simp [Phase.owned], Command.items_named hitems⟩
    | @create d item rest hnone =>
      rw [List.append_nil]
      have hne : name ≠ item.name := fun heq => by
        rw [← heq, hcandidate] at hnone
        exact absurd hnone (by simp)
      exact ⟨⟨hset hne, hfile, hlog⟩, hinside, fun heq => hne (Option.some.inj heq).symm, hnamed⟩
    | @write d item rest m n =>
      rw [List.append_nil]
      have hne : name ≠ item.name := fun heq => howned (congrArg some heq.symm)
      exact ⟨⟨hset hne, hfile, hlog⟩, hinside, howned, hnamed⟩
    | close =>
      rw [List.append_nil]
      exact ⟨⟨hcandidate, hfile, hlog⟩, hinside, howned, hnamed⟩
    | @move d item rest =>
      have hne : name ≠ item.name := fun heq => howned (congrArg some heq.symm)
      have htarget := hnamed item List.mem_cons_self
      refine ⟨⟨hset hne, (Function.update_of_ne hne ..).trans hfile, fun e he => ?_⟩, hinside,
        by simp [Phase.owned], fun other hother => hnamed other (List.mem_cons_of_mem item hother)⟩
      rcases List.mem_append.1 he with he | he
      · exact hlog e he
      · rw [List.mem_singleton.1 he, htarget]
        exact fun heq => hne (Option.some.inj heq).symm
    | finish =>
      rw [List.append_nil]
      exact ⟨⟨hcandidate, hfile, hlog⟩, hinside, by simp [Phase.owned], hnamed⟩
    | refuse hin =>
      rw [List.append_nil]
      exact ⟨⟨hcandidate, hfile, hlog⟩, ⟨fun _ => hinside.1 hin, fun _ => rfl⟩, howned,
        fun item hitem => absurd hitem List.not_mem_nil⟩
    | @delete d ok other =>
      rw [List.append_nil]
      have hne : name ≠ other := fun heq => howned (congrArg some heq.symm)
      exact ⟨⟨hset hne, hfile, hlog⟩, hinside, by simp [Phase.owned], hnamed⟩
    | leave => exact ⟨⟨hcandidate, hfile, hleft⟩, hinside, by simp [Phase.owned], hnamed⟩
    | release =>
      rw [List.append_nil]
      exact ⟨⟨hcandidate, hfile, hlog⟩, by simp [blocked, Phase.inside, Directory.release],
        by simp [Phase.owned], hnamed⟩
    | stop hin =>
      refine ⟨⟨hcandidate, hfile, ?_⟩, by simp [blocked, Phase.inside, Directory.release],
        by simp [Phase.owned], fun item hitem => absurd hitem List.not_mem_nil⟩
      split_ifs
      · rwa [List.append_nil]
      · exact hleft
  other {i phase d a phase' d' events log j other} hj hholds hat hstep hother := by
    obtain ⟨-, hlock⟩ := (step_acts hstep).frame hat.inside_iff hj
    exact ⟨hother.inside_iff.trans hlock.symm, hother.knows⟩

/-- **A candidate that was left behind is in the way of its file**: once nobody has the lock and there
is a candidate for a name, no process ever publishes a file of this name again, and the candidate
itself stays as it is. -/
theorem leftover_blocks [DecidableEq ι] (h₀ : Initial s₀) (h : Run (step w command) s₀ log s)
    (hlock : s.shared.lock = none) {name : Name} {candidate : Bytes}
    (hcandidate : s.shared.candidate name = some candidate)
    {s' : System ι (Phase ι) (Directory ι)} {log' : List (Event ι)}
    (h' : Run (step w command) s log' s') :
    s'.shared.candidate name = some candidate ∧ s'.shared.file name = s.shared.file name ∧
      ∀ e ∈ log', e.target w ≠ some name := by
  have hholds := h.invariant (guarded_published s₀.shared.file) h₀.published
  have hstart : (blocked w name candidate (s.shared.file name)).Holds [] s := by
    refine ⟨⟨hcandidate, rfl, fun e he => absurd he List.not_mem_nil⟩, fun i => ?_⟩
    have hiff : (s.own i).inside = true ↔ s.shared.lock = some i := (hholds.each i).inside_iff
    have hout : (s.own i).inside ≠ true := fun hin => by
      rw [hiff.1 hin] at hlock
      exact absurd hlock (by simp)
    refine ⟨hiff, ?_⟩
    change (s.own i).owned ≠ some name ∧ Named w (s.own i).items
    cases hphase : s.own i with
    | start => exact ⟨by simp [Phase.owned], fun item hitem => absurd hitem List.not_mem_nil⟩
    | done ok => exact ⟨by simp [Phase.owned], fun item hitem => absurd hitem List.not_mem_nil⟩
    | stopped => exact ⟨by simp [Phase.owned], fun item hitem => absurd hitem List.not_mem_nil⟩
    | _ =>
      rw [hphase] at hout
      exact absurd rfl hout
  exact (h'.invariant (guarded_blocked name candidate (s.shared.file name)) hstart).holds

/-- The process that was stopped has left its candidate, and the other one comes then. -/
theorem leftover_blocks_sample : ∃ candidate, ∀ orders,
    ((sampleRun stoppedOrders).2.follow (step sampleWorld sampleCommand) orders).2.shared.candidate
        .index = some candidate ∧
      ((sampleRun stoppedOrders).2.follow (step sampleWorld sampleCommand) orders).2.shared.file
        .index = (sampleRun stoppedOrders).2.shared.file .index ∧
      ∀ e ∈ ((sampleRun stoppedOrders).2.follow (step sampleWorld sampleCommand) orders).1,
        e.target sampleWorld ≠ some .index := by
  have hlock : (sampleRun stoppedOrders).2.shared.lock = none := by decide +kernel
  have hsome : ((sampleRun stoppedOrders).2.shared.candidate .index).isSome = true := by
    decide +kernel
  obtain ⟨candidate, hcandidate⟩ := Option.isSome_iff_exists.1 hsome
  exact ⟨candidate, fun orders => leftover_blocks initial_sampleStart (run_sampleRun stoppedOrders)
    hlock hcandidate (run_follow _ _ orders)⟩

end Wpm.Publication
