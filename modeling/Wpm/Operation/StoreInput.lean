import Wpm.Operation.Plan

/-!
Storing the approved input, file by file: `wpm_operation_store_input`, `wpm_path_guard_file` and
`wpm_path_guard_publish`.

`storeInput` has one step for each of them. Here every call to the file system is one, which may go
well or not, and the contents of the directory `packages` after each change are kept: a process that
stops leaves one of them behind.
-/

namespace Wpm.Operation

open Wpm.Lib Wpm.Lib.CString Wpm.Lib.Command

/-- The files of the directory `packages`, by their names in lower case. -/
abbrev Packages := Bytes → Option Bytes

/-- The outcomes of the calls. `reads k` is what the `k`th `ReadFile` delivers, and `writes k` says
of the `k`th `WriteFile` how the bytes that reach the file arrive there, and whether the call reports
that all were written. -/
structure StoreCalls where
  dataRoot : Option Bytes
  stateDigest : Option Bytes
  fullPath : Bytes → Option Bytes
  hash : Bytes → Bytes
  guardOpens : Bool
  ordinary : Bool
  creates : Bool
  createdOrdinary : Bool
  seeks : Bool
  size : Option ℤ
  reads : ℕ → Option Bytes
  writes : ℕ → Bytes → List Bytes × Bool
  hashes : Bool
  flushes : Bool
  stillOrdinary : Bool
  renames : Bool
  closes : Bool

/-- The directory, and every one that it was since the call began. -/
structure StoreWorld where
  packages : Packages
  visited : List Packages

abbrev StoreOp := Cmd StoreWorld

namespace StoreOp

/-- A change to the directory. -/
def change (f : Packages → Packages) : StoreOp Unit := .modify fun w =>
  ⟨f w.packages, f w.packages :: w.visited⟩

end StoreOp

/-! ### The directory -/

/-- The content of a file is set. -/
def Packages.put (p : Packages) (name content : Bytes) : Packages :=
  fun n => if n = fold name then some content else p n

/-- A file takes the place of another one. -/
def Packages.rename (p : Packages) (old new : Bytes) : Packages :=
  fun n => if n = fold new then p (fold old) else if n = fold old then none else p n

/-! ### The path guard -/

/-- `guard_name_valid`. -/
def guardNameValid (name : Bytes) : Bool :=
  name ≠ [] && name.length ≤ 255 && name ≠ str "." && name ≠ str ".." &&
    name.getLastD 0 ≠ ch '.' && name.getLastD 0 ≠ ch ' ' && ch '\\' ∉ name && ch '/' ∉ name &&
    ch ':' ∉ name && name.all fun c => 32 ≤ c && c ≠ 127

/-- A character of a name that is published. -/
def isPublished (c : UInt8) : Bool := isAlnum c || c ∈ str ".-_+"

section Calls

variable (calls : StoreCalls)

/-- `wpm_path_guard_file` for a new file. A file that fails the checks after it is created stays. -/
def guardFile (name : Bytes) : StoreOp Unit := do
  Cmd.guard (guardNameValid name = true ∧ calls.ordinary = true)
  let w ← Cmd.get
  Cmd.guard (calls.creates = true ∧ w.packages (fold name) = none)
  StoreOp.change fun p => p.put name []
  Cmd.guard (calls.createdOrdinary = true)

/-- `wpm_path_guard_publish`, with its replacing rename. -/
def guardPublish (temporary name : Bytes) : StoreOp Unit := do
  Cmd.guard (name ≠ [] ∧ name.length ≤ 255 ∧ calls.stillOrdinary = true ∧
    name.all isPublished = true ∧ guardNameValid name = true)
  Cmd.guard (calls.renames = true)
  StoreOp.change fun p => p.rename temporary name

/-! ### The copy -/

/-- What arrives of one `WriteFile`. -/
def writeStored (temporary : Bytes) : List Bytes → StoreOp Unit
  | [] => pure ()
  | piece :: pieces => do
    StoreOp.change fun p => p.put temporary (((p (fold temporary)).getD []) ++ piece)
    writeStored temporary pieces

/-- The loop that copies the retained input, with `left` bytes to come. -/
def copyStored (temporary : Bytes) (k left : ℕ) : StoreOp Unit :=
  match calls.reads k with
  | none => Cmd.fail
  | some [] => Cmd.guard (left = 0)
  | some (c :: buffer) =>
    if (c :: buffer).length ≤ left then do
      writeStored temporary (calls.writes k (c :: buffer)).1
      Cmd.guard ((calls.writes k (c :: buffer)).2 = true)
      copyStored temporary (k + 1) (left - (c :: buffer).length)
    else Cmd.fail
  termination_by left
  decreasing_by
    simp only [List.length_cons] at *
    omega

/-! ### Storing -/

/-- The name of the temporary file: `snprintf` into 64 bytes. -/
def PlanItem.temporaryName (item : PlanItem) : Bytes := (item.recoveryId ++ str ".package.new").take 63

/-- What `wpm_operation_store_input` checks before it opens the directory: the item, and the name
that its input gets. -/
def storeTarget (collecting : Bool) (executing : Option PlanItem) (approvedState destination : Bytes) :
    Option (PlanItem × Bytes) := do
  guard (collecting = false)
  let item ← executing
  guard (item.failed = false ∧ item.journalFailed = false ∧ item.retainedState = .retained ∧
    item.action ≠ .remove)
  let name ← item.storeName 256
  let supplied ← calls.dataRoot
  let state ← calls.stateDigest
  guard (state = approvedState)
  let root ← calls.fullPath supplied
  guard (root.length + name.length + 12 < planPath)
  let canonical ← calls.fullPath destination
  guard (fold canonical = fold (trimRoot root ++ str "\\packages\\" ++ name))
  some (item, name)

/-- `wpm_operation_store_input` when a plan is active. -/
def storeInputFiles (collecting : Bool) (executing : Option PlanItem)
    (approvedState destination : Bytes) : StoreOp Unit := do
  let (item, name) ← Cmd.ofOption
    (storeTarget calls collecting executing approvedState destination)
  Cmd.guard (calls.guardOpens = true)
  guardFile calls item.temporaryName
  Cmd.guard (calls.seeks = true)
  let size ← Cmd.ofOption calls.size
  Cmd.guard (0 ≤ size)
  copyStored calls item.temporaryName 0 size.toNat
  let w ← Cmd.get
  let content ← Cmd.ofOption (w.packages (fold item.temporaryName))
  Cmd.guard (calls.hashes = true ∧ calls.hash content = item.fingerprint)
  Cmd.guard (calls.flushes = true)
  guardPublish calls item.temporaryName name
  Cmd.guard (calls.closes = true)

end Calls

/-! ### All or nothing -/

section Atomic

variable {calls : StoreCalls} {temporary name fingerprint : Bytes} {before p : Packages}

/-- Nothing is touched but the temporary file. -/
def OnlyTouches (temporary : Bytes) (before p : Packages) : Prop :=
  ∀ n, n ≠ fold temporary → p n = before n

/-- The file has the approved content. -/
def HasApproved (hash : Bytes → Bytes) (name fingerprint : Bytes) (p : Packages) : Prop :=
  ∃ content, p (fold name) = some content ∧ hash content = fingerprint

/-- **A directory that a stop may leave**: the file is as it was before the call, or has the approved
content; all others but the temporary one are as they were. -/
structure Intact (hash : Bytes → Bytes) (temporary name fingerprint : Bytes) (before p : Packages) :
    Prop where
  file : p (fold name) = before (fold name) ∨ HasApproved hash name fingerprint p
  others : ∀ n, n ≠ fold name → n ≠ fold temporary → p n = before n

lemma OnlyTouches.intact (hne : fold name ≠ fold temporary) (h : OnlyTouches temporary before p)
    (hash : Bytes → Bytes) (fingerprint : Bytes) :
    Intact hash temporary name fingerprint before p :=
  ⟨.inl (h _ hne), fun n _ hn => h n hn⟩

lemma OnlyTouches.put (h : OnlyTouches temporary before p) (content : Bytes) :
    OnlyTouches temporary before (p.put temporary content) := by
  intro n hn
  rw [Packages.put, if_neg hn, h n hn]

/-- The directory and all that it was before meet the condition. -/
def Throughout (P : Packages → Prop) (w : StoreWorld) : Prop :=
  w.packages ∈ w.visited ∧ ∀ p ∈ w.visited, P p

lemma Throughout.current {P : Packages → Prop} {w : StoreWorld} (h : Throughout P w) : P w.packages :=
  h.2 _ h.1

lemma Throughout.mono {P P' : Packages → Prop} {w : StoreWorld} (h : Throughout P w)
    (hP : ∀ p, P p → P' p) : Throughout P' w := ⟨h.1, fun p hp => hP p (h.2 p hp)⟩

lemma Throughout.change {P : Packages → Prop} {w : StoreWorld} (h : Throughout P w) {p' : Packages}
    (hf : P p') : Throughout P ⟨p', p' :: w.visited⟩ := by
  refine ⟨List.mem_cons_self, fun p hp => ?_⟩
  rcases List.mem_cons.1 hp with rfl | hp
  · exact hf
  · exact h.2 p hp

/-- Before the rename only the temporary file is touched. -/
abbrev Copying (temporary : Bytes) (before : Packages) : StoreWorld → Prop :=
  Throughout (OnlyTouches temporary before)

lemma guardFile_keeps : Keeps (Copying temporary before) (guardFile calls temporary) := by
  refine Keeps.guard.bind fun _ => Keeps.get_bind fun w _ => Keeps.guard.bind fun _ => ?_
  refine Keeps.bind ?_ fun _ => Keeps.guard
  exact Triple.modify fun w hw => hw.change (hw.current.put [])

lemma writeStored_keeps : ∀ pieces : List Bytes,
    Keeps (Copying temporary before) (writeStored temporary pieces)
  | [] => Triple.pure fun _ hw => hw
  | piece :: pieces => by
    refine Keeps.bind ?_ fun _ => writeStored_keeps pieces
    exact Triple.modify fun w hw => hw.change (hw.current.put _)

lemma copyStored_keeps {k left : ℕ} :
    Keeps (Copying temporary before) (copyStored calls temporary k left) := by
  induction k, left using copyStored.induct calls with
  | case1 k left hread =>
    rw [copyStored, hread]
    exact Triple.fail fun _ hw => hw
  | case2 k left hread =>
    rw [copyStored, hread]
    exact Keeps.guard
  | case3 k left c buffer hread hfits ih =>
    rw [copyStored, hread]
    dsimp only
    rw [if_pos hfits]
    exact (writeStored_keeps _).bind fun _ => Keeps.guard.bind fun _ => ih
  | case4 k left c buffer hread hfits =>
    rw [copyStored, hread]
    dsimp only
    rw [if_neg hfits]
    exact Triple.fail fun _ hw => hw

/-- The rename puts the approved content in the place of the file. -/
lemma OnlyTouches.rename {hash : Bytes → Bytes} (h : OnlyTouches temporary before p) {content : Bytes}
    (hcontent : p (fold temporary) = some content) (hhash : hash content = fingerprint) :
    HasApproved hash name fingerprint (p.rename temporary name) ∧
      Intact hash temporary name fingerprint before (p.rename temporary name) := by
  have hholds : HasApproved hash name fingerprint (p.rename temporary name) :=
    ⟨content, by rw [Packages.rename, if_pos rfl, hcontent], hhash⟩
  refine ⟨hholds, .inr hholds, ?_⟩
  intro n hname htemporary
  rw [Packages.rename, if_neg hname, if_neg htemporary, h n htemporary]

/-- The directories that the whole call leaves. -/
abbrev Stored (hash : Bytes → Bytes) (temporary name fingerprint : Bytes) (before : Packages) :
    StoreWorld → Prop := Throughout (Intact hash temporary name fingerprint before)

/-- The end of the call: what is hashed is what is renamed. -/
lemma guardPublish_stored {w : StoreWorld} {content : Bytes} (hne : fold name ≠ fold temporary)
    (h : Copying temporary before w) (hcontent : w.packages (fold temporary) = some content)
    (hhash : calls.hash content = fingerprint) :
    Triple (· = w) (guardPublish calls temporary name)
      (fun _ w => Stored calls.hash temporary name fingerprint before w ∧
        HasApproved calls.hash name fingerprint w.packages)
      (Stored calls.hash temporary name fingerprint before) := by
  have hstored : Stored calls.hash temporary name fingerprint before w :=
    h.mono fun p hp => hp.intact hne calls.hash fingerprint
  obtain ⟨hholds, hintact⟩ := h.current.rename hcontent hhash
  refine Triple.bind (Q := fun _ s => s = w) (Triple.guard (fun _ _ hs => hs) ?_) fun _ => ?_
  · rintro _ _ rfl
    exact hstored
  refine Triple.bind (Q := fun _ s => s = w) (Triple.guard (fun _ _ hs => hs) ?_) fun _ => ?_
  · rintro _ _ rfl
    exact hstored
  · refine Triple.modify ?_
    rintro _ rfl
    exact ⟨hstored.change hintact, hholds⟩

end Atomic

/-- The temporary file has a name of its own. -/
lemma PlanItem.fold_storeName_ne {item : PlanItem} (hid : item.recoveryId.length < 33) {name : Bytes}
    (hname : item.storeName 256 = some name) : fold name ≠ fold item.temporaryName := by
  have htemporary : item.temporaryName = item.recoveryId ++ str ".package.new" := by
    refine List.take_of_length_le ?_
    have hlength : (str ".package.new").length = 12 := by decide
    rw [List.length_append, hlength]
    omega
  unfold PlanItem.storeName at hname
  obtain rfl := Option.some.inj (Option.ite_none_right_eq_some.1 hname).2
  have hzip : (fold (str ".zip")).getLast? = some (ch 'p') := by decide
  have hnew : (fold (str ".package.new")).getLast? = some (ch 'w') := by decide
  intro heq
  have hlast := congrArg List.getLast? heq
  rw [htemporary, fold_append, fold_append _ (str ".package.new"), List.getLast?_append, hzip,
    List.getLast?_append, hnew, Option.some_or, Option.some_or] at hlast
  exact absurd (Option.some.inj hlast) (by decide)

lemma storeTarget_eq_some {calls : StoreCalls} {collecting : Bool} {executing : Option PlanItem}
    {approvedState destination name : Bytes} {item : PlanItem}
    (h : storeTarget calls collecting executing approvedState destination = some (item, name)) :
    executing = some item ∧ item.storeName 256 = some name := by
  unfold storeTarget at h
  obtain ⟨_, -, h⟩ := Option.bind_eq_some_iff.1 h
  obtain ⟨item', hitem, h⟩ := Option.bind_eq_some_iff.1 h
  obtain ⟨_, -, h⟩ := Option.bind_eq_some_iff.1 h
  obtain ⟨name', hname, h⟩ := Option.bind_eq_some_iff.1 h
  obtain ⟨supplied, -, h⟩ := Option.bind_eq_some_iff.1 h
  obtain ⟨state, -, h⟩ := Option.bind_eq_some_iff.1 h
  obtain ⟨_, -, h⟩ := Option.bind_eq_some_iff.1 h
  obtain ⟨root, -, h⟩ := Option.bind_eq_some_iff.1 h
  obtain ⟨_, -, h⟩ := Option.bind_eq_some_iff.1 h
  obtain ⟨canonical, -, h⟩ := Option.bind_eq_some_iff.1 h
  obtain ⟨_, -, h⟩ := Option.bind_eq_some_iff.1 h
  obtain ⟨rfl, rfl⟩ := Prod.mk.inj (Option.some.inj h)
  exact ⟨hitem, hname⟩

/-- The steps from the new file on. -/
lemma storeInputFiles_triple {calls : StoreCalls} {collecting : Bool} {item : PlanItem}
    {approvedState destination name : Bytes} {before : Packages} (hid : item.recoveryId.length < 33)
    (hname : item.storeName 256 = some name) :
    Triple (Copying item.temporaryName before)
      (storeInputFiles calls collecting (some item) approvedState destination)
      (fun _ w => Stored calls.hash item.temporaryName name item.fingerprint before w ∧
        HasApproved calls.hash name item.fingerprint w.packages)
      (Stored calls.hash item.temporaryName name item.fingerprint before) := by
  have hne := PlanItem.fold_storeName_ne hid hname
  have hstop : ∀ w, Copying item.temporaryName before w →
      Stored calls.hash item.temporaryName name item.fingerprint before w :=
    fun w hw => hw.mono fun p hp => hp.intact hne calls.hash item.fingerprint
  refine Triple.bind (Q := fun r w => r = (item, name) ∧ Copying item.temporaryName before w)
    (Triple.ofOption ?_ fun _ => hstop) fun r => Triple.of_imp ?_
  · rintro ⟨item', name'⟩ htarget w hw
    obtain ⟨hitem, hname'⟩ := storeTarget_eq_some htarget
    obtain rfl := Option.some.inj hitem
    obtain rfl := Option.some.inj (hname.symm.trans hname')
    exact ⟨rfl, hw⟩
  rintro rfl
  dsimp only
  refine (Keeps.guard.weaken (fun _ hw => hw) (fun _ _ hw => hw) hstop).bind fun _ => ?_
  refine (guardFile_keeps.weaken (fun _ hw => hw) (fun _ _ hw => hw) hstop).bind fun _ => ?_
  refine (Keeps.guard.weaken (fun _ hw => hw) (fun _ _ hw => hw) hstop).bind fun _ => ?_
  refine (Keeps.ofOption.weaken (fun _ hw => hw) (fun _ _ hw => hw) hstop).bind fun size => ?_
  refine (Keeps.guard.weaken (fun _ hw => hw) (fun _ _ hw => hw) hstop).bind fun _ => ?_
  refine (copyStored_keeps.weaken (fun _ hw => hw) (fun _ _ hw => hw) hstop).bind fun _ => ?_
  refine Triple.get_bind fun w hw => ?_
  refine Triple.bind (Q := fun content s => w.packages (fold item.temporaryName) = some content ∧ s = w)
    (Triple.ofOption ?_ ?_) fun content => Triple.of_imp fun hcontent => ?_
  · rintro content hcontent _ rfl
    exact ⟨hcontent, rfl⟩
  · rintro _ _ rfl
    exact hstop _ hw
  refine Triple.bind (Q := fun _ s => (calls.hash content = item.fingerprint) ∧ s = w)
    (Triple.guard ?_ ?_) fun _ => Triple.of_imp fun hhash => ?_
  · rintro ⟨-, hhash⟩ _ rfl
    exact ⟨hhash, rfl⟩
  · rintro _ _ rfl
    exact hstop _ hw
  refine Triple.bind (Q := fun _ s => s = w) (Triple.guard (fun _ _ hs => hs) ?_) fun _ => ?_
  · rintro _ _ rfl
    exact hstop _ hw
  refine (guardPublish_stored hne hw hcontent hhash).bind fun _ => ?_
  exact Triple.guard (fun _ _ hs => hs) fun _ _ hs => hs.1

/-- **Storing the approved input is all or nothing**: whatever call fails and wherever the process
stops, the file is as it was before or has the approved content, and nothing else is touched but the
temporary file; a success says that the file has the approved content. -/
theorem storeInput_atomic (calls : StoreCalls) (collecting : Bool) (item : PlanItem)
    (approvedState destination : Bytes) (before : Packages) (hid : item.recoveryId.length < 33) :
    let r := storeInputFiles calls collecting (some item) approvedState destination ⟨before, [before]⟩
    (∀ name, item.storeName 256 = some name → fold name ≠ fold item.temporaryName ∧
      (∀ p ∈ r.2.visited, Intact calls.hash item.temporaryName name item.fingerprint before p) ∧
      (r.1 = some () → HasApproved calls.hash name item.fingerprint r.2.packages)) ∧
    (item.storeName 256 = none → r = (none, ⟨before, [before]⟩)) := by
  intro r
  constructor
  · intro name hname
    have hstart : Copying item.temporaryName before ⟨before, [before]⟩ := by
      refine ⟨List.mem_singleton_self _, fun p hp n _ => ?_⟩
      rw [List.mem_singleton.1 hp]
    have htriple := @storeInputFiles_triple calls collecting item approvedState destination name
      before hid hname
    refine ⟨PlanItem.fold_storeName_ne hid hname, ?_, fun hsuccess => ?_⟩
    · exact ((htriple.post fun _ _ h => h.1).left hstart).2
    · exact (htriple.answer hstart hsuccess).2
  · intro hname
    have hnone : storeTarget calls collecting (some item) approvedState destination = none := by
      cases htarget : storeTarget calls collecting (some item) approvedState destination with
      | none => rfl
      | some target =>
        obtain ⟨hitem, hname'⟩ := storeTarget_eq_some htarget
        obtain rfl := Option.some.inj hitem
        rw [hname] at hname'
        exact absurd hname' (by simp)
    change storeInputFiles calls collecting (some item) approvedState destination _ = _
    unfold storeInputFiles
    rw [hnone]
    rfl

/-- An item whose input `abc` is to be stored; the fingerprint stands for the content itself. -/
def storedItem : PlanItem :=
  { PlanItem.collect ⟨.install, [], [], [], [], ⟨str "tool", str "1.0.0", str "x64"⟩, str "abc",
      ⟨0, 0, 0⟩, List.replicate 32 (ch '0'), []⟩ with retainedState := .retained }

/-- Calls that all go well, with a read for each byte. -/
def storedCalls : StoreCalls where
  dataRoot := some (str "D:\\wpm\\")
  stateDigest := some []
  fullPath := some
  hash := id
  guardOpens := true
  ordinary := true
  creates := true
  createdOrdinary := true
  seeks := true
  size := some 3
  reads k := some (((str "abc").drop k).take 1)
  writes _ buffer := ([buffer], true)
  hashes := true
  flushes := true
  stillOrdinary := true
  renames := true
  closes := true

/-- The store before: an older archive of that name. -/
def olderStore : Packages := Packages.put (fun _ => none) (str "tool-x64-1.0.0.zip") (str "old")

def storedDestination : Bytes := str "D:\\wpm\\packages\\Tool-x64-1.0.0.zip"

theorem storeInput_atomic_sample :
    storedItem.storeName 256 = some (str "tool-x64-1.0.0.zip") ∧
    ∀ p ∈ (storeInputFiles storedCalls false (some storedItem) []
        storedDestination ⟨olderStore, [olderStore]⟩).2.visited,
      Intact id storedItem.temporaryName (str "tool-x64-1.0.0.zip") (str "abc") olderStore p :=
  have hname : storedItem.storeName 256 = some (str "tool-x64-1.0.0.zip") := by decide
  ⟨hname, ((storeInput_atomic storedCalls false storedItem [] storedDestination olderStore
    (by decide)).1 (str "tool-x64-1.0.0.zip") hname).2.1⟩

end Wpm.Operation
