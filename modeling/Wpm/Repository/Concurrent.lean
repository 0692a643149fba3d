import Wpm.Repository.Configuration
import Mathlib.Logic.Function.Basic

/-!
Two processes that change the configuration of the repositories at the same time.

Each of them runs `rewrite` in steps: it opens and reads the old file, makes the temporary file,
writes to it, closes it and moves it over the old file. Nothing keeps a process from a step while the
other one is on its way, and both use the same name for the temporary file. A change that was made
while a process was between its reading and its moving is lost (`change_lost`); where no process
starts to read in that time, none is (`changes_not_lost`).
-/

namespace Wpm.Repository

open Wpm.Lib.CString Wpm.Lib.Text

/-- One of the processes: what it is asked to do, and how its calls go. -/
structure Process where
  change : Change
  calls : Outcome

/-- The bytes that the process writes. -/
def Process.output (p : Process) (lines : List Bytes) : Bytes :=
  textModeOut (p.calls.written (p.change.apply lines))

/-- Where a process is in `rewrite`, with the lines that it has read: it has the temporary file open,
as the file object `file`, and has written `position` bytes to it. -/
inductive Phase
  | start
  | opened (lines : List Bytes)
  | writing (lines : List Bytes) (file position : ℕ)
  | closed (lines : List Bytes)
  | done (ok : Bool)
  deriving DecidableEq

/-- The directory `config`, and the two processes. A name stands for a file object, which a process
that has it open keeps when the name is given to another one. -/
structure Folder where
  config : Option ℕ
  temporary : Option ℕ
  content : ℕ → Bytes
  fresh : ℕ
  phase : Bool → Phase

/-- The bytes of `repositories.txt`. -/
def Folder.text (s : Folder) : Option Bytes := s.config.map s.content

def Folder.goto (s : Folder) (i : Bool) (phase : Phase) : Folder :=
  { s with phase := Function.update s.phase i phase }

def Folder.put (s : Folder) (file : ℕ) (b : Bytes) : Folder :=
  { s with content := Function.update s.content file b }

/-- What a write at a position makes of a file. -/
def overwrite (content : Bytes) (position : ℕ) (b : Bytes) : Bytes :=
  (content ++ List.replicate (position - content.length) 0).take position ++ b ++
    content.drop (position + b.length)

inductive Action
  | read
  | create
  | write (n : ℕ)
  | close
  | move
  deriving DecidableEq

/-- A step of `rewrite` in the process `p`, the one with the number `i`, if it comes next there. -/
def Process.step (p : Process) (s : Folder) (i : Bool) (a : Action) : Option Folder :=
  match s.phase i, a with
  | .start, .read =>
    some (s.goto i (if p.calls.located then .opened (p.calls.readLines s.text) else .done false))
  | .opened lines, .create =>
    if p.calls.outputOpens = false then some (s.goto i (.done false))
    else match s.temporary with
      | some file => some ((s.put file []).goto i (.writing lines file 0))
      | none => some (({ s with temporary := some s.fresh, fresh := s.fresh + 1 }.put s.fresh []).goto
          i (.writing lines s.fresh 0))
  | .writing lines file position, .write n =>
    let b := ((p.output lines).drop position).take n
    some ((s.put file (overwrite (s.content file) position b)).goto i
      (.writing lines file (position + b.length)))
  | .writing lines _ position, .close =>
    if position < (p.output lines).length then none
    else if p.calls.outputCloses then some (s.goto i (.closed lines))
    else some ({ s with temporary := none }.goto i (.done false))
  | .closed lines, .move =>
    match p.calls.moves, s.temporary with
    | true, some file => some ({ s with config := some file, temporary := none }.goto i
        (.done !(p.change.remove && !p.change.found lines)))
    | _, _ => some ({ s with temporary := none }.goto i (.done false))
  | _, _ => none

/-- Before the two processes start: there may be a configuration, and a temporary file that an
earlier process has left. -/
structure Folder.Initial (s : Folder) : Prop where
  start : ∀ i, s.phase i = .start
  config_lt : ∀ file, s.config = some file → file < s.fresh
  temporary_lt : ∀ file, s.temporary = some file → file < s.fresh
  apart : ∀ file, s.config = some file → s.temporary ≠ some file

/-- The process is not between its reading and its moving. -/
def Phase.Idle : Phase → Prop
  | .start => True
  | .done _ => True
  | _ => False

section Runs

variable (process : Bool → Process)

/-- What the process that reads now needs for its change to be all or nothing. -/
def Process.Ready (p : Process) (s : Folder) : Prop :=
  p.calls.Sound s.text (p.change.apply (configLines s.text)) ∧
    Stays (p.change.apply (configLines s.text))

/-- A process starts to read only while the other one is not on its way. -/
def Admitted (s : Folder) (i : Bool) (a : Action) : Prop :=
  a = .read → (s.phase !i).Idle ∧ (process i).Ready s

/-- The folders that the two processes come to from `s₀`, by the steps that are admitted. -/
inductive Reached (admitted : Folder → Bool → Action → Prop) (s₀ : Folder) : Folder → Prop
  | init : Reached admitted s₀ s₀
  | step {s s' : Folder} {i : Bool} {a : Action} : Reached admitted s₀ s → admitted s i a →
      (process i).step s i a = some s' → Reached admitted s₀ s'

/-- What holds of a process, where it is. -/
def Fits (p : Process) (s : Folder) : Phase → Prop
  | .start => True
  | .opened lines => lines = configLines s.text ∧ p.Ready s
  | .writing lines file position => (lines = configLines s.text ∧ p.Ready s) ∧
      s.temporary = some file ∧ position ≤ (p.output lines).length ∧
      s.content file = (p.output lines).take position
  | .closed lines => (lines = configLines s.text ∧ p.Ready s) ∧
      ∃ file, s.temporary = some file ∧ s.content file = p.output lines
  | .done ok => ok = true → p.change.Made (configLines s.text)

/-- **The invariant**: one process at most is on its way. -/
structure Inv (s : Folder) : Prop where
  config_lt : ∀ file, s.config = some file → file < s.fresh
  temporary_lt : ∀ file, s.temporary = some file → file < s.fresh
  apart : ∀ file, s.config = some file → s.temporary ≠ some file
  idle : ∀ i, ¬(s.phase i).Idle → (s.phase !i).Idle
  fits : ∀ i, Fits (process i) s (s.phase i)

variable {process} {s s' : Folder} {i : Bool}

lemma Folder.Initial.inv (h : s.Initial) : Inv process s where
  config_lt := h.config_lt
  temporary_lt := h.temporary_lt
  apart := h.apart
  idle i hi := absurd (h.start i ▸ trivial) hi
  fits i := by
    rw [h.start i]
    trivial

lemma goto_self (s : Folder) (i : Bool) (phase : Phase) : (s.goto i phase).phase i = phase :=
  Function.update_self ..

lemma goto_other (s : Folder) (i : Bool) (phase : Phase) :
    (s.goto i phase).phase (!i) = s.phase !i := Function.update_of_ne (Bool.not_ne_self i) ..

/-- The next bytes are written where the last ones end. -/
lemma overwrite_take {output : Bytes} {position n : ℕ} (h : position ≤ output.length) :
    overwrite (output.take position) position ((output.drop position).take n) =
      output.take (position + ((output.drop position).take n).length) := by
  have hlen : (output.take position).length = position := List.length_take_of_le h
  have hnext := List.prefix_iff_eq_take.1 (List.take_prefix n (output.drop position))
  have htail : ∀ m, (output.take position).drop (position + m) = [] :=
    fun m => List.drop_of_length_le (by omega)
  rw [overwrite, hlen, Nat.sub_self, List.replicate_zero, List.append_nil, List.take_take,
    Nat.min_self, htail, List.append_nil, List.take_add, ← hnext]

/-- What holds of an idle process depends on the text of the configuration only. -/
lemma Fits.of_idle {p : Process} {phase : Phase} (hidle : phase.Idle) (htext : s'.text = s.text)
    (h : Fits p s phase) : Fits p s' phase := by
  cases phase with
  | start => trivial
  | done ok =>
    intro hok
    rw [htext]
    exact h hok
  | _ => exact absurd hidle not_false

/-- A step of the process `i` that leaves the text of the configuration as it is. -/
lemma Inv.goto {phase : Phase} (h : Inv process s) (hother : (s.phase !i).Idle)
    (htext : s'.text = s.text) (hphase : s'.phase = s.phase)
    (hconfig : ∀ file, s'.config = some file → file < s'.fresh)
    (htemporary : ∀ file, s'.temporary = some file → file < s'.fresh)
    (hapart : ∀ file, s'.config = some file → s'.temporary ≠ some file)
    (hfits : Fits (process i) s' phase) : Inv process (s'.goto i phase) where
  config_lt := hconfig
  temporary_lt := htemporary
  apart := hapart
  idle j hj := by
    by_cases hij : j = i
    · subst hij
      rw [goto_other, hphase]
      exact hother
    · obtain rfl : j = !i := Bool.eq_not_of_ne hij
      rw [goto_other, hphase] at hj
      exact absurd hother hj
  fits j := by
    by_cases hij : j = i
    · subst hij
      rw [goto_self]
      cases phase <;> exact hfits
    · obtain rfl : j = !i := Bool.eq_not_of_ne hij
      rw [goto_other, hphase]
      exact (h.fits !i).of_idle hother htext

/-- A file that is not the configuration is written to. -/
lemma text_put {file : ℕ} (h : s.config ≠ some file) (b : Bytes) : (s.put file b).text = s.text := by
  cases hconfig : s.config with
  | none => simp [Folder.text, Folder.put, hconfig]
  | some f =>
    have hne : f ≠ file := fun heq => h (by rw [hconfig, heq])
    simp [Folder.text, Folder.put, hconfig, Function.update_of_ne hne]

/-- The configuration is replaced by a file with the lines that the process was to write. -/
lemma configLines_of_output {p : Process} {lines : List Bytes} (hready : p.Ready s)
    (hlines : lines = configLines s.text) :
    configLines (some (p.output lines)) = p.change.apply lines := by
  rw [hlines, Process.output, hready.1.written]
  exact configLines_textModeOut_iff.2 hready.2

/-- The process `i` moves its file over the configuration. -/
lemma Inv.move {file : ℕ} {ok : Bool} (hplain : ∀ i, (process i).change.Plain)
    (hne : fold (process false).change.wanted ≠ fold (process true).change.wanted)
    (h : Inv process s) (hother : (s.phase !i).Idle) (htemporary : s.temporary = some file)
    (hlines : configLines (some (s.content file)) =
      (process i).change.apply (configLines s.text)) :
    Inv process ({ s with config := some file, temporary := none }.goto i (.done ok)) where
  config_lt f hf := Option.some.inj hf ▸ h.temporary_lt file htemporary
  temporary_lt f hf := by simp [Folder.goto] at hf
  apart f _ hf := by simp [Folder.goto] at hf
  idle j hj := by
    by_cases hij : j = i
    · subst hij
      rw [goto_self] at hj
      exact absurd trivial hj
    · obtain rfl : j = !i := Bool.eq_not_of_ne hij
      rw [goto_other] at hj
      exact absurd hother hj
  fits j := by
    by_cases hij : j = i
    · subst hij
      rw [goto_self]
      intro _
      change Change.Made _ (configLines (some (s.content file)))
      rw [hlines]
      exact made_apply _ _
    · obtain rfl : j = !i := Bool.eq_not_of_ne hij
      rw [goto_other]
      have hfits := h.fits !i
      change Fits _ _ (s.phase !i)
      cases hphase : s.phase !i with
      | start => trivial
      | done ok =>
        intro hok
        rw [hphase] at hfits
        change Change.Made _ (configLines (some (s.content file)))
        rw [hlines]
        refine (hfits hok).apply ?_ (hplain _) (hplain _)
        cases i
        · exact Ne.symm hne
        · exact hne
      | _ =>
        rw [hphase] at hother
        exact absurd hother not_false

/-- **Each step keeps the invariant.** -/
theorem Inv.step {a : Action} (hplain : ∀ i, (process i).change.Plain)
    (hne : fold (process false).change.wanted ≠ fold (process true).change.wanted)
    (h : Inv process s) (hadmitted : Admitted process s i a)
    (hstep : (process i).step s i a = some s') : Inv process s' := by
  have hfits := h.fits i
  have hidle := h.idle i
  unfold Process.step at hstep
  split at hstep
  next hphase =>
    -- the old file is opened and read
    obtain ⟨hother, hready⟩ := hadmitted rfl
    obtain rfl := Option.some.inj hstep
    refine h.goto hother rfl rfl h.config_lt h.temporary_lt h.apart ?_
    split_ifs
    · exact ⟨hready.1.readLines, hready⟩
    · exact fun hok => absurd hok Bool.false_ne_true
  next lines hphase =>
    -- the temporary file is opened, and emptied or made
    rw [hphase] at hfits hidle
    have hother := hidle not_false
    split at hstep
    · obtain rfl := Option.some.inj hstep
      exact h.goto hother rfl rfl h.config_lt h.temporary_lt h.apart
        fun hok => absurd hok Bool.false_ne_true
    · split at hstep
      next file htemporary =>
        obtain rfl := Option.some.inj hstep
        have htext : (s.put file []).text = s.text :=
          text_put (fun hconfig => h.apart file hconfig htemporary) []
        refine h.goto hother htext rfl h.config_lt h.temporary_lt h.apart ⟨?_, htemporary, ?_, ?_⟩
        · rw [Process.Ready, htext]
          exact hfits
        · exact Nat.zero_le _
        · exact Function.update_self ..
      next htemporary =>
        obtain rfl := Option.some.inj hstep
        have hfresh : s.config ≠ some s.fresh := fun hconfig => by
          have := h.config_lt _ hconfig
          omega
        have htext : ({ s with temporary := some s.fresh, fresh := s.fresh + 1 }.put s.fresh
            []).text = s.text := @text_put s s.fresh hfresh []
        refine h.goto hother htext rfl ?_ ?_ ?_ ⟨?_, rfl, ?_, ?_⟩
        · exact fun file hfile => Nat.lt_succ_of_lt (h.config_lt file hfile)
        · intro file hfile
          obtain rfl := Option.some.inj hfile
          exact Nat.lt_succ_self _
        · intro file hfile htemp
          obtain rfl := Option.some.inj htemp
          exact hfresh hfile
        · rw [Process.Ready, htext]
          exact hfits
        · exact Nat.zero_le _
        · exact Function.update_self ..
  next lines file position n hphase =>
    -- some bytes are written
    rw [hphase] at hfits hidle
    obtain ⟨hready, htemporary, hle, hcontent⟩ := hfits
    obtain rfl := Option.some.inj hstep
    have htext : ∀ b, (s.put file b).text = s.text :=
      text_put fun hconfig => h.apart file hconfig htemporary
    refine h.goto (hidle not_false) (htext _) rfl h.config_lt h.temporary_lt h.apart
      ⟨?_, htemporary, ?_, ?_⟩
    · rw [Process.Ready, htext]
      exact hready
    · have hb := List.length_take_le' n (((process i).output lines).drop position)
      rw [List.length_drop] at hb
      omega
    · rw [← overwrite_take hle, hcontent]
      exact Function.update_self ..
  next lines file position hphase =>
    -- the temporary file is closed
    rw [hphase] at hfits hidle
    obtain ⟨hready, htemporary, hle, hcontent⟩ := hfits
    split at hstep
    · simp at hstep
    · split at hstep
      · obtain rfl := Option.some.inj hstep
        refine h.goto (hidle not_false) rfl rfl h.config_lt h.temporary_lt h.apart
          ⟨hready, file, htemporary, ?_⟩
        rw [hcontent, List.take_of_length_le (by omega)]
      · obtain rfl := Option.some.inj hstep
        exact h.goto (hidle not_false) rfl rfl h.config_lt (fun file hfile => by simp at hfile)
          (fun file _ hfile => by simp at hfile) fun hok => absurd hok Bool.false_ne_true
  next lines hphase =>
    -- the temporary file is moved over the old one
    rw [hphase] at hfits hidle
    obtain ⟨⟨hlines, hready⟩, file, htemporary, hcontent⟩ := hfits
    split at hstep
    next f hmoves hfile =>
      obtain rfl := Option.some.inj (htemporary.symm.trans hfile)
      obtain rfl := Option.some.inj hstep
      exact h.move hplain hne (hidle not_false) htemporary
        (by rw [hcontent, configLines_of_output hready hlines, hlines])
    next =>
      obtain rfl := Option.some.inj hstep
      exact h.goto (hidle not_false) rfl rfl h.config_lt (fun file hfile => by simp at hfile)
        (fun file _ hfile => by simp at hfile) fun hok => absurd hok Bool.false_ne_true
  next => simp at hstep

/-- **No change is lost**, if a process starts to read only while the other one is not between its
reading and its moving, and the change is one that is all or nothing: when both report success, the
configuration has both changes. -/
theorem changes_not_lost {fullPath : Bytes → Option Bytes} (hfull : PlainPaths fullPath)
    (hrequested : ∀ i, (process i).change.Requested fullPath)
    (hne : fold (process false).change.wanted ≠ fold (process true).change.wanted)
    {s₀ : Folder} (hs₀ : s₀.Initial) (h : Reached process (Admitted process) s₀ s)
    (hdone : ∀ i, s.phase i = .done true) : ∀ i, (process i).change.Made (configLines s.text) := by
  have hplain : ∀ i, (process i).change.Plain := fun i => (hrequested i).plain hfull
  have hinv : Inv process s := by
    clear hdone
    induction h with
    | init => exact hs₀.inv
    | step _ hadmitted hstep ih => exact ih.step hplain hne hadmitted hstep
  intro i
  have hfits := hinv.fits i
  rw [hdone i] at hfits
  exact hfits rfl

/-! ### Runs -/

/-- The steps in turn, each with its process. -/
def run (process : Bool → Process) (s : Folder) : List (Bool × Action) → Option Folder
  | [] => some s
  | (i, a) :: steps => ((process i).step s i a).bind fun s => run process s steps

lemma Reached.steps {admitted : Folder → Bool → Action → Prop} {s₀ : Folder} :
    ∀ {steps : List (Bool × Action)} {s s' : Folder}, Reached process admitted s₀ s →
      (∀ t, ∀ step ∈ steps, admitted t step.1 step.2) → run process s steps = some s' →
      Reached process admitted s₀ s'
  | [], s, s', h, _, hrun => Option.some.inj hrun ▸ h
  | (i, a) :: steps, s, s', h, hadmitted, hrun => by
    obtain ⟨t, hstep, hrun⟩ := Option.bind_eq_some_iff.1 hrun
    exact (h.step (hadmitted s _ List.mem_cons_self) hstep).steps
      (fun t step hmem => hadmitted t step (List.mem_cons_of_mem _ hmem)) hrun

/-- All that a process does after it has read the old file. -/
def finishing (i : Bool) : List (Bool × Action) :=
  [(i, .create), (i, .write 4096), (i, .close), (i, .move)]

/-- A process runs from its start to its end. -/
lemma Reached.turn {s₀ : Folder} (h : Reached process (Admitted process) s₀ s)
    (hadmitted : Admitted process s i .read)
    (hrun : run process s ((i, .read) :: finishing i) = some s') :
    Reached process (Admitted process) s₀ s' := by
  obtain ⟨t, hstep, hrun⟩ := Option.bind_eq_some_iff.1 hrun
  refine (h.step hadmitted hstep).steps (fun t step hmem hread => ?_) hrun
  have hall : ∀ step ∈ finishing i, step.2 ≠ .read := by cases i <;> decide
  exact absurd hread (hall step hmem)

/-- One process adds a repository, the other one adds another one. -/
def sampleProcess (i : Bool) : Process :=
  ⟨⟨if i then str "https://b.example" else str "https://a.example", 0, false, false⟩, .fine⟩

def sampleFolder : Folder := ⟨none, none, fun _ => [], 0, fun _ => .start⟩

lemma sampleFolder_initial : sampleFolder.Initial :=
  ⟨fun _ => rfl, fun _ h => by simp [sampleFolder] at h, fun _ h => by simp [sampleFolder] at h,
    fun _ h => by simp [sampleFolder] at h⟩

/-- **A change is lost**: there is no configuration yet; one process finds none, the other one makes
it, and the first one replaces it by its own. -/
theorem change_lost : ∃ s, sampleFolder.Initial ∧
    Reached sampleProcess (fun _ _ _ => True) sampleFolder s ∧
    (∀ i, s.phase i = .done true) ∧
    ¬(sampleProcess false).change.Made (configLines s.text) := by
  have hrun : (run sampleProcess sampleFolder
      ((true, .read) :: (false, .read) :: finishing false ++ finishing true)).map
        (fun s => (s.phase false, s.phase true, configLines s.text)) =
      some (.done true, .done true, [str "0\thttps://b.example\n"]) := by decide
  obtain ⟨s, hs, hresult⟩ := Option.map_eq_some_iff.1 hrun
  obtain ⟨hfalse, hresult⟩ := Prod.mk.inj hresult
  obtain ⟨htrue, hlines⟩ := Prod.mk.inj hresult
  refine ⟨s, sampleFolder_initial, Reached.init.steps (fun _ _ _ => trivial) hs, ?_, ?_⟩
  · rintro (_ | _)
    · exact hfalse
    · exact htrue
  · intro hmade
    have hmem := (hmade.2 rfl).1
    rw [hlines] at hmem
    exact absurd hmem (by decide)

lemma sampleProcess_requested (i : Bool) : (sampleProcess i).change.Requested fun _ => none := by
  cases i
  · exact .inl ⟨str "https://a.example", 0, false, by decide⟩
  · exact .inl ⟨str "https://b.example/", 0, false, by decide⟩

/-- What a process needs to read, if its lines are read again as they are written. -/
lemma sampleProcess_ready {i : Bool} (h : configLines
    (some (textModeOut ((sampleProcess i).change.apply (configLines s.text)).flatten)) =
      (sampleProcess i).change.apply (configLines s.text)) : (sampleProcess i).Ready s :=
  ⟨Outcome.sound_fine _ _, configLines_textModeOut_iff.1 h⟩

theorem changes_not_lost_sample : ∃ s : Folder, (∀ i, s.phase i = .done true) ∧
    ∀ i, (sampleProcess i).change.Made (configLines s.text) := by
  have hplain : PlainPaths fun _ => none := fun _ _ h => by simp at h
  -- one process after the other
  have hfirst : (run sampleProcess sampleFolder ((false, .read) :: finishing false)).map
      (fun s => (s.phase false, s.phase true, s.text)) =
      some (.done true, .start, some (str "0\thttps://a.example\r\n")) := by decide
  have hboth : (run sampleProcess sampleFolder ((false, .read) :: finishing false) >>= fun s =>
      run sampleProcess s ((true, .read) :: finishing true)).map
        (fun s => (s.phase false, s.phase true)) = some (.done true, .done true) := by decide
  obtain ⟨s₁, hs₁, hphase₁⟩ := Option.map_eq_some_iff.1 hfirst
  obtain ⟨s₂, hs₂, hphase₂⟩ := Option.map_eq_some_iff.1 hboth
  rw [hs₁] at hs₂
  simp only [Prod.mk.injEq] at hphase₁ hphase₂
  have hadmitted : Admitted sampleProcess sampleFolder false .read :=
    fun _ => ⟨trivial, sampleProcess_ready (by decide)⟩
  have hreached₁ := Reached.init.turn hadmitted hs₁
  have hreached₂ := hreached₁.turn (fun _ => ⟨?_, sampleProcess_ready ?_⟩) hs₂
  · have hdone : ∀ i, s₂.phase i = .done true := by
      rintro (_ | _)
      · exact hphase₂.1
      · exact hphase₂.2
    exact ⟨s₂, hdone, changes_not_lost hplain sampleProcess_requested (by decide)
      sampleFolder_initial hreached₂ hdone⟩
  · change (s₁.phase false).Idle
    rw [hphase₁.1]
    trivial
  · rw [hphase₁.2.2]
    decide

end Runs

end Wpm.Repository
