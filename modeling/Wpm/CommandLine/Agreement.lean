import Wpm.CommandLine.Dispatch
import Mathlib.Data.List.Infix

/-!
The command line as it is checked, and as it is dispatched.

The checks find the action and the operands wherever options stand between them. The dispatcher comes
to the same action, on the same operands, exactly when what it reads at fixed places stands there.
-/

namespace Wpm.CommandLine

open Wpm.Lib.CString

/-! ### What has been checked -/

/-- Arguments whose options have been checked. -/
inductive Options (command : Command) : List Bytes → Prop
  | nil : Options command []
  | operand {argument : Bytes} {arguments : List Bytes} (h : cur argument ≠ ch '-')
    (hs : Options command arguments) : Options command (argument :: arguments)
  | flag {option : Bytes} {arguments : List Bytes} (h : cur option = ch '-')
    (hflag : option = str "--verbose" ∨ option ∈ flagOptions command)
    (hvalue : option ∉ valueOptions command) (hs : Options command arguments) :
    Options command (option :: arguments)
  | value {option value : Bytes} {arguments : List Bytes} (h : cur option = ch '-')
    (hvalue : option ∈ valueOptions command) (hvalid : optionValueValid command option value = true)
    (hs : Options command arguments) : Options command (option :: value :: arguments)

lemma options_of_valid {command : Command} {arguments : List Bytes}
    (h : validateCommandOptions command arguments = true) : Options command arguments := by
  fun_induction validateCommandOptions command arguments with
  | case1 => exact .nil
  | case2 option arguments hdash ih => exact .operand hdash (ih h)
  | case3 => exact absurd h (by simp)
  | case4 => exact absurd h (by simp)
  | case5 option hdash hknown hvalue value arguments ih =>
    rw [Bool.and_eq_true] at h
    exact .value (not_not.1 hdash) (of_decide_eq_true hvalue) h.1 (ih h.2)
  | case6 option arguments hdash hknown hvalue ih =>
    refine .flag (not_not.1 hdash) ?_ (by simpa [commandOptionTakesValue] using hvalue) (ih h)
    simp only [Bool.not_eq_true] at hvalue
    rw [or_iff_not_imp_left]
    simpa [commandOptionIsKnown, hvalue] using hknown

lemma loopOperands_flag {flags options arguments : List Bytes} {argument : Bytes}
    (h : argument ∈ flags) :
    loopOperands flags options (argument :: arguments) = loopOperands flags options arguments := by
  rw [loopOperands.eq_def]
  exact if_pos h

lemma loopOperands_operand {flags options arguments : List Bytes} {argument : Bytes}
    (h : argument ∉ flags) (h' : argument ∉ options) :
    loopOperands flags options (argument :: arguments) =
      argument :: loopOperands flags options arguments := by
  rw [loopOperands.eq_def]
  exact (if_neg h).trans (if_neg h')

section Collect

variable {command : Command} {arguments : List Bytes}

lemma collect_operand {argument : Bytes} (h : cur argument ≠ ch '-') :
    collectCommandOperands command (argument :: arguments) =
      argument :: collectCommandOperands command arguments := by
  rw [collectCommandOperands.eq_def]
  exact if_neg fun hdash => h hdash.1

lemma collect_flag {option : Bytes} (h : cur option = ch '-')
    (hflag : option = str "--verbose" ∨ option ∈ flagOptions command)
    (hvalue : option ∉ valueOptions command) :
    collectCommandOperands command (option :: arguments) =
      collectCommandOperands command arguments := by
  have hknown : commandOptionIsKnown command option = true := by
    rcases hflag with rfl | hflag
    · simp [commandOptionIsKnown]
    · simp [commandOptionIsKnown, hflag]
  have htakes : ¬commandOptionTakesValue command option = true := by
    simpa [commandOptionTakesValue] using hvalue
  rw [collectCommandOperands.eq_def]
  exact (if_pos ⟨h, hknown⟩).trans (if_neg htakes)

lemma collect_value {option value : Bytes} (h : cur option = ch '-')
    (hvalue : option ∈ valueOptions command) :
    collectCommandOperands command (option :: value :: arguments) =
      collectCommandOperands command arguments := by
  have hknown : commandOptionIsKnown command option = true := by
    simp [commandOptionIsKnown, commandOptionTakesValue, hvalue]
  have htakes : commandOptionTakesValue command option = true := by
    simpa [commandOptionTakesValue] using hvalue
  rw [collectCommandOperands, if_pos ⟨h, hknown⟩, if_pos htakes]

lemma collect_sublist (command : Command) (arguments : List Bytes) :
    (collectCommandOperands command arguments).Sublist arguments := by
  fun_induction collectCommandOperands command arguments with
  | case1 => exact List.Sublist.refl _
  | case2 => exact List.nil_sublist _
  | case3 option _ _ value arguments ih => exact (ih.cons value).cons option
  | case4 option _ _ _ ih => exact ih.cons option
  | case5 argument _ _ ih => exact ih.cons_cons argument

lemma Options.of_cons {operand : Bytes} (h : Options command (operand :: arguments))
    (hdash : cur operand ≠ ch '-') : Options command arguments := by
  cases h with
  | operand _ hs => exact hs
  | flag h => exact absurd h hdash
  | value h => exact absurd h hdash

/-- An operand is no option. -/
lemma Options.cur_ne (h : Options command arguments) :
    ∀ operand ∈ collectCommandOperands command arguments, cur operand ≠ ch '-' := by
  induction h with
  | nil => exact fun _ h => absurd h List.not_mem_nil
  | operand hdash hs ih =>
    rw [collect_operand hdash]
    exact List.forall_mem_cons.2 ⟨hdash, ih⟩
  | flag hdash hflag hvalue hs ih => rwa [collect_flag hdash hflag hvalue]
  | value hdash hvalue hvalid hs ih => rwa [collect_value hdash hvalue]

/-- Only a priority may start with a dash. -/
lemma cur_ne_of_valid {option value : Bytes} (hc : command ≠ .repo)
    (h : optionValueValid command option value = true) : cur value ≠ ch '-' := by
  simp only [optionValueValid, Bool.and_eq_true, decide_eq_true_eq] at h
  exact h.1.1.resolve_right fun h => hc h.1

/-- **The loops of the dispatcher** over all arguments take the operands that are collected, also when
the options of a plan have been taken out. -/
lemma loopOperands_eq {flags removed : List Bytes} (hc : command ≠ .repo)
    (hknown : ∀ option ∈ flagOptions command, option ∈ flags ∨ option ∈ removed)
    (hverbose : str "--verbose" ∈ flags)
    (hflags : ∀ option ∈ flags ++ removed, cur option = ch '-' ∧ option ∉ valueOptions command)
    (h : Options command arguments) :
    loopOperands flags (valueOptions command) (arguments.filter (· ∉ removed)) =
      collectCommandOperands command arguments := by
  have hdash : ∀ {argument : Bytes}, cur argument ≠ ch '-' → argument ∉ flags ∧ argument ∉ removed :=
    fun h => ⟨fun hmem => h (hflags _ (List.mem_append_left _ hmem)).1,
      fun hmem => h (hflags _ (List.mem_append_right _ hmem)).1⟩
  have hvalues : ∀ {option : Bytes}, option ∈ valueOptions command →
      option ∉ flags ∧ option ∉ removed :=
    fun h => ⟨fun hmem => (hflags _ (List.mem_append_left _ hmem)).2 h,
      fun hmem => (hflags _ (List.mem_append_right _ hmem)).2 h⟩
  have hoperand : ∀ {option : Bytes}, option ∈ valueOptions command → cur option = ch '-' := by
    cases command <;> decide
  induction h with
  | nil => rfl
  | @operand argument arguments hd hs ih =>
    obtain ⟨hnotFlag, hkept⟩ := hdash hd
    rw [collect_operand hd, List.filter_cons_of_pos (by simpa using hkept),
      loopOperands_operand hnotFlag fun hmem => hd (hoperand hmem), ih]
  | @flag option arguments hd hflag hvalue hs ih =>
    rw [collect_flag hd hflag hvalue]
    by_cases hremoved : option ∈ removed
    · rw [List.filter_cons_of_neg (by simpa using hremoved), ih]
    · have hmem : option ∈ flags := by
        rcases hflag with rfl | hflag
        · exact hverbose
        · exact (hknown option hflag).resolve_right hremoved
      rw [List.filter_cons_of_pos (by simpa using hremoved), loopOperands_flag hmem, ih]
  | @value option value arguments hd hvalue hvalid hs ih =>
    obtain ⟨hnotFlag, hkept⟩ := hvalues hvalue
    have hvalueKept := (hdash (cur_ne_of_valid hc hvalid)).2
    rw [collect_value hd hvalue, List.filter_cons_of_pos (by simpa using hkept),
      List.filter_cons_of_pos (by simpa using hvalueKept), loopOperands, if_neg hnotFlag,
      if_pos hvalue, ih]

/-- **The loop over the options with values** has one for each option that is given. -/
lemma lastValues_isSome_iff {removed : List Bytes} {option : Bytes} (hc : command ≠ .repo)
    (hoption : option ∈ valueOptions command)
    (hremoved : ∀ flag ∈ removed, cur flag = ch '-' ∧ flag ∉ valueOptions command)
    (h : Options command arguments) (kept : Bytes → Option Bytes) :
    (lastValues (valueOptions command) kept (arguments.filter (· ∉ removed)) option).isSome ↔
      option ∈ arguments ∨ (kept option).isSome := by
  have hvalues : ∀ {option : Bytes}, option ∈ valueOptions command → cur option = ch '-' := by
    cases command <;> decide
  have hother : ∀ {kept : Bytes → Option Bytes} {argument : Bytes} {arguments : List Bytes},
      argument ∉ valueOptions command → lastValues (valueOptions command) kept
        (argument :: arguments) = lastValues (valueOptions command) kept arguments := fun h => by
    rw [lastValues.eq_def]
    exact if_neg h
  induction h generalizing kept with
  | nil =>
    rw [List.filter_nil, lastValues]
    exact (or_iff_right List.not_mem_nil).symm
  | @operand argument arguments hd hs ih =>
    have hkept : argument ∉ removed := fun hmem => hd (hremoved _ hmem).1
    have hnot : argument ∉ valueOptions command := fun hmem => hd (hvalues hmem)
    have hne : option ≠ argument := fun h => hnot (h ▸ hoption)
    rw [List.filter_cons_of_pos (by simpa using hkept), hother hnot, List.mem_cons,
      or_iff_right hne]
    exact ih kept
  | @flag argument arguments hd hflag hnot hs ih =>
    have hne : option ≠ argument := fun h => hnot (h ▸ hoption)
    rw [List.mem_cons, or_iff_right hne]
    by_cases hmem : argument ∈ removed
    · rw [List.filter_cons_of_neg (by simpa using hmem)]
      exact ih kept
    · rw [List.filter_cons_of_pos (by simpa using hmem), hother hnot]
      exact ih kept
  | @value argument value arguments hd hvalue hvalid hs ih =>
    have hkept : argument ∉ removed := fun hmem => (hremoved _ hmem).2 hvalue
    have hdash := cur_ne_of_valid hc hvalid
    have hvalueKept : value ∉ removed := fun hmem => hdash (hremoved _ hmem).1
    have hne : option ≠ value := fun h => hdash (h ▸ hvalues hoption)
    rw [List.filter_cons_of_pos (by simpa using hkept),
      List.filter_cons_of_pos (by simpa using hvalueKept), lastValues.eq_def]
    simp only [if_pos hvalue]
    refine (ih _).trans ?_
    rw [List.mem_cons, List.mem_cons, or_iff_right hne]
    by_cases heq : option = argument
    · subst heq
      simp
    · rw [Function.update_of_ne heq, or_iff_right heq]

/-- Where all options of a command are taken out, its operands are left. -/
lemma filter_eq_collect {removed : List Bytes} (hnone : valueOptions command = [])
    (hknown : ∀ option ∈ flagOptions command, option ∈ removed)
    (hremoved : ∀ option ∈ removed, cur option = ch '-') (hverbose : str "--verbose" ∉ arguments)
    (h : Options command arguments) :
    arguments.filter (· ∉ removed) = collectCommandOperands command arguments := by
  induction h with
  | nil => rfl
  | @operand argument arguments hd hs ih =>
    have hkept : argument ∉ removed := fun hmem => hd (hremoved _ hmem)
    rw [collect_operand hd, List.filter_cons_of_pos (by simpa using hkept),
      ih fun hmem => hverbose (List.mem_cons_of_mem _ hmem)]
  | @flag option arguments hd hflag hvalue hs ih =>
    have hmem : option ∈ removed := by
      rcases hflag with rfl | hflag
      · exact absurd List.mem_cons_self hverbose
      · exact hknown option hflag
    rw [collect_flag hd hflag hvalue, List.filter_cons_of_neg (by simpa using hmem),
      ih fun hmem => hverbose (List.mem_cons_of_mem _ hmem)]
  | value hd hvalue hvalid hs ih => exact absurd (hnone ▸ hvalue) List.not_mem_nil

end Collect

/-! ### What reaches the dispatcher -/

/-- `--verbose` is taken out, unless an upgrade of the program itself is completed. -/
lemma takeGlobals_verbose : ∀ {arguments kept rest : List Bytes} {verbose : Bool},
    takeGlobals kept arguments = some (rest, verbose) →
    (str "--verbose" ∈ kept → kept.head? = some (str "--complete-self-upgrade")) →
    str "--verbose" ∈ rest → rest.head? = some (str "--complete-self-upgrade")
  | [], kept, rest, verbose, h, hkept => by
    rw [takeGlobals, Option.some.injEq, Prod.mk.injEq] at h
    exact h.1 ▸ hkept
  | argument :: arguments, kept, rest, verbose, h, hkept => by
    have hself : str "--verbose" ≠ str "--complete-self-upgrade" := by simp [str_inj]
    rw [takeGlobals.eq_def] at h
    simp only at h
    rw [ite_eq_iff] at h
    obtain ⟨-, h⟩ | ⟨hverbose, h⟩ := h
    · obtain ⟨r, hr, hpair⟩ := Option.map_eq_some_iff.1 h
      obtain ⟨rfl, -⟩ := Prod.mk.inj hpair
      exact takeGlobals_verbose hr hkept
    rw [ite_eq_iff] at h
    obtain ⟨-, h⟩ | ⟨-, h⟩ := h
    · cases arguments with
      | nil => exact absurd h (by simp)
      | cons value arguments =>
        obtain ⟨-, h⟩ := Option.ite_none_right_eq_some.1 h
        exact takeGlobals_verbose h hkept
    rw [ite_eq_iff] at h
    obtain ⟨-, h⟩ | ⟨-, h⟩ := h
    · obtain ⟨-, h⟩ := Option.ite_none_right_eq_some.1 h
      exact takeGlobals_verbose h hkept
    obtain ⟨-, h⟩ := Option.ite_none_left_eq_some.1 h
    refine takeGlobals_verbose h fun hmem => ?_
    rcases List.mem_append.1 hmem with hmem | hmem
    · have hhead := hkept hmem
      cases kept with
      | nil => exact absurd hhead (by simp)
      | cons a kept => simpa using hhead
    · obtain rfl := List.mem_singleton.1 hmem
      have hhead := not_not.1 fun hne => hverbose ⟨rfl, hne⟩
      cases kept with
      | nil => exact absurd (Option.some.inj hhead) hself
      | cons a kept => simpa using hhead

/-- What is known at the dispatcher. -/
structure Reached (i : Invocation) : Prop where
  options : validateCommandOptions i.command i.checked = true
  operands : validateCommandOperands i.command i.checked = true
  actions : validateCommandActions i.command i.checked = true
  arguments : i.arguments =
    if i.command.planned then i.checked.filter (· ∉ planOptions) else i.checked
  verbose : str "--verbose" ∉ i.checked

lemma reached_of_reachDispatcher {args : List Bytes} {i : Invocation}
    (h : reachDispatcher args = some i) : Reached i := by
  obtain ⟨-, h⟩ := Option.ite_none_left_eq_some.1 h
  cases htake : takeGlobals [] args with
  | none => exact absurd (htake ▸ h) (by simp)
  | some r =>
    obtain ⟨kept, verbose⟩ := r
    rw [htake] at h
    obtain ⟨hself, h⟩ := Option.ite_none_left_eq_some.1 h
    cases hdrop : kept.dropWhile (fun a => decide (a ∈ globalOptions)) with
    | nil => exact absurd (hdrop ▸ h) (by simp)
    | cons word arguments =>
      rw [hdrop] at h
      obtain ⟨-, h⟩ := Option.ite_none_left_eq_some.1 h
      have hverbose : str "--verbose" ∉ arguments := fun hmem => by
        have hkept : str "--verbose" ∈ kept := by
          refine (List.dropWhile_sublist fun a => decide (a ∈ globalOptions)).subset ?_
          rw [hdrop]
          exact List.mem_cons_of_mem word hmem
        exact hself (takeGlobals_verbose htake (fun h => absurd h List.not_mem_nil) hkept)
      unfold checkCommand at h
      cases hword : parseCommand word with
      | none => exact absurd (hword ▸ h) (by simp)
      | some command =>
        rw [hword] at h
        obtain ⟨-, h⟩ := Option.ite_none_left_eq_some.1 h
        obtain ⟨hoptions, h⟩ := Option.ite_none_left_eq_some.1 h
        obtain ⟨hoperands, h⟩ := Option.ite_none_left_eq_some.1 h
        obtain ⟨hactions, h⟩ := Option.ite_none_left_eq_some.1 h
        obtain ⟨-, h⟩ := Option.ite_none_left_eq_some.1 h
        obtain ⟨-, h⟩ := Option.ite_none_left_eq_some.1 h
        obtain rfl := Option.some.inj h
        exact ⟨by simpa using hoptions, by simpa using hoperands, by simpa using hactions, rfl,
          hverbose⟩

/-! ### The action that has been checked -/

/-- What the checks have found: the commands that take one operand after the other, those with an
action, and the others. -/
def checkedAction (command : Command) (operands : List Bytes) :
    List (Command × Bytes × List Bytes) :=
  match command with
  | .verify | .install | .remove => operands.map fun operand => (command, [], [operand])
  | .repo | .trust | .recovery => [(command, operands.headD (str "list"), operands.tail)]
  | .key | .config => [(command, operands.headD [], operands.tail)]
  | _ => [(command, [], operands)]

/-- **The dispatcher agrees**: it makes the calls for the action that has been checked, on exactly the
operands that are collected, in their order, and refuses none. -/
def Agrees (i : Invocation) : Prop :=
  (dispatch i).map (List.map Call.subject) =
    some ((checkedAction i.command (collectCommandOperands i.command i.checked)).map some)

/-- Where the dispatcher looks for an action of `repo` and its operand. -/
def PlacedRepo (operands arguments : List Bytes) : Prop :=
  match operands with
  | [] => False
  | action :: _ =>
    if action ∈ [str "verify", str "diagnose", str "init", str "add-package"] then True
    else if action ∈ [str "index", str "sign"] then arguments.head? = some action
    else if action ∈ [str "list", str "update"] then
      arguments = [action] ∨ arguments = [action, str "--offline"]
    else if action = str "add" then operands <+: arguments ∧ str "--offline" ∉ arguments
    else arguments = operands

/-- **The arguments stand where the dispatcher looks for them**, and are not among those that it
refuses on its own. -/
def Placed (i : Invocation) : Prop :=
  let operands := collectCommandOperands i.command i.checked
  match i.command with
  | .install => (∃ package ∈ operands, isZipPath package = true) →
      str "--arch" ∉ i.checked ∧ str "--version" ∉ i.checked
  | .remove => i.before = []
  | .init => i.before = [] ∧
      ∀ name ∈ operands, name.length < 128 ∧ packageNameIsValid name = true
  | .repo => PlacedRepo operands i.checked
  | .key => i.checked.head? = some (str "default")
  | .config => operands <+: i.checked
  | .keygen => i.checked = operands ∨ i.checked = operands ++ [str "--default"]
  | .upgrade => operands.length ≤ 128 ∧
      if str "--all" ∈ i.checked then operands = [] ∧ str "--version" ∉ i.checked
      else operands ≠ []
  | _ => True

/-! ### Command by command -/

variable {i : Invocation}

lemma Reached.arguments_eq (hi : Reached i) (h : i.command.planned = false) :
    i.arguments = i.checked := by
  rw [hi.arguments, if_neg (by simp [h])]

lemma Reached.arguments_filter (hi : Reached i) (h : i.command.planned = true) :
    i.arguments = i.checked.filter (· ∉ planOptions) := by
  rw [hi.arguments, if_pos h]

lemma filter_none (arguments : List Bytes) :
    arguments.filter (fun a => decide (a ∉ ([] : List Bytes))) = arguments :=
  List.filter_eq_self.2 fun a _ => by simp

/-- **`build`** -/
lemma agrees_build (hi : Reached i) (hc : i.command = .build) : Agrees i := by
  have hargs := hi.arguments_eq (by rw [hc]; rfl)
  have hloop := @loopOperands_eq .build i.checked [str "--verbose", str "--no-index"] []
    (by decide) (by simp [flagOptions]) (by simp) (by decide)
    (hc ▸ options_of_valid hi.options)
  rw [filter_none] at hloop
  have hcount := hi.operands
  rw [hc, validateCommandOperands] at hcount
  simp only [Bool.decide_and, Bool.and_eq_true, decide_eq_true_eq] at hcount
  rw [Agrees, dispatch, hc]
  change loopOperands _ [str "--sign"] _ = _ at hloop
  simp only [hargs, hloop]
  cases hops : collectCommandOperands .build i.checked with
  | nil =>
    rw [hops] at hcount
    exact absurd hcount.1 (by simp)
  | cons source rest =>
    cases rest with
    | nil => rfl
    | cons output rest =>
      obtain rfl : rest = [] := by
        rw [hops, List.length_cons, List.length_cons] at hcount
        exact List.eq_nil_of_length_eq_zero (by omega)
      rfl

/-- **`verify`** -/
lemma agrees_verify (hi : Reached i) (hc : i.command = .verify) : Agrees i := by
  have hargs := hi.arguments_eq (by rw [hc]; rfl)
  have hloop := @loopOperands_eq .verify i.checked
    [str "--verbose", str "--read-only", str "--allow-unsigned"] [] (by decide)
    (by simp [flagOptions]) (by simp) (by decide) (hc ▸ options_of_valid hi.options)
  rw [filter_none] at hloop
  have hcount := hi.operands
  rw [hc, validateCommandOperands] at hcount
  simp only [decide_eq_true_eq] at hcount
  rw [Agrees, dispatch, hc]
  change loopOperands _ [] _ = _ at hloop
  simp only [hargs, hloop, checkedAction]
  cases hops : collectCommandOperands .verify i.checked with
  | nil =>
    rw [hops] at hcount
    exact absurd hcount (by simp)
  | cons package packages =>
    simp only [Option.map_some, List.map_map]
    rfl

/-- The options with values that `install` and `upgrade` take, wherever they stand. -/
lemma selected_isSome_iff {option : Bytes} (hi : Reached i) (hc : i.command.planned = true)
    (hvalues : valueOptions i.command = [str "--arch", str "--version"])
    (hoption : option ∈ [str "--arch", str "--version"]) :
    (lastValues [str "--arch", str "--version"] (fun _ => none) i.arguments option).isSome ↔
      option ∈ i.checked := by
  have hrepo : i.command ≠ .repo := by
    intro h
    rw [h] at hc
    exact absurd hc (by decide)
  have hremoved : ∀ flag ∈ planOptions, cur flag = ch '-' ∧ flag ∉ valueOptions i.command := by
    rw [hvalues]
    decide
  have hgiven := lastValues_isSome_iff hrepo (hvalues ▸ hoption) hremoved
    (options_of_valid hi.options) fun _ => none
  rw [hvalues, ← hi.arguments_filter hc] at hgiven
  exact hgiven.trans (or_iff_left Bool.false_ne_true)

/-- **`install`** refuses a ZIP path with an architecture or a version. -/
lemma agrees_install_iff (hi : Reached i) (hc : i.command = .install) : Agrees i ↔
    ((∃ package ∈ collectCommandOperands .install i.checked, isZipPath package = true) →
      str "--arch" ∉ i.checked ∧ str "--version" ∉ i.checked) := by
  have hloop := @loopOperands_eq .install i.checked
    [str "--verbose", str "--offline", str "--allow-unsigned"] planOptions (by decide)
    (by simp [flagOptions, planOptions]) (by simp) (by decide) (hc ▸ options_of_valid hi.options)
  rw [← hi.arguments_filter (by rw [hc]; rfl)] at hloop
  have hcount := hi.operands
  rw [hc, validateCommandOperands] at hcount
  simp only [decide_eq_true_eq] at hcount
  have hne : collectCommandOperands .install i.checked ≠ [] := by
    intro h
    rw [h] at hcount
    exact absurd hcount (by simp)
  have hplanned : i.command.planned = true := by rw [hc]; rfl
  have hvalues : valueOptions i.command = [str "--arch", str "--version"] := by rw [hc]; rfl
  have harch := selected_isSome_iff hi hplanned hvalues (List.mem_cons_self : str "--arch" ∈ _)
  have hversion := selected_isSome_iff hi hplanned hvalues (by simp : str "--version" ∈ _)
  rw [Agrees, dispatch, hc]
  change loopOperands _ [str "--arch", str "--version"] _ = _ at hloop
  simp only [dispatchInstall, hloop, checkedAction, if_neg hne, Option.map_some, List.map_map,
    Option.some.injEq, harch, hversion, ← not_or]
  constructor
  · rintro h ⟨package, hmem, hzip⟩ hgiven
    have hpackage := List.map_inj_left.1 h package hmem
    simp only [Function.comp_apply, if_pos hzip, if_pos hgiven, Call.subject] at hpackage
    exact absurd hpackage.symm (Option.some_ne_none _)
  · intro h
    refine List.map_congr_left fun package hmem => ?_
    simp only [Function.comp_apply]
    split_ifs with hzip hgiven
    · exact absurd hgiven (h ⟨package, hmem, hzip⟩)
    · rfl
    · rfl

/-- **`remove`** reads `argv` from its third element on. -/
lemma agrees_remove_iff (hi : Reached i) (hc : i.command = .remove) : Agrees i ↔ i.before = [] := by
  have hfilter := @filter_eq_collect .remove i.checked planOptions rfl (by decide)
    (by decide) hi.verbose (hc ▸ options_of_valid hi.options)
  rw [← hi.arguments_filter (by rw [hc]; rfl)] at hfilter
  have hcount := hi.operands
  rw [hc, validateCommandOperands] at hcount
  simp only [decide_eq_true_eq] at hcount
  rw [Agrees, dispatch, hc]
  simp only [checkedAction, ← hfilter] at hcount ⊢
  have hlen : ¬i.argv.length < 2 := by
    rw [Invocation.argv, List.length_append, List.length_cons]
    omega
  have hsubject : ∀ l : List Bytes, (l.map Call.remove).map Call.subject =
      (l.map fun operand => (Command.remove, [], [operand])).map some := fun l => by
    rw [List.map_map, List.map_map]
    rfl
  have hinj : Function.Injective fun operand : Bytes =>
      some ((Command.remove, [], [operand]) : Command × Bytes × List Bytes) := by
    intro a b h
    simpa using h
  rw [if_neg hlen, Option.map_some, Option.some.injEq, hsubject, List.map_map, List.map_map]
  refine hinj.list_map.eq_iff.trans ?_
  constructor
  · intro h
    have heq := congrArg List.length h
    rw [List.length_drop, Invocation.argv, List.length_append, List.length_cons] at heq
    exact List.eq_nil_of_length_eq_zero (by omega)
  · intro h
    rw [Invocation.argv, h]
    rfl

/-- **`init`** reads the third element of `argv`, if it is the last one, and refuses what is no name
of a package. -/
lemma agrees_init_iff (hi : Reached i) (hc : i.command = .init) : Agrees i ↔ i.before = [] ∧
    ∀ name ∈ collectCommandOperands .init i.checked,
      name.length < 128 ∧ packageNameIsValid name = true := by
  have hfilter := @filter_eq_collect .init i.checked [] rfl (by decide) (by decide)
    hi.verbose (hc ▸ options_of_valid hi.options)
  rw [filter_none] at hfilter
  have hargs := hi.arguments_eq (by rw [hc]; rfl)
  have hcount := hi.operands
  rw [hc, validateCommandOperands] at hcount
  simp only [decide_eq_true_eq] at hcount
  rw [← hfilter] at hcount
  have hsubject : ∀ name : Bytes, ((if name.length < 128 ∧ packageNameIsValid name then
      some [Call.init (some name)] else some [.initRefused name]).map (List.map Call.subject)) =
      some [if name.length < 128 ∧ packageNameIsValid name then some (.init, [], [name])
        else none] := by
    intro name
    split_ifs <;> rfl
  have hargv : i.argv = i.before ++ i.word :: i.checked := by rw [Invocation.argv, hargs]
  rw [Agrees, dispatch, hc]
  simp only [checkedAction, ← hfilter, hargv]
  cases i.before with
  | nil =>
    rw [and_iff_right rfl]
    cases hchecked : i.checked with
    | nil => exact iff_of_true rfl (by simp)
    | cons name rest =>
      obtain rfl : rest = [] := by
        rw [hchecked, List.length_cons] at hcount
        exact List.eq_nil_of_length_eq_zero (by omega)
      rw [List.forall_mem_singleton]
      refine Iff.trans (Eq.congr_left (hsubject name)) ?_
      split_ifs with hvalid
      · exact iff_of_true rfl hvalid
      · exact iff_of_false (by simp) hvalid
  | cons b before =>
    refine iff_of_false ?_ fun h => List.cons_ne_nil b before h.1
    by_cases hlong : 2 < (b :: before ++ i.word :: i.checked).length
    · rw [if_pos hlong]
      exact fun h => absurd h (by simp)
    · simp only [List.length_append, List.length_cons] at hlong
      obtain rfl : before = [] := List.eq_nil_of_length_eq_zero (by omega)
      have hchecked : i.checked = [] := List.eq_nil_of_length_eq_zero (by omega)
      rw [hchecked]
      intro h
      have hword := (hsubject i.word).symm.trans h
      split_ifs at hword <;> simp at hword

/-- **`list`** -/
lemma agrees_list (hi : Reached i) (hc : i.command = .list) : Agrees i := by
  have hargs := hi.arguments_eq (by rw [hc]; rfl)
  have hcount := hi.operands
  rw [hc, validateCommandOperands] at hcount
  simp only [decide_eq_true_eq] at hcount
  rw [Agrees, dispatch, hc]
  simp only [hargs, checkedAction, Option.map_some, List.map_cons, List.map_nil, Call.subject]
  cases hops : collectCommandOperands .list i.checked with
  | nil => rfl
  | cons name rest =>
    obtain rfl : rest = [] := by
      rw [hops, List.length_cons] at hcount
      exact List.eq_nil_of_length_eq_zero (by omega)
    rfl

/-- **`show`** -/
lemma agrees_show (hi : Reached i) (hc : i.command = .show) : Agrees i := by
  have hargs := hi.arguments_eq (by rw [hc]; rfl)
  have hcount := hi.operands
  rw [hc, validateCommandOperands] at hcount
  simp only [decide_eq_true_eq] at hcount
  obtain ⟨name, hops⟩ := List.length_eq_one_iff.1 hcount
  rw [Agrees, dispatch, hc]
  simp only [hargs, checkedAction, hops]
  rfl

/-- **`update`** -/
lemma agrees_update (hi : Reached i) (hc : i.command = .update) : Agrees i := by
  have hcount := hi.operands
  rw [hc, validateCommandOperands] at hcount
  simp only [decide_eq_true_eq] at hcount
  rw [Agrees, dispatch, hc]
  simp only [checkedAction, List.eq_nil_of_length_eq_zero hcount]
  rfl

/-- **`recovery`** -/
lemma agrees_recovery (hi : Reached i) (hc : i.command = .recovery) : Agrees i := by
  have hargs := hi.arguments_eq (by rw [hc]; rfl)
  have hactions := hi.actions
  rw [hc, validateCommandActions] at hactions
  have hops : (∃ id, collectCommandOperands .recovery i.checked = [str "inspect", id]) ∨
      collectCommandOperands .recovery i.checked = [str "records"] ∨
      collectCommandOperands .recovery i.checked = [] ∨
      collectCommandOperands .recovery i.checked = [str "list"] := by
    generalize collectCommandOperands .recovery i.checked = operands at hactions
    simp only [validateRecovery] at hactions
    split at hactions
    next name arch =>
      rw [ite_eq_iff] at hactions
      obtain ⟨-, h⟩ | ⟨-, h⟩ := hactions
      · exact absurd h (by simp)
      rw [ite_eq_iff] at h
      obtain ⟨⟨hlen, haction, -⟩, -⟩ | ⟨-, h⟩ := h
      · obtain ⟨a, id, rfl⟩ := List.length_eq_two.1 hlen
        obtain rfl := Option.some.inj haction
        exact .inl ⟨id, rfl⟩
      rw [ite_eq_iff] at h
      obtain ⟨-, h⟩ | ⟨-, h⟩ := h
      · exact absurd h (by simp)
      · exact .inr (of_decide_eq_true h)
    next => exact absurd hactions (by simp)
  rw [Agrees, dispatch, hc]
  simp only [dispatchRecovery, hargs, checkedAction]
  have hwords : str "inspect" ≠ str "list" ∧ str "records" ≠ str "list" := by simp [str_inj]
  obtain ⟨id, hops⟩ | hops | hops | hops := hops <;> rw [hops]
  · rw [if_pos ⟨List.cons_ne_nil _ _, hwords.1⟩]
    rfl
  · rw [if_pos ⟨List.cons_ne_nil _ _, hwords.2⟩]
    rfl
  · rw [if_neg fun h => h.1 rfl]
    rfl
  · rw [if_neg fun h => h.2 rfl]
    rfl

/-- **`upgrade`** has room for 128 names, and takes names or `--all`, and this without a version. -/
lemma agrees_upgrade_iff (hi : Reached i) (hc : i.command = .upgrade) :
    Agrees i ↔ (collectCommandOperands .upgrade i.checked).length ≤ 128 ∧
      if str "--all" ∈ i.checked then
        collectCommandOperands .upgrade i.checked = [] ∧ str "--version" ∉ i.checked
      else collectCommandOperands .upgrade i.checked ≠ [] := by
  have hloop := @loopOperands_eq .upgrade i.checked [str "--all", str "-y", str "--yes",
    str "--allow-unsigned", str "--offline", str "--verbose"] planOptions (by decide)
    (by simp [flagOptions, planOptions]) (by simp) (by decide) (hc ▸ options_of_valid hi.options)
  have hfilter := hi.arguments_filter (by rw [hc]; rfl)
  rw [← hfilter] at hloop
  have hversion := selected_isSome_iff hi (by rw [hc]; rfl) (by rw [hc]; rfl)
    (by simp : str "--version" ∈ _)
  have hall : commandHasOption i.arguments (str "--all") = true ↔ str "--all" ∈ i.checked := by
    rw [commandHasOption, decide_eq_true_iff, hfilter, List.mem_filter]
    exact and_iff_left (by decide)
  change loopOperands _ [str "--arch", str "--version"] _ = _ at hloop
  generalize hops : collectCommandOperands .upgrade i.checked = operands at hloop
  have htake : operands.take 128 = [] ↔ operands = [] := by simp
  rw [Agrees, dispatch, hc]
  simp only [dispatchUpgrade, hloop, checkedAction, hops, Option.map_some, List.map_cons,
    List.map_nil, Option.some.injEq, List.cons.injEq, and_true, ne_eq, htake, hversion, hall,
    ← Bool.not_eq_true]
  by_cases hgiven : str "--all" ∈ i.checked
  · simp only [hgiven, not_true_eq_false, false_and, true_and, false_or, if_true]
    split_ifs with hrefused
    · exact iff_of_false (by simp [Call.subject]) fun h => hrefused.elim (· h.2.1) h.2.2
    · rw [not_or, not_not] at hrefused
      exact iff_of_true (by rw [hrefused.1]; rfl) ⟨by rw [hrefused.1]; decide, hrefused⟩
  · simp only [hgiven, not_false_eq_true, false_and, true_and, or_false, if_false]
    split_ifs with hrefused
    · exact iff_of_false (by simp [Call.subject]) fun h => h.2 hrefused
    · rw [Call.subject, Option.some.injEq, Prod.mk.injEq, Prod.mk.injEq, and_iff_right rfl,
        and_iff_right rfl, and_iff_left hrefused]
      exact List.take_eq_self_iff _

/-- **`trust`** knows no options. -/
lemma agrees_trust (hi : Reached i) (hc : i.command = .trust) : Agrees i := by
  have hfilter := @filter_eq_collect .trust i.checked [] rfl (by decide) (by decide)
    hi.verbose (hc ▸ options_of_valid hi.options)
  rw [filter_none] at hfilter
  have hargs := hi.arguments_eq (by rw [hc]; rfl)
  have hactions := hi.actions
  rw [hc, validateCommandActions] at hactions
  simp only [decide_eq_true_eq, ← hfilter] at hactions
  rw [Agrees, dispatch, hc]
  simp only [dispatchTrust, hargs, checkedAction, ← hfilter]
  obtain h | ⟨h, hlist⟩ | ⟨h, hadd | hrevoke⟩ := hactions
  · rw [List.eq_nil_of_length_eq_zero h]
    rfl
  · obtain ⟨a, hchecked⟩ := List.length_eq_one_iff.1 h
    rw [hchecked] at hlist ⊢
    obtain rfl : a = str "list" := hlist
    rfl
  · obtain ⟨a, path, hchecked⟩ := List.length_eq_two.1 h
    rw [hchecked] at hadd ⊢
    obtain rfl : a = str "add" := hadd
    rfl
  · obtain ⟨a, id, hchecked⟩ := List.length_eq_two.1 h
    rw [hchecked] at hrevoke ⊢
    obtain rfl : a = str "revoke" := hrevoke
    rfl

/-- **`keygen`** counts the arguments. -/
lemma agrees_keygen_iff (hi : Reached i) (hc : i.command = .keygen) : Agrees i ↔
    i.checked = collectCommandOperands .keygen i.checked ∨
      i.checked = collectCommandOperands .keygen i.checked ++ [str "--default"] := by
  have hargs := hi.arguments_eq (by rw [hc]; rfl)
  have hcount := hi.operands
  have hoptions : Options .keygen i.checked := hc ▸ options_of_valid hi.options
  rw [hc, validateCommandOperands] at hcount
  simp only [decide_eq_true_eq] at hcount
  rw [Agrees, dispatch, hc]
  simp only [hargs, checkedAction]
  constructor
  · intro h
    by_cases hrefuse : i.checked.length ≠ 2 ∧
        decide (i.checked.length = 3 ∧ i.checked.getD 2 [] = str "--default") = false
    · rw [if_pos hrefuse] at h
      exact absurd h (by simp)
    rw [not_and_or, not_not, Bool.not_eq_false, decide_eq_true_eq] at hrefuse
    obtain hlen | ⟨hlen, hdefault⟩ := hrefuse
    · exact .inl ((collect_sublist .keygen i.checked).eq_of_length (hcount.trans hlen.symm)).symm
    · obtain ⟨a, b, c, hchecked⟩ := List.length_eq_three.1 hlen
      rw [hchecked] at hdefault
      obtain rfl : c = str "--default" := hdefault
      -- the operands stand before the option
      have hsub := collect_sublist .keygen i.checked
      rw [hchecked, show [a, b, str "--default"] = [a, b] ++ [str "--default"] from rfl] at hsub
      obtain ⟨l, l', hl, hsub, hsub'⟩ := List.sublist_append_iff.1 hsub
      have hnil : l' = [] := by
        refine List.eq_nil_iff_forall_not_mem.2 fun x hx => ?_
        have hne := hoptions.cur_ne x (by rw [hchecked]; exact hl ▸ List.mem_append_right _ hx)
        rw [List.mem_singleton.1 (hsub'.subset hx)] at hne
        exact hne (by decide)
      rw [hnil, List.append_nil] at hl
      have heq := hsub.eq_of_length (by rw [← hl]; rw [hchecked] at hcount; exact hcount)
      refine .inr ?_
      rw [hchecked]
      change _ = collectCommandOperands .keygen ([a, b] ++ [str "--default"]) ++ _
      rw [hl, heq]
      rfl
  · intro h
    obtain ⟨a, b, hops⟩ := List.length_eq_two.1 hcount
    rw [hops] at h ⊢
    obtain h | h := h <;> rw [h] <;> rfl

/-- **`key`** looks for `default` right behind the command. -/
lemma agrees_key_iff (hi : Reached i) (hc : i.command = .key) :
    Agrees i ↔ i.checked.head? = some (str "default") := by
  have hargs := hi.arguments_eq (by rw [hc]; rfl)
  have hoptions : Options .key i.checked := hc ▸ options_of_valid hi.options
  have hverbose := hi.verbose
  have hactions := hi.actions
  rw [hc, validateCommandActions] at hactions
  simp only [decide_eq_true_eq, commandHasOption, decide_eq_false_iff_not] at hactions
  rw [Agrees, dispatch, hc]
  simp only [checkedAction]
  generalize i.checked = arguments at *
  have hdefault : cur (str "default") ≠ ch '-' := by decide
  cases arguments with
  | nil => exact absurd hactions (by simp [collectCommandOperands])
  | cons first rest =>
    rw [List.head?_cons, Option.some.injEq]
    by_cases hfirst : first = str "default"
    · subst hfirst
      refine iff_of_true ?_ rfl
      rw [collect_operand hdefault] at hactions ⊢
      have hrest : Options .key rest := hoptions.of_cons hdefault
      rw [List.length_cons] at hactions
      cases hrest with
      | nil =>
        refine absurd hactions ?_
        simp only [collectCommandOperands, List.length_nil, List.mem_singleton]
        rintro (⟨-, -, h⟩ | ⟨h, -⟩)
        · exact absurd h (by simp [str_inj])
        · exact absurd h (by decide)
      | @operand path rest hdash hs =>
        rw [collect_operand hdash, List.length_cons] at hactions
        obtain ⟨h, -⟩ | ⟨h, -, hclear⟩ := hactions
        · exact absurd h (by omega)
        have hpath : path ≠ str "--clear" := fun h => hclear (by rw [h]; simp)
        have hops : collectCommandOperands .key rest = [] :=
          List.eq_nil_of_length_eq_zero (by omega)
        have hlen : 2 ≤ (str "default" :: path :: rest).length := by
          rw [List.length_cons, List.length_cons]
          omega
        have hsecond : (str "default" :: path :: rest).getD 1 [] = path := rfl
        rw [collect_operand hdash, hops, dispatchKey, hargs, if_pos ⟨rfl, hlen⟩, hsecond,
          if_neg hpath]
        rfl
      | @flag option rest hdash hflag hvalue hs =>
        obtain rfl : option = str "--clear" := by
          rcases hflag with rfl | hflag
          · exact absurd (by simp) hverbose
          · exact List.mem_singleton.1 hflag
        rw [collect_flag hdash hflag hvalue] at hactions ⊢
        obtain ⟨h, -, -⟩ | ⟨-, -, hclear⟩ := hactions
        swap
        · exact absurd (by simp) hclear
        have hops : collectCommandOperands .key rest = [] :=
          List.eq_nil_of_length_eq_zero (by omega)
        have hlen : 2 ≤ (str "default" :: str "--clear" :: rest).length := by
          rw [List.length_cons, List.length_cons]
          omega
        rw [hops, dispatchKey, hargs, if_pos ⟨rfl, hlen⟩]
        rfl
      | value hdash hvalue => exact absurd hvalue List.not_mem_nil
    · refine iff_of_false ?_ hfirst
      rw [dispatchKey, hargs, if_neg fun h => hfirst h.1]
      exact fun h => absurd h (by simp)

lemma cur_ne_of_fold {value word : Bytes} (h : fold value = word) (hword : cur word ≠ ch '-') :
    cur value ≠ ch '-' := by
  rintro hdash
  cases value with
  | nil => exact absurd hdash (by decide)
  | cons c value =>
    obtain rfl : c = ch '-' := hdash
    rw [← h, fold_cons, cur_cons] at hword
    exact hword (by decide)

/-- **`config`** looks for its operands right behind the command. -/
lemma agrees_config_iff (hi : Reached i) (hc : i.command = .config) :
    Agrees i ↔ collectCommandOperands .config i.checked <+: i.checked := by
  have hargs := hi.arguments_eq (by rw [hc]; rfl)
  have hoptions : Options .config i.checked := hc ▸ options_of_valid hi.options
  have hactions := hi.actions
  rw [hc, validateCommandActions] at hactions
  simp only [decide_eq_true_eq, commandHasOption] at hactions
  obtain ⟨hcount, hsetting, haction⟩ := hactions
  rw [Agrees, dispatch, hc]
  simp only [checkedAction]
  generalize i.checked = arguments at *
  constructor
  · intro h
    obtain ⟨call, hcall, -⟩ : ∃ call, dispatchConfig i = some call ∧ True := by
      obtain ⟨calls, hcalls, -⟩ := Option.map_eq_some_iff.1 h
      obtain ⟨call, hcall, -⟩ := Option.map_eq_some_iff.1 hcalls
      exact ⟨call, hcall, trivial⟩
    rw [dispatchConfig, hargs] at hcall
    obtain ⟨hprerelease, hcall⟩ := Option.ite_none_left_eq_some.1 hcall
    rw [not_not] at hprerelease
    obtain ⟨action, rest, rfl⟩ : ∃ action rest, arguments = action :: str "prerelease" :: rest := by
      have hne : ([] : Bytes) ≠ str "prerelease" := by decide
      cases arguments with
      | nil => exact absurd hprerelease hne
      | cons action rest =>
        cases rest with
        | nil => exact absurd hprerelease hne
        | cons setting rest =>
          obtain rfl : setting = str "prerelease" := hprerelease
          exact ⟨action, rest, rfl⟩
    have hsetting : cur (str "prerelease") ≠ ch '-' := by decide
    have hdash : cur action ≠ ch '-' := by
      rw [List.headD_cons] at hcall
      rw [ite_eq_iff] at hcall
      obtain ⟨rfl, -⟩ | ⟨-, hcall⟩ := hcall
      · decide
      rw [ite_eq_iff] at hcall
      obtain ⟨⟨rfl, -⟩, -⟩ | ⟨-, hcall⟩ := hcall
      · decide
      obtain ⟨rfl, -⟩ := Option.ite_none_right_eq_some.1 hcall
      decide
    rw [collect_operand hdash, collect_operand hsetting] at haction ⊢
    rw [List.headD_cons, List.length_cons, List.length_cons] at haction
    have hnone : (collectCommandOperands .config rest).length + 1 + 1 = 2 →
        action :: str "prerelease" :: collectCommandOperands .config rest <+:
          action :: str "prerelease" :: rest := by
      intro hlen
      have hops : collectCommandOperands .config rest = [] :=
        List.eq_nil_of_length_eq_zero (by omega)
      rw [hops]
      exact ⟨rest, rfl⟩
    obtain ⟨-, hlen⟩ | ⟨rfl, hlen, -⟩ | ⟨-, hlen, -⟩ := haction
    · exact hnone hlen
    · have hget : str "set" ≠ str "get" := by simp [str_inj]
      rw [List.headD_cons, if_neg hget] at hcall
      have hthree : 3 ≤ (str "set" :: str "prerelease" :: rest).length := by
        have hle := (collect_sublist .config rest).length_le
        rw [List.length_cons, List.length_cons]
        omega
      rw [if_pos ⟨rfl, hthree⟩] at hcall
      obtain ⟨hvalue, -⟩ := Option.ite_none_left_eq_some.1 hcall
      cases rest with
      | nil => exact absurd hthree (by decide)
      | cons value rest =>
        have hdashValue : cur value ≠ ch '-' := by
          rw [not_and_or, not_not, not_not] at hvalue
          rcases hvalue with h | h <;> exact cur_ne_of_fold h (by decide)
        rw [collect_operand hdashValue, List.length_cons] at hlen
        have hops : collectCommandOperands .config rest = [] :=
          List.eq_nil_of_length_eq_zero (by omega)
        rw [collect_operand hdashValue, hops]
        exact ⟨rest, rfl⟩
    · exact hnone hlen
  · rintro ⟨rest, hrest⟩
    have hwords : str "set" ≠ str "get" ∧ str "unset" ≠ str "get" ∧ str "unset" ≠ str "set" := by
      simp [str_inj]
    generalize hops : collectCommandOperands .config arguments = operands at *
    obtain ⟨haction, hlen⟩ | ⟨haction, hlen, hvalue⟩ | ⟨haction, hlen, hpackage⟩ := haction
    · obtain ⟨a, b, rfl⟩ := List.length_eq_two.1 hlen
      obtain rfl : a = str "get" := haction
      obtain rfl : b = str "prerelease" := hsetting
      rw [dispatchConfig, hargs, ← hrest]
      rfl
    · obtain ⟨a, b, value, rfl⟩ := List.length_eq_three.1 hlen
      obtain rfl : a = str "set" := haction
      obtain rfl : b = str "prerelease" := hsetting
      have hthree : 3 ≤ ([str "set", str "prerelease", value] ++ rest).length := by
        rw [List.length_append]
        exact Nat.le_add_right 3 _
      have hno : ¬(fold value ≠ str "true" ∧ fold value ≠ str "false") := by
        rw [not_and_or, not_not, not_not]
        exact hvalue
      have hsecond : ([str "set", str "prerelease", value] ++ rest).getD 1 [] = str "prerelease" :=
        rfl
      have hfirst : ([str "set", str "prerelease", value] ++ rest).headD [] = str "set" := rfl
      rw [dispatchConfig, hargs, ← hrest, hsecond, if_neg (not_not.2 rfl), hfirst,
        if_neg hwords.1, if_pos ⟨rfl, hthree⟩]
      exact congrArg _ (congrArg _ (if_neg hno))
    · obtain ⟨a, b, rfl⟩ := List.length_eq_two.1 hlen
      obtain rfl : a = str "unset" := haction
      obtain rfl : b = str "prerelease" := hsetting
      have hmem : str "--package" ∈ rest := by
        rw [← hrest] at hpackage
        rcases List.mem_append.1 hpackage with h | h
        · exact absurd h (by simp [str_inj])
        · exact h
      have hrestOptions : Options .config rest := by
        rw [← hrest] at hoptions
        exact (hoptions.of_cons (by decide)).of_cons (by decide)
      have hgiven := @lastValues_isSome_iff .config rest [] (str "--package") (by decide)
        (List.mem_singleton_self _) (fun _ h => absurd h List.not_mem_nil) hrestOptions fun _ => none
      rw [filter_none] at hgiven
      change (lastValues [str "--package"] _ _ _).isSome ↔ _ at hgiven
      obtain ⟨package, hpackage⟩ :=
        Option.isSome_iff_exists.1 (hgiven.2 (.inl hmem))
      have hsecond : ([str "unset", str "prerelease"] ++ rest).getD 1 [] = str "prerelease" := rfl
      have hfirst : ([str "unset", str "prerelease"] ++ rest).headD [] = str "unset" := rfl
      have hdrop : ([str "unset", str "prerelease"] ++ rest).drop 2 = rest := rfl
      rw [dispatchConfig, hargs, ← hrest, hsecond, if_neg (not_not.2 rfl), hfirst, hdrop,
        if_neg hwords.2.1, if_neg fun h => hwords.2.2 h.1, if_pos rfl, hpackage]
      rfl

/-- What the checks leave of the operands of `repo`. -/
lemma repo_operands {arguments operands : List Bytes} (h : validateRepo arguments operands = true) :
    operands = [] ∨
      (∃ directory, operands = [str "index", directory] ∨ operands = [str "sign", directory] ∨
        operands = [str "verify", directory] ∨ operands = [str "init", directory]) ∨
      (∃ directory archive, operands = [str "add-package", directory, archive]) ∨
      (operands = [str "diagnose"] ∨ operands = [str "list"] ∨ operands = [str "update"]) ∨
      (∃ locator, operands = [str "add", locator] ∧
        ∀ option ∈ [str "--dry-run", str "--replace-signature", str "--json",
          str "--allow-unsigned", str "--links", str "--sign", str "--index-key"],
          option ∉ arguments) ∨
      ∃ locator, operands = [str "remove", locator] := by
  cases operands with
  | nil => exact .inl rfl
  | cons action operands =>
  have hone : ∀ {word : Bytes}, action = word → (action :: operands).length = 1 →
      action :: operands = [word] := by
    rintro word rfl hlen
    rw [List.eq_nil_of_length_eq_zero (Nat.succ.inj hlen)]
  have htwo : ∀ {word : Bytes}, action = word → (action :: operands).length = 2 →
      ∃ operand, action :: operands = [word, operand] := by
    rintro word rfl hlen
    obtain ⟨operand, rfl⟩ := List.length_eq_one_iff.1 (Nat.succ.inj hlen)
    exact ⟨operand, rfl⟩
  have hthree : ∀ {word : Bytes}, action = word → (action :: operands).length = 3 →
      ∃ operand operand', action :: operands = [word, operand, operand'] := by
    rintro word rfl hlen
    obtain ⟨operand, operand', rfl⟩ := List.length_eq_two.1 (Nat.succ.inj hlen)
    exact ⟨operand, operand', rfl⟩
  have hfalse : ¬false = true := Bool.false_ne_true
  obtain ⟨-, h⟩ | ⟨-, h⟩ := ite_eq_iff.1 h
  · exact absurd h hfalse
  obtain ⟨-, h⟩ | ⟨hsign, h⟩ := ite_eq_iff.1 h
  · exact absurd h hfalse
  obtain ⟨-, h⟩ | ⟨hkey, h⟩ := ite_eq_iff.1 h
  · exact absurd h hfalse
  obtain ⟨-, h⟩ | ⟨hjson, h⟩ := ite_eq_iff.1 h
  · exact absurd h hfalse
  obtain ⟨-, h⟩ | ⟨hunsigned, h⟩ := ite_eq_iff.1 h
  · exact absurd h hfalse
  obtain ⟨haction, h⟩ | ⟨-, h⟩ := ite_eq_iff.1 h
  · obtain ⟨directory, heq⟩ := htwo haction (of_decide_eq_true h).1
    exact .inr (.inl ⟨directory, .inl heq⟩)
  obtain ⟨haction, h⟩ | ⟨-, h⟩ := ite_eq_iff.1 h
  · obtain ⟨directory, heq⟩ := htwo haction (of_decide_eq_true h).1
    exact .inr (.inl ⟨directory, .inr (.inl heq)⟩)
  obtain ⟨haction, h⟩ | ⟨-, h⟩ := ite_eq_iff.1 h
  · obtain ⟨directory, archive, heq⟩ := hthree haction (of_decide_eq_true h).1
    exact .inr (.inr (.inl ⟨directory, archive, heq⟩))
  obtain ⟨haction, h⟩ | ⟨-, h⟩ := ite_eq_iff.1 h
  · obtain ⟨directory, heq⟩ := htwo haction (of_decide_eq_true h).1
    exact .inr (.inl ⟨directory, .inr (.inr (.inl heq))⟩)
  obtain ⟨-, h⟩ | ⟨hdry, h⟩ := ite_eq_iff.1 h
  · exact absurd h hfalse
  obtain ⟨haction, h⟩ | ⟨-, h⟩ := ite_eq_iff.1 h
  · obtain ⟨directory, heq⟩ := htwo haction (of_decide_eq_true h).1
    exact .inr (.inl ⟨directory, .inr (.inr (.inr heq))⟩)
  obtain ⟨-, h⟩ | ⟨hlinks, h⟩ := ite_eq_iff.1 h
  · exact absurd h hfalse
  obtain ⟨haction, h⟩ | ⟨-, h⟩ := ite_eq_iff.1 h
  · exact .inr (.inr (.inr (.inl (.inl (hone haction (of_decide_eq_true h).1)))))
  obtain ⟨⟨haction | haction, hcount⟩, -⟩ | ⟨-, h⟩ := ite_eq_iff.1 h
  · exact .inr (.inr (.inr (.inl (.inr (.inl (hone haction hcount))))))
  · exact .inr (.inr (.inr (.inl (.inr (.inr (hone haction hcount))))))
  obtain ⟨hcount, -⟩ | ⟨-, h⟩ := ite_eq_iff.1 h
  · exact absurd hcount (by simp)
  obtain ⟨haction, hcount⟩ | ⟨haction, hcount⟩ := of_decide_eq_true h
  · obtain ⟨locator, heq⟩ := htwo haction hcount
    refine .inr (.inr (.inr (.inr (.inl ⟨locator, heq, ?_⟩))))
    subst haction
    simp only [commandHasOption, decide_eq_true_eq] at hsign hkey hjson hunsigned hdry hlinks
    have hwords : str "add" ≠ str "sign" ∧ str "add" ≠ str "verify" ∧ str "add" ≠ str "diagnose" ∧
        str "add" ≠ str "add-package" ∧ str "add" ≠ str "index" ∧ str "add" ≠ str "init" := by
      simp [str_inj]
    obtain ⟨h₁, h₂, h₃, h₄, h₅, h₆⟩ := hwords
    simp only [List.forall_mem_cons]
    exact ⟨fun h => hdry ⟨h, h₆⟩, fun h => hsign ⟨.inr h, h₁⟩, fun h => hjson ⟨h, h₃⟩,
      fun h => hunsigned ⟨h, h₂, h₄, h₁, h₅⟩, fun h => hlinks ⟨h, h₃⟩, fun h => hsign ⟨.inl h, h₁⟩,
      fun h => hkey ⟨h, h₂, h₁⟩, List.forall_mem_nil _⟩
  · obtain ⟨locator, heq⟩ := htwo haction hcount
    exact .inr (.inr (.inr (.inr (.inr ⟨locator, heq⟩))))

/-- The options of `repo add` that its loop meets are the priority and `--allow-insecure-http`, unless
`--offline` is there. -/
lemma addOptions_isSome {arguments : List Bytes} (h : Options .repo arguments)
    (hoperands : collectCommandOperands .repo arguments = [])
    (hrefused : ∀ option ∈ [str "--dry-run", str "--replace-signature", str "--json",
      str "--allow-unsigned", str "--links", str "--sign", str "--index-key"], option ∉ arguments)
    (hverbose : str "--verbose" ∉ arguments) {priority : Option Bytes} {insecure : Bool} :
    (addOptions priority insecure arguments).isSome ↔ str "--offline" ∉ arguments := by
  have hwords : str "--offline" ≠ str "--priority" ∧ str "--offline" ≠ str "--allow-insecure-http" ∧
      str "--allow-insecure-http" ≠ str "--priority" := by simp [str_inj]
  induction h generalizing priority insecure with
  | nil => exact iff_of_true rfl List.not_mem_nil
  | operand hd hs ih => exact absurd hoperands (by simp [collect_operand hd])
  | @flag option arguments hd hflag hvalue hs ih =>
    rw [collect_flag hd hflag hvalue] at hoperands
    have hmem : option = str "--allow-insecure-http" ∨ option = str "--offline" := by
      rcases hflag with rfl | hflag
      · exact absurd List.mem_cons_self hverbose
      · have hnot := fun hmem => hrefused option hmem List.mem_cons_self
        simp only [flagOptions, List.mem_cons, List.not_mem_nil, or_false] at hflag hnot
        tauto
    obtain rfl | rfl := hmem
    · rw [addOptions.eq_def]
      simp only [if_neg hwords.2.2, if_true]
      refine (ih hoperands (fun option hmem h => hrefused option hmem (List.mem_cons_of_mem _ h))
        fun h => hverbose (List.mem_cons_of_mem _ h)).trans ?_
      rw [List.mem_cons, not_or]
      exact (and_iff_right hwords.2.1).symm
    · rw [addOptions.eq_def]
      simp only [if_neg hwords.1, if_neg hwords.2.1]
      exact iff_of_false (by simp) (fun h => h List.mem_cons_self)
  | @value option value arguments hd hvalue hvalid hs ih =>
    rw [collect_value hd hvalue] at hoperands
    obtain rfl : option = str "--priority" := by
      have hnot := fun hmem => hrefused option hmem List.mem_cons_self
      simp only [valueOptions, List.mem_cons, List.not_mem_nil, or_false] at hvalue hnot
      tauto
    have hne : str "--offline" ≠ value := by
      rintro rfl
      exact absurd hvalid (by decide)
    rw [addOptions]
    simp only [if_true]
    refine (ih hoperands (fun option hmem h => hrefused option hmem
      (List.mem_cons_of_mem _ (List.mem_cons_of_mem _ h)))
      fun h => hverbose (List.mem_cons_of_mem _ (List.mem_cons_of_mem _ h))).trans ?_
    rw [List.mem_cons, List.mem_cons, not_or, not_or]
    exact ((and_iff_right hwords.1).trans (and_iff_right hne)).symm

/-- The last two branches of `repo`. -/
lemma dispatchRepo_last {action : Bytes} {rest : List Bytes} (hargs : i.arguments = action :: rest)
    (hoperands : (collectCommandOperands .repo i.arguments).headD action ∉
      [str "verify", str "diagnose", str "init", str "add-package"])
    (hwords : action ∉ [str "list", str "init", str "add-package", str "index", str "sign",
      str "verify", str "diagnose", str "add"]) :
    dispatchRepo i =
      if action = str "remove" ∧ i.arguments.length = 2 then
        some (.repoRemove (i.arguments.getD 1 []))
      else if action = str "update" ∧ (i.arguments.length = 1 ∨
          (i.arguments.length = 2 ∧ i.arguments.getD 1 [] = str "--offline")) then
        some (.repoUpdate i.offline)
      else none := by
  simp only [List.mem_cons, List.not_mem_nil, or_false, not_or] at hwords
  obtain ⟨hlist, hinit, haddPackage, hindex, hsign, hverify, hdiagnose, hadd⟩ := hwords
  simp only [dispatchRepo, hargs, List.headD_cons] at hoperands ⊢
  rw [if_neg hoperands, if_neg fun h => hlist h.1, if_neg hinit, if_neg haddPackage, if_neg hindex,
    if_neg hsign, if_neg hverify, if_neg hdiagnose, if_neg hadd]

/-- Nothing is called where an option stands in the place of the action. -/
lemma dispatchRepo_option {option : Bytes} {rest : List Bytes} (hargs : i.arguments = option :: rest)
    (hoption : cur option = ch '-')
    (hoperands : (collectCommandOperands .repo i.arguments).headD option ∉
      [str "verify", str "diagnose", str "init", str "add-package"]) : dispatchRepo i = none := by
  have hne : ∀ word ∈ [str "list", str "init", str "add-package", str "index", str "sign",
      str "verify", str "diagnose", str "add", str "remove", str "update"], option ≠ word := by
    have hcur : ∀ word ∈ [str "list", str "init", str "add-package", str "index", str "sign",
        str "verify", str "diagnose", str "add", str "remove", str "update"],
        cur word ≠ ch '-' := by decide
    rintro word hmem rfl
    exact hcur option hmem hoption
  rw [dispatchRepo_last hargs hoperands fun hmem => hne option
      (List.mem_append_left [str "remove", str "update"] hmem) rfl,
    if_neg fun h => hne _ (by simp) h.1, if_neg fun h => hne _ (by simp) h.1]

/-- The first argument is the first operand or an option. -/
lemma Options.head {command : Command} {arguments : List Bytes} (h : Options command arguments)
    (hne : collectCommandOperands command arguments ≠ []) :
    (∃ operand rest, arguments = operand :: rest ∧ cur operand ≠ ch '-' ∧
      collectCommandOperands command arguments = operand :: collectCommandOperands command rest) ∨
    ∃ option rest, arguments = option :: rest ∧ cur option = ch '-' := by
  cases h with
  | nil => exact absurd rfl hne
  | @operand argument arguments hd hs =>
    exact .inl ⟨argument, arguments, rfl, hd, collect_operand hd⟩
  | @flag option arguments hd hflag hvalue hs => exact .inr ⟨option, arguments, rfl, hd⟩
  | @value option value arguments hd hvalue hvalid hs => exact .inr ⟨option, _, rfl, hd⟩

/-- Where the action of `repo` is looked for right behind the command, it stands there, or nothing is
called. -/
lemma action_of_dispatchRepo {action : Bytes} {operands : List Bytes}
    (hoptions : Options .repo i.arguments)
    (hops : collectCommandOperands .repo i.arguments = action :: operands)
    (hword : action ∉ [str "verify", str "diagnose", str "init", str "add-package"]) :
    (∃ rest, i.arguments = action :: rest ∧ Options .repo rest ∧
      collectCommandOperands .repo rest = operands) ∨
    (dispatchRepo i = none ∧ ∀ rest, i.arguments ≠ action :: rest) := by
  have hdash : cur action ≠ ch '-' := hoptions.cur_ne action (by simp [hops])
  obtain ⟨operand, rest, hargs, hoperand, hcollect⟩ | ⟨option, rest, hargs, hoption⟩ :=
    hoptions.head (by simp [hops])
  · obtain ⟨rfl, rfl⟩ := List.cons.inj (hcollect.symm.trans hops)
    exact .inl ⟨rest, hargs, (hargs ▸ hoptions).of_cons hoperand, rfl⟩
  · refine .inr ⟨dispatchRepo_option hargs hoption (by rwa [hops]), fun rest' h => ?_⟩
    obtain ⟨rfl, -⟩ := List.cons.inj (hargs.symm.trans h)
    exact hdash hoption

lemma alone_iff {action : Bytes} {rest : List Bytes} :
    (action :: rest).length = 1 ∨
        (action :: rest).length = 2 ∧ (action :: rest).getD 1 [] = str "--offline" ↔
      action :: rest = [action] ∨ action :: rest = [action, str "--offline"] := by
  cases rest with
  | nil => exact iff_of_true (.inl rfl) (.inl rfl)
  | cons option rest =>
    cases rest with
    | nil => simp
    | cons a rest => simp

/-- **`repo`** looks for most of its actions, and for their operands, right behind the command. -/
lemma agrees_repo_iff (hi : Reached i) (hc : i.command = .repo) :
    Agrees i ↔ PlacedRepo (collectCommandOperands .repo i.checked) i.checked := by
  have hargs := hi.arguments_eq (by rw [hc]; rfl)
  have hoptions : Options .repo i.checked := hc ▸ options_of_valid hi.options
  have hverbose := hi.verbose
  have hactions := hi.actions
  rw [hc, validateCommandActions] at hactions
  rw [Agrees, dispatch, hc]
  simp only [checkedAction, ← hargs] at *
  have hnone : ∀ call, dispatchRepo i = none →
      ¬((dispatchRepo i).map fun call => [call]).map (List.map Call.subject) = some [call] := by
    intro call h
    rw [h]
    exact fun h => absurd h (by simp)
  have hsome : ∀ call, (dispatchRepo i).map Call.subject = some call →
      ((dispatchRepo i).map fun call => [call]).map (List.map Call.subject) = some [call] := by
    intro call h
    obtain ⟨c, hc, rfl⟩ := Option.map_eq_some_iff.1 h
    rw [hc]
    rfl
  obtain hops | ⟨directory, hops | hops | hops | hops⟩ | ⟨directory, archive, hops⟩ |
    (hops | hops | hops) | ⟨locator, hops, hrefused⟩ | ⟨locator, hops⟩ := repo_operands hactions
  · refine iff_of_false (hnone _ ?_) (by rw [hops]; exact id)
    cases hfirst : i.arguments with
    | nil =>
      simp only [dispatchRepo, hfirst]
      rfl
    | cons option rest =>
      have hoption : cur option = ch '-' := by
        by_contra hdash
        rw [hfirst, collect_operand hdash] at hops
        exact absurd hops (by simp)
      refine dispatchRepo_option hfirst hoption ?_
      rw [hops, List.headD_nil]
      intro hmem
      simp only [List.mem_cons, List.not_mem_nil, or_false] at hmem
      rcases hmem with rfl | rfl | rfl | rfl <;> exact absurd hoption (by decide)
  -- `index` and `sign`
  · obtain ⟨rest, hfirst, -, -⟩ | ⟨hcall, hfirst⟩ :=
      action_of_dispatchRepo hoptions hops (by simp [str_inj])
    · rw [hfirst] at hops ⊢
      refine iff_of_true (hsome _ ?_) (by rw [hops]; exact rfl)
      simp only [dispatchRepo, hfirst, hops]
      rfl
    · refine iff_of_false (hnone _ hcall) fun h => ?_
      rw [hops] at h
      obtain ⟨rest, hrest⟩ := List.head?_eq_some_iff.1 (show i.arguments.head? = _ from h)
      exact hfirst rest hrest
  · obtain ⟨rest, hfirst, -, -⟩ | ⟨hcall, hfirst⟩ :=
      action_of_dispatchRepo hoptions hops (by simp [str_inj])
    · rw [hfirst] at hops ⊢
      refine iff_of_true (hsome _ ?_) (by rw [hops]; exact rfl)
      simp only [dispatchRepo, hfirst, hops]
      rfl
    · refine iff_of_false (hnone _ hcall) fun h => ?_
      rw [hops] at h
      obtain ⟨rest, hrest⟩ := List.head?_eq_some_iff.1 (show i.arguments.head? = _ from h)
      exact hfirst rest hrest
  -- the actions that are looked for among the operands
  · refine iff_of_true (hsome _ ?_) (by rw [hops]; trivial)
    simp only [dispatchRepo, hops]
    rfl
  · refine iff_of_true (hsome _ ?_) (by rw [hops]; trivial)
    simp only [dispatchRepo, hops]
    rfl
  · refine iff_of_true (hsome _ ?_) (by rw [hops]; trivial)
    simp only [dispatchRepo, hops]
    rfl
  · refine iff_of_true (hsome _ ?_) (by rw [hops]; trivial)
    simp only [dispatchRepo, hops]
    rfl
  -- `list` and `update`
  · have hplaced : PlacedRepo [str "list"] i.arguments ↔
      i.arguments = [str "list"] ∨ i.arguments = [str "list", str "--offline"] := Iff.rfl
    rw [hops, hplaced]
    obtain ⟨rest, hfirst, -, -⟩ | ⟨hcall, hfirst⟩ :=
      action_of_dispatchRepo hoptions hops (by simp [str_inj])
    · rw [hfirst] at hops ⊢
      rw [← alone_iff]
      by_cases halone : (str "list" :: rest).length = 1 ∨
          (str "list" :: rest).length = 2 ∧ (str "list" :: rest).getD 1 [] = str "--offline"
      · refine iff_of_true (hsome _ ?_) halone
        simp only [dispatchRepo, hfirst, hops]
        exact congrArg _ (if_pos ⟨rfl, halone⟩)
      · refine iff_of_false (hnone _ ?_) halone
        simp only [dispatchRepo, hfirst, hops]
        exact (if_neg fun h => halone h.2).trans rfl
    · exact iff_of_false (hnone _ hcall) fun h => h.elim (hfirst _) (hfirst _)
  · have hplaced : PlacedRepo [str "update"] i.arguments ↔
      i.arguments = [str "update"] ∨ i.arguments = [str "update", str "--offline"] := Iff.rfl
    rw [hops, hplaced]
    obtain ⟨rest, hfirst, -, -⟩ | ⟨hcall, hfirst⟩ :=
      action_of_dispatchRepo hoptions hops (by simp [str_inj])
    · rw [hfirst] at hops ⊢
      rw [← alone_iff]
      have hremove : str "update" ≠ str "remove" := by simp [str_inj]
      have hcall : dispatchRepo i = if str "update" = str "update" ∧
          ((str "update" :: rest).length = 1 ∨ (str "update" :: rest).length = 2 ∧
            (str "update" :: rest).getD 1 [] = str "--offline")
          then some (.repoUpdate i.offline) else none := by
        rw [dispatchRepo_last hfirst (by rw [hfirst, hops]; simp [str_inj]) (by simp [str_inj]),
          if_neg fun h => hremove h.1, hfirst]
      by_cases halone : (str "update" :: rest).length = 1 ∨
          (str "update" :: rest).length = 2 ∧ (str "update" :: rest).getD 1 [] = str "--offline"
      · refine iff_of_true (hsome _ ?_) halone
        rw [hcall, if_pos ⟨rfl, halone⟩]
        rfl
      · exact iff_of_false (hnone _ (hcall.trans (if_neg fun h => halone h.2))) halone
    · exact iff_of_false (hnone _ hcall) fun h => h.elim (hfirst _) (hfirst _)
  -- `add`
  · have hplaced : PlacedRepo [str "add", locator] i.arguments ↔
      [str "add", locator] <+: i.arguments ∧ str "--offline" ∉ i.arguments := Iff.rfl
    rw [hops, hplaced]
    obtain ⟨rest, hfirst, hrest, hlocator⟩ | ⟨hcall, hfirst⟩ :=
      action_of_dispatchRepo hoptions hops (by simp [str_inj])
    · rw [hfirst] at hops hrefused hverbose ⊢
      cases rest with
      | nil => exact absurd hlocator (by simp [collectCommandOperands])
      | cons value rest =>
        have hcall : dispatchRepo i = (addOptions none false rest).map
            fun r => Call.repoAdd value r.1 r.2 := by
          have hlen : ¬(str "add" :: value :: rest).length < 2 := by simp
          simp only [dispatchRepo, hfirst, hops]
          exact (if_neg hlen : ite _ none _ = _)
        by_cases hdash : cur value = ch '-'
        · -- the locator is looked for where an option stands
          refine iff_of_false ?_ fun h => ?_
          · rw [hcall]
            intro h
            obtain ⟨calls, hcalls, hsubject⟩ := Option.map_eq_some_iff.1 h
            obtain ⟨call, hr, rfl⟩ := Option.map_eq_some_iff.1 hcalls
            obtain ⟨r, -, rfl⟩ := Option.map_eq_some_iff.1 hr
            have hvalue : value = locator := by simpa [Call.subject] using hsubject
            exact hoptions.cur_ne locator (by rw [hfirst, hops]; simp) (hvalue ▸ hdash)
          · obtain ⟨⟨rest', hrest'⟩, -⟩ := h
            obtain rfl : locator = value := (List.cons.inj (List.cons.inj hrest').2).1
            exact hoptions.cur_ne locator (by rw [hfirst, hops]; simp) hdash
        · rw [collect_operand hdash] at hlocator
          obtain ⟨rfl, hnil⟩ := List.cons.inj hlocator
          have hiff := @addOptions_isSome rest (hrest.of_cons hdash) hnil
            (fun option hmem h => hrefused option hmem (by simp [h]))
            (fun h => hverbose (by simp [h])) none false
          have hwords : str "--offline" ≠ str "add" := by simp [str_inj]
          have hoffline : str "--offline" ≠ value := by
            rintro rfl
            exact hdash (by decide)
          rw [List.mem_cons, List.mem_cons, not_or, not_or, and_iff_right hwords,
            and_iff_right hoffline, ← hiff, and_iff_right ⟨rest, rfl⟩, hcall]
          cases addOptions none false rest with
          | none => exact iff_of_false (fun h => absurd h (by simp)) (by simp)
          | some r => exact iff_of_true rfl rfl
    · refine iff_of_false (hnone _ hcall) fun h => ?_
      obtain ⟨⟨rest, hrest⟩, -⟩ := h
      exact hfirst _ hrest.symm
  -- `remove`
  · have hplaced : PlacedRepo [str "remove", locator] i.arguments ↔
      i.arguments = [str "remove", locator] := Iff.rfl
    rw [hops, hplaced]
    obtain ⟨rest, hfirst, hrest, hlocator⟩ | ⟨hcall, hfirst⟩ :=
      action_of_dispatchRepo hoptions hops (by simp [str_inj])
    · rw [hfirst] at hops ⊢
      have hupdate : str "remove" ≠ str "update" := by simp [str_inj]
      have hword : str "remove" ∉ [str "verify", str "diagnose", str "init", str "add-package"] := by
        simp [str_inj]
      have hcall : dispatchRepo i =
          if str "remove" = str "remove" ∧ (str "remove" :: rest).length = 2
          then some (.repoRemove ((str "remove" :: rest).getD 1 [])) else none := by
        rw [dispatchRepo_last hfirst (by rw [hfirst, hops]; exact hword) (by simp [str_inj]),
          if_neg (fun h => hupdate h.1 : ¬(str "remove" = str "update" ∧ _)), hfirst]
      by_cases hlen : (str "remove" :: rest).length = 2
      · obtain ⟨value, rfl⟩ := List.length_eq_one_iff.1 (Nat.succ.inj hlen)
        have hsub := collect_sublist .repo [value]
        rw [hlocator] at hsub
        obtain rfl : locator = value := by simpa using hsub
        refine iff_of_true (hsome _ ?_) rfl
        rw [hcall, if_pos ⟨rfl, hlen⟩]
        rfl
      · exact iff_of_false (hnone _ (hcall.trans (if_neg fun h => hlen h.2)))
          fun h => hlen (by rw [h]; rfl)
    · exact iff_of_false (hnone _ hcall) (hfirst _)

/-! ### All commands -/

/-- **The dispatcher comes to the action and the operands that have been checked** exactly when they
stand where it looks for them. -/
theorem dispatch_agrees_iff {args : List Bytes} (h : reachDispatcher args = some i) :
    Agrees i ↔ Placed i := by
  have hi := reached_of_reachDispatcher h
  unfold Placed
  cases hc : i.command with
  | init => exact agrees_init_iff hi hc
  | build => exact iff_of_true (agrees_build hi hc) trivial
  | verify => exact iff_of_true (agrees_verify hi hc) trivial
  | install => exact agrees_install_iff hi hc
  | remove => exact agrees_remove_iff hi hc
  | repo => exact agrees_repo_iff hi hc
  | keygen => exact agrees_keygen_iff hi hc
  | key => exact agrees_key_iff hi hc
  | trust => exact iff_of_true (agrees_trust hi hc) trivial
  | config => exact agrees_config_iff hi hc
  | recovery => exact iff_of_true (agrees_recovery hi hc) trivial
  | list => exact iff_of_true (agrees_list hi hc) trivial
  | «show» => exact iff_of_true (agrees_show hi hc) trivial
  | update => exact iff_of_true (agrees_update hi hc) trivial
  | upgrade => exact agrees_upgrade_iff hi hc

/-- `wpm remove tool --yes` -/
def removeTool : Invocation where
  before := []
  command := .remove
  word := str "remove"
  checked := [str "tool", str "--yes"]
  arguments := [str "tool"]
  offline := false
  dryRun := false
  planYes := true

theorem dispatch_agrees_removeTool : Agrees removeTool ↔ Placed removeTool :=
  @dispatch_agrees_iff removeTool [str "remove", str "tool", str "--yes"] (by decide)

/-- With a global option before the command, `wpm --offline remove tool` also removes a package that
is called `remove`, and this first. -/
theorem offline_remove_disagrees :
    ∃ i, reachDispatcher [str "--offline", str "remove", str "tool"] = some i ∧
      collectCommandOperands i.command i.checked = [str "tool"] ∧
      dispatch i = some [.remove (str "remove"), .remove (str "tool")] ∧ ¬Agrees i := by
  refine ⟨{ removeTool with
    before := [str "--offline"], checked := [str "tool"], offline := true, planYes := false },
    by decide, by decide, by decide, fun h => ?_⟩
  exact absurd (congrArg (Option.map List.length) h) (by decide)

end Wpm.CommandLine
