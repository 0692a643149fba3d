import Wpm.Repository.Semver

/-!
The options and operands of a command, and the checks of its arguments.

`arguments` are the elements of `argv` after the command. The checks step over the options that the
command knows and over their values; what they have accepted is a list of tokens.
-/

namespace Wpm.CommandLine

open Wpm.Lib.CString

/-- `Command`, without the values that no argument stands for. -/
inductive Command
  | init | build | verify | install | remove | repo | keygen | key | trust | config | recovery
  | list | show | update | upgrade
  deriving DecidableEq

/-- `parse_command`. -/
def parseCommand (cmd : Bytes) : Option Command :=
  if cmd = str "show" then some .show
  else if cmd = str "list" then some .list
  else if cmd = str "recovery" then some .recovery
  else if cmd = str "init" then some .init
  else if cmd = str "build" then some .build
  else if cmd = str "verify" then some .verify
  else if cmd = str "install" then some .install
  else if cmd = str "remove" then some .remove
  else if cmd = str "repo" then some .repo
  else if cmd = str "keygen" then some .keygen
  else if cmd = str "key" then some .key
  else if cmd = str "trust" then some .trust
  else if cmd = str "config" then some .config
  else if cmd = str "update" then some .update
  else if cmd = str "upgrade" then some .upgrade
  else none

/-! ### The options -/

/-- The options with a value. -/
def valueOptions : Command → List Bytes
  | .build => [str "--sign"]
  | .install | .upgrade => [str "--arch", str "--version"]
  | .list | .show => [str "--arch", str "--version", str "--repo"]
  | .repo => [str "--priority", str "--sign", str "--index-key"]
  | .recovery => [str "--limit", str "--name", str "--arch", str "--archive"]
  | .config => [str "--package"]
  | _ => []

/-- The options without a value that only some commands know. -/
def flagOptions : Command → List Bytes
  | .build => [str "--no-index"]
  | .verify => [str "--read-only", str "--allow-unsigned"]
  | .install => [str "--yes", str "-y", str "--dry-run", str "--confirm", str "--allow-unsigned",
      str "--offline"]
  | .remove => [str "--yes", str "-y", str "--dry-run", str "--confirm"]
  | .repo => [str "--dry-run", str "--replace-signature", str "--json", str "--allow-unsigned",
      str "--links", str "--allow-insecure-http", str "--offline"]
  | .keygen => [str "--default"]
  | .key => [str "--clear"]
  | .update => [str "--offline"]
  | .recovery => [str "--offline", str "--json", str "--allow-unsigned"]
  | .list => [str "--offline", str "--json", str "--available"]
  | .show => [str "--offline", str "--json"]
  | .upgrade => [str "--yes", str "-y", str "--dry-run", str "--confirm", str "--all",
      str "--allow-unsigned", str "--offline"]
  | _ => []

/-- `command_option_takes_value`. -/
def commandOptionTakesValue (command : Command) (option : Bytes) : Bool :=
  option ∈ valueOptions command

/-- `command_option_is_known`. -/
def commandOptionIsKnown (command : Command) (option : Bytes) : Bool :=
  option = str "--verbose" || commandOptionTakesValue command option ||
    decide (option ∈ flagOptions command)

/-- The architectures that `--arch` takes, in any case. -/
def architectures : List Bytes := [str "any", str "x86", str "x64", str "arm64"]

/-- What `validate_command_options` asks of the value of an option: only a priority may be
negative. -/
def optionValueValid (command : Command) (option value : Bytes) : Bool :=
  let negativePriority := command = .repo ∧ option = str "--priority" ∧ cur value = ch '-' ∧
    isDigit (cur value.tail)
  decide (cur value ≠ ch '-' ∨ negativePriority) &&
    (decide (option ≠ str "--arch") || decide (fold value ∈ architectures)) &&
    (decide (option ≠ str "--version") || (Repository.semverParse value).isSome)

/-- `validate_command_options`. -/
def validateCommandOptions (command : Command) : List Bytes → Bool
  | [] => true
  | option :: arguments =>
    if cur option ≠ ch '-' then validateCommandOptions command arguments
    else if commandOptionIsKnown command option = false then false
    else if commandOptionTakesValue command option then
      match arguments with
      | [] => false
      | value :: arguments =>
        optionValueValid command option value && validateCommandOptions command arguments
    else validateCommandOptions command arguments

/-! ### The operands -/

/-- `collect_command_operands`, all of them. -/
def collectCommandOperands (command : Command) : List Bytes → List Bytes
  | [] => []
  | argument :: arguments =>
    if cur argument = ch '-' ∧ commandOptionIsKnown command argument then
      if commandOptionTakesValue command argument then
        match arguments with
        | [] => []
        | _ :: arguments => collectCommandOperands command arguments
      else collectCommandOperands command arguments
    else argument :: collectCommandOperands command arguments

/-- `validate_command_operands`: how many there may be. -/
def validateCommandOperands (command : Command) (arguments : List Bytes) : Bool :=
  let operands := (collectCommandOperands command arguments).length
  match command with
  | .list | .init => operands ≤ 1
  | .show => operands = 1
  | .build => 1 ≤ operands ∧ operands ≤ 2
  | .verify | .install | .remove => 1 ≤ operands
  | .keygen => operands = 2
  | .update => operands = 0
  | _ => true

/-! ### The actions -/

/-- `command_has_option`. -/
def commandHasOption (arguments : List Bytes) (wanted : Bytes) : Bool := decide (wanted ∈ arguments)

/-- The digits of an option with a bound: no value above `maximum` on the way. -/
def boundedDigits (maximum : ℕ) : ℕ → Bytes → Option ℕ
  | value, [] => some value
  | value, c :: p =>
    if isDigit c = false ∨ (maximum - (c - ch '0').toNat) / 10 < value then none
    else boundedDigits maximum (value * 10 + (c - ch '0').toNat) p

/-- `command_bounded_option`, with the result so far and whether the option has been there. -/
def commandBoundedOption (option : Bytes) (maximum : ℕ) : ℕ → Bool → List Bytes → Option ℕ
  | result, _, [] => some result
  | result, seen, argument :: arguments =>
    if argument ≠ option then commandBoundedOption option maximum result seen arguments
    else match arguments with
      | [] => none
      | value :: arguments =>
        if seen ∨ value = [] then none
        else match boundedDigits maximum 0 value with
          | none => none
          | some value =>
            if value = 0 then none else commandBoundedOption option maximum value true arguments

/-- The loop of `validate_command_actions` over the filters of `recovery`: each may be there once. -/
def recoveryFilters : Option Bytes → Option Bytes → List Bytes → Option (Option Bytes × Option Bytes)
  | name, arch, [] => some (name, arch)
  | name, arch, argument :: arguments =>
    if argument = str "--name" then
      match name, arguments with
      | none, value :: arguments => recoveryFilters (some value) arch arguments
      | _, _ => none
    else if argument = str "--arch" then
      match arch, arguments with
      | none, value :: arguments => recoveryFilters name (some value) arguments
      | _, _ => none
    else recoveryFilters name arch arguments

/-- `wpm_recovery_filters_valid`. -/
def recoveryFiltersValid (name arch : Option Bytes) : Bool :=
  (name.all fun name => decide (name ≠ [] ∧ name.length < 128) &&
    name.all fun c => decide (32 ≤ c ∧ c ≠ 127)) &&
  arch.all fun arch => decide (fold arch ∈ architectures)

/-- `wpm_recovery_id_valid`. -/
def recoveryIdValid (id : Bytes) : Bool :=
  decide (id.length = 32) && id.all fun c => isDigit c || decide (ch 'a' ≤ c ∧ c ≤ ch 'f')

/-- The checks of `recovery`. -/
def validateRecovery (arguments operands : List Bytes) : Bool :=
  match commandBoundedOption (str "--limit") 4096 128 false arguments,
      recoveryFilters none none arguments with
  | some _, some (name, arch) =>
    if recoveryFiltersValid name arch = false ∨ 1 < arguments.count (str "--archive") then false
    else if operands.length = 2 ∧ operands.head? = some (str "inspect") ∧
        recoveryIdValid (operands.getD 1 []) then true
    else if str "--archive" ∈ arguments ∨ commandHasOption arguments (str "--allow-unsigned") then
      false
    else operands = [str "records"] ∨ operands = [] ∨ operands = [str "list"]
  | _, _ => false

/-- The options that an action of `repo` with a directory does not take. -/
def hasClientOptions (arguments : List Bytes) : Bool :=
  commandHasOption arguments (str "--priority") || commandHasOption arguments (str "--links") ||
    commandHasOption arguments (str "--offline") ||
    commandHasOption arguments (str "--allow-insecure-http")

/-- The checks of `repo`. -/
def validateRepo (arguments operands : List Bytes) : Bool :=
  let action := operands.headD (str "list")
  let count := operands.length
  let has := commandHasOption arguments
  if 1 < arguments.count (str "--sign") ∨ 1 < arguments.count (str "--index-key") then false
  else if (has (str "--sign") ∨ has (str "--replace-signature")) ∧ action ≠ str "sign" then false
  else if has (str "--index-key") ∧ action ≠ str "verify" ∧ action ≠ str "sign" then false
  else if has (str "--json") ∧ action ≠ str "diagnose" then false
  else if has (str "--allow-unsigned") ∧ action ≠ str "verify" ∧ action ≠ str "add-package" ∧
      action ≠ str "sign" ∧ action ≠ str "index" then false
  else if action = str "index" then count = 2 ∧ hasClientOptions arguments = false
  else if action = str "sign" then
    count = 2 ∧ has (str "--sign") ∧ has (str "--index-key") ∧ hasClientOptions arguments = false
  else if action = str "add-package" then count = 3 ∧ hasClientOptions arguments = false
  else if action = str "verify" then
    count = 2 ∧ hasClientOptions arguments = false ∧ has (str "--dry-run") = false
  else if has (str "--dry-run") ∧ action ≠ str "init" then false
  else if action = str "init" then count = 2 ∧ hasClientOptions arguments = false
  else if has (str "--links") ∧ action ≠ str "diagnose" then false
  else if action = str "diagnose" then
    count = 1 ∧ has (str "--priority") = false ∧ has (str "--allow-insecure-http") = false
  else if (action = str "list" ∨ action = str "update") ∧ count = 1 then true
  else if count = 0 then true
  else (action = str "add" ∧ count = 2) ∨ (action = str "remove" ∧ count = 2)

/-- `validate_command_actions`. -/
def validateCommandActions (command : Command) (arguments : List Bytes) : Bool :=
  let operands := collectCommandOperands command arguments
  let has := commandHasOption arguments
  let action := operands.headD (str "list")
  let count := operands.length
  match command with
  | .verify => (has (str "--allow-unsigned") && !has (str "--read-only")) = false
  | .list =>
    match commandBoundedOption (str "--repo") 32 0 false arguments with
    | none => false
    | some ordinal => ordinal = 0 || has (str "--available")
  | .show => (commandBoundedOption (str "--repo") 32 0 false arguments).isSome
  | .recovery => validateRecovery arguments operands
  | .repo => validateRepo arguments operands
  | .key => (count = 1 ∧ action = str "default" ∧ has (str "--clear")) ∨
      (count = 2 ∧ action = str "default" ∧ has (str "--clear") = false)
  | .trust => count = 0 ∨ (count = 1 ∧ action = str "list") ∨
      (count = 2 ∧ (action = str "add" ∨ action = str "revoke"))
  | .config => 2 ≤ count ∧ operands.getD 1 [] = str "prerelease" ∧
      ((action = str "get" ∧ count = 2) ∨
        (action = str "set" ∧ count = 3 ∧ (fold (operands.getD 2 []) = str "true" ∨
          fold (operands.getD 2 []) = str "false")) ∨
        (action = str "unset" ∧ count = 2 ∧ has (str "--package")))
  | _ => true

end Wpm.CommandLine
