import Wpm.CommandLine.Options

/-!
The way of an argument vector through `main`, up to the calls that its command makes.

`main` takes the global options out, finds the command, lets the three checks look at what follows
it, and dispatches. The branches of the dispatcher read `argv` in three ways: through
`collect_command_operands`, in loops from behind the command, and at fixed places.
-/

namespace Wpm.CommandLine

open Wpm.Lib.CString

/-! ### Up to the dispatcher -/

/-- `wpm_set_color_policy` accepts the value. -/
def setColorPolicy (value : Bytes) : Bool := value ∈ [str "auto", str "always", str "never"]

/-- The loop that takes `--verbose` and `--color` out, with what it has kept so far: the arguments
without them, and whether `--verbose` was there. A wrong color ends the run. -/
def takeGlobals : List Bytes → List Bytes → Option (List Bytes × Bool)
  | kept, [] => some (kept, false)
  | kept, argument :: arguments =>
    if argument = str "--verbose" ∧
        (kept ++ argument :: arguments).head? ≠ some (str "--complete-self-upgrade") then
      (takeGlobals kept arguments).map fun r => (r.1, true)
    else if argument = str "--color" then
      match arguments with
      | [] => none
      | value :: arguments => if setColorPolicy value then takeGlobals kept arguments else none
    else if (str "--color=").isPrefixOf argument then
      if setColorPolicy (argument.drop 8) then takeGlobals kept arguments else none
    else if (str "--color").isPrefixOf argument then none
    else takeGlobals (kept ++ [argument]) arguments

/-- What may stand before the command. -/
def globalOptions : List Bytes :=
  [str "--verbose", str "--offline", str "--dry-run", str "--version", str "--help", str "-h",
    str "--diagnose"]

/-- The options of a planned command, which are taken out before it is dispatched. -/
def planOptions : List Bytes := [str "--yes", str "-y", str "--confirm", str "--dry-run"]

/-- The command is one that can be planned. -/
def Command.planned (command : Command) : Bool :=
  command = .install ∨ command = .remove ∨ command = .upgrade

/-- What the dispatcher starts from: the arguments before the command, the command as it was
written, and the arguments after it. -/
structure Invocation where
  before : List Bytes
  command : Command
  word : Bytes
  /-- The arguments that have been checked. -/
  checked : List Bytes
  /-- The arguments at the dispatcher, without the options of the plan. -/
  arguments : List Bytes
  offline : Bool
  dryRun : Bool
  /-- `plan_yes || plan_confirm`. -/
  planYes : Bool
  deriving DecidableEq

/-- `argv` after the name of the program. -/
def Invocation.argv (i : Invocation) : List Bytes := i.before ++ i.word :: i.arguments

/-- `repository_dry_run`. -/
def repositoryDryRun (command : Command) (arguments : List Bytes) : Bool :=
  command = .repo ∧ ∃ action ∈ (collectCommandOperands command arguments).head?,
    action ∈ [str "init", str "add-package", str "sign", str "index"]

/-- `main` from the command on: the checks, and the options of a plan. -/
def checkCommand (args : List Bytes) (dryRun verbose : Bool) (word : Bytes)
    (arguments : List Bytes) : Option Invocation :=
  match parseCommand word with
  | none => none
  | some command =>
    let planConfirm := command.planned && commandHasOption arguments (str "--confirm")
    let planYes := command.planned &&
      (commandHasOption arguments (str "--yes") || commandHasOption arguments (str "-y"))
    if dryRun ∧ command.planned = false ∧ repositoryDryRun command arguments = false then none
    else if validateCommandOptions command arguments = false then none
    else if validateCommandOperands command arguments = false then none
    else if validateCommandActions command arguments = false then none
    else if command ∈ [.repo, .recovery, .list, .show] ∧
        commandHasOption arguments (str "--json") ∧ verbose then none
    else if (dryRun ∧ (planYes ∨ planConfirm)) ∨ (planConfirm ∧ planYes) then none
    else some
      { before := args.takeWhile fun a => decide (a ∈ globalOptions)
        command, word
        checked := arguments
        arguments := if command.planned then arguments.filter (· ∉ planOptions) else arguments
        offline := str "--offline" ∈ args
        dryRun
        planYes := planYes || planConfirm }

/-- `main` up to the dispatcher, with the arguments after the name of the program: nothing if the run
ends before it. -/
def reachDispatcher (args : List Bytes) : Option Invocation :=
  -- `machine_query` takes over
  if args.any fun a => a = str "--output" ∨ (str "--output=").isPrefixOf a then none
  else match takeGlobals [] args with
    | none => none
    | some (kept, verbose) =>
      if kept.head? = some (str "--complete-self-upgrade") then none
      else match kept.dropWhile fun a => decide (a ∈ globalOptions) with
        | [] => none
        | word :: arguments =>
          -- help, diagnostics and the version end the run
          if str "--help" ∈ kept ∨ str "-h" ∈ kept ∨ word = str "help" ∨
              str "--diagnose" ∈ kept ∨
              str "--version" ∈ kept.takeWhile fun a => decide (a ∈ globalOptions) then none
          else checkCommand kept (str "--dry-run" ∈ args) verbose word arguments

/-! ### The calls -/

/-- What a branch of the dispatcher comes to. The numbers of `--priority`, `--repo` and `--limit` are
given as they were written. -/
inductive Call
  | build (source : Bytes) (output key : Option Bytes) (index : Bool)
  | verify (package : Bytes) (readOnly allowUnsigned : Bool)
  | installArchive (path : Bytes) (allowUnsigned : Bool)
  | installPackage (name : Bytes) (arch version : Option Bytes) (offline allowUnsigned : Bool)
  /-- A ZIP path is refused together with `--arch` or `--version`. -/
  | installRefused (path : Bytes)
  | remove (package : Bytes)
  | repoList
  | repoInit (directory : Bytes) (dryRun : Bool)
  | repoAddPackage (directory archive : Bytes) (allowUnsigned dryRun : Bool)
  | repoIndex (directory : Bytes) (allowUnsigned dryRun : Bool)
  | repoSign (directory : Bytes) (privateKey publicKey : Option Bytes)
    (replaceSignature allowUnsigned dryRun : Bool)
  | repoVerify (directory : Bytes) (allowUnsigned : Bool) (publicKey : Option Bytes)
  | repoDiagnose (links json : Bool)
  | repoAdd (locator : Bytes) (priority : Option Bytes) (allowInsecureHttp : Bool)
  | repoRemove (locator : Bytes)
  | repoUpdate (offline : Bool)
  | update (offline : Bool)
  | keyClear
  | keyDefault (path : Bytes)
  | trustAdd (path : Bytes)
  | trustList
  | trustRevoke (id : Bytes)
  | list (name arch version ordinal : Option Bytes) (available json : Bool)
  | show (name : Bytes) (arch version ordinal : Option Bytes) (json : Bool)
  | recoveryList (limit name arch : Option Bytes) (json : Bool)
  | recoveryRecords (limit id archive name arch : Option Bytes) (json allowUnsigned : Bool)
  | configGet (package : Option Bytes)
  | configSet (package : Option Bytes) (value : Bytes)
  | configUnset (package : Bytes)
  | keygen (privateKey publicKey : Bytes) (makeDefault : Bool)
  | upgrade (names : List Bytes) (all : Bool) (arch version : Option Bytes)
    (offline allowUnsigned assumeYes : Bool)
  /-- Packages are named or `--all` is given, and this without `--version`. -/
  | upgradeRefused (names : List Bytes)
  | init (name : Option Bytes)
  /-- A name that is too long or that no package may have. -/
  | initRefused (name : Bytes)
  deriving DecidableEq

/-- The command, its action and the operands of a call that performs one; a refusal performs none. -/
def Call.subject : Call → Option (Command × Bytes × List Bytes)
  | .build source output _ _ => some (.build, [], source :: output.toList)
  | .verify package _ _ => some (.verify, [], [package])
  | .installArchive path _ => some (.install, [], [path])
  | .installPackage name _ _ _ _ => some (.install, [], [name])
  | .installRefused _ => none
  | .remove package => some (.remove, [], [package])
  | .repoList => some (.repo, str "list", [])
  | .repoInit directory _ => some (.repo, str "init", [directory])
  | .repoAddPackage directory archive _ _ => some (.repo, str "add-package", [directory, archive])
  | .repoIndex directory _ _ => some (.repo, str "index", [directory])
  | .repoSign directory _ _ _ _ _ => some (.repo, str "sign", [directory])
  | .repoVerify directory _ _ => some (.repo, str "verify", [directory])
  | .repoDiagnose _ _ => some (.repo, str "diagnose", [])
  | .repoAdd locator _ _ => some (.repo, str "add", [locator])
  | .repoRemove locator => some (.repo, str "remove", [locator])
  | .repoUpdate _ => some (.repo, str "update", [])
  | .update _ => some (.update, [], [])
  | .keyClear => some (.key, str "default", [])
  | .keyDefault path => some (.key, str "default", [path])
  | .trustAdd path => some (.trust, str "add", [path])
  | .trustList => some (.trust, str "list", [])
  | .trustRevoke id => some (.trust, str "revoke", [id])
  | .list name _ _ _ _ _ => some (.list, [], name.toList)
  | .show name _ _ _ _ => some (.show, [], [name])
  | .recoveryList _ _ _ _ => some (.recovery, str "list", [])
  | .recoveryRecords _ none _ _ _ _ _ => some (.recovery, str "records", [])
  | .recoveryRecords _ (some id) _ _ _ _ _ => some (.recovery, str "inspect", [id])
  | .configGet _ => some (.config, str "get", [str "prerelease"])
  | .configSet _ value => some (.config, str "set", [str "prerelease", value])
  | .configUnset _ => some (.config, str "unset", [str "prerelease"])
  | .keygen privateKey publicKey _ => some (.keygen, [], [privateKey, publicKey])
  | .upgrade names _ _ _ _ _ _ => some (.upgrade, [], names)
  | .upgradeRefused _ => none
  | .init name => some (.init, [], name.toList)
  | .initRefused _ => none

/-! ### The loops of the dispatcher -/

/-- A loop that keeps the last values of some options. -/
def lastValues (options : List Bytes) :
    (Bytes → Option Bytes) → List Bytes → (Bytes → Option Bytes)
  | kept, [] => kept
  | kept, argument :: arguments =>
    if argument ∈ options then
      match arguments with
      | [] => kept
      | value :: arguments =>
        lastValues options (Function.update kept argument (some value)) arguments
    else lastValues options kept arguments

/-- A loop that steps over some flags, and over some options with their values (they have them, as
has been checked), and takes what is left as operands. -/
def loopOperands (flags options : List Bytes) : List Bytes → List Bytes
  | [] => []
  | argument :: arguments =>
    if argument ∈ flags then loopOperands flags options arguments
    else if argument ∈ options then
      match arguments with
      | [] => []
      | _ :: arguments => loopOperands flags options arguments
    else argument :: loopOperands flags options arguments

/-- The loop of `repo add` over its options: the priority and `--allow-insecure-http`. -/
def addOptions : Option Bytes → Bool → List Bytes → Option (Option Bytes × Bool)
  | priority, insecure, [] => some (priority, insecure)
  | priority, insecure, argument :: arguments =>
    if argument = str "--priority" then
      match arguments with
      | [] => none
      | value :: arguments => addOptions (some value) insecure arguments
    else if argument = str "--allow-insecure-http" then addOptions priority true arguments
    else none

/-- `strrchr(argument, '.')` is `.zip`, in any case. -/
def isZipPath (argument : Bytes) : Bool :=
  ch '.' ∈ argument ∧
    fold (argument.reverse.takeWhile (· ≠ ch '.')).reverse = str "zip"

/-- `wpm_package_name_is_valid`. -/
def packageNameIsValid (name : Bytes) : Bool :=
  decide (name ≠ [] ∧ name ≠ str "." ∧ name ≠ str "..") &&
    name.all fun c => isAlnum c || decide (c = ch '-' ∨ c = ch '_' ∨ c = ch '.')

/-! ### The dispatcher -/

/-- `CMD_INSTALL`. -/
def dispatchInstall (i : Invocation) : Option (List Call) :=
  let packages := loopOperands [str "--verbose", str "--offline", str "--allow-unsigned"]
    [str "--arch", str "--version"] i.arguments
  let selected := lastValues [str "--arch", str "--version"] (fun _ => none) i.arguments
  let allowUnsigned := commandHasOption i.arguments (str "--allow-unsigned")
  if packages = [] then none
  else some (packages.map fun package =>
    if isZipPath package then
      if (selected (str "--arch")).isSome ∨ (selected (str "--version")).isSome then
        .installRefused package
      else .installArchive package allowUnsigned
    else .installPackage package (selected (str "--arch")) (selected (str "--version")) i.offline
      allowUnsigned)

/-- `CMD_REPO`. -/
def dispatchRepo (i : Invocation) : Option Call :=
  let operands := collectCommandOperands .repo i.arguments
  let has := commandHasOption i.arguments
  let first := i.arguments.headD (str "list")
  let action := if operands.headD first ∈
      [str "verify", str "diagnose", str "init", str "add-package"] then operands.headD first
    else first
  let alone := i.arguments.length = 1 ∨
    (i.arguments.length = 2 ∧ i.arguments.getD 1 [] = str "--offline")
  if action = str "list" ∧ alone then some .repoList
  else if action = str "init" then some (.repoInit (operands.getD 1 []) i.dryRun)
  else if action = str "add-package" then
    some (.repoAddPackage (operands.getD 1 []) (operands.getD 2 []) (has (str "--allow-unsigned"))
      i.dryRun)
  else if action = str "index" then
    some (.repoIndex (operands.getD 1 []) (has (str "--allow-unsigned")) i.dryRun)
  else if action = str "sign" then
    let keys := lastValues [str "--sign", str "--index-key"] (fun _ => none) i.arguments
    some (.repoSign (operands.getD 1 []) (keys (str "--sign")) (keys (str "--index-key"))
      (has (str "--replace-signature")) (has (str "--allow-unsigned")) i.dryRun)
  else if action = str "verify" then
    some (.repoVerify (operands.getD 1 []) (has (str "--allow-unsigned"))
      (lastValues [str "--index-key"] (fun _ => none) i.arguments (str "--index-key")))
  else if action = str "diagnose" then
    some (.repoDiagnose (has (str "--links")) (has (str "--json")))
  else if action = str "add" then
    if i.arguments.length < 2 then none
    else (addOptions none false (i.arguments.drop 2)).map fun r =>
      .repoAdd (i.arguments.getD 1 []) r.1 r.2
  else if action = str "remove" ∧ i.arguments.length = 2 then
    some (.repoRemove (i.arguments.getD 1 []))
  else if action = str "update" ∧ alone then some (.repoUpdate i.offline)
  else none

/-- `CMD_KEY`. -/
def dispatchKey (i : Invocation) : Option Call :=
  if i.arguments.headD [] = str "default" ∧ 2 ≤ i.arguments.length then
    if i.arguments.getD 1 [] = str "--clear" then some .keyClear
    else some (.keyDefault (i.arguments.getD 1 []))
  else none

/-- `CMD_TRUST`. -/
def dispatchTrust (i : Invocation) : Option Call :=
  let action := i.arguments.headD (str "list")
  if action = str "add" ∧ 2 ≤ i.arguments.length then some (.trustAdd (i.arguments.getD 1 []))
  else if action = str "list" then some .trustList
  else if action = str "revoke" ∧ 2 ≤ i.arguments.length then
    some (.trustRevoke (i.arguments.getD 1 []))
  else none

/-- `CMD_CONFIG`. -/
def dispatchConfig (i : Invocation) : Option Call :=
  let action := i.arguments.headD []
  let package := lastValues [str "--package"] (fun _ => none) (i.arguments.drop 2) (str "--package")
  if i.arguments.getD 1 [] ≠ str "prerelease" then none
  else if action = str "get" then some (.configGet package)
  else if action = str "set" ∧ 3 ≤ i.arguments.length then
    let value := i.arguments.getD 2 []
    if fold value ≠ str "true" ∧ fold value ≠ str "false" then none
    else some (.configSet package value)
  else if action = str "unset" then package.map .configUnset
  else none

/-- `CMD_RECOVERY`. -/
def dispatchRecovery (i : Invocation) : Call :=
  let operands := collectCommandOperands .recovery i.arguments
  let values := lastValues [str "--limit", str "--name", str "--arch", str "--archive"]
    (fun _ => none) i.arguments
  let json := commandHasOption i.arguments (str "--json")
  if operands ≠ [] ∧ operands.headD [] ≠ str "list" then
    .recoveryRecords (values (str "--limit"))
      (if operands.length = 2 then some (operands.getD 1 []) else none) (values (str "--archive"))
      (values (str "--name")) (values (str "--arch")) json
      (commandHasOption i.arguments (str "--allow-unsigned"))
  else .recoveryList (values (str "--limit")) (values (str "--name")) (values (str "--arch")) json

/-- `CMD_UPGRADE`: there is room for 128 names. -/
def dispatchUpgrade (i : Invocation) : Call :=
  let has := commandHasOption i.arguments
  let names := (loopOperands [str "--all", str "-y", str "--yes", str "--allow-unsigned",
    str "--offline", str "--verbose"] [str "--arch", str "--version"] i.arguments).take 128
  let selected := lastValues [str "--arch", str "--version"] (fun _ => none) i.arguments
  let all := has (str "--all")
  if (all = false ∧ names = []) ∨ (all ∧ names ≠ []) ∨
      (all ∧ (selected (str "--version")).isSome) then .upgradeRefused names
  else .upgrade names all (selected (str "--arch")) (selected (str "--version")) i.offline
    (has (str "--allow-unsigned")) (i.planYes || has (str "-y") || has (str "--yes"))

/-- The dispatcher: the calls that it makes, each of them if those before it succeed, or nothing when
it shows how the command is used instead. -/
def dispatch (i : Invocation) : Option (List Call) :=
  let has := commandHasOption i.arguments
  match i.command with
  | .build =>
    match loopOperands [str "--verbose", str "--no-index"] [str "--sign"] i.arguments with
    | [source] => some [.build source none
        (lastValues [str "--sign"] (fun _ => none) i.arguments (str "--sign"))
        (!has (str "--no-index"))]
    | [source, output] => some [.build source (some output)
        (lastValues [str "--sign"] (fun _ => none) i.arguments (str "--sign"))
        (!has (str "--no-index"))]
    | _ => none
  | .verify =>
    match loopOperands [str "--verbose", str "--read-only", str "--allow-unsigned"] []
      i.arguments with
    | [] => none
    | packages => some (packages.map fun package =>
        .verify package (has (str "--read-only")) (has (str "--allow-unsigned")))
  | .install => dispatchInstall i
  | .remove => if i.argv.length < 2 then none else some ((i.argv.drop 1).map .remove)
  | .repo => (dispatchRepo i).map fun call => [call]
  | .key => (dispatchKey i).map fun call => [call]
  | .trust => (dispatchTrust i).map fun call => [call]
  | .list =>
    let values := lastValues [str "--arch", str "--version", str "--repo"] (fun _ => none)
      i.arguments
    some [.list (collectCommandOperands .list i.arguments).head? (values (str "--arch"))
      (values (str "--version")) (values (str "--repo")) (has (str "--available"))
      (has (str "--json"))]
  | .show =>
    let values := lastValues [str "--arch", str "--version", str "--repo"] (fun _ => none)
      i.arguments
    some [.show ((collectCommandOperands .show i.arguments).headD []) (values (str "--arch"))
      (values (str "--version")) (values (str "--repo")) (has (str "--json"))]
  | .recovery => some [dispatchRecovery i]
  | .config => (dispatchConfig i).map fun call => [call]
  | .keygen =>
    let makeDefault := decide (i.arguments.length = 3 ∧ i.arguments.getD 2 [] = str "--default")
    if i.arguments.length ≠ 2 ∧ makeDefault = false then none
    else some [.keygen (i.arguments.getD 0 []) (i.arguments.getD 1 []) makeDefault]
  | .upgrade => some [dispatchUpgrade i]
  | .init =>
    if 2 < i.argv.length then none
    else if i.argv.length = 2 then
      let name := i.argv.getD 1 []
      if name.length < 128 ∧ packageNameIsValid name then some [.init (some name)]
      else some [.initRefused name]
    else some [.init none]
  | .update => some [.update i.offline]

end Wpm.CommandLine
