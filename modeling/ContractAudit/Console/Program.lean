import ContractAudit.Browser
import ContractAudit.Console.Command
import ContractAudit.Report.Facts
import ContractAudit.Report.Sarif
import ContractAudit.Scan

/-!
The command line of the analyser.

`run` takes a command line and the files it works on. It answers with the files as they are
afterwards, what is printed, and what went wrong.
-/

namespace ContractAudit.Console

open Analysis Calendar Plan Rule Source

/-- What a command does. -/
inductive Action where
  | scan
  | init
  | listRules
  | listPasses
  | showSchedule
  | drawFlow
  | serve
  | help
  | complete
deriving DecidableEq, Repr

/-- What a command came to. -/
structure Outcome where
  files : FileSystem
  output : Text := []
  trouble? : Option Trouble := none

/-! ### Flags -/

/-- The flag for how much is logged. -/
def logLevelFlag : Flag :=
  { name := "log-level", usage := "Log level: debug|info|warn|error (default from config)" }

/-- The flags of every command. -/
def sharedFlags : List Flag := [logLevelFlag]

/-- The flag for the format of a report. -/
def reportFormatFlag : Flag :=
  { name := "format", letter? := some 102, usual := "table",
    usage := "Output format: table|json|sarif" }

/-- The flag for the time that a scan may take. -/
def budgetFlag : Flag :=
  { name := "budget-ms", kind := .number, usual := "0"
    usage := "Time budget for the scan in milliseconds (default from config)" }

/-- The flag for the severity at which a scan fails. -/
def failOnFlag : Flag :=
  { name := "fail-on"
    usage := "Fail if a finding of severity or higher is found (low|medium|high|critical)" }

/-- The flag for the file that a report is written to. -/
def outFlag : Flag :=
  { name := "out", letter? := some 111, usage := "Write the report to a file instead of stdout" }

/-- The flag for the settings file. -/
def settingsFlag : Flag :=
  { name := "config", letter? := some 99
    usage := "Config file (default: search upward for .verazt.json/.yaml)" }

/-- The flag for the baseline file. -/
def baselineFlag : Flag :=
  { name := "baseline", usage := "Suppress findings whose fingerprints are in this baseline file" }

/-- The switch for the view in a terminal. -/
def browseFlag : Flag :=
  { name := "tui", kind := .switch, usage := "Render interactive TUI output" }

/-- The switch for the table of passes. -/
def passesFlag : Flag :=
  { name := "passes", kind := .switch, usage := "Append the analysis pass table (table format)" }

/-- The flag for a baseline file to write. -/
def writeBaselineFlag : Flag :=
  { name := "write-baseline", usage := "Write a baseline file with finding fingerprints" }

/-- The flag for the directory of a new settings file. -/
def dirFlag : Flag :=
  { name := "dir", letter? := some 100, usual := ".", usage := "Directory to write config file to" }

/-- The flag for the format of a new settings file. -/
def settingsFormatFlag :
    Flag := { name := "format", usual := "json", usage := "Config format: json|yaml" }

/-- The switch for writing over a settings file. -/
def forceFlag : Flag :=
  { name := "force", kind := .switch, usage := "Overwrite an existing config file" }

/-- The switch for rules as JSON. -/
def rulesJsonFlag :
    Flag := { name := "json", kind := .switch, usage := "Print rule metadata as JSON" }

/-- The flag for passes to leave out. -/
def disableFlag : Flag :=
  { name := "disable", kind := .words, usage := "Passes to disable (with their dependents)" }

/-- The switch for a schedule as JSON. -/
def scheduleJsonFlag :
    Flag := { name := "json", kind := .switch, usage := "Print the schedule as JSON" }

/-- The flag for what is shown of functions. -/
def flowFormatFlag : Flag :=
  { name := "format", letter? := some 102, usual := "dot", usage := "Output format: dot|facts" }

/-- The flag for the address to serve at. -/
def addressFlag : Flag := { name := "addr", usual := ":8080", usage := "Listen address" }

/-- The flag for the root of a server. -/
def rootFlag : Flag :=
  { name := "root", usage := "Directory that path requests may scan below (disabled when empty)" }

/-! ### Commands -/

/-- Scans. -/
def scanCommand : Command Action where
  name := "scan"
  operands := "[path]"
  summary := "Scan Solidity contracts and Go chaincode for vulnerabilities"
  flags := [reportFormatFlag, budgetFlag, failOnFlag, outFlag, settingsFlag,
    baselineFlag, browseFlag, passesFlag, writeBaselineFlag]
  arity := .atMost 1
  action? := some .scan

/-- Writes a settings file. -/
def initCommand : Command Action where
  name := "init"
  summary := "Create a .verazt.json (or .verazt.yaml) with the default settings"
  flags := [dirFlag, settingsFormatFlag, forceFlag]
  action? := some .init

/-- Rules. -/
def rulesCommand : Command Action where
  name := "rules"
  summary := "List available rules"
  children := [
    { name := "list", summary := "List built-in detectors", flags := [rulesJsonFlag]
      action? := some .listRules }]

/-- Passes. -/
def passesCommand : Command Action where
  name := "passes"
  summary := "Inspect the analysis passes"
  children := [
    { name := "list"
      summary := "List built-in passes with their level, representation and dependencies"
      action? := some .listPasses },
    { name := "schedule", summary := "Print the execution levels the scheduler computes"
      flags := [disableFlag, scheduleJsonFlag], action? := some .showSchedule }]

/-- Shows functions. -/
def flowCommand : Command Action where
  name := "cfg"
  operands := "FILE.sol [Contract.function...]"
  summary := "Print the control-flow graphs or data-flow facts of Solidity functions"
  flags := [flowFormatFlag]
  arity := .atLeast 1
  action? := some .drawFlow

/-- Serves. -/
def serveCommand : Command Action where
  name := "serve"
  summary := "Serve the analyzer over Connect RPC (HTTP/1.1 and h2c)"
  flags := [addressFlag, rootFlag]
  action? := some .serve

/-- Helps. -/
def helpCommand : Command Action where
  name := "help"
  operands := "[command]"
  summary := "Help about any command"
  description :=
    "Help provides help for any command in the application.\n" ++
    "Simply type verazt help [path to command] for full details."
  action? := some .help
  unlisted := true

/-- The script of one shell. -/
def shellCommand (shell : Text) : Command Action where
  name := shell
  summary := "Generate the autocompletion script for " ++ shell
  action? := some .complete

/-- Scripts for shells. -/
def completionCommand : Command Action where
  name := "completion"
  summary := "Generate the autocompletion script for the specified shell"
  description :=
    "Generate the autocompletion script for verazt for the specified shell.\n" ++
    "See each sub-command's help for details on how to use the generated script."
  children := (Text.ofStrings ["bash", "zsh", "fish", "powershell"]).map shellCommand

/-- All commands. -/
def rootCommand : Command Action where
  name := "verazt"
  summary := "Static analysis for smart contracts and chaincode"
  children := [scanCommand, initCommand, rulesCommand, passesCommand, flowCommand, serveCommand,
    helpCommand, completionCommand]

/-! ### Scans -/

/-- A complaint. -/
def complain {α : Type} (message : Text) : Except Trouble α := .error (.complaint message)

/-- Makes sure that there is a level of the given name to log at. -/
def checkLevel (p : Parsed) (usual : Text) : Except Trouble Unit :=
  let given := p.value logLevelFlag
  let name := if given.isEmpty then usual else given
  match LogLevel.read? name with
  | some _ => .ok ()
  | none => complain (LogLevel.complaint name)

/-- The complaint about a format that there is not. -/
def unknownFormat (name : Text) : Trouble := .complaint ("unknown format " ++ name.quoted)

/-- The result of a scan in a format; nothing for a format that there is not. -/
def resultText? (format : Text) (withPasses : Bool) (x : ScanOutcome) : Option Text :=
  if format == "json" then some (Report.document (Report.scanJson x.findings (some x.report) 0))
  else if format == "sarif" then
    some (Report.document (Report.Sarif.log x.findings (rulesOf builtinDetectors)
      (some x.report)).toJson)
  else if format == "table" || format.isEmpty then
    let passes : Text := if withPasses then "\n" ++ Report.passTable x.report else []
    some (Report.findingsText x.findings ++ passes)
  else none

/-- Prints a result, or writes it to a file, which is made before the format is looked at. -/
def printResult (fs : FileSystem) (p : Parsed) (x : ScanOutcome) : Outcome :=
  let format := p.value reportFormatFlag
  let text? := resultText? format (p.isOn passesFlag) x
  let trouble? := if text?.isNone then some (unknownFormat format) else none
  let path := p.value outFlag
  if p.isOn browseFlag then { files := fs, output := Browser.text ⟨x.findings, x.report, 0,
    .findings, 20⟩ }
  else if path.isEmpty then { files := fs, output := text?.getD [], trouble? }
  else
    match fs.write path (text?.getD []) with
    | .ok fs => { files := fs, trouble? }
    | .error fault => { files := fs, trouble? := some (.file fault) }

/-- Writes a baseline, if one is asked for. -/
def recordBaseline (p : Parsed) (x : ScanOutcome) (o : Outcome) : Outcome :=
  let path := p.value writeBaselineFlag
  if o.trouble?.isSome || path.isEmpty then o
  else
    match o.files.write path (Baseline.write x.findings) with
    | .ok fs => { o with files := fs }
    | .error fault => { o with trouble? := some (.file fault) }

/-- Fails if a finding is as severe as asked for. -/
def failOn (p : Parsed) (x : ScanOutcome) (o : Outcome) : Outcome :=
  let name := p.value failOnFlag
  let threshold := Severity.read name
  let n := (x.findings.filter fun f => f.severity.atLeast threshold).length
  if o.trouble?.isSome || name.isEmpty || n == 0 then o
  else
    let message := "fail-on threshold met: " ++ Text.ofNat n ++ " finding(s) at or above " ++
      threshold.name
    { o with trouble? := some (.complaint message) }

/-- The result of the scan that a command line asks for. -/
def scanned (fs : FileSystem) (now : Instant) (p : Parsed) : Except Trouble ScanOutcome := do
  let name := p.value failOnFlag
  if !name.isEmpty && (Severity.read name).name != name.lower then
    complain ("--fail-on: unknown severity " ++ name.quoted)
  let r : ScanTarget := ⟨p.arguments.headD ".", p.value settingsFlag, p.value baselineFlag⟩
  let s ← r.loadSettings fs
  checkLevel p s.logLevel
  scan fs now r s

/-- Scans. -/
def runScan (fs : FileSystem) (now : Instant) (p : Parsed) : Outcome :=
  match scanned fs now p with
  | .error e => { files := fs, trouble? := some e }
  | .ok x => failOn p x (recordBaseline p x (printResult fs p x))

/-! ### Other commands -/

/-- The name of a settings file in a format. -/
def settingsName? (format : Text) : Option Text :=
  if format == "json" then some ".verazt.json"
  else if format == "yaml" || format == "yml" then some ".verazt.yaml"
  else none

/-- Writes a settings file. -/
def runInit (fs : FileSystem) (p : Parsed) : Except Trouble (FileSystem × Text) := do
  let format := p.value settingsFormatFlag
  let some name := settingsName? format | complain ("unknown config format " ++ format.quoted)
  let path := Path.join [p.value dirFlag, name]
  if fs.exists? path && !p.isOn forceFlag then
    complain (path ++ " already exists (use --force to overwrite)")
  let fs ← Trouble.ofFiles (fs.write path (Settings.default.fileText path))
  return (fs, "wrote " ++ path ++ "\n")

/-- Names between commas. -/
def commas (names : List Text) : Text := Text.joinWith "," names

/-- The rules. -/
def rulesText (p : Parsed) : Text :=
  let rules := rulesOf builtinDetectors
  if p.isOn rulesJsonFlag then Report.document (.arr (rules.map Report.ruleJson))
  else
    Report.table (["ID", "SEVERITY", "LANGUAGE", "REQUIRES", "TITLE"] ::
      rules.map fun r => [r.id, r.severity.name, r.language.name, commas r.requires, r.title])

/-- The passes. -/
def passesText : Text :=
  Report.table (["ID", "LEVEL", "REPRESENTATION", "REQUIRES", "DESCRIPTION"] ::
    (builtinPasses 0).map fun p =>
      [p.id, p.level.name, p.representation.name, commas p.requires, p.description])

/-- How passes run when nothing else is said. -/
def usualPolicy : RunPolicy := Settings.default.policy

/-- A level of a schedule as JSON. -/
def levelJson (l : ScheduleLevel) : Json :=
  .object (List.flatten [
    Json.listMember "ast" .str l.ast, Json.listMember "ir" .str l.ir,
    Json.listMember "hybrid" .str l.hybrid])

/-- A schedule as JSON. -/
def scheduleJson (s : Schedule) : Json :=
  .object [
    ("levels", if s.levels.isEmpty then .null else .arr (s.levels.map levelJson)),
    ("needsIR", .bool s.needsIR),
    ("irGenerationLevel", .int s.irLevel)]

/-- The passes of a level that share a representation. -/
def groupText (name : Text) (ids : List Text) : List Text :=
  if ids.isEmpty then [] else [name ++ "[" ++ commas ids ++ "]"]

/-- A level of a schedule. -/
def levelText (n : Nat) (l : ScheduleLevel) : Text :=
  let groups := groupText "ast" l.ast ++ groupText "ir" l.ir ++ groupText "hybrid" l.hybrid
  "level " ++ Text.ofNat n ++ ": " ++ Text.joinWith " " groups ++ "\n"

/-- A schedule. -/
def scheduleText (s : Schedule) : Text :=
  let needsIR : Text := if s.needsIR then "true" else "false"
  (s.levels.mapIdx levelText).flatten ++ Text.ofNat s.size ++ " passes, needs IR: " ++
    needsIR ++ "\n"

/-- Shows the schedule of the passes that are left. -/
def runSchedule (p : Parsed) : Except Trouble Text := do
  checkLevel p "warn"
  let roster ← (builtinRoster usualPolicy 0 (p.words disableFlag)).mapError .failure
  let s ← roster.schedule.mapError .failure
  return if p.isOn scheduleJsonFlag then Report.document (scheduleJson s) else scheduleText s

/-- The functions to show: those asked for, or all by name. -/
def chosen (facts : Facts) (names : List Text) : Except Trouble (List FlowFacts) :=
  let names := if names.isEmpty then Text.sorted facts.keys else names
  names.mapM fun name =>
    match facts.get? name with
    | some f => .ok f
    | none => complain ("function " ++ name ++ " not found")

/-- The facts of the functions of a source. -/
def factsOf (u : SourceUnit) : Except Trouble Facts := do
  let roster ← (builtinRoster usualPolicy 0 [chaincodeId]).mapError .failure
  match roster.runOne false dataFlowId { root := [], sources := [u] } with
  | (_, some e) => .error (.failure e)
  | (audit, none) => return (facts? audit).getD .empty

/-- Shows the functions of a source. -/
def runFlow (fs : FileSystem) (p : Parsed) : Except Trouble Text := do
  let path := p.arguments.headD []
  let content ← Trouble.ofFiles (fs.read path)
  let u ← (parse path content).mapError (.unparsable path)
  checkLevel p "warn"
  let functions ← chosen (← factsOf u) p.arguments.tail
  let format := p.value flowFormatFlag
  if functions.isEmpty then return []
  else if format == "dot" then return functions.flatMap fun f => f.function.graph.dot
  else if format == "facts" then return functions.flatMap Report.factsText
  else .error (unknownFormat format)

/-- A word between back quotes, or between double quotes when it holds a back quote or what cannot
be seen. -/
def topicText (t : Text) : Text :=
  let plain := t.runes.all fun r =>
    !r.stray && r.code != 96 && r.code != 0xFEFF && (r.code == 9 || (32 ≤ r.code && r.code != 127))
  if plain then "\x60" ++ t ++ "\x60" else t.quoted

/-- Shows the help of a command. -/
def helpText (words : List Text) : Text :=
  match find rootCommand sharedFlags words with
  | .ok (t, _) => t.help sharedFlags
  | .error _ =>
    let root : Target Action := ⟨rootCommand, [rootCommand.name]⟩
    "Unknown help topic [" ++ Text.joinWith " " (words.map topicText) ++ "]\n" ++
      root.usage sharedFlags

/-- What prints and changes no files. -/
def printed (fs : FileSystem) : Except Trouble Text → Outcome
  | .ok output => { files := fs, output }
  | .error e => { files := fs, trouble? := some e }

/-- Does what a command does. -/
def act (fs : FileSystem) (now : Instant) (p : Parsed) : Action → Outcome
  | .scan => runScan fs now p
  | .init => match runInit fs p with
    | .ok (fs, output) => { files := fs, output }
    | .error e => { files := fs, trouble? := some e }
  | .listRules => printed fs (.ok (rulesText p))
  | .listPasses => printed fs (.ok passesText)
  | .showSchedule => printed fs (runSchedule p)
  | .drawFlow => printed fs (runFlow fs p)
  | .help => printed fs (.ok (helpText p.arguments))
  | .serve => printed fs (checkLevel p "info" >>= fun _ => complain "serve: not available")
  | .complete => printed fs (complain "completion: not available")

/-- The version of the analyser. -/
def versionText : Text := Report.Sarif.toolName ++ " version " ++ Report.Sarif.toolVersion ++ "\n"

/-- Runs the command that was found. Help comes before everything else that a command line asks
for. -/
def execute (fs : FileSystem) (now : Instant) (t : Target Action) (words : List Text) : Outcome :=
  match Parsed.read (t.allFlags sharedFlags) {} words with
  | .error fault => printed fs (complain fault.message)
  | .ok p =>
    let name := t.command.name
    if p.isOn (helpFlag name) then printed fs (.ok (t.help sharedFlags))
    else if t.path.length == 1 && p.isOn (versionFlag name) then printed fs (.ok versionText)
    else
      match t.command.action? with
      | none => printed fs (.ok (t.help sharedFlags))
      | some action =>
        match t.command.arity.complaint? p.arguments.length with
        | some complaint => printed fs (complain complaint)
        | none => act fs now p action

/-- Runs a command line. -/
def run (fs : FileSystem) (now : Instant) (words : List Text) : Outcome :=
  match find rootCommand sharedFlags words with
  | .error complaint => printed fs (complain complaint)
  | .ok (t, words) => execute fs now t words

end ContractAudit.Console
