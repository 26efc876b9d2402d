import ContractAudit.Compiler.Cached
import ContractAudit.Finding.Calibration
import ContractAudit.Finding.Filter
import ContractAudit.Finding.Snippet
import ContractAudit.Rule.Rulebook
import ContractAudit.Settings.File
import ContractAudit.Source.Parser

/-!
Scans: from files to the findings that are reported.

A scan parses the sources at a path, runs the passes and the detectors, fills in snippets, leaves
out what is not to be reported, and merges findings that corroborate each other. A source that does
not parse is passed over.
-/

namespace ContractAudit

open Analysis Calendar Plan Rule Source

/-- What to scan. Empty paths are not given. -/
structure ScanTarget where
  path : Text
  /-- A settings file, in the place of the one that is found from the path. -/
  settings : Text := []
  /-- A baseline file, in the place of the one that the settings name. -/
  baseline : Text := []
deriving DecidableEq, Repr

/-- What a scan found, and how the analysis went. -/
structure ScanOutcome where
  findings : List Finding
  report : RunReport
deriving Repr

namespace Scan

/-- The directories that are passed over. -/
def skippedNames : List Text := Text.ofStrings [".git", "node_modules", "vendor"]

/-- Whether a file below the scanned directory is a source. -/
def isSource (names : Place) : Bool :=
  (names.dropLast.all fun n => !skippedNames.contains n) &&
    Path.extension (names.getLast?.getD []) == ".sol"

/-- Whether a path names a source of chaincode, which is not parsed. -/
def isChaincode (path : Text) : Bool := Path.extension path == ".go"

/-- The sources at a path with their contents: those below a directory, or the one file. Each has
the path from the scanned directory, or from the one that holds the file. -/
def sources (fs : FileSystem) (path : Text) : Except FileFault (List (Text × Text)) := do
  match ← FileSystem.attempting "stat" path (fs.look path) with
  | (place, .directory) =>
    let found := (fs.filesBelow place).filter fun (names, _) => isSource names
    return found.map fun (names, content) => (Text.joinWith "/" names, content)
  | (place, .file content) =>
    return if isChaincode path then [] else [(place.getLast?.getD [], content)]

/-- The directory that the paths of sources start from. -/
def rootOf (fs : FileSystem) (path : Text) : Text :=
  match fs.look path with
  | .ok (_, .file _) => Path.parent path
  | _ => path

/-- The sources that parse. -/
def units (files : List (Text × Text)) : List SourceUnit :=
  files.filterMap fun (path, content) => (parse path content).toOption

/-- How many lines around a finding its snippet has. -/
def snippetMargin : Int := 2

/-- A finding with a snippet, if it has a line and no snippet yet. -/
def withSnippet (source? : Text → Option Text) (f : Finding) : Finding :=
  if !f.snippet.isEmpty || f.startLine ≤ 0 then f
  else
    match source? f.file with
    | some content => { f with snippet := snippet content f.startLine f.endLine snippetMargin }
    | none => f

/-- The baseline in a file. Without a path nothing is accepted. -/
def baselineAt (fs : FileSystem) (path : Text) : Except Trouble Baseline :=
  if path.isEmpty then .ok .empty
  else
    match Trouble.ofFiles (fs.read path) with
    | .error e => .error e
    | .ok t => match Baseline.read? t with
      | some b => .ok b
      | none => .error (.unreadable path)

/-- The cached trees of the compiler for sources below a directory, by the paths of the sources. -/
def compiledTrees (fs : FileSystem) (s : Settings) (root : Text) (us : List SourceUnit) :
    Table Text Compiler.Output :=
  let cache : Cache := ⟨if s.cache.enabled then s.cache.dir else []⟩
  .ofList (us.filterMap fun u =>
    (Compiler.cached? cache fs s.compiler.path (Path.join [root, u.path])).map fun t => (u.path, t))

/-- The state in which the analysis of sources starts. -/
def begin (fs : FileSystem) (s : Settings) (root : Text) (us : List SourceUnit) : Audit :=
  let audit : Audit := Session.spend { root, sources := us } "parse" 0
  if s.compiler.enabled then audit.store compiledKey (.compiled (compiledTrees fs s root us))
    else audit

/-- Runs the passes. -/
def analyse (s : Settings) (audit : Audit) : Except Trouble (Audit × RunReport) :=
  match builtinRoster s.policy s.maxIterations s.disabledPasses with
  | .error e => .error (.failure e)
  | .ok roster =>
    match roster.run false audit with
    | (audit, outcome) =>
      if audit.aborted then .error .aborted
      else match outcome with
      | .error e => .error (.labelled "analysis" (.failure e))
      | .ok report => .ok (audit, report)

/-- The findings of all detectors on analysed sources. -/
def detectAll (audit : Audit) : Except Trouble (List Finding) :=
  match detect builtinDetectors false audit with
  | (fs, none) => .ok fs
  | (_, some e) => .error (.labelled "detection" (.failure e))

end Scan

open Scan

/-- Scans under the given settings. -/
def scan (fs : FileSystem) (now : Instant) (r : ScanTarget) (s : Settings) :
    Except Trouble ScanOutcome := do
  let files ← Trouble.ofFiles (sources fs r.path)
  let us := units files
  let contents : Table Text Text := .ofList (us.map fun u => (u.path, u.content))
  let (audit, report) ← analyse s (begin fs s (rootOf fs r.path) us)
  let found ← detectAll audit
  let found := found.map (withSnippet contents.get?)
  let accepted ← (baselineAt fs (if r.baseline.isEmpty then s.baseline else r.baseline)).mapError
    (.labelled "baseline")
  let kept := Finding.select s contents.get? now accepted found
  let stats := (audit.spend "detect" 0).stats
  return ⟨Finding.sorted (Finding.calibrate kept), { report with stats }⟩

/-- The settings for a scan: those in the given file, or those that hold at the scanned path. -/
def ScanTarget.loadSettings (r : ScanTarget) (fs : FileSystem) : Except Trouble Settings :=
  if r.settings.isEmpty then do
    let (s, _) ← Settings.load fs r.path
    return s
  else Settings.readFile fs r.settings

end ContractAudit
