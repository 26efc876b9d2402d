import ContractAudit.Report.Json
import ContractAudit.Scan
import ContractAudit.Service.Request

/-!
The analyzer service: what it answers to a request.

A path is taken below the root of the server, and inline sources are written below a directory of
their own. Neither may lead out of there.
-/

namespace ContractAudit.Service

open Calendar Plan

/-- What kind of refusal a request meets. -/
inductive Code where
  | invalidArgument
  | permissionDenied
  | internal
deriving DecidableEq, Repr

/-- The name of a code. -/
def Code.name : Code → Text
  | .invalidArgument => "invalid_argument"
  | .permissionDenied => "permission_denied"
  | .internal => "internal"

/-- Why a request is refused. -/
inductive Refusal where
  /-- The request is not understood. -/
  | malformed (reason : Text)
  /-- The request gives both sources and a path, or neither. -/
  | ambiguous
  /-- The request sets something to a value that it cannot have. -/
  | invalid (faults : List Text)
  /-- The server has no root for paths. -/
  | pathsDisabled
  /-- The path leads out of the root. -/
  | escapes (path : Text)
  /-- The name of a source leads out of its directory. -/
  | notRelative (name : Text)
  /-- The scan came to nothing. -/
  | failed (trouble : Trouble)
deriving DecidableEq, Repr

/-- The kind of a refusal. -/
def Refusal.code : Refusal → Code
  | .pathsDisabled => .permissionDenied
  | .failed _ => .internal
  | _ => .invalidArgument

/-- The wording of a refusal. -/
def Refusal.message : Refusal → Text
  | .malformed reason => "unmarshal message: " ++ reason
  | .ambiguous => "exactly one of sources and path is required"
  | .invalid faults => Text.joinWith "\n" faults
  | .pathsDisabled => "path requests are disabled"
  | .escapes path => "path " ++ path.quoted ++ " escapes the server root"
  | .notRelative name => "source name " ++ name.quoted ++ " is not a relative path"
  | .failed trouble => trouble.message

/-- The settings of an analysis: the default ones, as far as the request does not say otherwise. -/
def AuditRequest.settings (r : AuditRequest) : Settings :=
  { Settings.default with
    severityThreshold :=
      if r.severityThreshold.isEmpty then Settings.default.severityThreshold
        else r.severityThreshold
    timeBudget := if 0 < r.timeBudget then r.timeBudget else Settings.default.timeBudget
    rules := r.rules
    disabledPasses := r.disabledPasses }

/-- The path of a request below the root of the server. -/
def pathBelow (root path : Text) : Except Refusal Text :=
  if root.isEmpty then .error .pathsDisabled
  else if Path.isLocal path then .ok (Path.join [root, path])
  else .error (.escapes path)

/-- The path of an inline source below the directory it is written to. -/
def sourceBelow (dir name : Text) : Except Refusal Text :=
  if Path.isLocal name then .ok (Path.join [dir, name]) else .error (.notRelative name)

/-- The directory that inline sources are written to. -/
def inlineDir : Text := "/tmp/verazt-rpc"

/-- Writes inline sources below a directory, one after the other. -/
def writeSources (dir : Text) : FileSystem → List InlineSource → Except Refusal FileSystem
  | fs, [] => .ok fs
  | fs, s :: rest => do
    let path ← sourceBelow dir s.name
    let fs ← (fs.place path s.content).mapError fun fault => .failed (.file fault)
    writeSources dir fs rest

/-- The files to scan and the path to scan at. Inline sources are written below `dir`. -/
def scanPlace (fs : FileSystem) (dir root : Text) (r : AuditRequest) :
    Except Refusal (FileSystem × Text) :=
  if r.path.isEmpty then do
    let fresh ← (({} : FileSystem).makeDirectory dir).mapError fun fault => .failed (.file fault)
    let fs ← writeSources dir fresh r.sources
    return (fs, dir)
  else do
    let path ← pathBelow root r.path
    return (fs, path)

/-- Answers a request on a server with the given root. -/
def analyze (fs : FileSystem) (now : Instant) (root : Text) (r : AuditRequest) :
    Except Refusal ScanOutcome :=
  if r.sources.isEmpty == r.path.isEmpty then .error .ambiguous
  else if !r.settings.faults.isEmpty then .error (.invalid r.settings.faults)
  else do
    let (fs, path) ← scanPlace fs inlineDir root r
    (scan fs now { path } r.settings).mapError .failed

/-- The answer to a request, as JSON. -/
def answerJson (x : ScanOutcome) : Json :=
  .object (List.flatten [
    [("findings", .arr (x.findings.map Report.findingJson))],
    Report.runMember (some x.report),
    [("elapsedMs", .int 0)]])

/-- A refusal, as JSON. -/
def refusalJson (e : Refusal) : Json :=
  .object (("code", .str e.code.name) :: Json.textMember "message" e.message)

end ContractAudit.Service
