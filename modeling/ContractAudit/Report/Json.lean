import ContractAudit.Decimal.Double
import ContractAudit.Finding.Basic
import ContractAudit.Json.Writer
import ContractAudit.Plan.Run
import ContractAudit.Rule.Basic

/-!
Reports for programs, as JSON. Members that have nothing to say are left out.
-/

namespace ContractAudit.Report

open Json Plan Rule

/-- A number with a fraction, in the fewest digits that read back. -/
def number (x : Float) : Json := .num (Decimal.plain x)

/-- A finding. -/
def findingJson (f : Finding) : Json :=
  .object (List.flatten [
    [("ruleId", .str f.rule), ("severity", .str f.severity.name),
      ("confidence", number f.confidence),
      ("detectorId", .str f.detector), ("file", .str f.file), ("startLine", .int f.startLine),
      ("endLine", .int f.endLine)],
    textMember "snippet" f.snippet,
    textMember "entity" f.entity,
    [("message", .str f.message)],
    textMember "rationale" f.rationale,
    textMember "remediation" f.remediation,
    listMember "references" .str f.references,
    [("fingerprint", .str f.fingerprint)]])

/-- A member for a table, by key, left out when the table is empty. -/
def tableMember {α : Type} (name : String) (f : α → Json) (t : Table Text α) :
    List (String × Json) :=
  if t.entries.isEmpty then []
  else [(name, .obj ((t.entries.mergeSort fun a b => Text.le a.1 b.1).map fun (k, v) => (k, f v)))]

/-- The statistics of a run. -/
def statsJson (s : Stats) : Json :=
  .object (List.flatten [
    [("passesExecuted", .nat s.executed), ("passesSkipped", .nat s.skipped)],
    tableMember "traversals" .nat s.traversals,
    tableMember "phases" .int s.phases])

/-- What became of a pass. -/
def passJson (p : PassRecord) : Json :=
  .object (List.flatten [
    [("id", .str p.id), ("name", .str p.name), ("duration", .int p.duration),
      ("success", .bool p.success)],
    textMember "error" p.error])

/-- A run. Without any pass there is no list of them. -/
def runJson (r : RunReport) : Json :=
  .object (List.flatten [
    [("passes", if r.passes.isEmpty then .null else .arr (r.passes.map passJson)),
      ("totalDuration", .int r.total), ("passesExecuted", .int r.executed),
      ("passesSkipped", .int r.skipped), ("success", .bool r.success)],
    listMember "errors" .str r.errors,
    [("stats", statsJson r.stats)]])

/-- A member for a run, left out when there was none. -/
def runMember (r : Option RunReport) : List (String × Json) :=
  match r with
  | some r => [("passes", runJson r)]
  | none => []

/-- The result of a scan and the time it took, in nanoseconds. -/
def scanJson (fs : List Finding) (run : Option RunReport) (elapsed : Int) : Json :=
  .object (List.flatten [
    [("findings", .arr (fs.map findingJson))],
    runMember run,
    [("elapsed", .int elapsed)]])

/-- A document: the value with one item or member a line, and a line break at the end. -/
def document (v : Json) : Text := v.indented ++ "\n"

/-- A rule. -/
def ruleJson (r : RuleInfo) : Json :=
  .object (List.flatten [
    [("id", .str r.id), ("title", .str r.title), ("severity", .str r.severity.name),
      ("language", .str r.language.name)],
    listMember "requires" .str r.requires,
    listMember "tags" .str r.tags])

end ContractAudit.Report
