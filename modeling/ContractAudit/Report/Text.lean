import ContractAudit.Decimal.Double
import ContractAudit.Duration
import ContractAudit.Finding.Basic
import ContractAudit.Plan.Run
import ContractAudit.Text.Columns

/-!
Reports for readers: a list of findings, and a table of the passes that ran.
-/

namespace ContractAudit.Report

open Plan

/-- A confidence, with two decimals. -/
def confidenceText (f : Finding) : Text := "(confidence " ++ Decimal.fixed 2 f.confidence ++ ")"

/-- A line of a snippet. -/
def snippetLine (t : Text) : Text := "    | " ++ t ++ "\n"

/-- A finding on a line of its own, with its snippet below. -/
def findingText (f : Finding) : Text :=
  let head := f.file ++ ":" ++ Text.ofInt f.startLine ++ " [" ++ f.severity.name ++ "] " ++
    f.rule ++ " " ++ f.message ++ " " ++ confidenceText f ++ "\n"
  if f.snippet.isEmpty then head
  else head ++ f.snippet.lines.flatMap snippetLine

/-- Findings and their number. -/
def findingsText (fs : List Finding) : Text :=
  if fs.isEmpty then "No findings.\n"
  else fs.flatMap findingText ++ "\n" ++ Text.ofNat fs.length ++ " finding(s)\n"

/-- A line of a table, cells between tabs. -/
def line (cells : List Text) : Text := Text.joinWith "\t" cells ++ "\n"

/-- A table, two spaces between its columns. -/
def table (rows : List (List Text)) : Text := Text.columns 2 (rows.flatMap line)

/-- What became of a pass. -/
def passStatus (p : PassRecord) : Text := if p.success then "ok" else "failed: " ++ p.error

/-- The passes that ran, with the time they took. -/
def passTable (r : RunReport) : Text :=
  let rows := r.passes.map fun p => [p.id, p.name, passStatus p, Duration.brief p.duration]
  table (["PASS", "NAME", "STATUS", "DURATION"] :: rows) ++ Text.ofInt r.executed ++
    " executed, " ++ Text.ofInt r.skipped ++ " skipped in " ++ Duration.brief r.total ++ "\n"

end ContractAudit.Report
