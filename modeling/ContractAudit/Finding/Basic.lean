import ContractAudit.Text.Sha256
import ContractAudit.Finding.Severity

/-!
Findings: what a detector reports about a place in a source.
-/

namespace ContractAudit

/-- A report about a place in a source file. -/
structure Finding where
  rule : Text
  severity : Severity
  /-- How sure the detector is, from zero to one. -/
  confidence : Float
  detector : Text
  file : Text
  startLine : Int
  endLine : Int
  snippet : Text
  /-- What the finding is about, such as a function. -/
  entity : Text
  message : Text
  rationale : Text
  remediation : Text
  references : List Text
  /-- What identifies the finding across scans. -/
  fingerprint : Text
deriving Repr

namespace Finding

/-- The fingerprint of a finding: a hash of the rule, the file, the entity and what tells findings
of one rule about one entity apart. Without an entity the line counts in its place, so that edits
above a known entity keep the fingerprint. -/
def fingerprintOf (rule file entity : Text) (line : Int) (key : Text) : Text :=
  let place := if entity.isEmpty then Text.ofInt line else entity
  Text.sha256 (Text.joinWith "|" [rule, file, place, key])

/-- Whether one finding is listed no later than another: by file, then line, then rule. -/
def le (a b : Finding) : Bool :=
  if a.file != b.file then Text.le a.file b.file
  else if a.startLine != b.startLine then a.startLine ≤ b.startLine
  else Text.le a.rule b.rule

/-- Findings by file, line and rule; findings that agree in these keep their order. -/
def sorted (fs : List Finding) : List Finding := fs.mergeSort le

end Finding

end ContractAudit
