import ContractAudit.Calendar
import ContractAudit.Finding.Basic
import ContractAudit.Settings.Basic
import ContractAudit.Text.Glob

/-!
Findings that a user wants to be left out: by an ignore rule of the settings, or by a marker in the
source near the finding.
-/

namespace ContractAudit

open Calendar

namespace Exemption

/-- Whether an ignore rule is over. It holds through its last day, and for ever when that is no
proper date. -/
def isExpired (r : Exemption) (now : Instant) : Bool :=
  match readDay? r.expires with
  | some day => now.isAfter (.ofDay (day + 1))
  | none => false

/-- Whether a pattern covers a file: as a pattern for the whole path, or as the start of it. -/
def coversPath (pattern file : Text) : Bool :=
  let pattern := Text.trimStart pattern "./"
  Text.globMatches pattern file || Text.startsWith file (Text.trimEnd pattern "/")

/-- Whether an ignore rule covers a finding. An empty part of the rule covers everything. -/
def covers (r : Exemption) (f : Finding) (now : Instant) : Bool :=
  !r.isExpired now && (r.rule.isEmpty || Text.sameFold r.rule f.rule) &&
    (r.path.isEmpty || coversPath r.path f.file)

end Exemption

namespace Finding

/-- Whether some ignore rule covers a finding. -/
def isExempt (f : Finding) (rules : List Exemption) (now : Instant) : Bool :=
  rules.any fun r => r.covers f now

/-- What stands in a source before the rule that is not to be reported nearby. -/
def suppressMarker : Text := "verazt:ignore"

/-- Whether a line has a marker, the first one of which names the rule. -/
def lineSuppresses (rule line : Text) : Bool :=
  match Text.cut? line suppressMarker with
  | some (_, behind) =>
    match Text.fields behind with
    | name :: _ => Text.sameFold name rule
    | [] => false
  | none => false

/-- Whether a marker for the finding's rule stands from five lines above it to one line below. -/
def isSuppressed (f : Finding) (content : Text) : Bool :=
  if f.startLine ≤ 0 then false
  else
    let first := (f.startLine - 6).toNat
    let past := (f.startLine + 1).toNat
    ((content.lines.take past).drop first).any (lineSuppresses f.rule)

end Finding

end ContractAudit
