import ContractAudit.Finding.Baseline
import ContractAudit.Finding.Ignore

/-!
Which findings are reported.
-/

namespace ContractAudit.Finding

open Calendar

/-- Whether a finding is severe enough, is neither ignored nor suppressed, and has a rule that is to
be reported. `source?` gives the content of a file. -/
def isReportable (s : Settings) (source? : Text → Option Text) (now : Instant) (f : Finding) :
    Bool :=
  f.severity.atLeast (Severity.read s.severityThreshold) &&
    !f.isExempt s.ignore now &&
    !((source? f.file).any f.isSuppressed) &&
    (s.rules.isEmpty || s.rules.any fun r => Text.sameFold r.trim f.rule)

/-- Whether a baseline does not accept a finding. One without a fingerprint is never accepted. -/
def isNew (b : Baseline) (f : Finding) : Bool := f.fingerprint.isEmpty || !b.accepts f.fingerprint

/-- The findings to report: reportable ones that are new. -/
def select (s : Settings) (source? : Text → Option Text) (now : Instant) (b : Baseline)
    (fs : List Finding) : List Finding :=
  fs.filter fun f => f.isReportable s source? now && f.isNew b

end ContractAudit.Finding
