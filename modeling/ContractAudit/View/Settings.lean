import ContractAudit.Finding.Baseline
import ContractAudit.Settings.Basic
import ContractAudit.View.Basic

/-!
JSON views of settings and baselines.
-/

namespace ContractAudit.View

/-- Settings. Groups of them are arrays. -/
def settings (s : Settings) : Json :=
  object [("severityThreshold", text s.severityThreshold), ("timeBudgetMs", .int s.timeBudget),
    ("plugins", texts s.rules), ("disabledPasses", texts s.disabledPasses),
    ("failFast", .bool s.failFast), ("parallel", .bool s.parallel), ("workers", .int s.workers),
    ("maxIterations", .int s.maxIterations), ("baseline", text s.baseline),
    ("logLevel", text s.logLevel),
    ("solc", .arr [.bool s.compiler.enabled, text s.compiler.path]),
    ("cache", .arr [.bool s.cache.enabled, text s.cache.dir]),
    ("ignore", list (fun r => texts [r.rule, r.path, r.reason, r.expires]) s.ignore)]

/-- How passes are run. -/
def policy (p : Plan.RunPolicy) : Json := .arr [.bool p.failFast, .bool p.parallel, .int p.workers]

/-- A baseline. -/
def baseline (b : Baseline) : Json :=
  object [("fingerprints", table .bool b.fingerprints), ("generatedAt", .str b.generatedAt.text)]

end ContractAudit.View
