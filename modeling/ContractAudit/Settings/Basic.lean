import ContractAudit.Finding.Severity
import ContractAudit.Plan.Run
import ContractAudit.Text.Quoted

/-!
Settings of a scan.
-/

namespace ContractAudit

open Plan

/-- Findings to leave out: those of a rule, those under a path, or those of a rule under a path. -/
structure Exemption where
  rule : Text := []
  path : Text := []
  reason : Text := []
  /-- The last day on which the rule holds; empty for no end. -/
  expires : Text := []
deriving DecidableEq, Repr

/-- Whether the compiler is asked for its syntax trees, and where it is. -/
structure CompilerSettings where
  enabled : Bool := false
  path : Text := []
deriving DecidableEq, Repr

/-- Whether results are cached, and where. -/
structure CacheSettings where
  enabled : Bool := false
  dir : Text := []
deriving DecidableEq, Repr

/-- The settings of a scan. -/
structure Settings where
  severityThreshold : Text := []
  /-- The time a scan may take in milliseconds; zero for no limit. -/
  timeBudget : Int := 0
  ignore : List Exemption := []
  /-- The rules to report; empty for all. -/
  rules : List Text := []
  disabledPasses : List Text := []
  failFast : Bool := false
  parallel : Bool := false
  workers : Int := 0
  maxIterations : Int := 0
  baseline : Text := []
  compiler : CompilerSettings := {}
  cache : CacheSettings := {}
  logLevel : Text := []
deriving DecidableEq, Repr

namespace Settings

/-- The settings where no file says otherwise. -/
def default : Settings where
  severityThreshold := "low"
  failFast := true
  parallel := true
  maxIterations := 10000
  cache := { enabled := true }
  logLevel := "info"

/-- The names a severity threshold may have, in any case. -/
def severityNames : List Text := Text.ofStrings ["low", "medium", "high", "critical"]

/-- A complaint about a number below zero. -/
def negative (name : Text) (n : Int) : List Text :=
  if n < 0 then [name ++ ": must not be negative, got " ++ Text.ofInt n] else []

/-- What is wrong with settings, one complaint for each fault. -/
def faults (s : Settings) : List Text :=
  let threshold : List Text := if severityNames.contains s.severityThreshold.lower then []
    else ["severityThreshold: unknown severity " ++ s.severityThreshold.quoted]
  let idle (r : Exemption) (i : Nat) : List Text := if r.rule.isEmpty && r.path.isEmpty then
      ["ignore[" ++ Text.ofNat i ++ "]: needs a rule or a path"] else []
  threshold ++ negative "timeBudgetMs" s.timeBudget ++ negative "workers" s.workers ++
    negative "maxIterations" s.maxIterations ++ (s.ignore.zipIdx.flatMap fun (r, i) => idle r i)

/-- How passes are run. -/
def policy (s : Settings) : RunPolicy := ⟨s.failFast, s.parallel, s.workers⟩

end Settings

/-! ### Log levels -/

/-- How much is logged. -/
inductive LogLevel where
  | debug
  | info
  | warn
  | error
deriving DecidableEq, Repr

/-- The name of a level. -/
def LogLevel.name : LogLevel → Text
  | .debug => "DEBUG"
  | .info => "INFO"
  | .warn => "WARN"
  | .error => "ERROR"

/-- The level that a user names, in any case; no name stands for the usual one. -/
def LogLevel.read? (t : Text) : Option LogLevel :=
  let word := t.trim.lower
  if word == "debug" then some .debug
  else if word.isEmpty || word == "info" then some .info
  else if word == "warn" || word == "warning" then some .warn
  else if word == "error" then some .error
  else none

/-- The complaint about an unknown level. -/
def LogLevel.complaint (t : Text) : Text := "unknown log level " ++ t.quoted

end ContractAudit
