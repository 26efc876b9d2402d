import ContractAudit.Rule.Basic

/-!
Version constraints that do not pin one compiler release.
-/

namespace ContractAudit.Rule

open Analysis Plan

/-- The rule on version constraints. -/
def floatingVersionRule : RuleInfo where
  id := "SOL-FLOATING-PRAGMA"
  title := "Floating pragma solidity version"
  severity := .medium
  language := .solidity
  requires := [syntaxAnalysisId]

/-- The first release with checked arithmetic. -/
def checkedArithmetic : Version := ⟨0, 8, 0⟩

/-- The finding about a version constraint. -/
def floatingVersionIn (p : VersionPragma) : Finding :=
  let unchecked : Text :=
    if p.isBefore checkedArithmetic then " admits compilers without checked arithmetic" else []
  floatingVersionRule.finding "solidity-floating-pragma" p.file p.line [] p.constraint 0.9
    ("Floating pragma solidity version " ++ p.constraint ++ unchecked)
    "Using version ranges can yield different compiler behavior across builds."
    "Pin to an exact compiler version, e.g., pragma solidity 0.8.20; and enforce in CI."
    ["SWC-103"]

/-- Reports version constraints that admit more than one version. -/
def floatingVersion : Detector where
  info := floatingVersionRule
  run a :=
    match pragmas? a with
    | none => .error (.missingArtifact syntaxAnalysisId pragmasKey)
    | some ps => .ok ((ps.filter fun p => !p.isMissing && p.isFloating).map floatingVersionIn)

end ContractAudit.Rule
