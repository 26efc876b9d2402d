import ContractAudit.Analysis.Passes
import ContractAudit.Finding.Basic

/-!
Rules and the detectors that check them.

A detector reads the artifacts of the passes that its rule requires and reports findings. It never
looks at the sources themselves.
-/

namespace ContractAudit.Rule

open Analysis Plan

/-- The language of the contracts a rule is about. -/
inductive Language where
  | solidity
  | go
  | other (name : Text)
deriving DecidableEq, Repr

/-- The name of a language. -/
def Language.name : Language → Text
  | .solidity => "solidity"
  | .go => "go"
  | .other name => name

/-- What a rule is called and needs. -/
structure RuleInfo where
  id : Text
  title : Text
  severity : Severity
  language : Language
  /-- The passes whose artifacts the rule reads. -/
  requires : List Text
  tags : List Text := []
deriving DecidableEq, Repr

/-- A rule with the check for it. -/
structure Detector where
  info : RuleInfo
  run : Audit → Except Failure (List Finding)

/-- A finding of a rule at a line. `key` tells findings of one rule about one entity apart. -/
def RuleInfo.finding (r : RuleInfo) (detector file : Text) (line : Int) (entity key : Text)
    (confidence : Float) (message rationale remediation : Text) (references : List Text) :
    Finding where
  rule := r.id
  severity := r.severity
  confidence
  detector
  file
  startLine := line
  endLine := line
  snippet := []
  entity
  message
  rationale
  remediation
  references
  fingerprint := Finding.fingerprintOf r.id file entity line key

/-- The data-flow facts of all functions, by name. -/
def factsFor (r : RuleInfo) (a : Audit) : Except Failure (List FlowFacts) :=
  match facts? a with
  | none => .error (.labelled r.id (.missingArtifact dataFlowId factsKey))
  | some fs => .ok ((Text.sorted fs.keys).filterMap fs.get?)

end ContractAudit.Rule
