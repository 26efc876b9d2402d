import ContractAudit.Text.Quoted

/-!
Failures of passes and of the machinery that runs them.

A failure has a cause that can be asked for, `Failure.hasCause`, and a wording, `Failure.message`. A
failure inside a pass is wrapped in one that names the pass.
-/

namespace ContractAudit.Plan

/-- What kind of failure the pass machinery reports. Kinds from outside have a number only. -/
inductive FailureKind where
  | circularDependency
  | passNotFound
  | executionFailed
  | dependencyNotSatisfied
  | missingArtifact
  | missingIR
  | invalidConfiguration
  | other (number : Int)
deriving DecidableEq, Repr

namespace FailureKind

/-- The kinds in order; their numbers count from one. -/
def all : List FailureKind :=
  [.circularDependency, .passNotFound, .executionFailed, .dependencyNotSatisfied, .missingArtifact,
    .missingIR, .invalidConfiguration]

/-- The kind with the given number. -/
def ofNumber (n : Int) : FailureKind :=
  if 1 ≤ n then (all[(n - 1).toNat]?).getD (.other n) else .other n

/-- The name of a kind. -/
def name : FailureKind → Text
  | .circularDependency => "circular dependency"
  | .passNotFound => "pass not found"
  | .executionFailed => "execution failed"
  | .dependencyNotSatisfied => "dependency not satisfied"
  | .missingArtifact => "missing data"
  | .missingIR => "ir not available"
  | .invalidConfiguration => "invalid configuration"
  | .other _ => "unknown error"

end FailureKind

/-- Why something went wrong. -/
inductive Failure where
  /-- An error of the analysed input or of a pass itself. -/
  | plain (message : Text)
  /-- The run was canceled. -/
  | canceled
  /-- The pass machinery refuses something. -/
  | fault (kind : FailureKind) (pass : Text) (detail : Text)
  /-- A pass failed. -/
  | inside (pass : Text) (cause : Failure)
  /-- A failure with a label in front that says where it arose. -/
  | labelled (label : Text) (cause : Failure)
deriving DecidableEq, Repr

namespace Failure

/-- A kind, with the pass in brackets and a detail behind a colon where there are any. -/
def wording (kind : FailureKind) (pass detail : Text) : Text :=
  let named : Text := if pass.isEmpty then [] else " (" ++ pass ++ ")"
  let detailed : Text := if detail.isEmpty then [] else ": " ++ detail
  kind.name ++ named ++ detailed

/-- The wording of a failure. -/
def message : Failure → Text
  | .plain message => message
  | .canceled => "context canceled"
  | .fault kind pass detail => wording kind pass detail
  | .inside pass cause => wording .executionFailed pass cause.message
  | .labelled label cause => label ++ ": " ++ cause.message

/-- The kind of a failure of the pass machinery; the outermost one counts. -/
def kind? : Failure → Option FailureKind
  | .fault kind _ _ => some kind
  | .inside _ _ => some .executionFailed
  | .labelled _ cause => cause.kind?
  | _ => none

/-- Whether the run was canceled. -/
def isCanceled : Failure → Bool
  | .canceled => true
  | .inside _ cause => cause.isCanceled
  | .labelled _ cause => cause.isCanceled
  | _ => false

/-- Whether the failure, or one that it wraps, has the given kind and names the given pass. The
empty name stands for any pass. -/
def hasCause (kind : FailureKind) (pass : Text) : Failure → Bool
  | .fault k p _ => k == kind && (pass.isEmpty || pass == p)
  | .inside p cause =>
    (kind == .executionFailed && (pass.isEmpty || pass == p)) || cause.hasCause kind pass
  | .labelled _ cause => cause.hasCause kind pass
  | _ => false

/-- A pass asks for an artifact that is not there. -/
def missingArtifact (pass artifact : Text) : Failure :=
  .fault .missingArtifact pass ("artifact " ++ artifact.quoted ++ " is absent")

/-- A pass asks for the intermediate representation before it was generated. -/
def missingIR (pass : Text) : Failure := .fault .missingIR pass "no IR has been generated"

end Failure

end ContractAudit.Plan
