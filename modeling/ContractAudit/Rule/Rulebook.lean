import ContractAudit.Rule.ConstantCondition
import ContractAudit.Rule.DeadFunction
import ContractAudit.Rule.FloatingVersion
import ContractAudit.Rule.LedgerWrite
import ContractAudit.Rule.Origin
import ContractAudit.Rule.Reentrancy
import ContractAudit.Rule.UncheckedCall
import ContractAudit.Rule.UnusedAssignment

/-!
Rulebooks: the detectors of a scan.

A detector runs when every pass it requires has completed. One that fails contributes nothing.
-/

namespace ContractAudit.Rule

open Analysis Plan

/-- The built-in detectors, in order. -/
def builtinDetectors : List Detector :=
  [reentrancy, origin, floatingVersion, uncheckedCall, unusedAssignment, constantCondition,
    deadFunction, ledgerWrite]

/-- The rules of detectors by id. -/
def rulesOf (ds : List Detector) : List RuleInfo :=
  (ds.map (·.info)).mergeSort fun a b => Text.le a.id b.id

/-- Whether every pass that a detector requires has completed. -/
def isReady (a : Audit) (d : Detector) : Bool := d.info.requires.all a.isCompleted

/-- The findings of a detector; none when it fails. -/
def findingsOf (a : Audit) (d : Detector) : List Finding :=
  match d.run a with
  | .ok fs => fs
  | .error _ => []

/-- The findings of all detectors that can run, in order. A canceled run ends with the first
detector that could run. -/
def detect (ds : List Detector) (canceled : Bool) (a : Audit) : List Finding × Option Failure :=
  let ready := ds.filter (isReady a)
  if canceled && !ready.isEmpty then ([], some (.labelled "detectors interrupted" .canceled))
  else (Finding.sorted (ready.flatMap (findingsOf a)), none)

end ContractAudit.Rule
