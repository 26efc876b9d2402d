import ContractAudit.Fixpoint.Solver
import ContractAudit.Rule.Basic

/-!
Ledger writes of chaincode that are reached without a check of the client's identity.

Whether the identity has been checked is a forward data-flow fact: yes on every path, on none, or
(top) on some.
-/

namespace ContractAudit.Rule

open Analysis ContractAudit.Flow Domain Fixpoint Plan

/-- The rule on ledger writes. -/
def ledgerWriteRule : RuleInfo where
  id := "FAB-PUTSTATE-NO-IDENTITY"
  title := "Ledger write without client identity check"
  severity := .high
  language := .go
  requires := [chaincodeId]

/-- The calls that look at the client's identity. -/
def identityChecks : List Text := Text.ofStrings [
  "GetMSPID", "GetID", "GetCreator", "GetX509Certificate", "AssertAttributeValue",
  "GetAttributeValue", "HasAttribute"]

/-- The calls that write to the ledger. -/
def ledgerWrites : List Text :=
  Text.ofStrings ["PutState", "DelState", "PutPrivateData", "DelPrivateData"]

/-- Whether the identity has been checked, forward. -/
def identityProblem : Problem ChaincodeInstr (Flat Bool) where
  lattice := flat Bool
  transfer :=
    { stmt := fun i fact => if identityChecks.contains i.callee then .value true else fact }
  direction := .forward
  limit := 0

/-- The ledger writes of a function that are reached without a check, and whether a check is made on
some path. -/
def uncheckedWrites (f : ChaincodeFunction) : List (ChaincodeInstr × Bool) :=
  let solution := identityProblem.solve f.graph (.value false)
  (identityProblem.walk f.graph solution).filterMap fun (_, _, i, fact) =>
    if ledgerWrites.contains i.callee && fact != .bottom && fact != .value true then
      some (i, fact == .top)
    else none

/-- The finding about a ledger write. -/
def ledgerWriteIn (f : ChaincodeFunction) (i : ChaincodeInstr) (onSomePath : Bool) : Finding :=
  let how : Text :=
    if onSomePath then " reachable on a path without client identity validation"
    else " without client identity validation"
  ledgerWriteRule.finding "fabric-putstate-identity" f.file i.line f.name i.callee
    (if onSomePath then 0.55 else 0.8)
    (i.callee ++ how)
    "Validate client identity, attributes or MSP before writing to the ledger."
    "Use the cid package checks before each write path."
    []

/-- Reports ledger writes without a check. -/
def ledgerWrite : Detector where
  info := ledgerWriteRule
  run a :=
    match chaincode? a with
    | none => .error (.missingArtifact chaincodeId chaincodeKey)
    | some fs => .ok (fs.flatMap fun f =>
      (uncheckedWrites f).map fun (i, onSomePath) => ledgerWriteIn f i onSomePath)

end ContractAudit.Rule
