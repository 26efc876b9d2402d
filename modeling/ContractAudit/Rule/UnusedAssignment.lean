import ContractAudit.Rule.Basic

/-!
Assignments to local variables whose value is never read.
-/

namespace ContractAudit.Rule

open Analysis ContractAudit.Flow Domain

/-- The rule on assigned values. -/
def unusedAssignmentRule : RuleInfo where
  id := "SOL-UNUSED-ASSIGNMENT"
  title := "Assigned value is never used"
  severity := .low
  language := .solidity
  requires := [dataFlowId]

/-- The variables that an instruction assigns in vain, given the variables that are read behind it.
Partial assignments, state writes, external calls and made-up variables do not count. -/
def assignedInVain (i : Instr) (live : FinSet Var) : List Var :=
  let stores := i.op == .assign || i.op == .declare
  if !stores || i.value.isEmpty || i.isPartial || !i.external.isEmpty || !i.stateWrites.isEmpty then
    []
  else i.defs.filter fun v => !Text.startsWith v "%" && !live.has v

/-- The findings about a function. -/
def unusedAssignmentsIn (f : FlowFacts) : List Finding :=
  let fn := f.function
  f.liveAfter.flatMap fun (_, i, live) =>
    (assignedInVain i live).map fun v =>
      unusedAssignmentRule.finding "solidity-unused-assignment" fn.unit.path i.line fn.name v 0.75
        ("Value assigned to " ++ v ++ " is never used")
        "A dead store usually means a forgotten check or a misspelled variable."
        "Remove the assignment or use the value."
        []

/-- Reports assignments whose value is never read. -/
def unusedAssignment : Detector where
  info := unusedAssignmentRule
  run a := do return (← factsFor unusedAssignmentRule a).flatMap unusedAssignmentsIn

end ContractAudit.Rule
