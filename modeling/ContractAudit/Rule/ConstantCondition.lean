import ContractAudit.Rule.Basic

/-!
Conditions over variables that always have the same value. Conditions without variables, such as the
one of an endless loop, are intended and left alone.
-/

namespace ContractAudit.Rule

open Analysis Source ContractAudit.Flow

/-- The rule on conditions. -/
def constantConditionRule : RuleInfo where
  id := "SOL-CONSTANT-CONDITION"
  title := "Condition is always true or always false"
  severity := .low
  language := .solidity
  requires := [dataFlowId]

/-- The value of a condition over variables that is always the same. -/
def constantCondition? (i : Instr) (env : Env) : Option Nat :=
  if i.op == .cond && !i.value.readNames.isEmpty then constantValue? i.value env else none

/-- The finding about an instruction, if there is one. -/
def constantConditionIn? (fn : LoweredFunction) (i : Instr) (env : Env) : Option Finding :=
  (constantCondition? i env).map fun n =>
    let verdict : Text := if n == 0 then "false" else "true"
    constantConditionRule.finding "solidity-constant-condition" fn.unit.path i.line fn.name
      i.value.text 0.7
      ("Condition " ++ i.value.text ++ " is always " ++ verdict)
      "One branch can never execute, which often hides a logic error."
      "Remove the dead branch or fix the condition."
      []

/-- The findings about a function. -/
def constantConditionsIn (f : FlowFacts) : List Finding :=
  f.constantsBefore.filterMap fun (_, i, env) => constantConditionIn? f.function i env

/-- Reports conditions that always have the same value. -/
def constantCondition : Detector where
  info := constantConditionRule
  run a := do return (← factsFor constantConditionRule a).flatMap constantConditionsIn

end ContractAudit.Rule
