import ContractAudit.Rule.Basic

/-!
Low-level calls whose success flag is thrown away or never read.
-/

namespace ContractAudit.Rule

open Analysis ContractAudit.Flow Domain

/-- The rule on success flags. -/
def uncheckedCallRule : RuleInfo where
  id := "SOL-UNCHECKED-LOWLEVEL"
  title := "Unchecked low-level calls"
  severity := .high
  language := .solidity
  requires := [dataFlowId]

/-- The calls that return a success flag. A transfer reverts by itself. -/
def flagReturning : List Text := Text.ofStrings ["call", "delegatecall", "staticcall", "send"]

/-- Whether the success flag of an instruction is lost, given the variables that are read behind
it. -/
def losesFlag (i : Instr) (live : FinSet Var) : Bool :=
  flagReturning.contains i.external && i.op != .cond && (i.op == .call || !i.defs.any live.has)

/-- The findings about a function. -/
def uncheckedCallsIn (f : FlowFacts) : List Finding :=
  let fn := f.function
  (f.liveAfter.filter fun (_, i, live) => losesFlag i live).map fun (_, i, _) =>
    uncheckedCallRule.finding "solidity-unchecked-calls" fn.unit.path i.line fn.name
      i.value.text 0.8
      ("Return value of low-level " ++ i.external ++ " is not checked")
      "call/delegatecall/staticcall/send return a success flag that must be handled."
      "Capture the boolean return and handle failures (require/if/rollback)."
      ["SWC-104"]

/-- Reports lost success flags. -/
def uncheckedCall : Detector where
  info := uncheckedCallRule
  run a := do return (← factsFor uncheckedCallRule a).flatMap uncheckedCallsIn

end ContractAudit.Rule
