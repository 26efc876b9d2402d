import ContractAudit.Rule.Basic

/-!
Decisions on the origin of a transaction.

A condition that reads `tx.origin` is reported. Comparing it with `msg.sender` only asks whether the
caller is an account and no contract, so a condition that reads both is left alone.
-/

namespace ContractAudit.Rule

open Analysis Source ContractAudit.Flow Plan

/-- The rule on the origin of transactions. -/
def originRule : RuleInfo where
  id := "SOL-TX-ORIGIN"
  title := "tx.origin used for authorization"
  severity := .high
  language := .solidity
  requires := [irGeneration]

/-- Whether an instruction decides on the origin alone. -/
def decidesOnOrigin (i : Instr) : Bool :=
  i.op == .cond && i.value.readsTxOrigin && !i.value.mentions "msg.sender"

/-- The findings about a function. -/
def originIn (f : LoweredFunction) : List Finding :=
  (f.instrs.filter fun (_, i) => decidesOnOrigin i).map fun (_, i) =>
    originRule.finding "solidity-tx-origin" f.unit.path i.line f.name i.value.text 0.85
      "tx.origin used in authorization logic"
      "tx.origin is susceptible to phishing through intermediate contracts; use msg.sender instead."
      "Replace tx.origin with msg.sender and implement proper access control."
      ["SWC-115"]

/-- Reports decisions on the origin of a transaction. -/
def origin : Detector where
  info := originRule
  run a :=
    match a.ir? with
    | none => .error (.missingIR irGeneration)
    | some p => .ok (p.functions.flatMap originIn)

end ContractAudit.Rule
