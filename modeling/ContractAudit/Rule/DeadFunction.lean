import ContractAudit.Rule.Basic

/-!
Internal and private functions that no exposed function reaches. An internal one may serve a
contract outside the scan, so the report on it is less sure.
-/

namespace ContractAudit.Rule

open Analysis Source Plan

/-- The rule on functions that are never called. -/
def deadFunctionRule : RuleInfo where
  id := "SOL-DEAD-CODE"
  title := "Function is never called"
  severity := .low
  language := .solidity
  requires := [symbolTableId, callGraphId]

/-- Whether a function counts as dead when it is not reached: an internal or private function of a
contract, with a body. -/
def canBeDead (s : Symbol) : Bool :=
  s.function.kind == .function && s.function.body?.isSome && s.contract.kind == "contract" &&
    (s.function.visibility == "internal" || s.function.visibility == "private")

/-- The finding about a function. -/
def deadFunctionIn (s : Symbol) : Finding :=
  let fn := s.function
  deadFunctionRule.finding "solidity-dead-code" s.unit.path fn.line s.name "unreachable"
    (if fn.visibility == "private" then 0.85 else 0.5)
    (fn.visibility ++ " " ++ s.contract.name ++ " function " ++ fn.name ++ " is never called")
    "Unused code increases the audit surface and deployment cost."
    "Remove the function or call it where intended."
    []

/-- The functions that are never called, by name. -/
def deadFunctions (t : SymbolTable) (g : CallGraph) : List Symbol :=
  let reached := g.reachable
  ((Text.sorted t.functions.keys).filter fun name => !reached.contains name).filterMap fun name =>
    (t.functions.get? name).filter canBeDead

/-- Reports functions that are never called. -/
def deadFunction : Detector where
  info := deadFunctionRule
  run a :=
    match symbols? a, callGraph? a with
    | none, _ => .error (.missingArtifact symbolTableId symbolsKey)
    | some _, none => .error (.missingArtifact callGraphId callGraphKey)
    | some t, some g => .ok ((deadFunctions t g).map deadFunctionIn)

end ContractAudit.Rule
