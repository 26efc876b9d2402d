import ContractAudit.Rule.Basic

/-!
State written after an external call.

A write to a state variable that an external call can precede is reported, the first one of each
function in the order of its graph. The report is surer when a call precedes the write on every
path.
-/

namespace ContractAudit.Rule

open Analysis Source ContractAudit.Flow Domain

/-- The rule on writes behind external calls. -/
def reentrancyRule : RuleInfo where
  id := "SOL-REENTRANCY"
  title := "State written after external call"
  severity := .high
  language := .solidity
  requires := [dataFlowId]

/-- Whether a function names a modifier that keeps it from being entered again. -/
def isGuarded (f : Function) : Bool := f.modifiers.any fun m => m.lower.contains "nonreentrant"

/-- Whether an instruction writes state when an external call may have been made before it. -/
def writesAfterCall (i : Instr) (fact : CallHistory) : Bool :=
  !i.stateWrites.isEmpty && fact.1.size != 0 && fact.2 != .bottom

/-- The first write of a function behind an external call, with the calls before it. -/
def firstWrite? (f : FlowFacts) : Option (Instr × CallHistory) :=
  (f.callsBefore.find? fun (_, i, fact) => writesAfterCall i fact).map fun (_, i, fact) => (i, fact)

/-- The least of some lines, or zero. -/
def firstLine (lines : FinSet Nat) : Nat := (lines.elems.min?).getD 0

/-- The finding about a function, if there is one. -/
def reentrancyIn? (f : FlowFacts) : Option Finding :=
  let fn := f.function
  if fn.function.isReadOnly || isGuarded fn.function then none
  else
    (firstWrite? f).map fun (write, calls) =>
      reentrancyRule.finding "solidity-reentrancy" fn.unit.path write.line fn.name
        (Text.joinWith "," write.stateWrites)
        (if calls.2 == .value true then 0.9 else 0.6)
        (fn.name ++ " writes " ++ Text.joinWith ", " write.stateWrites ++
          " after the external call at line " ++ Text.ofNat (firstLine calls.1))
        "The callee can re-enter before the state update and observe stale state."
        "Apply checks-effects-interactions or add a reentrancy guard."
        ["SWC-107"]

/-- Reports state writes behind external calls. -/
def reentrancy : Detector where
  info := reentrancyRule
  run a := do return (← factsFor reentrancyRule a).filterMap reentrancyIn?

end ContractAudit.Rule
