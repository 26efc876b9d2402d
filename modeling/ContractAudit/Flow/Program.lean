import ContractAudit.Flow.Lowering

/-!
Programs: the lowered functions of a set of source units.

A function that cannot be lowered is reported and left out; the others are still there. The state
variables visible in a function are those of its contract and of the contracts it inherits from.
-/

namespace ContractAudit.Flow

open Source (Contract Function SourceUnit Stmt)

/-- A function body lowered to a control-flow graph. -/
structure LoweredFunction where
  unit : SourceUnit
  contract : Contract
  function : Function
  graph : Graph Instr
  params : List Var
  /-- The state variables visible in the function, inherited ones included. -/
  stateVars : List Text
deriving Repr

/-- The name of a member of a contract. -/
def qualified (contract member : Text) : Text := contract ++ "." ++ member

/-- The contract and the function, as in `Vault.withdraw`. -/
def LoweredFunction.name (f : LoweredFunction) : Text := qualified f.contract.name f.function.name

/-- The instructions of a function with their blocks, in ascending order of the blocks. -/
def LoweredFunction.instrs (f : LoweredFunction) : List (Block Instr × Instr) :=
  f.graph.blocks.flatMap fun b => b.stmts.map fun i => (b, i)

/-- The contract of a list with the given name; of several the last one counts. -/
def lastNamed? (contracts : List Contract) (name : Text) : Option Contract :=
  contracts.reverse.find? (·.name == name)

/-- The contracts a contract inherits from, itself first, depth first and each name once. Bases that
are not in `contracts` are passed over. -/
def ancestry (c : Contract) (contracts : List Contract) : List Contract :=
  let find? (name : Text) := if name == c.name then some c else lastNamed? contracts name
  let bases (name : Text) := ((find? name).map fun c =>
    c.bases.filter fun b => (find? b).isSome).getD []
  (Search.preorder bases (contracts.length + 2) [c.name]).filterMap find?

/-- The names of the state variables visible in a contract. -/
def visibleState (c : Contract) (contracts : List Contract) : List Text :=
  distinct ((ancestry c contracts).flatMap fun c => c.stateVars.map (·.name))

/-- Lowers the body of a function of contract `c` in which the state variables `state` are visible.
Parameters and named return values are its first locals. -/
def lowerMember (u : SourceUnit) (c : Contract) (f : Function) (state : List Text) (body : Stmt) :
    Except LowerError LoweredFunction := do
  let params := (f.params.map (·.name)).filter (!·.isEmpty)
  let scope : Scope := ⟨state, params ++ f.namedReturns⟩
  let graph ← lowerBody (qualified c.name f.name) scope f.namedReturns body
  return { unit := u, contract := c, function := f, graph, params, stateVars := state }

/-- Lowers one function by itself: only the state variables of its own contract are visible. There
is nothing to lower in a function without a body. -/
def lowerAlone? (u : SourceUnit) (c : Contract) (f : Function) :
    Option (Except LowerError LoweredFunction) :=
  f.body?.map (lowerMember u c f (visibleState c [c]))

/-- A function that could not be lowered. -/
structure LowerFailure where
  function : Text
  error : LowerError
deriving DecidableEq, Repr

/-- The wording of a failure. -/
def LowerFailure.message (f : LowerFailure) : Text := f.function ++ ": " ++ f.error.message

/-- The lowered functions of a set of source units, in source order. -/
structure Program where
  functions : List LoweredFunction
deriving Repr

/-- The function with the given name; of several the last one counts. -/
def Program.lookup? (p : Program) (name : Text) : Option LoweredFunction :=
  p.functions.reverse.find? (·.name == name)

/-- Lowers every function of the units that has a body. -/
def lower (units : List SourceUnit) : Program × List LowerFailure :=
  let contracts := units.flatMap (·.contracts)
  let results := units.flatMap fun u => u.contracts.flatMap fun c =>
    let state := visibleState c contracts
    c.functions.filterMap fun f => f.body?.map fun body =>
      match lowerMember u c f state body with
      | .ok lowered => Sum.inl lowered
      | .error error => Sum.inr (⟨qualified c.name f.name, error⟩ : LowerFailure)
  (⟨results.filterMap Sum.getLeft?⟩, results.filterMap Sum.getRight?)

end ContractAudit.Flow
