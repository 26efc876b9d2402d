import ContractAudit.Analysis.Symbols

/-!
Call graphs: which function calls which inside a program.

A call is an edge from the calling to the called function, both by qualified name. Calls that
resolve to no declared function are dropped. A modifier runs on behalf of the functions that name
it, so its calls are theirs; that takes the modifier's body, and a modifier without one is an error.
-/

namespace ContractAudit.Analysis

open Source ContractAudit.Flow

/-- The calls between functions. -/
structure CallGraph where
  callees : Table Text (List Text)
  callers : Table Text (List Text)
  /-- The functions that can be called from outside their contract, and constructors. -/
  roots : List Text
deriving Repr

/-- A modifier that a function names has no body. -/
structure MissingBody where
  modifier : Text
deriving DecidableEq, Repr

namespace CallGraph

/-- The graph without calls. -/
def empty : CallGraph := ⟨.empty, .empty, []⟩

/-- The functions that a function calls. -/
def calleesOf (g : CallGraph) (name : Text) : List Text := (g.callees.get? name).getD []

/-- The functions that call a function. -/
def callersOf (g : CallGraph) (name : Text) : List Text := (g.callers.get? name).getD []

/-- Records a call, unless it is known. -/
def addCall (g : CallGraph) (caller callee : Text) : CallGraph :=
  if (g.calleesOf caller).contains callee then g
  else
    { g with
      callees := g.callees.set caller (g.calleesOf caller ++ [callee])
      callers := g.callers.set callee (g.callersOf callee ++ [caller]) }

/-- Records the calls in instructions that run in `contract` on behalf of `caller`. -/
def addCalls (symbols : SymbolTable) (contract caller : Text) (f : LoweredFunction)
    (g : CallGraph) :
    CallGraph :=
  (f.instrs.flatMap fun (_, i) => i.calls).foldl
    (fun g name =>
      match symbols.resolve? contract name with
      | some s => g.addCall caller s.name
      | none => g)
    g

/-- Records a lowered function: whether it is a root, and its calls. -/
def addFunction (symbols : SymbolTable) (g : CallGraph) (f : LoweredFunction) : CallGraph :=
  let isRoot := f.function.isExposed || f.function.kind == .constructor
  let g := if isRoot then { g with roots := g.roots ++ [f.name] } else g
  g.addCalls symbols f.contract.name f.name f

/-- The modifiers that run for a function: for each name it lists, every modifier of that name in
its contract and the contracts that inherits from, with the contract it is declared in. -/
def modifiersOf (symbols : SymbolTable) (s : Symbol) : List (Contract × Function) :=
  s.function.modifiers.flatMap fun name =>
    (symbols.lineage s.contract.name).flatMap fun c =>
      (c.modifiers.filter (·.name == name)).map fun m => (c, m)

/-- Records the calls of a modifier on behalf of a function. A modifier that cannot be lowered adds
nothing. -/
def addModifier (symbols : SymbolTable) (s : Symbol) (g : CallGraph) (c : Contract) (m : Function) :
    Except MissingBody CallGraph :=
  match lowerAlone? ((symbols.units.get? c.name).getD s.unit) c m with
  | none => .error ⟨qualified c.name m.name⟩
  | some (.error _) => .ok g
  | some (.ok f) => .ok (g.addCalls symbols s.contract.name s.name f)

/-- The call graph of a program. The callers of each function are in byte order. -/
def ofProgram (symbols : SymbolTable) (p : Program) : Except MissingBody CallGraph := do
  let direct := p.functions.foldl (addFunction symbols) empty
  let g ← symbols.functions.entries.foldlM
    (fun g (_, s) => (modifiersOf symbols s).foldlM (fun g (c, m) => addModifier symbols s g c m) g)
    direct
  return { g with callers := g.callers.mapValues Text.sorted }

/-- The functions that can be reached from the roots by calls. -/
def reachable (g : CallGraph) : List Text :=
  let names := g.callees.entries.length + g.callers.entries.length + g.roots.length
  Search.preorder g.calleesOf (names + 1) g.roots

end CallGraph

end ContractAudit.Analysis
