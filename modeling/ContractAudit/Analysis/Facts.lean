import ContractAudit.Analysis.Types
import ContractAudit.Fixpoint.Classic

/-!
Data-flow facts of lowered functions.

Four problems are solved for every function: live variables, reaching definitions, constant
propagation over words, and the external calls that come before an instruction.
-/

namespace ContractAudit.Analysis

open Source ContractAudit.Flow Domain Fixpoint

/-! ### Constant propagation -/

/-- The values of variables. A variable that is missing has not been assigned on any path. -/
abbrev KnownValues := Table Var (Flat Nat)

/-- The names with known values under a fact: what the fact says about a variable counts, and the
constants of the contract only for variables it says nothing about. -/
def constEnv (constants : Env) (fact : KnownValues) : Env := fun name =>
  match fact.get? name with
  | some v => v.value?
  | none => constants name

/-- The expression `name op (right)`. -/
def applied (name op : Text) (right : Expr) : Expr :=
  [⟨.ident, name, 0⟩, ⟨.punct, op, 0⟩, ⟨.punct, "(", 0⟩] ++ right ++ [⟨.punct, ")", 0⟩]

/-- The expression whose value an instruction stores in its only target, if there is one. A
declaration without initialiser stores zero. -/
def storedValue? (i : Instr) (target : Var) : Option Expr :=
  match i.op with
  | .declare => some (if i.value.isEmpty then [⟨.number, "0", 0⟩] else i.value)
  | .cond => some i.value
  | .assign =>
    some (if i.assignOp == "=" then i.value
      else applied target (Text.trimEnd i.assignOp "=") i.value)
  | .step =>
    some (applied target (if i.value.mentions "++" then "+" else "-") [⟨.number, "1", 0⟩])
  | _ => none

/-- The effect of an instruction on the values of variables. What it defines is unknown behind it,
unless it wholly defines one variable without an external call and the value can be folded. -/
def transferConst (constants : Env) (i : Instr) (fact : KnownValues) : KnownValues :=
  let unknown := i.defs.foldl (fun t v => t.set v Flat.top) fact
  match i.defs with
  | [target] =>
    if i.isPartial || !i.external.isEmpty then unknown
    else
      match (storedValue? i target).bind fun e => constantValue? e (constEnv constants fact) with
      | some n => unknown.set target (.value n)
      | none => unknown
  | _ => unknown

/-- Constant propagation, forward. -/
def constants (env : Env) (limit : Int) : Problem Instr KnownValues where
  lattice := pointwise Var (flat Nat)
  transfer := { stmt := transferConst env }
  direction := .forward
  limit

/-- The values at the entry of a function: parameters are unknown, named return values are zero. -/
def initialConst (f : LoweredFunction) : KnownValues :=
  .ofList (f.params.map (fun p => (p, Flat.top)) ++
    f.function.namedReturns.map fun r => (r, Flat.value 0))

/-! ### External calls -/

/-- The lines of the external calls that may have been made, and whether one was made on every path
(`true`), on none (`false`), or on some (top). -/
abbrev CallHistory := FinSet Nat × Flat Bool

/-- The effect of an instruction on the external calls made. -/
def transferCalls (i : Instr) (fact : CallHistory) : CallHistory :=
  if i.external.isEmpty then fact else (fact.1.insert i.line, .value true)

/-- External calls before an instruction, forward. -/
def callHistories (limit : Int) : Problem Instr CallHistory where
  lattice := product (powerset Nat) (flat Bool)
  transfer := { stmt := transferCalls }
  direction := .forward
  limit

/-! ### All facts of a function -/

/-- The data-flow facts of one function. -/
structure FlowFacts where
  function : LoweredFunction
  /-- The constants of the contract. -/
  env : Env
  limit : Int
  live : Solution (FinSet Var)
  reaching : Solution (FinSet Definition)
  constants : Solution KnownValues
  calls : Solution CallHistory

namespace FlowFacts

/-- Solves every problem for a function. -/
def solve (f : LoweredFunction) (types : TypeIndex) (limit : Int) : FlowFacts :=
  let env := types.env f.contract.name
  let params := f.params.map fun p => (⟨p, unknownSite, unknownSite⟩ : Definition)
  { function := f
    env, limit
    live := { liveness Instr with limit }.solve f.graph .empty
    reaching := { Fixpoint.reaching Instr with limit }.solve f.graph (.ofList params)
    constants := (Analysis.constants env limit).solve f.graph (initialConst f)
    calls := (callHistories limit).solve f.graph (.empty, .value false) }

/-- Whether every problem was solved within the limit. -/
def converged (f : FlowFacts) : Bool :=
  f.live.converged && f.reaching.converged && f.constants.converged && f.calls.converged

/-- Every instruction with the variables live behind it. -/
def liveAfter (f : FlowFacts) : List (Block Instr × Instr × FinSet Var) :=
  ((liveness Instr).walk f.function.graph f.live).map fun (b, _, i, live) => (b, i, live)

/-- Every instruction with the values known before it. -/
def constantsBefore (f : FlowFacts) : List (Block Instr × Instr × Env) :=
  ((Analysis.constants f.env f.limit).walk f.function.graph f.constants).map
    fun (b, _, i, fact) => (b, i, constEnv f.env fact)

/-- Every instruction with the external calls made before it. -/
def callsBefore (f : FlowFacts) : List (Block Instr × Instr × CallHistory) :=
  ((callHistories f.limit).walk f.function.graph f.calls).map fun (b, _, i, fact) => (b, i, fact)

end FlowFacts

/-- The facts of functions by their qualified names. -/
abbrev Facts := Table Text FlowFacts

/-- The facts of every function of a program. Of several functions with one name the last one
counts. -/
def Facts.ofProgram (p : Program) (types : TypeIndex) (limit : Int) : Facts :=
  .ofList (p.functions.map fun f => (f.name, FlowFacts.solve f types limit))

end ContractAudit.Analysis
