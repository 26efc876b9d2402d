import ContractAudit.Source.Constant
import ContractAudit.Analysis.Symbols

/-!
Type indexes: declared types, and the values of constant state variables.

Constants may refer to each other in any order, so they are folded in rounds until a round finds no
new value. Every round but the last finds one, which bounds their number.
-/

namespace ContractAudit.Analysis

open Source ContractAudit.Flow

/-- Declared types and folded constants, by contract or function and then by variable. -/
structure TypeIndex where
  symbols : SymbolTable
  stateTypes : Table Text (Table Text Text)
  constants : Table Text (Table Text Nat)
  /-- The types of parameters and named return values. -/
  locals : Table Text (Table Text Text)
deriving Repr

namespace TypeIndex

/-- The entry for a variable in the first table, along the inheritance of a contract, that has
one. -/
def inherited? {α : Type} (symbols : SymbolTable) (tables : Table Text (Table Text α))
    (contract name : Text) : Option α :=
  (symbols.lineage contract).findSome? fun c =>
    (tables.get? c.name).bind fun entries => entries.get? name

/-- The type of a state variable visible in a contract. -/
def typeOfState? (t : TypeIndex) (contract name : Text) : Option Text :=
  inherited? t.symbols t.stateTypes contract name

/-- The value of a constant visible in a contract. -/
def constant? (t : TypeIndex) (contract name : Text) : Option Nat :=
  inherited? t.symbols t.constants contract name

/-- The constants visible in a contract. -/
def env (t : TypeIndex) (contract : Text) : Env := t.constant? contract

/-- Folds one state variable of a contract, unless it is no constant or folded already. -/
def foldOne (t : TypeIndex) (contract : Text) (v : StateVar) : TypeIndex :=
  let known := (t.constants.get? contract).getD .empty
  if !v.isConstant || v.value.isEmpty || known.has v.name then t
  else
    match constantValue? v.value (t.env contract) with
    | some n => { t with constants := t.constants.set contract (known.set v.name n) }
    | none => t

/-- Folds every state variable once, in order. -/
def foldRound (t : TypeIndex) : TypeIndex :=
  t.symbols.contracts.entries.foldl
    (fun t (name, c) => c.stateVars.foldl (fun t v => t.foldOne name v) t) t

/-- The number of folded constants. -/
def folded (t : TypeIndex) : Nat := (t.constants.entries.flatMap fun (_, cs) => cs.entries).length

/-- Folds in rounds until one finds nothing new. -/
def foldRounds : Nat → TypeIndex → TypeIndex
  | 0, t => t
  | fuel + 1, t =>
    let next := t.foldRound
    if next.folded == t.folded then t else foldRounds fuel next

/-- The types of the parameters and named return values of a function. -/
def localTypes (f : Function) : Table Text Text :=
  .ofList (((f.params ++ f.returns).filter (!·.name.isEmpty)).map fun p => (p.name, p.type))

/-- The index of a symbol table before any constant is folded. Of several functions with one name
the last one's locals count. -/
def start (symbols : SymbolTable) : TypeIndex :=
  { symbols
    stateTypes := .ofList (symbols.contracts.entries.map fun (name, c) =>
      (name, .ofList (c.stateVars.map fun v => (v.name, v.type))))
    constants := .ofList (symbols.contracts.entries.map fun (name, _) => (name, .empty))
    locals := .ofList (symbols.contracts.entries.flatMap fun (name, c) =>
      c.functions.map fun f => (qualified name f.name, localTypes f)) }

/-- The index of a symbol table. A round finds a constant or is the last one. -/
def ofSymbols (symbols : SymbolTable) : TypeIndex :=
  let vars := (symbols.contracts.entries.flatMap fun (_, c) => c.stateVars).length
  foldRounds (vars + 1) (start symbols)

end TypeIndex

end ContractAudit.Analysis
