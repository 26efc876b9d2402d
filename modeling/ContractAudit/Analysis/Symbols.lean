import ContractAudit.Table
import ContractAudit.Flow.Program

/-!
Symbol tables: the contracts of all sources and their functions.

Of several contracts with one name the first counts, and the others are noted as duplicates. Of
several functions of a contract with one name the first counts. `lineage` lists a contract with
everything it inherits from.
-/

namespace ContractAudit.Analysis

open Source ContractAudit.Flow

/-- A function with the declarations it stands in. -/
structure Symbol where
  unit : SourceUnit
  contract : Contract
  function : Function
deriving Repr

/-- The contract and the function, as in `Vault.withdraw`. -/
def Symbol.name (s : Symbol) : Text := qualified s.contract.name s.function.name

/-- The contracts and functions of a set of source units, by name. -/
structure SymbolTable where
  contracts : Table Text Contract
  /-- The unit of each contract. -/
  units : Table Text SourceUnit
  functions : Table Text Symbol
  /-- The names that are declared once more, once for every time. -/
  duplicates : List Text
deriving Repr

namespace SymbolTable

/-- The table without symbols. -/
def empty : SymbolTable := ⟨.empty, .empty, .empty, []⟩

/-- Adds a function, unless there is one with its name. -/
def addFunction (t : SymbolTable) (s : Symbol) : SymbolTable :=
  if t.functions.has s.name then t else { t with functions := t.functions.set s.name s }

/-- Adds a contract with its functions, or notes it as a duplicate. -/
def addContract (t : SymbolTable) (u : SourceUnit) (c : Contract) : SymbolTable :=
  if t.contracts.has c.name then { t with duplicates := t.duplicates ++ [c.name] }
  else
    c.functions.foldl (fun t f => t.addFunction ⟨u, c, f⟩)
      { t with contracts := t.contracts.set c.name c, units := t.units.set c.name u }

/-- The symbols of a list of source units. -/
def ofUnits (units : List SourceUnit) : SymbolTable :=
  units.foldl (fun t u => u.contracts.foldl (fun t c => t.addContract u c) t) empty

/-- The bases of a contract that are known. -/
def knownBases (t : SymbolTable) (name : Text) : List Text :=
  match t.contracts.get? name with
  | some c => c.bases.filter t.contracts.has
  | none => []

/-- The contract with the given name followed by everything it inherits from, depth first and each
contract once. Unknown bases are passed over. -/
def lineage (t : SymbolTable) (name : Text) : List Contract :=
  if t.contracts.has name then
    (Search.preorder t.knownBases (t.contracts.entries.length + 1) [name]).filterMap
      t.contracts.get?
  else []

/-- The function a name stands for inside a contract: its own, or the first inherited one. -/
def resolve? (t : SymbolTable) (contract function : Text) : Option Symbol :=
  (t.lineage contract).findSome? fun c => t.functions.get? (qualified c.name function)

end SymbolTable

end ContractAudit.Analysis
