import ContractAudit.Table
import ContractAudit.Decimal.Double
import ContractAudit.Json.Decode
import ContractAudit.Json.Reader

/-!
The syntax tree that the Solidity compiler prints.

Of the tree only the path of the source, its exported symbols and its top-level nodes are read.
-/

namespace ContractAudit.Compiler

/-- A node of the syntax tree by its members. -/
abbrev Node := List (Text × Json)

/-- The syntax tree of one source file. -/
structure Output where
  path : Text
  /-- The exported names with the numbers of their declarations. -/
  symbols : Table Text (List Int)
  nodes : List Node

/-- The tree of nothing. -/
def Output.empty : Output := ⟨[], .empty, []⟩

/-- Whether every number inside a value is within the range of a double. -/
def inRange : Nat → Json → Bool
  | 0, _ => true
  | _ + 1, .num spelling => (Decimal.read? spelling).isSome
  | depth + 1, .arr items => items.all (inRange depth)
  | depth + 1, .obj members => members.all fun (_, v) => inRange depth v
  | _, _ => true

/-- The deepest nesting of a JSON text. -/
def maxDepth : Nat := 10001

/-- Reads a node over an old one, whose members stay unless they are named again. -/
def node : Json.Decoder Node
  | _, .null => some []
  | old, .obj ms => if ms.all fun (_, v) => inRange maxDepth v then some (old ++ ms) else none
  | _, _ => none

/-- Reads exported symbols. -/
def symbolTable : Json.Decoder (Table Text (List Int))
  | _, .null => some .empty
  | old, .obj ms =>
    ms.foldlM (fun t (name, v) => (Json.Decoder.list 0 .int [] v).map fun ids => t.set name ids) old
  | _, _ => none

/-- Reads a syntax tree. -/
def decoder : Json.Decoder Output :=
  .record [
    ("absolutePath", .field Output.path (fun o path => { o with path }) .text),
    ("exportedSymbols", .field Output.symbols (fun o symbols => { o with symbols }) symbolTable),
    ("nodes", .field Output.nodes (fun o nodes => { o with nodes }) (.list [] node))]

/-- Reads the JSON text of a syntax tree. -/
def readTree? (t : Text) : Option Output := (Json.read? t).bind (decoder .empty)

/-- Reads what the compiler prints: a banner without braces, if any, and a JSON text. -/
def read? (t : Text) : Option Output :=
  let behind := t.dropWhile (· != 123)
  readTree? (if behind.isEmpty then t else behind)

/-- The names of the contracts that a tree defines. -/
def Output.contracts (o : Output) : List Text :=
  o.nodes.filterMap fun n =>
    match Json.member? n "nodeType", Json.member? n "name" with
    | some (.str kind), some (.str name) => if kind == "ContractDefinition" then some name else none
    | _, _ => none

end ContractAudit.Compiler
