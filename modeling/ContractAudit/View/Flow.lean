import ContractAudit.Fixpoint.Classic
import ContractAudit.Flow.Program
import ContractAudit.View.Source

/-!
JSON views of control-flow graphs and of solutions over them.
-/

namespace ContractAudit.View

open ContractAudit.Flow Domain Fixpoint

/-- A list of blocks by their numbers. -/
def blockIds (ids : List BlockId) : Json := list Json.int ids

/-- The members of a graph. -/
def graphMembers {σ : Type} (stmt : σ → Json) (g : Graph σ) : List (String × Json) :=
  let block (b : Block σ) := object [("id", .int b.id), ("stmts", list stmt b.stmts),
    ("term", text b.term.text), ("succs", blockIds b.succs), ("preds", blockIds b.preds),
    ("defs", texts b.defs), ("uses", texts b.exposed), ("upward", texts b.exposed),
    ("exit", .bool b.isExit)]
  [("name", text g.name), ("entry", .int g.entry), ("exits", blockIds g.exits),
    ("rpo", blockIds g.order), ("blocks", list block g.blocks)]

/-- An instruction. -/
def instr (i : Instr) : Json :=
  object [("op", text i.op.name), ("def", texts i.defs), ("use", texts i.uses),
    ("value", expr i.value), ("partial", .bool i.isPartial), ("assignOp", text i.assignOp),
    ("stateWrite", texts i.stateWrites), ("external", text i.external), ("calls", texts i.calls),
    ("line", .nat i.line), ("text", text i.text)]

/-- A lowered function, with its graph in the language of graph drawings if wanted. -/
def lowered (drawn : Bool) (f : LoweredFunction) : Json :=
  object (graphMembers instr f.graph ++ [("params", texts f.params),
    ("stateVars", texts (Text.sorted f.stateVars))] ++
    if drawn then [("dot", text f.graph.dot)] else [])

/-- The members of a solution, with the facts of the given blocks. -/
def solutionMembers {L : Type} (fact : L → Json) (bottom : L) (ids : List BlockId)
    (s : Solution L) :
    List (String × Json) :=
  let factOf (t : Table BlockId L) (id : BlockId) := fact ((t.get? id).getD bottom)
  [("iterations", .nat s.iterations), ("converged", .bool s.converged),
    ("blocks", list (fun id => .arr [.int id, factOf s.entry id, factOf s.exit id]) ids)]

/-- A problem solved on a graph, with the fact at every statement. -/
def solved {σ L : Type} (fact : L → Json) (p : Problem σ L) (g : Graph σ) (initial : L) : Json :=
  let s := p.solve g initial
  object (solutionMembers fact p.lattice.bottom g.ids s ++ [("direction", text p.direction.name),
    ("walk", list (fun (b, n, _, f) => .arr [.int b.id, .nat n, fact f]) (p.walk g s))])

/-- The order in which definitions are listed: by variable, block and statement. -/
def definitionLe (a b : Definition) : Bool :=
  if a.var != b.var then Text.le a.var b.var
  else if a.block != b.block then a.block ≤ b.block else a.index ≤ b.index

/-- A set of definitions. -/
def definitions (s : FinSet Definition) : Json :=
  list (fun d => .arr [text d.var, .int d.block, .int d.index]) (s.elems.mergeSort definitionLe)

/-- A value of a flat lattice. -/
def flatValue : Flat Text → Json
  | .bottom => .str "bottom"
  | .top => .str "top"
  | .value v => object [("v", text v)]

/-- A fact of a lattice of the given shape. -/
def fact : (s : Shape) → s.Fact → Json
  | .powerset, f => set f
  | .flat, f => flatValue f
  | .pointwise v, f => table (fact v) f
  | .product a b, (x, y) => .arr [fact a x, fact b y]

end ContractAudit.View
