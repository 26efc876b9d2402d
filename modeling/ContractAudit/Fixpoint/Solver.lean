import ContractAudit.Domain.Lattice
import ContractAudit.Flow.Graph

/-!
Data-flow problems and their solution by a worklist.

A `Problem` is a lattice of facts with a transfer function and a direction. `solve` visits blocks
from a queue that holds no block twice: it joins the facts that flow into the block, applies the
transfer function, and queues the blocks that depend on the outcome whenever that outcome changed.
The number of visits is limited; `Solution.converged` says whether the queue ran empty within the
limit.
-/

namespace ContractAudit.Fixpoint

open Domain ContractAudit.Flow

/-- The direction in which facts flow. -/
inductive Direction where
  | forward
  | backward
deriving DecidableEq, Repr

/-- The name of a direction. -/
def Direction.name : Direction → Text
  | .forward => "forward"
  | .backward => "backward"

/-- How facts change, in the direction of flow. A problem may ignore terminators, and may give the
effect of a whole block at once. -/
structure Transfer (σ L : Type) where
  stmt : σ → L → L
  term? : Option (Terminator → L → L) := none
  block? : Option (Block σ → L → L) := none

/-- How many blocks are visited at most unless a problem says otherwise. -/
def defaultLimit : Nat := 10000

/-- A data-flow problem. A limit of zero or less stands for the default. -/
structure Problem (σ L : Type) where
  lattice : FactLattice L
  transfer : Transfer σ L
  direction : Direction
  limit : Int := 0

/-- The facts at the block boundaries. -/
structure Solution (L : Type) where
  entry : Table BlockId L
  exit : Table BlockId L
  iterations : Nat
  converged : Bool
deriving Repr

variable {σ L : Type}

namespace Problem

/-- The number of blocks visited at most. -/
def maxVisits (p : Problem σ L) : Nat := if 0 < p.limit then p.limit.toNat else defaultLimit

/-- The effect of a terminator. -/
def acrossTerm (p : Problem σ L) (b : Block σ) (fact : L) : L :=
  match p.transfer.term? with
  | some f => f b.term fact
  | none => fact

/-- The effect of a block in the direction of flow. -/
def acrossBlock (p : Problem σ L) (b : Block σ) (fact : L) : L :=
  match p.transfer.block? with
  | some f => f b fact
  | none =>
    match p.direction with
    | .forward => p.acrossTerm b (b.stmts.foldl (fun fact s => p.transfer.stmt s fact) fact)
    | .backward => b.stmts.foldr p.transfer.stmt (p.acrossTerm b fact)

end Problem

/-! ### The queue -/

/-- Queues a block unless it waits already. -/
def push (queue : List BlockId) (id : BlockId) : List BlockId :=
  if id ∈ queue then queue else queue ++ [id]

/-- Queues blocks in order. -/
def pushAll (queue ids : List BlockId) : List BlockId := ids.foldl push queue

/-- The order in which blocks are first visited by a forward problem. -/
def firstVisits (g : Graph σ) : List BlockId := if g.order.isEmpty then g.ids else g.order

/-! ### One visit -/

/-- The facts computed so far and the blocks still to visit. -/
structure State (L : Type) where
  entry : Table BlockId L
  exit : Table BlockId L
  queue : List BlockId
deriving Repr

namespace Problem

/-- The join, in order and starting at `start`, of the facts that a table has for the given
blocks. -/
def joinOver (p : Problem σ L) (facts : Table BlockId L) (start : L) (ids : List BlockId) : L :=
  ids.foldl
    (fun acc id =>
      match facts.get? id with
      | some fact => p.lattice.join acc fact
      | none => acc)
    start

/-- The fact of a block, bottom when there is none. -/
def factAt (p : Problem σ L) (facts : Table BlockId L) (id : BlockId) : L :=
  (facts.get? id).getD p.lattice.bottom

/-- Visits block `b` of a forward problem: the fact at its entry is the join over its predecessors,
except at the entry of the graph, which keeps the initial fact. -/
def visitForward (p : Problem σ L) (g : Graph σ) (b : Block σ) (s : State L) : State L :=
  let fact :=
    if b.id == g.entry then p.factAt s.entry b.id
    else p.joinOver s.exit p.lattice.bottom b.preds
  let s := { s with entry := s.entry.set b.id fact }
  let out := p.acrossBlock b fact
  if p.lattice.equal out (p.factAt s.exit b.id) then s
  else { s with exit := s.exit.set b.id out, queue := pushAll s.queue (b.succs.filter g.has) }

/-- Visits block `b` of a backward problem: the fact at its exit is the join over its successors,
starting at the initial fact for the exits of the graph. -/
def visitBackward (p : Problem σ L) (g : Graph σ) (initial : L) (b : Block σ) (s : State L) :
    State L :=
  let start := if g.isExit b.id then initial else p.lattice.bottom
  let fact := p.joinOver s.entry start b.succs
  let s := { s with exit := s.exit.set b.id fact }
  let out := p.acrossBlock b fact
  if p.lattice.equal out (p.factAt s.entry b.id) then s
  else { s with entry := s.entry.set b.id out, queue := pushAll s.queue (b.preds.filter g.has) }

/-- Visits block `b`. -/
def visit (p : Problem σ L) (g : Graph σ) (initial : L) (b : Block σ) (s : State L) : State L :=
  match p.direction with
  | .forward => p.visitForward g b s
  | .backward => p.visitBackward g initial b s

/-! ### Solving -/

/-- Visits queued blocks until the queue is empty or no visits are left; `visits` have been made
before. -/
def run (p : Problem σ L) (g : Graph σ) (initial : L) : Nat → Nat → State L → Solution L
  | left, visits, s =>
    match s.queue with
    | [] => ⟨s.entry, s.exit, visits, true⟩
    | id :: queue =>
      match left with
      | 0 => ⟨s.entry, s.exit, visits, false⟩
      | left + 1 =>
        let s := { s with queue }
        let s :=
          match g.block? id with
          | some b => p.visit g initial b s
          | none => s
        run p g initial left (visits + 1) s

/-- The state before the first visit: bottom everywhere, the initial fact where facts flow in. -/
def start (p : Problem σ L) (g : Graph σ) (initial : L) : State L :=
  let bottoms : Table BlockId L := .const g.ids p.lattice.bottom
  match p.direction with
  | .forward =>
    { entry := if g.has g.entry then bottoms.set g.entry initial else bottoms
      exit := bottoms
      queue := pushAll [] (firstVisits g) }
  | .backward =>
    { entry := bottoms
      exit := g.exits.foldl (fun t id => t.set id initial) bottoms
      queue := pushAll [] (firstVisits g).reverse }

/-- Solves the problem over a graph whose metadata has been derived. The initial fact holds at the
entry of the graph (forward) or at its exits (backward). -/
def solve (p : Problem σ L) (g : Graph σ) (initial : L) : Solution L :=
  p.run g initial p.maxVisits 0 (p.start g initial)

/-! ### Facts at statements -/

/-- The facts just before each statement of a block, from the fact at its entry. -/
def factsForward (p : Problem σ L) : L → List σ → List L
  | _, [] => []
  | fact, s :: rest => fact :: factsForward p (p.transfer.stmt s fact) rest

/-- The facts just behind each statement of a block, and the fact before all of them, from the fact
behind the last. -/
def factsBackward (p : Problem σ L) (fact : L) : List σ → List L × L
  | [] => ([], fact)
  | s :: rest =>
    let (facts, behind) := factsBackward p fact rest
    (behind :: facts, p.transfer.stmt s behind)

/-- The fact that holds just before every statement (forward) or just behind it (backward), by
blocks in ascending order and statements in program order. -/
def walk (p : Problem σ L) (g : Graph σ) (r : Solution L) : List (Block σ × Nat × σ × L) :=
  g.blocks.flatMap fun b =>
    let facts :=
      match p.direction with
      | .forward => p.factsForward (p.factAt r.entry b.id) b.stmts
      | .backward => (p.factsBackward (p.acrossTerm b (p.factAt r.exit b.id)) b.stmts).1
    (b.stmts.zip facts).mapIdx fun n (s, fact) => (b, n, s, fact)

end Problem

end ContractAudit.Fixpoint
