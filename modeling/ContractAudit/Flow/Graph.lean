import ContractAudit.Text.Quoted
import ContractAudit.Search

/-!
Control-flow graphs.

A graph is a list of basic blocks in ascending order of their ids, with one of them, ideally, as
entry. The successors of a block follow from its terminator, and edges may be added by hand.
Everything else that the solver needs is derived by `withMetadata`: predecessors, the reverse
postorder of the blocks that the entry reaches, the exits, and what each block defines and reads.
-/

namespace ContractAudit.Flow

/-- Numbers a block within its graph. -/
abbrev BlockId := Int

/-- The name of a variable. -/
abbrev Var := Text

/-- A straight-line statement: the variables it defines and reads, and how it is written. -/
class Statement (σ : Type) where
  defs : σ → List Var
  uses : σ → List Var
  text : σ → Text

/-- How control leaves a block. -/
inductive Terminator where
  | jump (target : BlockId)
  | branch (cond : Var) (yes no : BlockId)
  /-- Leaves the function with these values. -/
  | done (values : List Var)
  /-- Aborts the call and rolls back the state. -/
  | revert (reason : Text)
  /-- Control never gets to the end of the block, or nothing is known yet. -/
  | unreachable
deriving DecidableEq, Repr

namespace Terminator

/-- Where control may go. -/
def targets : Terminator → List BlockId
  | .jump target => [target]
  | .branch _ yes no => [yes, no]
  | _ => []

/-- The variables read. -/
def uses : Terminator → List Var
  | .branch cond _ _ => if cond.isEmpty then [] else [cond]
  | .done values => values
  | _ => []

/-- A block as it is written in listings. -/
def blockName (id : BlockId) : Text := "b" ++ Text.ofInt id

/-- The terminator as it is written in listings. -/
def text : Terminator → Text
  | .jump target => "jump " ++ blockName target
  | .branch cond yes no => "branch " ++ cond ++ " ? " ++ blockName yes ++ " : " ++ blockName no
  | .done values => "return " ++ Text.joinWith ", " values
  | .revert reason => "revert " ++ reason.quoted
  | .unreachable => "unreachable"

/-- Whether control leaves the function here. -/
def isReturn : Terminator → Bool
  | .done _ | .revert _ => true
  | _ => false

end Terminator

/-- The elements in order of first occurrence. -/
def distinct {α : Type} [DecidableEq α] (xs : List α) : List α :=
  xs.foldl (fun acc x => if x ∈ acc then acc else acc ++ [x]) []

/-- A basic block. `preds`, `defs` and `exposed` are derived; `exposed` are the variables that are
read before the block itself defines them. -/
structure Block (σ : Type) where
  id : BlockId
  stmts : List σ
  term : Terminator
  succs : List BlockId
  preds : List BlockId
  defs : List Var
  exposed : List Var
deriving Repr

namespace Block

variable {σ : Type}

/-- A block whose successors follow from its terminator. -/
def ofTerminator (id : BlockId) (stmts : List σ) (term : Terminator) : Block σ :=
  { id, stmts, term, succs := distinct term.targets, preds := [], defs := [], exposed := [] }

/-- Whether control leaves the function at the block. -/
def isExit (b : Block σ) : Bool := b.term.isReturn || b.succs.isEmpty

/-- What a walk through a block has seen so far: the variables defined, and those read before. -/
structure Reads where
  defs : List Var
  exposed : List Var
deriving DecidableEq, Repr

/-- Notes that `v` is read. Names that are empty, defined before or noted already do not count. -/
def Reads.read (r : Reads) (v : Var) : Reads :=
  if v.isEmpty || v ∈ r.defs || v ∈ r.exposed then r else { r with exposed := r.exposed ++ [v] }

/-- Notes that `v` is defined. -/
def Reads.define (r : Reads) (v : Var) : Reads :=
  if v ∈ r.defs then r else { r with defs := r.defs ++ [v] }

/-- Notes a statement: its reads, then its definitions. -/
def Reads.step [Statement σ] (r : Reads) (s : σ) : Reads :=
  (Statement.defs s).foldl Reads.define ((Statement.uses s).foldl Reads.read r)

/-- Derives what the block defines and reads. -/
def withReads [Statement σ] (b : Block σ) : Block σ :=
  let r := b.term.uses.foldl Reads.read (b.stmts.foldl Reads.step ⟨[], []⟩)
  { b with defs := r.defs, exposed := r.exposed }

end Block

/-- A control-flow graph. The blocks are in ascending order of their ids, so that no two of them
have the same; `exits` and `order` are derived. -/
structure Graph (σ : Type) where
  name : Text
  entry : BlockId
  blocks : List (Block σ)
  exits : List BlockId
  order : List BlockId
  ascending : blocks.Pairwise fun a b => a.id < b.id
deriving Repr

/-- What is wrong with a graph or with a change to it. -/
inductive GraphFault where
  | noEntry (entry : BlockId)
  | danglingEdge (source target : BlockId)
  | unknownBlock (id : BlockId)
  | unknownEdge (source target : BlockId)
deriving DecidableEq, Repr

/-- The wording of a fault. -/
def GraphFault.message : GraphFault → Text
  | .noEntry entry => "entry block " ++ Terminator.blockName entry ++ " does not exist"
  | .danglingEdge source target =>
    Terminator.blockName source ++ " has edge to missing block " ++ Terminator.blockName target
  | .unknownBlock id => "set terminator: unknown block " ++ Terminator.blockName id
  | .unknownEdge source target =>
    "add edge " ++ Terminator.blockName source ++ " -> " ++ Terminator.blockName target ++
      ": unknown block"

namespace Graph

variable {σ : Type}

/-- A graph without blocks. -/
def empty (name : Text) (entry : BlockId) : Graph σ :=
  { name, entry, blocks := [], exits := [], order := [], ascending := .nil }

/-- The block with the given id. -/
def block? (g : Graph σ) (id : BlockId) : Option (Block σ) := g.blocks.find? (·.id == id)

/-- Whether a block with the given id exists. -/
def has (g : Graph σ) (id : BlockId) : Bool := g.blocks.any (·.id == id)

/-- The ids of the blocks, in ascending order. -/
def ids (g : Graph σ) : List BlockId := g.blocks.map (·.id)

/-- Puts a block into an ascending list, in the place of one with the same id. -/
def insertBlock (b : Block σ) : List (Block σ) → List (Block σ)
  | [] => [b]
  | a :: rest =>
    if b.id < a.id then b :: a :: rest
    else if b.id == a.id then b :: rest
    else a :: insertBlock b rest

theorem mem_insertBlock {b c : Block σ} {blocks : List (Block σ)} (h : c ∈ insertBlock b blocks) :
    c = b ∨ c ∈ blocks := by
  induction blocks with
  | nil => simpa [insertBlock] using h
  | cons a rest ih =>
    rw [insertBlock] at h
    split at h
    · simpa using h
    · split at h
      · rcases List.mem_cons.mp h with rfl | h
        · exact .inl rfl
        · exact .inr (List.mem_cons_of_mem _ h)
      · rcases List.mem_cons.mp h with rfl | h
        · exact .inr (List.mem_cons_self ..)
        · exact (ih h).imp id (List.mem_cons_of_mem _)

/-- Putting a block into an ascending list keeps the list ascending. -/
theorem insertBlock_ascending (b : Block σ) {blocks : List (Block σ)}
    (h : blocks.Pairwise fun a b => a.id < b.id) :
    (insertBlock b blocks).Pairwise fun a b => a.id < b.id := by
  induction blocks with
  | nil => simp [insertBlock]
  | cons a rest ih =>
    obtain ⟨hhead, htail⟩ := List.pairwise_cons.mp h
    rw [insertBlock]
    split
    · next hlt =>
        refine List.pairwise_cons.mpr ⟨fun c hc => ?_, h⟩
        rcases List.mem_cons.mp hc with rfl | hc
        · exact hlt
        · exact Int.lt_trans hlt (hhead c hc)
    · next hlt =>
        split
        · next heq =>
            have heq : b.id = a.id := by simpa using heq
            exact List.pairwise_cons.mpr ⟨fun c hc => heq ▸ hhead c hc, htail⟩
        · next hne =>
            have hne : b.id ≠ a.id := by simpa using hne
            refine List.pairwise_cons.mpr ⟨fun c hc => ?_, ih htail⟩
            rcases mem_insertBlock hc with rfl | hc
            · exact Int.lt_iff_le_and_ne.mpr ⟨Int.not_lt.mp hlt, hne.symm⟩
            · exact hhead c hc

/-- Adds a block, in the place of one with the same id. -/
def addBlock (g : Graph σ) (b : Block σ) : Graph σ :=
  { g with blocks := insertBlock b g.blocks, ascending := insertBlock_ascending b g.ascending }

/-- Changes every block by a function that keeps the ids. -/
def mapBlocks (g : Graph σ) (f : Block σ → Block σ) (keeps : ∀ b, (f b).id = b.id) : Graph σ :=
  { g with
    blocks := g.blocks.map f
    ascending := List.pairwise_map.mpr (g.ascending.imp fun h => by rw [keeps, keeps]; exact h) }

/-- Changes the block with the given id by a function that keeps the id. -/
def mapBlock (g : Graph σ) (id : BlockId) (f : Block σ → Block σ) (keeps : ∀ b, (f b).id = b.id) :
    Graph σ :=
  g.mapBlocks (fun b => if b.id == id then f b else b) fun b => by split <;> simp [keeps]

/-- Replaces the terminator of a block and the successors that follow from it. -/
def endBlock (g : Graph σ) (id : BlockId) (t : Terminator) : Except GraphFault (Graph σ) :=
  if g.has id then
    .ok (g.mapBlock id (fun b => { b with term := t, succs := distinct t.targets }) fun _ => rfl)
  else .error (.unknownBlock id)

/-- Adds an edge between two blocks, on both of them. -/
def addEdge (g : Graph σ) (source target : BlockId) : Except GraphFault (Graph σ) :=
  if g.has source && g.has target then
    let add (xs : List BlockId) (x : BlockId) := if x ∈ xs then xs else xs ++ [x]
    let g := g.mapBlock source (fun b => { b with succs := add b.succs target }) fun _ => rfl
    .ok (g.mapBlock target (fun b => { b with preds := add b.preds source }) fun _ => rfl)
  else .error (.unknownEdge source target)

/-! ### Derived data -/

/-- Lists block `pred` among the predecessors of block `id`, if that exists and does not list it
yet. -/
def addPred (pred : BlockId) (g : Graph σ) (id : BlockId) : Graph σ :=
  g.mapBlock id
    (fun b => { b with preds := if pred ∈ b.preds then b.preds else b.preds ++ [pred] })
    fun _ => rfl

/-- Derives the predecessors of every block from the successors: all lists are emptied, and then
every block, in ascending order, is listed by its successors. -/
def withPredecessors (g : Graph σ) : Graph σ :=
  g.blocks.foldl (fun h b => b.succs.foldl (addPred b.id) h)
    (g.mapBlocks (fun b => { b with preds := [] }) fun _ => rfl)

/-- The successors of a block that exist. -/
def nexts (g : Graph σ) (id : BlockId) : List BlockId :=
  match g.block? id with
  | some b => b.succs.filter g.has
  | none => []

/-- Derives the reverse postorder of the blocks that the entry reaches. -/
def withOrder (g : Graph σ) : Graph σ :=
  { g with
    order :=
      if g.has g.entry then (Search.postorder g.nexts (g.blocks.length + 1) g.entry).reverse
      else [] }

/-- Derives the exits: the blocks that return, revert or have no successor. -/
def withExits (g : Graph σ) : Graph σ :=
  { g with exits := (g.blocks.filter (·.isExit)).map (·.id) }

/-- Derives what every block defines and reads. -/
def withReads [Statement σ] (g : Graph σ) : Graph σ := g.mapBlocks (·.withReads) fun _ => rfl

/-- Derives everything. -/
def withMetadata [Statement σ] (g : Graph σ) : Graph σ :=
  g.withPredecessors.withOrder.withExits.withReads

/-- Whether the id is one of the derived exits. -/
def isExit (g : Graph σ) (id : BlockId) : Bool := g.exits.contains id

/-- What is wrong with the graph: a missing entry, then the edges that lead nowhere. -/
def faults (g : Graph σ) : List GraphFault :=
  (if g.has g.entry then [] else [.noEntry g.entry]) ++
    g.blocks.flatMap fun b =>
      (b.succs.filter fun s => !g.has s).map fun s => .danglingEdge b.id s

/-! ### Drawing -/

/-- A text inside the label of a drawing: backslashes and quotes are escaped. -/
def label (t : Text) : Text :=
  t.flatMap fun c => if c == 92 || c == 34 then [92, c] else [c]

/-- The graph in the dot language: a node for every block, with its statements one a line, followed
by its edges. -/
def dot [Statement σ] (g : Graph σ) : Text :=
  let edge (source target : BlockId) : Text :=
    "  " ++ Terminator.blockName source ++ " -> " ++ Terminator.blockName target ++ ";\n"
  let node (b : Block σ) : Text :=
    let rows := b.stmts.map (fun s => label (Statement.text s)) ++ [label b.term.text]
    "  " ++ Terminator.blockName b.id ++ " [label=\"" ++ Terminator.blockName b.id ++ "\\l" ++
      rows.flatMap (fun row => row ++ Text.ofString "\\l") ++ "\"];\n" ++
      b.succs.flatMap (edge b.id)
  "digraph " ++ g.name.quoted ++ " \x7b\n  node [shape=box fontname=monospace];\n" ++
    g.blocks.flatMap node ++ "\x7d\n"

end Graph

end ContractAudit.Flow
