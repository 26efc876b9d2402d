import ContractAudit.Flow.Instr
import ContractAudit.Proofs.Flow.Metadata

/-!
Graphs under construction.

Blocks are added, replaced, ended anew and connected in any order before the data of a graph is
derived. Meanwhile the predecessors of a block may miss some of those that list it as successor, and
name others that do not.

* `Change`: the operations, of which some may fail. `Graph.changed` makes a list of them one after
  the other.
* `SuccsDistinct`: no block lists a successor twice. Every change keeps it so
  (`SuccsDistinct.change`).
* `UpToDate.withMetadata_eq`: deriving data that is up to date changes nothing.
* `changed_withMetadata`: after any changes, deriving the data makes successors and predecessors
  inverse to each other and finds the exits.
-/

namespace ContractAudit.Flow

variable {σ : Type}

/-- An element that is appended unless it is there does not occur twice. -/
lemma nodup_appendNew {α : Type} [DecidableEq α] {xs : List α} (h : xs.Nodup) (x : α) :
    (if x ∈ xs then xs else xs ++ [x]).Nodup := by
  split
  · exact h
  · next hx => simpa using List.nodup_append_comm.mp (List.nodup_cons.mpr ⟨hx, h⟩)

/-- No element occurs twice in the order of first occurrence. -/
lemma nodup_distinct {α : Type} [DecidableEq α] (xs : List α) : (distinct xs).Nodup :=
  List.foldlRecOn xs _ (motive := List.Nodup) List.nodup_nil fun _ h x _ => nodup_appendNew h x

/-- A change to a graph under construction. -/
inductive Change (σ : Type) where
  /-- Adds a block, in the place of one with the same id. It lists no successor twice, as no block
  does whose successors follow from its terminator or that stood in a graph before. -/
  | add (b : Block σ) (distinct : b.succs.Nodup)
  /-- Ends a block by another terminator. -/
  | finish (id : BlockId) (term : Terminator)
  /-- Adds an edge. -/
  | connect (source target : BlockId)

/-- Adds a block whose successors follow from its terminator. -/
def Change.addNew (id : BlockId) (stmts : List σ) (term : Terminator) : Change σ :=
  .add (.ofTerminator id stmts term) (nodup_distinct term.targets)

namespace Graph

/-- The graph behind a change. One that fails leaves it as it is. -/
def change (g : Graph σ) : Change σ → Graph σ
  | .add b _ => g.addBlock b
  | .finish id term => (g.endBlock id term).toOption.getD g
  | .connect source target => (g.addEdge source target).toOption.getD g

/-- The graph behind some changes. -/
def changed (g : Graph σ) (changes : List (Change σ)) : Graph σ := changes.foldl change g

/-! ### Successors -/

/-- No block lists a successor twice. -/
def SuccsDistinct (g : Graph σ) : Prop := ∀ b ∈ g.blocks, b.succs.Nodup

namespace SuccsDistinct

variable {g : Graph σ}

lemma addBlock (h : g.SuccsDistinct) {b : Block σ} (hb : b.succs.Nodup) :
    (g.addBlock b).SuccsDistinct := by
  intro c hc
  rcases mem_insertBlock hc with rfl | hc
  · exact hb
  · exact h c hc

lemma mapBlock (h : g.SuccsDistinct) {id : BlockId} {f : Block σ → Block σ}
    {keeps : ∀ b, (f b).id = b.id} (hf : ∀ b, b.succs.Nodup → (f b).succs.Nodup) :
    (g.mapBlock id f keeps).SuccsDistinct := by
  intro c hc
  obtain ⟨b, hb, rfl⟩ := List.mem_map.mp hc
  split
  · exact hf b (h b hb)
  · exact h b hb

lemma endBlock (h : g.SuccsDistinct) {g' : Graph σ} {id : BlockId} {t : Terminator}
    (h' : g.endBlock id t = .ok g') : g'.SuccsDistinct := by
  rw [Graph.endBlock] at h'
  split at h'
  · obtain rfl := Except.ok.inj h'
    exact h.mapBlock fun _ _ => nodup_distinct t.targets
  · cases h'

lemma addEdge (h : g.SuccsDistinct) {g' : Graph σ} {source target : BlockId}
    (h' : g.addEdge source target = .ok g') : g'.SuccsDistinct := by
  rw [Graph.addEdge] at h'
  split at h'
  · obtain rfl := Except.ok.inj h'
    exact SuccsDistinct.mapBlock (h.mapBlock fun _ hb => nodup_appendNew hb target) fun _ hb => hb
  · cases h'

/-- Every change keeps successors distinct. -/
lemma change (h : g.SuccsDistinct) (c : Change σ) : (g.change c).SuccsDistinct := by
  cases c with
  | add b hb => exact h.addBlock hb
  | finish id term =>
    rw [Graph.change]
    cases hend : g.endBlock id term with
    | ok g' => exact h.endBlock hend
    | error fault => exact h
  | connect source target =>
    rw [Graph.change]
    cases hedge : g.addEdge source target with
    | ok g' => exact h.addEdge hedge
    | error fault => exact h

lemma changed (h : g.SuccsDistinct) (changes : List (Change σ)) :
    (g.changed changes).SuccsDistinct :=
  List.foldlRecOn changes _ (motive := SuccsDistinct) h fun _ hg c _ => hg.change c

end SuccsDistinct

/-! ### Deriving data -/

lemma mapBlocks_eq_self {g : Graph σ} {f : Block σ → Block σ} {keeps : ∀ b, (f b).id = b.id}
    (h : ∀ b ∈ g.blocks, f b = b) : g.mapBlocks f keeps = g := by
  have hblocks : g.blocks.map f = g.blocks := (List.map_congr_left h).trans (List.map_id _)
  cases g
  simp only [mapBlocks, hblocks]

/-- What is picked from the blocks of a graph has ascending ids. -/
lemma ascending_filter_ids (g : Graph σ) (p : Block σ → Bool) :
    ((g.blocks.filter p).map (·.id)).Pairwise (· < ·) :=
  List.pairwise_map.mpr (g.ascending.filter p)

section Derived

variable [Statement σ] {g : Graph σ}

/-- Deriving data that is up to date changes nothing. -/
lemma UpToDate.withMetadata_eq (hg : g.UpToDate) : g.withMetadata = g := by
  have hpreds : g.withPredecessors = g := by
    rw [withPredecessors_eq]
    exact mapBlocks_eq_self fun b hb => by simp only [← hg.preds b hb]
  have horder : g.withOrder = g := by rw [withOrder, ← hg.order]
  have hexits : g.withExits = g := by rw [withExits, ← hg.exits]
  have hreads : g.withReads = g := mapBlocks_eq_self hg.reads
  rw [withMetadata, hpreds, horder, hexits, hreads]

/-- Deriving data leaves the statements, terminators and successors of all blocks alone. -/
lemma given_withMetadata (g : Graph σ) (id : BlockId) :
    (g.withMetadata.block? id).map (fun b => (b.stmts, b.term, b.succs)) =
      (g.block? id).map fun b => (b.stmts, b.term, b.succs) := by
  have hblock : g.withMetadata.block? id = (g.withPredecessors.block? id).map Block.withReads :=
    block?_mapBlocks (g := g.withPredecessors.withOrder.withExits) (f := Block.withReads)
      (fun _ => rfl) id
  rw [hblock, withPredecessors_eq, withPreds, block?_mapBlocks, Option.map_map, Option.map_map]
  rfl

/-- Deriving data keeps successors distinct. -/
lemma SuccsDistinct.withMetadata (h : g.SuccsDistinct) : g.withMetadata.SuccsDistinct := by
  intro c hc
  obtain ⟨a, ha, _, rfl⟩ := exists_of_mem_withMetadata hc
  exact h a ha

end Derived

/-- The data of a graph fits together: predecessors are inverse to successors, no list names a block
twice, and the exits are the blocks that return, revert or lead nowhere, in ascending order. -/
structure Consistent (g : Graph σ) : Prop where
  mem_preds : ∀ b ∈ g.blocks, ∀ p, p ∈ b.preds ↔ ∃ a ∈ g.blocks, a.id = p ∧ b.id ∈ a.succs
  nodup : ∀ b ∈ g.blocks, b.succs.Nodup ∧ b.preds.Nodup
  exits_ascending : g.exits.Pairwise (· < ·)
  mem_exits : ∀ id, id ∈ g.exits ↔ ∃ b ∈ g.blocks, b.id = id ∧
    ((∃ values, b.term = .done values) ∨ (∃ reason, b.term = .revert reason) ∨ b.succs = [])

lemma isReturn_iff (t : Terminator) :
    t.isReturn = true ↔ (∃ values, t = .done values) ∨ ∃ reason, t = .revert reason := by
  cases t <;> simp [Terminator.isReturn]

lemma UpToDate.consistent [Statement σ] {g : Graph σ} (hg : g.UpToDate) (hsuccs : g.SuccsDistinct) :
    g.Consistent where
  mem_preds b hb p := by
    simp only [hg.mem_preds hb, block?_eq_some_iff, and_assoc]
  nodup b hb := by
    refine ⟨hsuccs b hb, ?_⟩
    rw [hg.preds b hb]
    exact (g.ascending_filter_ids _).imp fun h => Int.ne_of_lt h
  exits_ascending := by
    rw [hg.exits]
    exact g.ascending_filter_ids _
  mem_exits id := by
    simp only [hg.exits, List.mem_map, List.mem_filter, Block.isExit, Bool.or_eq_true, isReturn_iff,
      List.isEmpty_iff, or_assoc]
    constructor
    · rintro ⟨b, ⟨hb, hexit⟩, hid⟩
      exact ⟨b, hb, hid, hexit⟩
    · rintro ⟨b, hb, hid, hexit⟩
      exact ⟨b, ⟨hb, hexit⟩, hid⟩

/-- **Whatever changes made a graph, its derived data is consistent**, and derived again it stays
the same. Changes that fail are among them, and those that leave predecessors behind which no longer
are. What the blocks do and where they lead is not touched. -/
theorem changed_withMetadata [Statement σ] (name : Text) (entry : BlockId)
    (changes : List (Change σ)) :
    let g := (empty name entry).changed changes
    g.withMetadata.Consistent ∧ g.withMetadata.withMetadata = g.withMetadata ∧
      ∀ id, (g.withMetadata.block? id).map (fun b => (b.stmts, b.term, b.succs)) =
        (g.block? id).map fun b => (b.stmts, b.term, b.succs) := by
  intro g
  have hempty : (empty name entry : Graph σ).SuccsDistinct := fun _ hb => absurd hb List.not_mem_nil
  have hdate := g.withMetadata_upToDate
  exact ⟨hdate.consistent (hempty.changed changes).withMetadata, hdate.withMetadata_eq,
    g.given_withMetadata⟩

-- an edge to a missing block, one from a block to itself, and one that ending its block anew takes
-- back
example :
    let g := ((empty "f" 0 : Graph Instr).changed
      [.addNew 0 [] (.jump 1), .connect 0 1, .addNew 1 [] (.branch "c" 1 2), .connect 1 0,
        .finish 1 (.branch "c" 1 1), .finish 2 (.done [])]).withMetadata
    g.blocks.map (fun b => (b.id, b.succs, b.preds)) = [(0, [1], []), (1, [1], [0, 1])] ∧
      g.exits = [] := by
  decide

end Graph

end ContractAudit.Flow
