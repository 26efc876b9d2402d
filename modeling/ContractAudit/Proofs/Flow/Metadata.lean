import Mathlib.Data.List.Nodup
import ContractAudit.Flow.Graph
import ContractAudit.Proofs.Search

/-!
What the derived data of a control-flow graph says.

* `block?_eq_some_iff`, `has_iff`: looking a block up by its id is membership, since ids are
  ascending.
* `Reachable`: the blocks that the entry reaches through existing successors.
* `UpToDate`: the derived data is that of the graph's own blocks and edges. `withMetadata_upToDate`
  says that deriving it makes it so; everything else about it follows from this.
* `withPredecessors_eq`: the loop that derives predecessors inverts the successors.
* `UpToDate.mem_preds`: predecessors are the blocks that list a block as successor.
* `UpToDate.mem_order`, `UpToDate.reachable_of_mem_order`: the order lists the reachable blocks,
  each once (`UpToDate.nodup_order`).
-/

namespace ContractAudit.Flow.Graph

variable {σ : Type} {g : Graph σ}
variable {id : BlockId} {b : Block σ}

/-! ### Blocks by their ids -/

lemma ids_nodup (g : Graph σ) : g.ids.Nodup :=
  List.pairwise_map.mpr (g.ascending.imp fun h => Int.ne_of_lt h)

/-- No two blocks have the same id. -/
lemma eq_of_id_eq {a : Block σ} (ha : a ∈ g.blocks) (hb : b ∈ g.blocks) (h : a.id = b.id) : a = b :=
  List.inj_on_of_nodup_map g.ids_nodup ha hb h

lemma block?_eq_some_iff :
    g.block? id = some b ↔ b ∈ g.blocks ∧ b.id = id := by
  constructor
  · intro h
    exact ⟨List.mem_of_find?_eq_some h, by simpa using List.find?_some h⟩
  · rintro ⟨hb, rfl⟩
    obtain ⟨a, ha⟩ : ∃ a, g.block? b.id = some a := by
      rw [← Option.isSome_iff_exists, block?, List.find?_isSome]
      exact ⟨b, hb, by simp⟩
    have hid : a.id = b.id := by simpa using List.find?_some ha
    rw [ha, eq_of_id_eq (List.mem_of_find?_eq_some ha) hb hid]

lemma block?_of_mem (h : b ∈ g.blocks) : g.block? b.id = some b :=
  block?_eq_some_iff.mpr ⟨h, rfl⟩

lemma has_iff : g.has id = true ↔ ∃ b, g.block? id = some b := by
  simp only [has, List.any_eq_true, beq_iff_eq, block?_eq_some_iff]

lemma has_of_block? (h : g.block? id = some b) : g.has id = true :=
  has_iff.mpr ⟨b, h⟩

lemma has_iff_mem_ids : g.has id = true ↔ id ∈ g.ids := by
  simp only [has, ids, List.any_eq_true, beq_iff_eq, List.mem_map]

lemma mem_nexts {next : BlockId} :
    next ∈ g.nexts id ↔ ∃ b, g.block? id = some b ∧ next ∈ b.succs ∧ g.has next = true := by
  rw [nexts]
  cases hb : g.block? id with
  | none => simp
  | some b => simp [List.mem_filter]

/-! ### Changing blocks -/

section MapBlocks

variable {f : Block σ → Block σ} (keeps : ∀ b, (f b).id = b.id)

lemma block?_mapBlocks (id : BlockId) :
    (g.mapBlocks f keeps).block? id = (g.block? id).map f := by
  have hcomp : ((fun b : Block σ => b.id == id) ∘ f) = fun b => b.id == id := by
    funext b
    simp [keeps]
  simp only [block?, mapBlocks, List.find?_map, hcomp]

lemma has_mapBlocks : (g.mapBlocks f keeps).has = g.has := by
  funext id
  simp only [has, mapBlocks, List.any_map, Function.comp_def, keeps]

/-- Changes that leave the successors alone leave the edges alone. -/
lemma nexts_mapBlocks (hsuccs : ∀ b, (f b).succs = b.succs) :
    (g.mapBlocks f keeps).nexts = g.nexts := by
  funext id
  rw [nexts, nexts, block?_mapBlocks, has_mapBlocks]
  cases g.block? id with
  | none => rfl
  | some b => simp only [Option.map_some, hsuccs]

end MapBlocks

/-! ### Predecessors -/

/-- A graph whose predecessors are given by the ids. -/
def withPreds (g : Graph σ) (preds : BlockId → List BlockId) : Graph σ :=
  g.mapBlocks (fun b => { b with preds := preds b.id }) fun _ => rfl

variable {preds : BlockId → List BlockId}

lemma addPred_withPreds (pred : BlockId) (g : Graph σ) (id : BlockId) :
    (g.withPreds preds).addPred pred id = g.withPreds fun x =>
      if x = id ∧ pred ∉ preds x then preds x ++ [pred] else preds x := by
  simp only [withPreds, addPred, mapBlock, mapBlocks, mk.injEq, List.map_map, true_and, and_true]
  refine List.map_congr_left fun b _ => ?_
  by_cases hid : b.id = id <;> by_cases hpred : pred ∈ preds b.id <;> simp [hid, hpred]

/-- A block is listed once by each of its successors. -/
lemma foldl_addPred (pred : BlockId) (g : Graph σ) (ids : List BlockId) :
    ids.foldl (addPred pred) (g.withPreds preds) = g.withPreds fun x =>
      if x ∈ ids ∧ pred ∉ preds x then preds x ++ [pred] else preds x := by
  induction ids generalizing preds with
  | nil => simp
  | cons id rest ih =>
    rw [List.foldl_cons, addPred_withPreds, ih]
    congr 1
    funext x
    by_cases hid : x = id <;> by_cases hpred : pred ∈ preds x <;> simp [hid, hpred] <;> simp_all

/-- Blocks with distinct ids that nobody lists yet are listed by their successors, in order. -/
lemma foldl_withPreds (preds : BlockId → List BlockId) (g : Graph σ) {bs : List (Block σ)}
    (hids : (bs.map (·.id)).Nodup) (hnew : ∀ b ∈ bs, ∀ x, b.id ∉ preds x) :
    bs.foldl (fun h b => b.succs.foldl (addPred b.id) h) (g.withPreds preds) =
      g.withPreds fun x => preds x ++ (bs.filter fun p => p.succs.contains x).map (·.id) := by
  induction bs generalizing preds with
  | nil => simp
  | cons b rest ih =>
    obtain ⟨hb, hrest⟩ := List.nodup_cons.mp hids
    obtain ⟨hfirst, hnew⟩ := List.forall_mem_cons.mp hnew
    rw [List.foldl_cons, foldl_addPred, ih _ hrest fun c hc x => ?_]
    · congr 1
      funext x
      by_cases hx : x ∈ b.succs <;> simp [hx, hfirst]
    · have hne : c.id ≠ b.id := fun h => hb (List.mem_map.mpr ⟨c, hc, h⟩)
      split <;> simp [hnew c hc x, hne]

/-- The predecessors of a block are, in ascending order, the blocks that list it as a successor. -/
lemma withPredecessors_eq (g : Graph σ) :
    g.withPredecessors =
      g.withPreds fun id => (g.blocks.filter fun p => p.succs.contains id).map (·.id) :=
  foldl_withPreds (fun _ => []) g g.ids_nodup fun _ _ _ => List.not_mem_nil

/-! ### Reachable blocks -/

/-- Whether control can get from the entry to a block. -/
def Reachable (g : Graph σ) (id : BlockId) : Prop :=
  g.has g.entry = true ∧ Search.Reaches g.nexts g.entry id

lemma Reachable.step {a b : BlockId} (ha : g.Reachable a) (hb : b ∈ g.nexts a) : g.Reachable b :=
  ⟨ha.1, ha.2.tail hb⟩

/-- A reachable block exists. -/
lemma Reachable.has (h : g.Reachable id) : g.has id = true := by
  obtain ⟨hentry, hreach⟩ := h
  cases hreach with
  | refl => exact hentry
  | tail _ hstep =>
    obtain ⟨_, _, _, hhas⟩ := mem_nexts.mp hstep
    exact hhas

/-! ### Derived data -/

/-- The derived data is what the blocks and their successors say. -/
structure UpToDate [Statement σ] (g : Graph σ) : Prop where
  preds : ∀ b ∈ g.blocks,
    b.preds = (g.blocks.filter fun p => p.succs.contains b.id).map (·.id)
  order : g.order =
    if g.has g.entry then (Search.postorder g.nexts (g.blocks.length + 1) g.entry).reverse else []
  exits : g.exits = (g.blocks.filter (·.isExit)).map (·.id)
  reads : ∀ b ∈ g.blocks, b.withReads = b

/-- Deriving the data brings it up to date. -/
theorem withMetadata_upToDate [Statement σ] (g : Graph σ) : g.withMetadata.UpToDate where
  preds b hb := by
    have hblocks : g.withMetadata.blocks = (g.withPredecessors.blocks).map (·.withReads) := rfl
    rw [hblocks, withPredecessors_eq] at hb ⊢
    obtain ⟨c, hc, rfl⟩ := List.mem_map.mp hb
    obtain ⟨a, ha, rfl⟩ := List.mem_map.mp hc
    rw [withPreds, mapBlocks, List.filter_map, List.filter_map, List.map_map, List.map_map]
    rfl
  order := by
    have hnexts : g.withMetadata.nexts = g.withPredecessors.nexts :=
      nexts_mapBlocks (f := Block.withReads) (g := g.withPredecessors.withOrder.withExits)
        (fun _ => rfl) fun _ => rfl
    have hhas : g.withMetadata.has = g.withPredecessors.has :=
      has_mapBlocks (f := Block.withReads) (g := g.withPredecessors.withOrder.withExits) fun _ =>
        rfl
    have hlength : g.withMetadata.blocks.length = g.withPredecessors.blocks.length :=
      List.length_map ..
    rw [hnexts, hhas, hlength]
    rfl
  exits := by
    have hblocks : g.withMetadata.blocks = (g.withPredecessors.blocks).map (·.withReads) := rfl
    rw [hblocks, List.filter_map, List.map_map]
    rfl
  reads b hb := by
    obtain ⟨c, hc, rfl⟩ := List.mem_map.mp hb
    rfl

lemma entry_withMetadata [Statement σ] (g : Graph σ) : g.withMetadata.entry = g.entry := by
  change g.withPredecessors.entry = g.entry
  rw [withPredecessors_eq]
  rfl

/-- Deriving the data changes the derived data of the blocks only. -/
lemma exists_of_mem_withMetadata [Statement σ] (h : b ∈ g.withMetadata.blocks) :
    ∃ a ∈ g.blocks, ∃ preds, b = ({ a with preds } : Block σ).withReads := by
  obtain ⟨c, hc, rfl⟩ := List.mem_map.mp h
  change c ∈ g.withPredecessors.blocks at hc
  rw [withPredecessors_eq] at hc
  obtain ⟨a, ha, rfl⟩ := List.mem_map.mp hc
  exact ⟨a, ha, _, rfl⟩

/-- Deriving the data changes neither what a block does nor how it ends. -/
lemma block?_withMetadata [Statement σ] (h : g.block? id = some b) :
    ∃ c, g.withMetadata.block? id = some c ∧ c.stmts = b.stmts ∧ c.term = b.term := by
  have hpreds : ∃ preds, g.withPredecessors.block? id = some { b with preds } := by
    rw [withPredecessors_eq, withPreds, block?_mapBlocks, h]
    exact ⟨_, rfl⟩
  obtain ⟨preds, hpreds⟩ := hpreds
  have hreads := (block?_mapBlocks (g := g.withPredecessors.withOrder.withExits)
    (f := Block.withReads) (fun _ => rfl) id).trans (congrArg _ hpreds)
  exact ⟨_, hreads, rfl, rfl⟩

namespace UpToDate

variable [Statement σ]

/-- A block's predecessors are the blocks that list it as a successor. -/
lemma mem_preds (hg : g.UpToDate) (hb : b ∈ g.blocks) {p : BlockId} :
    p ∈ b.preds ↔ ∃ a, g.block? p = some a ∧ b.id ∈ a.succs := by
  simp only [hg.preds b hb, List.mem_map, List.mem_filter, List.contains_iff_mem,
    block?_eq_some_iff]
  constructor
  · rintro ⟨a, ⟨ha, hsucc⟩, hid⟩
    exact ⟨a, ⟨ha, hid⟩, hsucc⟩
  · rintro ⟨a, ⟨ha, hid⟩, hsucc⟩
    exact ⟨a, ⟨ha, hsucc⟩, hid⟩

/-- A reachable block is listed in the order. -/
lemma mem_order (hg : g.UpToDate) (h : g.Reachable id) : id ∈ g.order := by
  obtain ⟨hentry, hreach⟩ := h
  rw [hg.order, if_pos hentry, List.mem_reverse]
  refine Search.mem_postorder g.ids (fun x _ y hy => ?_) ?_
    (has_iff_mem_ids.mp hentry) hreach
  · obtain ⟨_, _, _, hhas⟩ := mem_nexts.mp hy
    exact has_iff_mem_ids.mp hhas
  · rw [ids, List.length_map]
    omega

/-- Only reachable blocks are listed in the order. -/
lemma reachable_of_mem_order (hg : g.UpToDate) (h : id ∈ g.order) : g.Reachable id := by
  rw [hg.order] at h
  split at h
  · next hentry => exact ⟨hentry, Search.reaches_of_mem_postorder (List.mem_reverse.mp h)⟩
  · exact absurd h List.not_mem_nil

/-- No block is listed twice in the order. -/
lemma nodup_order (hg : g.UpToDate) : g.order.Nodup := by
  rw [hg.order]
  split
  · exact List.nodup_reverse.mpr (Search.nodup_postorder ..)
  · exact List.nodup_nil

/-- The exits are the blocks at which control leaves. -/
lemma isExit_eq (hg : g.UpToDate) (hb : b ∈ g.blocks) :
    g.isExit b.id = b.isExit := by
  rw [isExit, hg.exits, Bool.eq_iff_iff, List.contains_iff_mem, List.mem_map]
  constructor
  · rintro ⟨a, ha, hid⟩
    obtain ⟨hmem, hexit⟩ := List.mem_filter.mp ha
    rwa [eq_of_id_eq hmem hb hid] at hexit
  · intro hexit
    exact ⟨b, List.mem_filter.mpr ⟨hb, hexit⟩, rfl⟩

end UpToDate

end ContractAudit.Flow.Graph
