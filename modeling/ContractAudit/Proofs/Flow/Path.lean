import ContractAudit.Proofs.Flow.Metadata

/-!
Paths through a control-flow graph.

A path starts at the entry, executes the statements of a block in order, and goes on in any
successor of the block. It keeps the statements executed with their places, the last one first, so
that an earlier moment of a path is a suffix of that list (`Path.suffix`). A path leads to every
statement of a reachable block (`exists_path`). `pathThrough?` computes the path through given
blocks.
-/

namespace ContractAudit.Flow.Graph

variable {σ : Type} {g : Graph σ} {b : Block σ} {k : Nat}

/-- A statement of a graph with its block and its number there. -/
abbrev Place (σ : Type) := Block σ × Nat × σ

/-- `g.Path past b k`: having executed `past`, the last one first, control is in front of statement
number `k` of block `b`, or at the end of `b` if there is no such statement. -/
inductive Path (g : Graph σ) : List (Place σ) → Block σ → Nat → Prop where
  | start {b : Block σ} (h : g.block? g.entry = some b) : Path g [] b 0
  | step {past : List (Place σ)} {b : Block σ} {k : Nat} {s : σ} (h : Path g past b k)
      (hs : b.stmts[k]? = some s) : Path g ((b, k, s) :: past) b (k + 1)
  | next {past : List (Place σ)} {b c : Block σ} {id : BlockId} (h : Path g past b b.stmts.length)
      (hid : id ∈ b.succs) (hc : g.block? id = some c) : Path g past c 0

namespace Path

/-- A path leads through blocks that the entry reaches. -/
lemma reachable {past : List (Place σ)} (h : g.Path past b k) :
    b ∈ g.blocks ∧ g.Reachable b.id := by
  induction h with
  | start hb =>
    obtain ⟨hmem, hid⟩ := block?_eq_some_iff.mp hb
    exact ⟨hmem, has_of_block? hb, hid ▸ .refl⟩
  | step _ _ ih => exact ih
  | next _ hsucc hc ih =>
    obtain ⟨hmem, rfl⟩ := block?_eq_some_iff.mp hc
    exact ⟨hmem, ih.2.step (mem_nexts.mpr ⟨_, block?_of_mem ih.1, hsucc, has_of_block? hc⟩)⟩

/-- A statement on a path was reached by a path, along what was executed before. -/
lemma suffix {past before : List (Place σ)} {c : Block σ} {m : Nat} {s : σ} (h : g.Path past b k)
    (hs : (c, m, s) :: before <:+ past) : g.Path before c m ∧ c.stmts[m]? = some s := by
  induction h with
  | start _ => simp at hs
  | step h hstmt ih =>
    rcases List.suffix_cons_iff.mp hs with heq | hs
    · cases heq
      exact ⟨h, hstmt⟩
    · exact ih hs
  | next _ _ _ ih => exact ih hs

end Path

/-! ### All places -/

/-- The statements of a graph with their places, block by block. -/
def places (g : Graph σ) : List (Place σ) := g.blocks.flatMap fun b => b.stmts.mapIdx fun k s =>
    (b, k, s)

lemma mem_places {s : σ} : (b, k, s) ∈ g.places ↔ b ∈ g.blocks ∧ b.stmts[k]? = some s := by
  rw [places, List.mem_flatMap]
  constructor
  · rintro ⟨c, hc, hmem⟩
    obtain ⟨n, hn, heq⟩ := List.mem_mapIdx.mp hmem
    cases heq
    exact ⟨hc, List.getElem?_eq_getElem hn⟩
  · rintro ⟨hb, hs⟩
    obtain ⟨hk, rfl⟩ := List.getElem?_eq_some_iff.mp hs
    exact ⟨b, hb, List.mem_mapIdx.mpr ⟨k, hk, rfl⟩⟩

/-! ### Through a block -/

/-- The statements of a block with their places, the last one first. -/
def placesBack (b : Block σ) : List (Place σ) := (b.stmts.mapIdx fun k s => (b, k, s)).reverse

/-- The statements of a block in front of number `k` with their places, the last one first. -/
def placesBefore (b : Block σ) (k : Nat) : List (Place σ) :=
  ((b.stmts.take k).mapIdx fun k s => (b, k, s)).reverse

@[simp]
lemma placesBefore_zero (b : Block σ) : placesBefore b 0 = [] := by simp [placesBefore]

lemma placesBefore_length (b : Block σ) : placesBefore b b.stmts.length = placesBack b := by
  simp [placesBefore, placesBack]

lemma placesBefore_succ {s : σ} (hs : b.stmts[k]? = some s) :
    placesBefore b (k + 1) = (b, k, s) :: placesBefore b k := by
  obtain ⟨hk, -⟩ := List.getElem?_eq_some_iff.mp hs
  rw [placesBefore, List.take_add_one, hs, Option.toList_some, List.mapIdx_append]
  simp [placesBefore, Nat.min_eq_left (Nat.le_of_lt hk)]

/-- Steps that do not ask for places go through the statements alone. -/
lemma foldr_placesBefore {L : Type} (f : σ → L → L) (x : L) (b : Block σ) (k : Nat) :
    (placesBefore b k).foldr (fun place => f place.2.2) x =
      (b.stmts.take k).foldl (fun x s => f s x) x := by
  have hmap : ((b.stmts.take k).mapIdx fun k s => ((b, k, s) : Place σ)).map (·.2.2) =
      b.stmts.take k := by
    refine List.ext_getElem? fun i => ?_
    simp [List.getElem?_mapIdx, Function.comp_def]
  rw [placesBefore, List.foldr_reverse]
  conv_rhs => rw [← hmap, List.foldl_map]

variable {past : List (Place σ)}

/-- From the front of a block a path leads to each of its statements, and to its end. -/
lemma Path.before (h : g.Path past b 0) (hk : k ≤ b.stmts.length) :
    g.Path (placesBefore b k ++ past) b k := by
  induction k with
  | zero => simpa using h
  | succ k ih =>
    have hstmt := List.getElem?_eq_getElem hk
    rw [placesBefore_succ hstmt]
    exact (ih (Nat.le_of_succ_le hk)).step hstmt

/-- From the front of a block a path leads to its end. -/
lemma Path.across (h : g.Path past b 0) : g.Path (placesBack b ++ past) b b.stmts.length := by
  rw [← placesBefore_length]
  exact h.before (Nat.le_refl _)

/-- A path leads to every reachable block. -/
lemma exists_path (hb : b ∈ g.blocks) (hreach : g.Reachable b.id) :
    ∃ past, g.Path past b 0 := by
  obtain ⟨-, hreach⟩ := hreach
  have hfound := block?_of_mem hb
  generalize b.id = id at hreach hfound
  induction hreach generalizing b with
  | refl => exact ⟨[], .start hfound⟩
  | tail _ hstep ih =>
    obtain ⟨a, ha, hsucc, -⟩ := mem_nexts.mp hstep
    obtain ⟨past, hpast⟩ := ih (block?_eq_some_iff.mp ha).1 ha
    exact ⟨_, hpast.across.next hsucc hfound⟩

/-! ### Computing paths -/

/-- The path through the blocks with the given ids, the last one first, up to the end of the last
block. -/
def pathThrough? (g : Graph σ) : List BlockId → Option (List (Place σ) × Block σ)
  | [] => none
  | [id] => if id = g.entry then (g.block? id).map fun b => (placesBack b, b) else none
  | id :: earlier => do
    let (past, b) ← g.pathThrough? earlier
    let c ← g.block? id
    if id ∈ b.succs then some (placesBack c ++ past, c) else none

/-- A computed path is a path. -/
lemma path_of_pathThrough? {ids : List BlockId} (h : g.pathThrough? ids = some (past, b)) :
    g.Path past b b.stmts.length := by
  induction ids generalizing past b with
  | nil => contradiction
  | cons id earlier ih =>
    cases earlier with
    | nil =>
      rw [pathThrough?] at h
      split at h
      · next hid =>
        obtain ⟨c, hc, hcb⟩ := Option.map_eq_some_iff.mp h
        cases hcb
        simpa using (Path.start (hid ▸ hc)).across
      · contradiction
    | cons before rest =>
      rw [pathThrough?] at h
      · obtain ⟨⟨older, a⟩, ha, h⟩ := Option.bind_eq_some_iff.mp h
        obtain ⟨c, hc, h⟩ := Option.bind_eq_some_iff.mp h
        split at h
        · next hsucc =>
          cases h
          exact ((ih ha).next hsucc hc).across
        · contradiction
      · simp

end ContractAudit.Flow.Graph
