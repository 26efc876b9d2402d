import ContractAudit.Proofs.Fixpoint.Leastness
import ContractAudit.Proofs.Fixpoint.Replay
import ContractAudit.Proofs.Flow.Path

/-!
Forward facts along edges and along paths.

What flows out of a block flows into the blocks behind it, except into the entry of the graph: the
fact there is the initial one, whatever leads back (`leq_along_edge_iff`, `not_leq_into_entry`).
Where nothing leads back, the facts in front of statements are the join over all paths, for problems
that cross blocks statement by statement and whose statements distribute over joins.

* `Stepwise`: such a problem. A step may depend on the place of the statement.
* `leq_factBefore_of_path`: the equations force the effect of every path below the facts. Where
  paths lead back to the entry, this holds of a kind of paths that bring nothing new there
  (`leq_factBefore_of_kept`).
* `Attained`: facts below a join of the effects of finitely many paths. A statement takes attained
  facts to attained ones, since it distributes over joins; no step needs to keep bottom, since some
  path leads to each reachable block.
* `Sourced`: a run holds attained facts only.
* `solve_isJoin`: both together. The fact in front of a statement is the join of the effects of all
  paths to it.
* `Confined`: a run keeps to reachable blocks, so that bottom stays where no path leads
  (`factAt_entry_of_not_reachable`). In a graph without its entry a run goes everywhere, but makes
  nothing that does not come from bottom (`factAt_entry_of_no_entry`).
-/

namespace ContractAudit.Fixpoint

open Domain ContractAudit.Flow

variable {σ L : Type}

namespace Problem

variable {p : Problem σ L} {g : Graph σ} {initial : L} {s : State L} {b : Block σ}

/-! ### Solved blocks -/

section Solved

lemma Invariant.exists_entry (hs : p.Invariant g initial s) (hdir : p.direction = .forward)
    {id : BlockId} (hreach : g.Reachable id) :
    ∃ fact, s.entry.get? id = some fact := by
  have hhas := (hs.inflow_has id).trans hreach.has
  simp only [Problem.inflow, hdir] at hhas
  exact Option.isSome_iff_exists.mp hhas

variable [Statement σ] (hg : g.UpToDate) (hdir : p.direction = .forward)
include hg hdir

/-- The entry keeps the initial fact. -/
lemma solve_entry (initial : L) (hrefl : ∀ fact, p.lattice.equal fact fact = true)
    (hentry : g.has g.entry = true) : (p.solve g initial).entry.get? g.entry = some initial := by
  obtain ⟨s, hs, hin, -⟩ := solve_invariant hg initial hrefl hentry
  rw [hin]
  exact hs.seed hdir

/-- A reachable block has a fact at its entry. -/
lemma exists_solve_entry (initial : L) (hrefl : ∀ fact, p.lattice.equal fact fact = true)
    {id : BlockId} (hreach : g.Reachable id) :
    ∃ before, (p.solve g initial).entry.get? id = some before := by
  obtain ⟨s, hs, hin, -⟩ := solve_invariant hg initial hrefl hreach.1
  rw [hin]
  exact hs.exists_entry hdir hreach

variable (hl : p.lattice.Lawful) (hconv : (p.solve g initial).converged = true)
include hl hconv

/-- The fact at the exit of a reachable block is what the block makes of the fact at its entry. -/
lemma solve_exit (hb : b ∈ g.blocks) (hreach : g.Reachable b.id) :
    ∃ behind, (p.solve g initial).exit.get? b.id = some behind ∧
      p.lattice.equal (p.acrossBlock b (p.factAt (p.solve g initial).entry b.id))
        behind = true := by
  obtain ⟨s, hs, hin, hout, hsettled⟩ := solve_settled hg hl.equal_refl hreach.1 hconv
  obtain ⟨hgathered, hequal⟩ := hsettled b hb hreach
  obtain ⟨behind, hbehind⟩ : ∃ behind, (p.outflow s).get? b.id = some behind := by
    rw [← Option.isSome_iff_exists]
    exact (hs.outflow_has b.id).trans hreach.has
  rw [factAt, hbehind, Option.getD_some] at hequal
  simp only [Problem.inflow, Problem.outflow, hdir] at hgathered hbehind hequal
  refine ⟨behind, by rw [hout, hbehind], ?_⟩
  rw [factAt, hin, hgathered, Option.getD_some]
  exact hequal

/-- What flows out of a reachable block flows into every block behind it but the entry of the
graph. -/
lemma leq_of_edge {a : Block σ} (ha : a ∈ g.blocks) (hb : b ∈ g.blocks) (hreach : g.Reachable a.id)
    (hedge : b.id ∈ a.succs) (hne : b.id ≠ g.entry) {behind : L}
    (hbehind : (p.solve g initial).exit.get? a.id = some behind) :
    ∃ before, (p.solve g initial).entry.get? b.id = some before ∧
      p.lattice.leq behind before = true := by
  obtain ⟨s, -, hin, hout, hsettled⟩ := solve_settled hg hl.equal_refl hreach.1 hconv
  have hfound := Graph.block?_of_mem hb
  have hnext : g.Reachable b.id := hreach.step
    (Graph.mem_nexts.mpr ⟨a, Graph.block?_of_mem ha, hedge, Graph.has_of_block? hfound⟩)
  have hpred : a.id ∈ b.preds := (hg.mem_preds hb).mpr ⟨a, Graph.block?_of_mem ha, hedge⟩
  obtain ⟨hgathered, -⟩ := hsettled b hb hnext
  simp only [Problem.inflow, Problem.outflow, gathered, hdir, if_neg hne] at hgathered
  refine ⟨_, by rw [hin, hgathered], ?_⟩
  rw [hout] at hbehind
  exact leq_joinOver hl hbehind hpred _

end Solved

end Problem

/-! ### Edges -/

/-- **Facts flow along an edge exactly when it leads to another block than the entry, or what flows
out is below the initial fact anyway**: at the entry of the graph nothing is joined to the initial
fact. -/
theorem leq_along_edge_iff [Statement σ] (p : Problem σ L) (g : Graph σ) (initial : L)
    (hdir : p.direction = .forward) (hl : p.lattice.Lawful)
    (hconv : (p.solve g.withMetadata initial).converged = true) {a b : Block σ}
    (ha : a ∈ g.withMetadata.blocks) (hb : b ∈ g.withMetadata.blocks)
    (hreach : g.withMetadata.Reachable a.id) (hedge : b.id ∈ a.succs) :
    ∃ behind before, (p.solve g.withMetadata initial).exit.get? a.id = some behind ∧
      (p.solve g.withMetadata initial).entry.get? b.id = some before ∧
      (p.lattice.leq behind before = true ↔
        b.id ≠ g.withMetadata.entry ∨ p.lattice.leq behind initial = true) := by
  have hg := g.withMetadata_upToDate
  obtain ⟨behind, hbehind, -⟩ := Problem.solve_exit hg hdir hl hconv ha hreach
  by_cases hid : b.id = g.withMetadata.entry
  · have hseed := Problem.solve_entry hg hdir initial hl.equal_refl hreach.1
    exact ⟨behind, initial, hbehind, by rw [hid, hseed], by simp [hid]⟩
  · obtain ⟨before, hbefore, hle⟩ :=
      Problem.leq_of_edge hg hdir hl hconv ha hb hreach hedge hid hbehind
    exact ⟨behind, before, hbehind, hbefore, by simp [hid, hle]⟩

/-- A block that leads back to itself and is the entry of its graph, and a block behind it. -/
def entryLoop : Graph Instr :=
  [.ofTerminator 0 [{ op := .step, defs := [[120]], uses := [[120]], line := 1 }]
    (.branch [99] 0 1), .ofTerminator 1 [] (.done [[120]])].foldl Graph.addBlock (.empty [] 0)

/-- The definition in the loop reaches the block behind it. -/
theorem leq_along_edge_iff_exit :
    (reachingDefinitions entryLoop.withMetadata []).converged = true ∧
      entryLoop.withMetadata.Reachable 0 ∧
      ∃ a b, entryLoop.withMetadata.block? 0 = some a ∧ entryLoop.withMetadata.block? 1 = some b ∧
        1 ∈ a.succs ∧
        ∃ behind before, (reachingDefinitions entryLoop.withMetadata []).exit.get? 0 = some behind ∧
          (reachingDefinitions entryLoop.withMetadata []).entry.get? 1 = some before ∧
          (behind.subset before = true ↔ (1 : BlockId) ≠ 0 ∨
            behind.subset (.ofList []) = true) := by
  have hconv : (reachingDefinitions entryLoop.withMetadata []).converged = true := by decide +kernel
  have hreach : entryLoop.withMetadata.Reachable 0 := ⟨by decide +kernel, .refl⟩
  have hfound : ((entryLoop.withMetadata.block? 0).any fun a => a.succs.contains 1) = true ∧
      (entryLoop.withMetadata.block? 1).isSome = true := by decide +kernel
  obtain ⟨a, ha, hedge⟩ := (Option.any_eq_true _ _).mp hfound.1
  obtain ⟨b, hb⟩ := Option.isSome_iff_exists.mp hfound.2
  obtain ⟨hamem, haid⟩ := Graph.block?_eq_some_iff.mp ha
  obtain ⟨hbmem, hbid⟩ := Graph.block?_eq_some_iff.mp hb
  have hedge : 1 ∈ a.succs := List.contains_iff_mem.mp hedge
  have hleq := leq_along_edge_iff (reaching Instr) entryLoop (.ofList []) rfl (powerset_lawful _)
    hconv hamem hbmem (haid ▸ hreach) (hbid ▸ hedge)
  rw [haid, hbid] at hleq
  exact ⟨hconv, hreach, a, b, ha, hb, hedge, hleq⟩

/-- The definition in the loop flows out of the entry along an edge that leads back to it, and does
not flow in. -/
theorem not_leq_into_entry :
    (reachingDefinitions entryLoop.withMetadata []).converged = true ∧
      entryLoop.withMetadata.Reachable 0 ∧
      ∃ b behind before, entryLoop.withMetadata.block? 0 = some b ∧ 0 ∈ b.succs ∧
        (reachingDefinitions entryLoop.withMetadata []).exit.get? 0 = some behind ∧
        (reachingDefinitions entryLoop.withMetadata []).entry.get? 0 = some before ∧
        (powerset Definition).leq behind before = false := by
  have htest : ((entryLoop.withMetadata.block? 0).any fun b => b.succs.contains 0) = true ∧
      (((reachingDefinitions entryLoop.withMetadata []).exit.get? 0).any fun behind =>
        ((reachingDefinitions entryLoop.withMetadata []).entry.get? 0).any fun before =>
          (powerset Definition).leq behind before == false) = true := by decide +kernel
  obtain ⟨b, hb, hedge⟩ := (Option.any_eq_true _ _).mp htest.1
  obtain ⟨behind, hbehind, htest⟩ := (Option.any_eq_true _ _).mp htest.2
  obtain ⟨before, hbefore, hleq⟩ := (Option.any_eq_true _ _).mp htest
  exact ⟨by decide +kernel, ⟨by decide +kernel, .refl⟩, b, behind, before, hb,
    List.contains_iff_mem.mp hedge, hbehind, hbefore, beq_iff_eq.mp hleq⟩

/-! ### Joins over all paths -/

namespace Problem

variable {p : Problem σ L} {g : Graph σ} {initial : L} {step : Graph.Place σ → L → L}

/-- A forward problem that crosses blocks statement by statement. Steps keep the order of facts and
distribute over joins. -/
structure Stepwise (p : Problem σ L) (g : Graph σ) (step : Graph.Place σ → L → L) : Prop where
  forward : p.direction = .forward
  across : ∀ b ∈ g.blocks, ∀ fact, p.acrossBlock b fact = (Graph.placesBack b).foldr step fact
  mono : ∀ place x y, p.lattice.leq x y = true → p.lattice.leq (step place x) (step place y) = true
  join : ∀ place x y,
    p.lattice.leq (step place (p.lattice.join x y)) (p.lattice.join (step place x) (step place y)) =
      true

/-- The fact in front of statement number `k` of a block, from the fact at its entry. -/
def factBefore (p : Problem σ L) (step : Graph.Place σ → L → L) (r : Solution L) (b : Block σ)
    (k : Nat) : L :=
  (Graph.placesBefore b k).foldr step (p.factAt r.entry b.id)

/-- Without effects of terminators and whole blocks, blocks are crossed statement by statement. -/
lemma acrossBlock_eq_foldr (hdir : p.direction = .forward) (hterm : p.transfer.term? = none)
    (hblock : p.transfer.block? = none) (b : Block σ) (fact : L) :
    p.acrossBlock b fact =
      (Graph.placesBack b).foldr (fun place => p.transfer.stmt place.2.2) fact := by
  rw [← Graph.placesBefore_length, Graph.foldr_placesBefore, List.take_length]
  simp only [acrossBlock, acrossTerm, hblock, hdir, hterm]

/-- A replay lists the facts in front of statements. -/
lemma factAtStmt_eq_factBefore (hdir : p.direction = .forward) (r : Solution L) (b : Block σ)
    (k : Nat) :
    p.factAtStmt r b k = p.factBefore (fun place => p.transfer.stmt place.2.2) r b k := by
  rw [factBefore, Graph.foldr_placesBefore]
  simp only [factAtStmt, across, hdir]

/-- The effects of the paths to a place on the initial fact. -/
def pathEffects (g : Graph σ) (step : Graph.Place σ → L → L) (initial : L) (b : Block σ) (k : Nat) :
    Set L :=
  {fact | ∃ past, g.Path past b k ∧ past.foldr step initial = fact}

/-- Facts below a join of the effects of finitely many paths to a place. -/
inductive Attained (p : Problem σ L) (g : Graph σ) (step : Graph.Place σ → L → L) (initial : L)
    (b : Block σ) (k : Nat) : L → Prop where
  | path {past : List (Graph.Place σ)} (h : g.Path past b k) :
      Attained p g step initial b k (past.foldr step initial)
  | join {x y : L} (hx : Attained p g step initial b k x) (hy : Attained p g step initial b k y) :
      Attained p g step initial b k (p.lattice.join x y)
  | weaken {x y : L} (hy : Attained p g step initial b k y) (h : p.lattice.leq x y = true) :
      Attained p g step initial b k x

namespace Attained

variable {b : Block σ} {k : Nat} {x : L}

/-- What is above the effects of all paths is above every attained fact. -/
lemma leq (hl : p.lattice.Lawful) (h : p.Attained g step initial b k x) {bound : L}
    (hbound : ∀ effect ∈ pathEffects g step initial b k, p.lattice.leq effect bound = true) :
    p.lattice.leq x bound = true := by
  induction h with
  | path h => exact hbound _ ⟨_, h, rfl⟩
  | join _ _ ihx ihy => exact hl.join_leq ihx ihy
  | weaken _ h ih => exact hl.leq_trans h ih

/-- Bottom is attained at the front of a reachable block. -/
lemma bottom (hl : p.lattice.Lawful) (hb : b ∈ g.blocks) (hreach : g.Reachable b.id) :
    p.Attained g step initial b 0 p.lattice.bottom := by
  obtain ⟨past, hpast⟩ := Graph.exists_path hb hreach
  exact (Attained.path hpast).weaken (hl.bottom_leq _)

/-- A statement takes attained facts to attained facts. -/
lemma advance (hp : p.Stepwise g step) (h : p.Attained g step initial b k x) {s : σ}
    (hs : b.stmts[k]? = some s) : p.Attained g step initial b (k + 1) (step (b, k, s) x) := by
  induction h with
  | path h => exact .path (h.step hs)
  | join _ _ ihx ihy => exact (ihx.join ihy).weaken (hp.join _ _ _)
  | weaken _ h ih => exact ih.weaken (hp.mono _ _ _ h)

/-- From the front of a block, attained facts lead to attained facts at each of its statements. -/
lemma before (hp : p.Stepwise g step) (h : p.Attained g step initial b 0 x)
    (hk : k ≤ b.stmts.length) :
    p.Attained g step initial b k ((Graph.placesBefore b k).foldr step x) := by
  induction k with
  | zero => simpa using h
  | succ k ih =>
    have hstmt := List.getElem?_eq_getElem hk
    rw [Graph.placesBefore_succ hstmt]
    exact (ih (Nat.le_of_succ_le hk)).advance hp hstmt

/-- A block takes attained facts to attained facts. -/
lemma across (hp : p.Stepwise g step) (hb : b ∈ g.blocks) (h : p.Attained g step initial b 0 x) :
    p.Attained g step initial b b.stmts.length (p.acrossBlock b x) := by
  rw [hp.across b hb, ← Graph.placesBefore_length]
  exact h.before hp (Nat.le_refl _)

/-- What is attained at the end of a block is attained in front of its successors. -/
lemma next {c : Block σ} (h : p.Attained g step initial b b.stmts.length x) (hedge : c.id ∈ b.succs)
    (hc : c ∈ g.blocks) : p.Attained g step initial c 0 x := by
  induction h with
  | path h => exact .path (h.next hedge (Graph.block?_of_mem hc))
  | join _ _ ihx ihy => exact ihx.join ihy
  | weaken _ h ih => exact ih.weaken h

/-- Attained facts have attained joins. -/
lemma joinOver {facts : Table BlockId L} {ids : List BlockId}
    (hx : p.Attained g step initial b k x)
    (h : ∀ id ∈ ids, ∀ fact, facts.get? id = some fact → p.Attained g step initial b k fact) :
    p.Attained g step initial b k (p.joinOver facts x ids) := by
  rw [Problem.joinOver]
  refine List.foldlRecOn ids _ (motive := p.Attained g step initial b k) hx ?_
  intro acc hacc id hid
  cases hget : facts.get? id with
  | none => exact hacc
  | some fact => exact hacc.join (h id hid fact hget)

end Attained

/-! ### A run holds attained facts -/

/-- The facts of reachable blocks are attained. Only reachable blocks wait, and nothing has flowed
out of the others. -/
structure Sourced (p : Problem σ L) (g : Graph σ) (step : Graph.Place σ → L → L) (initial : L)
    (s : State L) : Prop where
  entry : ∀ b ∈ g.blocks, g.Reachable b.id → ∀ fact, s.entry.get? b.id = some fact →
    p.Attained g step initial b 0 fact
  exit : ∀ b ∈ g.blocks, g.Reachable b.id → ∀ fact, s.exit.get? b.id = some fact →
    p.Attained g step initial b b.stmts.length fact
  waiting : ∀ id ∈ s.queue, g.Reachable id
  untouched : ∀ id fact, ¬ g.Reachable id → s.exit.get? id = some fact → fact = p.lattice.bottom

section Run

variable [Statement σ] (hg : g.UpToDate) (hl : p.lattice.Lawful) (hp : p.Stepwise g step)
  {past : List (Graph.Place σ)} {k : Nat}
include hg hl hp

/-- A reachable block gathers an attained fact. -/
lemma Sourced.gathered (hs : p.Sourced g step initial s) (hb : b ∈ g.blocks)
    (hreach : g.Reachable b.id) :
    p.Attained g step initial b 0 (p.gathered g initial s.exit b) := by
  simp only [Problem.gathered, hp.forward]
  split
  · next hid => exact .path (.start (hid ▸ Graph.block?_of_mem hb))
  · refine (Attained.bottom hl hb hreach).joinOver fun id hid fact hget => ?_
    obtain ⟨a, hfound, hedge⟩ := (hg.mem_preds hb).mp hid
    obtain ⟨ha, rfl⟩ := Graph.block?_eq_some_iff.mp hfound
    by_cases hpred : g.Reachable a.id
    · exact (hs.exit a ha hpred fact hget).next hedge hb
    · rw [hs.untouched a.id fact hpred hget]
      exact Attained.bottom hl hb hreach

/-- A visit leaves attained facts. -/
lemma Sourced.visit {queue : List BlockId} (hseed : s.entry.get? g.entry = some initial)
    (hs : p.Sourced g step initial s)
    (hb : b ∈ g.blocks) (hq : s.queue = b.id :: queue) :
    p.Sourced g step initial (p.visit g initial b { s with queue }) := by
  have hv := visit_visited p g initial b queue fun _ _ => hseed
  have hreach : g.Reachable b.id := hs.waiting b.id (by rw [hq]; exact List.mem_cons_self ..)
  have hrest : ∀ id ∈ queue, g.Reachable id := fun id hid =>
    hs.waiting id (by rw [hq]; exact List.mem_cons_of_mem _ hid)
  have hgathered := hs.gathered hg hl hp hb hreach
  have hin := @hv.inflow_cases
  have hout := @hv.outflow_cases
  simp only [Problem.inflow, Problem.outflow, hp.forward] at hin hout
  refine ⟨fun c hc hcreach x hget => ?_, fun c hc hcreach x hget => ?_,
    fun id hid => hv.reachable hp.forward hb hreach hrest hid, fun id x hid hget => ?_⟩
  · rcases hin hget with ⟨heq, rfl⟩ | hget
    · obtain rfl := Graph.eq_of_id_eq hc hb heq
      exact hgathered
    · exact hs.entry c hc hcreach x hget
  · rcases hout hget with ⟨heq, rfl⟩ | hget
    · obtain rfl := Graph.eq_of_id_eq hc hb heq
      exact hgathered.across hp hb
    · exact hs.exit c hc hcreach x hget
  · rcases hout hget with ⟨rfl, -⟩ | hget
    · exact absurd hreach hid
    · exact hs.untouched id x hid hget

/-- At the start the entry has the initial fact, and all others are bottom. -/
lemma sourced_start (hentry : g.has g.entry = true) :
    p.Sourced g step initial (p.start g initial) := by
  have hin := @inflow_start_cases _ _ p g initial
  have hout := @eq_bottom_of_outflow_start _ _ p g initial
  simp only [Problem.inflow, Problem.outflow, hp.forward] at hin hout
  refine ⟨fun b hb hreach x hget => ?_, fun b hb hreach x hget => ?_,
    fun id hid => reachable_of_mem_start_queue hg hentry hid, fun id x _ hget => hout hget⟩
  · rcases hin hget with rfl | ⟨rfl, ⟨-, hid⟩ | ⟨hdir, -⟩⟩
    · exact Attained.bottom hl hb hreach
    · exact .path (.start (hid ▸ Graph.block?_of_mem hb))
    · cases hdir
  · rw [hout hget]
    obtain ⟨past, hpast⟩ := Graph.exists_path hb hreach
    exact (Attained.path hpast.across).weaken (hl.bottom_leq _)

/-- **No fact is more than a join of paths**: the facts at the entries of reachable blocks are
attained. -/
lemma attained_solve (hb : b ∈ g.blocks) (hreach : g.Reachable b.id) :
    p.Attained g step initial b 0 (p.factAt (p.solve g initial).entry b.id) := by
  obtain ⟨s, ⟨hinv, hs⟩, hin, -⟩ := solve_keeps p g initial
    (P := fun s => p.Invariant g initial s ∧ p.Sourced g step initial s)
    ⟨invariant_start hg hreach.1, sourced_start hg hl hp hreach.1⟩
    (fun s id queue hs hq hnone => ⟨hs.1.skip hq hnone, hs.2.entry, hs.2.exit, fun x hx =>
      hs.2.waiting x (by rw [hq]; exact List.mem_cons_of_mem _ hx), hs.2.untouched⟩)
    (fun s id queue c hs hq hc => by
      obtain ⟨hmem, rfl⟩ := Graph.block?_eq_some_iff.mp hc
      exact ⟨hs.1.visit hg hl.equal_refl hmem hq,
        hs.2.visit hg hl hp (hs.1.seed hp.forward) hmem hq⟩)
  obtain ⟨fact, hfact⟩ := hinv.exists_entry hp.forward hreach
  rw [hin, factAt, hfact, Option.getD_some]
  exact hs.entry b hb hreach fact hfact

/-! ### Facts are joins over all paths -/

/-- The effect of a path is below the fact where it leads, if paths of its kind bring nothing back
to the entry of the graph that the initial fact does not have. -/
lemma leq_factBefore_of_kept (hconv : (p.solve g initial).converged = true)
    (kept : List (Graph.Place σ) → Prop) (hkept : ∀ place past, kept (place :: past) → kept past)
    (hback : ∀ past a, g.Path past a a.stmts.length → kept past → g.entry ∈ a.succs →
      p.lattice.leq (past.foldr step initial) initial = true)
    (h : g.Path past b k) (hpast : kept past) :
    p.lattice.leq (past.foldr step initial) (p.factBefore step (p.solve g initial) b k) = true := by
  induction h with
  | start hb =>
    obtain ⟨-, hid⟩ := Graph.block?_eq_some_iff.mp hb
    have hseed := solve_entry hg hp.forward initial hl.equal_refl (Graph.has_of_block? hb)
    rw [factBefore, Graph.placesBefore_zero, factAt, hid, hseed]
    exact hl.leq_refl initial
  | step _ hs ih =>
    rw [factBefore, Graph.placesBefore_succ hs]
    exact hp.mono _ _ _ (ih (hkept _ _ hpast))
  | @next past a c id h hedge hfound ih =>
    obtain ⟨hc, rfl⟩ := Graph.block?_eq_some_iff.mp hfound
    obtain ⟨ha, hreach⟩ := h.reachable
    rw [factBefore, Graph.placesBefore_zero, factAt]
    by_cases hid : c.id = g.entry
    · have hseed := solve_entry hg hp.forward initial hl.equal_refl hreach.1
      rw [hid, hseed]
      exact hback past a h hpast (hid ▸ hedge)
    · obtain ⟨behind, hbehind, hequal⟩ := solve_exit hg hp.forward hl hconv ha hreach
      obtain ⟨before, hbefore, hle⟩ :=
        leq_of_edge hg hp.forward hl hconv ha hc hreach hedge hid hbehind
      have hend := ih hpast
      rw [factBefore, Graph.placesBefore_length, ← hp.across a ha] at hend
      rw [hbefore]
      exact hl.leq_trans hend (hl.leq_trans (hl.leq_of_equal hequal) hle)

variable (hback : ∀ b ∈ g.blocks, g.entry ∉ b.succs)
  (hconv : (p.solve g initial).converged = true)
include hback hconv

/-- **No path is missed**: the effect of a path is below the fact where it leads. -/
lemma leq_factBefore_of_path (h : g.Path past b k) :
    p.lattice.leq (past.foldr step initial) (p.factBefore step (p.solve g initial) b k) = true :=
  leq_factBefore_of_kept hg hl hp hconv (fun _ => True) (fun _ _ _ => trivial)
    (fun _ a ha _ hedge => absurd hedge (hback a ha.reachable.1)) h trivial

/-- **Facts are joins over all paths**: the fact in front of a statement, or at the end of a block,
is the least one above the effects of all paths that lead there. -/
lemma solve_isJoin (hb : b ∈ g.blocks) (hreach : g.Reachable b.id) (hk : k ≤ b.stmts.length) :
    p.lattice.IsJoin (pathEffects g step initial b k)
      (p.factBefore step (p.solve g initial) b k) where
  above := by
    rintro _ ⟨past, hpast, rfl⟩
    exact leq_factBefore_of_path hg hl hp hback hconv hpast
  least _ hbound := ((attained_solve hg hl hp hb hreach).before hp hk).leq hl hbound

end Run

/-! ### Blocks that no path leads to -/

/-- A run keeps to the reachable blocks: only these wait, and at the entry of the others is
bottom. -/
structure Confined (p : Problem σ L) (g : Graph σ) (s : State L) : Prop where
  waiting : ∀ id ∈ s.queue, g.Reachable id
  outside : ∀ id fact, ¬ g.Reachable id → s.entry.get? id = some fact → fact = p.lattice.bottom

section Confined

variable (hdir : p.direction = .forward)
include hdir

/-- A visit sets the fact of a reachable block, and queues blocks behind it. -/
lemma Confined.visit {queue : List BlockId} (hs : p.Confined g s)
    (hseed : s.entry.get? g.entry = some initial) (hb : b ∈ g.blocks)
    (hq : s.queue = b.id :: queue) :
    p.Confined g (p.visit g initial b { s with queue }) := by
  have hv := visit_visited p g initial b queue fun _ _ => hseed
  have hreach : g.Reachable b.id := hs.waiting b.id (by simp [hq])
  have hrest : ∀ id ∈ queue, g.Reachable id := fun id hid => hs.waiting id (by simp [hq, hid])
  have hin := @hv.inflow_cases
  simp only [Problem.inflow, hdir] at hin
  refine ⟨fun id hid => hv.reachable hdir hb hreach hrest hid, fun id fact hid hget => ?_⟩
  rcases hin hget with ⟨rfl, -⟩ | hget
  · exact absurd hreach hid
  · exact hs.outside id fact hid hget

variable [Statement σ] (hg : g.UpToDate) (hentry : g.has g.entry = true)
include hg hentry

lemma confined_start : p.Confined g (p.start g initial) where
  waiting id hid := reachable_of_mem_start_queue hg hentry hid
  outside id fact hid hget := by
    have hne : id ≠ g.entry := by
      rintro rfl
      exact hid ⟨hentry, .refl⟩
    simp only [start, hdir, hentry, if_true] at hget
    rw [Table.get?_set_ne _ _ hne] at hget
    exact Table.eq_of_get?_const hget

/-- **Nothing is known where no path leads**: the entry of a block that cannot be reached keeps
bottom. -/
lemma factAt_entry_of_not_reachable (hrefl : ∀ fact, p.lattice.equal fact fact = true)
    {id : BlockId} (hid : ¬ g.Reachable id) :
    p.factAt (p.solve g initial).entry id = p.lattice.bottom := by
  obtain ⟨s, ⟨-, hs⟩, hin, -⟩ := solve_keeps p g initial
    (P := fun s => p.Invariant g initial s ∧ p.Confined g s)
    ⟨invariant_start hg hentry, confined_start hdir hg hentry⟩
    (fun s id queue hs hq hnone => ⟨hs.1.skip hq hnone,
      fun x hx => hs.2.waiting x (by simp [hq, hx]), hs.2.outside⟩)
    (fun s id queue b hs hq hb => by
      obtain ⟨hmem, rfl⟩ := Graph.block?_eq_some_iff.mp hb
      exact ⟨hs.1.visit hg hrefl hmem hq, hs.2.visit hdir (hs.1.seed hdir) hmem hq⟩)
  rw [hin, factAt]
  cases hget : s.entry.get? id with
  | none => rfl
  | some fact => exact hs.outside id fact hid hget

end Confined

/-! ### Graphs without their entry -/

/-- All facts of a state have a property. -/
structure Within (P : L → Prop) (s : State L) : Prop where
  entry : ∀ id fact, s.entry.get? id = some fact → P fact
  exit : ∀ id fact, s.exit.get? id = some fact → P fact

section NoEntry

variable {P : L → Prop} (hdir : p.direction = .forward) (hentry : g.has g.entry = false)
  (hbottom : P p.lattice.bottom) (hjoin : ∀ x y, P x → P y → P (p.lattice.join x y))
  (hacross : ∀ b ∈ g.blocks, ∀ x, P x → P (p.acrossBlock b x))
include hdir hentry hbottom

lemma within_start : Within P (p.start g initial) := by
  have hbottoms : ∀ id fact,
      (Table.const g.ids p.lattice.bottom).get? id = some fact →
        P fact := by
    intro id fact hget
    rw [Table.eq_of_get?_const hget]
    exact hbottom
  constructor <;> simpa only [start, hdir, hentry, Bool.false_eq_true, if_false] using hbottoms

include hjoin hacross

lemma Within.visit (hs : Within P s) (hb : b ∈ g.blocks) :
    Within P (p.visit g initial b s) := by
  have hne : b.id ≠ g.entry := by
    intro heq
    rw [← heq, Graph.has_of_block? (Graph.block?_of_mem hb)] at hentry
    contradiction
  obtain ⟨hinflow, houtflow⟩ := visit_visited p g initial b (s := s) s.queue fun _ heq =>
    absurd heq hne
  simp only [Problem.inflow, Problem.outflow, gathered, hdir, if_neg hne] at hinflow houtflow
  have hgathered : P (p.joinOver s.exit p.lattice.bottom b.preds) := by
    rw [joinOver]
    refine List.foldlRecOn b.preds _ (motive := P) hbottom fun acc hacc pred _ => ?_
    cases hget : s.exit.get? pred with
    | none => exact hacc
    | some fact => exact hjoin acc fact hacc (hs.exit pred fact hget)
  have hset : ∀ {t : Table BlockId L} {new : L}, (∀ id fact, t.get? id = some fact → P fact) →
      P new → ∀ id fact, (t.set b.id new).get? id = some fact → P fact := by
    intro t new ht hnew id fact hget
    rw [Table.get?_set] at hget
    split at hget
    · exact Option.some.inj hget ▸ hnew
    · exact ht id fact hget
  refine ⟨hinflow ▸ hset hs.entry hgathered, ?_⟩
  rcases houtflow with ⟨-, hout, -⟩ | ⟨-, hout, -⟩ <;> rw [hout]
  · exact hs.exit
  · exact hset hs.exit (hacross b hb _ hgathered)

/-- Where a graph lacks its own entry no path leads anywhere, but then all its blocks are visited.
The facts that this makes come from bottom alone. -/
lemma factAt_entry_of_no_entry (initial : L) (id : BlockId) :
    P (p.factAt (p.solve g initial).entry id) := by
  obtain ⟨s, hs, hin, -⟩ := solve_keeps p g initial (P := Within P)
    (within_start hdir hentry hbottom)
    (fun s id queue hs _ _ => ⟨hs.entry, hs.exit⟩)
    (fun s id queue b hs _ hb => Within.visit (s := { s with queue }) hdir hentry hbottom
      hjoin hacross ⟨hs.entry, hs.exit⟩ (Graph.block?_eq_some_iff.mp hb).1)
  rw [hin, factAt]
  cases hget : s.entry.get? id with
  | none => exact hbottom
  | some fact => exact hs.entry id fact hget

end NoEntry

end Problem

end ContractAudit.Fixpoint
