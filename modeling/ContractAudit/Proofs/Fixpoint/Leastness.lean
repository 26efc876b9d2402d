import ContractAudit.Proofs.Domain.Laws
import ContractAudit.Proofs.Fixpoint.Equations

/-!
A solution is below every assignment of facts that satisfies the data-flow inequalities.

Facts are computed from scratch at each visit, so nothing is to be said about how they grow: every
fact that a run ever holds for a reachable block is below the assignment (`Bounded`), whatever the
order of visits and wherever the run stops. Unreachable blocks need care. Forward, they lie in front
of reachable ones, but are never visited and keep the bottom fact; backward, they are visited, but
nothing reachable gathers from them.

* `Assignment`, `Inequalities`: facts at both ends of the blocks, and when there is enough of them.
* `gathered_leq`, `Bounded.visit`: what one visit does to facts below the assignment.
* `solve_leq`: the facts of a solution are below the assignment.
-/

namespace ContractAudit.Fixpoint

open Domain ContractAudit.Flow

variable {σ L : Type}

/-- Facts at both ends of the blocks. -/
structure Assignment (L : Type) where
  entry : BlockId → L
  exit : BlockId → L

namespace Problem

variable (p : Problem σ L) (g : Graph σ) (initial : L)

/-- The blocks of a graph keep the order of facts. -/
def Monotone : Prop :=
  ∀ b ∈ g.blocks, ∀ x y, p.lattice.leq x y = true →
    p.lattice.leq (p.acrossBlock b x) (p.acrossBlock b y) = true

/-- The data-flow inequalities at the reachable blocks. Forward, the fact at the entry of the graph
is above the initial fact, the fact at the entry of a block is above the facts at the exits of its
reachable predecessors, and the fact at its exit is above what the block makes of that; backward,
the fact at the exit of a block is above the initial fact if control leaves there and above the
facts at the entries of its successors, and the fact at its entry is above what the block makes of
that. -/
def Inequalities (a : Assignment L) : Prop :=
  match p.direction with
  | .forward =>
    p.lattice.leq initial (a.entry g.entry) = true ∧
      ∀ b ∈ g.blocks, g.Reachable b.id →
        (∀ id ∈ b.preds, g.Reachable id → p.lattice.leq (a.exit id) (a.entry b.id) = true) ∧
          p.lattice.leq (p.acrossBlock b (a.entry b.id)) (a.exit b.id) = true
  | .backward =>
    ∀ b ∈ g.blocks, g.Reachable b.id →
      (b.isExit = true → p.lattice.leq initial (a.exit b.id) = true) ∧
        (∀ id ∈ b.succs, g.has id = true → p.lattice.leq (a.entry id) (a.exit b.id) = true) ∧
          p.lattice.leq (p.acrossBlock b (a.exit b.id)) (a.entry b.id) = true

/-- What an assignment says at the side of a block where facts flow in. -/
def inBound (a : Assignment L) (id : BlockId) : L :=
  match p.direction with
  | .forward => a.entry id
  | .backward => a.exit id

/-- What an assignment says at the side of a block where facts flow out. -/
def outBound (a : Assignment L) (id : BlockId) : L :=
  match p.direction with
  | .forward => a.exit id
  | .backward => a.entry id

/-- The facts of the reachable blocks are below an assignment. If facts flow forward, only reachable
blocks wait, and nothing has flowed out of the others. -/
structure Bounded (a : Assignment L) (s : State L) : Prop where
  inflow : ∀ id fact, g.Reachable id → (p.inflow s).get? id = some fact →
    p.lattice.leq fact (p.inBound a id) = true
  outflow : ∀ id fact, g.Reachable id → (p.outflow s).get? id = some fact →
    p.lattice.leq fact (p.outBound a id) = true
  waiting : p.direction = .forward → ∀ id ∈ s.queue, g.Reachable id
  untouched : p.direction = .forward → ∀ id fact, ¬ g.Reachable id →
    (p.outflow s).get? id = some fact → fact = p.lattice.bottom

variable {p g initial} {a : Assignment L}

/-! ### Gathering -/

/-- A join is below what is above its start and above all its facts. -/
lemma joinOver_leq (hl : p.lattice.Lawful) {facts : Table BlockId L} {start bound : L}
    {ids : List BlockId} (hstart : p.lattice.leq start bound = true)
    (hfacts : ∀ id ∈ ids, ∀ fact, facts.get? id = some fact → p.lattice.leq fact bound = true) :
    p.lattice.leq (p.joinOver facts start ids) bound = true := by
  rw [joinOver]
  refine List.foldlRecOn ids _ (motive := fun acc => p.lattice.leq acc bound = true) hstart ?_
  intro acc hacc id hid
  cases hget : facts.get? id with
  | none => exact hacc
  | some fact => exact hl.join_leq hacc (hfacts id hid fact hget)

lemma leq_joinOver_start (hl : p.lattice.Lawful) (facts : Table BlockId L) (start : L)
    (ids : List BlockId) : p.lattice.leq start (p.joinOver facts start ids) = true := by
  rw [joinOver]
  refine List.foldlRecOn ids _ (motive := fun acc => p.lattice.leq start acc = true)
    (hl.leq_refl start) ?_
  intro acc hacc id _
  cases facts.get? id with
  | none => exact hacc
  | some fact => exact hl.leq_trans hacc (hl.leq_join_left acc fact)

/-- A join is above each of its facts. -/
lemma leq_joinOver (hl : p.lattice.Lawful) {facts : Table BlockId L} {id : BlockId} {fact : L}
    (hget : facts.get? id = some fact) {ids : List BlockId} (hid : id ∈ ids) (start : L) :
    p.lattice.leq fact (p.joinOver facts start ids) = true := by
  induction ids generalizing start with
  | nil => exact absurd hid List.not_mem_nil
  | cons x rest ih =>
    rcases List.mem_cons.mp hid with rfl | hid
    · have hrest := leq_joinOver_start hl facts (p.lattice.join start fact) rest
      rw [joinOver, List.foldl_cons, hget]
      exact hl.leq_trans (hl.leq_join_right start fact) hrest
    · exact ih hid _

/-- A reachable block gathers a fact below the assignment. -/
lemma gathered_leq [Statement σ] (hg : g.UpToDate) (hl : p.lattice.Lawful)
    (ha : p.Inequalities g initial a) {s : State L} (hinv : p.Invariant g initial s)
    (hs : p.Bounded g a s) {b : Block σ} (hb : b ∈ g.blocks) (hreach : g.Reachable b.id) :
    p.lattice.leq (p.gathered g initial (p.outflow s) b) (p.inBound a b.id) = true := by
  have hout := hs.outflow
  have huntouched := hs.untouched
  rw [Inequalities] at ha
  cases hdir : p.direction with
  | forward =>
    simp only [hdir] at ha
    obtain ⟨hinitial, hblocks⟩ := ha
    obtain ⟨hpreds, -⟩ := hblocks b hb hreach
    simp only [gathered, inBound, outBound, hdir] at hout ⊢
    split
    · next hid =>
      rw [hid]
      exact hinitial
    · refine joinOver_leq hl (hl.bottom_leq _) fun id hid fact hget => ?_
      by_cases hpred : g.Reachable id
      · exact hl.leq_trans (hout id fact hpred hget) (hpreds id hid hpred)
      · rw [huntouched hdir id fact hpred hget]
        exact hl.bottom_leq _
  | backward =>
    simp only [hdir] at ha
    obtain ⟨hexit, hsuccs, -⟩ := ha b hb hreach
    simp only [gathered, inBound, outBound, hdir] at hout ⊢
    refine joinOver_leq hl ?_ fun id hid fact hget => ?_
    · rw [hg.isExit_eq hb]
      split
      · next h => exact hexit h
      · exact hl.bottom_leq _
    · have hhas : g.has id = true := by rw [← hinv.outflow_has, Table.has, hget, Option.isSome_some]
      have hnext := Graph.mem_nexts.mpr ⟨b, Graph.block?_of_mem hb, hid, hhas⟩
      exact hl.leq_trans (hout id fact (hreach.step hnext) hget) (hsuccs id hid hhas)

/-- What a block makes of the assignment is below the assignment. -/
lemma Inequalities.across (ha : p.Inequalities g initial a) {b : Block σ} (hb : b ∈ g.blocks)
    (hreach : g.Reachable b.id) :
    p.lattice.leq (p.acrossBlock b (p.inBound a b.id)) (p.outBound a b.id) = true := by
  rw [Inequalities] at ha
  cases hdir : p.direction with
  | forward =>
    simp only [inBound, outBound, hdir] at ha ⊢
    exact (ha.2 b hb hreach).2
  | backward =>
    simp only [inBound, outBound, hdir] at ha ⊢
    exact (ha b hb hreach).2.2

/-! ### One visit -/

/-- A visit leaves the facts below the assignment. -/
lemma Bounded.visit [Statement σ] (hg : g.UpToDate) (hl : p.lattice.Lawful) (hmono : p.Monotone g)
    (ha : p.Inequalities g initial a) {s : State L} {b : Block σ} {queue : List BlockId}
    (hinv : p.Invariant g initial s) (hs : p.Bounded g a s) (hb : b ∈ g.blocks)
    (hq : s.queue = b.id :: queue) : p.Bounded g a (p.visit g initial b { s with queue }) := by
  have hv := visit_visited p g initial b queue fun hdir _ => hinv.seed hdir
  have hgathered : g.Reachable b.id → _ := gathered_leq hg hl ha hinv hs hb
  have hvisited : p.direction = .forward → g.Reachable b.id := fun hdir =>
    hs.waiting hdir b.id (by rw [hq]; exact List.mem_cons_self ..)
  have hrest : p.direction = .forward → ∀ id ∈ queue, g.Reachable id := fun hdir id hid =>
    hs.waiting hdir id (by rw [hq]; exact List.mem_cons_of_mem _ hid)
  refine ⟨fun id x hid hget => ?_, fun id x hid hget => ?_,
    fun hdir id hid => hv.reachable hdir hb (hvisited hdir) (hrest hdir) hid,
    fun hdir id x hid hget => ?_⟩
  · rcases hv.inflow_cases hget with ⟨rfl, rfl⟩ | hget
    · exact hgathered hid
    · exact hs.inflow id x hid hget
  · rcases hv.outflow_cases hget with ⟨rfl, rfl⟩ | hget
    · exact hl.leq_trans (hmono b hb _ _ (hgathered hid)) (ha.across hb hid)
    · exact hs.outflow id x hid hget
  · rcases hv.outflow_cases hget with ⟨rfl, -⟩ | hget
    · exact absurd (hvisited hdir) hid
    · exact hs.untouched hdir id x hid hget

/-! ### The whole run -/

/-- Only reachable blocks wait at the start. -/
lemma reachable_of_mem_start_queue [Statement σ] (hg : g.UpToDate) (hentry : g.has g.entry = true)
    {id : BlockId} (h : id ∈ (p.start g initial).queue) : g.Reachable id := by
  have hfirst : firstVisits g = g.order := by
    rw [firstVisits, if_neg]
    simpa using List.ne_nil_of_mem (hg.mem_order ⟨hentry, .refl⟩)
  refine hg.reachable_of_mem_order ?_
  cases hdir : p.direction <;> simpa [start, hdir, hfirst, mem_pushAll] using h

/-- At the start all facts are below the assignment. -/
lemma bounded_start [Statement σ] (hg : g.UpToDate) (hl : p.lattice.Lawful)
    (ha : p.Inequalities g initial a) (hentry : g.has g.entry = true) :
    p.Bounded g a (p.start g initial) := by
  refine ⟨fun id fact hid hget => ?_, fun id fact hid hget => ?_,
    fun _ id hid => reachable_of_mem_start_queue hg hentry hid,
    fun _ id fact _ hget => eq_bottom_of_outflow_start hget⟩
  · rw [Inequalities] at ha
    rcases inflow_start_cases hget with rfl | ⟨rfl, ⟨hdir, rfl⟩ | ⟨hdir, hexit⟩⟩
    · exact hl.bottom_leq _
    · simp only [inBound, hdir] at ha ⊢
      exact ha.1
    · simp only [inBound, hdir] at ha ⊢
      obtain ⟨b, hb⟩ := Graph.has_iff.mp hid.has
      obtain ⟨hmem, rfl⟩ := Graph.block?_eq_some_iff.mp hb
      refine (ha b hmem hid).1 ?_
      rw [← hg.isExit_eq hmem, Graph.isExit, List.contains_iff_mem]
      exact hexit
  · rw [eq_bottom_of_outflow_start hget]
    exact hl.bottom_leq _

/-- The facts at the end of a run are below the assignment. -/
lemma solve_bounded [Statement σ] (hg : g.UpToDate) (hl : p.lattice.Lawful) (hmono : p.Monotone g)
    (ha : p.Inequalities g initial a) (hentry : g.has g.entry = true) :
    ∃ s, (p.Invariant g initial s ∧ p.Bounded g a s) ∧ (p.solve g initial).entry = s.entry ∧
      (p.solve g initial).exit = s.exit ∧
      ((p.solve g initial).converged = true → s.queue = []) := by
  refine solve_keeps p g initial (P := fun s => p.Invariant g initial s ∧ p.Bounded g a s)
    ⟨invariant_start hg hentry, bounded_start hg hl ha hentry⟩ ?_ ?_
  · rintro s id queue ⟨hinv, hs⟩ hq hnone
    refine ⟨hinv.skip hq hnone, hs.inflow, hs.outflow, fun hdir x hx => ?_, hs.untouched⟩
    exact hs.waiting hdir x (by rw [hq]; exact List.mem_cons_of_mem _ hx)
  · rintro s id queue b ⟨hinv, hs⟩ hq hb
    obtain ⟨hmem, rfl⟩ := Graph.block?_eq_some_iff.mp hb
    exact ⟨hinv.visit hg hl.equal_refl hmem hq, hs.visit hg hl hmono ha hinv hmem hq⟩

end Problem

/-- **A solution is below every assignment that satisfies the inequalities**, also when it has not
converged. -/
theorem solve_leq [Statement σ] (p : Problem σ L) (g : Graph σ) (initial : L)
    (hl : p.lattice.Lawful) (hmono : p.Monotone g.withMetadata) {a : Assignment L}
    (ha : p.Inequalities g.withMetadata initial a) {id : BlockId}
    (hreach : g.withMetadata.Reachable id) :
    ∃ before behind, (p.solve g.withMetadata initial).entry.get? id = some before ∧
      (p.solve g.withMetadata initial).exit.get? id = some behind ∧
      p.lattice.leq before (a.entry id) = true ∧ p.lattice.leq behind (a.exit id) = true := by
  obtain ⟨s, ⟨hinv, hs⟩, hentry, hexit, -⟩ :=
    Problem.solve_bounded g.withMetadata_upToDate hl hmono ha hreach.1
  obtain ⟨x, hx⟩ : ∃ x, (p.inflow s).get? id = some x := by
    rw [← Option.isSome_iff_exists]
    exact (hinv.inflow_has id).trans hreach.has
  obtain ⟨y, hy⟩ : ∃ y, (p.outflow s).get? id = some y := by
    rw [← Option.isSome_iff_exists]
    exact (hinv.outflow_has id).trans hreach.has
  have hxle := hs.inflow id x hreach hx
  have hyle := hs.outflow id y hreach hy
  rw [hentry, hexit]
  cases hdir : p.direction with
  | forward =>
    simp only [Problem.inflow, Problem.outflow, Problem.inBound, Problem.outBound, hdir]
      at hx hy hxle hyle
    exact ⟨x, y, hx, hy, hxle, hyle⟩
  | backward =>
    simp only [Problem.inflow, Problem.outflow, Problem.inBound, Problem.outBound, hdir]
      at hx hy hxle hyle
    exact ⟨y, x, hy, hx, hyle, hxle⟩

/-- Everything is live everywhere: enough for the live variables of the loop. -/
def sampleBound : Assignment (FinSet Var) :=
  ⟨fun _ => .ofList [[120], [99]], fun _ => .ofList [[120], [99]]⟩

/-- Blocks keep inclusion of the live variables. -/
lemma liveness_monotone (σ : Type) [Statement σ] (g : Graph σ) : (liveness σ).Monotone g := by
  intro b _ s t h
  have hst := FinSet.subset_iff.mp h
  refine FinSet.subset_iff.mpr fun v hv => ?_
  rw [Problem.acrossBlock] at hv ⊢
  simp only [liveness, FinSet.mem_insertAll, FinSet.mem_eraseAll] at hv ⊢
  exact hv.imp_left fun hv => ⟨hst v hv.1, hv.2⟩

/-- The live variables of the loop are below any assignment that satisfies the inequalities, here
the one in which everything is live. -/
theorem solve_leq_loop :
    (liveness Instr).Inequalities sampleLoop.withMetadata .empty sampleBound ∧
      sampleLoop.withMetadata.Reachable 1 ∧
      ∃ before behind, (liveVariables sampleLoop.withMetadata).entry.get? 1 = some before ∧
        (liveVariables sampleLoop.withMetadata).exit.get? 1 = some behind ∧
        before.subset (.ofList [[120], [99]]) = true ∧
        behind.subset (.ofList [[120], [99]]) = true := by
  have hreach : sampleLoop.withMetadata.Reachable 1 :=
    ⟨by decide +kernel, .single (by decide +kernel)⟩
  have hblocks : ∀ b ∈ sampleLoop.withMetadata.blocks,
      (powerset Var).leq ((liveness Instr).acrossBlock b (.ofList [[120], [99]]))
        (.ofList [[120], [99]]) = true := by
    decide +kernel
  have hbound : (liveness Instr).Inequalities sampleLoop.withMetadata .empty sampleBound :=
    fun b hb _ => ⟨fun _ => rfl, fun _ _ _ => rfl, hblocks b hb⟩
  exact ⟨hbound, hreach, solve_leq (liveness Instr) sampleLoop .empty (powerset_lawful Var)
    (liveness_monotone Instr _) hbound hreach⟩

end ContractAudit.Fixpoint
