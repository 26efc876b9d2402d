import ContractAudit.Fixpoint.Classic
import ContractAudit.Flow.Instr
import ContractAudit.Proofs.Flow.Metadata

/-!
A solution that converged satisfies the data-flow equations.

Both directions are one argument. A problem has a table of facts that flow *into* blocks and one of
facts that flow *out* of them; a visit gathers the facts that flow out of the neighbours of a block,
and queues the blocks that gather from it when its own outflow changed.

* `gathered`, `dependents`: what a block gathers, and who gathers from it. `gathered_set` says that
  the outflow of a block matters to its dependents only.
* `Visited`: everything one visit does (`visit_visited`), with `Visited.inflow_cases`,
  `Visited.outflow_cases` and `Visited.queue_cases` for where a fact or a waiting block comes from.
* `run_invariant`, `solve_keeps`: what every visit keeps holds of the solution.
* `Invariant`: every block of the order that does not wait in the queue satisfies its equation
  against the current facts. Each visit keeps it (`Invariant.visit`).
* `solve_settled`: with an empty queue, every reachable block satisfies its equation.
* `solve_equations`: the same for either direction, on the facts of the solution.
-/

namespace ContractAudit.Fixpoint

open Domain ContractAudit.Flow

variable {σ L : Type}

/-! ### The queue -/

lemma mem_push {queue : List BlockId} {id x : BlockId} : x ∈ push queue id ↔ x ∈ queue ∨
    x = id := by
  rw [push]
  split
  · next h =>
      refine ⟨.inl, ?_⟩
      rintro (hx | rfl)
      · exact hx
      · exact h
  · simp

lemma mem_pushAll {queue ids : List BlockId} {x : BlockId} :
    x ∈ pushAll queue ids ↔ x ∈ queue ∨ x ∈ ids := by
  rw [pushAll]
  induction ids generalizing queue with
  | nil => simp
  | cons id rest ih => rw [List.foldl_cons, ih, mem_push, List.mem_cons, or_assoc]

namespace Problem

variable (p : Problem σ L) (g : Graph σ) (initial : L)

/-! ### Facts that flow in and out -/

/-- The facts at the side of the blocks where facts flow in. -/
def inflow (s : State L) : Table BlockId L :=
  match p.direction with
  | .forward => s.entry
  | .backward => s.exit

/-- The facts at the side of the blocks where facts flow out. -/
def outflow (s : State L) : Table BlockId L :=
  match p.direction with
  | .forward => s.exit
  | .backward => s.entry

/-- The fact that flows into a block, given the facts that flow out of blocks. -/
def gathered (out : Table BlockId L) (b : Block σ) : L :=
  match p.direction with
  | .forward => if b.id = g.entry then initial else p.joinOver out p.lattice.bottom b.preds
  | .backward => p.joinOver out (if g.isExit b.id then initial else p.lattice.bottom) b.succs

/-- The blocks that gather from a block. -/
def dependents (b : Block σ) : List BlockId :=
  match p.direction with
  | .forward => b.succs.filter g.has
  | .backward => b.preds.filter g.has

variable {p g initial} {fact : L} {id : BlockId} {s : State L}

/-- A join depends on the facts of its blocks only. -/
lemma joinOver_set {facts : Table BlockId L} {start : L} {ids : List BlockId} (h : id ∉ ids) :
    p.joinOver (facts.set id fact) start ids = p.joinOver facts start ids := by
  rw [joinOver, joinOver]
  refine List.foldl_ext _ _ _ fun acc x hx => ?_
  have hne : x ≠ id := fun he => h (he ▸ hx)
  rw [Table.get?_set_ne facts fact hne]

/-- What flows out of a block matters to its dependents only. -/
lemma gathered_set [Statement σ] (hg : g.UpToDate) {b c : Block σ} (hb : b ∈ g.blocks)
    (hc : c ∈ g.blocks) (hdep : c.id ∉ p.dependents g b) (out : Table BlockId L) (fact : L) :
    p.gathered g initial (out.set b.id fact) c = p.gathered g initial out c := by
  have hhas : g.has c.id = true := Graph.has_of_block? (Graph.block?_of_mem hc)
  rw [dependents] at hdep
  rw [gathered, gathered]
  cases hdir : p.direction with
  | forward =>
    simp only [hdir] at hdep ⊢
    have hpreds : b.id ∉ c.preds := by
      intro hmem
      obtain ⟨a, ha, hsucc⟩ := (hg.mem_preds hc).mp hmem
      rw [Graph.block?_of_mem hb, Option.some.injEq] at ha
      subst ha
      exact hdep (List.mem_filter.mpr ⟨hsucc, hhas⟩)
    rw [joinOver_set hpreds]
  | backward =>
    simp only [hdir] at hdep ⊢
    have hsuccs : b.id ∉ c.succs := by
      intro hmem
      have hpred : c.id ∈ b.preds := (hg.mem_preds hb).mpr ⟨c, Graph.block?_of_mem hc, hmem⟩
      exact hdep (List.mem_filter.mpr ⟨hpred, hhas⟩)
    rw [joinOver_set hsuccs]

/-! ### One visit -/

variable (p g initial) in
/-- What one visit does, where the blocks in `queue` wait behind the one visited. The block gathers
its inflow; then either its outflow stays, being equal to what the block makes of the inflow, or it
is replaced and the dependents are queued. -/
structure Visited (b : Block σ) (s : State L) (queue : List BlockId) (s' : State L) : Prop where
  inflow : p.inflow s' = (p.inflow s).set b.id (p.gathered g initial (p.outflow s) b)
  outflow :
    (p.lattice.equal (p.acrossBlock b (p.gathered g initial (p.outflow s) b))
        (p.factAt (p.outflow s) b.id) = true ∧
      p.outflow s' = p.outflow s ∧ s'.queue = queue) ∨
    (¬ p.lattice.equal (p.acrossBlock b (p.gathered g initial (p.outflow s) b))
        (p.factAt (p.outflow s) b.id) = true ∧
      p.outflow s' =
        (p.outflow s).set b.id (p.acrossBlock b (p.gathered g initial (p.outflow s) b)) ∧
      s'.queue = pushAll queue (p.dependents g b))

variable (p g initial) in
/-- A visit, in a state where the entry of the graph, if that is the block visited and facts flow
forward, has the initial fact. -/
lemma visit_visited (b : Block σ) (queue : List BlockId)
    (hseed : p.direction = .forward → b.id = g.entry → s.entry.get? g.entry = some initial) :
    p.Visited g initial b s queue (p.visit g initial b { s with queue }) := by
  rw [visit]
  cases hdir : p.direction with
  | forward =>
    have hfact : (if b.id == g.entry then p.factAt s.entry b.id
        else p.joinOver s.exit p.lattice.bottom b.preds) = p.gathered g initial s.exit b := by
      simp only [gathered, hdir, beq_iff_eq]
      split
      · next hid => rw [factAt, hid, hseed hdir hid, Option.getD_some]
      · rfl
    constructor <;>
      simp only [visitForward, hfact, Problem.inflow, Problem.outflow, dependents, hdir] <;> split
    · rfl
    · rfl
    · next heq => exact .inl ⟨heq, rfl, rfl⟩
    · next hne => exact .inr ⟨hne, rfl, rfl⟩
  | backward =>
    have hfact : p.joinOver s.entry (if g.isExit b.id then initial else p.lattice.bottom) b.succs
        = p.gathered g initial s.entry b := by
      simp only [gathered, hdir]
    constructor <;>
      simp only [visitBackward, hfact, Problem.inflow, Problem.outflow, dependents, hdir] <;> split
    · rfl
    · rfl
    · next heq => exact .inl ⟨heq, rfl, rfl⟩
    · next hne => exact .inr ⟨hne, rfl, rfl⟩

namespace Visited

variable {b : Block σ} {s s' : State L} {queue : List BlockId}
  (hv : p.Visited g initial b s queue s') {id : BlockId} {fact : L}
include hv

/-- A fact that flows in after a visit has just been gathered, or was there before. -/
lemma inflow_cases (hget : (p.inflow s').get? id = some fact) :
    id = b.id ∧ fact = p.gathered g initial (p.outflow s) b ∨
      (p.inflow s).get? id = some fact := by
  rw [hv.inflow, Table.get?_set] at hget
  split at hget
  · next hid => exact .inl ⟨hid, (Option.some.inj hget).symm⟩
  · exact .inr hget

/-- A fact that flows out after a visit is what the block has just made, or was there before. -/
lemma outflow_cases (hget : (p.outflow s').get? id = some fact) :
    id = b.id ∧ fact = p.acrossBlock b (p.gathered g initial (p.outflow s) b) ∨
      (p.outflow s).get? id = some fact := by
  rcases hv.outflow with ⟨-, ho, -⟩ | ⟨-, ho, -⟩ <;> rw [ho] at hget
  · exact .inr hget
  rw [Table.get?_set] at hget
  split at hget
  · next hid => exact .inl ⟨hid, (Option.some.inj hget).symm⟩
  · exact .inr hget

/-- A block that waits after a visit waited before, or gathers from the visited one. -/
lemma queue_cases (hid : id ∈ s'.queue) : id ∈ queue ∨ id ∈ p.dependents g b := by
  rcases hv.outflow with ⟨-, -, hqueue⟩ | ⟨-, -, hqueue⟩ <;> rw [hqueue] at hid
  · exact .inl hid
  · exact mem_pushAll.mp hid

/-- A block that waits behind the visited one waits on. -/
lemma mem_queue (hid : id ∈ queue) : id ∈ s'.queue := by
  rcases hv.outflow with ⟨-, -, hqueue⟩ | ⟨-, -, hqueue⟩ <;> rw [hqueue]
  · exact hid
  · exact mem_pushAll.mpr (.inl hid)

/-- A visit leaves the outflow of the other blocks alone. -/
lemma factAt_ne (hid : id ≠ b.id) : p.factAt (p.outflow s') id = p.factAt (p.outflow s) id := by
  rcases hv.outflow with ⟨-, ho, -⟩ | ⟨-, ho, -⟩ <;> rw [ho]
  rw [factAt, factAt, Table.get?_set_ne _ _ hid]

/-- A visit leaves the initial fact at the entry. -/
lemma seed (hdir : p.direction = .forward) (hseed : s.entry.get? g.entry = some initial) :
    s'.entry.get? g.entry = some initial := by
  have hentry := hv.inflow
  simp only [Problem.inflow, hdir] at hentry
  rw [hentry, Table.get?_set]
  split
  · next hid => simp only [gathered, hdir, ← hid, if_true]
  · exact hseed

/-- A block that does not wait after a visit gathers what it gathered before: nobody that gathers
from the visited block is left waiting with an old outflow. -/
lemma gathered_eq [Statement σ] (hg : g.UpToDate) (hb : b ∈ g.blocks) {c : Block σ}
    (hc : c ∈ g.blocks) (hwait : c.id ∉ s'.queue) :
    p.gathered g initial (p.outflow s') c = p.gathered g initial (p.outflow s) c := by
  rcases hv.outflow with ⟨-, ho, -⟩ | ⟨-, ho, hqueue⟩ <;> rw [ho]
  refine gathered_set hg hb hc (fun hmem => hwait ?_) _ _
  rw [hqueue]
  exact mem_pushAll.mpr (.inr hmem)

/-- Where facts flow forward, a visit to a reachable block queues reachable blocks. -/
lemma reachable (hdir : p.direction = .forward) (hb : b ∈ g.blocks) (hreach : g.Reachable b.id)
    (hwait : ∀ id ∈ queue, g.Reachable id) (hid : id ∈ s'.queue) : g.Reachable id := by
  rcases hv.queue_cases hid with hid | hid
  · exact hwait id hid
  · simp only [dependents, hdir, List.mem_filter] at hid
    exact hreach.step (Graph.mem_nexts.mpr ⟨b, Graph.block?_of_mem hb, hid⟩)

end Visited

/-! ### The whole run -/

/-- What holds at the start and is kept by every visit holds of the facts of the solution, with an
empty queue if the run converged. -/
lemma run_invariant {P : State L → Prop}
    (hskip : ∀ s id queue, P s → s.queue = id :: queue → g.block? id = none → P { s with queue })
    (hvisit : ∀ s id queue b, P s → s.queue = id :: queue → g.block? id = some b →
      P (p.visit g initial b { s with queue })) :
    ∀ left visits s, P s → ∃ s', P s' ∧ (p.run g initial left visits s).entry = s'.entry ∧
      (p.run g initial left visits s).exit = s'.exit ∧
      ((p.run g initial left visits s).converged = true → s'.queue = []) := by
  intro left
  induction left with
  | zero =>
    intro visits s hs
    cases hq : s.queue with
    | nil => exact ⟨s, hs, by simp [run, hq], by simp [run, hq], fun _ => hq⟩
    | cons id queue => exact ⟨s, hs, by simp [run, hq], by simp [run, hq], by simp [run, hq]⟩
  | succ left ih =>
    intro visits s hs
    rw [run]
    cases hq : s.queue with
    | nil => exact ⟨s, hs, rfl, rfl, fun _ => hq⟩
    | cons id queue =>
      cases hb : g.block? id with
      | none => exact ih _ _ (by rw [hb]; exact hskip s id queue hs hq hb)
      | some b => exact ih _ _ (by rw [hb]; exact hvisit s id queue b hs hq hb)

variable (p g initial) in
/-- What holds at the start and is kept by every visit holds of the solution, with an empty queue if
it converged. -/
lemma solve_keeps {P : State L → Prop} (hstart : P (p.start g initial))
    (hskip : ∀ s id queue, P s → s.queue = id :: queue → g.block? id = none → P { s with queue })
    (hvisit : ∀ s id queue b, P s → s.queue = id :: queue → g.block? id = some b →
      P (p.visit g initial b { s with queue })) :
    ∃ s, P s ∧ (p.solve g initial).entry = s.entry ∧ (p.solve g initial).exit = s.exit ∧
      ((p.solve g initial).converged = true → s.queue = []) :=
  run_invariant hskip hvisit p.maxVisits 0 (p.start g initial) hstart

variable (p g initial) in
/-- The equation of a block: it has gathered its inflow, and its outflow is what it makes of
that. -/
def Settled (s : State L) (b : Block σ) : Prop :=
  (p.inflow s).get? b.id = some (p.gathered g initial (p.outflow s) b) ∧
    p.lattice.equal (p.acrossBlock b (p.gathered g initial (p.outflow s) b))
      (p.factAt (p.outflow s) b.id) = true

variable (p g initial) in
/-- The invariant of a run: every block of the graph has facts, the entry keeps the initial fact,
and a block of the order that does not wait is settled. -/
structure Invariant (s : State L) : Prop where
  inflow_has : ∀ id, (p.inflow s).has id = g.has id
  outflow_has : ∀ id, (p.outflow s).has id = g.has id
  seed : p.direction = .forward → s.entry.get? g.entry = some initial
  settled : ∀ b ∈ g.blocks, b.id ∈ g.order → b.id ∉ s.queue → p.Settled g initial s b

/-- A visit keeps the invariant. The blocks whose equation it may break are the dependents of the
visited block, itself possibly among them, and these are queued. -/
lemma Invariant.visit [Statement σ] (hg : g.UpToDate)
    (hrefl : ∀ fact, p.lattice.equal fact fact = true) {b : Block σ} {queue : List BlockId}
    (hs : p.Invariant g initial s) (hb : b ∈ g.blocks) (hq : s.queue = b.id :: queue) :
    p.Invariant g initial (p.visit g initial b { s with queue }) := by
  have hv := visit_visited p g initial b queue fun hdir _ => hs.seed hdir
  have hhas : g.has b.id = true := Graph.has_of_block? (Graph.block?_of_mem hb)
  refine ⟨fun id => ?_, fun id => ?_, fun hdir => hv.seed hdir (hs.seed hdir),
    fun c hc hord hwait => ?_⟩
  · rw [hv.inflow, Table.has_set_of_has (by rw [hs.inflow_has, hhas]), hs.inflow_has]
  · rcases hv.outflow with ⟨-, ho, -⟩ | ⟨-, ho, -⟩
    · rw [ho, hs.outflow_has]
    · rw [ho, Table.has_set_of_has (by rw [hs.outflow_has, hhas]), hs.outflow_has]
  · have hgathered := hv.gathered_eq hg hb hc hwait
    by_cases hcb : c.id = b.id
    · obtain rfl : c = b := Graph.eq_of_id_eq hc hb hcb
      refine ⟨by rw [hv.inflow, Table.get?_set_self, hgathered], ?_⟩
      rw [hgathered]
      rcases hv.outflow with ⟨heq, ho, -⟩ | ⟨-, ho, -⟩
      · rw [ho]
        exact heq
      · rw [ho, factAt, Table.get?_set_self, Option.getD_some]
        exact hrefl _
    · have hold : c.id ∉ s.queue := by
        rw [hq, List.mem_cons, not_or]
        exact ⟨hcb, fun hmem => hwait (hv.mem_queue hmem)⟩
      obtain ⟨hget, hequal⟩ := hs.settled c hc hord hold
      refine ⟨by rw [hv.inflow, Table.get?_set_ne _ _ hcb, hget, hgathered], ?_⟩
      rw [hgathered, hv.factAt_ne hcb]
      exact hequal

/-! ### The start -/

/-- Giving values to keys that have one changes no key's having a value. -/
lemma has_foldl_set (fact : L) (ids : List BlockId) {t : Table BlockId L}
    (h : ∀ id ∈ ids, t.has id = true) (id : BlockId) :
    (ids.foldl (fun t id => t.set id fact) t).has id = t.has id := by
  induction ids generalizing t with
  | nil => rfl
  | cons x rest ih =>
    have hx : t.has x = true := h x (by simp)
    rw [List.foldl_cons, ih fun y hy => ?_, Table.has_set_of_has hx]
    rw [Table.has_set_of_has hx]
    exact h y (by simp [hy])

/-- The blocks of the order all wait at the start. -/
lemma mem_start_queue (h : id ∈ g.order) : id ∈ (p.start g initial).queue := by
  have hfirst : firstVisits g = g.order := by
    rw [firstVisits, if_neg]
    simpa using List.ne_nil_of_mem h
  cases hdir : p.direction <;> simp [start, hdir, hfirst, mem_pushAll, h]

/-- At the start nothing has flowed out of a block. -/
lemma eq_bottom_of_outflow_start (hget : (p.outflow (p.start g initial)).get? id = some fact) :
    fact = p.lattice.bottom := by
  have hbottoms : p.outflow (p.start g initial) = .const g.ids p.lattice.bottom := by
    cases hdir : p.direction <;> simp only [Problem.outflow, start, hdir]
  exact Table.eq_of_get?_const (hbottoms ▸ hget)

/-- At the start the initial fact flows into the entry or the exits of the graph, and the bottom
fact anywhere else. -/
lemma inflow_start_cases (hget : (p.inflow (p.start g initial)).get? id = some fact) :
    fact = p.lattice.bottom ∨
      fact = initial ∧ (p.direction = .forward ∧ id = g.entry ∨
        p.direction = .backward ∧ id ∈ g.exits) := by
  cases hdir : p.direction with
  | forward =>
    simp only [Problem.inflow, start, hdir] at hget
    split at hget
    · rw [Table.get?_set] at hget
      split at hget
      · next hid => exact .inr ⟨(Option.some.inj hget).symm, .inl ⟨rfl, hid⟩⟩
      · exact .inl (Table.eq_of_get?_const hget)
    · exact .inl (Table.eq_of_get?_const hget)
  | backward =>
    simp only [Problem.inflow, start, hdir] at hget
    rw [Table.get?_foldl_set] at hget
    split at hget
    · next hid => exact .inr ⟨(Option.some.inj hget).symm, .inr ⟨rfl, hid⟩⟩
    · exact .inl (Table.eq_of_get?_const hget)

/-- The invariant holds at the start. -/
lemma invariant_start [Statement σ] (hg : g.UpToDate) (hentry : g.has g.entry = true) :
    p.Invariant g initial (p.start g initial) := by
  set bottoms : Table BlockId L := .const g.ids p.lattice.bottom with hbottoms
  have hhas : ∀ id, bottoms.has id = g.has id := by
    intro id
    rw [Table.has, hbottoms, Table.get?_const, Bool.eq_iff_iff, Graph.has_iff_mem_ids]
    split <;> simp_all
  have hseeded : ∀ id, (bottoms.set g.entry initial).has id = g.has id := by
    intro id
    rw [Table.has_set_of_has (by rw [hhas, hentry]), hhas]
  have hexits : ∀ id, (g.exits.foldl (fun t id => t.set id initial) bottoms).has id = g.has id := by
    intro id
    rw [has_foldl_set, hhas]
    intro x hx
    rw [hg.exits] at hx
    obtain ⟨b, hb, rfl⟩ := List.mem_map.mp hx
    rw [hhas]
    exact Graph.has_of_block? (Graph.block?_of_mem (List.mem_of_mem_filter hb))
  refine ⟨?_, ?_, ?_, fun b _ hord hwait => absurd (mem_start_queue hord) hwait⟩
  · cases hdir : p.direction with
    | forward => simpa [Problem.inflow, start, hdir, hentry] using hseeded
    | backward => simpa [Problem.inflow, start, hdir] using hexits
  · cases hdir : p.direction <;> simpa [Problem.outflow, start, hdir] using hhas
  · intro hdir
    simp [start, hdir, hentry]

/-- Passing over a queued id without a block keeps the invariant. -/
lemma Invariant.skip {queue : List BlockId} (hs : p.Invariant g initial s)
    (hq : s.queue = id :: queue) (hnone : g.block? id = none) :
    p.Invariant g initial { s with queue } := by
  refine ⟨hs.inflow_has, hs.outflow_has, hs.seed, fun b hb hord hwait => ?_⟩
  refine hs.settled b hb hord fun hmem => ?_
  rw [hq] at hmem
  rcases List.mem_cons.mp hmem with hid | hmem
  · rw [← hid, Graph.block?_of_mem hb] at hnone
    exact absurd hnone (by simp)
  · exact hwait hmem

/-- The facts at the end of a run satisfy the invariant, and nothing waits if the run converged. -/
lemma solve_invariant [Statement σ] (hg : g.UpToDate) (initial : L)
    (hrefl : ∀ fact, p.lattice.equal fact fact = true) (hentry : g.has g.entry = true) :
    ∃ s, p.Invariant g initial s ∧ (p.solve g initial).entry = s.entry ∧
      (p.solve g initial).exit = s.exit ∧
      ((p.solve g initial).converged = true → s.queue = []) := by
  refine solve_keeps p g initial (invariant_start hg hentry)
    (fun s id queue hs hq hnone => hs.skip hq hnone) (fun s id queue b hs hq hb => ?_)
  obtain ⟨hmem, hid⟩ := Graph.block?_eq_some_iff.mp hb
  exact hs.visit hg hrefl hmem (by rw [hq, hid])

/-- When nothing waits any more, every reachable block is settled. -/
lemma solve_settled [Statement σ] (hg : g.UpToDate)
    (hrefl : ∀ fact, p.lattice.equal fact fact = true) (hentry : g.has g.entry = true)
    (hconv : (p.solve g initial).converged = true) :
    ∃ s, p.Invariant g initial s ∧ (p.solve g initial).entry = s.entry ∧
      (p.solve g initial).exit = s.exit ∧
      ∀ b ∈ g.blocks, g.Reachable b.id → p.Settled g initial s b := by
  obtain ⟨s, hs, hin, hout, hdone⟩ := solve_invariant hg initial hrefl hentry
  refine ⟨s, hs, hin, hout, fun b hb hreach => hs.settled b hb (hg.mem_order hreach) ?_⟩
  rw [hdone hconv]
  simp

/-! ### The equations -/

variable (p) in
/-- The join, in order and starting at `start`, of the facts of the given blocks. -/
def joinAll (facts : Table BlockId L) (start : L) (ids : List BlockId) : L :=
  ids.foldl (fun acc id => p.lattice.join acc (p.factAt facts id)) start

/-- Blocks that do not exist are passed over by joins. -/
lemma joinOver_eq {facts : Table BlockId L} (hfacts : ∀ id, facts.has id = g.has id) (start : L)
    (ids : List BlockId) : p.joinOver facts start ids =
      p.joinAll facts start (ids.filter g.has) := by
  rw [joinOver, joinAll]
  induction ids generalizing start with
  | nil => rfl
  | cons id rest ih =>
    have hid := hfacts id
    rw [Table.has] at hid
    rw [List.foldl_cons, ih]
    cases hget : facts.get? id with
    | none => rw [List.filter_cons_of_neg (by rw [← hid, hget]; simp)]
    | some fact =>
      rw [List.filter_cons_of_pos (by rw [← hid, hget]; simp), List.foldl_cons, factAt, hget,
        Option.getD_some]

variable (p g initial) in
/-- The data-flow equations of a block. Forward, the fact at its entry is the initial fact for the
entry of the graph and the join over the predecessors for any other block, and the fact at its exit
is what the block makes of that; backward, the fact at its exit is the join over the existing
successors, starting at the initial fact for blocks at which control leaves, and the fact at its
entry is what the block makes of that. -/
def Equations (r : Solution L) (b : Block σ) : Prop :=
  ∃ before behind, r.entry.get? b.id = some before ∧ r.exit.get? b.id = some behind ∧
    match p.direction with
    | .forward =>
      before = (if b.id = g.entry then initial else p.joinAll r.exit p.lattice.bottom b.preds) ∧
        p.lattice.equal (p.acrossBlock b before) behind = true
    | .backward =>
      behind = p.joinAll r.entry (if b.isExit then initial else p.lattice.bottom)
          (b.succs.filter g.has) ∧
        p.lattice.equal (p.acrossBlock b behind) before = true

end Problem

/-- **A solution that converged is a fixpoint**: the equations hold at every block that the entry
reaches. -/
theorem solve_equations [Statement σ] (p : Problem σ L) (g : Graph σ) (initial : L)
    (hrefl : ∀ fact, p.lattice.equal fact fact = true)
    (hconv : (p.solve g.withMetadata initial).converged = true) {b : Block σ}
    (hb : b ∈ g.withMetadata.blocks) (hreach : g.withMetadata.Reachable b.id) :
    p.Equations g.withMetadata initial (p.solve g.withMetadata initial) b := by
  have hg := g.withMetadata_upToDate
  obtain ⟨s, hs, hentry, hexit, hsettled⟩ := Problem.solve_settled hg hrefl hreach.1 hconv
  obtain ⟨hin, hequal⟩ := hsettled b hb hreach
  obtain ⟨out, hout⟩ : ∃ out, (p.outflow s).get? b.id = some out := by
    rw [← Option.isSome_iff_exists]
    exact (hs.outflow_has b.id).trans hreach.has
  have hjoin := fun start ids => Problem.joinOver_eq (p := p) hs.outflow_has start ids
  rw [Problem.factAt, hout, Option.getD_some] at hequal
  rw [Problem.Equations, hentry, hexit]
  cases hdir : p.direction with
  | forward =>
    have hpreds : b.preds.filter g.withMetadata.has = b.preds := by
      refine List.filter_eq_self.mpr fun id hid => ?_
      obtain ⟨a, ha, -⟩ := (hg.mem_preds hb).mp hid
      exact Graph.has_of_block? ha
    simp only [Problem.inflow, Problem.outflow, Problem.gathered, hdir] at hin hout hequal hjoin
    simp only [hjoin, hpreds] at hin hequal
    exact ⟨_, out, hin, hout, rfl, hequal⟩
  | backward =>
    simp only [Problem.inflow, Problem.outflow, Problem.gathered, hdir] at hin hout hequal hjoin
    simp only [hjoin, hg.isExit_eq hb] at hin hequal
    exact ⟨out, _, hout, hin, rfl, hequal⟩

/-- A block in front of a loop, the loop, and a block behind it. -/
def sampleLoop : Graph Instr :=
  [.ofTerminator 0 [{ op := .declare, defs := [[120]], line := 1 }] (.jump 1),
    .ofTerminator 1 [{ op := .step, defs := [[120]], uses := [[120]], line := 2 }]
      (.branch [99] 1 2),
    .ofTerminator 2 [] (.done [[120]])].foldl Graph.addBlock (.empty [] 0)

/-- The equations of the live variables hold at the loop. -/
theorem solve_equations_loop :
    (liveVariables sampleLoop.withMetadata).converged = true ∧
      ∃ b, sampleLoop.withMetadata.block? 1 = some b ∧ sampleLoop.withMetadata.Reachable 1 ∧
        (liveness Instr).Equations sampleLoop.withMetadata .empty
          (liveVariables sampleLoop.withMetadata) b := by
  have hconv : (liveVariables sampleLoop.withMetadata).converged = true := by decide +kernel
  have hfound : (sampleLoop.withMetadata.block? 1).isSome = true := by decide +kernel
  have hreach : sampleLoop.withMetadata.Reachable 1 :=
    ⟨by decide +kernel, .single (by decide +kernel)⟩
  obtain ⟨b, hb⟩ := Option.isSome_iff_exists.mp hfound
  obtain ⟨hmem, hid⟩ := Graph.block?_eq_some_iff.mp hb
  exact ⟨hconv, b, hb, hreach, solve_equations (liveness Instr) sampleLoop .empty
    (fun _ => powerset_equal_iff.mpr fun _ => Iff.rfl) hconv hmem (hid ▸ hreach)⟩

end ContractAudit.Fixpoint
