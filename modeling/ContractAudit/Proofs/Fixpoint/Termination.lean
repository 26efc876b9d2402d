import Mathlib.Algebra.BigOperators.Ring.Finset
import Mathlib.Algebra.Order.BigOperators.Group.Finset
import ContractAudit.Proofs.Fixpoint.Leastness

/-!
A run ends by itself when facts only rise and cannot rise for ever.

* `Finishes`: the run without a limit on visits. A solve with enough of them is this run
  (`solve_of_finishes`).
* `Rising`: every block would raise its outflow if it were visited. Blocks keep the order of facts,
  so a visit raises what the others gather, and keeps it so (`Rising.visit`).
* `Heights`: facts have ranks up to a height, and rise in rank.
* `potential`: the blocks that wait, and for every edge the ranks that its source can still rise by.
  A visit that changes nothing takes a block from the queue; one that raises an outflow queues at
  most one block for every edge from there (`potential_visit`).
* `exists_finishes`: so there are at most as many visits as blocks, and the height for every edge.
-/

namespace ContractAudit.Flow.Graph

variable {σ : Type} {g : Graph σ}

/-- The edges between existing blocks. -/
def edges (g : Graph σ) : Finset (BlockId × BlockId) :=
  (g.ids.flatMap fun a => (g.nexts a).map fun b => (a, b)).toFinset

lemma mem_edges {a b : BlockId} : (a, b) ∈ g.edges ↔ b ∈ g.nexts a := by
  simp only [edges, List.mem_toFinset, List.mem_flatMap, List.mem_map, Prod.mk.injEq]
  constructor
  · rintro ⟨_, -, _, hnext, rfl, rfl⟩
    exact hnext
  · intro hnext
    obtain ⟨c, hc, -⟩ := mem_nexts.mp hnext
    exact ⟨a, has_iff_mem_ids.mp (has_of_block? hc), b, hnext, rfl, rfl⟩

/-- Both ends of an edge exist. -/
lemma mem_ids_of_mem_edges {e : BlockId × BlockId} (he : e ∈ g.edges) :
    e.1 ∈ g.ids ∧ e.2 ∈ g.ids := by
  obtain ⟨a, ha, -, hhas⟩ := mem_nexts.mp (mem_edges.mp he)
  exact ⟨has_iff_mem_ids.mp (has_of_block? ha), has_iff_mem_ids.mp hhas⟩

end ContractAudit.Flow.Graph

namespace ContractAudit.Fixpoint

open Domain ContractAudit.Flow

variable {σ L : Type} {queue : List BlockId}

/-! ### The queue -/

lemma nodup_push (h : queue.Nodup) (id : BlockId) : (push queue id).Nodup := by
  rw [push]
  split
  · exact h
  · next hid =>
    rw [← List.concat_eq_append]
    exact h.concat hid

lemma nodup_pushAll (h : queue.Nodup) (ids : List BlockId) :
    (pushAll queue ids).Nodup :=
  List.foldlRecOn ids _ (motive := List.Nodup) h fun _ hqueue id _ => nodup_push hqueue id

/-- Blocks are queued once each, and only if they do not wait already. -/
lemma length_pushAll_le (h : queue.Nodup) (ids : List BlockId) :
    (pushAll queue ids).length ≤ queue.length + ids.toFinset.card := by
  have hall : (pushAll queue ids).toFinset = queue.toFinset ∪ ids.toFinset := by
    ext x
    simp [mem_pushAll]
  rw [← List.toFinset_card_of_nodup (nodup_pushAll h ids), ← List.toFinset_card_of_nodup h, hall]
  exact Finset.card_union_le ..

namespace Problem

variable (p : Problem σ L) (g : Graph σ) (initial : L)

/-! ### Runs without a limit -/

/-- Taking blocks from the queue as long as there are any leads from the state `s` to the state `t`,
and takes `n` of them. -/
inductive Finishes : State L → Nat → State L → Prop where
  | done {s : State L} (hq : s.queue = []) : Finishes s 0 s
  | skip {s t : State L} {id : BlockId} {queue : List BlockId} {n : Nat}
      (hq : s.queue = id :: queue)
      (hb : g.block? id = none) (h : Finishes { s with queue } n t) : Finishes s (n + 1) t
  | visit {s t : State L} {id : BlockId} {queue : List BlockId} {b : Block σ} {n : Nat}
      (hq : s.queue = id :: queue) (hb : g.block? id = some b)
      (h : Finishes (p.visit g initial b { s with queue }) n t) : Finishes s (n + 1) t

variable {p g initial} {t : State L} {n : Nat} {out : Table BlockId L}

/-- A run that ends within the limit is not cut off. -/
lemma run_of_finishes {s : State L} (h : p.Finishes g initial s n t) {left : Nat} (hn : n ≤ left)
    (visits : Nat) : p.run g initial left visits s = ⟨t.entry, t.exit, visits + n, true⟩ := by
  induction h generalizing left visits with
  | done hq => cases left <;> simp [run, hq]
  | skip hq hb _ ih | visit hq hb _ ih =>
    obtain ⟨left, rfl⟩ := Nat.exists_eq_add_of_lt hn
    rw [run, hq]
    simp only [hb]
    rw [ih (Nat.le_of_succ_le_succ hn), Nat.add_assoc, Nat.add_comm 1]

/-- The limit plays no part in a run that has none. -/
lemma Finishes.withLimit (limit : Int) {s : State L} (h : p.Finishes g initial s n t) :
    { p with limit }.Finishes g initial s n t := by
  induction h with
  | done hq => exact .done hq
  | skip hq hb _ ih => exact .skip hq hb ih
  | visit hq hb _ ih => exact .visit hq hb ih

/-- A solve with enough visits is the run without a limit. -/
lemma solve_of_finishes (h : p.Finishes g initial (p.start g initial) n t) {limit : Int}
    (hn : (n : Int) ≤ limit) : { p with limit }.solve g initial = ⟨t.entry, t.exit, n, true⟩ := by
  have hvisits : n ≤ { p with limit }.maxVisits := by
    show n ≤ if 0 < limit then limit.toNat else defaultLimit
    split <;> omega
  have hrun := run_of_finishes (h.withLimit limit) hvisits 0
  rwa [Nat.zero_add] at hrun

/-! ### Rising facts -/

variable (p g initial) in
/-- Facts in a problem have ranks up to a height: among those that can come up in a run, a greater
fact has a greater rank. -/
structure Heights where
  inside : L → Prop
  rank : L → Nat
  height : Nat
  inside_bottom : inside p.lattice.bottom
  inside_initial : inside initial
  inside_join : ∀ x y, inside x → inside y → inside (p.lattice.join x y)
  inside_across : ∀ b ∈ g.blocks, ∀ x, inside x → inside (p.acrossBlock b x)
  rank_le : ∀ x, inside x → rank x ≤ height
  rank_lt : ∀ x y, inside y → p.lattice.leq x y = true → ¬ p.lattice.equal y x = true →
    rank x < rank y

/-- No block waits twice, the entry keeps the initial fact, the facts that flow out have ranks, and
every block makes of what it gathers at least what flows out of it. -/
structure Rising (h : p.Heights g initial) (s : State L) : Prop where
  nodup : s.queue.Nodup
  seed : p.direction = .forward → g.has g.entry = true → s.entry.get? g.entry = some initial
  inside : ∀ id fact, (p.outflow s).get? id = some fact → h.inside fact
  rising : ∀ b ∈ g.blocks, p.lattice.leq (p.factAt (p.outflow s) b.id)
    (p.acrossBlock b (p.gathered g initial (p.outflow s) b)) = true

lemma Heights.inside_joinOver (h : p.Heights g initial) {start : L} (hstart : h.inside start)
    (ids : List BlockId) (hout : ∀ id fact, out.get? id = some fact → h.inside fact) :
    h.inside (p.joinOver out start ids) := by
  rw [joinOver]
  refine List.foldlRecOn ids _ (motive := h.inside) hstart fun acc hacc id _ => ?_
  cases hget : out.get? id with
  | none => exact hacc
  | some fact => exact h.inside_join _ _ hacc (hout id fact hget)

lemma Heights.inside_gathered (h : p.Heights g initial) (b : Block σ)
    (hout : ∀ id fact, out.get? id = some fact → h.inside fact) :
    h.inside (p.gathered g initial out b) := by
  cases hdir : p.direction with
  | forward =>
    simp only [gathered, hdir]
    split
    · exact h.inside_initial
    · exact h.inside_joinOver h.inside_bottom _ hout
  | backward =>
    simp only [gathered, hdir]
    refine h.inside_joinOver ?_ _ hout
    split
    · exact h.inside_initial
    · exact h.inside_bottom

/-- Joins over greater facts are greater. -/
lemma joinOver_mono (hl : p.lattice.Lawful) {out' : Table BlockId L} (start : L)
    (ids : List BlockId)
    (h : ∀ id fact, out.get? id = some fact →
      ∃ fact', out'.get? id = some fact' ∧ p.lattice.leq fact fact' = true) :
    p.lattice.leq (p.joinOver out start ids) (p.joinOver out' start ids) = true := by
  refine joinOver_leq hl (leq_joinOver_start hl out' start ids) fun id hid fact hget => ?_
  obtain ⟨fact', hget', hle⟩ := h id fact hget
  exact hl.leq_trans hle (leq_joinOver hl hget' hid start)

/-- Blocks gather more when more flows out of blocks. -/
lemma gathered_mono (hl : p.lattice.Lawful) {out' : Table BlockId L} (b : Block σ)
    (h : ∀ id fact, out.get? id = some fact →
      ∃ fact', out'.get? id = some fact' ∧ p.lattice.leq fact fact' = true) :
    p.lattice.leq (p.gathered g initial out b) (p.gathered g initial out' b) = true := by
  cases hdir : p.direction with
  | forward =>
    simp only [gathered, hdir]
    split
    · exact hl.leq_refl _
    · exact joinOver_mono hl _ _ h
  | backward =>
    simp only [gathered, hdir]
    exact joinOver_mono hl _ _ h

variable {h : p.Heights g initial} {s : State L} {b : Block σ}

/-- At the start there is nothing to fall below. -/
lemma rising_start (hl : p.lattice.Lawful) : Rising h (p.start g initial) := by
  refine ⟨?_, fun hdir hentry => by simp [start, hdir, hentry], fun id fact hget => ?_,
    fun b _ => ?_⟩
  · cases hdir : p.direction <;> simp only [start, hdir] <;> exact nodup_pushAll List.nodup_nil _
  · rw [eq_bottom_of_outflow_start hget]
    exact h.inside_bottom
  · rw [factAt]
    cases hget : (p.outflow (p.start g initial)).get? b.id with
    | none => exact hl.bottom_leq _
    | some fact =>
      rw [eq_bottom_of_outflow_start hget]
      exact hl.bottom_leq _

lemma Rising.visited (hs : Rising h s) (hb : b ∈ g.blocks) (queue : List BlockId) :
    p.Visited g initial b s queue (p.visit g initial b { s with queue }) :=
  visit_visited p g initial b queue fun hdir hid =>
    hs.seed hdir (hid ▸ Graph.has_of_block? (Graph.block?_of_mem hb))

/-- A visit keeps facts rising: if it replaces the outflow of the block it raises it, so that no
block gathers less than before. -/
lemma Rising.visit (hl : p.lattice.Lawful) (hmono : p.Monotone g) (hs : Rising h s)
    (hb : b ∈ g.blocks) (hq : s.queue = b.id :: queue) :
    Rising h (p.visit g initial b { s with queue }) := by
  have hv := hs.visited hb queue
  have hrest : queue.Nodup := (List.nodup_cons.mp (hq ▸ hs.nodup)).2
  have hseed := fun hdir hentry => hv.seed hdir (hs.seed hdir hentry)
  have hinside : ∀ id fact, (p.outflow (p.visit g initial b { s with queue })).get? id = some fact →
      h.inside fact := by
    intro id fact hget
    rcases hv.outflow_cases hget with ⟨-, rfl⟩ | hget
    · exact h.inside_across b hb _ (h.inside_gathered b hs.inside)
    · exact hs.inside id fact hget
  obtain ⟨-, hout, hqueue⟩ | ⟨-, hout, hqueue⟩ := hv.outflow
  · refine ⟨by rw [hqueue]; exact hrest, hseed, hinside, ?_⟩
    rw [hout]
    exact hs.rising
  · set fact := p.acrossBlock b (p.gathered g initial (p.outflow s) b)
    have hmore : ∀ c, p.lattice.leq (p.gathered g initial (p.outflow s) c)
        (p.gathered g initial ((p.outflow s).set b.id fact) c) = true := by
      refine fun c => gathered_mono hl c fun id x hget => ?_
      rw [Table.get?_set]
      split
      · next hid =>
        have hrises := hs.rising b hb
        rw [factAt, ← hid, hget] at hrises
        exact ⟨fact, rfl, hrises⟩
      · exact ⟨x, hget, hl.leq_refl x⟩
    refine ⟨by rw [hqueue]; exact nodup_pushAll hrest _, hseed, hinside, fun c hc => ?_⟩
    rw [hout, factAt, Table.get?_set]
    have hraised := hmono c hc _ _ (hmore c)
    split
    · next hid =>
      obtain rfl := Graph.eq_of_id_eq hc hb hid
      exact hraised
    · exact hl.leq_trans (hs.rising c hc) hraised

/-! ### The work left -/

variable (p) in
/-- The end of an edge at which facts flow out. -/
def source (e : BlockId × BlockId) : BlockId :=
  match p.direction with
  | .forward => e.1
  | .backward => e.2

variable (p g) in
/-- The number of edges along which facts flow out of a block. -/
def degree (id : BlockId) : Nat := (g.edges.filter fun e => p.source e = id).card

/-- A block queues at most as many blocks as there are edges from it. -/
lemma card_dependents_le [Statement σ] (hg : g.UpToDate) (hb : b ∈ g.blocks) :
    (p.dependents g b).toFinset.card ≤ p.degree g b.id := by
  have hfound := Graph.block?_of_mem hb
  cases hdir : p.direction with
  | forward =>
    refine Finset.card_le_card_of_injOn (fun id => (b.id, id)) (fun id hid => ?_)
      (fun _ _ _ _ heq => (Prod.mk.inj heq).2)
    simp only [dependents, hdir, Finset.mem_coe, List.mem_toFinset, List.mem_filter] at hid
    simp only [source, hdir, Finset.mem_coe, Finset.mem_filter, and_true]
    exact Graph.mem_edges.mpr (Graph.mem_nexts.mpr ⟨b, hfound, hid.1, hid.2⟩)
  | backward =>
    refine Finset.card_le_card_of_injOn (fun id => (id, b.id)) (fun id hid => ?_)
      (fun _ _ _ _ heq => (Prod.mk.inj heq).1)
    simp only [dependents, hdir, Finset.mem_coe, List.mem_toFinset, List.mem_filter] at hid
    simp only [source, hdir, Finset.mem_coe, Finset.mem_filter, and_true]
    obtain ⟨a, ha, hsucc⟩ := (hg.mem_preds hb).mp hid.1
    exact Graph.mem_edges.mpr (Graph.mem_nexts.mpr ⟨a, ha, hsucc, Graph.has_of_block? hfound⟩)

/-- Every edge is one of its source. -/
lemma sum_degree : ∑ id ∈ g.ids.toFinset, p.degree g id = g.edges.card := by
  refine (Finset.card_eq_sum_card_fiberwise fun e he => ?_).symm
  obtain ⟨hfst, hsnd⟩ := Graph.mem_ids_of_mem_edges he
  rw [source]
  cases p.direction with
  | forward => simpa using hfst
  | backward => simpa using hsnd

/-- The work left: the blocks that wait, and for every edge what can still rise at its source. -/
def potential (h : p.Heights g initial) (s : State L) : Nat :=
  s.queue.length +
    ∑ id ∈ g.ids.toFinset, (h.height - h.rank (p.factAt (p.outflow s) id)) * p.degree g id

/-- A block that waits is a block of the graph, and waits once. -/
lemma length_start_queue_le [Statement σ] (hg : g.UpToDate) :
    (p.start g initial).queue.length ≤ g.blocks.length := by
  have hfirst : ∀ id ∈ firstVisits g, id ∈ g.ids := by
    intro id hid
    rw [firstVisits] at hid
    split at hid
    · exact hid
    · exact Graph.has_iff_mem_ids.mp (hg.reachable_of_mem_order hid).has
  have hvisits : ∀ visits : List BlockId, (∀ id ∈ visits, id ∈ g.ids) →
      (pushAll [] visits).length ≤ g.blocks.length := by
    intro visits hvisits
    have hsubset : pushAll [] visits ⊆ g.ids := fun id hid =>
      hvisits id ((mem_pushAll.mp hid).resolve_left List.not_mem_nil)
    have hlength := ((nodup_pushAll List.nodup_nil visits).subperm hsubset).length_le
    rwa [Graph.ids, List.length_map] at hlength
  cases hdir : p.direction with
  | forward =>
    simp only [start, hdir]
    exact hvisits _ hfirst
  | backward =>
    simp only [start, hdir]
    exact hvisits _ fun id hid => hfirst id (List.mem_reverse.mp hid)

/-- The work at the start: every block, and the height for every edge. -/
lemma potential_start_le [Statement σ] (hg : g.UpToDate) (h : p.Heights g initial) :
    potential h (p.start g initial) ≤ g.blocks.length + h.height * g.edges.card := by
  refine Nat.add_le_add (length_start_queue_le hg) ?_
  rw [← sum_degree (p := p), Finset.mul_sum]
  exact Finset.sum_le_sum fun id _ => Nat.mul_le_mul_right _ (Nat.sub_le ..)

/-- **A visit does some of the work**: it takes a block from the queue, and what it adds to the
queue when it raises an outflow is paid for by the rank that the outflow gains. -/
lemma potential_visit [Statement σ] (hg : g.UpToDate) (hs : Rising h s) (hb : b ∈ g.blocks)
    (hq : s.queue = b.id :: queue) :
    potential h (p.visit g initial b { s with queue }) < potential h s := by
  obtain ⟨-, hout, hqueue⟩ | ⟨hnew, hout, hqueue⟩ := (hs.visited hb queue).outflow
  · rw [potential, potential, hout, hqueue, hq, List.length_cons]
    omega
  · set old := p.factAt (p.outflow s) b.id with hold
    set new := p.acrossBlock b (p.gathered g initial (p.outflow s) b)
    have hinside : h.inside new := h.inside_across b hb _ (h.inside_gathered b hs.inside)
    have hrises : h.rank old < h.rank new := h.rank_lt _ _ hinside (hs.rising b hb) hnew
    have hbound : h.rank new ≤ h.height := h.rank_le new hinside
    have hpaid : (h.height - h.rank new) * p.degree g b.id + p.degree g b.id ≤
        (h.height - h.rank old) * p.degree g b.id := by
      rw [← Nat.succ_mul]
      exact Nat.mul_le_mul_right _ (by omega)
    have hpushed : (pushAll queue (p.dependents g b)).length ≤ queue.length + p.degree g b.id :=
      (length_pushAll_le (List.nodup_cons.mp (hq ▸ hs.nodup)).2 _).trans
        (Nat.add_le_add_left (card_dependents_le hg hb) _)
    -- only the term of the visited block changes
    have hmem : b.id ∈ g.ids.toFinset := List.mem_toFinset.mpr (List.mem_map_of_mem hb)
    have hself : p.factAt ((p.outflow s).set b.id new) b.id = new := by
      rw [factAt, Table.get?_set_self, Option.getD_some]
    have hothers : ∀ id ∈ g.ids.toFinset.erase b.id,
        (h.height - h.rank (p.factAt ((p.outflow s).set b.id new) id)) * p.degree g id =
          (h.height - h.rank (p.factAt (p.outflow s) id)) * p.degree g id := by
      intro id hid
      rw [factAt, Table.get?_set_ne _ _ (Finset.ne_of_mem_erase hid), factAt]
    rw [potential, potential, hout, hqueue, hq, List.length_cons, ← Finset.add_sum_erase _ _ hmem,
      ← Finset.add_sum_erase _ _ hmem, Finset.sum_congr rfl hothers, hself, ← hold]
    omega

/-- Passing over a queued id without a block keeps facts rising. -/
lemma Rising.skip {id : BlockId} (hs : Rising h s) (hq : s.queue = id :: queue) :
    Rising h { s with queue } :=
  ⟨(List.nodup_cons.mp (hq ▸ hs.nodup)).2, hs.seed, hs.inside, hs.rising⟩

section Ends

variable [Statement σ] (hg : g.UpToDate) (hl : p.lattice.Lawful) (hmono : p.Monotone g)
include hg hl hmono

/-- While facts rise, a run ends before more is done than the work left. -/
lemma Rising.finishes (hs : Rising h s) :
    ∃ n t, n ≤ potential h s ∧ p.Finishes g initial s n t := by
  induction hwork : potential h s using Nat.strong_induction_on generalizing s with
  | _ work ih =>
    subst hwork
    cases hq : s.queue with
    | nil => exact ⟨0, s, Nat.zero_le _, .done hq⟩
    | cons id queue =>
      cases hb : g.block? id with
      | none =>
        have hless : potential h { s with queue } < potential h s := by
          rw [potential, potential, hq, List.length_cons]
          exact Nat.add_lt_add_right (Nat.lt_succ_self _) _
        obtain ⟨n, t, hn, hfinishes⟩ := ih _ hless (hs.skip hq) rfl
        exact ⟨n + 1, t, by omega, .skip hq hb hfinishes⟩
      | some b =>
        obtain ⟨hmem, rfl⟩ := Graph.block?_eq_some_iff.mp hb
        have hless := potential_visit hg hs hmem hq
        obtain ⟨n, t, hn, hfinishes⟩ := ih _ hless (hs.visit hl hmono hmem hq) rfl
        exact ⟨n + 1, t, by omega, .visit hq hb hfinishes⟩

/-- **Where facts have heights a run ends by itself**, with at most one visit for every block, and
as many for every edge as the height. -/
lemma exists_finishes (h : p.Heights g initial) :
    ∃ n t, n ≤ g.blocks.length + h.height * g.edges.card ∧
      p.Finishes g initial (p.start g initial) n t := by
  obtain ⟨n, t, hn, hfinishes⟩ := (rising_start (h := h) hl).finishes hg hl hmono
  exact ⟨n, t, hn.trans (potential_start_le hg h), hfinishes⟩

end Ends

end Problem

end ContractAudit.Fixpoint
