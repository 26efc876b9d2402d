import Mathlib.Order.Filter.EventuallyConst
import Mathlib.Order.WellFoundedSet
import ContractAudit.Proofs.Fixpoint.Termination

/-!
Runs visit by visit.

* `next`, `stateAt`: one visit, and the state behind the first `n` of them. A solve converges
  exactly if the queue is empty behind as many visits as it is allowed (`converged_solve_iff`).
* `Converges`: every solve that is allowed enough visits converges.
* `waits_of_repeats`: a run that comes back to a state in which blocks wait never ends.
* `Rests`: nothing more happens to what flows out of a block from some visit on. A run in which
  every block comes to rest ends (`exists_queue_nil`).
* `LeadsToLoop`: a loop can be reached from the block. If all blocks of this kind come to rest, the
  others do as well, each behind its predecessors (`rests_of_loops`).
* `Heights.converges_iff_not_fallsAt`: where facts have ranks, solves converge exactly if from some
  visit on none replaces what flows out of a block of this kind by something that is not above it
  (`FallsAt`). Nothing is asked of the transfer.
-/

namespace ContractAudit.Flow.Graph

variable {σ : Type} {g : Graph σ} {a b : BlockId}

/-- A loop can be reached from the block. -/
def LeadsToLoop (g : Graph σ) (id : BlockId) : Prop :=
  ∃ a, Search.Reaches g.nexts id a ∧ Relation.TransGen (fun a b => b ∈ g.nexts a) a a

lemma LeadsToLoop.of_next (hb : g.LeadsToLoop b) (h : b ∈ g.nexts a) : g.LeadsToLoop a := by
  obtain ⟨c, hreach, hloop⟩ := hb
  exact ⟨c, .head h hreach, hloop⟩

end ContractAudit.Flow.Graph

namespace ContractAudit.Fixpoint

open Domain ContractAudit.Flow Filter

/-- What changes only by a rise in rank from some moment on, and not above a height, comes to
rest. -/
lemma eventuallyConst_of_rank {α : Type} {f : Nat → α} (rank : α → Nat) (height start : Nat)
    (hle : ∀ n, rank (f n) ≤ height)
    (hlt : ∀ n, start ≤ n → f (n + 1) = f n ∨ rank (f n) < rank (f (n + 1))) :
    EventuallyConst f atTop := by
  have hmono : ∀ m n, start ≤ m → m ≤ n → rank (f m) ≤ rank (f n) := by
    intro m n hm hmn
    induction n, hmn using Nat.le_induction with
    | base => exact le_rfl
    | succ n hmn ih =>
      obtain hsame | hrise := hlt n (hm.trans hmn)
      · exact ih.trans (congrArg rank hsame).ge
      · exact ih.trans hrise.le
  by_contra hnever
  rw [eventuallyConst_atTop_nat] at hnever
  push Not at hnever
  have hhigh : ∀ k, ∃ n, start ≤ n ∧ k ≤ rank (f n) := by
    intro k
    induction k with
    | zero => exact ⟨start, le_rfl, Nat.zero_le _⟩
    | succ k ih =>
      obtain ⟨n, hn, hk⟩ := ih
      obtain ⟨m, hm, hchange⟩ := hnever n
      have hrise := (hlt m (hn.trans hm)).resolve_left hchange
      exact ⟨m + 1, (hn.trans hm).trans (Nat.le_succ m),
        (hk.trans (hmono n m hn hm)).trans_lt hrise⟩
  obtain ⟨n, -, hn⟩ := hhigh (height + 1)
  exact absurd (hle n) (by omega)

/-! ### The queue -/

/-- Blocks are queued behind those that wait. -/
lemma exists_pushAll_eq (queue ids : List BlockId) : ∃ more, pushAll queue ids = queue ++ more := by
  refine List.foldlRecOn ids push (motive := fun q => ∃ more, q = queue ++ more) ⟨[], by simp⟩ ?_
  rintro _ ⟨more, rfl⟩ id -
  rw [push]
  split
  · exact ⟨more, rfl⟩
  · exact ⟨more ++ [id], List.append_assoc ..⟩

/-- Distinct blocks are queued as they are listed. -/
lemma pushAll_of_nodup {queue ids : List BlockId} (h : (queue ++ ids).Nodup) :
    pushAll queue ids = queue ++ ids := by
  induction ids generalizing queue with
  | nil => simp [pushAll]
  | cons id ids ih =>
    have hid : id ∉ queue := fun hmem =>
      (List.nodup_append.mp h).2.2 id hmem id (List.mem_cons_self ..) rfl
    rw [List.append_cons] at h
    rw [pushAll, List.foldl_cons, push, if_neg hid, ← pushAll, ih h, List.append_assoc,
      List.singleton_append]

namespace Problem

variable {σ L : Type} (p : Problem σ L) (g : Graph σ) (initial : L)

/-! ### One visit after the other -/

/-- The state behind the next visit. Nothing happens when no block waits. -/
def next (s : State L) : State L :=
  match s.queue with
  | [] => s
  | id :: queue =>
    match g.block? id with
    | some b => p.visit g initial b { s with queue }
    | none => { s with queue }

/-- The state behind the first `n` visits. -/
def stateAt (n : Nat) : State L := (p.next g initial)^[n] (p.start g initial)

variable {p g initial} {s : State L} {id : BlockId}

lemma stateAt_succ (n : Nat) : p.stateAt g initial (n + 1) =
    p.next g initial (p.stateAt g initial n) :=
  Function.iterate_succ_apply' ..

lemma stateAt_add (m n : Nat) : p.stateAt g initial (m + n) =
    (p.next g initial)^[n] (p.stateAt g initial m) := by
  rw [stateAt, Nat.add_comm, Function.iterate_add_apply, ← stateAt]

lemma next_of_nil (h : s.queue = []) : p.next g initial s = s := by
  rw [next, h]

lemma converged_run_iff (left visits : Nat) (s : State L) :
    (p.run g initial left visits s).converged = true ↔
      ((p.next g initial)^[left] s).queue = [] := by
  induction left generalizing visits s with
  | zero => cases hq : s.queue <;> simp [run, hq]
  | succ left ih =>
    rw [run, Function.iterate_succ_apply]
    cases hq : s.queue with
    | nil =>
      rw [next_of_nil hq, Function.iterate_fixed (next_of_nil hq)]
      simp [hq]
    | cons id queue =>
      have hnext : p.next g initial s = match g.block? id with
          | some b => p.visit g initial b { s with queue }
          | none => { s with queue } := by
        rw [next, hq]
      rw [hnext]
      exact ih _ _

/-- A solve converges exactly if nothing waits behind the visits it is allowed. -/
lemma converged_solve_iff :
    (p.solve g initial).converged = true ↔ (p.stateAt g initial p.maxVisits).queue = [] :=
  converged_run_iff ..

/-- The limit plays no part in single visits. -/
lemma stateAt_withLimit (limit : Int) (n : Nat) :
    { p with limit }.stateAt g initial n = p.stateAt g initial n := rfl

/-- When nothing waits, nothing will. -/
lemma queue_nil_of_le {m n : Nat} (hle : m ≤ n) (h : (p.stateAt g initial m).queue = []) :
    (p.stateAt g initial n).queue = [] := by
  induction n, hle using Nat.le_induction with
  | base => exact h
  | succ n _ ih => rw [stateAt_succ, next_of_nil ih, ih]

variable (p g initial) in
/-- Every solve that is allowed enough visits converges. -/
def Converges : Prop :=
  ∃ visits : Nat, ∀ limit : Int, (visits : Int) ≤ limit →
    ({ p with limit }.solve g initial).converged = true

/-- Solves converge that are allowed enough visits exactly if nothing waits at some moment. -/
lemma converges_iff : p.Converges g initial ↔ ∃ n, (p.stateAt g initial n).queue = [] := by
  constructor
  · rintro ⟨visits, hvisits⟩
    have hconverged := hvisits visits le_rfl
    rw [converged_solve_iff, stateAt_withLimit] at hconverged
    exact ⟨_, hconverged⟩
  · rintro ⟨n, hnil⟩
    refine ⟨n, fun limit hn => ?_⟩
    have hvisits : n ≤ { p with limit }.maxVisits := by
      show n ≤ if 0 < limit then limit.toNat else defaultLimit
      split <;> omega
    rw [converged_solve_iff, stateAt_withLimit]
    exact queue_nil_of_le hvisits hnil

/-- No solve converges if there are always blocks that wait. -/
lemma not_converged_of_waits (h : ∀ n, (p.stateAt g initial n).queue ≠ []) (limit : Int) :
    ({ p with limit }.solve g initial).converged = false := by
  rw [← Bool.not_eq_true, converged_solve_iff, stateAt_withLimit]
  exact h _

/-- **A run that comes back to a state in which blocks wait never ends.** -/
lemma waits_of_repeats {start period : Nat} (hperiod : 0 < period)
    (hrepeats : p.stateAt g initial (start + period) = p.stateAt g initial start)
    (hwaits : (p.stateAt g initial start).queue ≠ []) (n : Nat) :
    (p.stateAt g initial n).queue ≠ [] := by
  have hround : ∀ m, p.stateAt g initial (start + m * period) = p.stateAt g initial start := by
    intro m
    induction m with
    | zero => rw [Nat.zero_mul, Nat.add_zero]
    | succ m ih => rw [Nat.succ_mul, ← Nat.add_assoc, stateAt_add, ih, ← stateAt_add, hrepeats]
  intro hnil
  have hlate : n ≤ start + n * period :=
    (Nat.le_mul_of_pos_right n hperiod).trans (Nat.le_add_left ..)
  exact hwaits (hround n ▸ queue_nil_of_le hlate hnil)

/-! ### What a visit does -/

variable (p g initial) in
/-- What holds of every state of a run that facts flow forward in: the invariant of the equations,
and only blocks of the order wait. -/
structure OnRun (s : State L) : Prop where
  invariant : p.Invariant g initial s
  waiting : ∀ id ∈ s.queue, id ∈ g.order

/-- The first block that waits is visited next. -/
lemma OnRun.next_eq_visit [Statement σ] (hg : g.UpToDate) (hs : p.OnRun g initial s)
    {queue : List BlockId} (hq : s.queue = id :: queue) :
    ∃ b ∈ g.blocks, b.id = id ∧ id ∈ g.order ∧
      p.next g initial s = p.visit g initial b { s with queue } := by
  have hid : id ∈ g.order := hs.waiting id (hq ▸ List.mem_cons_self ..)
  obtain ⟨b, hb⟩ := Graph.has_iff.mp (hg.reachable_of_mem_order hid).has
  obtain ⟨hmem, rfl⟩ := Graph.block?_eq_some_iff.mp hb
  refine ⟨b, hmem, rfl, hid, ?_⟩
  rw [next, hq]
  simp only [hb]

/-- Where blocks wait, the next state is that behind a visit. -/
lemma OnRun.next_cases [Statement σ] (hg : g.UpToDate) (hs : p.OnRun g initial s) :
    s.queue = [] ∨ ∃ b ∈ g.blocks, b.id ∈ g.order ∧ ∃ queue, s.queue = b.id :: queue ∧
      p.Visited g initial b s queue (p.next g initial s) := by
  cases hq : s.queue with
  | nil => exact .inl rfl
  | cons id queue =>
    obtain ⟨b, hb, rfl, hord, hnext⟩ := hs.next_eq_visit hg hq
    exact .inr ⟨b, hb, hord, queue, rfl,
      hnext ▸ visit_visited p g initial b queue fun hdir _ => hs.invariant.seed hdir⟩

/-- A visit leaves the state on the run. -/
lemma OnRun.next [Statement σ] (hg : g.UpToDate) (hrefl : ∀ fact, p.lattice.equal fact fact = true)
    (hdir : p.direction = .forward) (hs : p.OnRun g initial s) :
    p.OnRun g initial (p.next g initial s) := by
  obtain hq | ⟨b, hb, hord, queue, hq, hvisited⟩ := hs.next_cases hg
  · rwa [next_of_nil hq]
  refine ⟨?_, fun id hid => ?_⟩
  · obtain ⟨c, hc, hid, -, hnext⟩ := hs.next_eq_visit hg hq
    rw [hnext]
    exact hs.invariant.visit hg hrefl hc (hid ▸ hq)
  · exact hg.mem_order (hvisited.reachable hdir hb (hg.reachable_of_mem_order hord)
      (fun id hid => hg.reachable_of_mem_order (hs.waiting id (hq ▸ List.mem_cons_of_mem _ hid)))
      hid)

variable (initial) in
lemma onRun_stateAt [Statement σ] (hg : g.UpToDate) (hrefl : ∀ fact, p.lattice.equal fact
    fact = true) (hdir : p.direction = .forward) (hentry : g.has g.entry = true) (n : Nat) :
    p.OnRun g initial (p.stateAt g initial n) := by
  induction n with
  | zero =>
    exact ⟨invariant_start hg hentry, fun id hid =>
      hg.mem_order (reachable_of_mem_start_queue hg hentry hid)⟩
  | succ n ih =>
    rw [stateAt_succ]
    exact ih.next hg hrefl hdir

/-! ### Blocks that come to rest -/

variable (p g initial) in
/-- What flows out of a block behind the first `n` visits. -/
def outflowAt (id : BlockId) (n : Nat) : Option L := (p.outflow (p.stateAt g initial n)).get? id

variable (p g initial) in
/-- Nothing more happens to what flows out of a block from some visit on. -/
def Rests (id : BlockId) : Prop := EventuallyConst (p.outflowAt g initial id) atTop

lemma rests_iff :
    p.Rests g initial id ↔
      ∀ᶠ n in atTop, p.outflowAt g initial id (n + 1) = p.outflowAt g initial id n := by
  rw [Rests, eventuallyConst_atTop_nat, eventually_atTop]

section Rests

variable [Statement σ] (hg : g.UpToDate) (hrefl : ∀ fact, p.lattice.equal fact fact = true)
  (hdir : p.direction = .forward) (hentry : g.has g.entry = true) {b : Block σ}

include hg hrefl hdir hentry

variable (initial) in
/-- What flows out of a block changes only when the block is visited, and then to what it makes of
what it gathers. -/
lemma outflowAt_succ (hb : b ∈ g.blocks) (n : Nat) :
    p.outflowAt g initial b.id (n + 1) = p.outflowAt g initial b.id n ∨
      b.id ∈ g.order ∧
        ¬ p.lattice.equal
          (p.acrossBlock b (p.gathered g initial (p.outflow (p.stateAt g initial n)) b))
          (p.factAt (p.outflow (p.stateAt g initial n)) b.id) = true ∧
        p.outflowAt g initial b.id (n + 1) =
          some (p.acrossBlock b (p.gathered g initial (p.outflow (p.stateAt g initial n)) b)) := by
  have hrun := onRun_stateAt initial hg hrefl hdir hentry n
  simp only [outflowAt, stateAt_succ]
  obtain hq | ⟨c, hc, hord, queue, -, hvisited⟩ := hrun.next_cases hg
  · rw [next_of_nil hq]
    exact .inl rfl
  obtain ⟨-, hout, -⟩ | ⟨hne, hout, -⟩ := hvisited.outflow <;> rw [hout]
  · exact .inl rfl
  · by_cases hid : b.id = c.id
    · obtain rfl := Graph.eq_of_id_eq hb hc hid
      exact .inr ⟨hord, hne, Table.get?_set_self ..⟩
    · exact .inl (Table.get?_set_ne _ _ hid)

/-- A run in which every block of the order comes to rest ends. -/
lemma exists_queue_nil (h : ∀ id ∈ g.order, p.Rests g initial id) :
    ∃ n, (p.stateAt g initial n).queue = [] := by
  have hall : ∀ᶠ n in atTop, ∀ id ∈ g.order,
      p.outflowAt g initial id (n + 1) = p.outflowAt g initial id n :=
    (eventually_all_finite (List.finite_toSet g.order)).mpr fun id hid => rests_iff.mp (h id hid)
  obtain ⟨start, hstart⟩ := eventually_atTop.mp hall
  have htail : ∀ n ≥ start,
      (p.stateAt g initial (n + 1)).queue = (p.stateAt g initial n).queue.tail := by
    intro n hn
    have hrun := onRun_stateAt initial hg hrefl hdir hentry n
    rw [stateAt_succ]
    obtain hq | ⟨b, hb, hord, queue, hq, hvisited⟩ := hrun.next_cases hg
    · rw [next_of_nil hq, hq, List.tail_nil]
    obtain ⟨-, -, hqueue⟩ | ⟨hne, hout, -⟩ := hvisited.outflow
    · rw [hqueue, hq, List.tail_cons]
    · have hsame := hstart n hn b.id hord
      rw [outflowAt, stateAt_succ, hout, Table.get?_set_self] at hsame
      refine absurd ?_ hne
      rw [factAt, ← outflowAt, ← hsame, Option.getD_some]
      exact hrefl _
  have hdrop : ∀ k,
      (p.stateAt g initial (start + k)).queue = (p.stateAt g initial start).queue.drop k := by
    intro k
    induction k with
    | zero => rfl
    | succ k ih => rw [← Nat.add_assoc, htail _ (Nat.le_add_right ..), ih, List.tail_drop]
  exact ⟨start + (p.stateAt g initial start).queue.length, by rw [hdrop, List.drop_length]⟩

/-- A block comes to rest when what it gathers does. -/
lemma rests_of_gathered (hb : b ∈ g.blocks)
    (h : EventuallyConst
      (fun n => p.gathered g initial (p.outflow (p.stateAt g initial n)) b) atTop) :
    p.Rests g initial b.id := by
  obtain ⟨start, hstart⟩ := eventuallyConst_atTop.mp h
  have hstep := outflowAt_succ initial hg hrefl hdir hentry hb
  set out := p.acrossBlock b (p.gathered g initial (p.outflow (p.stateAt g initial start)) b)
  by_cases hout : ∃ m ≥ start, p.outflowAt g initial b.id m = some out
  · obtain ⟨m, hm, hget⟩ := hout
    refine eventuallyConst_atTop.mpr ⟨m, fun n hn => ?_⟩
    rw [hget]
    induction n, hn using Nat.le_induction with
    | base => exact hget
    | succ n hn ih =>
      obtain hsame | ⟨-, hne, -⟩ := hstep n
      · exact hsame.trans ih
      · rw [hstart n (hm.trans hn), factAt, ← outflowAt, ih, Option.getD_some] at hne
        exact absurd (hrefl _) hne
  · refine eventuallyConst_atTop_nat.mpr ⟨start, fun n hn => ?_⟩
    obtain hsame | ⟨-, -, hget⟩ := hstep n
    · exact hsame
    · rw [hstart n hn] at hget
      exact absurd ⟨n + 1, Nat.le_succ_of_le hn, hget⟩ hout

omit hg hrefl hdir hentry [Statement σ] in
lemma joinOver_cons (out : Table BlockId L) (start : L) (id : BlockId) (ids : List BlockId) :
    p.joinOver out start (id :: ids) =
      p.joinOver out ((out.get? id).elim start (p.lattice.join start)) ids := by
  rw [joinOver, List.foldl_cons, ← joinOver]
  cases out.get? id <;> rfl

omit hg hrefl hdir hentry [Statement σ] in
/-- A join comes to rest when its start and all its facts do. -/
lemma eventuallyConst_joinOver {start : Nat → L} (hstart : EventuallyConst start atTop)
    {ids : List BlockId} (h : ∀ id ∈ ids, p.Rests g initial id) :
    EventuallyConst (fun n => p.joinOver (p.outflow (p.stateAt g initial n)) (start n) ids)
      atTop := by
  induction ids generalizing start with
  | nil => exact hstart
  | cons id rest ih =>
    have hfirst := hstart.comp₂ (fun acc fact? => fact?.elim acc (p.lattice.join acc))
      (h id (List.mem_cons_self ..))
    simp only [joinOver_cons]
    exact ih hfirst fun x hx => h x (List.mem_cons_of_mem _ hx)

/-- A block comes to rest behind its predecessors. -/
lemma rests_of_preds (hb : b ∈ g.blocks) (h : ∀ id ∈ b.preds, p.Rests g initial id) :
    p.Rests g initial b.id := by
  refine rests_of_gathered hg hrefl hdir hentry hb ?_
  simp only [gathered, hdir]
  split
  · exact .const initial
  · exact eventuallyConst_joinOver (.const _) h

variable (initial) in
/-- **The blocks behind all loops come to rest** when the others do. -/
lemma rests_of_loops (h : ∀ b ∈ g.blocks, g.LeadsToLoop b.id → p.Rests g initial b.id) :
    ∀ b ∈ g.blocks, p.Rests g initial b.id := by
  -- without a loop to be reached, being an ancestor is a strict order
  let ancestor (a b : BlockId) : Prop :=
    Relation.TransGen (fun a b => b ∈ g.nexts a) a b ∧ ¬ g.LeadsToLoop a
  have horder : IsStrictOrder BlockId ancestor :=
    { irrefl := fun a ha => ha.2 ⟨a, .refl, ha.1⟩
      trans := fun a b c hab hbc => ⟨hab.1.trans hbc.1, hab.2⟩ }
  have hwf : Set.WellFoundedOn {id | id ∈ g.ids} ancestor := (List.finite_toSet g.ids).wellFoundedOn
  suffices hrests : ∀ id ∈ g.ids, p.Rests g initial id from
    fun b hb => hrests b.id (List.mem_map_of_mem hb)
  intro id hid
  refine hwf.induction hid fun id hid ih => ?_
  obtain ⟨b, hb, rfl⟩ := List.mem_map.mp hid
  by_cases hloop : g.LeadsToLoop b.id
  · exact h b hb hloop
  refine rests_of_preds hg hrefl hdir hentry hb fun id hpred => ?_
  obtain ⟨a, ha, hsucc⟩ := (hg.mem_preds hb).mp hpred
  obtain ⟨hmem, rfl⟩ := Graph.block?_eq_some_iff.mp ha
  by_cases hbefore : g.LeadsToLoop a.id
  · exact h a hmem hbefore
  have hnext : b.id ∈ g.nexts a.id :=
    Graph.mem_nexts.mpr ⟨a, ha, hsucc, Graph.has_of_block? (Graph.block?_of_mem hb)⟩
  exact ih a.id (List.mem_map_of_mem hmem) ⟨.single hnext, hbefore⟩

end Rests

/-! ### Facts that fall -/

variable (p g initial) in
/-- The visit behind the first `n` replaces what flows out of a block by something that is not above
it. -/
def FallsAt (n : Nat) (id : BlockId) : Prop :=
  ∃ x y, p.outflowAt g initial id n = some x ∧ p.outflowAt g initial id (n + 1) = some y ∧
    p.lattice.leq x y = false

lemma not_fallsAt_of_same (hl : p.lattice.Lawful) {n : Nat}
    (h : p.outflowAt g initial id (n + 1) = p.outflowAt g initial id n) :
    ¬ p.FallsAt g initial n id := by
  rintro ⟨x, y, hx, hy, hleq⟩
  obtain rfl := Option.some.inj (hx.symm.trans (h.symm.trans hy))
  rw [hl.leq_refl] at hleq
  contradiction

section Falls

variable [Statement σ] (hg : g.UpToDate) (hl : p.lattice.Lawful) (hdir : p.direction = .forward)
  (hentry : g.has g.entry = true) (h : p.Heights g initial)

include hg hl hdir hentry h

/-- What flows out of blocks is always of the kind that has ranks. -/
lemma Heights.inside_outflowAt (n : Nat) :
    ∀ id fact, p.outflowAt g initial id n = some fact → h.inside fact := by
  induction n with
  | zero =>
    intro id fact hget
    rw [eq_bottom_of_outflow_start hget]
    exact h.inside_bottom
  | succ n ih =>
    intro id fact hget
    have hrun := onRun_stateAt initial hg hl.equal_refl hdir hentry n
    simp only [outflowAt, stateAt_succ] at hget
    obtain hq | ⟨b, hb, -, queue, -, hvisited⟩ := hrun.next_cases hg
    · rw [next_of_nil hq] at hget
      exact ih id fact hget
    rcases hvisited.outflow_cases hget with ⟨-, rfl⟩ | hget
    · exact h.inside_across b hb _ (h.inside_gathered b ih)
    · exact ih id fact hget

/-- A block comes to rest when its facts fall no more. -/
lemma Heights.rests_of_not_fallsAt {b : Block σ} (hb : b ∈ g.blocks) {start : Nat}
    (hfalls : ∀ n, start ≤ n → ¬ p.FallsAt g initial n b.id) : p.Rests g initial b.id := by
  have hinside := h.inside_outflowAt hg hl hdir hentry
  have hget : ∀ n, ∃ fact, p.outflowAt g initial b.id n = some fact := by
    intro n
    have hhas := (onRun_stateAt initial hg hl.equal_refl hdir hentry n).invariant.outflow_has b.id
    rw [Graph.has_of_block? (Graph.block?_of_mem hb)] at hhas
    exact Option.isSome_iff_exists.mp hhas
  refine eventuallyConst_of_rank (fun fact? => (fact?.map h.rank).getD 0) h.height start
    (fun n => ?_)
    fun n hn => ?_
  · obtain ⟨fact, hfact⟩ := hget n
    rw [hfact]
    exact h.rank_le fact (hinside n b.id fact hfact)
  · obtain hsame | ⟨-, hne, hy⟩ := outflowAt_succ initial hg hl.equal_refl hdir hentry hb n
    · exact .inl hsame
    obtain ⟨x, hx⟩ := hget n
    rw [factAt, ← outflowAt, hx, Option.getD_some] at hne
    set y := p.acrossBlock b (p.gathered g initial (p.outflow (p.stateAt g initial n)) b)
    have hle : p.lattice.leq x y = true := by
      by_contra hleq
      exact hfalls n hn ⟨x, y, hx, hy, Bool.not_eq_true _ ▸ hleq⟩
    rw [hx, hy]
    exact .inr (h.rank_lt x y (hinside (n + 1) b.id y hy) hle hne)

/-- **Solves converge exactly if the facts of the blocks that lead to a loop fall no more from some
visit on.** -/
theorem Heights.converges_iff_not_fallsAt :
    p.Converges g initial ↔
      ∃ start, ∀ n, start ≤ n → ∀ b ∈ g.blocks, g.LeadsToLoop b.id →
        ¬ p.FallsAt g initial n b.id := by
  rw [converges_iff]
  constructor
  · rintro ⟨start, hnil⟩
    refine ⟨start, fun n hn b _ _ => not_fallsAt_of_same hl ?_⟩
    rw [outflowAt, stateAt_succ, next_of_nil (queue_nil_of_le hn hnil), ← outflowAt]
  · rintro ⟨start, hfalls⟩
    have hrests := rests_of_loops initial hg hl.equal_refl hdir hentry fun b hb hloop =>
      h.rests_of_not_fallsAt hg hl hdir hentry hb fun n hn => hfalls n hn b hb hloop
    refine exists_queue_nil hg hl.equal_refl hdir hentry fun id hid => ?_
    obtain ⟨b, hb⟩ := Graph.has_iff.mp (hg.reachable_of_mem_order hid).has
    obtain ⟨hmem, rfl⟩ := Graph.block?_eq_some_iff.mp hb
    exact hrests b hmem

end Falls

end Problem

end ContractAudit.Fixpoint
