import ContractAudit.Analysis.Facts
import ContractAudit.Proofs.Fixpoint.Paths
import ContractAudit.Proofs.Flow.Entry

/-!
External calls before an instruction, on all paths.

* `externalCalls`: the instructions of a path that call out.
* `callHistories_stepwise`: calls are followed instruction by instruction, and instructions
  distribute over joins. An instruction that calls out does not keep bottom, so this needs joins
  over some path.
* `CallsOnPaths`: what the calls in front of an instruction say about all paths to it. The lines are
  those of calls on some path, and the flag says whether there are calls on all paths, on none, or
  on some.
* `callsBefore_onPaths`: they say so of every instruction that can be reached.
-/

namespace ContractAudit.Analysis

open Source ContractAudit.Flow Domain Fixpoint

/-- The instructions of a path that make an external call, the last one first. -/
def externalCalls (past : List (Graph.Place Instr)) : List Instr :=
  (past.map (·.2.2)).filter fun i => !i.external.isEmpty

/-- A history of calls in front of statement number `k` of a block says exactly what happened on the
paths that lead there. -/
structure CallsOnPaths (g : Graph Instr) (b : Block Instr) (k : Nat) (calls : CallHistory) :
    Prop where
  lines : ∀ line, line ∈ calls.1 ↔ ∃ past, g.Path past b k ∧ ∃ i ∈ externalCalls past, i.line = line
  all : calls.2 = .value true ↔ ∀ past, g.Path past b k → externalCalls past ≠ []
  none : calls.2 = .value false ↔ ∀ past, g.Path past b k → externalCalls past = []
  mixed : calls.2 = .top ↔ (∃ past, g.Path past b k ∧ externalCalls past ≠ []) ∧
    ∃ past, g.Path past b k ∧ externalCalls past = []

/-! ### Instructions -/

lemma externalCalls_cons (place : Graph.Place Instr) (past : List (Graph.Place Instr)) :
    externalCalls (place :: past) =
      if place.2.2.external.isEmpty then externalCalls past
      else place.2.2 :: externalCalls past := by
  cases h : place.2.2.external.isEmpty <;> simp [externalCalls, h]

/-- The effect of an instruction on the calls made, wherever it stands. -/
def callStep (place : Graph.Place Instr) : CallHistory → CallHistory := transferCalls place.2.2

lemma leq_callHistories_iff {limit : Int} {a b : CallHistory} :
    (callHistories limit).lattice.leq a b = true ↔
      (∀ line ∈ a.1, line ∈ b.1) ∧ (flat Bool).leq a.2 b.2 = true :=
  Bool.and_eq_true_iff.trans (and_congr_left' FinSet.subset_iff)

lemma callHistories_lawful (limit : Int) : (callHistories limit).lattice.Lawful :=
  product_lawful (powerset_lawful Nat) (flat_lawful Bool)

/-- Calls are followed instruction by instruction, and instructions distribute over joins. -/
lemma callHistories_stepwise (g : Graph Instr) (limit : Int) :
    (callHistories limit).Stepwise g callStep where
  forward := rfl
  across b _ fact := Problem.acrossBlock_eq_foldr rfl rfl rfl b fact
  mono place x y h := by
    simp only [callStep, transferCalls]
    split
    · exact h
    · have hlines := (leq_callHistories_iff.mp h).1
      refine leq_callHistories_iff.mpr ⟨fun line hline => ?_, rfl⟩
      exact FinSet.mem_insert.mpr ((FinSet.mem_insert.mp hline).imp_left (hlines line))
  join place x y := by
    simp only [callStep, transferCalls]
    split
    · exact (callHistories_lawful limit).leq_refl _
    · refine leq_callHistories_iff.mpr ⟨fun line hline => ?_, rfl⟩
      rw [FinSet.mem_insert] at hline
      refine mem_powerset_join.mpr ?_
      rw [FinSet.mem_insert, FinSet.mem_insert]
      rcases hline with hline | rfl
      · exact (mem_powerset_join.mp hline).imp .inl .inl
      · exact .inl (.inr rfl)

/-! ### Paths -/

/-- The calls made behind a path. -/
def callsAlong (past : List (Graph.Place Instr)) : CallHistory :=
  past.foldr callStep (.empty, .value false)

lemma callsAlong_cons (place : Graph.Place Instr) (past : List (Graph.Place Instr)) :
    callsAlong (place :: past) = callStep place (callsAlong past) := rfl

lemma mem_callsAlong {past : List (Graph.Place Instr)} {line : Nat} :
    line ∈ (callsAlong past).1 ↔ ∃ i ∈ externalCalls past, i.line = line := by
  induction past with
  | nil => simp [callsAlong, externalCalls, FinSet.not_mem_empty]
  | cons place past ih =>
    rw [callsAlong_cons, externalCalls_cons, callStep, transferCalls]
    split
    · exact ih
    · simp [FinSet.mem_insert, ih, or_comm, eq_comm]

lemma callsAlong_snd (past : List (Graph.Place Instr)) :
    (callsAlong past).2 = .value (!(externalCalls past).isEmpty) := by
  induction past with
  | nil => rfl
  | cons place past ih =>
    rw [callsAlong_cons, externalCalls_cons, callStep, transferCalls]
    split
    · exact ih
    · rfl

/-- Whether there are calls, for each of the paths to a place. -/
def callFlags (g : Graph Instr) (b : Block Instr) (k : Nat) : Set Bool :=
  {called | ∃ past, g.Path past b k ∧ (!(externalCalls past).isEmpty) = called}

lemma snd_image_pathEffects (g : Graph Instr) (b : Block Instr) (k : Nat) :
    Prod.snd '' Problem.pathEffects g callStep (.empty, .value false) b k =
      Flat.value '' callFlags g b k := by
  ext flag
  constructor
  · rintro ⟨_, ⟨past, hpast, rfl⟩, rfl⟩
    exact ⟨_, ⟨past, hpast, rfl⟩, (callsAlong_snd past).symm⟩
  · rintro ⟨_, ⟨past, hpast, rfl⟩, rfl⟩
    exact ⟨_, ⟨past, hpast, rfl⟩, callsAlong_snd past⟩

/-- A join of the calls behind all paths says what happened on them. -/
lemma callsOnPaths_of_isJoin {g : Graph Instr} {b : Block Instr} {k : Nat} {calls : CallHistory}
    (h : (product (powerset Nat) (flat Bool)).IsJoin
      (Problem.pathEffects g callStep (.empty, .value false) b k) calls)
    (hpath : ∃ past, g.Path past b k) : CallsOnPaths g b k calls := by
  have hflags := snd_image_pathEffects g b k ▸ h.snd
  obtain ⟨past, hpast⟩ := hpath
  have hne : (callFlags g b k).Nonempty := ⟨_, past, hpast, rfl⟩
  refine ⟨fun line => ?_, ?_, ?_, ?_⟩
  · rw [h.fst.mem_iff]
    constructor
    · rintro ⟨_, ⟨_, ⟨past, hpast, rfl⟩, rfl⟩, hline⟩
      exact ⟨past, hpast, mem_callsAlong.mp hline⟩
    · rintro ⟨past, hpast, hline⟩
      exact ⟨_, ⟨_, ⟨past, hpast, rfl⟩, rfl⟩, mem_callsAlong.mpr hline⟩
  · rw [hflags.eq_value_iff hne]
    simp [callFlags]
  · rw [hflags.eq_value_iff hne]
    simp [callFlags]
  · rw [hflags.eq_top_iff hne]
    constructor
    · rintro ⟨_, ⟨past, hpast, rfl⟩, _, ⟨other, hother, rfl⟩, hdiffer⟩
      by_cases hcalls : externalCalls past = []
      · exact ⟨⟨other, hother, by simpa [hcalls] using hdiffer⟩, past, hpast, hcalls⟩
      · refine ⟨⟨past, hpast, hcalls⟩, other, hother, ?_⟩
        by_contra hsome
        simp [List.isEmpty_eq_false_iff.mpr hcalls, List.isEmpty_eq_false_iff.mpr hsome] at hdiffer
    · rintro ⟨⟨past, hpast, hcalls⟩, other, hother, hnone⟩
      exact ⟨_, ⟨past, hpast, rfl⟩, _, ⟨other, hother, rfl⟩, by simp [hcalls, hnone]⟩

/-! ### The facts of a function -/

/-- The calls in front of statement number `k` of a block. -/
def callsAt (facts : FlowFacts) (b : Block Instr) (k : Nat) : CallHistory :=
  (callHistories facts.limit).factAtStmt facts.calls b k

/-- The instructions are listed in order, each with the calls in front of it. -/
lemma callsBefore_eq (facts : FlowFacts) :
    facts.callsBefore = facts.function.graph.blocks.flatMap fun b =>
      b.stmts.mapIdx fun k i => (b, i, callsAt facts b k) := by
  rw [FlowFacts.callsBefore, Problem.walk_eq, List.map_flatMap]
  refine congrArg (facts.function.graph.blocks.flatMap ·) (funext fun b => List.ext_getElem?
    fun k => ?_)
  rw [List.getElem?_map, List.getElem?_mapIdx, List.getElem?_mapIdx, Option.map_map]
  rfl

section Lowered

variable {u : SourceUnit} {owner : Contract} {fn : Function} {state : List Text} {body : Stmt}
  {f : LoweredFunction} {types : TypeIndex} {limit : Int}

lemma callsAt_onPaths (hlower : lowerMember u owner fn state body = .ok f)
    (hconv : (FlowFacts.solve f types limit).calls.converged = true) {b : Block Instr}
    (hb : b ∈ f.graph.blocks) (hreach : f.graph.Reachable b.id) {k : Nat}
    (hk : k ≤ b.stmts.length) :
    CallsOnPaths f.graph b k (callsAt (FlowFacts.solve f types limit) b k) := by
  obtain ⟨hgraph, -, hback⟩ := lowerMember_graph hlower
  obtain ⟨past, hpast⟩ := Graph.exists_path hb hreach
  refine callsOnPaths_of_isJoin ?_ ⟨_, hpast.before hk⟩
  rw [callsAt, Problem.factAtStmt_eq_factBefore rfl]
  exact Problem.solve_isJoin hgraph (callHistories_lawful limit)
    (callHistories_stepwise f.graph limit) hback hconv hb hreach hk

/-- **External calls are known exactly**: the listing has every instruction in order, and in front
of one that can be reached it has the lines of the calls on some path there, and says whether there
are calls on all paths there, on none, or on some only. -/
theorem callsBefore_onPaths (hlower : lowerMember u owner fn state body = .ok f)
    (hconv : (FlowFacts.solve f types limit).calls.converged = true) :
    ((FlowFacts.solve f types limit).callsBefore = f.graph.blocks.flatMap fun b =>
        b.stmts.mapIdx fun k i => (b, i, callsAt (FlowFacts.solve f types limit) b k)) ∧
      ∀ b ∈ f.graph.blocks, f.graph.Reachable b.id → ∀ k < b.stmts.length,
        CallsOnPaths f.graph b k (callsAt (FlowFacts.solve f types limit) b k) :=
  ⟨callsBefore_eq _, fun _ hb hreach _ hk => callsAt_onPaths hlower hconv hb hreach
    (Nat.le_of_lt hk)⟩

end Lowered

/-- Sends one wei in line two if `c` holds, and then sets `x`. -/
def sendingBody : Stmt :=
  let name (t : Text) (line : Nat) : Token := ⟨.ident, t, line⟩
  let mark (t : Text) (line : Nat) : Token := ⟨.punct, t, line⟩
  let one (line : Nat) : Token := ⟨.number, "1", line⟩
  .block 1
    [.ifElse 1 [name "c" 1]
        (.expr 2 [name "to" 2, mark "." 2, name "send" 2, mark "(" 2, one 2, mark ")" 2]) .empty,
      .expr 3 [name "x" 3, mark "=" 3, one 3]]

/-- A function with the parameters `c` and `to`. -/
def sendingFunction : Function :=
  { name := "f", kind := .function, visibility := "public", mutability := [], modifiers := []
    params := [⟨"c", "bool"⟩, ⟨"to", "address"⟩], returns := [], line := 1, endLine := 3
    body? := some sendingBody }

/-- A contract with the state variable `x`. -/
def sendingContract : Contract :=
  { name := "A", kind := "contract", isAbstract := false, bases := [], line := 1
    stateVars := [⟨"x", "uint256", [], false, false, [], 1⟩], functions := [sendingFunction]
    modifiers := [] }

/-- A file with that contract only. -/
def sendingUnit : SourceUnit := ⟨"a.sol", [], [], 0, [], [sendingContract]⟩

/-- The function lowered. Block one sends, and block two sets `x`. -/
def sendingLowered : Except LowerError LoweredFunction :=
  lowerMember sendingUnit sendingContract sendingFunction ["x"] sendingBody

/-- Where `x` is set, the call in line two was made on one path and not on the other. -/
theorem callsBefore_onPaths_sending :
    ∃ f b, sendingLowered = .ok f ∧
      (FlowFacts.solve f (.ofSymbols (.ofUnits [sendingUnit])) 0).calls.converged = true ∧
      b ∈ f.graph.blocks ∧ f.graph.Reachable b.id ∧ 0 < b.stmts.length ∧
      (callsAt (FlowFacts.solve f (.ofSymbols (.ofUnits [sendingUnit])) 0) b 0).2 = .top ∧
      CallsOnPaths f.graph b 0
        (callsAt (FlowFacts.solve f (.ofSymbols (.ofUnits [sendingUnit])) 0) b 0) := by
  obtain ⟨f, hf, hconv, ⟨past, b⟩, hpath, hpos, htop⟩ : ∃ f, sendingLowered = .ok f ∧
      let facts := FlowFacts.solve f (.ofSymbols (.ofUnits [sendingUnit])) 0
      facts.calls.converged = true ∧ ∃ p ∈ f.graph.pathThrough? [2, 0],
        0 < p.2.stmts.length ∧ (callsAt facts p.2 0).2 = .top := by decide +kernel
  obtain ⟨hb, hreach⟩ := (Graph.path_of_pathThrough? hpath).reachable
  exact ⟨f, b, hf, hconv, hb, hreach, hpos, htop,
    (callsBefore_onPaths hf hconv).2 b hb hreach 0 hpos⟩

end ContractAudit.Analysis
