import ContractAudit.Proofs.Analysis.CallHistories
import ContractAudit.Rule.Reentrancy

/-!
Which functions are reported for a state write after an external call.

* `WritesBehindCall`: some path from the entry makes an external call and then writes state.
* `WritesBehindDeadCall`: a block that no path leads to makes an external call and then writes
  state. The replay of such a block starts at bottom, but a call takes bottom to a history that is
  not.
* `writesAfterCall_onPaths_iff`, `writesAfterCall_dead_iff`: what the test of one instruction says
  in a block that can be reached, and in one that cannot.
* `reentrancy_found_iff`: a function is reported for one of the two reasons and for no other.
* `reentrancy_found_in_dead_code`: the second reason occurs without the first.
-/

namespace ContractAudit.Rule

open Analysis Source ContractAudit.Flow Domain Fixpoint

/-- Some path from the entry executes an external call before an instruction that writes state. -/
def WritesBehindCall (g : Graph Instr) : Prop :=
  ∃ past b k i, g.Path past b k ∧ externalCalls past ≠ [] ∧ b.stmts[k]? = some i ∧
    i.stateWrites ≠ []

/-- A block that no path leads to has an external call before an instruction that writes state. -/
def WritesBehindDeadCall (g : Graph Instr) : Prop :=
  ∃ b ∈ g.blocks, ¬ g.Reachable b.id ∧ ∃ k i, b.stmts[k]? = some i ∧ i.stateWrites ≠ [] ∧
    ∃ call ∈ b.stmts.take k, call.external ≠ []

/-! ### One instruction -/

lemma writesAfterCall_iff {i : Instr} {calls : CallHistory} :
    writesAfterCall i calls = true ↔
      i.stateWrites ≠ [] ∧ (∃ line, line ∈ calls.1) ∧ calls.2 ≠ .bottom := by
  rw [← FinSet.size_ne_zero_iff]
  simp [writesAfterCall, and_assoc]

/-- Where paths lead, an instruction passes the test if it writes state and one of these paths has a
call on it. -/
lemma writesAfterCall_onPaths_iff {g : Graph Instr} {b : Block Instr} {k : Nat} {i : Instr}
    {calls : CallHistory} (h : CallsOnPaths g b k calls) :
    writesAfterCall i calls = true ↔
      i.stateWrites ≠ [] ∧ ∃ past, g.Path past b k ∧ externalCalls past ≠ [] := by
  rw [writesAfterCall_iff]
  refine and_congr_right fun _ => ?_
  constructor
  · rintro ⟨⟨line, hline⟩, -⟩
    obtain ⟨past, hpast, call, hcall, -⟩ := (h.lines line).mp hline
    exact ⟨past, hpast, List.ne_nil_of_mem hcall⟩
  · rintro ⟨past, hpast, hcalls⟩
    obtain ⟨call, hcall⟩ := List.exists_mem_of_ne_nil _ hcalls
    refine ⟨⟨call.line, (h.lines _).mpr ⟨past, hpast, call, hcall, rfl⟩⟩, ?_⟩
    -- with a call on one path, the flag says all paths or some of them
    by_cases hall : ∀ past, g.Path past b k → externalCalls past ≠ []
    · simp [h.all.mpr hall]
    · push Not at hall
      simp [h.mixed.mpr ⟨⟨past, hpast, hcalls⟩, hall⟩]

/-- A replay that starts at bottom has a history as soon as it has met a call. -/
lemma across_bottom_iff (limit : Int) (stmts : List Instr) :
    (∃ line, line ∈ ((callHistories limit).across (.empty, .bottom) stmts).1) ∧
        ((callHistories limit).across (.empty, .bottom) stmts).2 ≠ .bottom ↔
      ∃ call ∈ stmts, call.external ≠ [] := by
  induction stmts using List.reverseRecOn with
  | nil => simp [Problem.across]
  | append_singleton stmts i ih =>
    have hlast : (callHistories limit).across (.empty, .bottom) (stmts ++ [i]) =
        transferCalls i ((callHistories limit).across (.empty, .bottom) stmts) := by
      simp [Problem.across, callHistories]
    rw [hlast, transferCalls]
    by_cases hcall : i.external = []
    · simp [hcall, ih]
    · simp [hcall]

section Lowered

variable {u : SourceUnit} {owner : Contract} {fn : Function} {state : List Text} {body : Stmt}
  {f : LoweredFunction} {types : TypeIndex} {limit : Int}

/-- Where no path leads, an instruction passes the test if it writes state and its block has a call
before it. -/
lemma writesAfterCall_dead_iff (hlower : lowerMember u owner fn state body = .ok f)
    {b : Block Instr} (hdead : ¬ f.graph.Reachable b.id) (k : Nat) (i : Instr) :
    writesAfterCall i (callsAt (FlowFacts.solve f types limit) b k) = true ↔
      i.stateWrites ≠ [] ∧ ∃ call ∈ b.stmts.take k, call.external ≠ [] := by
  obtain ⟨hgraph, hentry, -⟩ := lowerMember_graph hlower
  have hbottom : (callHistories limit).factAt (FlowFacts.solve f types limit).calls.entry b.id =
      (.empty, .bottom) :=
    Problem.factAt_entry_of_not_reachable rfl hgraph hentry (callHistories_lawful limit).equal_refl
      hdead
  have hcalls : callsAt (FlowFacts.solve f types limit) b k =
      (callHistories limit).across (.empty, .bottom) (b.stmts.take k) := by
    rw [← hbottom]
    rfl
  rw [writesAfterCall_iff, hcalls, across_bottom_iff]

/-! ### Functions -/

lemma isSome_firstWrite?_iff (facts : FlowFacts) :
    (firstWrite? facts).isSome = true ↔ ∃ b ∈ facts.function.graph.blocks, ∃ k i,
      b.stmts[k]? = some i ∧ writesAfterCall i (callsAt facts b k) = true := by
  rw [firstWrite?, Option.isSome_map, List.find?_isSome, callsBefore_eq]
  simp only [List.mem_flatMap, List.mem_mapIdx]
  constructor
  · rintro ⟨_, ⟨b, hb, k, hk, rfl⟩, htest⟩
    exact ⟨b, hb, k, b.stmts[k], List.getElem?_eq_getElem hk, htest⟩
  · rintro ⟨b, hb, k, i, hi, htest⟩
    obtain ⟨hk, rfl⟩ := List.getElem?_eq_some_iff.mp hi
    exact ⟨_, ⟨b, hb, k, hk, rfl⟩, htest⟩

/-- The first write behind a call is found on paths, or in a block where none leads. -/
lemma isSome_firstWrite?_lowered_iff (hlower : lowerMember u owner fn state body = .ok f)
    (hconv : (FlowFacts.solve f types limit).calls.converged = true) :
    (firstWrite? (FlowFacts.solve f types limit)).isSome = true ↔
      WritesBehindCall f.graph ∨ WritesBehindDeadCall f.graph := by
  rw [isSome_firstWrite?_iff]
  constructor
  · rintro ⟨b, hb, k, i, hi, htest⟩
    by_cases hreach : f.graph.Reachable b.id
    · have hk : k ≤ b.stmts.length := Nat.le_of_lt (List.getElem?_eq_some_iff.mp hi).1
      obtain ⟨hwrites, past, hpast, hcalls⟩ :=
        (writesAfterCall_onPaths_iff (callsAt_onPaths hlower hconv hb hreach hk)).mp htest
      exact .inl ⟨past, b, k, i, hpast, hcalls, hi, hwrites⟩
    · obtain ⟨hwrites, hcalls⟩ := (writesAfterCall_dead_iff hlower hreach k i).mp htest
      exact .inr ⟨b, hb, hreach, k, i, hi, hwrites, hcalls⟩
  · rintro (⟨past, b, k, i, hpast, hcalls, hi, hwrites⟩ | ⟨b, hb, hdead, k, i, hi, hwrites, hcalls⟩)
    · obtain ⟨hb, hreach⟩ := hpast.reachable
      have hk : k ≤ b.stmts.length := Nat.le_of_lt (List.getElem?_eq_some_iff.mp hi).1
      exact ⟨b, hb, k, i, hi,
        (writesAfterCall_onPaths_iff (callsAt_onPaths hlower hconv hb hreach hk)).mpr
          ⟨hwrites, past, hpast, hcalls⟩⟩
    · exact ⟨b, hb, k, i, hi, (writesAfterCall_dead_iff hlower hdead k i).mpr ⟨hwrites, hcalls⟩⟩

/-- **A function that may be entered again is reported exactly if it writes state behind an external
call**, on a path from its entry or in a block that no path leads to. -/
theorem reentrancy_found_iff (hlower : lowerMember u owner fn state body = .ok f)
    (hwrites : f.function.isReadOnly = false) (hguard : isGuarded f.function = false)
    (hconv : (FlowFacts.solve f types limit).converged = true) :
    (∃ finding, reentrancyIn? (FlowFacts.solve f types limit) = some finding ∧
        finding.rule = reentrancyRule.id ∧ finding.entity = f.name) ↔
      WritesBehindCall f.graph ∨ WritesBehindDeadCall f.graph := by
  have hcalls : (FlowFacts.solve f types limit).calls.converged = true :=
    (Bool.and_eq_true_iff.mp hconv).2
  rw [← isSome_firstWrite?_lowered_iff hlower hcalls, Option.isSome_iff_exists]
  have hfunction : (FlowFacts.solve f types limit).function = f := rfl
  simp only [reentrancyIn?, hfunction, hwrites, hguard, Bool.or_self, Bool.false_eq_true, if_false,
    Option.map_eq_some_iff]
  constructor
  · rintro ⟨finding, ⟨write, hwrite, -⟩, -⟩
    exact ⟨write, hwrite⟩
  · rintro ⟨write, hwrite⟩
    exact ⟨_, ⟨write, hwrite, rfl⟩, rfl, rfl⟩

end Lowered

/-- The function that may send one wei and then sets `x` is reported, for the path through the
call. -/
theorem reentrancy_found_iff_sending :
    ∃ f, sendingLowered = .ok f ∧ f.function.isReadOnly = false ∧ isGuarded f.function = false ∧
      (FlowFacts.solve f (.ofSymbols (.ofUnits [sendingUnit])) 0).converged = true ∧
      WritesBehindCall f.graph ∧
      ∃ finding, reentrancyIn? (FlowFacts.solve f (.ofSymbols (.ofUnits [sendingUnit])) 0) =
          some finding ∧ finding.rule = reentrancyRule.id ∧ finding.entity = f.name := by
  obtain ⟨f, hf, hwrites, hguard, hconv, ⟨past, _⟩, hpath, ⟨⟨b, k, i⟩, hlast, hstate⟩, hcalls⟩ :
      ∃ f, sendingLowered = .ok f ∧ f.function.isReadOnly = false ∧ isGuarded f.function = false ∧
        (FlowFacts.solve f (.ofSymbols (.ofUnits [sendingUnit])) 0).converged = true ∧
        ∃ p ∈ f.graph.pathThrough? [2, 1, 0], (∃ e ∈ p.1.head?, e.2.2.stateWrites ≠ []) ∧
          externalCalls p.1.tail ≠ [] := by decide +kernel
  obtain ⟨before, rfl⟩ := List.head?_eq_some_iff.mp hlast
  obtain ⟨hbefore, hi⟩ := (Graph.path_of_pathThrough? hpath).suffix List.suffix_rfl
  have hpaths : WritesBehindCall f.graph :=
    ⟨before, b, k, i, hbefore, hcalls, hi, hstate⟩
  exact ⟨f, hf, hwrites, hguard, hconv, hpaths,
    (reentrancy_found_iff hf hwrites hguard hconv).mpr (.inl hpaths)⟩

/-- Returns, and behind that sends one wei in line two and sets `x` in line three. -/
def deadSendingBody : Stmt :=
  let name (t : Text) (line : Nat) : Token := ⟨.ident, t, line⟩
  let mark (t : Text) (line : Nat) : Token := ⟨.punct, t, line⟩
  let one (line : Nat) : Token := ⟨.number, "1", line⟩
  .block 1
    [.returnValue 1 [],
      .expr 2 [name "to" 2, mark "." 2, name "send" 2, mark "(" 2, one 2, mark ")" 2],
      .expr 3 [name "x" 3, mark "=" 3, one 3]]

/-- The function with that body, lowered. Block zero returns, and block one is never reached. -/
def deadSendingLowered : Except LowerError LoweredFunction :=
  lowerMember sendingUnit sendingContract { sendingFunction with body? := some deadSendingBody }
    ["x"]
    deadSendingBody

/-- **Dead code is reported**: the function returns at once, so that no path makes a call and then
writes state, and yet there is a finding. -/
theorem reentrancy_found_in_dead_code :
    ∃ f, deadSendingLowered = .ok f ∧ f.function.isReadOnly = false ∧
      isGuarded f.function = false ∧
      (FlowFacts.solve f (.ofSymbols (.ofUnits [sendingUnit])) 0).converged = true ∧
      (reentrancyIn? (FlowFacts.solve f (.ofSymbols (.ofUnits [sendingUnit])) 0)).isSome = true ∧
      ¬ WritesBehindCall f.graph := by
  obtain ⟨f, hf, hwrites, hguard, hconv, hfirst, hempty⟩ : ∃ f, deadSendingLowered = .ok f ∧
      f.function.isReadOnly = false ∧ isGuarded f.function = false ∧
      let facts := FlowFacts.solve f (.ofSymbols (.ofUnits [sendingUnit])) 0
      facts.converged = true ∧ (firstWrite? facts).isSome = true ∧
        ∀ b ∈ f.graph.blocks, b.id ∈ f.graph.order → b.stmts = [] := by decide +kernel
  refine ⟨f, hf, hwrites, hguard, hconv, ?_, ?_⟩
  · have hfunction :
        (FlowFacts.solve f (.ofSymbols (.ofUnits [sendingUnit])) 0).function = f := rfl
    simp [reentrancyIn?, hfunction, hwrites, hguard, hfirst]
  · -- the blocks that paths lead to have no statements at all
    rintro ⟨past, b, k, i, hpast, -, hi, -⟩
    obtain ⟨hb, hreach⟩ := hpast.reachable
    have hmem := (lowerMember_graph hf).1.mem_order hreach
    simp [hempty b hb hmem] at hi

end ContractAudit.Rule
