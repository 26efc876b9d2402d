import Mathlib.Algebra.Order.BigOperators.Group.Finset
import ContractAudit.Source.Parser
import ContractAudit.Proofs.Analysis.Steadiness

/-!
Whether constant propagation comes to an end.

The values of variables rise by two steps at most, from nothing over a value to unknown. A solve
could only go on for ever by taking some of that back, since a name about which nothing is known yet
reads as a constant of the contract or as unknown, and later as a value.

* `constantHeights`: facts have ranks.
* `constants_converge_iff`: solves with enough visits converge exactly if the facts of the blocks
  that lead to a loop fall no more from some visit on, and this is so for steady functions.
* `steady_of_isSteady`: a test for steadiness.
* `constants_rotate`: a function with two loops, one inside the other, on which no solve converges.
-/

namespace ContractAudit.Analysis

open Source ContractAudit.Flow Domain Fixpoint

/-! ### How far facts can rise -/

/-- The names that are assigned anywhere. -/
def assignedNames (g : Graph Instr) (initial : KnownValues) : List Var :=
  initial.keys ++ g.blocks.flatMap fun b => b.stmts.flatMap (·.defs)

/-- How much is known to be unknown about a name. -/
def weight : Option (Flat Nat) → Nat
  | some .top => 2
  | some (.value _) => 1
  | _ => 0

/-- The weights of names together. -/
def totalWeight (names : List Var) (fact : KnownValues) :
    Nat := ∑ v ∈ names.toFinset, weight (fact.get? v)

/-- A fact says something about the given names only, and never that one has no value. -/
structure FullOn (names : List Var) (fact : KnownValues) : Prop where
  full : Full fact
  mem : ∀ v value, fact.get? v = some value → v ∈ names

lemma weight_le (value? : Option (Flat Nat)) : weight value? ≤ 2 := by
  unfold weight
  split <;> omega

/-- What is above something and differs from it weighs more, unless it is nothing. -/
lemma weight_lt {x y : Option (Flat Nat)} (hle : ∀ a, x = some a → ∃ c, y = some c ∧
    (flat Nat).leq a c = true) (hne : x ≠ y) (hfull : y ≠ some .bottom) : weight x < weight y := by
  cases x with
  | none => rcases y with _ | _ | _ | _ <;> simp_all [weight]
  | some a =>
    obtain ⟨c, rfl, hac⟩ := hle a rfl
    cases a <;> cases c <;> simp_all [weight, flat, Flat.leq]

lemma totalWeight_le (names : List Var) (fact : KnownValues) :
    totalWeight names fact ≤ names.toFinset.card * 2 := by
  calc totalWeight names fact ≤ ∑ _v ∈ names.toFinset, 2 := Finset.sum_le_sum fun v _ =>
    weight_le (fact.get? v)
    _ = names.toFinset.card * 2 := Finset.sum_const_nat fun _ _ => rfl

variable {names : List Var}

/-- A fact that says more weighs more. -/
lemma totalWeight_lt {x y : KnownValues} (hy : FullOn names y)
    (hle : leqTables (flat Nat) x y = true) (hne : ¬ equalTables (flat Nat) y x = true) :
    totalWeight names x < totalWeight names y := by
  have hlt : ∀ v, x.get? v ≠ y.get? v → weight (x.get? v) < weight (y.get? v) := fun v hv =>
    weight_lt (leqTables_iff.mp hle v) hv fun hbottom => hy.full v _ hbottom rfl
  obtain ⟨v, hv⟩ : ∃ v, x.get? v ≠ y.get? v := by
    by_contra hsame
    push Not at hsame
    refine hne (equalTables_iff.mpr fun v => ?_)
    cases hget : y.get? v with
    | none => exact .inl ⟨rfl, (hsame v).trans hget⟩
    | some value =>
      exact .inr ⟨value, value, rfl, (hsame v).trans hget, (flat_lawful Nat).equal_refl value⟩
  refine Finset.sum_lt_sum (fun w _ => ?_) ⟨v, List.mem_toFinset.mpr ?_, hlt v hv⟩
  · by_cases hw : x.get? w = y.get? w
    · rw [hw]
    · exact (hlt w hw).le
  · cases hget : y.get? v with
    | some value => exact hy.mem v value hget
    | none =>
      cases hx : x.get? v with
      | none => exact absurd (hx.trans hget.symm) hv
      | some a =>
        obtain ⟨c, hc, -⟩ := leqTables_iff.mp hle v a hx
        rw [hget] at hc
        contradiction

lemma FullOn.join {x y : KnownValues} (hx : FullOn names x) (hy : FullOn names y) :
    FullOn names (joinTables (flat Nat) x y) where
  full := forall_get?_joinTables (fun _ _ _ => join_ne_bottom) hx.full hy.full
  mem := forall_get?_joinTables (fun _ _ _ h _ => h) hx.mem hy.mem

lemma FullOn.transfer {env : Env} {i : Instr} (hi : ∀ v ∈ i.defs, v ∈ names) {fact : KnownValues}
    (h : FullOn names fact) : FullOn names (transferConst env i fact) := by
  refine ⟨fun v value hget => ?_, fun v value hget => ?_⟩
  all_goals rw [get?_transferConst] at hget; split_ifs at hget with hdef
  · obtain rfl := Option.some.inj hget
    exact foldedFact_ne_bottom i _
  · exact h.full v value hget
  · exact hi v hdef
  · exact h.mem v value hget

/-- The facts of constant propagation have ranks. -/
def constantHeights (g : Graph Instr) (env : Env) {initial : KnownValues} (hfull : Full initial) :
    (constants env 0).Heights g initial where
  inside := FullOn (assignedNames g initial)
  rank := totalWeight (assignedNames g initial)
  height := (assignedNames g initial).toFinset.card * 2
  inside_bottom := ⟨nofun, nofun⟩
  inside_initial :=
    ⟨hfull, fun _ value hget => List.mem_append_left _ (Table.mem_keys_iff.mpr ⟨value, hget⟩)⟩
  inside_join := fun _ _ => FullOn.join
  inside_across := fun b hb _ hx => List.foldlRecOn b.stmts _ (motive := FullOn _) hx
    fun _ hfact i hi =>
    hfact.transfer fun _ hv => List.mem_append_right _
      (List.mem_flatMap.mpr ⟨b, hb, List.mem_flatMap.mpr ⟨i, hi, hv⟩⟩)
  rank_le := fun x _ => totalWeight_le _ x
  rank_lt := fun _ _ => totalWeight_lt

lemma initialConst_full (f : LoweredFunction) : Full (initialConst f) := by
  intro v value hget
  rcases List.mem_append.mp (Table.mem_of_get?_ofList hget) with hmem | hmem
  all_goals
    obtain ⟨_, -, heq⟩ := List.mem_map.mp hmem
    obtain ⟨-, rfl⟩ := Prod.mk.inj heq
    exact nofun

/-! ### Which solves converge -/

/-- Every solve of a function for constants that is allowed enough visits converges. -/
def ConstantsConverge (f : LoweredFunction) (types : TypeIndex) : Prop :=
  ∃ visits : Nat, ∀ limit : Int, (visits : Int) ≤ limit →
    (FlowFacts.solve f types limit).constants.converged = true

/-- From some visit on, none replaces what is known behind a block that leads to a loop by something
that is not above it. -/
def FallsEnd (f : LoweredFunction) (types : TypeIndex) : Prop :=
  ∃ start, ∀ n, start ≤ n → ∀ b ∈ f.graph.blocks, f.graph.LeadsToLoop b.id →
    ¬ (constants (types.env f.contract.name) 0).FallsAt f.graph (initialConst f) n b.id

/-- **Constant propagation comes to an end exactly if the facts of the blocks that lead to a loop
stop falling.** In steady functions they never fall. -/
theorem constants_converge_iff {u : SourceUnit} {c : Contract} {fn : Function} {state : List Text}
    {body : Stmt}
    {f : LoweredFunction} (hlower : lowerMember u c fn state body = .ok f) (types : TypeIndex) :
    (ConstantsConverge f types ↔ FallsEnd f types) ∧
      ∀ unknown, Steady f.graph (types.env f.contract.name) (initialConst f) unknown →
        ConstantsConverge f types := by
  obtain ⟨hg, hentry, hroot⟩ := lowerMember_graph hlower
  have hiff : ConstantsConverge f types ↔ FallsEnd f types :=
    (constantHeights f.graph (types.env f.contract.name)
      (initialConst_full f)).converges_iff_not_fallsAt hg
      (constants_lawful _ 0) rfl hentry
  refine ⟨hiff, fun unknown hsteady => hiff.mpr ⟨0, fun n _ b hb hloop => ?_⟩⟩
  exact not_fallsAt_of_steady hg hentry hroot hsteady (initialConst_full f) n hb hloop

/-! ### A test for steadiness -/

/-- Tests whether an instruction reads names only which never get a value, and cannot be folded
without. -/
def isBlind (unknown : List Var) (i : Instr) : Bool :=
  (foldedNames i).all (unknown.contains ·) && (foldedValue? i fun _ => none).isNone

/-- The names assigned on a way to the start of a block that never leads back, from those assigned
so at the ends of blocks. -/
def namesBefore (g : Graph Instr) (initial : KnownValues) (atEnds : Table BlockId (List Var))
    (b : Block Instr) :
    List Var :=
  if b.id = g.entry then initial.keys
  else b.preds.flatMap fun a =>
    if g.order.idxOf a < g.order.idxOf b.id then (atEnds.get? a).getD [] else []

/-- The names assigned on such a way to the ends of blocks. -/
def namesAtEnds (g : Graph Instr) (initial : KnownValues) : Table BlockId (List Var) :=
  g.order.foldl (fun atEnds id =>
    match g.block? id with
    | some b => atEnds.set id (namesBefore g initial atEnds b ++ b.stmts.flatMap (·.defs))
    | none => atEnds) .empty

/-- Tests whether a function is steady. -/
def isSteady (g : Graph Instr) (env : Env) (initial : KnownValues) (unknown : List Var) : Bool :=
  (unknown.all fun v => (env v).isNone && (initial.get? v).all fun value => value.value?.isNone) &&
    g.blocks.all fun b => b.stmts.zipIdx.all fun (i, k) =>
      isBlind unknown i ||
        i.defs.all (!unknown.contains ·) && (foldedNames i).all fun v =>
          unknown.contains v ||
            (namesBefore g initial (namesAtEnds g initial) b ++
              (b.stmts.take k).flatMap (·.defs)).contains v

lemma blind_of_isBlind {unknown : List Var} {i : Instr} (h : isBlind unknown i = true) :
    Blind unknown i := by
  rw [isBlind, Bool.and_eq_true, List.all_eq_true, Option.isNone_iff_eq_none] at h
  obtain ⟨hnames, hnone⟩ := h
  intro known hknown
  cases hvalue : foldedValue? i known with
  | none => rfl
  | some n =>
    refine absurd (hnone.symm.trans (foldedValue?_mono (fun v hv m hm => ?_) hvalue)) nofun
    rw [hknown v (List.contains_iff_mem.mp (hnames v hv))] at hm
    contradiction

section Test

variable {g : Graph Instr} {initial : KnownValues} (hg : g.UpToDate)
  {along : BlockId → BlockId → Prop} {b : Block Instr} {v : Var}

/-- What is assigned somewhere in a block is assigned at later places of it. -/
lemma Assigned.mono {j k : Nat} (h : Assigned g initial along b j v) (hjk : j ≤ k)
    (hk : k ≤ b.stmts.length) : Assigned g initial along b k v := by
  induction k, hjk using Nat.le_induction with
  | base => exact h
  | succ k _ ih =>
    exact .kept (ih (Nat.le_of_succ_le hk)) (List.getElem?_eq_getElem (Nat.lt_of_succ_le hk))

/-- Names that statements of a block define are assigned behind them. -/
lemma assigned_of_mem_take (hb : b ∈ g.blocks) {k : Nat} (hk : k ≤ b.stmts.length)
    (hv : v ∈ (b.stmts.take k).flatMap (·.defs)) : Assigned g initial along b k v := by
  obtain ⟨i, hi, hdef⟩ := List.mem_flatMap.mp hv
  obtain ⟨j, hj⟩ := List.mem_iff_getElem?.mp hi
  rw [List.getElem?_take] at hj
  split_ifs at hj with hlt
  exact Assigned.mono (.here hb hj hdef) hlt hk

variable (g initial) in
/-- Names are collected for the ends of blocks which are assigned on a way there that never leads
back. -/
def AtEnds (atEnds : Table BlockId (List Var)) : Prop :=
  ∀ a ∈ g.blocks, ∀ names, atEnds.get? a.id = some names →
    ∀ v ∈ names, AssignedOnward g initial a a.stmts.length v

include hg

lemma assignedOnward_of_mem_namesBefore {atEnds : Table BlockId (List Var)}
    (h : AtEnds g initial atEnds) (hb : b ∈ g.blocks) (hv : v ∈ namesBefore g initial atEnds b) :
    AssignedOnward g initial b 0 v := by
  rw [namesBefore] at hv
  split_ifs at hv with hid
  · exact .initially hb hid (Option.isSome_iff_exists.mpr (Table.mem_keys_iff.mp hv))
  · obtain ⟨id, hpred, hv⟩ := List.mem_flatMap.mp hv
    obtain ⟨a, hblock, hsucc⟩ := (hg.mem_preds hb).mp hpred
    obtain ⟨ha, rfl⟩ := Graph.block?_eq_some_iff.mp hblock
    split_ifs at hv with hlt
    · cases hnames : atEnds.get? a.id with
      | none => simp [hnames] at hv
      | some names =>
        rw [hnames, Option.getD_some] at hv
        have hord : a.id ∈ g.order := List.idxOf_lt_length_iff.mp
          (hlt.trans_le List.idxOf_le_length)
        exact .next (h a ha names hnames v hv) hb hord hsucc hlt
    · contradiction

/-- What is collected along the order of the blocks is assigned. -/
lemma atEnds_namesAtEnds : AtEnds g initial (namesAtEnds g initial) := by
  refine List.foldlRecOn g.order _ (motive := AtEnds g initial) nofun fun atEnds h id _ => ?_
  cases hblock : g.block? id with
  | none => exact h
  | some b =>
    obtain ⟨hb, rfl⟩ := Graph.block?_eq_some_iff.mp hblock
    intro a ha names hget v hv
    by_cases hid : a.id = b.id
    · obtain rfl := Graph.eq_of_id_eq ha hb hid
      obtain rfl := Option.some.inj ((Table.get?_set_self ..).symm.trans hget)
      rcases List.mem_append.mp hv with hv | hv
      · exact (assignedOnward_of_mem_namesBefore hg h ha hv).mono (Nat.zero_le _) le_rfl
      · exact assigned_of_mem_take ha le_rfl (by rwa [List.take_length])
    · exact h a ha names ((Table.get?_set_ne _ _ hid).symm.trans hget) v hv

/-- The test is enough. -/
lemma steady_of_isSteady {env : Env} {unknown : List Var}
    (h : isSteady g env initial unknown = true) :
    Steady g env initial unknown := by
  rw [isSteady, Bool.and_eq_true, List.all_eq_true, List.all_eq_true] at h
  obtain ⟨hstart, hblocks⟩ := h
  have hstmts : ∀ b ∈ g.blocks, ∀ k i, b.stmts[k]? = some i → isBlind unknown i = true ∨
      (∀ v ∈ i.defs, v ∉ unknown) ∧ ∀ v ∈ foldedNames i, v ∈ unknown ∨
        v ∈ namesBefore g initial (namesAtEnds g initial) b ∨
          v ∈ (b.stmts.take k).flatMap (·.defs) := by
    intro b hb k i hi
    have htest := List.all_eq_true.mp (hblocks b hb) (i, k) (List.mem_zipIdx_iff_getElem?.mpr hi)
    simpa only [Bool.or_eq_true, Bool.and_eq_true, List.all_eq_true, Bool.not_eq_true',
      List.contains_iff_mem, ← Bool.not_eq_true, List.mem_append] using htest
  constructor
  case start =>
    intro v hv
    obtain ⟨henv, hinitial⟩ := Bool.and_eq_true_iff.mp (hstart v hv)
    refine ⟨Option.isNone_iff_eq_none.mp henv, fun n hget => ?_⟩
    rw [hget] at hinitial
    contradiction
  case blind =>
    intro b hb i hi v hdef hv
    obtain ⟨k, hk⟩ := List.mem_iff_getElem?.mp hi
    obtain hblind | ⟨hdefs, -⟩ := hstmts b hb k i hk
    · exact blind_of_isBlind hblind
    · exact absurd hv (hdefs v hdef)
  case onward =>
    intro b hb _ _ k i hi
    obtain hblind | ⟨-, hnames⟩ := hstmts b hb k i hi
    · exact .inl (blind_of_isBlind hblind)
    refine .inr fun v hv hknown _ => ?_
    have hk : k ≤ b.stmts.length := (List.getElem?_eq_some_iff.mp hi).1.le
    obtain hunknown | hbefore | hhere := hnames v hv
    · exact absurd hunknown hknown
    · exact (assignedOnward_of_mem_namesBefore hg (atEnds_namesAtEnds hg) hb hbefore).mono
        (Nat.zero_le k) hk
    · exact assigned_of_mem_take hb hk hhere

end Test

/-! ### Two loops -/

/-- Counts in a loop, once from zero and once from what nobody knows. -/
def countingSource : Text :=
  "contract A \x7b uint256 x; function f(bool c) public \x7b uint256 i = 0; " ++
    "while (c) \x7b i = i + 1; x = x + 1; \x7d \x7d \x7d"

/-- In a loop that counts the facts rise until they come to rest. -/
theorem constants_converge_counting :
    ∃ u f, parse "a.sol" countingSource = .ok u ∧ f ∈ (lower [u]).1.functions ∧
      ConstantsConverge f (.ofSymbols (.ofUnits [u])) ∧ FallsEnd f (.ofSymbols (.ofUnits [u])) := by
  obtain ⟨u, hparse, f, hf, hsteady⟩ : ∃ u, parse "a.sol" countingSource = .ok u ∧
      ∃ f ∈ (lower [u]).1.functions,
        isSteady f.graph ((TypeIndex.ofSymbols (.ofUnits [u])).env f.contract.name) (initialConst f)
          ["c", "x", "%cond1"] = true := by decide +kernel
  obtain ⟨_, _, _, _, _, hlower⟩ := exists_lowerMember hf
  obtain ⟨hiff, hconverge⟩ := constants_converge_iff hlower (.ofSymbols (.ofUnits [u]))
  have hdone := hconverge _ (steady_of_isSteady (lowerMember_graph hlower).1 hsteady)
  exact ⟨u, f, hparse, hf, hdone, hiff.mp hdone⟩

/-- Swaps `x` and `y` in an inner loop. Its first round reads `z`, which only the outer loop gives a
value. -/
def swappingSource : Text :=
  "contract A \x7b uint256 x; uint256 y; uint256 z; function f(bool c, bool d) public \x7b " ++
    "while (c) \x7b x = z; y = 1; z = 1; " ++
    "while (d) \x7b uint256 t = x; x = y; y = t; " ++
    "if (c) \x7b continue; \x7d break; \x7d \x7d \x7d \x7d"

/-- Tests whether a run for constants comes back to a state in which blocks wait. -/
def comesBack (f : LoweredFunction) (types : TypeIndex) (start period : Nat) : Bool :=
  let stateAt := (constants (types.env f.contract.name) 0).stateAt f.graph (initialConst f)
  (stateAt (start + period)).entry == (stateAt start).entry &&
    (stateAt (start + period)).exit == (stateAt start).exit &&
    (stateAt (start + period)).queue == (stateAt start).queue && !(stateAt start).queue.isEmpty

/-- Where two values are swapped for ever, no solve converges: the run goes round in the same twenty
states. -/
theorem constants_rotate :
    ∃ u f, parse "a.sol" swappingSource = .ok u ∧ f ∈ (lower [u]).1.functions ∧
      ∀ limit, (FlowFacts.solve f (.ofSymbols (.ofUnits [u])) limit).constants.converged =
        false := by
  obtain ⟨u, hparse, f, hf, hback⟩ : ∃ u, parse "a.sol" swappingSource = .ok u ∧
      ∃ f ∈ (lower [u]).1.functions, comesBack f (.ofSymbols (.ofUnits [u])) 14 20 = true := by
    decide +kernel
  refine ⟨u, f, hparse, hf, fun limit => ?_⟩
  simp only [comesBack, Bool.and_eq_true, beq_iff_eq, Bool.not_eq_true', List.isEmpty_eq_false_iff]
    at hback
  obtain ⟨⟨⟨hin, hout⟩, hqueue⟩, hwaits⟩ := hback
  have hsame := congr (congr (congrArg State.mk hin) hout) hqueue
  exact Problem.not_converged_of_waits (Problem.waits_of_repeats (by decide : 0 < 20) hsame hwaits)
    limit

end ContractAudit.Analysis
