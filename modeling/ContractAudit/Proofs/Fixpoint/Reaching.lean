import ContractAudit.Proofs.Fixpoint.Paths

/-!
Reaching definitions are exact: a definition reaches a block exactly when some path passes it and
does not redefine the variable afterwards.

* `mem_defineAt`: a statement kills the definitions of what it defines, and puts its own in their
  place.
* `reaching_stepwise`: blocks are crossed statement by statement, and statements distribute over
  unions.
* `LastDefinedAt`: on a path, the last definition of a variable. It is the only one of that variable
  that the path leaves (`mem_foldr_define`).
* `mem_reaching_iff`: the definitions at the entry of a block, for all paths to it.
-/

namespace ContractAudit.Fixpoint

open Domain ContractAudit.Flow

variable {σ : Type} [Statement σ] {d : Definition} {defs : FinSet Definition}
  {past : List (Graph.Place σ)}

/-- The problem of reaching definitions with a limit of its own. -/
abbrev reachingUpTo (σ : Type) [Statement σ] (limit : Int) : Problem σ (FinSet Definition) :=
  { reaching σ with limit }

/-- The definitions of parameters, whose place is not known. -/
def parameterDefinitions (params : List Var) : FinSet Definition :=
  .ofList (params.map fun p => ⟨p, unknownSite, unknownSite⟩)

lemma mem_parameterDefinitions {params : List Var} :
    d ∈ parameterDefinitions params ↔
      d.var ∈ params ∧ d.block = unknownSite ∧ d.index = unknownSite := by
  rw [parameterDefinitions, FinSet.ofList, FinSet.mem_insertAll, List.mem_map]
  constructor
  · rintro (h | ⟨p, hp, rfl⟩)
    · exact absurd h (FinSet.not_mem_empty d)
    · exact ⟨hp, rfl, rfl⟩
  · obtain ⟨p, block, index⟩ := d
    rintro ⟨hp, rfl, rfl⟩
    exact .inr ⟨p, hp, rfl⟩

/-! ### Statements -/

/-- Behind a statement there are its own definitions, and those from before of other variables. -/
lemma mem_defineAt {block : BlockId} {index : Int} {s : σ} :
    d ∈ defineAt block index s defs ↔
      (d ∈ defs ∧ d.var ∉ Statement.defs s) ∨
        (d.var ∈ Statement.defs s ∧ d.block = block ∧ d.index = index) := by
  rw [defineAt, FinSet.mem_insertAll, List.mem_map]
  refine or_congr ?_ ⟨?_, ?_⟩
  · refine List.mem_filter.trans (and_congr_right fun _ => ?_)
    simp
  · rintro ⟨v, hv, rfl⟩
    exact ⟨hv, rfl, rfl⟩
  · obtain ⟨v, block, index⟩ := d
    rintro ⟨hv, rfl, rfl⟩
    exact ⟨v, hv, rfl⟩

/-- The effect of a statement at its place. -/
def defineStep (place : Graph.Place σ) (defs : FinSet Definition) : FinSet Definition :=
  defineAt place.1.id place.2.1 place.2.2 defs

lemma mem_defineStep {place : Graph.Place σ} :
    d ∈ defineStep place defs ↔
      (d ∈ defs ∧ d.var ∉ Statement.defs place.2.2) ∨
        (d.var ∈ Statement.defs place.2.2 ∧ d.block = place.1.id ∧ d.index = place.2.1) :=
  mem_defineAt

/-- Definitions are followed through a block statement by statement. -/
lemma defineFrom_eq_foldl (b : Block σ) (start : Nat) (stmts : List σ) (defs : FinSet Definition) :
    defineFrom b.id start stmts defs =
      (stmts.mapIdx fun k s => (b, start + k, s)).foldl (fun defs place => defineStep place defs)
        defs := by
  induction stmts generalizing start defs with
  | nil => rfl
  | cons s rest ih =>
    rw [defineFrom, ih, List.mapIdx_cons, List.foldl_cons]
    congr 2
    funext k s
    rw [Nat.add_assoc, Nat.add_comm 1 k]

/-- Reaching definitions distribute over unions. -/
lemma reaching_stepwise (g : Graph σ) (limit : Int) :
    (reachingUpTo σ limit).Stepwise g defineStep where
  forward := rfl
  across b _ defs := by
    have hfold := defineFrom_eq_foldl b 0 b.stmts defs
    simp only [Nat.zero_add] at hfold
    rw [Graph.placesBack, List.foldr_reverse]
    exact hfold
  mono place x y h := by
    have hxy := FinSet.subset_iff.mp h
    refine FinSet.subset_iff.mpr fun d hd => ?_
    rw [mem_defineStep] at hd ⊢
    exact hd.imp_left fun hd => ⟨hxy d hd.1, hd.2⟩
  join place x y := by
    have hjoin : ∀ (s t : FinSet Definition) d, d ∈ (reaching σ).lattice.join s t ↔ d ∈ s ∨ d ∈ t :=
      fun _ _ _ => mem_powerset_join
    refine FinSet.subset_iff.mpr fun d hd => ?_
    rw [mem_defineStep, hjoin] at hd
    rw [hjoin, mem_defineStep, mem_defineStep]
    grind

/-! ### Paths -/

/-- Of the statements `past`, the last one first, the last that defines `v` is number `index` of
block `block`. -/
def LastDefinedAt (v : Var) (block : BlockId) (index : Nat) (past : List (Graph.Place σ)) : Prop :=
  ∃ later c s earlier, past = later ++ (c, index, s) :: earlier ∧ c.id = block ∧
    v ∈ Statement.defs s ∧ ∀ place ∈ later, v ∉ Statement.defs place.2.2

/-- None of the statements `past` defines `v`. -/
def Undefined (v : Var) (past : List (Graph.Place σ)) : Prop :=
  ∀ place ∈ past, v ∉ Statement.defs place.2.2

lemma lastDefinedAt_cons {v : Var} {block : BlockId} {index : Nat} {place : Graph.Place σ} :
    LastDefinedAt v block index (place :: past) ↔
      (v ∈ Statement.defs place.2.2 ∧ place.1.id = block ∧ place.2.1 = index) ∨
        (v ∉ Statement.defs place.2.2 ∧ LastDefinedAt v block index past) := by
  constructor
  · rintro ⟨later, c, s, earlier, heq, hblock, hv, hlater⟩
    cases later with
    | nil =>
      cases heq
      exact .inl ⟨hv, hblock, rfl⟩
    | cons first later =>
      cases heq
      exact .inr ⟨hlater _ (by simp), later, c, s, earlier, rfl, hblock, hv,
        fun q hq => hlater q (by simp [hq])⟩
  · rintro (⟨hv, hblock, rfl⟩ | ⟨hnot, later, c, s, earlier, rfl, hblock, hv, hlater⟩)
    · exact ⟨[], place.1, place.2.2, past, rfl, hblock, hv, nofun⟩
    · refine ⟨place :: later, c, s, earlier, rfl, hblock, hv, fun q hq => ?_⟩
      rcases List.mem_cons.mp hq with rfl | hq
      · exact hnot
      · exact hlater q hq

/-- **What a path leaves**: of every variable its last definition, or what was there before the path
if nothing on it defines the variable. -/
lemma mem_foldr_define :
    d ∈ past.foldr defineStep defs ↔
      (∃ index : Nat, d.index = index ∧ LastDefinedAt d.var d.block index past) ∨
        (d ∈ defs ∧ Undefined d.var past) := by
  induction past with
  | nil => simp [LastDefinedAt, Undefined]
  | cons place past ih =>
    rw [List.foldr_cons, mem_defineStep, ih]
    simp only [lastDefinedAt_cons, Undefined, List.forall_mem_cons]
    by_cases hv : d.var ∈ Statement.defs place.2.2
    · simp [hv, eq_comm, and_comm]
    · simp [hv]

/-! ### All paths -/

/-- Nothing leads back to an entry without predecessors. -/
lemma not_mem_succs_of_preds {g : Graph σ} (hg : g.UpToDate) (hhas : g.has g.entry = true)
    (hentry : ∀ b ∈ g.blocks, b.id = g.entry → b.preds = []) {b : Block σ} (hb : b ∈ g.blocks) :
    g.entry ∉ b.succs := by
  intro hedge
  obtain ⟨e, he⟩ := Graph.has_iff.mp hhas
  obtain ⟨he, hid⟩ := Graph.block?_eq_some_iff.mp he
  have hpred : b.id ∈ e.preds := (hg.mem_preds he).mpr ⟨b, Graph.block?_of_mem hb, hid ▸ hedge⟩
  rw [hentry e he hid] at hpred
  exact absurd hpred List.not_mem_nil

/-- The set at the entry of a reachable block holds what some path to the block leaves. -/
lemma exists_reaching {g : Graph σ} (hg : g.UpToDate) {limit : Int} {params : List Var}
    (hentry : ∀ b ∈ g.blocks, b.id = g.entry → b.preds = [])
    (hconv : ((reachingUpTo σ limit).solve g (parameterDefinitions params)).converged = true)
    {b : Block σ} (hb : b ∈ g.blocks) (hreach : g.Reachable b.id) :
    ∃ fact, ((reachingUpTo σ limit).solve g (parameterDefinitions params)).entry.get? b.id =
        some fact ∧
      ∀ d, d ∈ fact ↔ ∃ past, g.Path past b 0 ∧
        ((∃ index : Nat, d.index = index ∧ LastDefinedAt d.var d.block index past) ∨
          (d ∈ parameterDefinitions params ∧ Undefined d.var past)) := by
  have hl : (reachingUpTo σ limit).lattice.Lawful := powerset_lawful Definition
  obtain ⟨fact, hfact⟩ := Problem.exists_solve_entry hg (p := reachingUpTo σ limit) rfl
    (parameterDefinitions params) hl.equal_refl hreach
  have hjoin := Problem.solve_isJoin hg hl (reaching_stepwise g limit)
    (fun b hb => not_mem_succs_of_preds hg hreach.1 hentry hb) hconv hb hreach (Nat.zero_le _)
  rw [Problem.factBefore, Graph.placesBefore_zero, Problem.factAt, hfact] at hjoin
  refine ⟨fact, hfact, fun d => hjoin.mem_iff.trans ⟨?_, ?_⟩⟩
  · rintro ⟨_, ⟨past, hpast, rfl⟩, hd⟩
    exact ⟨past, hpast, mem_foldr_define.mp hd⟩
  · rintro ⟨past, hpast, hd⟩
    exact ⟨_, ⟨past, hpast, rfl⟩, mem_foldr_define.mpr hd⟩

/-- **Reaching definitions are exact**: where nothing leads back to the entry, the set at the entry
of a reachable block holds the definition of `v` by statement number `i` of a block exactly when
that statement defines `v` and some path to the block passes it and no later definition of `v`; the
definition of a parameter exactly when some path to the block defines it nowhere; and nothing
else. -/
theorem mem_reaching_iff (g : Graph σ) (limit : Int) (params : List Var)
    (hentry : ∀ b ∈ g.withMetadata.blocks, b.id = g.withMetadata.entry → b.preds = [])
    (hconv : ({ reaching σ with limit }.solve g.withMetadata
      (parameterDefinitions params)).converged = true)
    {b : Block σ} (hb : b ∈ g.withMetadata.blocks) (hreach : g.withMetadata.Reachable b.id) :
    ∃ fact, ({ reaching σ with limit }.solve g.withMetadata
        (parameterDefinitions params)).entry.get? b.id = some fact ∧
      (∀ v block (i : Nat), ⟨v, block, i⟩ ∈ fact ↔
        ∃ c s, g.withMetadata.block? block = some c ∧ c.stmts[i]? = some s ∧ v ∈ Statement.defs s ∧
          ∃ later earlier, g.withMetadata.Path (later ++ (c, i, s) :: earlier) b 0 ∧
            ∀ place ∈ later, v ∉ Statement.defs place.2.2) ∧
      (∀ v, ⟨v, unknownSite, unknownSite⟩ ∈ fact ↔
        v ∈ params ∧ ∃ past, g.withMetadata.Path past b 0 ∧
          ∀ place ∈ past, v ∉ Statement.defs place.2.2) ∧
      ∀ d ∈ fact, (∃ i : Nat, d.index = (i : Int)) ∨ (d.block = unknownSite ∧
        d.index = unknownSite) := by
  obtain ⟨fact, hfact, hmem⟩ := exists_reaching g.withMetadata_upToDate hentry hconv hb hreach
  refine ⟨fact, hfact, fun v block i => ?_, fun v => ?_, fun d hd => ?_⟩
  · rw [hmem]
    constructor
    · rintro ⟨past, hpath, ⟨index, hindex, later, c, s, earlier, rfl, rfl, hv, hlater⟩ | ⟨hparam,
        -⟩⟩
      · obtain rfl : i = index := Int.ofNat.inj hindex
        obtain ⟨hbefore, hs⟩ := hpath.suffix (List.suffix_append ..)
        exact ⟨c, s, Graph.block?_of_mem hbefore.reachable.1, hs, hv, later, earlier, hpath, hlater⟩
      · have hunknown := (mem_parameterDefinitions.mp hparam).2.2
        exact absurd hunknown (by simp [unknownSite])
    · rintro ⟨c, s, hc, -, hv, later, earlier, hpath, hlater⟩
      exact ⟨_, hpath, .inl ⟨i, rfl, later, c, s, earlier, rfl,
        (Graph.block?_eq_some_iff.mp hc).2, hv, hlater⟩⟩
  · rw [hmem]
    constructor
    · rintro ⟨past, hpath, ⟨index, hindex, -⟩ | ⟨hparam, hundefined⟩⟩
      · exact absurd hindex (by simp [unknownSite])
      · exact ⟨(mem_parameterDefinitions.mp hparam).1, past, hpath, hundefined⟩
    · rintro ⟨hv, past, hpath, hundefined⟩
      exact ⟨past, hpath, .inr ⟨mem_parameterDefinitions.mpr ⟨hv, rfl, rfl⟩, hundefined⟩⟩
  · obtain ⟨past, -, ⟨index, hindex, -⟩ | ⟨hparam, -⟩⟩ := (hmem d).mp hd
    · exact .inl ⟨index, hindex⟩
    · exact .inr (mem_parameterDefinitions.mp hparam).2

/-- Behind the loop, the definition in the loop is there and the parameter is too. -/
theorem mem_reaching_iff_loop :
    (∀ b ∈ sampleLoop.withMetadata.blocks, b.id = sampleLoop.withMetadata.entry → b.preds = []) ∧
      (reachingDefinitions sampleLoop.withMetadata [[99]]).converged = true ∧
      sampleLoop.withMetadata.Reachable 2 ∧
      ∃ b fact, sampleLoop.withMetadata.block? 2 = some b ∧
        (reachingDefinitions sampleLoop.withMetadata [[99]]).entry.get? 2 = some fact ∧
        ((⟨[120], 1, 0⟩ : Definition) ∈ fact ↔
          ∃ c s, sampleLoop.withMetadata.block? 1 = some c ∧ c.stmts[0]? = some s ∧
            [120] ∈ Statement.defs s ∧ ∃ later earlier,
              sampleLoop.withMetadata.Path (later ++ (c, 0, s) :: earlier) b 0 ∧
                ∀ place ∈ later, [120] ∉ Statement.defs place.2.2) := by
  have hentry : ∀ b ∈ sampleLoop.withMetadata.blocks, b.id = sampleLoop.withMetadata.entry →
      b.preds = [] := by decide +kernel
  have hconv : (reachingDefinitions sampleLoop.withMetadata [[99]]).converged = true := by
    decide +kernel
  have hreach : sampleLoop.withMetadata.Reachable 2 :=
    ⟨by decide +kernel, .tail (.single (b := 1) (by decide +kernel)) (by decide +kernel)⟩
  have hfound : (sampleLoop.withMetadata.block? 2).isSome = true := by decide +kernel
  obtain ⟨b, hb⟩ := Option.isSome_iff_exists.mp hfound
  obtain ⟨hmem, hid⟩ := Graph.block?_eq_some_iff.mp hb
  obtain ⟨fact, hfact, hdefs, -⟩ :=
    mem_reaching_iff sampleLoop 0 [[99]] hentry hconv hmem (hid ▸ hreach)
  exact ⟨hentry, hconv, hreach, b, fact, hb, hid ▸ hfact, hdefs [120] 1 0⟩

end ContractAudit.Fixpoint
