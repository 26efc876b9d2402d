import ContractAudit.Proofs.Fixpoint.Liveness
import ContractAudit.Proofs.Fixpoint.Reaching
import ContractAudit.Proofs.Fixpoint.Termination

/-!
Live variables and reaching definitions are found within a known number of visits.

Both have sets as facts, whose rank is the number of their elements (`setHeights`). What can be in a
set is known from the graph: the variables that occur in it (`occurringVars`), or the definitions in
it (`definitionSites`) and those of the parameters. So there are at most as many visits as blocks,
and as many for every edge as there are variables or definitions (`setProblems_solvedWithin`).
-/

namespace ContractAudit.Fixpoint

open Domain ContractAudit.Flow

variable {σ : Type}
variable {g : Graph σ}

namespace Problem

variable {L : Type}

/-- The run without a limit takes at most `bound` visits, and every solve that is allowed as many is
that run, and so has converged. -/
def SolvedWithin (p : Problem σ L) (g : Graph σ) (initial : L) (bound : Nat) : Prop :=
  ∃ visits t, visits ≤ bound ∧ p.Finishes g initial (p.start g initial) visits t ∧
    ∀ limit : Int, (bound : Int) ≤ limit →
      { p with limit }.solve g initial = ⟨t.entry, t.exit, visits, true⟩

lemma solvedWithin_of_heights [Statement σ] {p : Problem σ L} {initial : L} (hg : g.UpToDate)
    (hl : p.lattice.Lawful) (hmono : p.Monotone g) (h : p.Heights g initial)
    {bound : Nat} (hbound : g.blocks.length + h.height * g.edges.card ≤ bound) :
    p.SolvedWithin g initial bound := by
  obtain ⟨visits, t, hvisits, hfinishes⟩ := exists_finishes hg hl hmono h
  refine ⟨visits, t, hvisits.trans hbound, hfinishes, fun limit hlimit => ?_⟩
  exact solve_of_finishes hfinishes (by omega)

/-- Sets whose elements come from finitely many. -/
def setHeights {α : Type} [DecidableEq α] {p : Problem σ (FinSet α)} (hp : p.lattice = powerset α)
    {g : Graph σ} {initial : FinSet α} (all : Finset α) (hinitial : ∀ x ∈ initial, x ∈ all)
    (hacross : ∀ b ∈ g.blocks, ∀ s, (∀ x ∈ s, x ∈ all) → ∀ x ∈ p.acrossBlock b s, x ∈ all) :
    p.Heights g initial where
  inside s := ∀ x ∈ s, x ∈ all
  rank s := s.elems.toFinset.card
  height := all.card
  inside_bottom x hx := by
    rw [hp] at hx
    exact absurd hx (FinSet.not_mem_empty x)
  inside_initial := hinitial
  inside_join s t hs ht x hx := by
    rw [hp] at hx
    exact (mem_powerset_join.mp hx).elim (hs x) (ht x)
  inside_across := hacross
  rank_le s hs := Finset.card_le_card fun x hx => hs x (List.mem_toFinset.mp hx)
  rank_lt s t _ hle hne := by
    rw [hp] at hle hne
    have hsub := FinSet.subset_iff.mp hle
    refine Finset.card_lt_card (Finset.ssubset_iff_subset_ne.mpr ⟨fun x hx => ?_,
      fun heq => hne ?_⟩)
    · exact List.mem_toFinset.mpr (hsub x (List.mem_toFinset.mp hx))
    · refine powerset_equal_iff.mpr fun x => ⟨fun hx => ?_, hsub x⟩
      exact List.mem_toFinset.mp (heq ▸ List.mem_toFinset.mpr hx)

/-- Blocks that are crossed statement by statement keep the order of facts. -/
lemma Stepwise.monotone {p : Problem σ L} {step : Graph.Place σ → L → L} (hp : p.Stepwise g step) :
    p.Monotone g := by
  intro b hb x y hle
  rw [hp.across b hb, hp.across b hb]
  induction Graph.placesBack b with
  | nil => exact hle
  | cons place rest ih => exact hp.mono _ _ _ ih

end Problem

variable [Statement σ]

/-! ### Live variables -/

/-- The variables that occur in a graph. The empty name is none. -/
def occurringVars (g : Graph σ) : Finset Var :=
  (g.blocks.flatMap fun b =>
    (b.stmts.flatMap fun s => Statement.defs s ++ Statement.uses s) ++ b.term.uses).toFinset.erase
      []

section Exposed

open ContractAudit.Flow.Block (Reads)

lemma mem_of_mem_exposed_read {xs : List Var} {r : Reads} {v : Var}
    (h : v ∈ (xs.foldl Reads.read r).exposed) : v ∈ r.exposed ∨ (v ∈ xs ∧ v ≠ []) := by
  induction xs generalizing r with
  | nil => exact .inl h
  | cons x rest ih =>
    rcases ih h with hread | ⟨hv, hne⟩
    · rw [Reads.read] at hread
      split at hread
      · exact .inl hread
      · next hcounts =>
        rcases List.mem_append.mp hread with hold | hnew
        · exact .inl hold
        · obtain rfl := List.mem_singleton.mp hnew
          refine .inr ⟨List.mem_cons_self .., ?_⟩
          rintro rfl
          exact hcounts rfl
    · exact .inr ⟨List.mem_cons_of_mem _ hv, hne⟩

lemma mem_of_mem_exposed_step {stmts : List σ} {r : Reads} {v : Var}
    (h : v ∈ (stmts.foldl Reads.step r).exposed) :
    v ∈ r.exposed ∨ ((∃ s ∈ stmts, v ∈ Statement.uses s) ∧ v ≠ []) := by
  induction stmts generalizing r with
  | nil => exact .inl h
  | cons s rest ih =>
    rcases ih h with hstep | ⟨⟨t, ht, hv⟩, hne⟩
    · rw [Reads.step, foldl_define_exposed] at hstep
      refine (mem_of_mem_exposed_read hstep).imp_right ?_
      rintro ⟨hv, hne⟩
      exact ⟨⟨s, List.mem_cons_self .., hv⟩, hne⟩
    · exact .inr ⟨⟨t, List.mem_cons_of_mem _ ht, hv⟩, hne⟩

/-- What a block reads first occurs in the graph. -/
lemma mem_occurringVars_of_mem_exposed (hg : g.UpToDate) {b : Block σ} (hb : b ∈ g.blocks) {v : Var}
    (hv : v ∈ b.exposed) : v ∈ occurringVars g := by
  rw [← hg.reads b hb] at hv
  simp only [occurringVars, Finset.mem_erase, List.mem_toFinset, List.mem_flatMap, List.mem_append]
  rcases mem_of_mem_exposed_read hv with hv | ⟨huse, hne⟩
  · obtain ⟨⟨s, hs, huse⟩, hne⟩ := (mem_of_mem_exposed_step hv).resolve_left List.not_mem_nil
    exact ⟨hne, b, hb, .inl ⟨s, hs, .inr huse⟩⟩
  · exact ⟨hne, b, hb, .inr huse⟩

end Exposed

/-- Only variables of the graph become live. -/
lemma liveness_solvedWithin (hg : g.UpToDate) :
    (liveness σ).SolvedWithin g .empty (g.blocks.length + (occurringVars g).card *
      g.edges.card) := by
  refine Problem.solvedWithin_of_heights hg (powerset_lawful Var) (liveness_monotone σ g)
    (Problem.setHeights rfl (occurringVars g) (fun v hv => absurd hv (FinSet.not_mem_empty v)) ?_)
    (Nat.le_refl _)
  intro b hb live hlive v hv
  rcases FinSet.mem_insertAll.mp hv with hv | hv
  · exact hlive v (FinSet.mem_eraseAll.mp hv).1
  · exact mem_occurringVars_of_mem_exposed hg hb hv

/-! ### Reaching definitions -/

/-- The definitions in a graph, one for each time that a statement names a variable as defined. -/
def definitionSites (g : Graph σ) : List Definition :=
  g.blocks.flatMap fun b => (Graph.placesBack b).flatMap fun place =>
    (Statement.defs place.2.2).map fun v => ⟨v, place.1.id, place.2.1⟩

/-- What a block leaves behind was there before or is a definition in the graph. -/
lemma mem_definitionSites_of_mem {b : Block σ} (hb : b ∈ g.blocks) {defs : FinSet Definition}
    {d : Definition} (hd : d ∈ (reaching σ).acrossBlock b defs) :
    d ∈ defs ∨ d ∈ definitionSites g := by
  have hacross := (reaching_stepwise g 0).across b hb defs
  rw [show (reaching σ).acrossBlock b defs = _ from hacross, mem_foldr_define] at hd
  rcases hd with ⟨k, hindex, later, c, s, earlier, hpast, hblock, hv, -⟩ | ⟨hd, -⟩
  · refine .inr (List.mem_flatMap.mpr ⟨b, hb, List.mem_flatMap.mpr ⟨(c, k, s), ?_, ?_⟩⟩)
    · rw [hpast]
      exact List.mem_append_right _ (List.mem_cons_self ..)
    · obtain ⟨v, block, index⟩ := d
      obtain rfl : c.id = block := hblock
      obtain rfl : index = k := hindex
      exact List.mem_map_of_mem hv
  · exact .inl hd

/-- Only definitions of the graph and of parameters reach anything. -/
lemma reaching_solvedWithin (hg : g.UpToDate) (params : List Var) :
    (reaching σ).SolvedWithin g (parameterDefinitions params)
      (g.blocks.length + ((definitionSites g).length + params.length) * g.edges.card) := by
  set parameters : List Definition := params.map fun p => ⟨p, unknownSite, unknownSite⟩
  set all := (definitionSites g ++ parameters).toFinset
  have hcard : all.card ≤ (definitionSites g).length + params.length := by
    refine (List.toFinset_card_le _).trans (Nat.le_of_eq ?_)
    rw [List.length_append, List.length_map]
  refine Problem.solvedWithin_of_heights hg (powerset_lawful Definition)
    (reaching_stepwise g 0).monotone (Problem.setHeights rfl all (fun d hd => ?_) ?_)
    (Nat.add_le_add_left (Nat.mul_le_mul_right _ hcard) _)
  · have hd : d ∈ parameters := (FinSet.mem_insertAll.mp hd).resolve_left (FinSet.not_mem_empty d)
    exact List.mem_toFinset.mpr (List.mem_append_right _ hd)
  · intro b hb defs hdefs d hd
    rcases mem_definitionSites_of_mem hb hd with hd | hd
    · exact hdefs d hd
    · exact List.mem_toFinset.mpr (List.mem_append_left _ hd)

/-- **Live variables and reaching definitions are found** with at most one visit for every block,
and one more for every edge between blocks and every variable in the graph, or every definition in
the graph and every parameter. Any limit that allows as many visits is enough, and so is none. -/
theorem setProblems_solvedWithin (g : Graph σ) (params : List Var) :
    (liveness σ).SolvedWithin g.withMetadata .empty
        (g.withMetadata.blocks.length +
          (occurringVars g.withMetadata).card * g.withMetadata.edges.card) ∧
      (reaching σ).SolvedWithin g.withMetadata (parameterDefinitions params)
        (g.withMetadata.blocks.length +
          ((definitionSites g.withMetadata).length + params.length) * g.withMetadata.edges.card) :=
  ⟨liveness_solvedWithin g.withMetadata_upToDate, reaching_solvedWithin g.withMetadata_upToDate
    params⟩

/-- The loop has three blocks and three edges. Nine visits are enough for its two live variables,
and twelve for its two definitions and a parameter. -/
theorem setProblems_solvedWithin_loop :
    (occurringVars sampleLoop.withMetadata).card = 2 ∧
      (definitionSites sampleLoop.withMetadata).length = 2 ∧
      sampleLoop.withMetadata.edges.card = 3 ∧
      ({ liveness Instr with limit := 9 }.solve sampleLoop.withMetadata .empty).converged = true ∧
      ({ reaching Instr with limit := 12 }.solve sampleLoop.withMetadata
        (parameterDefinitions [[99]])).converged = true := by
  have hvars : (occurringVars sampleLoop.withMetadata).card = 2 := by decide +kernel
  have hdefs : (definitionSites sampleLoop.withMetadata).length = 2 := by decide +kernel
  have hedges : sampleLoop.withMetadata.edges.card = 3 := by decide +kernel
  have hblocks : sampleLoop.withMetadata.blocks.length = 3 := by decide +kernel
  obtain ⟨⟨_, _, -, -, hlive⟩, _, _, -, -, hreaching⟩ := setProblems_solvedWithin sampleLoop [[99]]
  rw [hvars, hedges, hblocks] at hlive
  rw [hdefs, hedges, hblocks] at hreaching
  exact ⟨hvars, hdefs, hedges, by rw [hlive 9 (by decide)], by rw [hreaching 12 (by decide)]⟩

end ContractAudit.Fixpoint
