import ContractAudit.Flow.Program
import ContractAudit.Proofs.Flow.Drafting

/-!
Nothing leads back to the entry of a lowered function.

Block zero is there from the start, and terminators lead only to blocks that are opened later
(`Draft.Leading`). Every step of lowering keeps this, and so no block of the finished graph has the
entry among its successors (`lowerMember_graph`). The lowered functions and the failures of a
program are those of its members with bodies (`mem_lower_functions_iff`, `mem_lower_failures_iff`).
-/

namespace ContractAudit.Flow

open Source (Stmt Contract Function SourceUnit)

namespace Draft

/-- Every terminator leads to inner blocks alone. -/
def Leading (s : Draft × List Nat) : Prop :=
  ∀ (n : Nat) (b : DraftBlock), s.1.blocks[n]? = some b →
    ∀ target ∈ b.term.targets, ∃ m : Nat, s.1.Inner m ∧ target = m

lemma Step.leading {s t : Draft × List Nat} (h : Step s t) (hs : Leading s) : Leading t := by
  have hinner : ∀ target : BlockId, (∃ m : Nat, s.1.Inner m ∧ target = m) →
      ∃ m : Nat, t.1.Inner m ∧ target = m := fun _ ⟨m, hm, heq⟩ => ⟨m, h.inner hm, heq⟩
  have hold : ∀ (n : Nat) (b : DraftBlock), s.1.blocks[n]? = some b →
      ∀ target ∈ b.term.targets, ∃ m : Nat, t.1.Inner m ∧ target = m :=
    fun n b hb target ht => hinner target (hs n b hb target ht)
  have happend : ∀ (m : Nat) (i : Instr) (n : Nat) (b : DraftBlock),
      (s.1.append m i).blocks[n]? = some b →
      ∀ target ∈ b.term.targets, ∃ m : Nat, t.1.Inner m ∧ target = m := by
    intro m i n b hb
    obtain ⟨a, ha, ⟨-, rfl⟩ | ⟨-, rfl⟩⟩ := getElem?_modify hb
    · exact hold n a ha
    · exact hold n b ha
  cases h with
  | opens d ns =>
    intro n b hb
    rcases getElem?_openBlock hb with hb | ⟨-, rfl⟩
    · exact hold n b hb
    · nofun
  | appends ns hn hop => exact happend _ _
  | tests ns hn hop hdefs => exact happend _ _
  | closes ns hn hends htargets htests =>
    intro n b hb
    obtain ⟨a, ha, ⟨-, rfl⟩ | ⟨-, rfl⟩⟩ := getElem?_modify hb
    · exact fun target ht => hinner target (htargets target ht)
    · exact hold n b ha
  | reverts m ns hd reason =>
    intro n b hb
    obtain ⟨a, ha, ⟨-, rfl⟩ | ⟨-, rfl⟩⟩ := getElem?_modify hb
    · nofun
    · exact hold n b ha
  | _ => exact hold

lemma Steps.leading {s t : Draft × List Nat} (h : Steps s t) (hs : Leading s) : Leading t :=
  h.keeps (fun _ _ hst => hst.leading) hs

lemma rooted_start (scope : Scope) : Rooted (start scope, []) where
  pos := Nat.one_pos
  current n hn := by
    cases hn
    exact Nat.one_pos
  loops := nofun
  waiting := nofun

lemma leading_start (scope : Scope) : Leading (start scope, []) := by
  intro n b hb
  obtain rfl := List.mem_singleton.mp (List.mem_of_getElem? hb)
  nofun

end Draft

/-! ### Lowered functions -/

lemma mem_distinct {α : Type} [DecidableEq α] {xs : List α} {x : α} : x ∈ distinct xs ↔ x ∈ xs := by
  have hfold : ∀ acc : List α, x ∈ xs.foldl (fun acc x => if x ∈ acc then acc else acc ++ [x]) acc ↔
      x ∈ acc ∨ x ∈ xs := by
    induction xs with
    | nil => simp
    | cons y ys ih =>
      intro acc
      rw [List.foldl_cons, ih, List.mem_cons]
      split
      · next hy =>
        exact ⟨fun h => h.imp_right .inr, fun h => by rcases h with h | rfl | h <;> simp_all⟩
      · rw [List.mem_append, List.mem_singleton, or_assoc]
  simpa [distinct] using hfold []

variable {body : Stmt} {f : LoweredFunction} {units : List SourceUnit}

/-- Lowering the body of a function is a sequence of steps that ends with no block left to fill. -/
lemma steps_finished {scope : Scope} {d : Draft} (h : lowerStmt body (Draft.start scope) = .ok d)
    (named : List Var) : Draft.Steps (Draft.start scope, []) (d.terminate (.done named), []) :=
  (lowerStmt_steps body _ d [] (Draft.rooted_start scope) h).trans
    (Draft.steps_terminate d [] nofun nofun nofun)

section Finished

variable {d : Draft} {name : Text}

/-- A block of a finished draft does what was drafted, and leads on as its terminator says. -/
lemma exists_drafted {c : Block Instr} (hc : c ∈ (d.graph name).withMetadata.blocks) :
    ∃ (n : Nat) (b : DraftBlock), d.blocks[n]? = some b ∧ c.id = n ∧ c.stmts = b.stmts ∧
      c.term = b.term ∧ c.succs = distinct b.term.targets := by
  obtain ⟨a, ha, _, rfl⟩ := Graph.exists_of_mem_withMetadata hc
  obtain ⟨n, hn, rfl⟩ := List.mem_mapIdx.mp ha
  exact ⟨n, d.blocks[n], List.getElem?_eq_getElem hn, rfl, rfl, rfl, rfl⟩

/-- Inner blocks alone are successors in a finished draft. -/
lemma exists_inner_of_mem_succs (h : Draft.Leading (d, [])) {c : Block Instr}
    (hc : c ∈ (d.graph name).withMetadata.blocks) {target : BlockId} (ht : target ∈ c.succs) :
    ∃ m : Nat, d.Inner m ∧ target = m := by
  obtain ⟨n, b, hb, -, -, -, hsuccs⟩ := exists_drafted hc
  rw [hsuccs, mem_distinct] at ht
  exact h n b hb target ht

lemma has_graph {n : Nat} (hn : n < d.blocks.length) (name : Text) :
    (d.graph name).withMetadata.has n = true := by
  obtain ⟨c, hc, -⟩ := Graph.block?_withMetadata (block?_graph (List.getElem?_eq_getElem hn) name)
  exact Graph.has_of_block? hc

end Finished

/-- The graph of a lowered function has its derived data, and an entry to which nothing leads
back. -/
theorem lowerMember_graph {u : SourceUnit} {c : Contract} {fn : Function} {state : List Text}
    (h : lowerMember u c fn state body = .ok f) :
    f.graph.UpToDate ∧ f.graph.has f.graph.entry = true ∧
      ∀ b ∈ f.graph.blocks, f.graph.entry ∉ b.succs := by
  obtain ⟨g, hg, h⟩ := bind_eq_ok_iff.mp h
  cases h
  obtain ⟨d, hd, rfl⟩ := lowerBody_eq_ok hg
  have hsteps := steps_finished hd fn.namedReturns
  rw [Graph.entry_withMetadata]
  refine ⟨Graph.withMetadata_upToDate _, has_graph (hsteps.rooted (Draft.rooted_start _)).pos _,
    fun b hb hmem => ?_⟩
  obtain ⟨m, hm, heq⟩ := exists_inner_of_mem_succs (hsteps.leading (Draft.leading_start _)) hb hmem
  exact Nat.ne_of_gt hm.1 (Int.natCast_eq_zero.mp heq.symm)

/-- The functions of a program are the members of contracts with bodies that could be lowered, with
the state of the contract visible in them. -/
lemma mem_lower_functions_iff :
    f ∈ (lower units).1.functions ↔
      ∃ u ∈ units, ∃ c ∈ u.contracts, ∃ fn ∈ c.functions, ∃ body, fn.body? = some body ∧
        lowerMember u c fn (visibleState c (units.flatMap (·.contracts))) body = .ok f := by
  simp only [lower, List.mem_filterMap, List.mem_flatMap, Option.map_eq_some_iff]
  constructor
  · rintro ⟨_, ⟨u, hu, c, hc, fn, hfn, body, hbody, rfl⟩, hleft⟩
    split at hleft
    · next hlower =>
      exact ⟨u, hu, c, hc, fn, hfn, body, hbody, Option.some.inj hleft ▸ hlower⟩
    · contradiction
  · rintro ⟨u, hu, c, hc, fn, hfn, body, hbody, hlower⟩
    exact ⟨_, ⟨u, hu, c, hc, fn, hfn, body, hbody, rfl⟩, by rw [hlower]; rfl⟩

/-- The failures of lowering are those of the members with bodies that could not be lowered. -/
lemma mem_lower_failures_iff {failure : LowerFailure} :
    failure ∈ (lower units).2 ↔
      ∃ u ∈ units, ∃ c ∈ u.contracts, ∃ fn ∈ c.functions, ∃ body, fn.body? = some body ∧
        lowerMember u c fn (visibleState c (units.flatMap (·.contracts))) body =
          .error failure.error ∧
        failure.function = qualified c.name fn.name := by
  simp only [lower, List.mem_filterMap, List.mem_flatMap, Option.map_eq_some_iff]
  constructor
  · rintro ⟨_, ⟨u, hu, c, hc, fn, hfn, body, hbody, rfl⟩, hright⟩
    split at hright
    · contradiction
    · next hlower =>
      obtain rfl := Option.some.inj hright
      exact ⟨u, hu, c, hc, fn, hfn, body, hbody, hlower, rfl⟩
  · rintro ⟨u, hu, c, hc, fn, hfn, body, hbody, hlower, hname⟩
    exact ⟨_, ⟨u, hu, c, hc, fn, hfn, body, hbody, rfl⟩, by rw [hlower, ← hname]; rfl⟩

/-- The functions of a program are members of contracts with bodies that could be lowered. -/
lemma exists_lowerMember_body (h : f ∈ (lower units).1.functions) :
    ∃ u c fn state body, fn.body? = some body ∧ lowerMember u c fn state body = .ok f := by
  obtain ⟨u, -, c, -, fn, -, body, hbody, hlower⟩ := mem_lower_functions_iff.mp h
  exact ⟨u, c, fn, _, body, hbody, hlower⟩

/-- The functions of a program are members of contracts that could be lowered. -/
lemma exists_lowerMember (h : f ∈ (lower units).1.functions) :
    ∃ u c fn state body, lowerMember u c fn state body = .ok f := by
  obtain ⟨u, c, fn, state, body, -, hlower⟩ := exists_lowerMember_body h
  exact ⟨u, c, fn, state, body, hlower⟩

/-- A lowered function knows what it was made of. -/
lemma origin_lowerMember {u : SourceUnit} {c : Contract} {fn : Function} {state : List Text}
    (h : lowerMember u c fn state body = .ok f) :
    f.unit = u ∧ f.contract = c ∧ f.function = fn ∧ f.stateVars = state := by
  obtain ⟨g, -, h⟩ := bind_eq_ok_iff.mp h
  cases h
  exact ⟨rfl, rfl, rfl, rfl⟩

end ContractAudit.Flow
