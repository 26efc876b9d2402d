import ContractAudit.Proofs.Fixpoint.Liveness
import ContractAudit.Proofs.Flow.Placement
import ContractAudit.Rule.UnusedAssignment

/-!
Named return values where control leaves a function.

A return without a value and the end of a body both hand out the named return values. Lowering lets
only the end read them: a return without a value reads nothing.

* `Exit`, `returnsOf`: the ways out of a body, reverts apart. `exists_exitsAt` finds the block of
  each.
* `Carried`: a path on which a variable keeps its value up to the end of a block.
* `namedReturns_read_iff`: the named return values are read at every exit that hands them out
  exactly if there are none or the body has no return without a value. A value that such a variable
  still has at the end of the body is live.
-/

namespace ContractAudit.Flow

open Source (Expr Stmt Contract Function SourceUnit)
open Fixpoint (ReadAhead)

/-! ### Exits -/

/-- How control leaves a body, reverts apart: by a return, or behind its end. -/
inductive Exit where
  | statement (line : Nat) (value : Expr)
  | ending
deriving DecidableEq, Repr

namespace Exit

/-- Whether an exit hands out the named return values. -/
def isPlain : Exit → Bool
  | .statement _ value => value.isEmpty
  | .ending => true

/-- The variables that lowering lets an exit read. -/
def reads (named : List Var) : Exit → List Var
  | .statement _ value => value.readNames
  | .ending => named

end Exit

/-- The exit that a part of a body is. -/
def Part.exit? (p : Part) : Option Exit := if p.role = .result then some (.statement p.line p.value)
    else none

/-- The returns of a body, in order. -/
def returnsOf (body : Stmt) : List Exit := (allPartsOf body).filterMap Part.exit?

/-- A return without a value reads nothing. -/
lemma reads_of_mem_returnsOf {body : Stmt} {x : Exit} (h : x ∈ returnsOf body)
    (hplain : x.isPlain = true) (named : List Var) : x.reads named = [] := by
  obtain ⟨p, -, hexit⟩ := List.mem_filterMap.mp h
  unfold Part.exit? at hexit
  split at hexit
  · cases hexit
    obtain hempty : p.value = [] := List.isEmpty_iff.mp hplain
    rw [Exit.reads, hempty]
    rfl
  · contradiction

/-- The blocks in which control leaves a function, with the exits that they end in. -/
structure LoweredFunction.ExitsAt (f : LoweredFunction) (exits : List (Nat × Exit)) : Prop where
  nodup : (exits.map Prod.fst).Nodup
  ends : ∀ e ∈ exits, ∃ b, f.graph.block? e.1 = some b ∧
    b.term = .done (e.2.reads f.function.namedReturns)
  all : ∀ b ∈ f.graph.blocks, ∀ values, b.term = .done values → ∃ e ∈ exits, b.id = e.1

/-- The exit of a return, in the block that took it. -/
def Landing.exit? (l : Landing) : Option (Nat × Exit) := l.part.exit?.map fun x => (l.block, x)

lemma Landing.exit?_eq_some_iff {l : Landing} {e : Nat × Exit} :
    l.exit? = some e ↔ l.part.role = .result ∧
      (l.block, .statement l.part.line l.part.value) = e := by
  unfold Landing.exit? Part.exit?
  split <;> simp [*]

/-- Every way out of a body has one block. -/
lemma exists_exitsAt {u : SourceUnit} {c : Contract} {fn : Function} {state : List Text}
    {body : Stmt} {f : LoweredFunction} (h : lowerMember u c fn state body = .ok f) :
    ∃ exits, f.ExitsAt exits ∧
      (exits.map Prod.snd = returnsOf body ∨ exits.map Prod.snd = returnsOf body ++ [.ending]) := by
  obtain ⟨ls, ending, hparts, hplaced, hleaves⟩ := lowerMember_placed h
  have hreturns : (ls.filterMap Landing.exit?).map Prod.snd = returnsOf body := by
    rw [returnsOf, ← hparts, List.filterMap_map, List.map_filterMap]
    refine List.filterMap_congr fun l _ => ?_
    cases hexit : l.part.exit? <;> simp [Landing.exit?, hexit]
  refine ⟨ls.filterMap Landing.exit? ++ ending.toList.map (·, .ending),
    ⟨?_, fun e he => ?_, fun b hb values hdone => ?_⟩, ?_⟩
  · rw [List.Nodup, List.pairwise_map, List.pairwise_append, List.pairwise_filterMap]
    refine ⟨hplaced.apart.imp fun hapart e he e' he' => ?_, by
      cases ending <;> simp, fun e he e' he' => ?_⟩
    · obtain ⟨hrole, rfl⟩ := Landing.exit?_eq_some_iff.mp he
      obtain ⟨-, rfl⟩ := Landing.exit?_eq_some_iff.mp he'
      exact (hapart hrole).symm
    · obtain ⟨l, hl, hexit⟩ := List.mem_filterMap.mp he
      obtain ⟨hrole, rfl⟩ := Landing.exit?_eq_some_iff.mp hexit
      obtain ⟨n, hn, rfl⟩ := List.mem_map.mp he'
      exact hleaves.apart n (Option.mem_toList.mp hn) l hl hrole
  · rcases List.mem_append.mp he with he | he
    · obtain ⟨l, hl, hexit⟩ := List.mem_filterMap.mp he
      obtain ⟨hrole, rfl⟩ := Landing.exit?_eq_some_iff.mp hexit
      exact hplaced.ended l hl hrole
    · obtain ⟨n, hn, rfl⟩ := List.mem_map.mp he
      exact hleaves.ended n (Option.mem_toList.mp hn)
  · rcases hleaves.all b hb values hdone with ⟨l, hl, hrole, hid⟩ | ⟨n, hn, hid⟩
    · have hexit := Landing.exit?_eq_some_iff.mpr ⟨hrole, rfl⟩
      exact ⟨_, List.mem_append_left _ (List.mem_filterMap.mpr ⟨l, hl, hexit⟩), hid⟩
    · exact ⟨_, List.mem_append_right _ (List.mem_map_of_mem (Option.mem_toList.mpr hn)), hid⟩
  · rw [List.map_append, hreturns]
    cases ending with
    | none => exact .inl (List.append_nil _)
    | some n => exact .inr rfl

/-! ### Values that last -/

/-- Some path that starts in front of the statements `rest`, the last ones of block `b`, comes to
the end of block `last`, and no statement on it redefines `v`. -/
inductive Carried (g : Graph Instr) (v : Var) (last : Block Instr) : List Instr → Block Instr → Prop
  | here : Carried g v last [] last
  | skip {i : Instr} {rest : List Instr} {b : Block Instr} (h : v ∉ i.defs)
      (ahead : Carried g v last rest b) :
      Carried g v last (i :: rest) b
  | next {b c : Block Instr} {id : BlockId} (hid : id ∈ b.succs) (hc : g.block? id = some c)
      (ahead : Carried g v last c.stmts c) : Carried g v last [] b

/-- What a path carries to the end of a block and is read there is read ahead. -/
lemma Carried.readAhead {g : Graph Instr} {v : Var} {last b : Block Instr} {rest : List Instr}
    (h : Carried g v last rest b) (hread : v ∈ last.term.uses) : ReadAhead g v rest b := by
  induction h with
  | here => exact .term hread
  | skip hdef _ ih => exact .skip hdef ih
  | next hid hc _ ih => exact .next hid hc ih

end ContractAudit.Flow

namespace ContractAudit.Analysis

open Source ContractAudit.Flow Domain Fixpoint

lemma ne_nil_of_mem_namedReturns {fn : Function} {r : Text} (h : r ∈ fn.namedReturns) : r ≠ [] := by
  simpa using (List.mem_filter.mp h).2

/-- A value that is still there where control leaves a function and is read there is live behind the
instruction that assigned it. -/
lemma mem_live_of_carried {f : LoweredFunction} (hg : f.graph.UpToDate) {types : TypeIndex}
    {limit : Int}
    (hconv : (FlowFacts.solve f types limit).live.converged = true) {v : Var} (hv : v ≠ [])
      {last b : Block Instr}
    (hread : v ∈ last.term.uses) (hreach : f.graph.Reachable b.id) {k : Nat} {i : Instr}
      {live : FinSet Var}
    (hlive : (b, k, i, live) ∈ (liveness Instr).walk f.graph (FlowFacts.solve f types limit).live)
    (h : Carried f.graph v last (b.stmts.drop (k + 1)) b) : v ∈ live :=
  mem_of_readAhead hg hv hconv ((Problem.mem_walk _).mp hlive).1 hreach hlive (h.readAhead hread)

/-- The named return values are read at every exit that hands them out exactly if there are none or
no return of the body is without a value. A value of theirs that lasts up to the end of the body is
live. -/
theorem namedReturns_read_iff {u : SourceUnit} {c : Contract} {fn : Function} {state : List Text}
    {body : Stmt} {f : LoweredFunction} (h : lowerMember u c fn state body = .ok f) :
    ∃ exits, f.ExitsAt exits ∧
      (exits.map Prod.snd = returnsOf body ∨ exits.map Prod.snd = returnsOf body ++ [.ending]) ∧
      ((∀ e ∈ exits, e.2.isPlain = true → ∀ b, f.graph.block? e.1 = some b → fn.namedReturns ⊆
        b.term.uses) ↔ fn.namedReturns = [] ∨ ∀ x ∈ returnsOf body, x.isPlain = false) ∧
      ∀ n last, (n, .ending) ∈ exits → f.graph.block? n = some last →
        ∀ (types : TypeIndex) (limit : Int), (FlowFacts.solve f types limit).live.converged = true →
          ∀ b k i live, f.graph.Reachable b.id →
            (b, k, i, live) ∈ (liveness Instr).walk f.graph (FlowFacts.solve f types limit).live →
            ∀ r ∈ fn.namedReturns, Carried f.graph r last (b.stmts.drop (k + 1)) b → r ∈ live := by
  obtain ⟨-, -, hfunction, -⟩ := origin_lowerMember h
  obtain ⟨exits, hexits, hlist⟩ := exists_exitsAt h
  have huses : ∀ e ∈ exits, ∀ b, f.graph.block? e.1 = some b →
    b.term.uses = e.2.reads fn.namedReturns := by
    intro e he b hb
    obtain ⟨b', hb', hterm⟩ := hexits.ends e he
    obtain rfl := Option.some.inj (hb.symm.trans hb')
    rw [hterm, hfunction]
    rfl
  have hsubset : returnsOf body ⊆ exits.map Prod.snd := by
    rcases hlist with hlist | hlist <;> simp [hlist]
  have hmem : ∀ x ∈ exits.map Prod.snd, x ∈ returnsOf body ∨ x = .ending := by
    rcases hlist with hlist | hlist <;> simp +contextual [hlist]
  refine ⟨exits, hexits, hlist, ⟨fun hread => ?_, fun hplain e he hhands b hb => ?_⟩, ?_⟩
  · refine or_iff_not_imp_right.mpr fun hbare => ?_
    obtain ⟨x, hx, hhands⟩ : ∃ x ∈ returnsOf body, x.isPlain = true := by simpa using hbare
    obtain ⟨e, he, rfl⟩ := List.mem_map.mp (hsubset hx)
    obtain ⟨b, hb, -⟩ := hexits.ends e he
    have hreads := hread e he hhands b hb
    rw [huses e he b hb, reads_of_mem_returnsOf hx hhands] at hreads
    exact List.subset_nil.mp hreads
  · rw [huses e he b hb]
    rcases hplain with hnone | hbare
    · exact hnone ▸ List.nil_subset _
    · rcases hmem e.2 (List.mem_map_of_mem he) with hx | hending
      · rw [hbare e.2 hx] at hhands
        contradiction
      · rw [hending]
        exact List.Subset.refl _
  · intro n last hn hlast types limit hconv b k i live hreach hlive r hr hcarried
    refine mem_live_of_carried (lowerMember_graph h).1 hconv (ne_nil_of_mem_namedReturns hr) ?_
      hreach hlive hcarried
    rwa [huses (n, .ending) hn last hlast]

/-! ### Two bodies -/

/-- A function with the parameter `i`, the named return value `r` and the given body. -/
def namedFunction (body : Stmt) : Function :=
  { name := "f", kind := .function, visibility := "public", mutability := [], modifiers := []
    params := [⟨"i", "uint256"⟩], returns := [⟨"r", "uint256"⟩], line := 1, endLine :=
      1, body? := some body }

/-- Lowers a body in a function with the parameter `i` and the named return value `r`. -/
def lowerNamed (body : Stmt) : Except LowerError LoweredFunction :=
  lowerMember ⟨"a.sol", [], [], 0, [], []⟩ ⟨"A", "contract", false, [], 1, [], [], []⟩
    (namedFunction body) [] body

/-- The facts of a function outside any program. -/
def factsAlone (f : LoweredFunction) : FlowFacts := .solve f (.ofSymbols (.ofUnits [])) 0

/-- The assignment `r = i`. -/
def assigningR : Expr := [⟨.ident, "r", 1⟩, ⟨.punct, "=", 1⟩, ⟨.ident, "i", 1⟩]

/-- The body `r = i; if (i) return i;`. -/
def earlyReturn : Stmt :=
  .block 1 [.expr 1 assigningR, .ifElse 1 [⟨.ident, "i", 1⟩] (.returnValue 1 [⟨.ident, "i", 1⟩])
    .empty]

/-- In `r = i; if (i) return i;` no return is without a value. The end of the body reads `r`, which
is live behind the assignment. -/
theorem namedReturns_read_behind_earlyReturn :
    ∃ (f : LoweredFunction) (b last : Block Instr) (i : Instr) (live : FinSet Var),
      lowerNamed earlyReturn = .ok f ∧ b ∈ f.graph.blocks ∧ b.stmts[0]? = some i ∧ i.defs = ["r"] ∧
      last ∈ f.graph.blocks ∧ last.term.uses = ["r"] ∧
      (b, 0, i, live) ∈ (liveness Instr).walk f.graph (factsAlone f).live ∧ ("r" : Var) ∈ live := by
  obtain ⟨f, hf, hconv, b, hb, last, hlast, horder, hsucc, hstmts, hempty, hterm⟩ :
      ∃ f, lowerNamed earlyReturn = .ok f ∧ (factsAlone f).live.converged = true ∧
        ∃ b ∈ f.graph.blocks, ∃ last ∈ f.graph.blocks, b.id ∈ f.graph.order ∧ last.id ∈ b.succs ∧
          b.stmts.map (·.defs) = [[("r" : Var)], [("%cond1" : Var)]] ∧
          last.stmts.isEmpty = true ∧ last.term = .done ["r"] := by decide +kernel
  obtain ⟨exits, hexits, hlist, -, hlive⟩ := namedReturns_read_iff hf
  have hreach := (lowerMember_graph hf).1.reachable_of_mem_order horder
  obtain ⟨i, rest, hcut, hdefs, hrest⟩ := List.map_eq_cons_iff.mp hstmts
  obtain ⟨test, hone, htested⟩ := List.map_eq_singleton_iff.mp hrest
  -- the block that reads `r` is not that of the return
  obtain ⟨⟨n, x⟩, he, hid⟩ := hexits.all last hlast _ hterm
  have hfound := Graph.block?_of_mem hlast
  have hending : x = .ending := by
    obtain ⟨c, hc, (hreads : c.term = .done (x.reads f.function.namedReturns))⟩ :=
      hexits.ends (n, x) he
    obtain rfl := Option.some.inj (hc.symm.trans (hid ▸ hfound))
    rw [hterm, (origin_lowerMember hf).2.2.1] at hreads
    have hone : returnsOf earlyReturn = [.statement 1 [⟨.ident, "i", 1⟩]] := by decide +kernel
    have hx : x ∈ exits.map Prod.snd := List.mem_map_of_mem he
    have hcases : x = .statement 1 [⟨.ident, "i", 1⟩] ∨ x = .ending := by
      rcases hlist with hlist | hlist <;> rw [hlist, hone] at hx <;> simp_all
    refine hcases.resolve_left fun hstatement => ?_
    rw [hstatement] at hreads
    exact absurd hreads (by decide +kernel)
  have hcarried : Carried f.graph "r" last (b.stmts.drop 1) b := by
    rw [hcut, hone]
    refine .skip (by rw [htested]; decide) (.next hsucc hfound ?_)
    rw [List.isEmpty_iff.mp hempty]
    exact .here
  have hfirst : b.stmts[0]? = some i := by rw [hcut]; rfl
  have hwalk := (Problem.mem_walk (liveness Instr) (r := (factsAlone f).live)).mpr ⟨hb, hfirst, rfl⟩
  exact ⟨f, b, last, i, _, hf, hb, hfirst, hdefs, hlast, by rw [hterm]; rfl, hwalk,
    hlive n last (hending ▸ he) (hid ▸ hfound) _ _ hconv b 0 i _ hreach hwalk "r"
      (by decide) hcarried⟩

/-- The body `r = i; return;`. -/
def bareReturn : Stmt := .block 1 [.expr 1 assigningR, .returnValue 1 []]

/-- In `r = i; return;` the return hands out `r` but reads nothing, and the assignment is reported
as one in vain. -/
theorem not_read_at_bareReturn :
    (namedFunction bareReturn).namedReturns = ["r"] ∧ returnsOf bareReturn = [.statement 1 []] ∧
      ∃ f b, lowerNamed bareReturn = .ok f ∧ f.graph.blocks = [b] ∧ b.term = .done [] ∧
        ∃ e ∈ (factsAlone f).liveAfter, ("r" : Var) ∈ Rule.assignedInVain e.2.1 e.2.2 := by
  obtain ⟨f, hf, hterms, hvain⟩ : ∃ f, lowerNamed bareReturn = .ok f ∧
      f.graph.blocks.map (·.term) = [.done []] ∧
      ∃ e ∈ (factsAlone f).liveAfter, ("r" : Var) ∈ Rule.assignedInVain e.2.1 e.2.2 := by
    decide +kernel
  obtain ⟨b, hblocks, hterm⟩ := List.map_eq_singleton_iff.mp hterms
  exact ⟨by decide +kernel, by decide +kernel, f, b, hf, hblocks, hterm, hvain⟩

end ContractAudit.Analysis
