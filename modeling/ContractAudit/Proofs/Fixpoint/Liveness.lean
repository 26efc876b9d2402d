import ContractAudit.Proofs.Fixpoint.Equations
import ContractAudit.Proofs.Fixpoint.Replay

/-!
Live variables are exact: a variable is live behind a statement exactly when some path from there
reads it before redefining it.

* `ReadAhead`: the paths. It says where a path is by the statements of a block that are still ahead.
* `liveBefore`: the variables live in front of some statements, from those live behind them.
  `mem_acrossBlock_iff` says that the summary by which the solver crosses a block is the same, and
  `mem_acrossBlock_withReads` says so of the summary that is derived for any block.
* `mem_live_of_readAhead`: the equations force every variable that is read ahead into the facts.
* `Justified`: no visit puts a variable into the facts that is not read ahead.
* `mem_walk_liveness`: both together, at every statement.
-/

namespace ContractAudit.Fixpoint

open Domain ContractAudit.Flow

variable {σ : Type} [Statement σ] {v : Var} {b : Block σ} {rest : List σ} {live : FinSet Var}
  {g : Graph σ} {limit : Int} {s : State (FinSet Var)}

/-- Some path that starts in front of the statements `rest`, the last ones of block `b`, reads `v`
before any statement on it redefines `v`. A path goes through the statements, ends the block by its
terminator, and goes on in any successor. -/
inductive ReadAhead (g : Graph σ) (v : Var) : List σ → Block σ → Prop
  | stmt {s : σ} {rest : List σ} {b : Block σ} (h : v ∈ Statement.uses s) : ReadAhead g v
      (s :: rest) b
  | skip {s : σ} {rest : List σ} {b : Block σ} (h : v ∉ Statement.defs s)
      (ahead : ReadAhead g v rest b) : ReadAhead g v (s :: rest) b
  | term {b : Block σ} (h : v ∈ b.term.uses) : ReadAhead g v [] b
  | next {b c : Block σ} {id : BlockId} (hid : id ∈ b.succs) (hc : g.block? id = some c)
      (ahead : ReadAhead g v c.stmts c) : ReadAhead g v [] b

/-- The problem of live variables with a limit of its own. -/
abbrev livenessUpTo (σ : Type) [Statement σ] (limit : Int) : Problem σ (FinSet Var) :=
  { liveness σ with limit }

/-! ### Effects of statements and of whole blocks -/

/-- The variables live in front of statements, from those live behind them. -/
def liveBefore (rest : List σ) (live : FinSet Var) : FinSet Var := (liveness σ).acrossBack live rest

lemma mem_liveBefore_cons {s : σ} :
    v ∈ liveBefore (s :: rest) live ↔
      (v ∈ liveBefore rest live ∧ v ∉ Statement.defs s) ∨ v ∈ Statement.uses s := by
  exact FinSet.mem_insertAll.trans (or_congr_left FinSet.mem_eraseAll)

/-- The variables live in front of a terminator, from those live behind it. -/
def liveAtTerm (b : Block σ) (live : FinSet Var) : FinSet Var := (liveness σ).acrossTerm b live

lemma mem_liveAtTerm :
    v ∈ liveAtTerm b live ↔ v ∈ live ∨ v ∈ b.term.uses := FinSet.mem_insertAll

/-- What is live in front of some statements is read ahead there, if the same holds at the end of
the block. -/
lemma readAhead_of_mem_liveBefore (h : v ∈ live → ReadAhead g v [] b) (rest : List σ)
    (hv : v ∈ liveBefore rest live) : ReadAhead g v rest b := by
  induction rest with
  | nil => exact h hv
  | cons s rest ih =>
    rcases mem_liveBefore_cons.mp hv with ⟨hlive, hdef⟩ | huse
    · exact .skip hdef (ih hlive)
    · exact .stmt huse

/-! ### The summary of a block -/

section Summary

open ContractAudit.Flow.Block (Reads)

lemma foldl_read_defs (xs : List Var) (r : Reads) : (xs.foldl Reads.read r).defs = r.defs := by
  induction xs generalizing r with
  | nil => rfl
  | cons x rest ih =>
    rw [List.foldl_cons, ih, Reads.read]
    split <;> rfl

lemma mem_foldl_read {xs : List Var} (hxs : v ≠ [] ∨ [] ∉ xs) {r : Reads} :
    v ∈ (xs.foldl Reads.read r).exposed ↔ v ∈ r.exposed ∨ (v ∈ xs ∧ v ∉ r.defs) := by
  induction xs generalizing r with
  | nil => simp
  | cons x rest ih =>
    have hrest : v ≠ [] ∨ [] ∉ rest := hxs.imp_right fun h hmem => h (List.mem_cons_of_mem _ hmem)
    have hread : (r.read x).defs = r.defs := foldl_read_defs [x] r
    have hexposed : v ∈ (r.read x).exposed ↔ v ∈ r.exposed ∨ (v = x ∧ v ∉ r.defs) := by
      rw [Reads.read]
      by_cases hempty : x.isEmpty = true
      · -- the empty name is left out, and it is not `v`
        obtain rfl := List.isEmpty_iff.mp hempty
        have hne : v ≠ [] := hxs.elim id fun h => absurd (List.mem_cons_self ..) h
        simp [hne]
      rw [Bool.not_eq_true] at hempty
      rw [hempty]
      by_cases hdef : x ∈ r.defs
      · simp only [hdef, decide_true, Bool.or_true, Bool.true_or, if_true]
        refine ⟨.inl, fun h => h.elim id ?_⟩
        rintro ⟨rfl, hv⟩
        exact absurd hdef hv
      · by_cases hexp : x ∈ r.exposed
        · simp only [hexp, decide_true, Bool.or_true, if_true]
          refine ⟨.inl, fun h => h.elim id ?_⟩
          rintro ⟨rfl, -⟩
          exact hexp
        · simp only [hdef, hexp, decide_false, Bool.or_self, Bool.false_eq_true, if_false,
            List.mem_append, List.mem_singleton]
          refine or_congr_right ⟨?_, And.left⟩
          rintro rfl
          exact ⟨rfl, hdef⟩
    rw [List.foldl_cons, ih hrest, hexposed, hread, List.mem_cons]
    grind

lemma foldl_define_exposed (xs : List Var) (r : Reads) :
    (xs.foldl Reads.define r).exposed = r.exposed := by
  induction xs generalizing r with
  | nil => rfl
  | cons x rest ih =>
    rw [List.foldl_cons, ih, Reads.define]
    split <;> rfl

lemma mem_foldl_define {xs : List Var} {r : Reads} :
    v ∈ (xs.foldl Reads.define r).defs ↔ v ∈ r.defs ∨ v ∈ xs := by
  induction xs generalizing r with
  | nil => simp
  | cons x rest ih =>
    have hdefine : v ∈ (r.define x).defs ↔ v ∈ r.defs ∨ v = x := by
      rw [Reads.define]
      split
      · next h =>
          refine ⟨.inl, fun hv => hv.elim id ?_⟩
          rintro rfl
          exact h
      · simp
    rw [List.foldl_cons, ih, hdefine, List.mem_cons, or_assoc]

/-- Crossing statements and a terminator at once, from what a walk has noted in front of them. -/
lemma mem_summary_from {t : Terminator} (ht : v ≠ [] ∨ [] ∉ t.uses) (live : FinSet Var)
    (rest : List σ) (hrest : v ≠ [] ∨ ∀ s ∈ rest, [] ∉ Statement.uses s) (r : Reads) :
    v ∈ (live.eraseAll (t.uses.foldl Reads.read (rest.foldl Reads.step r)).defs).insertAll
        (t.uses.foldl Reads.read (rest.foldl Reads.step r)).exposed ↔
      v ∈ r.exposed ∨ (v ∉ r.defs ∧ v ∈ liveBefore rest (live.insertAll t.uses)) := by
  induction rest generalizing r with
  | nil =>
    rw [List.foldl_nil, FinSet.mem_insertAll, FinSet.mem_eraseAll, foldl_read_defs,
      mem_foldl_read ht]
    rw [show liveBefore ([] : List σ) (live.insertAll t.uses) = live.insertAll t.uses from rfl,
      FinSet.mem_insertAll]
    grind
  | cons s rest ih =>
    have hbehind := hrest.imp_right fun h x hx => h x (List.mem_cons_of_mem _ hx)
    have hfirst := hrest.imp_right fun h => h s (List.mem_cons_self ..)
    rw [List.foldl_cons, ih hbehind, mem_liveBefore_cons]
    rw [Reads.step, foldl_define_exposed, mem_foldl_define, foldl_read_defs, mem_foldl_read hfirst]
    grind

/-- **The summary of a block is its effect**: crossing a block at once is crossing its terminator
and then its statements from the last to the first. -/
lemma mem_acrossBlock_iff (hb : b.withReads = b)
    (hnames : v ≠ [] ∨ [] ∉ b.term.uses ∧ ∀ s ∈ b.stmts, [] ∉ Statement.uses s)
      (live : FinSet Var) :
    v ∈ (liveness σ).acrossBlock b live ↔ v ∈ liveBefore b.stmts (liveAtTerm b live) := by
  have hsummary : (liveness σ).acrossBlock b live =
      (live.eraseAll b.withReads.defs).insertAll b.withReads.exposed := by
    rw [hb]
    rfl
  rw [hsummary]
  refine (mem_summary_from (hnames.imp_right And.left) live b.stmts (hnames.imp_right And.right)
    ⟨[], []⟩).trans ?_
  simp only [List.not_mem_nil, not_false_eq_true, true_and, false_or]
  rfl

/-- **Summaries agree with the transfer of statements**: in a block that never reads the empty name,
what is derived by a walk from the first statement to the last serves for the way back. The
variables live behind the block that it does not define, and those it exposes, are what its
terminator and then its statements, from the last to the first, make of the variables live behind
it. -/
theorem mem_acrossBlock_withReads (b : Block σ) (hterm : [] ∉ b.term.uses)
    (hstmts : ∀ s ∈ b.stmts, [] ∉ Statement.uses s) (live : FinSet Var) (v : Var) :
    (v ∈ (liveness σ).acrossBlock b.withReads live ↔
      (v ∈ live ∧ v ∉ b.withReads.defs) ∨ v ∈ b.withReads.exposed) ∧
    (v ∈ (liveness σ).acrossBlock b.withReads live ↔
      v ∈ b.stmts.foldr (liveness σ).transfer.stmt ((liveness σ).acrossTerm b live)) := by
  have hderived : b.withReads.withReads = b.withReads := rfl
  exact ⟨FinSet.mem_insertAll.trans (or_congr_left FinSet.mem_eraseAll),
    mem_acrossBlock_iff hderived (.inr ⟨hterm, hstmts⟩) live⟩

/-- A block that reads and redefines `x`, defines `x` once more beside `z`, and branches on `z`. -/
def redefiningBlock : Block Instr :=
  .ofTerminator 0
    [{ op := .assign, defs := ["x"], uses := ["x", "y"], line := 1 },
      { op := .assign, defs := ["x", "z"], uses := ["x", "w"], line := 2 }]
    (.branch "z" 1 2)

/-- The block defines `x` and `z`, and exposes what it reads before that. -/
theorem mem_acrossBlock_withReads_redefining :
    [] ∉ redefiningBlock.term.uses ∧ (∀ s ∈ redefiningBlock.stmts, [] ∉ Statement.uses s) ∧
      (redefiningBlock.withReads.defs, redefiningBlock.withReads.exposed) =
        (Text.ofStrings ["x", "z"], Text.ofStrings ["x", "y", "w"]) ∧
      ∀ v, (v ∈ (liveness Instr).acrossBlock redefiningBlock.withReads
            (.ofList (Text.ofStrings ["z", "u"])) ↔
        v ∈ redefiningBlock.stmts.foldr (liveness Instr).transfer.stmt
          ((liveness Instr).acrossTerm redefiningBlock
            (.ofList (Text.ofStrings ["z", "u"])))) := by
  have hterm : [] ∉ redefiningBlock.term.uses := by decide +kernel
  have hstmts : ∀ s ∈ redefiningBlock.stmts, [] ∉ Statement.uses s := by decide +kernel
  exact ⟨hterm, hstmts, by decide +kernel,
    fun v => (mem_acrossBlock_withReads redefiningBlock hterm hstmts _ v).2⟩

end Summary

/-! ### Solving -/

omit [Statement σ] in
/-- An element of a join of sets is one of the start or of a joined set. -/
lemma mem_joinOver {α : Type} [DecidableEq α] {p : Problem σ (FinSet α)}
    (hp : p.lattice = powerset α) {facts : Table BlockId (FinSet α)} {start : FinSet α}
    {ids : List BlockId} {x : α} :
    x ∈ p.joinOver facts start ids ↔
      x ∈ start ∨ ∃ id ∈ ids, ∃ fact, facts.get? id = some fact ∧ x ∈ fact := by
  rw [Problem.joinOver, hp]
  induction ids generalizing start with
  | nil => simp
  | cons id rest ih =>
    rw [List.foldl_cons, ih]
    cases hget : facts.get? id with
    | none => simp [hget]
    | some fact =>
      have hunion : x ∈ (powerset α).join start fact ↔ x ∈ start ∨ x ∈ fact := FinSet.mem_union
      simp only [hunion, List.mem_cons, exists_eq_or_imp, hget, Option.some.injEq,
        exists_eq_left', or_assoc]

/-- No block of the graph reads the empty name. -/
def NamesAreProper (g : Graph σ) : Prop :=
  ∀ b ∈ g.blocks, [] ∉ b.term.uses ∧ ∀ s ∈ b.stmts, [] ∉ Statement.uses s

/-- The variables live behind a block: those live in front of its existing successors. -/
lemma mem_gathered {out : Table BlockId (FinSet Var)} :
    v ∈ (livenessUpTo σ limit).gathered g .empty out b ↔
      ∃ id ∈ b.succs, ∃ fact, out.get? id = some fact ∧ v ∈ fact := by
  have hstart : (if g.isExit b.id then .empty else (liveness σ).lattice.bottom) =
      (FinSet.empty : FinSet Var) := by
    split <;> rfl
  show v ∈ (livenessUpTo σ limit).joinOver out
    (if g.isExit b.id then .empty else (liveness σ).lattice.bottom) b.succs ↔ _
  rw [mem_joinOver rfl, hstart]
  simp

/-- The fact at the exit of a settled block is what the block has gathered. -/
lemma exit_of_settled (h : (livenessUpTo σ limit).Settled g .empty s b) :
    (liveness σ).factAt s.exit b.id = (livenessUpTo σ limit).gathered g .empty s.entry b := by
  rw [Problem.factAt]
  exact congrArg (Option.getD · _) h.1

/-- **Nothing that is read is missed**: when every reachable block is settled, what is read ahead of
a point of a reachable block is live there. Of the empty name this is known only where no block
reads it. -/
lemma mem_live_of_readAhead_of_named (hg : g.UpToDate) (hnames : v ≠ [] ∨ NamesAreProper g)
    (hsettled : ∀ b ∈ g.blocks, g.Reachable b.id → (livenessUpTo σ limit).Settled g .empty s b)
    (h : ReadAhead g v rest b) (hb : b ∈ g.blocks) (hreach : g.Reachable b.id) :
    v ∈ liveBefore rest (liveAtTerm b ((liveness σ).factAt s.exit b.id)) := by
  induction h with
  | stmt huse => exact mem_liveBefore_cons.mpr (.inr huse)
  | skip hdef _ ih => exact mem_liveBefore_cons.mpr (.inl ⟨ih hb hreach, hdef⟩)
  | term huse => exact mem_liveAtTerm.mpr (.inr huse)
  | @next b c id hid hc _ ih =>
    obtain ⟨hcmem, rfl⟩ := Graph.block?_eq_some_iff.mp hc
    have hcreach : g.Reachable c.id := hreach.step
      (Graph.mem_nexts.mpr ⟨b, Graph.block?_of_mem hb, hid, Graph.has_of_block? hc⟩)
    -- the fact at the entry of the successor is its effect on the fact at its exit
    have hahead := ih hcmem hcreach
    rw [← mem_acrossBlock_iff (hg.reads c hcmem) (hnames.imp_right fun h => h c hcmem),
      exit_of_settled (hsettled c hcmem hcreach)] at hahead
    have hentry : v ∈ (liveness σ).factAt s.entry c.id :=
      (powerset_equal_iff.mp (hsettled c hcmem hcreach).2 v).mp hahead
    -- and it flows into the exit of the block before
    refine mem_liveAtTerm.mpr (.inl ?_)
    rw [exit_of_settled (hsettled b hb hreach), mem_gathered]
    rw [Problem.factAt] at hentry
    cases hget : s.entry.get? c.id with
    | none =>
      rw [hget] at hentry
      exact absurd hentry (FinSet.not_mem_empty v)
    | some fact =>
      rw [hget] at hentry
      exact ⟨c.id, hid, fact, hget, hentry⟩

lemma mem_live_of_readAhead (hg : g.UpToDate) (hnames : NamesAreProper g)
    (hsettled : ∀ b ∈ g.blocks, g.Reachable b.id → (livenessUpTo σ limit).Settled g .empty s b)
    (h : ReadAhead g v rest b) (hb : b ∈ g.blocks) (hreach : g.Reachable b.id) :
    v ∈ liveBefore rest (liveAtTerm b ((liveness σ).factAt s.exit b.id)) :=
  mem_live_of_readAhead_of_named hg (.inr hnames) hsettled h hb hreach

/-- Every variable in the facts of a state is read ahead of where the facts hold. -/
structure Justified (g : Graph σ) (s : State (FinSet Var)) : Prop where
  entry : ∀ id fact, s.entry.get? id = some fact → ∀ v ∈ fact,
    ∃ b, g.block? id = some b ∧ ReadAhead g v b.stmts b
  exit : ∀ id fact, s.exit.get? id = some fact → ∀ v ∈ fact,
    ∃ b, g.block? id = some b ∧ ReadAhead g v [] b

/-- A visit puts nothing into the facts that is not read ahead. -/
lemma Justified.visit (hg : g.UpToDate) (hnames : NamesAreProper g) (hs : Justified g s)
    (hb : b ∈ g.blocks) :
    Justified g ((livenessUpTo σ limit).visit g .empty b s) := by
  have hvisit := Problem.visit_visited (livenessUpTo σ limit) g .empty b (s := s) s.queue nofun
  have hfound := Graph.block?_of_mem hb
  -- what the block gathers comes from a successor
  have hgathered : ∀ v ∈ (livenessUpTo σ limit).gathered g .empty s.entry b,
      ReadAhead g v [] b := by
    intro v hv
    obtain ⟨id, hid, fact, hget, hmem⟩ := mem_gathered.mp hv
    obtain ⟨c, hc, hahead⟩ := hs.entry id fact hget v hmem
    exact .next hid hc hahead
  have hacross : ∀ v ∈ (liveness σ).acrossBlock b
      ((livenessUpTo σ limit).gathered g .empty s.entry b), ReadAhead g v b.stmts b := by
    intro v hv
    rw [mem_acrossBlock_iff (hg.reads b hb) (.inr (hnames b hb))] at hv
    refine readAhead_of_mem_liveBefore (fun hmem => ?_) b.stmts hv
    exact (mem_liveAtTerm.mp hmem).elim (hgathered v) .term
  refine ⟨fun id fact hget v hv => ?_, fun id fact hget v hv => ?_⟩
  · rcases hvisit.outflow_cases hget with ⟨rfl, rfl⟩ | hget
    · exact ⟨b, hfound, hacross v hv⟩
    · exact hs.entry id fact hget v hv
  · rcases hvisit.inflow_cases hget with ⟨rfl, rfl⟩ | hget
    · exact ⟨b, hfound, hgathered v hv⟩
    · exact hs.exit id fact hget v hv

/-- At the start there is no variable in the facts. -/
lemma justified_start : Justified g ((livenessUpTo σ limit).start g .empty) := by
  refine ⟨fun id fact hget v hv => ?_, fun id fact hget v hv => ?_⟩
  · obtain rfl := Problem.eq_bottom_of_outflow_start (p := livenessUpTo σ limit) hget
    exact absurd hv (FinSet.not_mem_empty v)
  · rcases Problem.inflow_start_cases (p := livenessUpTo σ limit) hget with rfl | ⟨rfl, -⟩ <;>
      exact absurd hv (FinSet.not_mem_empty v)

/-- **Nothing that is not read gets in**: every variable in the facts of the solution is read
ahead. -/
lemma solve_justified (limit : Int) (hg : g.UpToDate) (hnames : NamesAreProper g) :
    ∃ s, Justified g s ∧ ((livenessUpTo σ limit).solve g .empty).entry = s.entry ∧
      ((livenessUpTo σ limit).solve g .empty).exit = s.exit := by
  obtain ⟨s, hs, hentry, hexit, -⟩ := Problem.solve_keeps (livenessUpTo σ limit) g .empty
    justified_start (fun s id queue hs _ _ => ⟨hs.entry, hs.exit⟩)
    (fun s id queue b hs _ hb => Justified.visit hg hnames (s := { s with queue })
      ⟨hs.entry, hs.exit⟩ (Graph.block?_eq_some_iff.mp hb).1)
  exact ⟨s, hs, hentry, hexit⟩

/-! ### Facts behind statements -/

/-- In a solution that converged a variable that is read ahead is live. -/
lemma mem_of_readAhead (hg : g.UpToDate) (hv : v ≠ [])
    (hconv : ((livenessUpTo σ limit).solve g .empty).converged = true) (hb : b ∈ g.blocks)
    (hreach : g.Reachable b.id) {i : Nat} {x : σ}
    (hlive : (b, i, x, live) ∈ (liveness σ).walk g ((livenessUpTo σ limit).solve g .empty))
    (hahead : ReadAhead g v (b.stmts.drop (i + 1)) b) : v ∈ live := by
  obtain ⟨-, -, rfl⟩ := (Problem.mem_walk _).mp hlive
  obtain ⟨s, -, -, hexit, hsettled⟩ := Problem.solve_settled hg
    (fun _ => powerset_equal_iff.mpr fun _ => Iff.rfl) hreach.1 hconv
  have hmem := mem_live_of_readAhead_of_named hg (.inl hv) hsettled hahead hb hreach
  rwa [← hexit] at hmem

/-- **Live variables are exact**: a replay of a solution that converged lists every statement of a
reachable block with one set, and this holds the variables that some path from right behind the
statement reads before redefining them. -/
theorem mem_walk_liveness (g : Graph σ) (limit : Int) (hnames : NamesAreProper g.withMetadata)
    (hconv : ({ liveness σ with limit }.solve g.withMetadata .empty).converged = true)
    {b : Block σ} (hb : b ∈ g.withMetadata.blocks) (hreach : g.withMetadata.Reachable b.id)
    {i : Nat} {s : σ} (hs : b.stmts[i]? = some s) :
    ∃ live, (∀ live', (b, i, s, live') ∈ { liveness σ with limit }.walk g.withMetadata
        ({ liveness σ with limit }.solve g.withMetadata .empty) ↔ live' = live) ∧
      ∀ v, v ∈ live ↔ ReadAhead g.withMetadata v (b.stmts.drop (i + 1)) b := by
  have hg := g.withMetadata_upToDate
  set r := (livenessUpTo σ limit).solve g.withMetadata .empty
  refine ⟨liveBefore (b.stmts.drop (i + 1)) (liveAtTerm b ((liveness σ).factAt r.exit b.id)),
    fun live' => ?_, fun v => ⟨?_, ?_⟩⟩
  · rw [Problem.mem_walk]
    exact ⟨fun h => h.2.2, fun h => ⟨hb, hs, h⟩⟩
  · obtain ⟨s, hjust, -, hexit⟩ := solve_justified limit hg hnames
    refine readAhead_of_mem_liveBefore (fun hmem => ?_) _
    rcases mem_liveAtTerm.mp hmem with hmem | huse
    · rw [Problem.factAt] at hmem
      cases hget : r.exit.get? b.id with
      | none =>
        rw [hget] at hmem
        exact absurd hmem (FinSet.not_mem_empty v)
      | some fact =>
        rw [hget] at hmem
        obtain ⟨c, hc, hahead⟩ := hjust.exit b.id fact (hexit ▸ hget) v hmem
        rw [Graph.block?_of_mem hb, Option.some.injEq] at hc
        rw [hc]
        exact hahead
    · exact .term huse
  · obtain ⟨s, -, -, hexit, hsettled⟩ := Problem.solve_settled hg
      (fun _ => powerset_equal_iff.mpr fun _ => Iff.rfl) hreach.1 hconv
    intro hahead
    have hlive := mem_live_of_readAhead hg hnames hsettled hahead hb hreach
    rwa [← hexit] at hlive

/-- Behind the declaration in front of the loop, what the loop reads is live. -/
theorem mem_walk_liveness_loop :
    NamesAreProper sampleLoop.withMetadata ∧
      (liveVariables sampleLoop.withMetadata).converged = true ∧
      sampleLoop.withMetadata.Reachable 0 ∧
      ∃ b s live, sampleLoop.withMetadata.block? 0 = some b ∧ b.stmts[0]? = some s ∧
        (∀ live', (b, 0, s, live') ∈ (liveness Instr).walk sampleLoop.withMetadata
          (liveVariables sampleLoop.withMetadata) ↔ live' = live) ∧
        ∀ v, v ∈ live ↔ ReadAhead sampleLoop.withMetadata v (b.stmts.drop 1) b := by
  have hnames : NamesAreProper sampleLoop.withMetadata := by
    unfold NamesAreProper
    decide +kernel
  have hconv : (liveVariables sampleLoop.withMetadata).converged = true := by decide +kernel
  have hreach : sampleLoop.withMetadata.Reachable 0 := ⟨by decide +kernel, .refl⟩
  have hfound : ((sampleLoop.withMetadata.block? 0).bind (·.stmts[0]?)).isSome = true := by
    decide +kernel
  obtain ⟨s, hs⟩ := Option.isSome_iff_exists.mp hfound
  obtain ⟨b, hb, hs⟩ := Option.bind_eq_some_iff.mp hs
  obtain ⟨hmem, hid⟩ := Graph.block?_eq_some_iff.mp hb
  obtain ⟨live, hlist, hlive⟩ := mem_walk_liveness sampleLoop 0 hnames hconv hmem (hid ▸ hreach) hs
  exact ⟨hnames, hconv, hreach, b, s, live, hb, hs, hlist, hlive⟩

end ContractAudit.Fixpoint
