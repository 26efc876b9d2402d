import ContractAudit.Proofs.Flow.Entry

/-!
Lowered graphs are well formed.

The blocks without a terminator are at any time the current one and those that wait to be filled
(`Draft.Pending`), and lowering a whole body leaves neither. A block that ends in a branch ends with
the evaluation of its condition (`Draft.Tested`), and the number of a condition belongs to one block
(`Draft.Numbered`). All three are kept by every step of lowering.

* `WellFormed`: what can be relied on in a lowered graph.
* `strays`: the statements of a body that leave a loop or go on with one although there is none.
* `lowerMember_wellFormed`: lowering fails on the bodies with such statements, and on these alone;
  any other body gives a well-formed graph.
-/

namespace ContractAudit.Flow

open Source (Stmt Contract Function SourceUnit)

variable {d : Draft}

namespace Draft

/-! ### Blocks without a terminator -/

/-- Whether block `n` has no terminator yet. -/
def Unended (d : Draft) (n : Nat) : Prop := ∃ b, d.blocks[n]? = some b ∧ b.term = .unreachable

variable {n m : Nat} {s t : Draft × List Nat}

lemma Unended.lt (h : d.Unended n) : n < d.blocks.length := by
  obtain ⟨b, hb, -⟩ := h
  exact (List.getElem?_eq_some_iff.mp hb).1

lemma unended_openBlock : d.openBlock.2.Unended n ↔ n = d.openBlock.1 ∨ d.Unended n := by
  constructor
  · rintro ⟨b, hb, hterm⟩
    rcases getElem?_openBlock hb with hb | ⟨hn, -⟩
    · exact .inr ⟨b, hb, hterm⟩
    · exact .inl hn
  · rintro (rfl | ⟨b, hb, hterm⟩)
    · exact ⟨_, List.getElem?_concat_length, rfl⟩
    · exact ⟨b, getElem?_of_prefix (List.prefix_append ..) hb, hterm⟩

lemma unended_append {i : Instr} : (d.append m i).Unended n ↔ d.Unended n := by
  constructor
  · rintro ⟨b, hb, hterm⟩
    obtain ⟨a, ha, ⟨-, rfl⟩ | ⟨-, rfl⟩⟩ := getElem?_modify hb
    · exact ⟨a, ha, hterm⟩
    · exact ⟨b, ha, hterm⟩
  · rintro ⟨b, hb, hterm⟩
    by_cases heq : m = n
    · exact ⟨{ b with stmts := b.stmts ++ [i] }, by simp [append, modify, heq, hb], hterm⟩
    · exact ⟨b, by simp [append, modify, heq, hb], hterm⟩

lemma unended_setTerm {t : Terminator} (ht : t ≠ .unreachable) :
    (d.setTerm m t).Unended n ↔ d.Unended n ∧ n ≠ m := by
  constructor
  · rintro ⟨b, hb, hterm⟩
    obtain ⟨a, ha, ⟨-, rfl⟩ | ⟨hne, rfl⟩⟩ := getElem?_modify hb
    · exact absurd hterm ht
    · exact ⟨⟨b, ha, hterm⟩, hne.symm⟩
  · rintro ⟨⟨b, hb, hterm⟩, hne⟩
    exact ⟨b, (List.getElem?_modify_ne _ _ hne.symm).trans hb, hterm⟩

/-- The blocks that still have to be ended: the current one, and those that wait. -/
def due (s : Draft × List Nat) : List Nat := s.1.current.toList ++ s.2

/-- The blocks without a terminator are those that are due, each of them once. -/
structure Pending (s : Draft × List Nat) : Prop where
  nodup : (due s).Nodup
  unended : ∀ n, s.1.Unended n ↔ n ∈ due s

/-- Ends the first of the blocks that are due. -/
lemma Pending.setTerm (hs : Pending s) {term : Terminator} (hdue : due s = n :: due t)
    (hblocks : t.1.blocks = (s.1.setTerm n term).blocks) (hterm : term ≠ .unreachable) :
    Pending t := by
  have hnodup := hs.nodup
  rw [hdue, List.nodup_cons] at hnodup
  refine ⟨hnodup.2, fun m => ?_⟩
  have hm : t.1.Unended m ↔ (s.1.setTerm n term).Unended m := by rw [Unended, hblocks]; rfl
  rw [hm, unended_setTerm hterm, hs.unended, hdue, List.mem_cons]
  constructor
  · rintro ⟨rfl | hmem, hne⟩
    · exact absurd rfl hne
    · exact hmem
  · intro hmem
    exact ⟨.inr hmem, fun heq => hnodup.1 (heq ▸ hmem)⟩

lemma Step.pending (h : Step s t) (hs : Pending s) : Pending t := by
  cases h with
  | opens d ns =>
    have hperm : (due (d.openBlock.2, d.openBlock.1 :: ns)).Perm (d.openBlock.1 :: due (d, ns)) :=
      List.perm_middle
    have hnew : d.openBlock.1 ∉ due (d, ns) := fun hmem =>
      Nat.lt_irrefl _ ((hs.unended _).mpr hmem).lt
    refine ⟨hperm.nodup_iff.mpr (List.nodup_cons.mpr ⟨hnew, hs.nodup⟩), fun n => ?_⟩
    rw [unended_openBlock, hperm.mem_iff, List.mem_cons, hs.unended]
  | reorders d hperm =>
    have hdue := hperm.append_left d.current.toList
    exact ⟨hdue.nodup_iff.mp hs.nodup, fun n => (hs.unended n).trans hdue.mem_iff⟩
  | appends ns hn hop => exact ⟨hs.nodup, fun n => unended_append.trans (hs.unended n)⟩
  | tests ns hn hop hdefs => exact ⟨hs.nodup, fun n => unended_append.trans (hs.unended n)⟩
  | closes ns hn hends htargets htests => exact hs.setTerm (by simp [due, hn]) rfl hends
  | reverts n ns hd reason => exact hs.setTerm (by simp [due, setTerm, modify, hd]) rfl nofun
  | fills n ns hd =>
    refine ⟨?_, fun m => (hs.unended m).trans ?_⟩
    · simpa [due, goTo, hd] using hs.nodup
    · simp [due, goTo, hd]
  | _ => exact ⟨hs.nodup, hs.unended⟩

/-! ### Conditions -/

/-- A block that ends in a branch ends with the evaluation of its condition. -/
def Tested (s : Draft × List Nat) : Prop :=
  ∀ (n : Nat) (b : DraftBlock), s.1.blocks[n]? = some b →
    ∀ v yes no, b.term = .branch v yes no → TestsLast b.stmts v

/-- Instructions are appended to the current block alone, which has no terminator yet. -/
lemma Tested.append (hs : Tested s) (hpending : Pending s) (hm : s.1.current = some m) (i : Instr) :
    Tested (s.1.append m i, s.2) := by
  intro n b hb v yes no hterm
  obtain ⟨a, ha, ⟨rfl, rfl⟩ | ⟨-, rfl⟩⟩ := getElem?_modify hb
  · obtain ⟨c, hc, hunended⟩ := (hpending.unended m).mpr (by simp [due, hm])
    obtain rfl := Option.some.inj (hc.symm.trans ha)
    exact absurd (hterm.symm.trans hunended) nofun
  · exact hs n b ha v yes no hterm

lemma Step.tested (h : Step s t) (hpending : Pending s) (hs : Tested s) : Tested t := by
  cases h with
  | opens d ns =>
    intro n b hb v yes no hterm
    rcases getElem?_openBlock hb with hb | ⟨-, rfl⟩
    · exact hs n b hb v yes no hterm
    · contradiction
  | appends ns hn hop => exact hs.append hpending hn _
  | tests ns hn hop hdefs => exact hs.append hpending hn _
  | closes ns hm hends htargets htests =>
    intro n b hb v yes no hterm
    obtain ⟨a, ha, ⟨rfl, rfl⟩ | ⟨-, rfl⟩⟩ := getElem?_modify hb
    · obtain ⟨m, c, hm', hc, hlast⟩ := htests v yes no hterm
      obtain rfl := Option.some.inj (hm.symm.trans hm')
      obtain rfl := Option.some.inj (hc.symm.trans ha)
      exact hlast
    · exact hs n b ha v yes no hterm
  | reverts m ns hd reason =>
    intro n b hb v yes no hterm
    obtain ⟨a, ha, ⟨-, rfl⟩ | ⟨-, rfl⟩⟩ := getElem?_modify hb
    · contradiction
    · exact hs n b ha v yes no hterm
  | _ => exact hs

/-- Every evaluation of a condition has a number that was given out, for the block it stands in. -/
def Numbered (s : Draft × List Nat) : Prop :=
  ∃ owner : Nat → Nat, ∀ (n : Nat) (b : DraftBlock), s.1.blocks[n]? = some b → ∀ i ∈ b.stmts,
    i.op = .cond → ∃ k ≤ s.1.conds, i.defs = [condVar k] ∧ owner k = n

/-- Terminators do not matter. -/
lemma Numbered.setTerm {e : Draft} {ns ms : List Nat} (h : Numbered (d, ns)) {t : Terminator}
    (hblocks : e.blocks = (d.setTerm m t).blocks) (hconds : e.conds = d.conds) :
    Numbered (e, ms) := by
  obtain ⟨owner, howner⟩ := h
  refine ⟨owner, fun n b hb => ?_⟩
  dsimp only at hb ⊢
  rw [hblocks] at hb
  rw [hconds]
  obtain ⟨a, ha, ⟨-, rfl⟩ | ⟨-, rfl⟩⟩ := getElem?_modify hb
  · exact howner n a ha
  · exact howner n b ha

lemma Step.numbered (h : Step s t) (hs : Numbered s) : Numbered t := by
  have hs' := hs
  obtain ⟨owner, howner⟩ := hs
  cases h with
  | opens d ns =>
    refine ⟨owner, fun n b hb => ?_⟩
    rcases getElem?_openBlock hb with hb | ⟨-, rfl⟩
    · exact howner n b hb
    · nofun
  | appends ns hm hop =>
    refine ⟨owner, fun n b hb => ?_⟩
    obtain ⟨a, ha, ⟨-, rfl⟩ | ⟨-, rfl⟩⟩ := getElem?_modify hb
    · intro i hi hcond
      rcases List.mem_append.mp hi with hi | hi
      · exact howner n a ha i hi hcond
      · obtain rfl := List.mem_singleton.mp hi
        exact absurd hcond hop
    · exact howner n b ha
  | @tests d ns m hm i hop hdefs =>
    -- the new number goes to the current block
    have hold : ∀ n b, d.blocks[n]? = some b → ∀ j ∈ b.stmts, j.op = .cond → ∃ k ≤ d.conds + 1,
        j.defs = [condVar k] ∧ (if k = d.conds + 1 then m else owner k) = n := by
      intro n b hb j hj hcond
      obtain ⟨k, hk, hdefs, hn⟩ := howner n b hb j hj hcond
      dsimp only at hk
      exact ⟨k, Nat.le_succ_of_le hk, hdefs, by rwa [if_neg (by omega)]⟩
    refine ⟨fun k => if k = d.conds + 1 then m else owner k, fun n b hb => ?_⟩
    obtain ⟨a, ha, ⟨rfl, rfl⟩ | ⟨-, rfl⟩⟩ := getElem?_modify hb
    · intro j hj hcond
      rcases List.mem_append.mp hj with hj | hj
      · exact hold m a ha j hj hcond
      · obtain rfl := List.mem_singleton.mp hj
        exact ⟨d.conds + 1, Nat.le_refl _, hdefs, if_pos rfl⟩
    · exact hold n b ha
  | closes ns hm hends htargets htests => exact hs'.setTerm rfl rfl
  | reverts m ns hd reason => exact hs'.setTerm rfl rfl
  | _ => exact ⟨owner, howner⟩

end Draft

lemma condVar_inj {j k : Nat} (h : condVar j = condVar k) : j = k := by
  have hstring : toString j = toString k := Text.ofString_inj.mp (List.append_cancel_left h)
  rw [Nat.toString_eq_ofList_toDigits, Nat.toString_eq_ofList_toDigits, String.ofList_inj]
    at hstring
  rw [← Nat.ofDigitChars_ten_toDigits (n := j), hstring, Nat.ofDigitChars_ten_toDigits]

/-- Blocks that branch on one variable are one block. -/
lemma Draft.Numbered.eq_of_testsLast {s : Draft × List Nat} (h : Draft.Numbered s) {m n : Nat}
    {a b : DraftBlock} {v : Var} (ha : s.1.blocks[m]? = some a) (hb : s.1.blocks[n]? = some b)
    (hav : TestsLast a.stmts v) (hbv : TestsLast b.stmts v) : m = n := by
  obtain ⟨owner, howner⟩ := h
  obtain ⟨i, hi, hiop, hidefs⟩ := hav
  obtain ⟨j, hj, hjop, hjdefs⟩ := hbv
  obtain ⟨k, -, hk, rfl⟩ := howner m a ha i (List.mem_of_getLast? hi) hiop
  obtain ⟨l, -, hl, rfl⟩ := howner n b hb j (List.mem_of_getLast? hj) hjop
  have hkv := List.singleton_inj.mp (hk.symm.trans hidefs)
  have hlv := List.singleton_inj.mp (hl.symm.trans hjdefs)
  rw [condVar_inj (hkv.trans hlv.symm)]

/-! ### Finished drafts -/

/-- What can be relied on in a lowered graph. -/
structure WellFormed (g : Graph Instr) : Prop where
  ids : g.ids = (List.range g.blocks.length).map Int.ofNat
  entry : g.entry = 0
  /-- Nothing leads to the entry. -/
  entry_preds : ∃ b, g.block? 0 = some b ∧ b.preds = []
  entry_not_mem : ∀ b ∈ g.blocks, 0 ∉ b.succs
  has_succs : ∀ b ∈ g.blocks, ∀ s ∈ b.succs, g.has s = true
  /-- Every block ends in a jump or a branch, or leaves the function. -/
  ended : ∀ b ∈ g.blocks, b.term ≠ .unreachable
  tested : ∀ b ∈ g.blocks, ∀ v yes no, b.term = .branch v yes no → TestsLast b.stmts v
  /-- No two blocks branch on the same variable. -/
  condition_inj : ∀ a ∈ g.blocks, ∀ b ∈ g.blocks, ∀ v yes no yes' no',
    a.term = .branch v yes no → b.term = .branch v yes' no' → a = b

lemma WellFormed.faults_eq_nil {g : Graph Instr} (h : WellFormed g) : g.faults = [] := by
  obtain ⟨b, hb, -⟩ := h.entry_preds
  have hentry : g.has g.entry = true := h.entry ▸ Graph.has_of_block? hb
  rw [Graph.faults, if_pos hentry, List.nil_append, List.flatMap_eq_nil_iff]
  intro a ha
  rw [List.map_eq_nil_iff, List.filter_eq_nil_iff]
  intro s hs
  simp [h.has_succs a ha s hs]

lemma ids_graph (d : Draft) (name : Text) :
    (d.graph name).withMetadata.ids = (List.range d.blocks.length).map Int.ofNat := by
  have hids : (d.graph name).withMetadata.ids = (d.graph name).ids := by
    simp [Graph.ids, Graph.withMetadata, Graph.withReads, Graph.withExits, Graph.withOrder,
      Graph.withPredecessors_eq, Graph.withPreds, Graph.mapBlocks, Block.withReads,
      Function.comp_def]
  rw [hids, Graph.ids, Draft.graph]
  refine List.ext_getElem (by simp) fun n _ _ => ?_
  rw [List.getElem_map, List.getElem_mapIdx, List.getElem_map, List.getElem_range]
  rfl

lemma pending_start (scope : Scope) : Draft.Pending (Draft.start scope, []) := by
  refine ⟨List.nodup_singleton 0, fun n => ?_⟩
  constructor
  · intro h
    have hlt : n < 1 := h.lt
    simp [Draft.due, Draft.start, Nat.lt_one_iff.mp hlt]
  · intro h
    obtain rfl := List.mem_singleton.mp h
    exact ⟨_, rfl, rfl⟩

lemma tested_start (scope : Scope) : Draft.Tested (Draft.start scope, []) := by
  intro n b hb
  obtain rfl := List.mem_singleton.mp (List.mem_of_getElem? hb)
  nofun

lemma numbered_start (scope : Scope) : Draft.Numbered (Draft.start scope, []) := by
  refine ⟨id, fun n b hb => ?_⟩
  obtain rfl := List.mem_singleton.mp (List.mem_of_getElem? hb)
  nofun

/-- A draft with no block left to fill is a well-formed graph. -/
lemma wellFormed_of_steps {scope : Scope} (h : Draft.Steps (Draft.start scope, []) (d, []))
    (hcurrent : d.current = none) (name : Text) : WellFormed (d.graph name).withMetadata := by
  have hpos : 0 < d.blocks.length := (h.rooted (Draft.rooted_start scope)).pos
  have hleading := h.leading (Draft.leading_start scope)
  obtain ⟨hpending, htested⟩ : Draft.Pending (d, []) ∧ Draft.Tested (d, []) :=
    h.keeps (P := fun s => Draft.Pending s ∧ Draft.Tested s)
      (fun _ _ hst hs => ⟨hst.pending hs.1, hst.tested hs.1 hs.2⟩)
      ⟨pending_start scope, tested_start scope⟩
  have hnumbered : Draft.Numbered (d, []) :=
    h.keeps (fun _ _ hst => hst.numbered) (numbered_start scope)
  have hback : ∀ b ∈ (d.graph name).withMetadata.blocks, 0 ∉ b.succs := by
    intro b hb hmem
    obtain ⟨m, hm, heq⟩ := exists_inner_of_mem_succs hleading hb hmem
    exact Nat.ne_of_gt hm.1 (Int.natCast_eq_zero.mp heq.symm)
  refine ⟨?_, Graph.entry_withMetadata _, ?_, hback, ?_, ?_, ?_, ?_⟩
  · have hlength : (d.graph name).withMetadata.blocks.length = d.blocks.length := by
      simpa [Graph.ids] using congrArg List.length (ids_graph d name)
    rw [hlength, ids_graph]
  · obtain ⟨b, hb⟩ := Graph.has_iff.mp (has_graph hpos name)
    obtain ⟨hmem, hid⟩ := Graph.block?_eq_some_iff.mp hb
    refine ⟨b, hb, List.eq_nil_iff_forall_not_mem.mpr fun p hp => ?_⟩
    obtain ⟨a, ha, hsucc⟩ := ((Graph.withMetadata_upToDate _).mem_preds hmem).mp hp
    rw [hid] at hsucc
    exact hback a (Graph.block?_eq_some_iff.mp ha).1 hsucc
  · intro b hb s hs
    obtain ⟨m, hm, rfl⟩ := exists_inner_of_mem_succs hleading hb hs
    exact has_graph hm.2 name
  · intro c hc hterm
    obtain ⟨n, b, hb, -, -, hcb, -⟩ := exists_drafted hc
    have hdue := (hpending.unended n).mp ⟨b, hb, hcb ▸ hterm⟩
    simp [Draft.due, hcurrent] at hdue
  · intro c hc v yes no hterm
    obtain ⟨n, b, hb, -, hstmts, hcb, -⟩ := exists_drafted hc
    exact hstmts ▸ htested n b hb v yes no (hcb ▸ hterm)
  · intro a ha b hb v yes no yes' no' haterm hbterm
    obtain ⟨m, a', ha', haid, -, hat, -⟩ := exists_drafted ha
    obtain ⟨n, b', hb', hbid, -, hbt, -⟩ := exists_drafted hb
    have hmn := hnumbered.eq_of_testsLast ha' hb' (htested m a' ha' v yes no (hat ▸ haterm))
      (htested n b' hb' v yes' no' (hbt ▸ hbterm))
    exact Graph.eq_of_id_eq ha hb (by rw [haid, hbid, hmn])

/-! ### Statements that stray out of loops -/

mutual

/-- The `break` and `continue` statements with no loop around them, as the errors they give. -/
def strays : Stmt → List LowerError
  | .block _ body => straysAll body
  | .ifElse _ _ yes no => strays yes ++ strays no
  | .breakLoop line => [.breakOutside line]
  | .continueLoop line => [.continueOutside line]
  | _ => []

/-- Those of a sequence of statements. -/
def straysAll : List Stmt → List LowerError
  | [] => []
  | s :: rest => strays s ++ straysAll rest

end

/-- How lowering ends that meets the given statements: outside of loops the first of them fails, and
inside of one none does. -/
def Decided (met : List LowerError) (loops : List LoopExits) : Except LowerError Draft → Prop
  | .ok _ => loops = [] → met = []
  | .error e => loops = [] ∧ met.head? = some e

namespace Decided

variable {met later : List LowerError} {loops : List LoopExits} {r : Except LowerError Draft}

lemma ok (f : Draft) : Decided [] loops (.ok f) := fun _ => rfl

lemma bind {next : Draft → Except LowerError Draft} (h : Decided met loops r)
    (hnext : ∀ f, r = .ok f → Decided later loops (next f)) :
    Decided (met ++ later) loops (r >>= next) := by
  cases r with
  | error e =>
    obtain ⟨hloops, hhead⟩ := h
    exact ⟨hloops, by simp [hhead]⟩
  | ok f =>
    have hlater := hnext f rfl
    change Decided _ _ (next f)
    cases hf : next f with
    | ok g =>
      rw [hf] at hlater
      exact fun hloops => List.append_eq_nil_iff.mpr ⟨h hloops, hlater hloops⟩
    | error e =>
      rw [hf] at hlater
      obtain ⟨hloops, hhead⟩ := hlater
      exact ⟨hloops, by simpa [h hloops] using hhead⟩

/-- Inside of a loop nothing fails. -/
lemma enclosed {l : LoopExits} (h : Decided met (l :: loops) r) {outer : List LoopExits} :
    Decided [] outer r := by
  cases r with
  | error e => exact absurd h.1 (List.cons_ne_nil _ _)
  | ok f => exact .ok f

end Decided

/-- Lowering `s` ends as its stray statements decide. -/
def Settled (s : Stmt) : Prop :=
  ∀ d : Draft, d.Open → Decided (strays s) d.loops (lowerStmt s d)

/-- Whatever is in the body of a loop has a loop around it. -/
lemma Settled.loop {l : Loop} (hbody : Settled l.body) (hd : d.Open) (bodyFirst : Bool)
    (loops : List LoopExits) :
    Decided [] loops (lowerStmt l.body
      ((d.openLoop l.post).2.enterLoop (d.openLoop l.post).1 l.line l.cond bodyFirst) >>= fun e =>
        .ok (e.leaveLoop (d.openLoop l.post).1 l.line l.post)) := by
  have henter := Draft.entersLoop_enterLoop hd l bodyFirst
  have hinside := hbody _ henter.grows.isOpen
  rw [henter.loops] at hinside
  exact hinside.enclosed.bind fun f _ => .ok _

lemma Settled.choice {yes no : Stmt} (hyes : Settled yes) (hno : Settled no) (hd : d.Open)
    (line : Nat) (cond : Source.Expr) :
    Decided (strays yes ++ strays no) d.loops (lowerStmt (.ifElse line cond yes no) d) := by
  have hchoose := Draft.chooses_openChoice hd cond line (!no.isEmpty)
  simp only [lowerStmt]
  generalize d.openChoice cond line (!no.isEmpty) = choice at hchoose ⊢
  obtain ⟨frame, e⟩ := choice
  have hloops : (e.goTo frame.yes).loops = d.loops := hchoose.loops
  have hfirst := hloops ▸ hyes _ hchoose.yes.open_goTo
  refine hfirst.bind fun f hf => ?_
  cases hempty : no.isEmpty with
  | true =>
    cases no with
    | empty => exact .ok _
    | _ => contradiction
  | false =>
    obtain ⟨hgrows, hstays, -⟩ := (lowerStmt_steady yes).jump hchoose.yes hf frame.join
    have hreserved := hgrows.reserved (hchoose.no.goTo (Nat.ne_of_lt hchoose.yes_lt))
    have hloops' : ((f.jump frame.join).goTo frame.no).loops = d.loops := hstays.trans hchoose.loops
    have hsecond := hloops' ▸ hno _ hreserved.open_goTo
    exact List.append_nil (strays no) ▸ hsecond.bind fun _ _ => .ok _

mutual

/-- Lowering ends as the stray statements decide. -/
theorem lowerStmt_settled : ∀ s : Stmt, Settled s
  | .empty, d, hd => .ok d
  | .placeholder _, d, hd => .ok d
  | .block _ body, d, hd => lowerStmts_settled body d hd
  | .expr line value, d, hd => .ok _
  | .emit line _ args, d, hd => .ok _
  | .ifElse line cond yes no, d, hd =>
    (lowerStmt_settled yes).choice (lowerStmt_settled no) hd line cond
  | .whileLoop line cond body, d, hd =>
    (lowerStmt_settled body).loop (l := ⟨line, cond, [], body⟩) hd false d.loops
  | .doLoop line cond body, d, hd =>
    (lowerStmt_settled body).loop (l := ⟨line, cond, [], body⟩) hd true d.loops
  | .forLoop line init cond post body, d, hd =>
    (lowerStmt_settled body).loop (l := ⟨line, cond, post, body⟩)
      (Draft.appends_expr? hd init init.line).grows.isOpen false d.loops
  | .returnValue line value, d, hd => .ok _
  | .revert line args, d, hd => .ok _
  | .require line cond message internal, d, hd => .ok _
  | .breakLoop line, d, hd => by
    rw [lowerStmt]
    split
    · next hloops => exact ⟨hloops, rfl⟩
    · next top rest hloops => exact fun h => absurd (hloops.symm.trans h) (List.cons_ne_nil _ _)
  | .continueLoop line, d, hd => by
    rw [lowerStmt]
    split
    · next hloops => exact ⟨hloops, rfl⟩
    · next top rest hloops => exact fun h => absurd (hloops.symm.trans h) (List.cons_ne_nil _ _)

theorem lowerStmts_settled : ∀ (body : List Stmt) (d : Draft), d.Open →
    Decided (straysAll body) d.loops (lowerStmts body d)
  | [], d, hd => .ok d
  | s :: rest, d, hd => (lowerStmt_settled s d hd).bind fun f hf => by
    obtain ⟨hgrows, hloops⟩ := lowerStmt_steady s d f hd hf
    exact hloops ▸ lowerStmts_settled rest f hgrows.isOpen

end

mutual

lemma ne_malformed_of_mem_strays {faults : List GraphFault} :
    ∀ (s : Stmt) (e : LowerError), e ∈ strays s → e ≠ .malformed faults
  | .block _ body, e, he => ne_malformed_of_mem_straysAll body e he
  | .ifElse _ _ yes no, e, he => by
    rcases List.mem_append.mp he with he | he
    · exact ne_malformed_of_mem_strays yes e he
    · exact ne_malformed_of_mem_strays no e he
  | .breakLoop line, e, he => by
    obtain rfl := List.mem_singleton.mp he
    nofun
  | .continueLoop line, e, he => by
    obtain rfl := List.mem_singleton.mp he
    nofun

lemma ne_malformed_of_mem_straysAll {faults : List GraphFault} :
    ∀ (body : List Stmt) (e : LowerError), e ∈ straysAll body → e ≠ .malformed faults
  | s :: rest, e, he => by
    rcases List.mem_append.mp he with he | he
    · exact ne_malformed_of_mem_strays s e he
    · exact ne_malformed_of_mem_straysAll rest e he

end

/-! ### Lowered functions -/

lemma lowerBody_of_lowerStmt {scope : Scope} {body : Stmt}
    (h : lowerStmt body (Draft.start scope) = .ok d) (name : Text) (named : List Var) :
    lowerBody name scope named body =
      .ok ((d.terminate (.done named)).graph name).withMetadata := by
  have hgraph := wellFormed_of_steps (steps_finished h named) (Draft.current_terminate ..) name
  rw [lowerBody, h]
  exact if_pos (List.isEmpty_iff.mpr hgraph.faults_eq_nil)

section Lowered

variable (u : SourceUnit) (c : Contract) (fn : Function) (state : List Text) (body : Stmt)

/-- Lowering a function fails with the first of the stray statements of its body. -/
lemma lowerMember_eq_error_iff {e : LowerError} :
    lowerMember u c fn state body = .error e ↔ (strays body).head? = some e := by
  obtain ⟨scope, hscope⟩ : ∃ scope : Scope,
      scope = ⟨state, (fn.params.map (·.name)).filter (!·.isEmpty) ++ fn.namedReturns⟩ := ⟨_, rfl⟩
  have hdecided := lowerStmt_settled body (Draft.start scope) (open_start scope)
  cases hbody : lowerStmt body (Draft.start scope) with
  | error first =>
    have hmember : lowerMember u c fn state body = .error first := by
      rw [lowerMember, ← hscope, lowerBody, hbody]
      rfl
    rw [hbody] at hdecided
    rw [hmember, hdecided.2, Except.error.injEq, Option.some.injEq]
  | ok d =>
    rw [hbody] at hdecided
    rw [lowerMember, ← hscope, lowerBody_of_lowerStmt hbody, hdecided rfl]
    exact iff_of_false nofun nofun

/-- Lowering a function fails if, and only if, its body leaves a loop or goes on with one where
there is none; that its graph is malformed is never the reason. Any other body gives a well-formed
graph. -/
theorem lowerMember_wellFormed :
    ((∃ e, lowerMember u c fn state body = .error e) ↔ strays body ≠ []) ∧
      (∀ e, lowerMember u c fn state body = .error e →
        (strays body).head? = some e ∧ ∀ faults, e ≠ .malformed faults) ∧
      ∀ f, lowerMember u c fn state body = .ok f → WellFormed f.graph := by
  refine ⟨?_, fun e he => ?_, fun f hf => ?_⟩
  · simp only [lowerMember_eq_error_iff, ← Option.isSome_iff_exists, List.isSome_head?, ne_eq]
  · have hhead := (lowerMember_eq_error_iff u c fn state body).mp he
    exact ⟨hhead, fun _ => ne_malformed_of_mem_strays body e (List.mem_of_head? hhead)⟩
  · obtain ⟨g, hg, hf⟩ := bind_eq_ok_iff.mp hf
    cases hf
    obtain ⟨d, hd, rfl⟩ := lowerBody_eq_ok hg
    exact wellFormed_of_steps (steps_finished hd fn.namedReturns) (Draft.current_terminate ..) _

end Lowered

/-- Leaves a loop on both ways of a choice, and checks a condition that is never met behind the
return. -/
def deadEndBody : Stmt :=
  let name (t : Text) : Source.Expr := [⟨.ident, t, 1⟩]
  .block 1
    [.forLoop 1 [] (name "a") (name "p") (.block 1
        [.ifElse 1 (name "b") (.breakLoop 1) (.continueLoop 1), .expr 1 (name "x")]),
      .returnValue 1 [], .require 1 (name "c") [] true, .whileLoop 1 [] .empty]

/-- Lowers a body as that of a function without parameters. -/
def lowerSample (body : Stmt) : Except LowerError LoweredFunction :=
  lowerMember ⟨[], [], [], 0, [], []⟩ ⟨"C", [], false, [], 1, [], [], []⟩
    { name := "f", kind := .function, visibility := [], mutability := [], modifiers := []
      params := [], returns := [], line := 1, endLine := 1, body? := some body } [] body

/-- The body is lowered to a well-formed graph, and a `break` behind it is a mistake. -/
theorem lowerMember_wellFormed_deadEnd :
    (∃ f, lowerSample deadEndBody = .ok f ∧ WellFormed f.graph) ∧
      ∃ e, lowerSample (.block 1 [deadEndBody, .breakLoop 2]) = .error e ∧ e = .breakOutside 2 := by
  constructor
  · obtain ⟨hfails, -, hgraph⟩ := lowerMember_wellFormed ⟨[], [], [], 0, [], []⟩
      ⟨"C", [], false, [], 1, [], [], []⟩ _ [] deadEndBody
    cases hlower : lowerSample deadEndBody with
    | error e => exact absurd rfl (hfails.mp ⟨e, hlower⟩)
    | ok f => exact ⟨f, rfl, hgraph f hlower⟩
  · obtain ⟨hfails, hfirst, -⟩ := lowerMember_wellFormed ⟨[], [], [], 0, [], []⟩
      ⟨"C", [], false, [], 1, [], [], []⟩ _ [] (.block 1 [deadEndBody, .breakLoop 2])
    obtain ⟨e, he⟩ := hfails.mpr (by decide)
    exact ⟨e, he, Option.some.inj (hfirst e he).1.symm⟩

end ContractAudit.Flow
