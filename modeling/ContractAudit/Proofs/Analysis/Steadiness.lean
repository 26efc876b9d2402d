import ContractAudit.Proofs.Analysis.Constants
import ContractAudit.Proofs.Domain.Nesting
import ContractAudit.Proofs.Fixpoint.Termination
import ContractAudit.Proofs.Fixpoint.Visits

/-!
Functions in which what is known about constants only rises.

The transfer of constant propagation is not monotone: a name about which a fact says nothing reads
as a constant of the contract or as unknown, so an instruction may fold to less where more is known.
It is monotone between facts that speak of the same names, as far as these are read.

* `Assigned`: a name is assigned on a way to a place.
* `Steady`: of every name that is folded in front of a loop or in it, if some way assigns it, one
  does that never leads back in the order of the blocks; other names never get a value.
* `Ascends.across`: between facts that cover these names a block is monotone.
* `Climbs`: what one visit preserves. Blocks are first visited in order, and then facts cover the
  names they have to.
* `not_fallsAt_of_steady`: in a steady function the facts of the blocks that lead to a loop never
  fall.
-/

namespace ContractAudit.Analysis

open Source ContractAudit.Flow Domain Fixpoint

/-! ### Folding one instruction -/

/-- The names that the value which an instruction stores is computed from. -/
def foldedNames (i : Instr) : List Var :=
  match i.defs with
  | [target] => ((storedValue? i target).map Expr.names).getD []
  | _ => []

variable {i : Instr} {b : Block Instr} {x y fact initial : KnownValues} {k : Nat} {g : Graph Instr}
  {env : Env} {unknown : List Var}

/-- An instruction still folds to its value when more is known about the names in it. -/
lemma foldedValue?_mono {known more : Env} {n : Nat}
    (h : ∀ v ∈ foldedNames i, ∀ m, known v = some m → more v = some m)
      (hn : foldedValue? i known = some n) :
    foldedValue? i more = some n := by
  rw [foldedValue?] at hn ⊢
  rw [foldedNames] at h
  split at hn
  · next target hdefs =>
    simp only [hdefs] at h
    split_ifs at hn ⊢
    obtain ⟨e, he, hvalue⟩ := Option.bind_eq_some_iff.mp hn
    rw [he] at h ⊢
    exact constantValue?_mono_at h hvalue
  · contradiction

lemma foldedFact_ne_bottom (i : Instr) (known : Env) : foldedFact i known ≠ .bottom := by
  rw [foldedFact]
  cases foldedValue? i known <;> rintro ⟨⟩

lemma join_ne_bottom {c d : Flat Nat} (hc : c ≠ .bottom) (hd : d ≠ .bottom) :
    c.join d ≠ .bottom := by
  cases c <;> cases d <;> grind [Flat.join]

/-! ### Where names are assigned -/

/-- The name `v` is assigned on a way to statement number `k` of block `b`, or has a value from the
start. The way leads along edges of the given kind, from blocks that control can get to. -/
inductive Assigned (g : Graph Instr) (initial : KnownValues) (along : BlockId → BlockId → Prop) :
    Block Instr → Nat → Var → Prop where
  | initially {b : Block Instr} {v : Var} (hb : b ∈ g.blocks) (hid : b.id = g.entry)
      (hv : initial.has v = true) : Assigned g initial along b 0 v
  | here {b : Block Instr} {k : Nat} {i : Instr} {v : Var} (hb : b ∈ g.blocks)
      (hi : b.stmts[k]? = some i)
      (hv : v ∈ i.defs) : Assigned g initial along b (k + 1) v
  | kept {b : Block Instr} {k : Nat} {i : Instr} {v : Var} (h : Assigned g initial along b k v)
      (hi : b.stmts[k]? = some i) : Assigned g initial along b (k + 1) v
  | next {a b : Block Instr} {v : Var} (h : Assigned g initial along a a.stmts.length v)
      (hb : b ∈ g.blocks)
      (hord : a.id ∈ g.order) (hsucc : b.id ∈ a.succs) (halong : along a.id b.id) :
        Assigned g initial along b 0 v

/-- The name is assigned on some way. -/
abbrev AssignedSomehow (g : Graph Instr) (initial : KnownValues) : Block Instr → Nat → Var → Prop :=
  Assigned g initial fun _ _ => True

/-- The name is assigned on a way that never leads back in the order of the blocks. -/
abbrev AssignedOnward (g : Graph Instr) (initial : KnownValues) : Block Instr → Nat → Var → Prop :=
  Assigned g initial fun a b => g.order.idxOf a < g.order.idxOf b

/-- An instruction folds to no value as long as the given names are unknown. -/
def Blind (unknown : List Var) (i : Instr) : Prop :=
  ∀ known : Env, (∀ v ∈ unknown, known v = none) → foldedValue? i known = none

/-- What makes the facts of a function rise: there are names which never get a value, having none at
the start and none by an instruction that reads them, and of every other name that is folded in
front of a loop or in it, if some way there assigns it, one does that never leads back. -/
structure Steady (g : Graph Instr) (env : Env) (initial : KnownValues) (unknown : List Var) :
    Prop where
  start : ∀ v ∈ unknown, env v = none ∧ ∀ n, initial.get? v ≠ some (.value n)
  blind : ∀ b ∈ g.blocks, ∀ i ∈ b.stmts, ∀ v ∈ i.defs, v ∈ unknown → Blind unknown i
  onward : ∀ b ∈ g.blocks, b.id ∈ g.order → g.LeadsToLoop b.id → ∀ k i, b.stmts[k]? = some i →
    Blind unknown i ∨ ∀ v ∈ foldedNames i, v ∉ unknown →
      AssignedSomehow g initial b k v → AssignedOnward g initial b k v

/-- No name has the value that stands for nothing. -/
def Full (fact : KnownValues) : Prop := ∀ v value, fact.get? v = some value → value ≠ .bottom

/-- What the facts in front of statement number `k` of a block may say: names that have a value or
are unknown have been assigned, and the names that never get a value have none. -/
structure Within (g : Graph Instr) (initial : KnownValues) (unknown : List Var) (b : Block Instr)
    (k : Nat) (fact : KnownValues) : Prop where
  assigned : ∀ v value, fact.get? v = some value → AssignedSomehow g initial b k v
  full : Full fact
  blank : ∀ v value, fact.get? v = some value → v ∈ unknown → ∀ n, value ≠ .value n

/-- What the facts in front of statement number `k` of a block say at least, once the blocks before
it in the order have been visited. -/
def Covers (g : Graph Instr) (initial : KnownValues) (b : Block Instr) (k : Nat)
    (fact : KnownValues) : Prop :=
  ∀ v, AssignedOnward g initial b k v → fact.has v = true

section Steady

variable (hsteady : Steady g env initial unknown)
include hsteady

/-- The names that never get a value are unknown. -/
lemma Within.constEnv_eq_none (h : Within g initial unknown b k fact) {v : Var} (hv : v ∈ unknown) :
    constEnv env fact v = none := by
  rw [constEnv]
  cases hget : fact.get? v with
  | none => exact (hsteady.start v hv).1
  | some value =>
    cases value with
    | bottom => rfl
    | value n => exact absurd rfl (h.blank v _ hget hv n)
    | top => rfl

/-- An instruction leads from facts within their bounds to such facts. -/
lemma Within.transfer (hb : b ∈ g.blocks) (hi : b.stmts[k]? = some i)
    (h : Within g initial unknown b k fact) :
    Within g initial unknown b (k + 1) (transferConst env i fact) := by
  refine ⟨fun v value hget => ?_, fun v value hget => ?_, fun v value hget hv n => ?_⟩
  all_goals rw [get?_transferConst] at hget; split_ifs at hget with hdef
  · exact .here hb hi hdef
  · exact .kept (h.assigned v value hget) hi
  · obtain rfl := Option.some.inj hget
    exact foldedFact_ne_bottom i _
  · exact h.full v value hget
  · obtain rfl := Option.some.inj hget
    have hnone := hsteady.blind b hb i (List.mem_of_getElem? hi) v hdef hv (constEnv env fact)
      fun w hw => h.constEnv_eq_none hsteady hw
    simp [foldedFact, hnone]
  · exact h.blank v value hget hv n

omit hsteady in
lemma Covers.transfer (hi : b.stmts[k]? = some i)
    (h : Covers g initial b k fact) : Covers g initial b (k + 1) (transferConst env i fact) := by
  intro v hv
  rw [Table.has, get?_transferConst]
  split_ifs with hdef
  · rfl
  · cases hv with
    | here hb hi' hdef' =>
      obtain rfl := Option.some.inj (hi.symm.trans hi')
      exact absurd hdef' hdef
    | kept hv _ => exact h v hv

/-- Behind facts that say no less, an instruction makes known no less. -/
lemma foldedFact_leq (hb : b ∈ g.blocks) (hord : b.id ∈ g.order) (hloop : g.LeadsToLoop b.id)
    (hi : b.stmts[k]? = some i) (hx : Within g initial unknown b k x)
    (hy : Within g initial unknown b k y) (hcovers : Covers g initial b k x)
    (hle : leqTables (flat Nat) x y = true) :
    (flat Nat).leq (foldedFact i (constEnv env x)) (foldedFact i (constEnv env y)) = true := by
  rcases hsteady.onward b hb hord hloop k i hi with hblind | hnames
  · have hnone : ∀ {fact}, Within g initial unknown b k fact → foldedValue? i
      (constEnv env fact) = none := fun h => hblind _ fun v hv => h.constEnv_eq_none hsteady hv
    rw [foldedFact, foldedFact, hnone hx, hnone hy]
    rfl
  cases hvalue : foldedValue? i (constEnv env y) with
  | none =>
    have htop : foldedFact i (constEnv env y) = .top := by rw [foldedFact, hvalue]; rfl
    rw [htop]
    cases foldedFact i (constEnv env x) <;> rfl
  | some n =>
    have hsame : foldedValue? i (constEnv env x) = some n := by
      refine foldedValue?_mono (fun v hv m hm => ?_) hvalue
      by_cases hunknown : v ∈ unknown
      · rw [hy.constEnv_eq_none hsteady hunknown] at hm
        contradiction
      cases hxv : x.get? v with
      | some a =>
        obtain ⟨c, hyv, hac⟩ := leqTables_iff.mp hle v a hxv
        obtain rfl : c = .value m := by
          cases c <;> simp_all [constEnv, Flat.value?]
        rcases flat_leq_value_iff.mp hac with rfl | rfl
        · exact absurd rfl (hx.full v _ hxv)
        · simp [constEnv, hxv, Flat.value?]
      | none =>
        -- the name is assigned on no way that never leads back, and so on none at all
        have hyv : y.get? v = none := by
          cases hyv : y.get? v with
          | none => rfl
          | some c =>
            have honward := hcovers v (hnames v hv hunknown (hy.assigned v c hyv))
            simp [Table.has, hxv] at honward
        simpa [constEnv, hxv, hyv] using hm
    rw [foldedFact, foldedFact, hvalue, hsame]
    exact (flat_lawful Nat).leq_refl _

end Steady

/-- Two facts in front of a statement, of which the second says no less than the first. -/
structure Ascends (g : Graph Instr) (initial : KnownValues) (unknown : List Var) (b : Block Instr)
    (k : Nat) (x y : KnownValues) : Prop where
  low : Within g initial unknown b k x
  high : Within g initial unknown b k y
  covers : Covers g initial b k x
  leq : leqTables (flat Nat) x y = true

section Steady

variable (hsteady : Steady g env initial unknown)
include hsteady

lemma Ascends.transfer (hb : b ∈ g.blocks) (hord : b.id ∈ g.order) (hloop : g.LeadsToLoop b.id)
    (hi : b.stmts[k]? = some i) (h : Ascends g initial unknown b k x y) :
    Ascends g initial unknown b (k + 1) (transferConst env i x) (transferConst env i y) where
  low := h.low.transfer hsteady hb hi
  high := h.high.transfer hsteady hb hi
  covers := h.covers.transfer hi
  leq := by
    refine leqTables_iff.mpr fun v value hget => ?_
    rw [get?_transferConst] at hget ⊢
    split_ifs at hget ⊢ with hdef
    · obtain rfl := Option.some.inj hget
      exact ⟨_, rfl, foldedFact_leq hsteady hb hord hloop hi h.low h.high h.covers h.leq⟩
    · exact leqTables_iff.mp h.leq v value hget

/-- A block leads from facts that ascend to such facts. -/
lemma Ascends.across (hb : b ∈ g.blocks) (hord : b.id ∈ g.order) (hloop : g.LeadsToLoop b.id)
    (h : Ascends g initial unknown b 0 x y) (limit : Int) :
    Ascends g initial unknown b b.stmts.length ((constants env limit).acrossBlock b x)
      ((constants env limit).acrossBlock b y) := by
  have hsteps : ∀ k ≤ b.stmts.length, Ascends g initial unknown b k
      ((b.stmts.take k).foldl (fun fact i => transferConst env i fact) x)
      ((b.stmts.take k).foldl (fun fact i => transferConst env i fact) y) := by
    intro k hk
    induction k with
    | zero => exact h
    | succ k ih =>
      have hi := List.getElem?_eq_getElem (Nat.lt_of_succ_le hk)
      rw [List.take_add_one, hi, List.foldl_append, List.foldl_append]
      exact (ih (Nat.le_of_succ_le hk)).transfer hsteady hb hord hloop hi
  have hall := hsteps b.stmts.length (Nat.le_refl _)
  rwa [List.take_length] at hall

end Steady

/-! ### Gathering -/

/-- Nothing is within all bounds. -/
lemma within_empty (b : Block Instr) (k : Nat) : Within g initial unknown b k .empty where
  assigned := nofun
  full := nofun
  blank := nofun

/-- What holds of the values in two facts, and of the join of any two values of which it holds,
holds of the values in the join of the facts. -/
lemma forall_get?_joinTables {P : Var → Flat Nat → Prop} (hjoin : ∀ v c d, P v c → P v d →
    P v (c.join d))
    (hx : ∀ v a, x.get? v = some a → P v a) (hy : ∀ v a, y.get? v = some a → P v a) :
    ∀ v a, (joinTables (flat Nat) x y).get? v = some a → P v a := by
  intro v a hget
  rw [get?_joinTables, joinedValue?] at hget
  split at hget
  · next c d hc hd =>
    obtain rfl := Option.some.inj hget
    exact hjoin v c d (hx v c hc) (hy v d hd)
  · next c hc _ => exact hx v a (hc.trans hget)
  · exact hy v a hget

lemma Within.join (hx : Within g initial unknown b k x) (hy : Within g initial unknown b k y) :
    Within g initial unknown b k (joinTables (flat Nat) x y) where
  assigned := forall_get?_joinTables (fun _ _ _ h _ => h) hx.assigned hy.assigned
  full := forall_get?_joinTables (fun _ _ _ => join_ne_bottom) hx.full hy.full
  blank := forall_get?_joinTables
    (fun _ c d hc hd hv n => by cases c <;> cases d <;> grind [Flat.join])
    hx.blank hy.blank

/-- What is within its bounds at the end of a block is so at the start of its successors. -/
lemma Within.next {a : Block Instr} (h : Within g initial unknown a a.stmts.length fact)
    (hb : b ∈ g.blocks) (hord : a.id ∈ g.order) (hsucc : b.id ∈ a.succs) :
    Within g initial unknown b 0 fact :=
  ⟨fun v value hget => .next (h.assigned v value hget) hb hord hsucc trivial, h.full, h.blank⟩

lemma Assigned.mem_blocks {along : BlockId → BlockId → Prop} {v : Var}
    (h : Assigned g initial along b k v) : b ∈ g.blocks := by
  induction h with
  | initially hb _ _ => exact hb
  | here hb _ _ => exact hb
  | kept _ _ ih => exact ih
  | next _ hb _ _ _ _ => exact hb

/-! ### One visit -/

/-- A block that control can get to and that leads to a loop. -/
structure Looping (g : Graph Instr) (b : Block Instr) : Prop where
  mem : b ∈ g.blocks
  ord : b.id ∈ g.order
  loop : g.LeadsToLoop b.id

/-- So is every block that leads to one. -/
lemma Looping.pred {a : Block Instr} (hb : Looping g b) (ha : a ∈ g.blocks) (hord : a.id ∈ g.order)
    (hsucc : b.id ∈ a.succs) : Looping g a :=
  ⟨ha, hord, hb.loop.of_next (Graph.mem_nexts.mpr
    ⟨a, Graph.block?_of_mem ha, hsucc, Graph.has_of_block? (Graph.block?_of_mem hb.mem)⟩)⟩

/-- The facts behind the first `n` visits: nothing has flowed out of the blocks that have not been
visited yet, and what flows out of blocks that lead to a loop is within its bounds. -/
structure Confined (g : Graph Instr) (initial : KnownValues) (unknown : List Var) (n : Nat)
    (out : Table BlockId KnownValues) : Prop where
  untouched : ∀ id fact, out.get? id = some fact → (id ∈ g.order → n ≤ g.order.idxOf id) →
    fact = .empty
  within : ∀ b, Looping g b → ∀ fact, out.get? b.id = some fact →
    Within g initial unknown b b.stmts.length fact

section Visit

variable {limit : Int} {n : Nat} {out : Table BlockId KnownValues}

lemma gathered_entry (hid : b.id = g.entry) (out : Table BlockId KnownValues) :
    (constants env limit).gathered g initial out b = initial := if_pos hid

lemma gathered_of_ne (hid : b.id ≠ g.entry) (out : Table BlockId KnownValues) :
    (constants env limit).gathered g initial out b =
      (constants env limit).joinOver out .empty b.preds := if_neg hid

lemma Confined.factAt_eq_empty (h : Confined g initial unknown n out) {id : BlockId}
    (hid : id ∈ g.order → n ≤ g.order.idxOf id) :
    (constants env limit).factAt out id = .empty := by
  rw [Problem.factAt]
  cases hget : out.get? id with
  | none => rfl
  | some fact => exact h.untouched id fact hget hid

/-- A block gathers facts within its bounds. -/
lemma Confined.gathered (hg : g.UpToDate) (hsteady : Steady g env initial unknown)
    (hfull : Full initial) (h : Confined g initial unknown n out) (hb : Looping g b) :
    Within g initial unknown b 0 ((constants env limit).gathered g initial out b) := by
  by_cases hid : b.id = g.entry
  · rw [gathered_entry hid]
    refine ⟨fun v value hget => .initially hb.mem hid ?_, hfull, fun v value hget hv n heq => ?_⟩
    · rw [Table.has, hget, Option.isSome_some]
    · exact (hsteady.start v hv).2 n (heq ▸ hget)
  · rw [gathered_of_ne hid, Problem.joinOver]
    refine List.foldlRecOn b.preds _ (motive := Within g initial unknown b 0) (within_empty b 0) ?_
    intro acc hacc id hpred
    cases hget : out.get? id with
    | none => exact hacc
    | some fact =>
      refine hacc.join ?_
      obtain ⟨a, ha, hsucc⟩ := (hg.mem_preds hb.mem).mp hpred
      obtain ⟨hmem, rfl⟩ := Graph.block?_eq_some_iff.mp ha
      by_cases hord : a.id ∈ g.order
      · exact (h.within a (hb.pred hmem hord hsucc) fact hget).next hb.mem hord hsucc
      · rw [h.untouched a.id fact hget fun hmem => absurd hmem hord]
        exact within_empty b 0

end Visit

/-- The states of a run behind the first `n` visits. The blocks that have not been visited yet wait
in order. Of the blocks that lead to a loop, those that have been visited say at least what they
have to, and every one makes of what it gathers at least what flows out of it. -/
structure Climbs (g : Graph Instr) (env : Env) (initial : KnownValues) (unknown : List Var)
    (n : Nat) (s : State KnownValues) : Prop extends Confined g initial unknown n s.exit where
  waiting : ∃ rest, s.queue = g.order.drop n ++ rest
  covers : ∀ b, Looping g b → g.order.idxOf b.id < n → ∀ fact, s.exit.get? b.id = some fact →
    Covers g initial b b.stmts.length fact
  rising : ∀ b, Looping g b → leqTables (flat Nat) ((constants env 0).factAt s.exit b.id)
    ((constants env 0).acrossBlock b ((constants env 0).gathered g initial s.exit b)) = true

lemma constants_lawful (env : Env) (limit : Int) : (constants env limit).lattice.Lawful :=
  (pointwise_byOrder Var (flat_byOrder Nat)).lawful

section Climb

/-- What a block makes of what it gathers from the facts that flow out of blocks. -/
abbrev outcome (env : Env) (g : Graph Instr) (initial : KnownValues)
    (out : Table BlockId KnownValues) (b : Block Instr) : KnownValues :=
  (constants env 0).acrossBlock b ((constants env 0).gathered g initial out b)

variable (hg : g.UpToDate) (hroot : ∀ b ∈ g.blocks, g.entry ∉ b.succs)
  (hsteady : Steady g env initial unknown) (hfull : Full initial)
variable {s t : State KnownValues} {n : Nat} (h : Climbs g env initial unknown n s)
  (hrun : (constants env 0).OnRun g initial s) {queue : List BlockId}

include hg hroot h hrun in
/-- A block gathers what it has to once the blocks before it in the order have been visited. -/
lemma Climbs.gathered_covers (hb : Looping g b) (hn : g.order.idxOf b.id ≤ n) :
    Covers g initial b 0 ((constants env 0).gathered g initial s.exit b) := by
  intro v hv
  cases hv with
  | initially _ hid hv =>
    rw [gathered_entry hid]
    exact hv
  | @next a _ _ hassigned _ hord hsucc honward =>
    have ha := hassigned.mem_blocks
    have hid : b.id ≠ g.entry := fun hid => hroot a ha (hid ▸ hsucc)
    have hhas : s.exit.has a.id = true := by
      have := hrun.invariant.outflow_has a.id
      rwa [Graph.has_of_block? (Graph.block?_of_mem ha)] at this
    obtain ⟨fact, hfact⟩ := Option.isSome_iff_exists.mp hhas
    have hcovers :=
      h.covers a (hb.pred ha hord hsucc) (Nat.lt_of_lt_of_le honward hn) fact hfact v hassigned
    obtain ⟨value, hvalue⟩ := Option.isSome_iff_exists.mp hcovers
    have hpred : a.id ∈ b.preds := (hg.mem_preds hb.mem).mpr ⟨a, Graph.block?_of_mem ha, hsucc⟩
    have hle := Problem.leq_joinOver (constants_lawful env 0) hfact hpred .empty
    obtain ⟨value', hvalue', -⟩ := leqTables_iff.mp hle v value hvalue
    rw [gathered_of_ne hid, Table.has, hvalue']
    rfl

include hg h in
/-- The block that is visited next is the next one of the order, or they have all been visited. -/
lemma Climbs.head {id : BlockId} (hord : id ∈ g.order) (hq : s.queue = id :: queue) :
    g.order.idxOf id ≤ n ∧ (∀ other ∈ g.order, g.order.idxOf other ≤ n → other ≠ id →
      g.order.idxOf other < n) ∧ ∃ rest, queue = g.order.drop (n + 1) ++ rest := by
  obtain ⟨rest, hrest⟩ := h.waiting
  rw [hq] at hrest
  rcases Nat.lt_or_ge n g.order.length with hn | hn
  · rw [List.drop_eq_getElem_cons hn, List.cons_append] at hrest
    obtain ⟨rfl, hqueue⟩ := List.cons.inj hrest
    have hidx : g.order.idxOf g.order[n] = n := hg.nodup_order.idxOf_getElem n hn
    refine ⟨hidx.le, fun other hother hle hne => Nat.lt_of_le_of_ne hle fun heq => hne ?_,
      rest, hqueue⟩
    exact (List.idxOf_inj hother).mp (heq.trans hidx.symm)
  · have hlt : ∀ other ∈ g.order, g.order.idxOf other < n := fun other hother =>
      (List.idxOf_lt_length_of_mem hother).trans_le hn
    refine ⟨(hlt id hord).le, fun other hother _ _ => hlt other hother, queue, ?_⟩
    rw [List.drop_eq_nil_of_le (Nat.le_succ_of_le hn), List.nil_append]

include h in
/-- When no block waits, all have been visited. -/
lemma Climbs.stay (hq : s.queue = []) : Climbs g env initial unknown (n + 1) s := by
  obtain ⟨rest, hrest⟩ := h.waiting
  rw [hq, eq_comm, List.append_eq_nil_iff, List.drop_eq_nil_iff] at hrest
  refine ⟨⟨fun id fact hget hid => h.untouched id fact hget fun hord => Nat.le_of_succ_le
    (hid hord), h.within⟩,
    ⟨[], ?_⟩, fun b hb _ => h.covers b hb ((List.idxOf_lt_length_of_mem hb.ord).trans_le hrest.1),
      h.rising⟩
  rw [hq, List.drop_eq_nil_of_le (Nat.le_succ_of_le hrest.1), List.nil_append]

/-- A fact that equals one that says what it has to says it as well. -/
lemma Covers.of_equal (h : Covers g initial b k x) (heq : equalTables (flat Nat) x y = true) :
    Covers g initial b k y := by
  intro v hv
  obtain ⟨hnone, -⟩ | ⟨_, _, -, hy, -⟩ := equalTables_iff.mp heq v
  · have hx := h v hv
    rw [Table.has, hnone] at hx
    contradiction
  · rw [Table.has, hy]
    rfl

include hg hroot hsteady hfull

section Step

include h hrun

/-- What blocks make of what they gather ascends when what flows out of blocks does. -/
lemma Climbs.ascends {m : Nat} {out : Table BlockId KnownValues}
    (hout : Confined g initial unknown m out) (hrise : ∀ id fact, s.exit.get? id = some fact →
      ∃ fact', out.get? id = some fact' ∧ leqTables (flat Nat) fact fact' = true)
    (hb : Looping g b) (hn : g.order.idxOf b.id ≤ n) :
    Ascends g initial unknown b b.stmts.length (outcome env g initial s.exit b)
      (outcome env g initial out b) :=
  Ascends.across hsteady hb.mem hb.ord hb.loop
    ⟨h.toConfined.gathered hg hsteady hfull hb, hout.gathered hg hsteady hfull hb,
      h.gathered_covers hg hroot hrun hb hn,
      Problem.gathered_mono (constants_lawful env 0) b hrise⟩ 0

lemma Climbs.ascends_self (hb : Looping g b) (hn : g.order.idxOf b.id ≤ n) :
    Ascends g initial unknown b b.stmts.length (outcome env g initial s.exit b)
      (outcome env g initial s.exit b) :=
  h.ascends hg hroot hsteady hfull hrun h.toConfined
    (fun _ fact hget => ⟨fact, hget, (constants_lawful env 0).leq_refl fact⟩) hb hn

/-- A visit that changes nothing keeps the facts climbing. -/
lemma Climbs.next_of_equal (hb : b ∈ g.blocks) (hord : b.id ∈ g.order)
    (hq : s.queue = b.id :: queue) (hequal : equalTables (flat Nat) (outcome env g initial s.exit b)
      ((constants env 0).factAt s.exit b.id) = true)
    (hexit : t.exit = s.exit) (hqueue : t.queue = queue) :
    Climbs g env initial unknown (n + 1) t := by
  obtain ⟨hidx, hbefore, hwaiting⟩ := h.head hg hord hq
  refine ⟨⟨fun id fact hget hid => ?_, ?_⟩, hqueue ▸ hwaiting, fun c hc hn fact hget => ?_, ?_⟩
  · exact h.untouched id fact (hexit ▸ hget) fun hord => Nat.le_of_succ_le (hid hord)
  · exact hexit ▸ h.within
  · rw [hexit] at hget
    by_cases hid : c.id = b.id
    · obtain rfl := Graph.eq_of_id_eq hc.mem hb hid
      rw [Problem.factAt, hget, Option.getD_some] at hequal
      exact (h.ascends_self hg hroot hsteady hfull hrun hc hidx).covers.of_equal hequal
    · exact h.covers c hc (hbefore c.id hc.ord (Nat.le_of_lt_succ hn) hid) fact hget
  · exact hexit ▸ h.rising

/-- The facts stay within their bounds when the block that is visited next lets something else flow
out. -/
lemma Climbs.confined_set (hb : b ∈ g.blocks) (hord : b.id ∈ g.order)
    (hidx : g.order.idxOf b.id ≤ n) :
    Confined g initial unknown (n + 1)
      (s.exit.set b.id (outcome env g initial s.exit b)) := by
  refine ⟨fun id fact hget hid => ?_, fun c hc fact hget => ?_⟩
  · by_cases heq : id = b.id
    · subst heq
      exact absurd (hid hord) (Nat.not_le_of_lt (Nat.lt_succ_of_le hidx))
    · rw [Table.get?_set_ne _ _ heq] at hget
      exact h.untouched id fact hget fun hord => Nat.le_of_succ_le (hid hord)
  · by_cases heq : c.id = b.id
    · obtain rfl := Graph.eq_of_id_eq hc.mem hb heq
      obtain rfl := Option.some.inj ((Table.get?_set_self ..).symm.trans hget)
      exact (h.ascends_self hg hroot hsteady hfull hrun hc hidx).low
    · rw [Table.get?_set_ne _ _ heq] at hget
      exact h.within c hc fact hget

/-- Then every block makes of what it gathers at least what flows out of it. -/
lemma Climbs.rising_set (hb : b ∈ g.blocks) (hord : b.id ∈ g.order)
    (hidx : g.order.idxOf b.id ≤ n) {exit : Table BlockId KnownValues}
    (hexit : exit = s.exit.set b.id (outcome env g initial s.exit b))
    {c : Block Instr} (hc : Looping g c) :
    leqTables (flat Nat) ((constants env 0).factAt exit c.id) (outcome env g initial exit c) =
      true := by
  have hconfined : Confined g initial unknown (n + 1) exit :=
    hexit ▸ h.confined_set hg hroot hsteady hfull hrun hb hord hidx
  set out := outcome env g initial s.exit b
  have hget_ne : ∀ {id}, id ≠ b.id → exit.get? id = s.exit.get? id := fun hid => by
    rw [hexit, Table.get?_set_ne _ _ hid]
  have hget_self : exit.get? b.id = some out := by
    rw [hexit, Table.get?_set_self]
  by_cases hloop : Looping g b
  · -- what flows out of the block rises, and so does what the others make of it
    have hrise : ∀ id fact, s.exit.get? id = some fact →
        ∃ fact', exit.get? id = some fact' ∧ leqTables (flat Nat) fact fact' = true := by
      intro id fact hget
      by_cases heq : id = b.id
      · have hup := h.rising b hloop
        rw [Problem.factAt, ← heq, hget, Option.getD_some] at hup
        exact ⟨out, heq ▸ hget_self, hup⟩
      · exact ⟨fact, (hget_ne heq).trans hget, (constants_lawful env 0).leq_refl fact⟩
    by_cases hvisited : g.order.idxOf c.id ≤ n
    · have hascends := h.ascends hg hroot hsteady hfull hrun hconfined hrise hc hvisited
      by_cases heq : c.id = b.id
      · obtain rfl := Graph.eq_of_id_eq hc.mem hb heq
        rw [Problem.factAt, hget_self, Option.getD_some]
        exact hascends.leq
      · rw [Problem.factAt, hget_ne heq, ← Problem.factAt]
        exact (constants_lawful env 0).leq_trans (h.rising c hc) hascends.leq
    · rw [hconfined.factAt_eq_empty fun _ => Nat.lt_of_not_le hvisited]
      rfl
  · -- no block that leads to a loop gathers from it
    have heq : c.id ≠ b.id := fun heq => hloop (Graph.eq_of_id_eq hc.mem hb heq ▸ hc)
    have hdep : c.id ∉ (constants env 0).dependents g b := fun hmem =>
      hloop (hc.pred hb hord (List.mem_filter.mp hmem).1)
    rw [Problem.factAt, hget_ne heq, ← Problem.factAt, hexit, outcome,
      Problem.gathered_set hg hb hc.mem hdep]
    exact h.rising c hc

/-- A visit that replaces what flows out of a block keeps the facts climbing. -/
lemma Climbs.next_of_set (hb : b ∈ g.blocks) (hord : b.id ∈ g.order) {more : List BlockId}
    (hq : s.queue = b.id :: queue)
    (hexit : t.exit = s.exit.set b.id (outcome env g initial s.exit b))
    (hqueue : t.queue = queue ++ more) : Climbs g env initial unknown (n + 1) t := by
  obtain ⟨hidx, hbefore, rest, hwaiting⟩ := h.head hg hord hq
  refine ⟨hexit ▸ h.confined_set hg hroot hsteady hfull hrun hb hord hidx, ⟨rest ++ more, ?_⟩,
    fun c hc hn fact hget => ?_, fun c hc => h.rising_set hg hroot hsteady hfull hrun hb hord
      hidx hexit hc⟩
  · rw [hqueue, hwaiting, List.append_assoc]
  · rw [hexit] at hget
    by_cases heq : c.id = b.id
    · obtain rfl := Graph.eq_of_id_eq hc.mem hb heq
      obtain rfl := Option.some.inj ((Table.get?_set_self ..).symm.trans hget)
      exact (h.ascends_self hg hroot hsteady hfull hrun hc hidx).covers
    · rw [Table.get?_set_ne _ _ heq] at hget
      exact h.covers c hc (hbefore c.id hc.ord (Nat.le_of_lt_succ hn) heq) fact hget

/-- **A visit keeps the facts climbing.** -/
lemma Climbs.next :
    Climbs g env initial unknown (n + 1) ((constants env 0).next g initial s) := by
  obtain hq | ⟨b, hb, hord, queue, hq, hvisited⟩ := hrun.next_cases hg
  · rw [Problem.next_of_nil hq]
    exact h.stay hq
  obtain ⟨hequal, hexit, hqueue⟩ | ⟨-, hexit, hqueue⟩ := hvisited.outflow
  · exact h.next_of_equal hg hroot hsteady hfull hrun hb hord hq hequal hexit hqueue
  · obtain ⟨more, hmore⟩ := exists_pushAll_eq queue ((constants env 0).dependents g b)
    exact h.next_of_set hg hroot hsteady hfull hrun hb hord hq hexit (hqueue.trans hmore)

end Step

omit hroot hsteady hfull in
/-- At the start all blocks of the order wait, and nothing has flowed out of any. -/
lemma climbs_start (hentry : g.has g.entry = true) :
    Climbs g env initial unknown 0 ((constants env 0).start g initial) := by
  have hempty : ∀ {id fact}, ((constants env 0).start g initial).exit.get? id = some fact →
    fact = .empty :=
    fun hget => @Problem.eq_bottom_of_outflow_start _ _ (constants env 0) g initial _ _ hget
  have hfirst : firstVisits g = g.order := by
    rw [firstVisits, if_neg]
    simpa using List.ne_nil_of_mem (hg.mem_order ⟨hentry, .refl⟩)
  have hqueue : ((constants env 0).start g initial).queue = pushAll [] (firstVisits g) := rfl
  have hconfined : Confined g initial unknown 0 ((constants env 0).start g initial).exit :=
    ⟨fun id fact hget _ => hempty hget, fun b _ fact hget => hempty hget ▸ within_empty b _⟩
  refine ⟨hconfined, ⟨[], ?_⟩, fun _ _ hn => absurd hn (Nat.not_lt_zero _), fun b _ => ?_⟩
  · rw [hqueue, hfirst, @pushAll_of_nodup [] _ hg.nodup_order, List.nil_append, List.drop_zero,
      List.append_nil]
  · rw [hconfined.factAt_eq_empty fun _ => Nat.zero_le _]
    rfl

lemma climbs_stateAt (hentry : g.has g.entry = true) (n : Nat) :
    Climbs g env initial unknown n ((constants env 0).stateAt g initial n) := by
  induction n with
  | zero => exact climbs_start hg hentry
  | succ n ih =>
    rw [Problem.stateAt_succ]
    exact ih.next hg hroot hsteady hfull (Problem.onRun_stateAt initial hg equal_self rfl hentry n)

end Climb

/-! ### The whole run -/

/-- **In a steady function the facts of the blocks that lead to a loop never fall.** -/
theorem not_fallsAt_of_steady (hg : g.UpToDate) (hentry : g.has g.entry = true)
    (hroot : ∀ b ∈ g.blocks, g.entry ∉ b.succs) (hsteady : Steady g env initial unknown)
    (hfull : Full initial) (n : Nat) (hb : b ∈ g.blocks) (hloop : g.LeadsToLoop b.id) :
    ¬ (constants env 0).FallsAt g initial n b.id := by
  obtain hsame | ⟨hord, -, hget⟩ :=
    Problem.outflowAt_succ (p := constants env 0) initial hg equal_self rfl hentry hb n
  · exact Problem.not_fallsAt_of_same (constants_lawful env 0) hsame
  · rintro ⟨x, y, hx, hy, hleq⟩
    have hrising := (climbs_stateAt hg hroot hsteady hfull hentry n).rising b ⟨hb, hord, hloop⟩
    obtain rfl := Option.some.inj (hy.symm.trans hget)
    have hfact : (constants env 0).factAt ((constants env 0).stateAt g initial n).exit b.id = x :=
      congrArg (Option.getD · _) hx
    rw [hfact] at hrising
    exact absurd (hleq.symm.trans hrising) nofun

end ContractAudit.Analysis
