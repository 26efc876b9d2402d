import ContractAudit.Analysis.Facts
import ContractAudit.Proofs.Fixpoint.Equations
import ContractAudit.Proofs.Fixpoint.Replay
import ContractAudit.Proofs.Flow.Entry
import ContractAudit.Proofs.Flow.Path
import ContractAudit.Proofs.Source.Folding

/-!
When constant propagation is right.

A name that the facts say nothing about is not the same as one they say nothing can be known about:
at a join it leaves the value that another path gave. So a name may be given a value on a path that
never assigned it, and that value is right only if the name happens to start with it.

* `After`: the stores that may hold behind given instructions. The path is fixed, and every
  instruction may store whatever it could.
* `RightAlong`: along a path, the names with known values have these values in every such store.
* `Settles`: where a name was last defined decides its value. A name that no instruction of a path
  defines has to start with the value in question.
* `rightAlong_iff_settledAlong`: the facts are right along a path exactly when every name with a
  known value is settled on it.
* `not_rightAlong_around_assignment`: a path around an assignment along which they are wrong.

What carries the proof is `Tracks`: what the facts say about a name leaves its value possible. An
instruction that defines the name makes it so, and joins keep it.
-/

namespace ContractAudit.Analysis

open Source ContractAudit.Flow Domain Fixpoint

/-! ### Executions with values -/

/-- The words that the names hold at some moment. -/
abbrev Store := Var → Nat

/-- In a store every name has a value. -/
def Store.env (s : Store) : Env := fun v => some (s v)

/-- The expression whose value an instruction stores. Only a condition is sure to store one, and an
assignment, declaration or step that wholly defines one name and calls nothing. -/
def storedExpr? (i : Instr) : Option Expr :=
  match i.defs with
  | [target] =>
    if i.op = .cond ∨ (i.isPartial = false ∧ i.external = [] ∧ i.calls = []) then
      storedValue? i target
    else none
  | _ => none

/-- A name with the value `value?` may hold `n`: that value, or any word if there is none. -/
def Admits (value? : Option Nat) (n : Nat) : Prop :=
  match value? with
  | some m => n = m
  | none => n < wordCount

/-- Executing `i` in the store `s` may lead to the store `s'`. A value that cannot be computed may
be any word. -/
structure Executes (i : Instr) (s s' : Store) : Prop where
  stores : ∀ v ∈ i.defs, Admits ((storedExpr? i).bind (constantValue? · s.env)) (s' v)
  keeps : ∀ v, v ∉ i.defs → s' v = s v

/-- The value that a name has at the start of a function, if only one is possible. Named return
values start at zero, parameters and state variables at anything, and constants at their value. -/
def startValue? (f : LoweredFunction) (types : TypeIndex) (v : Var) : Option Nat :=
  if f.function.namedReturns.contains v then some 0
  else if f.params.contains v then none
  else if ((types.symbols.lineage f.contract.name).findSome? (·.stateVar? v)).any
    (!·.isConstant) then
    none
  else types.env f.contract.name v

/-- The stores that may hold behind the instructions `past` of a function, the last one first. -/
def After (f : LoweredFunction) (types : TypeIndex) : List Instr → Store → Prop
  | [], s => ∀ v, Admits (startValue? f types v) (s v)
  | i :: past, s' => ∃ s, After f types past s ∧ Executes i s s'

/-- The last of the instructions that defines a name. -/
def lastDefinition? (past : List Instr) (v : Var) : Option Instr :=
  past.find? (·.defs.contains v)

lemma lastDefinition?_cons (i : Instr) (past : List Instr) (v : Var) :
    lastDefinition? (i :: past) v = if v ∈ i.defs then some i else lastDefinition? past v := by
  by_cases hv : v ∈ i.defs <;> simp [lastDefinition?, hv]

/-- The instructions of a path, the last one first. -/
def executed (past : List (Graph.Place Instr)) : List Instr := past.map (·.2.2)

/-! ### Being right, and being settled -/

section Statements

variable (f : LoweredFunction) (types : TypeIndex) (limit : Int)

/-- Along a path, whatever words the instructions store: the names to which
`FlowFacts.constantsBefore` gives values in front of an instruction have these values there, and a
condition that folds has the value it folds to. -/
def RightAlong (past : List (Graph.Place Instr)) : Prop :=
  let facts := FlowFacts.solve f types limit
  ∀ b k i before fact s, (b, k, i) :: before <:+ past →
    (b, k, i, fact) ∈ (constants facts.env limit).walk f.graph facts.constants →
    After f types (executed before) s →
      (∀ v n, constEnv facts.env fact v = some n → s v = n) ∧
      (i.op = .cond → ∀ n, constantValue? i.value (constEnv facts.env fact) = some n →
        constantValue? i.value s.env = some n)

/-- Where `v` was last defined decides its value: a condition or an instruction that calls nothing
did it, or no instruction of `past` did, and `v` starts with `n`. -/
def Settles (past : List Instr) (v : Var) (n : Nat) : Prop :=
  match lastDefinition? past v with
  | some i => i.op = .cond ∨ i.calls = []
  | none => startValue? f types v = some n

/-- Along a path, every name with a known value in front of an instruction is settled. -/
def SettledAlong (past : List (Graph.Place Instr)) : Prop :=
  let facts := FlowFacts.solve f types limit
  ∀ b k i before fact v n, (b, k, i) :: before <:+ past →
    (b, k, i, fact) ∈ (constants facts.env limit).walk f.graph facts.constants →
    constEnv facts.env fact v = some n → Settles f types (executed before) v n

variable {f types limit} in
/-- What is settled along a path is settled along its beginning. -/
lemma SettledAlong.of_suffix {past before : List (Graph.Place Instr)}
    (h : SettledAlong f types limit past) (hsuffix : before <:+ past) :
    SettledAlong f types limit before :=
  fun b k i earlier fact v n hbefore => h b k i earlier fact v n (hbefore.trans hsuffix)

end Statements

/-! ### What the facts say about one name -/

/-- What a fact says about `v` leaves `n` possible. -/
def Tracks (fact : KnownValues) (v : Var) (n : Nat) : Prop :=
  ∃ value, fact.get? v = some value ∧ (value = .top ∨ value = .value n)

variable {env : Env} {fact : KnownValues} {v : Var} {n : Nat} {i : Instr} {f : LoweredFunction}

lemma Tracks.eq_of_known {m : Nat} (h : Tracks fact v m) (hknown : constEnv env fact v = some n) :
    m = n := by
  obtain ⟨value, hget, rfl | rfl⟩ := h
  · simp [constEnv, hget, Flat.value?] at hknown
  · simpa [constEnv, hget, Flat.value?] using hknown

lemma Tracks.of_equal {a b : KnownValues} (h : Tracks a v n)
    (heq : equalTables (flat Nat) a b = true) : Tracks b v n := by
  obtain ⟨value, hget, hvalue⟩ := h
  obtain ⟨hnone, -⟩ | ⟨x, y, hx, hy, hxy⟩ := equalTables_iff.mp heq v
  · simp [hnone] at hget
  · have hsame : x = y := by simpa [flat] using hxy
    rw [hget, Option.some.injEq] at hx
    exact ⟨y, hy, hsame ▸ hx ▸ hvalue⟩

/-- A flat join is above both sides. -/
lemma leaves_join {x y : Flat Nat} (h : (x = .top ∨ x = .value n) ∨ y = .top ∨ y = .value n) :
    x.join y = .top ∨ x.join y = .value n := by
  cases x <;> cases y <;> grind [Flat.join]

/-- A join leaves possible what one side does: a name that the other side lacks keeps its value. -/
lemma Tracks.join {a b : KnownValues} (h : Tracks a v n ∨ Tracks b v n) :
    Tracks (joinTables (flat Nat) a b) v n := by
  rw [Tracks, get?_joinTables, joinedValue?]
  rcases h with ⟨x, hx, hvalue⟩ | ⟨y, hy, hvalue⟩
  · cases hb : b.get? v with
    | none => exact ⟨x, by rw [hx], hvalue⟩
    | some y => exact ⟨x.join y, by rw [hx]; rfl, leaves_join (.inl hvalue)⟩
  · cases ha : a.get? v with
    | none => exact ⟨y, hy, hvalue⟩
    | some x => exact ⟨x.join y, by rw [hy]; rfl, leaves_join (.inr hvalue)⟩

/-- The same for the join over the blocks that lead to a block. -/
lemma Tracks.joinOver {limit : Int} {out : Table BlockId KnownValues} {ids : List BlockId}
    {start : KnownValues}
    (h : Tracks start v n ∨ ∃ id ∈ ids, ∃ fact, out.get? id = some fact ∧ Tracks fact v n) :
    Tracks ((constants env limit).joinOver out start ids) v n := by
  rw [Problem.joinOver]
  induction ids generalizing start with
  | nil => simpa using h
  | cons x rest ih =>
    rw [List.foldl_cons]
    refine ih ?_
    rcases h with h | ⟨id, hid, fact, hfact, h⟩
    · left
      cases out.get? x with
      | none => exact h
      | some fact => exact Tracks.join (.inl h)
    · rcases List.mem_cons.mp hid with rfl | hid
      · left
        rw [hfact]
        exact Tracks.join (.inr h)
      · exact .inr ⟨id, hid, fact, hfact, h⟩

/-! ### One instruction -/

/-- The value that an instruction stores, as far as it can be folded where the given names are
known. -/
def foldedValue? (i : Instr) (known : Env) : Option Nat :=
  match i.defs with
  | [target] =>
    if i.isPartial || !i.external.isEmpty then none
    else (storedValue? i target).bind (constantValue? · known)
  | _ => none

/-- What is known behind an instruction about the names it defines. -/
def foldedFact (i : Instr) (known : Env) : Flat Nat :=
  ((foldedValue? i known).map Flat.value).getD .top

lemma get?_transferConst (env : Env) (i : Instr) (fact : KnownValues) (v : Var) :
    (transferConst env i fact).get? v =
      if v ∈ i.defs then some (foldedFact i (constEnv env fact)) else fact.get? v := by
  have hunknown : (i.defs.foldl (fun t v => t.set v Flat.top) fact).get? v =
      if v ∈ i.defs then some .top else fact.get? v := by
    by_cases hv : v ∈ i.defs <;> simp only [Table.get?_foldl_set, hv, if_true, if_false]
  rw [transferConst, foldedFact, foldedValue?]
  rcases hdefs : i.defs with _ | ⟨target, _ | ⟨_, _⟩⟩ <;> rw [hdefs] at hunknown
  · exact hunknown
  · simp only
    by_cases hwhole : (i.isPartial || !i.external.isEmpty) = true
    · simp only [if_pos hwhole]
      exact hunknown
    · simp only [if_neg hwhole]
      cases (storedValue? i target).bind (constantValue? · (constEnv env fact)) with
      | none => exact hunknown
      | some n =>
        rw [Table.get?_set, hunknown]
        by_cases hv : v = target <;> simp [hv]
  · exact hunknown

/-- An instruction that folds wholly defines one name, without an external call. -/
lemma exists_of_foldedValue? {known : Env} (hv : v ∈ i.defs) (h : foldedValue? i known = some n) :
    ∃ e, i.defs = [v] ∧ i.isPartial = false ∧ i.external = [] ∧ storedValue? i v = some e ∧
      constantValue? e known = some n := by
  rw [foldedValue?] at h
  split at h
  · next target hdefs =>
    obtain rfl : v = target := by simpa [hdefs] using hv
    split_ifs at h with hwhole
    obtain ⟨e, he, hn⟩ := Option.bind_eq_some_iff.mp h
    refine ⟨e, hdefs, ?_, ?_, he, hn⟩ <;> simp_all
  · cases h

/-- Where the known values are right, so is what is known behind an instruction about the names that
it defines. -/
lemma tracks_transferConst {s s' : Store} (hright : KnownIn (constEnv env fact) s.env)
    (hexec : Executes i s s') (hv : v ∈ i.defs)
    (hexact : i.op = .cond ∨ i.calls = []) : Tracks (transferConst env i fact) v (s' v) := by
  rw [Tracks, get?_transferConst, if_pos hv, foldedFact]
  cases hfolded : foldedValue? i (constEnv env fact) with
  | none => exact ⟨.top, rfl, .inl rfl⟩
  | some n =>
    obtain ⟨e, hdefs, hwhole, hext, he, hn⟩ := exists_of_foldedValue? hv hfolded
    have hstored : storedExpr? i = some e := by
      simp only [storedExpr?, hdefs]
      rw [if_pos (hexact.imp_right fun hcalls => ⟨hwhole, hext, hcalls⟩), he]
    have hvalue := hexec.stores v hv
    rw [hstored, Option.bind_some, constantValue?_mono_at (hright.knownAt _) hn] at hvalue
    exact ⟨.value n, rfl, .inr (congrArg _ hvalue.symm)⟩

/-! ### Paths -/

section Solved

variable {f : LoweredFunction} {types : TypeIndex} {limit : Int} {b : Block Instr} {k : Nat}
  {past : List (Graph.Place Instr)}

/-- The fact in front of statement number `k` of a block. -/
abbrev solvedFact (f : LoweredFunction) (types : TypeIndex) (limit : Int) (b : Block Instr)
    (k : Nat) :
    KnownValues :=
  (constants (types.env f.contract.name) limit).factAtStmt (FlowFacts.solve f types limit).constants
    b k

lemma solvedFact_step (hi : b.stmts[k]? = some i) :
    solvedFact f types limit b (k + 1) =
      transferConst (types.env f.contract.name) i (solvedFact f types limit b k) := by
  have htake : b.stmts.take (k + 1) = b.stmts.take k ++ [i] := by
    rw [List.take_add_one, hi, Option.toList_some]
  simp only [solvedFact, Problem.factAtStmt, constants, Problem.across, htake, List.foldl_append,
    List.foldl_cons, List.foldl_nil]

variable (types limit) in
/-- The facts list every instruction that a path gets to. -/
lemma mem_walk_of_path (h : f.graph.Path past b k) (hi : b.stmts[k]? = some i) :
    (b, k, i, solvedFact f types limit b k) ∈
      (constants (types.env f.contract.name) limit).walk f.graph
        (FlowFacts.solve f types limit).constants :=
  (Problem.mem_walk _).mpr ⟨h.reachable.1, hi, rfl⟩

lemma equal_self (fact : KnownValues) : (pointwise Var (flat Nat)).equal fact fact = true := by
  refine equalTables_iff.mpr fun v => ?_
  cases hv : fact.get? v with
  | none => exact .inl ⟨rfl, rfl⟩
  | some value => exact .inr ⟨value, value, rfl, rfl, by simp [flat]⟩

variable {s : Store}

/-- A name that no instruction defined has the value it started with. -/
lemma eq_of_lastDefinition?_eq_none {past : List Instr} (hs : After f types past s)
    (hlast : lastDefinition? past v = none) (hn : startValue? f types v = some n) : s v = n := by
  induction past generalizing s with
  | nil =>
    have hstart := hs v
    rwa [hn] at hstart
  | cons i past ih =>
    obtain ⟨s₀, hs₀, hexec⟩ := hs
    rw [lastDefinition?_cons] at hlast
    split at hlast
    · contradiction
    · next hv =>
      rw [hexec.keeps v hv]
      exact ih hs₀ hlast

/-- Where what is known about the assigned names leaves their values possible and every known name
is settled, the known values are right. -/
lemma knownIn_of_tracks {past : List Instr} (hs : After f types past s)
    (hsettles : ∀ v n, constEnv env fact v = some n → Settles f types past v n)
    (htracks : ∀ v i, lastDefinition? past v = some i → i.op = .cond ∨ i.calls = [] →
      Tracks fact v (s v)) : KnownIn (constEnv env fact) s.env := by
  intro v n hknown
  have hv := hsettles v n hknown
  rw [Settles] at hv
  cases hlast : lastDefinition? past v with
  | none =>
    rw [hlast] at hv
    exact congrArg some (eq_of_lastDefinition?_eq_none hs hlast hv)
  | some i =>
    rw [hlast] at hv
    exact congrArg some ((htracks v i hlast hv).eq_of_known hknown)

variable {u : SourceUnit} {owner : Contract} {fn : Function} {state : List Text} {body : Stmt}
  (hlower : lowerMember u owner fn state body = .ok f)
  (hconv : (FlowFacts.solve f types limit).constants.converged = true)

include hlower hconv

/-- Along an edge, what a fact leaves possible stays so: it takes part in the join in front of the
next block, which is not the entry. -/
lemma tracks_next {c : Block Instr} {id : BlockId} (hb : b ∈ f.graph.blocks)
    (hreach : f.graph.Reachable b.id) (hid : id ∈ b.succs) (hc : f.graph.block? id = some c)
    (h : Tracks (solvedFact f types limit b b.stmts.length) v n) :
    Tracks (solvedFact f types limit c 0) v n := by
  obtain ⟨hgraph, hentry, hback⟩ := lowerMember_graph hlower
  obtain ⟨hcmem, rfl⟩ := Graph.block?_eq_some_iff.mp hc
  have hsolved : ((constants (types.env f.contract.name) limit).solve f.graph
      (initialConst f)).converged = true := hconv
  obtain ⟨st, hinv, hin, -, hsettled⟩ :=
    Problem.solve_settled hgraph equal_self hentry hsolved
  have hcreach := hreach.step
    (Graph.mem_nexts.mpr ⟨b, Graph.block?_of_mem hb, hid, Graph.has_of_block? hc⟩)
  obtain ⟨hbin, hbout⟩ := hsettled b hb hreach
  obtain ⟨hcin, -⟩ := hsettled c hcmem hcreach
  have hfact : ∀ (a : Block Instr) gathered, st.entry.get? a.id = some gathered →
      ∀ k, solvedFact f types limit a k =
        (constants (types.env f.contract.name) limit).across gathered (a.stmts.take k) := by
    intro a gathered ha k
    have hget : (FlowFacts.solve f types limit).constants.entry.get? a.id = some gathered :=
      hin ▸ ha
    simp only [solvedFact, Problem.factAtStmt, Problem.factAt, hget, Option.getD_some, constants]
  -- the fact at the end of `b` is in the table of exits
  obtain ⟨out, hout⟩ : ∃ out, st.exit.get? b.id = some out := by
    rw [← Option.isSome_iff_exists]
    exact (hinv.outflow_has b.id).trans hreach.has
  have htracks : Tracks out v n := by
    rw [hfact b _ hbin, List.take_length] at h
    have hequal : equalTables (flat Nat) _ ((st.exit.get? b.id).getD Table.empty) = true := hbout
    rw [hout] at hequal
    exact h.of_equal hequal
  -- and `c` joins over that table
  have hne : c.id ≠ f.graph.entry := fun heq => hback b hb (heq ▸ hid)
  have hpred : b.id ∈ c.preds := (hgraph.mem_preds hcmem).mpr ⟨b, Graph.block?_of_mem hb, hid⟩
  rw [hfact c _ (hcin.trans (congrArg some (if_neg hne)))]
  exact Tracks.joinOver (.inr ⟨b.id, hpred, out, hout, htracks⟩)

/-- What is known about a name behind a path leaves possible the value that its last assignment gave
it, if every name known on the way was settled. -/
lemma tracks_of_settledAlong (h : f.graph.Path past b k)
    (hsettled : SettledAlong f types limit past) (hs : After f types (executed past) s)
    (hlast : lastDefinition? (executed past) v = some i) (hexact : i.op = .cond ∨ i.calls = []) :
    Tracks (solvedFact f types limit b k) v (s v) := by
  induction h generalizing s v i with
  | start _ => contradiction
  | @step past b k j h hj ih =>
    obtain ⟨s₀, hs₀, hexec⟩ := hs
    have hearlier := hsettled.of_suffix (List.suffix_cons ..)
    have hwalk := mem_walk_of_path types limit h hj
    have hright : KnownIn (constEnv _ (solvedFact f types limit b k)) s₀.env :=
      knownIn_of_tracks hs₀ (fun v n => hsettled b k j past _ v n List.suffix_rfl hwalk)
        fun v i => ih hearlier hs₀
    rw [executed, List.map_cons, lastDefinition?_cons] at hlast
    rw [solvedFact_step hj]
    split at hlast
    · next hv =>
      cases hlast
      exact tracks_transferConst hright hexec hv hexact
    · next hv =>
      rw [Tracks, get?_transferConst, if_neg hv, hexec.keeps v hv]
      exact ih hearlier hs₀ hlast hexact
  | next h hid hc ih =>
    obtain ⟨hb, hreach⟩ := h.reachable
    exact tracks_next hlower hconv hb hreach hid hc (ih hsettled hs hlast hexact)

end Solved

/-! ### Names that are not settled -/

section Unsettled

variable {f : LoweredFunction} {types : TypeIndex} {limit : Int} {w : Nat}

lemma admits_getD (value? : Option Nat) (hw : w < wordCount) : Admits value? (value?.getD w) := by
  cases value? with
  | none => exact hw
  | some n => rfl

/-- An instruction can be executed in every store, and what it is not sure to compute can become any
word. -/
lemma exists_executes (i : Instr) (s : Store) (hw : w < wordCount) :
    ∃ s', Executes i s s' ∧ (storedExpr? i = none → ∀ v ∈ i.defs, s' v = w) := by
  refine ⟨fun v => if v ∈ i.defs then ((storedExpr? i).bind (constantValue? · s.env)).getD w
    else s v, ⟨fun v hv => ?_, fun v hv => if_neg hv⟩, fun hnone v hv => by simp [hv, hnone]⟩
  simp only [if_pos hv]
  exact admits_getD _ hw

variable (f types) in
lemma exists_after_start (hw : w < wordCount) :
    ∃ s, After f types [] s ∧ ∀ v, startValue? f types v = none → s v = w :=
  ⟨fun v => (startValue? f types v).getD w, fun _ => admits_getD _ hw,
    fun v hnone => by simp [hnone]⟩

variable (f types) in
lemma exists_after (past : List Instr) : ∃ s, After f types past s := by
  have hzero : 0 < wordCount := Nat.two_pow_pos 256
  induction past with
  | nil =>
    obtain ⟨s, hs, -⟩ := exists_after_start f types hzero
    exact ⟨s, hs⟩
  | cons i past ih =>
    obtain ⟨s, hs⟩ := ih
    obtain ⟨s', hexec, -⟩ := exists_executes i s hzero
    exact ⟨s', s, hs, hexec⟩

/-- A name that is not settled at a value can have another one. -/
lemma exists_after_ne {past : List Instr} (h : ¬ Settles f types past v n) :
    ∃ s, After f types past s ∧ s v ≠ n := by
  obtain ⟨w, hw, hne⟩ : ∃ w < wordCount, w ≠ n := by
    by_cases hn : n = 0
    · exact ⟨1, Nat.one_lt_two_pow (by decide), by simp [hn]⟩
    · exact ⟨0, Nat.two_pow_pos 256, fun h => hn h.symm⟩
  induction past with
  | nil =>
    have hstart : startValue? f types v ≠ some n := h
    obtain ⟨s, hs, hfree⟩ := exists_after_start f types hw
    refine ⟨s, hs, ?_⟩
    cases hv : startValue? f types v with
    | none => rwa [hfree v hv]
    | some m =>
      have hvalue := hs v
      rw [hv] at hvalue
      exact fun heq => hstart (by rw [hv, ← hvalue, heq])
  | cons i past ih =>
    rw [Settles, lastDefinition?_cons] at h
    by_cases hv : v ∈ i.defs
    · rw [if_pos hv] at h
      have hnone : storedExpr? i = none := by
        rw [storedExpr?]
        split
        · exact if_neg fun hexact => h (hexact.imp_right fun hwhole => hwhole.2.2)
        · rfl
      obtain ⟨s, hs⟩ := exists_after f types past
      obtain ⟨s', hexec, hfree⟩ := exists_executes i s hw
      exact ⟨s', ⟨s, hs, hexec⟩, by rwa [hfree hnone v hv]⟩
    · rw [if_neg hv] at h
      obtain ⟨s, hs, hvalue⟩ := ih h
      obtain ⟨s', hexec, -⟩ := exists_executes i s hw
      exact ⟨s', ⟨s, hs, hexec⟩, by rwa [hexec.keeps v hv]⟩

/-- Where the facts are right, every name with a known value is settled. -/
lemma settledAlong_of_rightAlong {past : List (Graph.Place Instr)}
    (h : RightAlong f types limit past) : SettledAlong f types limit past := by
  intro b k i before fact v n hsuffix hwalk hknown
  by_contra hnot
  obtain ⟨s, hs, hne⟩ := exists_after_ne hnot
  exact hne ((h b k i before fact s hsuffix hwalk hs).1 v n hknown)

end Unsettled

/-- **Constant propagation is right along a path exactly when every name with a known value is
settled on it**: the last instruction that defined the name calls nothing or is a condition, or no
instruction did and the name starts with that value. Then a condition that folds has the value it
folds to, whatever the parameters, the state variables and the values that are not computed. -/
theorem rightAlong_iff_settledAlong {u : SourceUnit} {c : Contract} {fn : Function}
    {state : List Text} {body : Stmt} {f : LoweredFunction} {types : TypeIndex} {limit : Int}
    (hlower : lowerMember u c fn state body = .ok f)
    (hconv : (FlowFacts.solve f types limit).constants.converged = true)
    {past : List (Graph.Place Instr)} {b : Block Instr} {k : Nat} (hpath : f.graph.Path past b k) :
    RightAlong f types limit past ↔ SettledAlong f types limit past := by
  refine ⟨settledAlong_of_rightAlong, fun hsettled => ?_⟩
  intro b k i before fact s hsuffix hwalk hs
  obtain ⟨hbefore, -⟩ := hpath.suffix hsuffix
  obtain ⟨-, -, rfl⟩ := (Problem.mem_walk _).mp hwalk
  have hearlier := hsettled.of_suffix ((List.suffix_cons ..).trans hsuffix)
  have hright : KnownIn (constEnv _ (solvedFact f types limit b k)) s.env :=
    knownIn_of_tracks hs (fun v n => hsettled b k i before _ v n hsuffix hwalk)
      fun v j => tracks_of_settledAlong hlower hconv hbefore hearlier hs
  exact ⟨fun v n hknown => Option.some.inj (hright v n hknown),
    fun _ n hn => constantValue?_mono_at (hright.knownAt _) hn⟩

/-! ### A choice with an assignment on one side -/

instance (f : LoweredFunction) (types : TypeIndex) (past : List Instr) (v : Var) (n : Nat) :
    Decidable (Settles f types past v n) :=
  match h : lastDefinition? past v with
  | some i => decidable_of_iff (i.op = .cond ∨ i.calls = []) (by rw [Settles, h])
  | none => decidable_of_iff (startValue? f types v = some n) (by rw [Settles, h])

/-- Tests whether every name to which the facts give a value is settled along a path. -/
def testSettled (f : LoweredFunction) (types : TypeIndex) (limit : Int) :
    List (Graph.Place Instr) → Bool
  | [] => true
  | (b, k, _) :: before =>
    let fact := solvedFact f types limit b k
    (fact.keys.all fun v => (constEnv (types.env f.contract.name) fact v).all fun n =>
        Settles f types (executed before) v n) &&
      testSettled f types limit before

/-- The test is enough where no constant of the contract has a value. -/
lemma settledAlong_of_testSettled {types : TypeIndex} {limit : Int}
    (henv : ∀ v, types.env f.contract.name v = none) {past : List (Graph.Place Instr)}
    (h : testSettled f types limit past = true) : SettledAlong f types limit past := by
  intro b k i before fact v n hsuffix hwalk hknown
  obtain ⟨-, -, rfl⟩ := (Problem.mem_walk _).mp hwalk
  change constEnv (types.env f.contract.name) (solvedFact f types limit b k) v = some n at hknown
  induction past with
  | nil => simp at hsuffix
  | cons place past ih =>
    rw [testSettled, Bool.and_eq_true] at h
    rcases List.suffix_cons_iff.mp hsuffix with heq | hsuffix
    · cases heq
      have hkey : v ∈ (solvedFact f types limit b k).keys := by
        rw [Table.mem_keys_iff, ← Option.isSome_iff_exists, Option.isSome_iff_ne_none]
        intro hnone
        rw [constEnv, hnone] at hknown
        simp [henv] at hknown
      have hv := List.all_eq_true.mp h.1 v hkey
      simpa only [hknown, Option.all_some, decide_eq_true_iff] using hv
    · exact ih h.2 hsuffix

/-- Sets `x` to one if `c` holds, and then checks that `x` is one. -/
def skippingBody : Stmt :=
  let name (t : Text) : Token := ⟨.ident, t, 1⟩
  let mark (t : Text) : Token := ⟨.punct, t, 1⟩
  let one : Token := ⟨.number, "1", 1⟩
  .block 1
    [.ifElse 1 [name "c"] (.expr 1 [name "x", mark "=", one]) .empty,
      .require 1 [name "x", mark "==", one] [] false]

/-- A function with the parameter `c`. -/
def skippingFunction : Function :=
  { name := "f", kind := .function, visibility := "public", mutability := [], modifiers := []
    params := [⟨"c", "bool"⟩], returns := [], line := 1, endLine := 1, body? := some skippingBody }

/-- A contract with the state variable `x`. -/
def skippingContract : Contract :=
  { name := "A", kind := "contract", isAbstract := false, bases := [], line := 1
    stateVars := [⟨"x", "uint256", [], false, false, [], 1⟩], functions := [skippingFunction]
    modifiers := [] }

/-- A file with that contract only. -/
def skippingUnit : SourceUnit := ⟨"a.sol", [], [], 0, [], [skippingContract]⟩

/-- Its type index. -/
def skippingTypes : TypeIndex := .ofSymbols (.ofUnits [skippingUnit])

/-- The function lowered. Block one assigns, and block two checks. -/
def skippingLowered : Except LowerError LoweredFunction :=
  lowerMember skippingUnit skippingContract skippingFunction ["x"] skippingBody

lemma env_skippingTypes (h : skippingLowered = .ok f) (v : Var) :
    skippingTypes.env f.contract.name v = none := by
  obtain ⟨g, -, h⟩ := bind_eq_ok_iff.mp h
  cases h
  rfl

/-- Along the path through the assignment the facts are right: there the check cannot fail. -/
theorem rightAlong_through_assignment :
    ∃ f past b, skippingLowered = .ok f ∧
      (FlowFacts.solve f skippingTypes 0).constants.converged = true ∧
      f.graph.pathThrough? [2, 1, 0] = some (past, b) ∧ RightAlong f skippingTypes 0 past := by
  obtain ⟨f, hf, hconv, ⟨past, b⟩, hpath, hsettled⟩ : ∃ f, skippingLowered = .ok f ∧
      (FlowFacts.solve f skippingTypes 0).constants.converged = true ∧
      ∃ p ∈ f.graph.pathThrough? [2, 1, 0], testSettled f skippingTypes 0 p.1 = true := by
    decide +kernel
  refine ⟨f, past, b, hf, hconv, hpath, ?_⟩
  exact (rightAlong_iff_settledAlong hf hconv (Graph.path_of_pathThrough? hpath)).mpr
    (settledAlong_of_testSettled (env_skippingTypes hf) hsettled)

/-- The store in which every word is zero. -/
def zeroStore : Store := fun _ => 0

instance (value? : Option Nat) (n : Nat) : Decidable (Admits value? n) :=
  match value? with
  | some m => inferInstanceAs (Decidable (n = m))
  | none => inferInstanceAs (Decidable (n < wordCount))

/-- All words stay zero while instructions may store zero. -/
lemma after_zeroStore {types : TypeIndex} (hstart : After f types [] zeroStore) {past : List Instr}
    (h : ∀ i ∈ past, Admits ((storedExpr? i).bind (constantValue? · zeroStore.env)) 0) :
    After f types past zeroStore := by
  induction past with
  | nil => exact hstart
  | cons i past ih =>
    refine ⟨zeroStore, ih fun j hj => h j (List.mem_cons_of_mem _ hj), fun v _ => ?_,
      fun v _ => rfl⟩
    exact h i (List.mem_cons_self ..)

lemma after_start_skipping (h : skippingLowered = .ok f) : After f skippingTypes [] zeroStore := by
  have hzero : 0 < wordCount := Nat.two_pow_pos 256
  intro v
  rw [startValue?, env_skippingTypes h]
  split
  · rfl
  · split
    · exact hzero
    · split <;> exact hzero

/-- Along the path around the assignment the facts are wrong. Where all words are zero that path is
taken and the check fails, but the facts give `x` the value one. -/
theorem not_rightAlong_around_assignment :
    ∃ f past b, skippingLowered = .ok f ∧
      (FlowFacts.solve f skippingTypes 0).constants.converged = true ∧
      f.graph.pathThrough? [2, 0] = some (past, b) ∧
      After f skippingTypes (executed past) zeroStore ∧ ¬ RightAlong f skippingTypes 0 past := by
  obtain ⟨f, hf, hconv, ⟨past, b⟩, hpath, hzero, ⟨c, k, i⟩, hhead, hknown⟩ :
      ∃ f, skippingLowered = .ok f ∧
      (FlowFacts.solve f skippingTypes 0).constants.converged = true ∧
      ∃ p ∈ f.graph.pathThrough? [2, 0],
        (∀ i ∈ executed p.1, Admits ((storedExpr? i).bind (constantValue? · zeroStore.env)) 0) ∧
        ∃ e ∈ p.1.head?, constEnv (skippingTypes.env f.contract.name)
          (solvedFact f skippingTypes 0 e.1 e.2.1) "x" = some 1 := by decide +kernel
  have hafter : ∀ before, before <:+ past → After f skippingTypes (executed before) zeroStore :=
    fun before hsuffix => after_zeroStore (after_start_skipping hf) fun i hi =>
      hzero i ((hsuffix.map _).subset hi)
  refine ⟨f, past, b, hf, hconv, hpath, hafter past List.suffix_rfl, fun hright => ?_⟩
  obtain ⟨before, rfl⟩ := List.head?_eq_some_iff.mp hhead
  obtain ⟨hbefore, hi⟩ := (Graph.path_of_pathThrough? hpath).suffix List.suffix_rfl
  have hone : zeroStore "x" = 1 :=
    (hright c k i before _ _ List.suffix_rfl (mem_walk_of_path skippingTypes 0 hbefore hi)
      (hafter before (List.suffix_cons ..))).1 _ _ hknown
  exact absurd hone (by decide)

end ContractAudit.Analysis
