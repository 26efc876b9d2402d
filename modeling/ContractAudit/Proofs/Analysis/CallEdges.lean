import ContractAudit.Analysis.Calls
import ContractAudit.Source.Parser
import ContractAudit.Proofs.Flow.Placement
import ContractAudit.Proofs.Table

/-!
From the calls in a body to the edges of the call graph.

* `mem_calls_lowerMember_iff`: the instructions of a lowered body call what its expressions call,
  arguments of reverts apart. Of these the instruction notes no calls, and there is none where they
  read no variable.
* `CallGraph.RunsFor`: the lowered code that runs on behalf of a function, its own and that of its
  modifiers.
* `CallGraph.mem_calleesOf_ofProgram`, `CallGraph.mem_callersOf_ofProgram`: the edges of the call
  graph are the calls in that code that resolve, and both tables of the graph hold the same edges.
* `calls_noted_iff`: no call of a body is lost exactly when what its reverts call is called
  elsewhere in it.
-/

namespace ContractAudit.Flow

open Source (Expr Stmt Contract Function SourceUnit)

/-! ### Calls of instructions -/

lemma calls_instrOf (s : Scope) (e : Expr) (line : Nat) : (instrOf s e line).1.calls = e.calls :=
  (called_instrOf s e line).1

/-- The instruction of a part calls what the part calls, unless the part is a reason. -/
lemma mem_calls_instr?_iff {p : Part} {s : Scope} {v : Var} {name : Text} :
    (∃ i ∈ p.instr? s v, name ∈ i.calls) ↔ p.role ≠ .reason ∧ name ∈ p.value.calls := by
  obtain ⟨role, line, value⟩ := p
  cases role with
  | statement => simp [Part.instr?, calls_instrOf]
  | condition => simp [Part.instr?]
  | event => simp [Part.instr?]
  | result =>
    -- a name that is called keeps the instruction from being left out
    simpa [Part.instr?, Option.filter_eq_some_iff, calls_instrOf] using fun h =>
      .inr (List.ne_nil_of_mem h)
  | reason =>
    simp only [Part.instr?, ne_eq, not_true_eq_false, false_and, iff_false]
    split <;> simp

/-- The names that a body calls directly. -/
def calledIn (body : Stmt) : List Text := (partsOf body).flatMap fun p => p.value.calls

/-- The names that a body calls directly outside the arguments of its reverts. -/
def notedIn (body : Stmt) : List Text :=
  ((partsOf body).filter fun p => p.role ≠ .reason).flatMap fun p => p.value.calls

lemma Logs.mem_calls_iff {s s' : Scope} {log : List (Part × Option Instr)} (h : Logs s log s')
    {name : Text} :
    (∃ i ∈ log.filterMap Prod.snd, name ∈ i.calls) ↔
      ∃ p ∈ log.map Prod.fst, p.role ≠ .reason ∧ name ∈ p.value.calls := by
  induction h with
  | nil => simp
  | @cons s s' rest p v _ ih =>
    simp only [List.map_cons, List.mem_cons, exists_eq_or_imp]
    rw [← ih, ← mem_calls_instr?_iff (s := s) (v := v)]
    cases p.instr? s v <;> simp

/-- The instructions of a lowered body call what the body calls outside the arguments of its
reverts. -/
theorem mem_calls_lowerMember_iff {u : SourceUnit} {c : Contract} {fn : Function}
    {state : List Text} {body : Stmt}
    {f : LoweredFunction} (h : lowerMember u c fn state body = .ok f) (name : Text) :
    (∃ e ∈ f.instrs, name ∈ e.2.calls) ↔ name ∈ notedIn body := by
  obtain ⟨log, s, hparts, hlogs, hperm⟩ := lowerMember_logged h
  calc (∃ e ∈ f.instrs, name ∈ e.2.calls)
      ↔ ∃ i ∈ f.instrs.map Prod.snd, name ∈ i.calls := by
        simp only [List.mem_map, exists_exists_and_eq_and]
    _ ↔ ∃ i ∈ log.filterMap Prod.snd, name ∈ i.calls := by simp only [hperm.mem_iff]
    _ ↔ ∃ p ∈ partsOf body, p.role ≠ .reason ∧ name ∈ p.value.calls := hparts ▸ hlogs.mem_calls_iff
    _ ↔ name ∈ notedIn body := by simp [notedIn, and_assoc]

end ContractAudit.Flow

namespace ContractAudit.Analysis

open Source ContractAudit.Flow

namespace CallGraph

variable {g g' : CallGraph} {symbols : SymbolTable} {p : Program}

/-! ### What a step adds to the graph -/

/-- Both tables of the graph hold the same edges. -/
def Mirrored (g : CallGraph) : Prop := ∀ caller callee, caller ∈ g.callersOf callee ↔
    callee ∈ g.calleesOf caller

/-- From `g` to `g'` the edges `new` were added, to both tables. -/
structure Adds (new : Text → Text → Prop) (g g' : CallGraph) : Prop where
  callees : ∀ caller callee, callee ∈ g'.calleesOf caller ↔ callee ∈ g.calleesOf caller ∨
    new caller callee
  mirrored : g.Mirrored → g'.Mirrored

lemma adds_addCall (g : CallGraph) (a b : Text) :
    Adds (fun x y => x = a ∧ y = b) g (g.addCall a b) := by
  unfold addCall
  split
  · next hknown =>
    refine ⟨fun x y => (or_iff_left_of_imp ?_).symm, id⟩
    rintro ⟨rfl, rfl⟩
    exact List.contains_iff_mem.mp hknown
  · have hcallees : ∀ x y, y ∈ ((g.callees.set a (g.calleesOf a ++ [b])).get? x).getD [] ↔
        y ∈ g.calleesOf x ∨ x = a ∧ y = b := by
      intro x y
      rw [Table.get?_set]
      by_cases hx : x = a <;> simp [hx, calleesOf]
    have hcallers : ∀ x y, x ∈ ((g.callers.set b (g.callersOf b ++ [a])).get? y).getD [] ↔
        x ∈ g.callersOf y ∨ y = b ∧ x = a := by
      intro x y
      rw [Table.get?_set]
      by_cases hy : y = b <;> simp [hy, callersOf]
    exact ⟨hcallees, fun h x y =>
      (hcallers x y).trans ((or_congr (h x y) and_comm).trans (hcallees x y).symm)⟩

/-- Nothing is added by no step, and by several steps what each of them adds. -/
lemma Adds.foldlM {α : Type} {step : CallGraph → α → Except MissingBody CallGraph}
    {new : α → Text → Text → Prop}
    (hstep : ∀ a g g', step g a = .ok g' → Adds (new a) g g') {items : List α}
      (h : items.foldlM step g = .ok g') :
    Adds (fun x y => ∃ a ∈ items, new a x y) g g' := by
  induction items generalizing g with
  | nil =>
    cases h
    exact ⟨fun x y => by simp, id⟩
  | cons a items ih =>
    obtain ⟨e, he, h⟩ := bind_eq_ok_iff.mp h
    have hfirst := hstep a g e he
    have hrest := ih h
    refine ⟨fun x y => ?_, hrest.mirrored ∘ hfirst.mirrored⟩
    simp only [hrest.callees, hfirst.callees, or_assoc, List.mem_cons, exists_eq_or_imp]

lemma Adds.foldl {α : Type} {step : CallGraph → α → CallGraph} {new : α → Text → Text → Prop}
    (hstep : ∀ a g, Adds (new a) g (step g a)) (items : List α) (g : CallGraph) :
    Adds (fun x y => ∃ a ∈ items, new a x y) g (items.foldl step g) := by
  have hpure : items.foldlM (fun g a => (.ok (step g a) : Except MissingBody CallGraph)) g =
    .ok (items.foldl step g) := List.foldlM_pure
  refine Adds.foldlM (fun a g g' h => ?_) hpure
  cases h
  exact hstep a g

/-- The code `f` calls the function named `callee`, where it runs in `contract`. -/
def CallsTo (symbols : SymbolTable) (contract : Text) (f : LoweredFunction) (callee : Text) :
    Prop :=
  ∃ e ∈ f.instrs, ∃ name ∈ e.2.calls, ∃ s, symbols.resolve? contract name = some s ∧ s.name = callee

lemma adds_addCalls (symbols : SymbolTable) (contract caller : Text) (f : LoweredFunction)
    (g : CallGraph) :
    Adds (fun x y => x = caller ∧ CallsTo symbols contract f y) g (g.addCalls symbols contract
      caller f) := by
  have hfold : Adds (fun x y => ∃ name ∈ f.instrs.flatMap (·.2.calls),
      x = caller ∧ ∃ s, symbols.resolve? contract name = some s ∧ s.name = y) g
        (g.addCalls symbols contract caller f) := by
    refine Adds.foldl (fun name g => ?_) _ g
    cases symbols.resolve? contract name with
    | none => exact ⟨fun x y => by simp, id⟩
    | some s => simpa [eq_comm] using adds_addCall g caller s.name
  refine ⟨fun x y => (hfold.callees x y).trans (or_congr_right ?_), hfold.mirrored⟩
  constructor
  · rintro ⟨name, hname, rfl, hcalls⟩
    obtain ⟨e, he, hname⟩ := List.mem_flatMap.mp hname
    exact ⟨rfl, e, he, name, hname, hcalls⟩
  · rintro ⟨rfl, e, he, name, hname, hcalls⟩
    exact ⟨name, List.mem_flatMap.mpr ⟨e, he, hname⟩, rfl, hcalls⟩

lemma adds_addFunction (symbols : SymbolTable) (f : LoweredFunction) (g : CallGraph) :
    Adds (fun x y => x = f.name ∧ CallsTo symbols f.contract.name f y) g
      (addFunction symbols g f) := by
  unfold addFunction
  cases f.function.isExposed || f.function.kind == .constructor with
  | true =>
    obtain ⟨hcallees, hmirrored⟩ :=
      adds_addCalls symbols f.contract.name f.name f { g with roots := g.roots ++ [f.name] }
    exact ⟨hcallees, hmirrored⟩
  | false => exact adds_addCalls symbols f.contract.name f.name f g

lemma adds_addModifier {s : Symbol} {c : Contract} {m : Function}
    (h : addModifier symbols s g c m = .ok g') :
    Adds (fun x y => ∃ f, lowerAlone? ((symbols.units.get? c.name).getD s.unit) c m = some (.ok f) ∧
      x = s.name ∧ CallsTo symbols s.contract.name f y) g g' := by
  unfold addModifier at h
  split at h
  · contradiction
  · next hfails =>
    cases h
    exact ⟨fun x y => by simp [hfails], id⟩
  · next f hlower =>
    cases h
    simpa [hlower] using adds_addCalls symbols s.contract.name s.name f g

/-! ### The edges of a program -/

/-- The code `f` runs on behalf of the function named `caller`, and its calls are looked up in
`contract`: it is the function itself, or a modifier that the function names. -/
inductive RunsFor (symbols : SymbolTable) (p : Program) : Text → Text → LoweredFunction → Prop
  | own {f : LoweredFunction} (hf : f ∈ p.functions) : RunsFor symbols p f.name f.contract.name f
  | modifier {key : Text} {s : Symbol} {c : Contract} {m : Function} {f : LoweredFunction}
      (hs : (key, s) ∈ symbols.functions.entries) (hm : (c, m) ∈ modifiersOf symbols s)
      (hf : lowerAlone? ((symbols.units.get? c.name).getD s.unit) c m = some (.ok f)) :
      RunsFor symbols p s.name s.contract.name f

/-- The graph of a program before its callers are sorted: what the functions call, and then what
their modifiers call. -/
lemma exists_adds_ofProgram (h : ofProgram symbols p = .ok g) :
    ∃ e, Adds (fun x y => ∃ contract f, RunsFor symbols p x contract f ∧ CallsTo symbols contract f
      y) empty e ∧ g = { e with callers := e.callers.mapValues Text.sorted } := by
  obtain ⟨e, he, h⟩ := bind_eq_ok_iff.mp h
  have hdirect := Adds.foldl (adds_addFunction symbols) p.functions empty
  have hmodifiers := Adds.foldlM (fun entry g g' h => Adds.foldlM
    (fun _ _ _ h => adds_addModifier h) h) he
  refine ⟨e, ⟨fun x y => ?_, hmodifiers.mirrored ∘ hdirect.mirrored⟩, (Except.ok.inj h).symm⟩
  rw [hmodifiers.callees, hdirect.callees, or_assoc]
  refine or_congr_right ⟨?_, ?_⟩
  · rintro (⟨f, hf, rfl, hcalls⟩ | ⟨⟨key, s⟩, hs, ⟨c, m⟩, hm, f, hf, rfl, hcalls⟩)
    · exact ⟨_, f, .own hf, hcalls⟩
    · exact ⟨_, f, .modifier hs hm hf, hcalls⟩
  · rintro ⟨_, _, hruns, hcalls⟩
    cases hruns with
    | own hf => exact .inl ⟨_, hf, rfl, hcalls⟩
    | modifier hs hm hf => exact .inr ⟨_, hs, _, hm, _, hf, rfl, hcalls⟩

/-- A function calls what the code that runs on its behalf calls. -/
theorem mem_calleesOf_ofProgram (h : ofProgram symbols p = .ok g) {caller callee : Text} :
    callee ∈ g.calleesOf caller ↔
      ∃ contract f, RunsFor symbols p caller contract f ∧ CallsTo symbols contract f callee := by
  obtain ⟨e, hadds, rfl⟩ := exists_adds_ofProgram h
  exact (hadds.callees caller callee).trans (or_iff_right nofun)

/-- The callers of a function are those that call it. -/
theorem mem_callersOf_ofProgram (h : ofProgram symbols p = .ok g) {caller callee : Text} :
    caller ∈ g.callersOf callee ↔ callee ∈ g.calleesOf caller := by
  obtain ⟨e, hadds, rfl⟩ := exists_adds_ofProgram h
  have hsorted : caller ∈ ((e.callers.mapValues Text.sorted).get? callee).getD [] ↔
    caller ∈ e.callersOf callee := by
    rw [Table.get?_mapValues, callersOf]
    cases e.callers.get? callee with
    | none => rfl
    | some callers => exact List.mem_mergeSort
  have hempty : empty.Mirrored := fun _ _ => iff_of_false nofun nofun
  exact hsorted.trans (hadds.mirrored hempty caller callee)

end CallGraph

/-- No call of a body is lost in lowering exactly when what its reverts call is called elsewhere in
it as well. What is called there is always noted, and becomes an edge of the call graph of every
program with the function if it resolves. -/
theorem calls_noted_iff {u : SourceUnit} {c : Contract} {fn : Function} {state : List Text}
    {body : Stmt} {f : LoweredFunction} (h : lowerMember u c fn state body = .ok f) :
    (∀ name, (∃ e ∈ f.instrs, name ∈ e.2.calls) ↔ name ∈ notedIn body) ∧
      ((∀ name ∈ calledIn body, ∃ e ∈ f.instrs, name ∈ e.2.calls) ↔ calledIn body ⊆ notedIn body) ∧
      ∀ (symbols : SymbolTable) (p : Program) (g : CallGraph), f ∈ p.functions → CallGraph.ofProgram
        symbols p = .ok g → ∀ name ∈ notedIn body, ∀ s, symbols.resolve? c.name name = some s →
          s.name ∈ g.calleesOf f.name ∧ f.name ∈ g.callersOf s.name := by
  have hnoted := mem_calls_lowerMember_iff h
  refine ⟨hnoted, forall₂_congr fun name _ => hnoted name, ?_⟩
  intro symbols p g hf hg name hname s hs
  obtain ⟨e, he, hcalls⟩ := (hnoted name).mpr hname
  obtain ⟨-, hcontract, -⟩ := origin_lowerMember h
  have hedge : s.name ∈ g.calleesOf f.name := (CallGraph.mem_calleesOf_ofProgram hg).mpr
    ⟨_, f, .own hf, e, he, name, hcalls, s, hcontract ▸ hs, rfl⟩
  exact ⟨hedge, (CallGraph.mem_callersOf_ofProgram hg).mpr hedge⟩

/-- Calls `g` in the argument of a revert, and in the step of the loop around it. -/
def repeatedCallSource : Text :=
  "contract A \x7b function f(uint256 i) public \x7b " ++
    "for (; i < 9; i = g(i)) \x7b revert(g(i)); \x7d \x7d " ++
    "function g(uint256 i) internal returns (uint256) \x7b return i; \x7d \x7d"

/-- What is called in a revert and in a loop is noted, and becomes an edge. -/
theorem calls_noted_repeated :
    ∃ u f body g, parse "a.sol" repeatedCallSource = .ok u ∧ f ∈ (lower [u]).1.functions ∧
      f.function.body? = some body ∧ CallGraph.ofProgram (.ofUnits [u]) (lower [u]).1 = .ok g ∧
      calledIn body = ["g", "g"] ∧ (∀ name ∈ calledIn body, ∃ e ∈ f.instrs, name ∈ e.2.calls) ∧
      ("A.g" : Text) ∈ g.calleesOf f.name ∧ f.name ∈ g.callersOf ("A.g" : Text) := by
  obtain ⟨u, hparse, f, hf, body, hbody, g, hg, hcalled, hnoted, hresolve⟩ :
      ∃ u, parse "a.sol" repeatedCallSource = .ok u ∧ ∃ f ∈ (lower [u]).1.functions,
        ∃ body ∈ f.function.body?, ∃ g, CallGraph.ofProgram (.ofUnits [u]) (lower [u]).1 = .ok g ∧
          calledIn body = ["g", "g"] ∧ notedIn body = ["g"] ∧
          ((SymbolTable.ofUnits [u]).resolve? f.contract.name "g").map Symbol.name = some
            ("A.g" : Text) := by decide +kernel
  obtain ⟨s, hs, hname⟩ := Option.map_eq_some_iff.mp hresolve
  obtain ⟨_, _, _, _, _, hbody', hlower⟩ := exists_lowerMember_body hf
  obtain ⟨-, rfl, rfl, -⟩ := origin_lowerMember hlower
  obtain rfl := Option.some.inj (hbody.symm.trans hbody')
  obtain ⟨-, hkept, hedges⟩ := calls_noted_iff hlower
  have hedge := hedges (.ofUnits [u]) (lower [u]).1 g hf hg "g" (by simp [hnoted]) s hs
  exact ⟨u, f, body, g, hparse, hf, hbody, hg, hcalled, hkept.mpr (by simp [hcalled, hnoted]),
    hname ▸ hedge⟩

/-- Calls `g` in the argument of a revert only. -/
def lostCallSource : Text :=
  "contract A \x7b function f(uint256 i) public \x7b revert E(g(i)); \x7d " ++
    "function g(uint256 i) internal returns (uint256) \x7b return i; \x7d \x7d"

/-- Where only a revert calls `g`, no instruction notes the call, and the call graph has no edge to
`g`. -/
theorem call_lost_in_revert :
    ∃ u f body g, parse "a.sol" lostCallSource = .ok u ∧ f ∈ (lower [u]).1.functions ∧
      f.function.body? = some body ∧ CallGraph.ofProgram (.ofUnits [u]) (lower [u]).1 = .ok g ∧
      ("g" : Text) ∈ calledIn body ∧ (∀ e ∈ f.instrs, ("g" : Text) ∉ e.2.calls) ∧
      ((SymbolTable.ofUnits [u]).resolve? f.contract.name "g").map Symbol.name = some
        ("A.g" : Text) ∧
      ("A.g" : Text) ∉ g.calleesOf f.name ∧ ("A.g" : Text) ∉ g.reachable := by
  obtain ⟨u, hparse, f, hf, body, hbody, g, hg, hcalled, hnoted, hlost⟩ :
      ∃ u, parse "a.sol" lostCallSource = .ok u ∧ ∃ f ∈ (lower [u]).1.functions,
        ∃ body ∈ f.function.body?, ∃ g, CallGraph.ofProgram (.ofUnits [u]) (lower [u]).1 = .ok g ∧
          ("g" : Text) ∈ calledIn body ∧ f.instrs.all (("g" : Text) ∉ ·.2.calls) = true ∧
          ((SymbolTable.ofUnits [u]).resolve? f.contract.name "g").map Symbol.name = some
            ("A.g" : Text) ∧
          ("A.g" : Text) ∉ g.calleesOf f.name ++ g.reachable := by decide +kernel
  exact ⟨u, f, body, g, hparse, hf, hbody, hg, hcalled, by simpa using hnoted, by simpa using hlost⟩

end ContractAudit.Analysis
