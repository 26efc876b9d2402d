import ContractAudit.Proofs.Analysis.Consistency
import ContractAudit.Proofs.Analysis.Lineage

/-!
Functions and modifiers without bodies.

Both are legal source. Lowering passes over the functions without a body. The call graph lowers the
modifiers that run for a function, and there one without a body is an error.

* `LowersBodies`: each function with a body is lowered or reported, and nothing else is.
* `Guards`: a modifier of a contract runs for a function that names it, if the contract of the
  function inherits from that contract. These are the modifiers that the call graph lowers
  (`mem_modifiersOf_iff`).
* `firstMissing?_eq_none_iff`, `guards_of_firstMissing?`: what is missing is the body of such a
  modifier.
* `callGraph_ok_iff`: so there is a call graph exactly if all of them have bodies, in whatever order
  the functions of the symbol table are visited.
-/

namespace ContractAudit

open Source ContractAudit.Flow

/-! ### Lowered functions -/

namespace Flow

/-- Each function with a body is lowered or reported, and nothing else is. -/
structure LowersBodies (units : List SourceUnit) : Prop where
  lowered : ∀ f ∈ (lower units).1.functions, f.function.body?.isSome = true
  reported : ∀ failure ∈ (lower units).2, ∃ c ∈ units.flatMap (·.contracts), ∃ fn ∈ c.functions,
    fn.body?.isSome = true ∧ failure.function = qualified c.name fn.name
  all : ∀ c ∈ units.flatMap (·.contracts), ∀ fn ∈ c.functions, fn.body?.isSome = true →
    (∃ f ∈ (lower units).1.functions, f.contract = c ∧ f.function = fn) ∨
      ∃ failure ∈ (lower units).2, failure.function = qualified c.name fn.name

lemma lowersBodies (units : List SourceUnit) : LowersBodies units := by
  refine ⟨fun f hf => ?_, fun failure hfailure => ?_, fun c hc fn hfn hbody => ?_⟩
  · obtain ⟨u, -, c, -, fn, -, body, hbody, hlower⟩ := mem_lower_functions_iff.mp hf
    obtain ⟨-, -, hfunction, -⟩ := origin_lowerMember hlower
    rw [hfunction, hbody, Option.isSome_some]
  · obtain ⟨u, hu, c, hc, fn, hfn, body, hbody, -, hname⟩ := mem_lower_failures_iff.mp hfailure
    exact ⟨c, List.mem_flatMap.mpr ⟨u, hu, hc⟩, fn, hfn, by rw [hbody, Option.isSome_some], hname⟩
  · obtain ⟨u, hu, hc⟩ := List.mem_flatMap.mp hc
    obtain ⟨body, hbody⟩ := Option.isSome_iff_exists.mp hbody
    cases hlower : lowerMember u c fn (visibleState c (units.flatMap (·.contracts))) body with
    | ok f =>
      obtain ⟨-, hcontract, hfunction, -⟩ := origin_lowerMember hlower
      exact .inl ⟨f, mem_lower_functions_iff.mpr ⟨u, hu, c, hc, fn, hfn, body, hbody, hlower⟩,
        hcontract, hfunction⟩
    | error e =>
      refine .inr ⟨⟨qualified c.name fn.name, e⟩, mem_lower_failures_iff.mpr ?_, rfl⟩
      exact ⟨u, hu, c, hc, fn, hfn, body, hbody, hlower, rfl⟩

end Flow

namespace Analysis

/-! ### Modifiers that run -/

/-- The modifier `m` of `c` runs for the function `s`: the function names it, and belongs to `c` or
to a contract that inherits from `c`. -/
structure Guards (symbols : SymbolTable) (c : Contract) (m : Function) (s : Symbol) : Prop where
  named : m.name ∈ s.function.modifiers
  declared : m ∈ c.modifiers
  inherited : symbols.Inherits s.contract c

namespace CallGraph

variable {c : Contract} {m : Function}

lemma mem_modifiersOf_iff {symbols : SymbolTable} (hfiled : symbols.Filed) {s : Symbol}
    (hs : symbols.contracts.get? s.contract.name = some s.contract) :
    (c, m) ∈ modifiersOf symbols s ↔ Guards symbols c m s := by
  simp only [modifiersOf, List.mem_flatMap, List.mem_map, List.mem_filter, beq_iff_eq,
    Prod.mk.injEq, hfiled.mem_lineage_iff hs]
  constructor
  · rintro ⟨name, hname, d, hd, n, ⟨hn, rfl⟩, rfl, rfl⟩
    exact ⟨hname, hn, hd⟩
  · exact fun h => ⟨m.name, h.named, c, h.inherited, m, ⟨h.declared, rfl⟩, rfl, rfl⟩

lemma missing?_eq_none_iff : missing? c m = none ↔ m.body?.isSome = true := by
  cases hbody : m.body? <;> simp [missing?, hbody]

lemma missing?_eq_some_iff {lack : MissingBody} :
    missing? c m = some lack ↔ m.body? = none ∧ lack.modifier = qualified c.name m.name := by
  obtain ⟨modifier⟩ := lack
  cases hbody : m.body? <;> simp [missing?, hbody, eq_comm]

section Units

variable {units : List SourceUnit} {order : List (Text × Symbol)}
  (horder : order.Perm (SymbolTable.ofUnits units).functions.entries)
include horder

/-- The modifiers that the call graph lowers are those that run, in whatever order the functions are
visited. -/
lemma mem_modifiersOf_reordered {e : Text × Symbol} (he : e ∈ order) :
    (c, m) ∈ modifiersOf ((SymbolTable.ofUnits units).reordered order) e.2 ↔
      Guards (.ofUnits units) c m e.2 := by
  have hhome := SymbolTable.homed_ofUnits units e (horder.mem_iff.mp he)
  have hmodifiers : (c, m) ∈ modifiersOf (.ofUnits units) e.2 ↔ Guards (.ofUnits units) c m e.2 :=
    mem_modifiersOf_iff (SymbolTable.filed_ofUnits units) hhome
  exact hmodifiers

lemma firstMissing?_eq_none_iff :
    firstMissing? ((SymbolTable.ofUnits units).reordered order) = none ↔
      ∀ e ∈ (SymbolTable.ofUnits units).functions.entries, ∀ c m, Guards (.ofUnits units) c m e.2 →
        m.body?.isSome = true := by
  have hfirst : firstMissing? ((SymbolTable.ofUnits units).reordered order) = none ↔
      ∀ e ∈ order, ∀ c m, Guards (.ofUnits units) c m e.2 → m.body?.isSome = true := by
    simp only [firstMissing?, entries_reordered horder, List.findSome?_eq_none_iff, Prod.forall,
      missing?_eq_none_iff]
    exact forall₂_congr fun key s => forall_congr' fun he => forall₂_congr fun c m =>
      imp_congr_left (mem_modifiersOf_reordered horder he)
  rw [hfirst]
  exact forall_congr' fun e => imp_congr_left horder.mem_iff

lemma guards_of_firstMissing? {lack : MissingBody}
    (h : firstMissing? ((SymbolTable.ofUnits units).reordered order) = some lack) :
    ∃ e ∈ (SymbolTable.ofUnits units).functions.entries, ∃ c m, Guards (.ofUnits units) c m e.2 ∧
      m.body? = none ∧ lack.modifier = qualified c.name m.name := by
  rw [firstMissing?, entries_reordered horder] at h
  obtain ⟨e, he, h⟩ := List.exists_of_findSome?_eq_some h
  obtain ⟨⟨c, m⟩, hm, h⟩ := List.exists_of_findSome?_eq_some h
  exact ⟨e, horder.mem_iff.mp he, c, m, (mem_modifiersOf_reordered horder he).mp hm,
    missing?_eq_some_iff.mp h⟩

end Units

/-- **A call graph takes the bodies of all modifiers that run.** Whatever the source units are, each
function with a body is lowered or reported, and functions without one are left out. There is a call
graph of what was lowered exactly if all modifiers that run for a function have bodies, in whatever
order the functions are visited. Otherwise the error names one without. -/
theorem callGraph_ok_iff (units : List SourceUnit) (order : List (Text × Symbol))
    (horder : order.Perm (SymbolTable.ofUnits units).functions.entries) :
    LowersBodies units ∧
      ((∃ g, ofProgram ((SymbolTable.ofUnits units).reordered order) (lower units).1 = .ok g) ↔
        ∀ e ∈ (SymbolTable.ofUnits units).functions.entries, ∀ c m,
          Guards (.ofUnits units) c m e.2 → m.body?.isSome = true) ∧
      ∀ lack, ofProgram ((SymbolTable.ofUnits units).reordered order) (lower units).1 =
        .error lack →
        ∃ e ∈ (SymbolTable.ofUnits units).functions.entries, ∃ c m,
          Guards (.ofUnits units) c m e.2 ∧
          m.body? = none ∧ lack.modifier = qualified c.name m.name := by
  refine ⟨lowersBodies units, ?_, fun lack hlack => ?_⟩
  · rw [← firstMissing?_eq_none_iff horder, ofProgram_eq_elim]
    cases firstMissing? ((SymbolTable.ofUnits units).reordered order) <;> simp
  · rw [ofProgram_eq_elim] at hlack
    cases hfirst : firstMissing? ((SymbolTable.ofUnits units).reordered order) with
    | none =>
      rw [hfirst] at hlack
      contradiction
    | some found =>
      rw [hfirst] at hlack
      obtain rfl : found = lack := Except.error.inj hlack
      exact guards_of_firstMissing? horder hfirst

/-- The base leaves its modifier `m` open and calls `h` in `n`, and the function of `A` runs under
`n` only. -/
def unusedModifierSource : Text :=
  "abstract contract B \x7b modifier m() virtual; modifier n() \x7b h(); _; \x7d " ++
    "function h() internal \x7b \x7d \x7d " ++
      "contract A is B \x7b function f() public n \x7b \x7d \x7d"

/-- The body of `m` is missing, but nothing runs under it: there is a call graph, with the call of
`n`. -/
theorem callGraph_ok_unused :
    ∃ u, parse "a.sol" unusedModifierSource = .ok u ∧ ¬HasBodies (.ofUnits [u]) ∧
      (∀ e ∈ (SymbolTable.ofUnits [u]).functions.entries, ∀ c m, Guards (.ofUnits [u]) c m e.2 →
        m.body?.isSome = true) ∧
      ∃ g, ofProgram (.ofUnits [u]) (lower [u]).1 = .ok g ∧ g.calleesOf "A.f" = ["B.h"] := by
  obtain ⟨u, hu, hbodies, g, hg, hcalls⟩ : ∃ u, parse "a.sol" unusedModifierSource = .ok u ∧
      ¬HasBodies (.ofUnits [u]) ∧ ∃ g, ofProgram (.ofUnits [u]) (lower [u]).1 = .ok g ∧
        g.calleesOf "A.f" = ["B.h"] := by decide +kernel
  have hguarded := (callGraph_ok_iff [u] _ (.refl _)).2.1.mp
    ⟨g, (SymbolTable.ofUnits [u]).reordered_self.symm ▸ hg⟩
  exact ⟨u, hu, hbodies, hguarded, g, hg, hcalls⟩

/-- The base leaves its modifier `m` open, `A` declares it with a body, and the function of `A` runs
under it. -/
def openModifierSource : Text :=
  "abstract contract B \x7b modifier m() virtual; \x7d " ++
    "contract A is B \x7b modifier m() override \x7b _; \x7d function f() public m \x7b \x7d \x7d"

/-- The modifier of the base is taken to run as well, so there is no call graph for a source that
parses. -/
theorem no_callGraph_openModifier :
    ∃ u, parse "a.sol" openModifierSource = .ok u ∧ (lower [u]).2 = [] ∧
      ofProgram (.ofUnits [u]) (lower [u]).1 = .error ⟨Text.ofString "B.m"⟩ := by
  obtain ⟨u, hu, hfailures, hfirst⟩ : ∃ u, parse "a.sol" openModifierSource = .ok u ∧
      (lower [u]).2.isEmpty = true ∧
      firstMissing? (.ofUnits [u]) = some ⟨Text.ofString "B.m"⟩ := by decide +kernel
  refine ⟨u, hu, List.isEmpty_iff.mp hfailures, ?_⟩
  rw [ofProgram_eq_elim, hfirst, Option.elim_some]

end CallGraph

end Analysis

end ContractAudit
