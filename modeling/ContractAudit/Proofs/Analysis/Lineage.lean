import Mathlib.Logic.Function.Iterate
import ContractAudit.Proofs.Analysis.Symbols
import ContractAudit.Proofs.Flow.Entry
import ContractAudit.Proofs.Search
import ContractAudit.Source.Parser

/-!
The contracts that a contract inherits from.

Inheritance is followed twice: in the symbol table, for the names that calls and constants resolve
to, and when bodies are lowered, for the state that is visible in them. Bases may be unknown, shared
or lead round in circles.

* `HasBase`: a base that the symbol table knows. `mem_lineage_iff`: a lineage lists what these lead
  to, each contract once and its own first (`IsLineage`).
* `Ascent`: the walk with a stack, on which unknown names and names seen before lie as well. It
  takes the contracts in the order of the search that goes up one base after the other
  (`Ascent.leads_visit`), so it ends with the lineage.
* `mem_visibleState_iff`: the state visible in a contract is that of its lineage.
* `lineage_exact`: all of it, for source units without duplicates.
-/

namespace ContractAudit.Analysis

open Source ContractAudit.Flow Search

namespace SymbolTable

variable {t : SymbolTable} {c d : Contract}

/-- The contract `d` names `e` as a base, and the table knows `e`. -/
def HasBase (t : SymbolTable) (d e : Contract) : Prop := e.name ∈ d.bases ∧
    t.contracts.get? e.name = some e

/-- The contract `c` is `d`, or inherits from it. -/
def Inherits (t : SymbolTable) : Contract → Contract → Prop := Relation.ReflTransGen t.HasBase

lemma mem_knownBases {name base : Text} :
    base ∈ t.knownBases name ↔
      ∃ c, t.contracts.get? name = some c ∧ base ∈ c.bases ∧ t.contracts.has base = true := by
  rw [knownBases]
  cases t.contracts.get? name with
  | none => simp
  | some c => simp

/-- What a known contract inherits from is known. -/
lemma Inherits.get? (h : t.Inherits c d) (hc : t.contracts.get? c.name = some c) :
    t.contracts.get? d.name = some d := by
  cases h with
  | refl => exact hc
  | tail _ hbase => exact hbase.2

/-- Known bases lead to the names of the contracts that are inherited from. -/
lemma Filed.reaches_iff (hfiled : t.Filed) (hc : t.contracts.get? c.name = some c) {name : Text} :
    Reaches t.knownBases c.name name ↔ ∃ d, t.Inherits c d ∧ d.name = name := by
  constructor
  · intro h
    induction h with
    | refl => exact ⟨c, .refl, rfl⟩
    | @tail _ base _ hbase ih =>
      obtain ⟨d, hd, rfl⟩ := ih
      obtain ⟨d', hd', hbase, hknown⟩ := mem_knownBases.mp hbase
      obtain rfl : d = d' := Option.some.inj ((hd.get? hc).symm.trans hd')
      obtain ⟨e, he⟩ := Option.isSome_iff_exists.mp hknown
      obtain rfl := hfiled.name_of_get? he
      exact ⟨e, hd.tail ⟨hbase, he⟩, rfl⟩
  · rintro ⟨d, hd, rfl⟩
    induction hd with
    | refl => exact .refl
    | @tail d e hd hbase ih =>
      have hknown : t.contracts.has e.name = true := by rw [Table.has, hbase.2, Option.isSome_some]
      exact ih.tail (mem_knownBases.mpr ⟨d, Inherits.get? hd hc, hbase.1, hknown⟩)

/-- A search along known bases that is deep enough finds what a contract inherits from. -/
lemma Filed.mem_preorder_iff (hfiled : t.Filed) (hc : t.contracts.get? c.name = some c) {fuel : Nat}
    (hfuel : t.contracts.entries.length ≤ fuel) :
    d ∈ (preorder t.knownBases fuel [c.name]).filterMap t.contracts.get? ↔ t.Inherits c d := by
  have hkeys : ∀ name, t.contracts.has name = true → name ∈ t.contracts.keys := fun name h =>
    Table.mem_keys_iff.mpr (Option.isSome_iff_exists.mp h)
  have hlisted : ∀ name, name ∈ preorder t.knownBases fuel [c.name] ↔ ∃ d, t.Inherits c d ∧
    d.name = name := by
    intro name
    have hlength : t.contracts.keys.length ≤ fuel := by simpa [Table.keys] using hfuel
    rw [Search.mem_preorder_iff t.contracts.keys (fun x _ y hy => ?_) hlength fun x hx => ?_]
    · simp [hfiled.reaches_iff hc]
    · obtain ⟨_, _, _, hknown⟩ := mem_knownBases.mp hy
      exact hkeys y hknown
    · rw [List.mem_singleton.mp hx]
      exact hkeys _ (by rw [Table.has, hc, Option.isSome_some])
  rw [List.mem_filterMap]
  constructor
  · rintro ⟨name, hname, hd⟩
    obtain ⟨e, he, rfl⟩ := (hlisted name).mp hname
    rwa [← Option.some.inj ((he.get? hc).symm.trans hd)]
  · exact fun hd => ⟨d.name, (hlisted _).mpr ⟨d, hd, rfl⟩, hd.get? hc⟩

lemma lineage_eq (hc : t.contracts.get? c.name = some c) :
    t.lineage c.name =
      (preorder t.knownBases (t.contracts.entries.length + 1) [c.name]).filterMap
        t.contracts.get? := by
  rw [lineage, if_pos]
  rw [Table.has, hc, Option.isSome_some]

/-- The lineage of a contract lists what it inherits from. -/
lemma Filed.mem_lineage_iff (hfiled : t.Filed) (hc : t.contracts.get? c.name = some c) :
    d ∈ t.lineage c.name ↔ t.Inherits c d := by
  rw [lineage_eq hc]
  exact hfiled.mem_preorder_iff hc (Nat.le_succ _)

/-- The contracts of some names have these names. -/
lemma Filed.sublist_names (hfiled : t.Filed) (names : List Text) :
    ((names.filterMap t.contracts.get?).map (·.name)).Sublist names := by
  rw [List.map_filterMap]
  induction names with
  | nil => exact .slnil
  | cons name rest ih =>
    rw [List.filterMap_cons]
    cases hc : t.contracts.get? name with
    | none => exact ih.cons name
    | some d =>
      obtain rfl := hfiled.name_of_get? hc
      exact ih.cons_cons _

/-- A lineage begins with its contract and has no contract twice. -/
lemma Filed.lineage_shape (hfiled : t.Filed) (hc : t.contracts.get? c.name = some c) :
    (t.lineage c.name).head? = some c ∧ ((t.lineage c.name).map (·.name)).Nodup := by
  rw [lineage_eq hc]
  constructor
  · obtain ⟨rest, hrest⟩ := exists_preorder_eq_cons t.knownBases t.contracts.entries.length c.name
    rw [hrest, List.filterMap_cons, hc]
    rfl
  · exact (nodup_preorder _ _).sublist (hfiled.sublist_names _)

end SymbolTable

/-! ### The walk with a stack -/

/-- The contracts listed so far, and the names to look at, the next one first. -/
structure Ascent where
  listed : List Contract
  stack : List Text

namespace Ascent

/-- Takes the name on top of the stack. Unknown names and those listed already are dropped, and the
bases of any other contract are put in its place, the first one on top. -/
def step (t : SymbolTable) : Ascent → Ascent
  | ⟨listed, []⟩ => ⟨listed, []⟩
  | ⟨listed, name :: rest⟩ =>
    match t.contracts.get? name with
    | none => ⟨listed, rest⟩
    | some c =>
      if (listed.map (·.name)).contains name then ⟨listed, rest⟩
        else ⟨listed ++ [c], c.bases ++ rest⟩

/-- Some number of steps leads from one state of the walk to another. -/
def Leads (t : SymbolTable) (a b : Ascent) : Prop := ∃ n, (step t)^[n] a = b

variable {t : SymbolTable} {a b c : Ascent}

lemma Leads.trans (hab : Leads t a b) (hbc : Leads t b c) : Leads t a c := by
  obtain ⟨n, rfl⟩ := hab
  obtain ⟨m, rfl⟩ := hbc
  exact ⟨m + n, Function.iterate_add_apply ..⟩

lemma Leads.of_step (h : step t a = b) : Leads t a b := ⟨1, h⟩

/-- The contracts that a search has entered. -/
def listedBy (t : SymbolTable) (trail : Trail Text) :
    List Contract := trail.entered.filterMap t.contracts.get?

/-- The walk tells the names that a search has entered, if they are known. -/
lemma contains_listedBy_iff (hfiled : t.Filed) {name : Text} (hname : t.contracts.has name = true)
    {trail : Trail Text} :
    ((listedBy t trail).map (·.name)).contains name = true ↔ name ∈ trail.entered := by
  rw [List.contains_iff_mem]
  constructor
  · exact fun h => (hfiled.sublist_names _).subset h
  · intro h
    obtain ⟨d, hd⟩ := Option.isSome_iff_exists.mp hname
    exact List.mem_map.mpr ⟨d, List.mem_filterMap.mpr ⟨name, h, hd⟩, hfiled.name_of_get? hd⟩

lemma leads_entered (hfiled : t.Filed) {name : Text} (hname : t.contracts.has name = true)
    {trail : Trail Text} (hentered : name ∈ trail.entered) (rest : List Text) :
    Leads t ⟨listedBy t trail, name :: rest⟩ ⟨listedBy t trail, rest⟩ := by
  obtain ⟨d, hd⟩ := Option.isSome_iff_exists.mp hname
  refine .of_step ?_
  simp only [step, hd, if_pos ((contains_listedBy_iff hfiled hname).mpr hentered)]

/-- The number of known contracts that a search has not entered. -/
def ahead (t : SymbolTable) (trail : Trail Text) : Nat := unentered t.contracts.keys trail

/-- A stack of names is taken down to what lies below, as the search goes through the known ones of
them. -/
lemma leads_foldl {fuel : Nat}
    (ih : ∀ name, t.contracts.has name = true → ∀ trail, ahead t trail ≤ fuel → ∀ rest,
      Leads t ⟨listedBy t trail, name :: rest⟩ ⟨listedBy t (visit t.knownBases fuel name trail),
        rest⟩)
    (names : List Text) (trail : Trail Text) (hfuel : ahead t trail ≤ fuel) (rest : List Text) :
    Leads t ⟨listedBy t trail, names ++ rest⟩
      ⟨listedBy t ((names.filter t.contracts.has).foldl (fun trail x => visit t.knownBases fuel x
        trail) trail), rest⟩ := by
  induction names generalizing trail with
  | nil => exact ⟨0, rfl⟩
  | cons name names ihnames =>
    rw [List.cons_append]
    cases hname : t.contracts.has name with
    | false =>
      have hdrop : step t ⟨listedBy t trail, name :: (names ++ rest)⟩ = ⟨listedBy t trail,
        names ++ rest⟩ := by
        simp only [step, Option.isNone_iff_eq_none.mp (Option.isSome_eq_false_iff.mp hname)]
      rw [List.filter_cons_of_neg (by simp [hname])]
      exact (Leads.of_step hdrop).trans (ihnames trail hfuel)
    | true =>
      have hless : ahead t (visit t.knownBases fuel name trail) ≤ ahead t trail :=
        (unentered_sublist _ fun _ hx =>
          (visit_extends fuel name trail).entered.subset hx).length_le
      rw [List.filter_cons_of_pos hname, List.foldl_cons]
      exact (ih name hname trail hfuel _).trans (ihnames _ (Nat.le_trans hless hfuel))

/-- **The walk follows the search**: with the name of a known contract on top of the stack it comes
to what lies below, and has then listed what a search from there has entered. -/
lemma leads_visit (hfiled : t.Filed) : ∀ (fuel : Nat) (name : Text), t.contracts.has name = true →
    ∀ trail, ahead t trail ≤ fuel → ∀ rest,
      Leads t ⟨listedBy t trail, name :: rest⟩ ⟨listedBy t (visit t.knownBases fuel name trail),
        rest⟩ := by
  intro fuel
  induction fuel with
  | zero =>
    intro name hname trail hfuel rest
    have hkey : name ∈ t.contracts.keys := Table.mem_keys_iff.mpr
      (Option.isSome_iff_exists.mp hname)
    exact leads_entered hfiled hname (mem_entered_of_unentered (Nat.le_zero.mp hfuel) hkey) rest
  | succ fuel ih =>
    intro name hname trail hfuel rest
    by_cases hentered : name ∈ trail.entered
    · rw [visit, if_pos hentered]
      exact leads_entered hfiled hname hentered rest
    · obtain ⟨d, hd⟩ := Option.isSome_iff_exists.mp hname
      have hkey : name ∈ t.contracts.keys := Table.mem_keys_iff.mpr ⟨d, hd⟩
      set opened : Trail Text := { trail with entered := trail.entered ++ [name] } with hopened
      have hless : ahead t opened < ahead t trail :=
        unentered_lt (fun x hx => (extends_open hentered).entered.subset hx) hkey hentered
          (by simp [hopened])
      have hlisted : listedBy t opened = listedBy t trail ++ [d] := by
        simp [listedBy, hopened, List.filterMap_append, hd]
      have hpush : step t ⟨listedBy t trail, name :: rest⟩ = ⟨listedBy t opened,
        d.bases ++ rest⟩ := by
        simp only [step, hd, if_neg (mt (contains_listedBy_iff hfiled hname).mp hentered), hlisted]
      have hbases : t.knownBases name = d.bases.filter t.contracts.has := by
        simp only [SymbolTable.knownBases, hd]
      rw [visit, if_neg hentered, hbases]
      exact (Leads.of_step hpush).trans (leads_foldl ih d.bases opened (by omega) rest)

/-- The walk from a known contract ends, with its lineage. -/
lemma leads_lineage (hfiled : t.Filed) {d : Contract} (hd : t.contracts.get? d.name = some d) :
    Leads t ⟨[], [d.name]⟩ ⟨t.lineage d.name, []⟩ := by
  have hname : t.contracts.has d.name = true := by rw [Table.has, hd, Option.isSome_some]
  have hstart : ahead t (Trail.start Text) ≤ t.contracts.entries.length + 1 := by
    refine Nat.le_succ_of_le (Nat.le_trans (List.length_filter_le ..) ?_)
    simp [Table.keys]
  rw [SymbolTable.lineage_eq hd]
  exact leads_visit hfiled _ d.name hname (Trail.start Text) hstart []

end Ascent

/-! ### Visible state -/

section Units

variable {units : List SourceUnit} {c d : Contract}

/-- The table has no more contracts than the units. -/
lemma length_contracts_le (units : List SourceUnit) :
    (SymbolTable.ofUnits units).contracts.entries.length ≤
      (units.flatMap (·.contracts)).length := by
  have hsub : (SymbolTable.ofUnits units).contracts.keys ⊆ (units.flatMap (·.contracts)).map
    (·.name) := by
    intro name hname
    rw [← (SymbolTable.holds_ofUnits units).has_iff, Table.has, Option.isSome_iff_exists]
    exact Table.mem_keys_iff.mp hname
  have hperm := List.subperm_of_subset (SymbolTable.ofUnits units).contracts.distinct hsub
  simpa using hperm.length_le

variable (hdup : (SymbolTable.ofUnits units).duplicates = []) (hc : c ∈ units.flatMap (·.contracts))
include hdup

/-- Without duplicates, lowering finds the contracts that the symbol table has. -/
lemma lastNamed?_eq_get? (name : Text) :
    lastNamed? (units.flatMap (·.contracts)) name = (SymbolTable.ofUnits units).contracts.get?
      name := by
  have hnodup := (SymbolTable.holds_ofUnits units).nodup_iff.mp hdup
  have hreverse : ((units.flatMap (·.contracts)).reverse.map (·.name)).Nodup := by
    rw [List.map_reverse]
    exact List.nodup_reverse.mpr hnodup
  ext d
  rw [lastNamed?, SymbolTable.find?_name_eq_some_iff hreverse, SymbolTable.get?_contracts_iff hdup,
    List.mem_reverse]

/-- What is inherited from, among the contracts of the units. -/
lemma inherits_iff : (SymbolTable.ofUnits units).Inherits c d ↔
    Relation.ReflTransGen (fun d e => e ∈ units.flatMap (·.contracts) ∧ e.name ∈ d.bases) c d := by
  have hbase : (SymbolTable.ofUnits units).HasBase =
      fun d e => e ∈ units.flatMap (·.contracts) ∧ e.name ∈ d.bases := by
    funext d e
    simp [SymbolTable.HasBase, SymbolTable.get?_contracts_iff hdup, and_comm]
  rw [SymbolTable.Inherits, hbase]

include hc

/-- Lowering follows the bases that the symbol table knows. -/
lemma ancestry_eq :
    ancestry c (units.flatMap (·.contracts)) =
      (preorder (SymbolTable.ofUnits units).knownBases ((units.flatMap (·.contracts)).length + 2)
        [c.name]).filterMap
        (SymbolTable.ofUnits units).contracts.get? := by
  have hfind : (fun name => if name == c.name then some c
    else lastNamed? (units.flatMap (·.contracts)) name) =
      (SymbolTable.ofUnits units).contracts.get? := by
    funext name
    rw [lastNamed?_eq_get? hdup]
    split
    · next hname =>
        exact ((SymbolTable.get?_contracts_iff hdup).mpr ⟨hc, (eq_of_beq hname).symm⟩).symm
    · rfl
  have hbases : (fun name => (((SymbolTable.ofUnits units).contracts.get? name).map fun d =>
      d.bases.filter fun b => ((SymbolTable.ofUnits units).contracts.get? b).isSome).getD []) =
        (SymbolTable.ofUnits units).knownBases := by
    funext name
    rw [SymbolTable.knownBases]
    cases (SymbolTable.ofUnits units).contracts.get? name <;> rfl
  rw [← hbases, ← hfind]
  rfl

/-- The state visible in a contract is that of the contracts it inherits from, its own included. -/
lemma mem_visibleState_iff {x : Text} :
    x ∈ visibleState c (units.flatMap (·.contracts)) ↔
      ∃ d, (SymbolTable.ofUnits units).Inherits c d ∧ x ∈ d.stateVars.map (·.name) := by
  have hknown : (SymbolTable.ofUnits units).contracts.get? c.name = some c :=
    (SymbolTable.get?_contracts_iff hdup).mpr ⟨hc, rfl⟩
  have hfuel : (SymbolTable.ofUnits units).contracts.entries.length ≤
    (units.flatMap (·.contracts)).length + 2 := Nat.le_add_right_of_le (length_contracts_le units)
  rw [visibleState, mem_distinct, List.mem_flatMap, ancestry_eq hdup hc]
  simp only [(SymbolTable.filed_ofUnits units).mem_preorder_iff hknown hfuel]

end Units

/-- A list of the contracts that `c` inherits from: `c` itself is the first, no name is there twice,
and the others are those of `contracts` that bases lead to. -/
structure IsLineage (contracts : List Contract) (c : Contract) (line : List Contract) : Prop where
  first : line.head? = some c
  nodup : (line.map (·.name)).Nodup
  mem_iff : ∀ d, d ∈ line ↔ Relation.ReflTransGen (fun d e => e ∈ contracts ∧ e.name ∈ d.bases) c d

/-- **Both ways of following inheritance agree.** Where no two contracts have one name, the walk up
the bases of a contract ends. It lists the contract and then the known contracts that bases lead to,
each of them once, and the state that lowering makes visible in the contract's functions is the
state of the contracts listed. -/
theorem lineage_exact (units : List SourceUnit) (hdup : (SymbolTable.ofUnits units).duplicates = [])
    {c : Contract} (hc : c ∈ units.flatMap (·.contracts)) :
    Ascent.Leads (.ofUnits units) ⟨[], [c.name]⟩ ⟨(SymbolTable.ofUnits units).lineage c.name, []⟩ ∧
      IsLineage (units.flatMap (·.contracts)) c ((SymbolTable.ofUnits units).lineage c.name) ∧
      (∀ x, x ∈ visibleState c (units.flatMap (·.contracts)) ↔
        ∃ d ∈ (SymbolTable.ofUnits units).lineage c.name, x ∈ d.stateVars.map (·.name)) ∧
      ∀ f ∈ (lower units).1.functions, f.contract = c →
        f.stateVars = visibleState c (units.flatMap (·.contracts)) := by
  have hfiled := SymbolTable.filed_ofUnits units
  have hknown : (SymbolTable.ofUnits units).contracts.get? c.name = some c :=
    (SymbolTable.get?_contracts_iff hdup).mpr ⟨hc, rfl⟩
  have hmem : ∀ d, d ∈ (SymbolTable.ofUnits units).lineage c.name ↔
    (SymbolTable.ofUnits units).Inherits c d := fun d => hfiled.mem_lineage_iff hknown
  obtain ⟨hfirst, hnodup⟩ := hfiled.lineage_shape hknown
  refine ⟨Ascent.leads_lineage hfiled hknown, ⟨hfirst, hnodup, fun d => (hmem d).trans
    (inherits_iff hdup)⟩, fun x => ?_, fun f hf hcontract => ?_⟩
  · simp only [hmem]
    exact mem_visibleState_iff hdup hc
  · obtain ⟨u, -, c', -, fn, -, body, -, hlower⟩ := mem_lower_functions_iff.mp hf
    obtain ⟨-, hcontract', -, hstate⟩ := origin_lowerMember hlower
    rw [hstate, ← hcontract', hcontract]

/-- Two bases share a base, one of them leads back, and a third one is unknown. -/
def circularSource : Text :=
  "contract A is B, C, X \x7b uint256 a; function f() public \x7b a = b; \x7d \x7d " ++
    "contract B is D \x7b uint256 b; \x7d contract C is D, A \x7b uint256 c; \x7d " ++
    "contract D \x7b uint256 d; \x7d"

/-- The shared base is listed once, behind the first that leads there, and the state of all four is
visible in `f`. -/
theorem lineage_exact_circular :
    ∃ u, parse "a.sol" circularSource = .ok u ∧ (SymbolTable.ofUnits [u]).duplicates = [] ∧
      ∃ f ∈ (lower [u]).1.functions, f.contract ∈ [u].flatMap (·.contracts) ∧
        ((SymbolTable.ofUnits [u]).lineage f.contract.name).map (·.name) = Text.ofStrings
          ["A", "B", "D", "C"] ∧
        IsLineage ([u].flatMap (·.contracts)) f.contract ((SymbolTable.ofUnits [u]).lineage
          f.contract.name) ∧
        f.stateVars = visibleState f.contract ([u].flatMap (·.contracts)) ∧
        f.stateVars = Text.ofStrings ["a", "b", "d", "c"] := by
  obtain ⟨u, hparse, hdup, f, hf, hnames, hvars⟩ : ∃ u, parse "a.sol" circularSource = .ok u ∧
      (SymbolTable.ofUnits [u]).duplicates = [] ∧ ∃ f ∈ (lower [u]).1.functions,
        ((SymbolTable.ofUnits [u]).lineage f.contract.name).map (·.name) = Text.ofStrings
          ["A", "B", "D", "C"] ∧ f.stateVars = Text.ofStrings ["a", "b", "d", "c"] := by
    decide +kernel
  obtain ⟨u', hu', c, hc, fn, -, body, -, hlower⟩ := mem_lower_functions_iff.mp hf
  obtain ⟨-, rfl, -⟩ := origin_lowerMember hlower
  have hmem : f.contract ∈ [u].flatMap (·.contracts) := List.mem_flatMap.mpr ⟨u', hu', hc⟩
  obtain ⟨-, hlineage, -, hstate⟩ := lineage_exact [u] hdup hmem
  exact ⟨u, hparse, hdup, f, hf, hmem, hnames, hlineage, hstate f hf rfl, hvars⟩

end ContractAudit.Analysis
