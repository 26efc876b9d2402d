import Mathlib.Data.List.Nodup
import Mathlib.Data.List.Perm.Basic
import ContractAudit.Analysis.Symbols
import ContractAudit.Proofs.Table

/-!
What the symbol table of some source units holds.

* `ofUnits_induction`: what holds of the empty table and is kept by adding a contract holds of the
  table of all units.
* `Filed`, `WellKeyed`: contracts and functions are in the table under their own names. A function
  is there with the contract of that name (`Homed`).
* `Holds`: of several contracts with one name the first is in the table, and no duplicate is noted
  exactly if there are no two. So in a table without duplicates are all contracts of the units
  (`get?_contracts_iff`).
-/

namespace ContractAudit.Analysis

open Source ContractAudit.Flow

namespace SymbolTable

variable {symbols t : SymbolTable} {name : Text} {c : Contract} {contracts : List Contract}

lemma ofUnits_induction {P : SymbolTable → Prop} (hempty : P empty)
    (hadd : ∀ t u c, P t → P (t.addContract u c)) (units : List SourceUnit) : P (ofUnits units) :=
  List.foldlRecOn units _ (motive := P) hempty fun _ ht u _ =>
    List.foldlRecOn u.contracts _ (motive := P) ht fun t ht c _ => hadd t u c ht

/-- Adding functions leaves the contracts and the duplicates alone. -/
lemma foldl_addFunction_contracts (functions : List Function) (u : SourceUnit) (c : Contract)
    (t : SymbolTable) :
    (functions.foldl (fun t f => t.addFunction ⟨u, c, f⟩) t).contracts = t.contracts ∧
      (functions.foldl (fun t f => t.addFunction ⟨u, c, f⟩) t).duplicates = t.duplicates := by
  refine List.foldlRecOn functions _
    (motive := fun s : SymbolTable => s.contracts = t.contracts ∧ s.duplicates = t.duplicates)
      ⟨rfl, rfl⟩
    fun s hs f _ => ?_
  rw [addFunction]
  split
  · exact hs
  · exact hs

/-! ### Contracts -/

/-- Every contract of the table is there under its own name. -/
def Filed (symbols : SymbolTable) : Prop := ∀ e ∈ symbols.contracts.entries, e.1 = e.2.name

/-- Adding a contract keeps the table in order. -/
lemma Filed.addContract (h : symbols.Filed) (u : SourceUnit) (c : Contract) :
    (symbols.addContract u c).Filed := by
  rw [SymbolTable.addContract]
  split
  · exact h
  · intro e he
    rw [(foldl_addFunction_contracts ..).1] at he
    obtain rfl | hold := Table.mem_entries_set he
    · rfl
    · exact h e hold

/-- The table of some source units is in order. -/
lemma filed_ofUnits (units : List SourceUnit) : (ofUnits units).Filed :=
  ofUnits_induction (by simp [Filed, empty, Table.empty]) (fun _ u c ht => ht.addContract u c) units

/-- A contract of the inheritance is in the table under its own name. -/
lemma Filed.mem_of_lineage (h : symbols.Filed) {k : Text} {a : Contract}
    (ha : a ∈ symbols.lineage k) :
    (a.name, a) ∈ symbols.contracts.entries := by
  have hentry : ∃ name, (name, a) ∈ symbols.contracts.entries := by
    rw [lineage] at ha
    split at ha
    · obtain ⟨name, -, hname⟩ := List.mem_filterMap.mp ha
      exact ⟨name, Table.mem_entries_iff.mpr hname⟩
    · cases ha
  obtain ⟨name, hname⟩ := hentry
  exact (h _ hname : name = a.name) ▸ hname

lemma Filed.name_of_get? (h : symbols.Filed) (hc : symbols.contracts.get? name = some c) :
    c.name = name :=
  (h _ (Table.mem_entries_iff.mpr hc)).symm

/-- The table has the first of these contracts for each name, and notes duplicates if there are two
with one name. -/
structure Holds (t : SymbolTable) (contracts : List Contract) : Prop where
  first : ∀ name, t.contracts.get? name = contracts.find? (·.name == name)
  nodup_iff : t.duplicates = [] ↔ (contracts.map (·.name)).Nodup

lemma Holds.has_iff (h : t.Holds contracts) (name : Text) :
    t.contracts.has name = true ↔ name ∈ contracts.map (·.name) := by
  rw [Table.has, h.first, List.find?_isSome, List.mem_map]
  simp

/-- Adding a contract adds it to those that the table holds. -/
lemma Holds.addContract (h : t.Holds contracts) (u : SourceUnit) (c : Contract) :
    (t.addContract u c).Holds (contracts ++ [c]) := by
  have hnodup : ((contracts ++ [c]).map (·.name)).Nodup ↔
      c.name ∉ contracts.map (·.name) ∧ (contracts.map (·.name)).Nodup := by
    rw [List.map_append, List.map_singleton, (List.perm_append_singleton _ _).nodup_iff,
      List.nodup_cons]
  have hlast : ∀ name, name ≠ c.name → (contracts ++ [c]).find? (·.name == name) = t.contracts.get?
    name := by
    intro name hname
    rw [List.find?_append, h.first, List.find?_singleton, if_neg (by simpa using hname.symm),
      Option.or_none]
  rw [SymbolTable.addContract]
  cases hknown : t.contracts.has c.name with
  | true =>
    refine ⟨fun name => ?_, iff_of_false (by simp) fun hnd =>
      (hnodup.mp hnd).1 ((h.has_iff _).mp hknown)⟩
    by_cases hname : name = c.name
    · obtain ⟨d, hd⟩ := Option.isSome_iff_exists.mp hknown
      rw [if_pos rfl, hname, List.find?_append, ← h.first, hd, Option.some_or]
    · rw [if_pos rfl, hlast name hname]
  | false =>
    have hnew : c.name ∉ contracts.map (·.name) := by
      rw [← h.has_iff, hknown]
      simp
    simp only [Bool.false_eq_true, if_false]
    refine ⟨fun name => ?_, ?_⟩
    · rw [(foldl_addFunction_contracts ..).1, Table.get?_set]
      split
      · next hname =>
          have hnone : contracts.find? (·.name == name) = none := by
            rw [← h.first, hname]
            exact Option.isNone_iff_eq_none.mp (Option.isSome_eq_false_iff.mp hknown)
          rw [List.find?_append, hnone, hname]
          simp
      · next hname => rw [hlast name hname]
    · rw [(foldl_addFunction_contracts ..).2, hnodup, h.nodup_iff]
      exact (and_iff_right hnew).symm

/-- The table of some source units holds their contracts. -/
lemma holds_ofUnits (units : List SourceUnit) :
    (ofUnits units).Holds (units.flatMap (·.contracts)) := by
  have hcontracts : ∀ (u : SourceUnit) (more done : List Contract) (t : SymbolTable), t.Holds done →
      (more.foldl (fun t c => t.addContract u c) t).Holds (done ++ more) := by
    intro u more
    induction more with
    | nil => exact fun done t h => by simpa using h
    | cons c rest ih => exact fun done t h => by simpa using ih _ _ (h.addContract u c)
  have hunits : ∀ (more : List SourceUnit) (done : List Contract) (t : SymbolTable), t.Holds done →
      (more.foldl (fun t u => u.contracts.foldl (fun t c => t.addContract u c) t) t).Holds
        (done ++ more.flatMap (·.contracts)) := by
    intro more
    induction more with
    | nil => exact fun done t h => by simpa using h
    | cons u rest ih =>
      exact fun done t h => by simpa using ih _ _ (hcontracts u u.contracts done t h)
  exact hunits units [] empty ⟨fun _ => rfl, by simp [empty]⟩

/-- Where no two contracts have one name, the one with a given name is found. -/
lemma find?_name_eq_some_iff (h : (contracts.map (·.name)).Nodup) :
    contracts.find? (·.name == name) = some c ↔ c ∈ contracts ∧ c.name = name := by
  constructor
  · intro hfind
    exact ⟨List.mem_of_find?_eq_some hfind, by simpa using List.find?_some hfind⟩
  · rintro ⟨hc, rfl⟩
    obtain ⟨d, hd⟩ : ∃ d, contracts.find? (·.name == c.name) = some d := by
      rw [← Option.isSome_iff_exists, List.find?_isSome]
      exact ⟨c, hc, by simp⟩
    have hname : d.name = c.name := by simpa using List.find?_some hd
    rw [hd, List.inj_on_of_nodup_map h (List.mem_of_find?_eq_some hd) hc hname]

/-- Without duplicates, every contract of the units is in the table under its name. -/
lemma get?_contracts_iff {units : List SourceUnit} (h : (ofUnits units).duplicates = []) :
    (ofUnits units).contracts.get? name = some c ↔ c ∈ units.flatMap (·.contracts) ∧
      c.name = name := by
  have hholds := holds_ofUnits units
  rw [hholds.first, find?_name_eq_some_iff (hholds.nodup_iff.mp h)]

/-! ### Functions -/

/-- The functions after one is added are those before and perhaps this one. -/
lemma mem_functions_addFunction {s : Symbol} {e : Text × Symbol}
    (h : e ∈ (t.addFunction s).functions.entries) : e = (s.name, s) ∨ e ∈ t.functions.entries := by
  rw [addFunction] at h
  split at h
  · exact .inr h
  · exact Table.mem_entries_set h

/-- Whether every function is found under its own name. -/
def WellKeyed (t : SymbolTable) : Prop := ∀ e ∈ t.functions.entries, e.2.name = e.1

lemma WellKeyed.addFunction (h : t.WellKeyed) (s : Symbol) : (t.addFunction s).WellKeyed := by
  intro e he
  obtain rfl | hold := mem_functions_addFunction he
  · rfl
  · exact h e hold

lemma wellKeyed_ofUnits (units : List SourceUnit) : (ofUnits units).WellKeyed := by
  refine ofUnits_induction (by simp [WellKeyed, empty, Table.empty]) (fun t u c ht => ?_) units
  unfold addContract
  split
  · exact ht
  · exact List.foldlRecOn c.functions _ (motive := WellKeyed) ht
      fun t ht f _ => ht.addFunction ⟨u, c, f⟩

/-- Whether the contract of every function is in the table, under its name. -/
def Homed (t : SymbolTable) : Prop :=
  ∀ e ∈ t.functions.entries, t.contracts.get? e.2.contract.name = some e.2.contract

lemma Homed.addFunction (h : t.Homed) {s : Symbol}
    (hs : t.contracts.get? s.contract.name = some s.contract) : (t.addFunction s).Homed := by
  have hcontracts : (t.addFunction s).contracts = t.contracts := by
    rw [SymbolTable.addFunction]
    split <;> rfl
  intro e he
  rw [hcontracts]
  obtain rfl | hold := mem_functions_addFunction he
  · exact hs
  · exact h e hold

lemma homed_ofUnits (units : List SourceUnit) : (ofUnits units).Homed := by
  refine ofUnits_induction (by simp [Homed, empty, Table.empty]) (fun t u c ht => ?_) units
  unfold addContract
  split
  · exact ht
  · next hnew =>
      -- the contract is new, so those of the functions before keep their places
      have hadded : Homed
          { t with contracts := t.contracts.set c.name c, units := t.units.set c.name u } := by
        intro e he
        have hold := ht e he
        have hne : e.2.contract.name ≠ c.name := by
          intro heq
          simp [Table.has, ← heq, hold] at hnew
        exact (Table.get?_set_ne _ _ hne).trans hold
      refine (List.foldlRecOn c.functions _
        (motive := fun s : SymbolTable => s.Homed ∧ s.contracts = t.contracts.set c.name c)
          ⟨hadded, rfl⟩
        fun s hs f _ => ⟨hs.1.addFunction ?_, ?_⟩).1
      · rw [hs.2]
        exact Table.get?_set_self ..
      · exact (foldl_addFunction_contracts [f] u c s).1.trans hs.2

/-- The table with its functions listed in another order. -/
def reordered (t : SymbolTable) (order : List (Text × Symbol)) : SymbolTable :=
  ⟨t.contracts, t.units, .ofList order, t.duplicates⟩

lemma reordered_self (t : SymbolTable) : t.reordered t.functions.entries = t := by
  rw [reordered, Table.ofList_entries]

end SymbolTable

end ContractAudit.Analysis
