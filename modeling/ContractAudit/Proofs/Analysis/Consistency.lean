import Mathlib.Data.List.Dedup
import ContractAudit.Proofs.Analysis.CallEdges
import ContractAudit.Proofs.Analysis.Symbols
import ContractAudit.Proofs.Sweep

/-!
Call graphs are consistent, and what can be reached in them is found.

* `Consistent`: both tables of a call graph hold the same calls, each of them once. Recording a call
  keeps this (`Consistent.addCall`).
* `ofProgram_eq`: where all modifiers have bodies, the call graph of a program is that of a list of
  calls, those of its functions and then those of their modifiers. In general the first modifier
  without a body is an error (`ofProgram_eq_elim`).
* `calleesOf_addAll`: the callees of a function depend on its own calls and their order only. These
  come from one entry of the symbol table, so its functions can be visited in any order
  (`filter_callsOf_reordered`), and the callers are sorted in the end (`Consistent.sameAs`).
* `Consistent.mem_reachable_iff`: the functions that can be reached are found, whether calls go
  round in circles or not.
* `callGraph_exact`: all of it together.
-/

namespace ContractAudit

/-! ### Names in byte order -/

lemma Text.le_iff (a b : Text) : Text.le a b = true ↔ a ≤ b := by
  induction a generalizing b with
  | nil => simp [Text.le]
  | cons x rest ih =>
    cases b with
    | nil => simp [Text.le]
    | cons y others => simp [Text.le, List.cons_le_cons_iff, ih]

/-- Names in byte order do not depend on the order they had before. -/
lemma Text.sorted_eq_of_perm {names names' : List Text} (h : names.Perm names') :
    Text.sorted names = Text.sorted names' := by
  have hsorted : ∀ ts : List Text, (Text.sorted ts).Pairwise fun a b => Text.le a b = true := by
    refine List.pairwise_mergeSort (fun a b c => ?_) fun a b => ?_
    · simp only [Text.le_iff]
      exact List.le_trans
    · rw [Bool.or_eq_true, Text.le_iff, Text.le_iff]
      exact List.le_total a b
  refine List.Perm.eq_of_pairwise (fun a b _ _ => ?_) (hsorted names) (hsorted names') ?_
  · simp only [Text.le_iff]
    exact List.le_antisymm
  · exact (List.mergeSort_perm _ _).trans (h.trans (List.mergeSort_perm _ _).symm)

namespace Analysis

open Source ContractAudit.Flow

namespace CallGraph

variable {g g' : CallGraph} {symbols : SymbolTable}

/-! ### Recorded calls -/

lemma calleesOf_addCall (g : CallGraph) (a b x : Text) :
    (g.addCall a b).calleesOf x = if x = a ∧ b ∉ g.calleesOf x then g.calleesOf x ++ [b]
      else g.calleesOf x := by
  unfold addCall
  by_cases hknown : b ∈ g.calleesOf a
  · by_cases hx : x = a <;> simp [hx, hknown]
  · rw [if_neg (by simpa using hknown)]
    simp only [calleesOf] at hknown ⊢
    rw [Table.get?_set]
    by_cases hx : x = a
    · simp [hx, hknown]
    · simp [hx]

lemma callersOf_addCall (g : CallGraph) (a b y : Text) :
    (g.addCall a b).callersOf y =
      if y = b ∧ b ∉ g.calleesOf a then g.callersOf y ++ [a] else g.callersOf y := by
  unfold addCall
  by_cases hknown : b ∈ g.calleesOf a
  · simp [hknown]
  · rw [if_neg (by simpa using hknown)]
    simp only [callersOf]
    rw [Table.get?_set]
    by_cases hy : y = b
    · simp [hy, hknown]
    · simp [hy]

/-- A graph in which both tables hold the same calls, each of them once, and nothing is listed
without calls. -/
structure Consistent (g : CallGraph) : Prop where
  mirrored : g.Mirrored
  callees_nodup : ∀ name, (g.calleesOf name).Nodup
  callers_nodup : ∀ name, (g.callersOf name).Nodup
  callees_ne : ∀ name, g.callees.get? name ≠ some []
  callers_ne : ∀ name, g.callers.get? name ≠ some []

lemma consistent_empty : empty.Consistent := by
  refine ⟨fun _ _ => iff_of_false ?_ ?_, fun _ => ?_, fun _ => ?_, fun _ => ?_, fun _ => ?_⟩ <;>
    simp [empty, calleesOf, callersOf, Table.empty, Table.get?, Table.find?]

lemma Consistent.addCall (h : g.Consistent) (a b : Text) : (g.addCall a b).Consistent := by
  refine ⟨(adds_addCall g a b).mirrored h.mirrored, fun x => ?_, fun y => ?_, fun x => ?_,
    fun y => ?_⟩
  · rw [calleesOf_addCall]
    split
    · next hnew =>
        exact (List.perm_append_singleton b _).nodup_iff.mpr
          (List.nodup_cons.mpr ⟨hnew.2, h.callees_nodup x⟩)
    · exact h.callees_nodup x
  · rw [callersOf_addCall]
    split
    · -- a call that the callees do not hold is not among the callers either
      next hnew =>
        obtain ⟨rfl, hnew⟩ := hnew
        exact (List.perm_append_singleton a _).nodup_iff.mpr
          (List.nodup_cons.mpr ⟨mt (h.mirrored a y).mp hnew, h.callers_nodup y⟩)
    · exact h.callers_nodup y
  · unfold CallGraph.addCall
    split
    · exact h.callees_ne x
    · rw [Table.get?_set]
      split
      · simp
      · exact h.callees_ne x
  · unfold CallGraph.addCall
    split
    · exact h.callers_ne y
    · rw [Table.get?_set]
      split
      · simp
      · exact h.callers_ne y

/-- Records calls one after the other. -/
def addAll (g : CallGraph) (calls : List (Text × Text)) : CallGraph :=
  calls.foldl (fun g call => g.addCall call.1 call.2) g

lemma addAll_append (g : CallGraph) (calls calls' : List (Text × Text)) :
    g.addAll (calls ++ calls') = (g.addAll calls).addAll calls' := List.foldl_append

lemma Consistent.addAll (h : g.Consistent) (calls : List (Text × Text)) :
    (g.addAll calls).Consistent :=
  List.foldlRecOn calls _ (motive := Consistent) h fun _ hg call _ => hg.addCall call.1 call.2

/-- The callees of a function are what it calls, in the order of the calls and without
repetitions. -/
lemma calleesOf_addAll (g : CallGraph) (calls : List (Text × Text)) (x : Text) :
    (g.addAll calls).calleesOf x = (calls.filter fun call => call.1 = x).foldl
      (fun known call => if call.2 ∈ known then known else known ++ [call.2]) (g.calleesOf x) := by
  induction calls generalizing g with
  | nil => rfl
  | cons call rest ih =>
    rw [addAll, List.foldl_cons, ← addAll, ih, calleesOf_addCall]
    by_cases hx : call.1 = x
    · rw [List.filter_cons_of_pos (by simpa using hx), List.foldl_cons]
      congr 1
      by_cases hknown : call.2 ∈ g.calleesOf x <;> simp [hx, hknown]
    · rw [List.filter_cons_of_neg (by simpa using hx), if_neg fun h => hx h.1.symm]

/-- The graph with other roots. -/
def withRoots (g : CallGraph) (roots : List Text) : CallGraph := ⟨g.callees, g.callers, roots⟩

/-- Recording calls has nothing to do with the roots. -/
lemma addAll_withRoots (g : CallGraph) (roots : List Text) (calls : List (Text × Text)) :
    (g.withRoots roots).addAll calls = (g.addAll calls).withRoots roots := by
  induction calls generalizing g with
  | nil => rfl
  | cons call rest ih =>
    have hcall : (g.withRoots roots).addCall call.1 call.2 = (g.addCall call.1 call.2).withRoots
      roots := by
      cases hknown : ((g.callees.get? call.1).getD []).contains call.2 <;>
        simp only [addCall, calleesOf, callersOf, withRoots, hknown] <;> rfl
    rw [addAll, List.foldl_cons, hcall, ← addAll, ih]
    rfl

/-! ### The calls of a program -/

/-- The calls in instructions that run in `contract` on behalf of `caller`. -/
def callsIn (symbols : SymbolTable) (contract caller : Text) (f : LoweredFunction) :
    List (Text × Text) :=
  (f.instrs.flatMap fun e => e.2.calls).filterMap fun name =>
    (symbols.resolve? contract name).map fun s => (caller, s.name)

lemma addCalls_eq_addAll (symbols : SymbolTable) (contract caller : Text) (f : LoweredFunction)
    (g : CallGraph) :
    g.addCalls symbols contract caller f = g.addAll (callsIn symbols contract caller f) := by
  rw [addAll, callsIn, List.foldl_filterMap, addCalls]
  congr 1
  funext g name
  cases symbols.resolve? contract name <;> rfl

/-- The functions that can be called from outside, and constructors. -/
def rootsOf (p : Program) : List Text :=
  (p.functions.filter fun f => f.function.isExposed || f.function.kind == .constructor).map (·.name)

lemma foldl_addFunction (symbols : SymbolTable) (fs : List LoweredFunction) (g : CallGraph) :
    fs.foldl (addFunction symbols) g =
      (g.addAll (fs.flatMap fun f => callsIn symbols f.contract.name f.name f)).withRoots
        (g.roots ++ rootsOf ⟨fs⟩) := by
  induction fs generalizing g with
  | nil => simp [addAll, rootsOf, withRoots]
  | cons f rest ih =>
    have hroot :
    addFunction symbols g f = (g.addAll (callsIn symbols f.contract.name f.name f)).withRoots
        (g.roots ++ rootsOf ⟨[f]⟩) := by
      rw [addFunction, addCalls_eq_addAll, ← addAll_withRoots]
      cases hroot : f.function.isExposed || f.function.kind == .constructor <;>
        simp [withRoots, rootsOf, hroot]
    have hroots : rootsOf ⟨f :: rest⟩ = rootsOf ⟨[f]⟩ ++ rootsOf ⟨rest⟩ := by
      rw [rootsOf, rootsOf, rootsOf, ← List.map_append, ← List.filter_append]
      rfl
    rw [List.foldl_cons, ih, hroot, List.flatMap_cons, addAll_append, addAll_withRoots, hroots,
      ← List.append_assoc]
    rfl

/-- The calls of a modifier on behalf of a function. -/
def modifierCalls (symbols : SymbolTable) (s : Symbol) (c : Contract) (m : Function) :
    List (Text × Text) :=
  match lowerAlone? ((symbols.units.get? c.name).getD s.unit) c m with
  | some (.ok f) => callsIn symbols s.contract.name s.name f
  | _ => []

/-- What a modifier lacks, if it has no body. -/
def missing? (c : Contract) (m : Function) : Option MissingBody :=
  if m.body?.isSome then none else some ⟨qualified c.name m.name⟩

/-- The calls of a modifier are recorded, unless it has no body. -/
lemma addModifier_eq (symbols : SymbolTable) (s : Symbol) (g : CallGraph) (c : Contract)
    (m : Function) :
    addModifier symbols s g c m =
      (missing? c m).elim (.ok (g.addAll (modifierCalls symbols s c m))) .error := by
  rw [addModifier, modifierCalls, missing?, lowerAlone?]
  cases m.body? with
  | none => rfl
  | some body =>
    rw [Option.map_some]
    cases lowerMember _ c m _ body with
    | error e => rfl
    | ok f =>
      dsimp only
      rw [addCalls_eq_addAll]
      rfl

/-- Of steps that record calls or lack something, the first that lacks something counts. If there is
none, they record all of their calls, one after the other. -/
lemma foldlM_addAll {α : Type} {step : CallGraph → α → Except MissingBody CallGraph}
    {calls : α → List (Text × Text)} {missing? : α → Option MissingBody}
    (hstep : ∀ a g, step g a = (missing? a).elim (.ok (g.addAll (calls a))) .error) (items : List α)
      (g : CallGraph) :
    items.foldlM step g =
      (items.findSome? missing?).elim (.ok (g.addAll (items.flatMap calls))) .error := by
  induction items generalizing g with
  | nil => rfl
  | cons a rest ih =>
    rw [List.foldlM_cons, hstep, List.findSome?_cons, List.flatMap_cons, addAll_append]
    cases missing? a with
    | none => exact ih _
    | some e => rfl

/-- The calls of the modifiers that run for a function. -/
def callsFor (symbols : SymbolTable) (s : Symbol) : List (Text × Text) :=
  (modifiersOf symbols s).flatMap fun e => modifierCalls symbols s e.1 e.2

/-- The calls of a program: those of its functions, and then those of the modifiers that run for the
functions of the symbol table. -/
def callsOf (symbols : SymbolTable) (p : Program) : List (Text × Text) :=
  (p.functions.flatMap fun f => callsIn symbols f.contract.name f.name f) ++
    symbols.functions.entries.flatMap fun e => callsFor symbols e.2

/-- The graph with the callers of each function in byte order. -/
def inOrder (g : CallGraph) : CallGraph := ⟨g.callees, g.callers.mapValues Text.sorted, g.roots⟩

/-- Whether all modifiers of the contracts have bodies. -/
def HasBodies (symbols : SymbolTable) : Prop :=
  ∀ e ∈ symbols.contracts.entries, ∀ m ∈ e.2.modifiers, m.body?.isSome = true

instance (symbols : SymbolTable) : Decidable (HasBodies symbols) :=
  inferInstanceAs (Decidable (∀ e ∈ symbols.contracts.entries, ∀ m ∈ e.2.modifiers,
    m.body?.isSome = true))

lemma HasBodies.of_mem_modifiersOf (h : HasBodies symbols) {s : Symbol} {e : Contract × Function}
    (he : e ∈ modifiersOf symbols s) : e.2.body?.isSome = true := by
  obtain ⟨name, -, he⟩ := List.mem_flatMap.mp he
  obtain ⟨c, hc, he⟩ := List.mem_flatMap.mp he
  obtain ⟨m, hm, rfl⟩ := List.mem_map.mp he
  unfold SymbolTable.lineage at hc
  split at hc
  · obtain ⟨known, -, hknown⟩ := List.mem_filterMap.mp hc
    exact h (known, c) (Table.mem_entries_iff.mpr hknown) m (List.mem_of_mem_filter hm)
  · cases hc

/-- What the modifiers that run for the functions of the symbol table lack, if one of them has no
body. -/
def firstMissing? (symbols : SymbolTable) : Option MissingBody :=
  symbols.functions.entries.findSome? fun e => (modifiersOf symbols e.2).findSome? fun e' =>
    missing? e'.1 e'.2

/-- The call graph of a program is that of its calls, unless a modifier that runs has no body. -/
lemma ofProgram_eq_elim (symbols : SymbolTable) (p : Program) :
    ofProgram symbols p = (firstMissing? symbols).elim
      (.ok ((empty.addAll (callsOf symbols p)).withRoots (rootsOf p)).inOrder) .error := by
  have hmodifiers : ∀ g, symbols.functions.entries.foldlM
      (fun g e => (modifiersOf symbols e.2).foldlM (fun g e' => addModifier symbols e.2 g e'.1 e'.2)
        g) g = (firstMissing? symbols).elim
          (.ok (g.addAll (symbols.functions.entries.flatMap fun e => callsFor symbols e.2)))
            .error :=
    foldlM_addAll (fun e => foldlM_addAll (fun e' g => addModifier_eq symbols e.2 g e'.1 e'.2) _) _
  refine (congrArg (· >>= _) (hmodifiers _)).trans ?_
  cases firstMissing? symbols with
  | some e => rfl
  | none =>
    rw [foldl_addFunction, addAll_withRoots, callsOf, addAll_append]
    rfl

/-- Where all modifiers have bodies, there is a call graph: that of the calls of the program. -/
lemma ofProgram_eq (h : HasBodies symbols) (p : Program) :
    ofProgram symbols p =
      .ok ((empty.addAll (callsOf symbols p)).withRoots (rootsOf p)).inOrder := by
  have hnone : firstMissing? symbols = none := by
    refine List.findSome?_eq_none_iff.mpr fun e _ => List.findSome?_eq_none_iff.mpr fun e' he' => ?_
    rw [missing?, if_pos (h.of_mem_modifiersOf he')]
  rw [ofProgram_eq_elim, hnone, Option.elim_none]

lemma callersOf_inOrder (g : CallGraph) (name : Text) :
    g.inOrder.callersOf name = Text.sorted (g.callersOf name) := by
  simp only [callersOf, inOrder, Table.get?_mapValues]
  cases g.callers.get? name <;> simp [Text.sorted]

lemma Consistent.inOrder (h : g.Consistent) : g.inOrder.Consistent := by
  have hperm : ∀ name, (g.inOrder.callersOf name).Perm (g.callersOf name) := fun name => by
    rw [callersOf_inOrder]
    exact List.mergeSort_perm _ _
  refine ⟨fun x y => ((hperm y).mem_iff).trans (h.mirrored x y), h.callees_nodup,
    fun name => (hperm name).nodup_iff.mpr (h.callers_nodup name), h.callees_ne, fun name hnil =>
      ?_⟩
  simp only [CallGraph.inOrder, Table.get?_mapValues, Option.map_eq_some_iff] at hnil
  obtain ⟨callers, hcallers, hnil⟩ := hnil
  have hempty : callers = [] := List.perm_nil.mp (hnil ▸ (List.mergeSort_perm callers Text.le).symm)
  exact h.callers_ne name (hempty ▸ hcallers)

/-! ### The order of the symbol table -/

/-- Whether two graphs have the same roots and give every function the same callees and callers. -/
structure SameAs (g g' : CallGraph) : Prop where
  roots : g.roots = g'.roots
  callees : ∀ name, g.callees.get? name = g'.callees.get? name
  callers : ∀ name, g.callers.get? name = g'.callers.get? name

/-- A consistent graph with its callers in order is known from the callees of each function, and the
roots. -/
lemma Consistent.sameAs (h : g.Consistent) (h' : g'.Consistent) (hroots : g.roots = g'.roots)
    (hcallees : ∀ name, g.calleesOf name = g'.calleesOf name) : g.inOrder.SameAs g'.inOrder := by
  have hlists : ∀ {t t' : Table Text (List Text)} {name : Text}, t.get? name ≠ some [] →
    t'.get? name ≠ some [] →
      (t.get? name).getD [] = (t'.get? name).getD [] → t.get? name = t'.get? name := by
    intro t t' name hne hne' heq
    cases ht : t.get? name <;> cases ht' : t'.get? name <;> simp_all
  refine ⟨hroots, fun name => hlists (h.callees_ne name) (h'.callees_ne name) (hcallees name),
    fun name => ?_⟩
  refine hlists (h.inOrder.callers_ne name) (h'.inOrder.callers_ne name) ?_
  have hperm : (g.callersOf name).Perm (g'.callersOf name) := by
    refine (List.perm_ext_iff_of_nodup (h.callers_nodup name) (h'.callers_nodup name)).mpr
      fun caller => ?_
    rw [h.mirrored, h'.mirrored, hcallees]
  exact (g.callersOf_inOrder name).trans ((Text.sorted_eq_of_perm hperm).trans
    (g'.callersOf_inOrder name).symm)

/-- What runs for a function calls on its behalf. -/
lemma fst_of_mem_callsFor {s : Symbol} {call : Text × Text} (h : call ∈ callsFor symbols s) :
    call.1 = s.name := by
  obtain ⟨e, -, h⟩ := List.mem_flatMap.mp h
  unfold modifierCalls at h
  split at h
  · obtain ⟨name, -, hcall⟩ := List.mem_filterMap.mp h
    obtain ⟨t, -, rfl⟩ := Option.map_eq_some_iff.mp hcall
    rfl
  · cases h

/-- The calls on behalf of one function come from its own entry. -/
lemma filter_flatMap_callsFor {entries : List (Text × Symbol)} (hnamed : ∀ e ∈ entries,
    e.2.name = e.1) (x : Text) :
    (entries.flatMap fun e => callsFor symbols e.2).filter (fun call => call.1 = x) =
      (entries.filter fun e => e.1 = x).flatMap fun e => callsFor symbols e.2 := by
  induction entries with
  | nil => rfl
  | cons e rest ih =>
    obtain ⟨hname, hrest⟩ := List.forall_mem_cons.mp hnamed
    have hfst : ∀ call ∈ callsFor symbols e.2, call.1 = e.1 := fun call hcall =>
      (fst_of_mem_callsFor hcall).trans hname
    rw [List.flatMap_cons, List.filter_append, ih hrest]
    by_cases hx : e.1 = x
    · rw [List.filter_cons_of_pos (by simpa using hx), List.flatMap_cons,
        List.filter_eq_self.mpr fun call hcall => by simpa using (hfst call hcall).trans hx]
    · rw [List.filter_cons_of_neg (by simpa using hx),
        List.filter_eq_nil_iff.mpr fun call hcall => by
          simpa [hfst call hcall] using hx, List.nil_append]

section Reordered

variable {order : List (Text × Symbol)} (horder : order.Perm symbols.functions.entries)
include horder

lemma entries_reordered : (symbols.reordered order).functions.entries = order :=
  Table.entries_ofList ((horder.map _).nodup_iff.mpr symbols.functions.distinct)

/-- In whatever order the functions are listed, names stand for the same functions. -/
lemma resolve?_reordered (contract name : Text) :
    (symbols.reordered order).resolve? contract name = symbols.resolve? contract name := by
  unfold SymbolTable.resolve?
  refine congrArg (fun f => (symbols.lineage contract).findSome? f) (funext fun c => ?_)
  exact Table.get?_of_perm ((entries_reordered horder).symm ▸ horder) _

/-- A function has the same calls, in the same order. -/
lemma filter_callsOf_reordered (hkeyed : symbols.WellKeyed) (p : Program) (x : Text) :
    (callsOf (symbols.reordered order) p).filter (fun call => call.1 = x) =
      (callsOf symbols p).filter fun call => call.1 = x := by
  have hcalls : ∀ contract caller f, callsIn (symbols.reordered order) contract caller f =
      callsIn symbols contract caller f := by
    intro contract caller f
    simp only [callsIn, resolve?_reordered horder]
  have hcallsFor : ∀ s, callsFor (symbols.reordered order) s = callsFor symbols s := by
    intro s
    simp only [callsFor, modifierCalls, hcalls]
    rfl
  have hsame : order.filter (fun e => e.1 = x) =
      symbols.functions.entries.filter fun e => e.1 = x := by
    have hentry := Table.filter_entries (symbols.reordered order).functions x
    rwa [Table.get?_of_perm (entries_reordered horder ▸ horder) x, ← Table.filter_entries,
      entries_reordered horder] at hentry
  simp only [callsOf, hcalls, hcallsFor, entries_reordered horder, List.filter_append]
  rw [filter_flatMap_callsFor fun e he => hkeyed e (horder.mem_iff.mp he), hsame,
    ← filter_flatMap_callsFor hkeyed]

end Reordered

/-! ### What can be reached -/

/-- The functions of a consistent graph: its roots and all that call or are called. -/
def names (g : CallGraph) : List Text := g.roots ++ g.callees.keys ++ g.callers.keys

/-- A call leads to a function of the graph. -/
lemma Consistent.mem_names (h : g.Consistent) {caller callee : Text}
    (hcall : callee ∈ g.calleesOf caller) :
    callee ∈ g.names := by
  have hcaller : caller ∈ g.callersOf callee := (h.mirrored caller callee).mpr hcall
  refine List.mem_append_right _ (Table.mem_keys_iff.mpr ?_)
  unfold callersOf at hcaller
  cases hcallers : g.callers.get? callee with
  | none => simp [hcallers] at hcaller
  | some callers => exact ⟨callers, rfl⟩

lemma Consistent.mem_reachable_iff (h : g.Consistent) {name : Text} :
    name ∈ g.reachable ↔ ∃ root ∈ g.roots, Search.Reaches g.calleesOf root name := by
  refine Search.mem_preorder_iff g.names (fun _ _ _ hy => h.mem_names hy) ?_ fun x hx => ?_
  · simp only [names, Table.keys, List.length_append, List.length_map]
    omega
  · simp [names, hx]

/-- A search with a stack ends, and finds the same functions. -/
lemma Consistent.exists_sweep (h : g.Consistent) :
    ∃ n seen, (Search.Sweep.step g.calleesOf)^[n] (.start g.roots) = ⟨seen, []⟩ ∧
      ∀ name, name ∈ seen ↔ name ∈ g.reachable := by
  have hclosed : ∀ x ∈ g.names.dedup, ∀ y ∈ g.calleesOf x, y ∈ g.names.dedup := fun _ _ _ hy =>
    List.mem_dedup.mpr (h.mem_names hy)
  have hroots : ∀ x ∈ g.roots, x ∈ g.names.dedup := fun x hx =>
    List.mem_dedup.mpr (by simp [names, hx])
  obtain ⟨seen, hseen, hreached⟩ := Search.Sweep.ends (List.nodup_dedup _) hclosed hroots
  exact ⟨_, seen, hseen, fun name => (hreached name).trans h.mem_reachable_iff.symm⟩

/-- What a call graph of a program promises. A function is among the callees of another exactly when
that is among its callers, and no list has anything twice. In whatever order the functions of the
symbol table are visited, the graph is the same. The reachable functions are those to which any
number of calls lead from a root, and a search with a stack comes to an end with them. -/
structure Exact (symbols : SymbolTable) (p : Program) (g : CallGraph) : Prop where
  mirrored : ∀ caller callee, callee ∈ g.calleesOf caller ↔ caller ∈ g.callersOf callee
  nodup : ∀ name, (g.calleesOf name).Nodup ∧ (g.callersOf name).Nodup
  unordered : ∀ order : List (Text × Symbol), order.Perm symbols.functions.entries →
    ∃ g', ofProgram (symbols.reordered order) p = .ok g' ∧ g'.SameAs g
  reachable : ∀ name, name ∈ g.reachable ↔
    ∃ root ∈ g.roots, Relation.ReflTransGen (fun caller callee => callee ∈ g.calleesOf caller) root
      name
  ends : ∃ n seen, (Search.Sweep.step g.calleesOf)^[n] (.start g.roots) = ⟨seen, []⟩ ∧
    ∀ name, name ∈ seen ↔ name ∈ g.reachable

/-- **A call graph is consistent, and its reachable functions are exact.** Where every modifier of
the contracts has a body, every program has a call graph, and it is exact. -/
theorem callGraph_exact (units : List SourceUnit) (hbodies : HasBodies (.ofUnits units))
    (p : Program) :
    ∃ g, ofProgram (.ofUnits units) p = .ok g ∧ g.Exact (.ofUnits units) p := by
  have hconsistent : ∀ calls, ((empty.addAll calls).withRoots (rootsOf p)).Consistent :=
    fun calls =>
    have h := consistent_empty.addAll calls
    ⟨h.mirrored, h.callees_nodup, h.callers_nodup, h.callees_ne, h.callers_ne⟩
  have h := (hconsistent (callsOf (.ofUnits units) p)).inOrder
  refine ⟨_, ofProgram_eq hbodies p, fun x y => (h.mirrored x y).symm,
    fun name => ⟨h.callees_nodup name, h.callers_nodup name⟩, fun order horder => ?_,
    fun name => h.mem_reachable_iff, h.exists_sweep⟩
  have hbodies' : HasBodies ((SymbolTable.ofUnits units).reordered order) := hbodies
  refine ⟨_, ofProgram_eq hbodies' p, (hconsistent _).sameAs (hconsistent _) rfl fun name => ?_⟩
  calc (empty.addAll (callsOf ((SymbolTable.ofUnits units).reordered order) p)).calleesOf name
      = _ := calleesOf_addAll _ _ _
    _ = _ := by rw [filter_callsOf_reordered horder (SymbolTable.wellKeyed_ofUnits units) p name]
    _ = (empty.addAll (callsOf (.ofUnits units) p)).calleesOf name := (calleesOf_addAll _ _ _).symm

/-- Two functions that call each other, one of them with a modifier that calls an inherited
function, and a function that calls only itself and what its modifier calls. -/
def mutualSource : Text :=
  "contract B \x7b modifier m() \x7b h(0); _; \x7d " ++
    "function h(uint256 i) internal returns (uint256) \x7b return i; \x7d \x7d " ++
  "contract A is B \x7b function f(uint256 i) public m returns (uint256) \x7b return g(i); \x7d " ++
    "function g(uint256 i) internal returns (uint256) \x7b return f(i); \x7d " ++
    "function k(uint256 i) internal m returns (uint256) \x7b return k(i); \x7d \x7d"

/-- The calls go round in a circle, and the one that only calls itself is not reached. -/
theorem callGraph_exact_mutual :
    ∃ u g, parse "a.sol" mutualSource = .ok u ∧ HasBodies (.ofUnits [u]) ∧
      ofProgram (.ofUnits [u]) (lower [u]).1 = .ok g ∧ g.Exact (.ofUnits [u]) (lower [u]).1 ∧
      g.calleesOf "A.f" = ["A.g", "B.h"] ∧ g.calleesOf "A.k" = ["A.k", "B.h"] ∧
      g.reachable = ["A.f", "A.g", "B.h"] := by
  obtain ⟨u, hu, hbodies, g, hg, hcalls⟩ : ∃ u, parse "a.sol" mutualSource = .ok u ∧
      HasBodies (.ofUnits [u]) ∧ ∃ g, ofProgram (.ofUnits [u]) (lower [u]).1 = .ok g ∧
        g.calleesOf "A.f" = ["A.g", "B.h"] ∧ g.calleesOf "A.k" = ["A.k", "B.h"] ∧
        g.reachable = ["A.f", "A.g", "B.h"] := by decide +kernel
  obtain ⟨g', hg', hexact⟩ := callGraph_exact [u] hbodies (lower [u]).1
  obtain rfl : g = g' := Except.ok.inj (hg.symm.trans hg')
  exact ⟨u, g, hu, hbodies, hg, hexact, hcalls⟩

end CallGraph

end Analysis

end ContractAudit
