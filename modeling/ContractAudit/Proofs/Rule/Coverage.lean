import ContractAudit.Proofs.Flow.Layout
import ContractAudit.Proofs.Plan.Trace
import ContractAudit.Rule.Basic
import ContractAudit.Scan

/-!
Which functions the data-flow detectors visit.

Facts are kept by the names of functions, so that of functions with one name only the last keeps its
facts: overloads of a function, and functions of contracts with one name.

* `IsLast`: no function of that name comes behind it. It is the one that keeps its facts
  (`exists_facts_iff_isLast`).
* `Faithful`: what is published during an analysis belongs to its source units. Each built-in pass
  keeps it so (`Faithful.run`), and with that every run (`Faithful.trace`).
* `visited_iff_isLast`: behind a run, the detectors visit exactly the functions that are the last of
  their names.
* `overload_not_visited`: an overloaded function that no detector visits.
-/

namespace ContractAudit.Rule

open Analysis Source ContractAudit.Flow Plan

/-! ### Tables of functions -/

/-- The function stands in the program, and no function of its name comes behind it. -/
def IsLast (p : Program) (f : LoweredFunction) : Prop :=
  ∃ before behind, p.functions = before ++ f :: behind ∧ ∀ g ∈ behind, g.name ≠ f.name

lemma lookup?_eq_some_iff {p : Program} {name : Text} {f : LoweredFunction} :
    p.lookup? name = some f ↔ f.name = name ∧ IsLast p f := by
  rw [Program.lookup?, List.find?_eq_some_iff_append]
  constructor
  · rintro ⟨hname, behind, before, hreverse, hbehind⟩
    obtain rfl : f.name = name := beq_iff_eq.mp hname
    refine ⟨rfl, before.reverse, behind.reverse, ?_, fun g hg => ?_⟩
    · rw [← List.reverse_reverse p.functions, hreverse, List.reverse_append, List.reverse_cons,
        List.append_assoc, List.singleton_append]
    · simpa using hbehind g (List.mem_reverse.mp hg)
  · rintro ⟨rfl, before, behind, hall, hbehind⟩
    refine ⟨beq_iff_eq.mpr rfl, behind.reverse, before.reverse, ?_, fun g hg => ?_⟩
    · rw [hall, List.reverse_append, List.reverse_cons, List.append_assoc, List.singleton_append]
    · simpa using hbehind g (List.mem_reverse.mp hg)

lemma get?_ofProgram (p : Program) (types : TypeIndex) (limit : Int) (name : Text) :
    (Facts.ofProgram p types limit).get? name =
      (p.lookup? name).map (FlowFacts.solve · types limit) := by
  rw [Facts.ofProgram, Table.get?_ofList, ← List.map_reverse, List.find?_map, Option.map_map]
  rfl

/-- The facts of a program have an entry for a function exactly when it is the last of its name. -/
lemma exists_facts_iff_isLast {p : Program} {types : TypeIndex} {limit : Int}
    {f : LoweredFunction} :
    (∃ name entry, (Facts.ofProgram p types limit).get? name = some entry ∧ entry.function = f) ↔
      IsLast p f := by
  constructor
  · rintro ⟨name, entry, hget, rfl⟩
    rw [get?_ofProgram, Option.map_eq_some_iff] at hget
    obtain ⟨f, hlookup, rfl⟩ := hget
    exact (lookup?_eq_some_iff.mp hlookup).2
  · intro hlast
    refine ⟨f.name, FlowFacts.solve f types limit, ?_, rfl⟩
    rw [get?_ofProgram, lookup?_eq_some_iff.mpr ⟨rfl, hlast⟩, Option.map_some]

/-! ### What is published during an analysis -/

section Published

variable (us : List SourceUnit) (limit : Int)

/-- The facts of the program of the units. A limit of zero or less stands for the default. -/
def unitFacts : Facts :=
  .ofProgram (lower us).1 (.ofSymbols (.ofUnits us)) (if limit ≤ 0 then defaultIterations
    else limit)

/-- An artifact that belongs to the units, if its name is that of an artifact the facts come
from. -/
structure Belongs (key : Text) (artifact : Artifact) : Prop where
  symbols : key = symbolsKey → artifact = .symbols (.ofUnits us)
  types : key = typesKey → artifact = .types (.ofSymbols (.ofUnits us))
  facts : key = factsKey → artifact = .facts (unitFacts us limit)

/-- What is published belongs to the units, and the pass that publishes the facts has not completed
without them. -/
structure Faithful (a : Audit) : Prop where
  sources : a.sources = us
  ir : ∀ p, a.ir? = some p → p = (lower us).1
  artifacts : ∀ key artifact, a.artifacts.get? key = some artifact → Belongs us limit key artifact
  done : dataFlowId ∈ a.completed → a.hasIR = true ∧ a.artifacts.has factsKey = true

variable {us limit} {a : Audit}

/-- Names other than those of the artifacts that the facts come from are free. -/
lemma belongs_of_notMem {key : Text} (h : key ∉ [symbolsKey, typesKey, factsKey])
    (artifact : Artifact) : Belongs us limit key artifact := by
  simp only [List.mem_cons, List.not_mem_nil, or_false, not_or] at h
  exact ⟨fun hkey => absurd hkey h.1, fun hkey => absurd hkey h.2.1, fun hkey => absurd hkey h.2.2⟩

namespace Faithful

variable (h : Faithful us limit a)
include h

lemma symbols? {t : SymbolTable} (ht : Analysis.symbols? a = some t) :
    t = .ofUnits us := by
  rw [Analysis.symbols?] at ht
  split at ht
  · next hget =>
    obtain rfl := Option.some.inj ht
    exact Artifact.symbols.inj ((h.artifacts _ _ hget).symbols rfl)
  · contradiction

lemma types? {t : TypeIndex} (ht : Analysis.types? a = some t) :
    t = .ofSymbols (.ofUnits us) := by
  rw [Analysis.types?] at ht
  split at ht
  · next hget =>
    obtain rfl := Option.some.inj ht
    exact Artifact.types.inj ((h.artifacts _ _ hget).types rfl)
  · contradiction

/-- Behind the pass that publishes them, the facts are those of the units. -/
lemma facts? (hdone : dataFlowId ∈ a.completed) :
    a.ir? = some (lower us).1 ∧ Analysis.facts? a = some (unitFacts us limit) := by
  obtain ⟨hir, hfacts⟩ := h.done hdone
  obtain ⟨p, hp⟩ := Option.isSome_iff_exists.mp hir
  obtain ⟨artifact, hget⟩ := Option.isSome_iff_exists.mp hfacts
  rw [Analysis.facts?, hget, (h.artifacts _ _ hget).facts rfl, hp, h.ir p hp]
  exact ⟨rfl, rfl⟩

/-- Only the sources, what is published and the completed passes count. -/
lemma congr {b : Audit} (hsources : b.sources = a.sources)
    (hir : b.ir? = a.ir?) (hartifacts : b.artifacts = a.artifacts)
    (hcompleted : b.completed = a.completed) : Faithful us limit b :=
  ⟨hsources.trans h.sources, hir ▸ h.ir, hartifacts ▸ h.artifacts, by
    rw [hcompleted, Session.hasIR, hir, hartifacts]
    exact h.done⟩

lemma traverse (kind : Text) : Faithful us limit (a.traverse kind) :=
  h.congr rfl rfl rfl rfl

lemma store {key : Text} {artifact : Artifact}
    (hbelongs : Belongs us limit key artifact) : Faithful us limit (a.store key artifact) := by
  refine ⟨h.sources, h.ir, fun other x hget => ?_, fun hdone => ⟨(h.done hdone).1, ?_⟩⟩
  · rw [Session.store, Table.get?_set] at hget
    split at hget
    · next heq =>
      subst heq
      obtain rfl := Option.some.inj hget
      exact hbelongs
    · exact h.artifacts other x hget
  · rw [Session.store, Table.has, Table.get?_set]
    split
    · rfl
    · exact (h.done hdone).2

lemma setIR : Faithful us limit (a.setIR (lower us).1) :=
  ⟨h.sources, fun _ hp => (Option.some.inj hp).symm, h.artifacts,
    fun hdone => ⟨rfl, (h.done hdone).2⟩⟩

lemma runSymbols : Faithful us limit (Analysis.runSymbols a).1 := by
  refine (h.traverse _).store ⟨fun _ => ?_, fun h => absurd h (by decide),
    fun h => absurd h (by decide)⟩
  rw [h.sources]

lemma runTypes : Faithful us limit (Analysis.runTypes a).1 := by
  rw [Analysis.runTypes]
  cases ht : Analysis.symbols? a with
  | none => exact h
  | some t =>
    refine (h.traverse _).store ⟨fun h => absurd h (by decide), fun _ => ?_,
      fun h => absurd h (by decide)⟩
    rw [h.symbols? ht]

lemma runLowering : Faithful us limit (Analysis.runLowering a).1 := by
  have htraversed := h.traverse "ast"
  have hsources : (a.traverse "ast").sources = us := h.sources
  simp only [Analysis.runLowering, hsources]
  split
  · exact htraversed
  · exact (htraversed.store (belongs_of_notMem (by decide) _)).setIR

lemma runCalls : Faithful us limit (Analysis.runCalls a).1 := by
  rw [Analysis.runCalls]
  split
  · exact h
  · exact h
  · split
    · exact (h.traverse _).store (belongs_of_notMem (by decide) _)
    · exact (h.traverse "ir").congr rfl rfl rfl rfl

/-- The pass that publishes the facts does so whenever it succeeds. -/
lemma runDataFlow :
    Faithful us limit (Analysis.runDataFlow limit a).1 ∧
      ((Analysis.runDataFlow limit a).2 = none →
        (Analysis.runDataFlow limit a).1.hasIR = true ∧
          (Analysis.runDataFlow limit a).1.artifacts.has factsKey = true) := by
  rw [Analysis.runDataFlow]
  split
  · exact ⟨h, by simp⟩
  · exact ⟨h, by simp⟩
  · next t p ht hp =>
    obtain rfl := h.types? ht
    obtain rfl := h.ir p hp
    have hcounted : ∀ (fs : List LoweredFunction) (b : Audit), Faithful us limit b →
        b.hasIR = true → Faithful us limit (fs.foldl (fun b _ => b.traverse "cfg") b) ∧
          (fs.foldl (fun b _ => b.traverse "cfg") b).hasIR = true := by
      intro fs
      induction fs with
      | nil => exact fun b hb hir => ⟨hb, hir⟩
      | cons f fs ih => exact fun b hb hir => ih _ (hb.traverse _) hir
    obtain ⟨hfaithful, hir⟩ := hcounted (lower us).1.functions a h (by rw [Session.hasIR, hp]; rfl)
    refine ⟨hfaithful.store ⟨fun h => absurd h (by decide), fun h => absurd h (by decide),
      fun _ => rfl⟩, fun _ => ⟨hir, ?_⟩⟩
    simp [Session.store, Table.has]

/-- **A built-in pass keeps what is published faithful**, and the pass that publishes the facts does
so whenever it succeeds. -/
lemma run {p : AuditPass} (hp : p ∈ builtinPasses limit) :
    Faithful us limit (p.run a).1 ∧
      (p.id = dataFlowId → p.Succeeds a →
        (p.run a).1.hasIR = true ∧ (p.run a).1.artifacts.has factsKey = true) := by
  simp only [builtinPasses, List.mem_cons, List.not_mem_nil, or_false] at hp
  rcases hp with rfl | rfl | rfl | rfl | rfl | rfl | rfl
  · exact ⟨h.runSymbols, fun hid => absurd hid (by decide)⟩
  · exact ⟨(h.traverse _).store (belongs_of_notMem (by decide) _),
      fun hid => absurd hid (by decide)⟩
  · exact ⟨h.runTypes, fun hid => absurd hid (by decide)⟩
  · exact ⟨h.runLowering, fun hid => absurd hid (by decide)⟩
  · exact ⟨h.runCalls, fun hid => absurd hid (by decide)⟩
  · exact ⟨h.runDataFlow.1, fun _ => h.runDataFlow.2⟩
  · exact ⟨h.store (belongs_of_notMem (by decide) _),
      fun hid => absurd hid (by decide)⟩

lemma complete {id : Text}
    (hdone : id = dataFlowId → a.hasIR = true ∧ a.artifacts.has factsKey = true) :
    Faithful us limit (a.complete id) := by
  rw [Session.complete]
  split
  · exact h
  · refine ⟨h.sources, h.ir, h.artifacts, fun hmem => ?_⟩
    rcases List.mem_append.mp hmem with hmem | hmem
    · exact h.done hmem
    · exact hdone (List.mem_singleton.mp hmem).symm

/-- Whatever happens while built-in passes run, what is published stays faithful. -/
lemma trace {passes : PassTable SourceUnit Artifact Program}
    (hpasses : ∀ id p, passes.get? id = some p → p ∈ builtinPasses limit)
    {log : List (Event SourceUnit Artifact Program)} {b : Audit} (htrace : Trace passes a log b) :
    Faithful us limit b := by
  induction htrace with
  | nil => exact h
  | @snoc log e _ he ih =>
    cases e with
    | ran p before =>
      obtain ⟨hrun, hpublished⟩ := ih.run (hpasses _ p he.1)
      have hspent : Faithful us limit ((p.run before).1.spend p.id 0) := hrun.congr rfl rfl rfl rfl
      rw [Event.after]
      split
      · next hsucceeds => exact hspent.complete fun hid => hpublished hid hsucceeds
      · exact hspent
    | repeated id before => exact ih.congr rfl rfl rfl rfl
    | withheld id before => exact ih.congr rfl rfl rfl rfl

end Faithful

variable (us) in
/-- An analysis of the units in which no pass has run yet. There may be trees of the compiler. -/
structure Begun (a : Audit) : Prop where
  sources : a.sources = us
  ir : a.ir? = none
  completed : a.completed = []
  artifacts : ∀ key artifact, a.artifacts.get? key = some artifact → key = compiledKey

/-- Scans start like that. -/
lemma begun_begin (fs : FileSystem) (s : Settings) (root : Text) (us : List SourceUnit) :
    Begun us (Scan.begin fs s root us) := by
  rw [Scan.begin]
  split
  · refine ⟨rfl, rfl, rfl, fun key artifact hget => ?_⟩
    rw [Session.store, Table.get?_set] at hget
    split at hget
    · next heq => exact heq
    · exact absurd hget (by simp [Session.spend, Table.empty, Table.get?, Table.find?])
  · refine ⟨rfl, rfl, rfl, fun key artifact hget => ?_⟩
    exact absurd hget (by simp [Session.spend, Table.empty, Table.get?, Table.find?])

lemma Begun.faithful (h : Begun us a) (limit : Int) : Faithful us limit a := by
  refine ⟨h.sources, by simp [h.ir], fun key artifact hget => ?_, by simp [h.completed]⟩
  obtain rfl := h.artifacts key artifact hget
  exact belongs_of_notMem (by decide) artifact

end Published

/-! ### What the detectors visit -/

lemma mem_builtinPasses {policy : RunPolicy} {limit : Int} {disabled : List Text} {r : AuditRoster}
    (hr : builtinRoster policy limit disabled = .ok r) {id : Text} {p : AuditPass}
    (hp : r.table.get? id = some p) : p ∈ builtinPasses limit := by
  rw [builtinRoster] at hr
  cases hdropped : disabled.mapM (dropped (fullRoster policy limit)) with
  | error e => simp [hdropped, bind, Except.bind] at hr
  | ok ids =>
    simp only [hdropped, bind, Except.bind, pure, Except.pure, Except.ok.injEq] at hr
    subst hr
    exact (List.mem_filter.mp (Roster.mem_of_get?_table _ hp)).1

section Runs

variable {policy : RunPolicy} {limit : Int} {disabled : List Text} {r : AuditRoster}
  (hr : builtinRoster policy limit disabled = .ok r) {us : List SourceUnit} {start : Audit}
  (hstart : Begun us start) {canceled : Bool}
  (hdone : (r.run canceled start).1.isCompleted dataFlowId = true)

include hr hstart hdone

/-- Behind a run that completed the pass for them, the facts are those of the units. -/
lemma facts?_run :
    (r.run canceled start).1.ir? = some (lower us).1 ∧
      facts? (r.run canceled start).1 = some (unitFacts us limit) :=
  ((hstart.faithful limit).trace (fun _ _ => mem_builtinPasses hr)
    (r.trace_run canceled start)).facts?
    ((r.run canceled start).1.isCompleted_iff.mp hdone)

end Runs

/-- Detectors visit the functions that have facts. -/
lemma mem_factsFor (rule : RuleInfo) {a : Audit} {facts : Facts} (h : facts? a = some facts) :
    ∃ visited, factsFor rule a = .ok visited ∧
      ∀ entry, entry ∈ visited ↔ ∃ name, facts.get? name = some entry := by
  refine ⟨_, by rw [factsFor, h], fun entry => ?_⟩
  simp only [List.mem_filterMap, Text.sorted, List.mem_mergeSort]
  constructor
  · rintro ⟨name, -, hget⟩
    exact ⟨name, hget⟩
  · rintro ⟨name, hget⟩
    exact ⟨name, Table.mem_keys_iff.mpr ⟨entry, hget⟩, hget⟩

/-- **Of functions with one name, only the last is analysed.** When the built-in passes have run and
that for the facts has completed, a function of the program has an entry among the facts, and is
visited by every detector that reads them, exactly when no function of its name comes behind it. -/
theorem visited_iff_isLast {policy : RunPolicy} {limit : Int} {disabled : List Text}
    {r : AuditRoster}
    (hr : builtinRoster policy limit disabled = .ok r) {us : List SourceUnit} {start : Audit}
    (hstart : Begun us start) {canceled : Bool}
    (hdone : (r.run canceled start).1.isCompleted dataFlowId = true) :
    (r.run canceled start).1.ir? = some (lower us).1 ∧
      ∃ facts, facts? (r.run canceled start).1 = some facts ∧
        ∀ f ∈ (lower us).1.functions,
          ((∃ name entry, facts.get? name = some entry ∧ entry.function = f) ↔
            IsLast (lower us).1 f) ∧
          ∀ rule, ∃ visited, factsFor rule (r.run canceled start).1 = .ok visited ∧
            ((∃ entry ∈ visited, entry.function = f) ↔ IsLast (lower us).1 f) := by
  obtain ⟨hir, hfacts⟩ := facts?_run hr hstart hdone
  have hexists : ∀ f, (∃ name entry, (unitFacts us limit).get? name = some entry ∧
      entry.function = f) ↔ IsLast (lower us).1 f := fun f => exists_facts_iff_isLast
  refine ⟨hir, unitFacts us limit, hfacts, fun f _ => ⟨hexists f, fun rule => ?_⟩⟩
  obtain ⟨visited, hvisited, hmem⟩ := mem_factsFor rule hfacts
  refine ⟨visited, hvisited, ?_⟩
  rw [← hexists]
  constructor
  · rintro ⟨entry, hentry, hf⟩
    obtain ⟨name, hget⟩ := (hmem entry).mp hentry
    exact ⟨name, entry, hget, hf⟩
  · rintro ⟨name, entry, hget, hf⟩
    exact ⟨entry, (hmem entry).mpr ⟨name, hget⟩, hf⟩

/-! ### An overloaded function -/

/-- A contract with two functions of one name. -/
def overloadedSource : Text :=
  "contract A \x7bfunction f() \x7b\x7d function f(uint a) \x7b\x7d \x7d"

/-- The state in which its analysis starts. -/
def overloadedStart (u : SourceUnit) : Audit := Scan.begin {} {} "." [u]

/-- How its passes run. -/
def overloadedPolicy : RunPolicy := ⟨true, false, 0⟩

/-- The passes complete, and both functions are lowered. Only the second has a parameter. -/
lemma exists_overloaded :
    ∃ u r f g, parse "a.sol" overloadedSource = .ok u ∧ builtinRoster overloadedPolicy 0
      [] = .ok r ∧ (r.run false (overloadedStart u)).1.isCompleted dataFlowId = true ∧
      (lower [u]).1.functions = [f, g] ∧ f.name = g.name ∧ f.params ≠ g.params := by
  obtain ⟨u, hu, ⟨r, hr, hdone⟩, hfunctions⟩ : ∃ u, parse "a.sol" overloadedSource = .ok u ∧
      (∃ r, builtinRoster overloadedPolicy 0 [] = .ok r ∧
        (r.run false (overloadedStart u)).1.isCompleted dataFlowId = true) ∧
      ((lower [u]).1.functions.map fun f => (f.name, f.params)) =
        ([("A.f", []), ("A.f", ["a"])] : List (Text × List Text)) := by decide +kernel
  obtain ⟨f, rest, hall, hf, hrest⟩ := List.map_eq_cons_iff.mp hfunctions
  obtain ⟨g, last, rfl, hg, hlast⟩ := List.map_eq_cons_iff.mp hrest
  obtain rfl := List.map_eq_nil_iff.mp hlast
  obtain ⟨hfname, hfparams⟩ := Prod.mk.inj hf
  obtain ⟨hgname, hgparams⟩ := Prod.mk.inj hg
  exact ⟨u, r, f, g, hu, hr, hdone, hall, hfname.trans hgname.symm, by
    simp [hfparams, hgparams]⟩

/-- The second function, which is the last of its name, is visited for every rule. -/
theorem visited_iff_isLast_overloaded :
    ∃ u r f g, parse "a.sol" overloadedSource = .ok u ∧ builtinRoster overloadedPolicy 0
      [] = .ok r ∧ (r.run false (overloadedStart u)).1.isCompleted dataFlowId = true ∧
      (lower [u]).1.functions = [f, g] ∧ f.name = g.name ∧
      ∀ rule, ∃ visited, factsFor rule (r.run false (overloadedStart u)).1 = .ok visited ∧
        ∃ entry ∈ visited, entry.function = g := by
  obtain ⟨u, r, f, g, hu, hr, hdone, hall, hname, -⟩ := exists_overloaded
  obtain ⟨-, facts, -, hvisited⟩ := visited_iff_isLast hr (begun_begin {} {} "." [u]) hdone
  refine ⟨u, r, f, g, hu, hr, hdone, hall, hname, fun rule => ?_⟩
  obtain ⟨visited, hfor, hiff⟩ := (hvisited g (by simp [hall])).2 rule
  exact ⟨visited, hfor, hiff.mpr ⟨[f], [], hall, by simp⟩⟩

/-- **The first of two overloads is not analysed**: it is lowered, but there are no facts about it,
and no detector that reads facts visits it. -/
theorem overload_not_visited :
    ∃ u r f, parse "a.sol" overloadedSource = .ok u ∧ builtinRoster overloadedPolicy 0 [] = .ok r ∧
      (r.run false (overloadedStart u)).1.isCompleted dataFlowId = true ∧
      (r.run false (overloadedStart u)).1.ir? = some (lower [u]).1 ∧ f ∈ (lower [u]).1.functions ∧
      ∃ facts, facts? (r.run false (overloadedStart u)).1 = some facts ∧
        (∀ name entry, facts.get? name = some entry → entry.function ≠ f) ∧
        ∀ rule visited, factsFor rule (r.run false (overloadedStart u)).1 = .ok visited →
          ∀ entry ∈ visited, entry.function ≠ f := by
  obtain ⟨u, r, f, g, hu, hr, hdone, hall, hname, hparams⟩ := exists_overloaded
  obtain ⟨hir, hfacts⟩ := facts?_run hr (begun_begin {} {} "." [u]) hdone
  have hlast : ¬ IsLast (lower [u]).1 f := by
    intro hlast
    have hlookup : (lower [u]).1.lookup? f.name = some f := lookup?_eq_some_iff.mpr ⟨rfl, hlast⟩
    have hsame : g = f := by simpa [Program.lookup?, hall, hname] using hlookup
    exact hparams (by rw [hsame])
  have hentries : ∀ name entry, (unitFacts [u] 0).get? name = some entry → entry.function ≠ f :=
    fun name entry hget hf => hlast (exists_facts_iff_isLast.mp ⟨name, entry, hget, hf⟩)
  refine ⟨u, r, f, hu, hr, hdone, hir, by simp [hall], unitFacts [u] 0, hfacts, hentries, ?_⟩
  intro rule visited hfor entry hentry
  obtain ⟨visited', hfor', hmem⟩ := mem_factsFor rule hfacts
  obtain rfl : visited' = visited := Except.ok.inj (hfor'.symm.trans hfor)
  obtain ⟨name, hget⟩ := (hmem entry).mp hentry
  exact hentries name entry hget

end ContractAudit.Rule
