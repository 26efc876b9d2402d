import Mathlib.Data.List.Induction
import Mathlib.Order.Bounds.Basic
import ContractAudit.Plan.Schedule
import ContractAudit.Proofs.Plan.Order

/-!
Levels and schedules.

* `chainLengths`: how long the chains of needs are that start at a pass. `exists_longer_chain` says
  that a pass has longer chains than anything it leads to.
* `levelAbove_le_iff`, `exists_of_levelAbove`: the level above some passes is one more than the
  highest of theirs. So it is the length of the longest chain if theirs are
  (`isGreatest_levelAbove`).
* `Placed`: what holds of the levels built so far. Placing a pass behind all it needs keeps it
  (`Placed.snoc`), and the order of passes is built up that way (`placed_of_ordered`).
* `Layered`: what the levels of all passes say (`levels_layered`), and `Scheduled`: what the
  schedule says (`Layered.scheduled`).
* `schedule_layered`: both together, for all passes that do not need each other in a circle.
-/

namespace ContractAudit.Plan

open Relation (TransGen)

/-! ### What passes register -/

/-- The registrations that a pass makes in a dependency graph. -/
def PassSpec.registrations (p : PassSpec) : List Registration :=
  .pass p.id :: p.requires.map (.dependency p.id)

/-- Whether one of the passes is called `id` and needs `dep`. -/
def Requires (ps : List PassSpec) (id dep : Text) : Prop := ∃ p ∈ ps, p.id = id ∧ dep ∈ p.requires

/-- Whether one of the passes is called `id`, or needs a pass of that name. -/
def Registered (ps : List PassSpec) (id : Text) : Prop := ∃ p ∈ ps, p.id = id ∨ id ∈ p.requires

/-- What the last pass of that name reads, or the syntax tree if there is none. -/
def recorded (ps : List PassSpec) (id : Text) : Representation :=
  ((ps.reverse.find? (·.id == id)).map (·.representation)).getD .ast

open DependencyGraph (built mem_ids_built)

lemma graph_ofPasses (ps : List PassSpec) :
    (Scheduler.ofPasses ps).graph = built (ps.flatMap (·.registrations)) := by
  have hfold : ∀ s : Scheduler, (ps.foldl Scheduler.register s).graph =
      (ps.flatMap (·.registrations)).foldl DependencyGraph.register s.graph := by
    induction ps with
    | nil => simp
    | cons p rest ih =>
      intro s
      simp only [List.foldl_cons, ih, List.flatMap_cons, List.foldl_append, PassSpec.registrations,
        List.foldl_map]
      rfl
  exact hfold .empty

lemma needs_registrations (ps : List PassSpec) :
    Needs (ps.flatMap (·.registrations)) = Requires ps := by
  funext id dep
  simp [Needs, Requires, PassSpec.registrations, and_comm]

variable {ps : List PassSpec} {id dep : Text} {needs : Text → Text → Prop} {n : Nat}
  {levels : List (List Text)}

lemma mem_ids_ofPasses : id ∈ (Scheduler.ofPasses ps).graph.ids ↔ Registered ps id := by
  have hids : ∀ p : PassSpec, id ∈ p.registrations.flatMap Registration.ids ↔
      p.id = id ∨ id ∈ p.requires := by
    intro p
    simp only [PassSpec.registrations, List.flatMap_cons, List.mem_append, Registration.ids,
      List.mem_singleton, List.mem_flatMap, List.mem_map]
    constructor
    · rintro (rfl | ⟨_, ⟨dep, hdep, rfl⟩, hid⟩)
      · exact .inl rfl
      · simp only [List.mem_cons, List.not_mem_nil, or_false] at hid
        rcases hid with rfl | rfl
        · exact .inl rfl
        · exact .inr hdep
    · rintro (rfl | hid)
      · exact .inl rfl
      · exact .inr ⟨_, ⟨id, hid, rfl⟩, by simp⟩
  rw [graph_ofPasses, mem_ids_built, List.flatMap_assoc, List.mem_flatMap]
  simp only [hids, Registered]

lemma representation_ofPasses (ps : List PassSpec) (id : Text) :
    (Scheduler.ofPasses ps).representation id = recorded ps id := by
  rw [Scheduler.representation, recorded]
  congr 1
  induction ps using List.reverseRecOn with
  | nil => rfl
  | append_singleton ps p ih =>
    rw [Scheduler.ofPasses, List.foldl_append, List.reverse_append, List.reverse_singleton,
      List.singleton_append, List.find?_cons]
    show (((Scheduler.ofPasses ps).representations).set p.id p.representation).get? id = _
    rw [Table.get?_set, ih]
    by_cases hid : p.id = id
    · simp [hid]
    · simp [beq_eq_false_iff_ne.mpr hid, Ne.symm hid]

/-! ### Chains of needs -/

/-- The lengths of the chains that start at a pass and go from each pass to one that it needs. -/
def chainLengths (needs : Text → Text → Prop) (id : Text) : Set Nat :=
  {n | ∃ chain, (id :: chain).IsChain needs ∧ chain.length = n}

lemma zero_mem_chainLengths (needs : Text → Text → Prop) (id : Text) : 0 ∈ chainLengths needs id :=
  ⟨[], .singleton id, rfl⟩

/-- A chain of a needed pass makes one that is longer by one. -/
lemma succ_mem_chainLengths (h : needs id dep) (hn : n ∈ chainLengths needs dep) :
    n + 1 ∈ chainLengths needs id := by
  obtain ⟨chain, hchain, rfl⟩ := hn
  exact ⟨dep :: chain, .cons_cons h hchain, rfl⟩

/-- A chain that does not end at once goes on from a needed pass. -/
lemma exists_of_succ_mem_chainLengths (hn : n + 1 ∈ chainLengths needs id) :
    ∃ dep, needs id dep ∧ n ∈ chainLengths needs dep := by
  obtain ⟨chain, hchain, hlength⟩ := hn
  cases chain with
  | nil => contradiction
  | cons dep rest =>
    obtain ⟨hdep, hrest⟩ := List.isChain_cons_cons.mp hchain
    exact ⟨dep, hdep, rest, hrest, Nat.succ.inj hlength⟩

/-- A pass has longer chains than anything it needs, directly or not. -/
lemma exists_longer_chain (h : TransGen needs id dep) (hn : n ∈ chainLengths needs dep) :
    ∃ m ∈ chainLengths needs id, n < m := by
  induction h using TransGen.head_induction_on with
  | single h => exact ⟨n + 1, succ_mem_chainLengths h hn, Nat.lt_succ_self n⟩
  | head h _ ih =>
    obtain ⟨m, hm, hlt⟩ := ih
    exact ⟨m + 1, succ_mem_chainLengths h hm, Nat.lt_succ_of_lt hlt⟩

/-- So its longest chain is longer than that of anything it needs. -/
lemma lt_of_isGreatest_chainLengths (h : TransGen needs id dep) {m : Nat}
    (hid : IsGreatest (chainLengths needs id) m) (hdep : IsGreatest (chainLengths needs dep) n) :
    n < m := by
  obtain ⟨k, hk, hlt⟩ := exists_longer_chain h hdep.1
  exact Nat.lt_of_lt_of_le hlt (hid.2 hk)

namespace DependencyGraph

/-! ### The level above some passes -/

variable {depths : Table Text Nat} {deps : List Text} {g : DependencyGraph}

lemma levelAbove_snoc (dep : Text) :
    levelAbove depths (deps ++ [dep]) =
      max (levelAbove depths deps) ((depths.get? dep).elim 0 (· + 1)) := by
  simp only [levelAbove, List.foldl_append, List.foldl_cons, List.foldl_nil]
  cases depths.get? dep <;> simp

lemma levelAbove_le_iff {bound : Nat} :
    levelAbove depths deps ≤ bound ↔ ∀ dep ∈ deps, ∀ d, depths.get? dep = some d → d < bound := by
  induction deps using List.reverseRecOn with
  | nil => simp [levelAbove]
  | append_singleton deps dep ih =>
    have hlast : (depths.get? dep).elim 0 (· + 1) ≤ bound ↔
        ∀ d, depths.get? dep = some d → d < bound := by
      cases depths.get? dep with
      | none => simp
      | some d =>
        constructor
        · intro hle e he
          obtain rfl : d = e := Option.some.inj he
          exact hle
        · exact fun hlt => hlt d rfl
    rw [levelAbove_snoc, Nat.max_le, ih, hlast, List.forall_mem_append, List.forall_mem_singleton]

/-- A level above others is just above one of them. -/
lemma exists_of_levelAbove {d : Nat} (h : levelAbove depths deps = d + 1) :
    ∃ dep ∈ deps, depths.get? dep = some d := by
  by_contra hnone
  push Not at hnone
  have hle : levelAbove depths deps ≤ d := by
    refine levelAbove_le_iff.mpr fun dep hdep e he => ?_
    have hlt := levelAbove_le_iff.mp (Nat.le_of_eq h) dep hdep e he
    have hne : e ≠ d := fun heq => hnone dep hdep (heq ▸ he)
    omega
  omega

/-- If the levels of the needed passes are the lengths of their longest chains, so is the level
above. -/
lemma isGreatest_levelAbove (hdeps : ∀ dep, dep ∈ deps ↔ needs id dep)
    (h : ∀ dep ∈ deps, ∃ d, depths.get? dep = some d ∧ IsGreatest (chainLengths needs dep) d) :
    IsGreatest (chainLengths needs id) (levelAbove depths deps) := by
  constructor
  · cases hlevel : levelAbove depths deps with
    | zero => exact zero_mem_chainLengths needs id
    | succ d =>
      obtain ⟨dep, hdep, hget⟩ := exists_of_levelAbove hlevel
      obtain ⟨e, he, hlongest⟩ := h dep hdep
      obtain rfl : d = e := Option.some.inj (hget.symm.trans he)
      exact succ_mem_chainLengths ((hdeps dep).mp hdep) hlongest.1
  · rintro (_ | n) hn
    · exact Nat.zero_le _
    · obtain ⟨dep, hdep, hchain⟩ := exists_of_succ_mem_chainLengths hn
      obtain ⟨d, hget, hlongest⟩ := h dep ((hdeps dep).mpr hdep)
      have hlt := levelAbove_le_iff.mp (Nat.le_refl _) dep ((hdeps dep).mpr hdep) d hget
      have hle := hlongest.2 hchain
      omega

/-! ### Placing passes -/

/-- Whether a pass is in level `n`. -/
def InLevel (levels : List (List Text)) (n : Nat) (id : Text) : Prop :=
  ∃ level, levels[n]? = some level ∧ id ∈ level

lemma InLevel.lt_length (h : InLevel levels n id) : n < levels.length := by
  obtain ⟨level, hlevel, -⟩ := h
  exact (List.getElem?_eq_some_iff.mp hlevel).1

lemma exists_inLevel_iff : (∃ n, InLevel levels n id) ↔ id ∈ levels.flatten := by
  rw [List.mem_flatten]
  constructor
  · rintro ⟨n, level, hlevel, hid⟩
    exact ⟨level, List.mem_of_getElem? hlevel, hid⟩
  · rintro ⟨level, hlevel, hid⟩
    obtain ⟨n, hn⟩ := List.mem_iff_getElem?.mp hlevel
    exact ⟨n, level, hn, hid⟩

lemma inLevel_placeAt {m : Nat} {x : Text} :
    InLevel (placeAt id n levels) m x ↔ InLevel levels m x ∨ m = n ∧ x = id := by
  induction n, levels using placeAt.induct generalizing m with
  | case1 => cases m <;> simp [placeAt, InLevel]
  | case2 level levels => cases m <;> simp [placeAt, InLevel]
  | case3 n ih => cases m with
    | zero => simp [placeAt, InLevel]
    | succ m => simpa [placeAt, InLevel] using ih
  | case4 n level levels ih => cases m with
    | zero => simp [placeAt, InLevel]
    | succ m => simpa [placeAt, InLevel] using ih

lemma flatten_placeAt_perm (id : Text) (n : Nat) (levels : List (List Text)) :
    (placeAt id n levels).flatten.Perm (id :: levels.flatten) := by
  induction n, levels using placeAt.induct with
  | case1 => simp [placeAt]
  | case2 level levels =>
    simp only [placeAt, List.flatten_cons, List.append_assoc, List.singleton_append]
    exact List.perm_middle
  | case3 n ih => simpa [placeAt] using ih
  | case4 n level levels ih =>
    simp only [placeAt, List.flatten_cons]
    exact (ih.append_left level).trans List.perm_middle

/-- No level is left out when a pass is placed in one of the levels or just behind them. -/
lemma nil_notMem_placeAt (h : [] ∉ levels) (hn : n ≤ levels.length) : [] ∉ placeAt id n levels := by
  induction n, levels using placeAt.induct with
  | case1 => simp [placeAt]
  | case2 level levels => simp_all [placeAt]
  | case3 n ih => simp at hn
  | case4 n level levels ih => simp_all [placeAt]

/-- Places one pass above all it needs, and notes its level. -/
def place (g : DependencyGraph) (state : Table Text Nat × List (List Text)) (id : Text) :
    Table Text Nat × List (List Text) :=
  let n := levelAbove state.1 (g.dependencies id)
  (state.1.set id n, placeAt id n state.2)

lemma levels_of_order {order : List Text} (h : g.order = .ok order) :
    g.levels = .ok (order.foldl g.place (.empty, [])).2 := by
  rw [levels, h]
  rfl

/-- The passes `done` have been placed: each is noted and stands in the level of its longest chain,
and no level is empty. -/
structure Placed (g : DependencyGraph) (done : List Text)
    (state : Table Text Nat × List (List Text)) : Prop where
  longest : ∀ id ∈ done, ∃ n, state.1.get? id = some n ∧
    IsGreatest (chainLengths (fun a b => b ∈ g.dependencies a) id) n
  level : ∀ n id, InLevel state.2 n id ↔ state.1.get? id = some n
  perm : state.2.flatten.Perm done
  full : [] ∉ state.2

/-- One more pass is placed, behind everything it needs. -/
lemma Placed.snoc {done : List Text} {state : Table Text Nat × List (List Text)}
    (h : g.Placed done state) {x : Text} (hnew : x ∉ done)
    (hdeps : ∀ dep ∈ g.dependencies x, dep ∈ done) : g.Placed (done ++ [x]) (g.place state x) := by
  have hlongest : IsGreatest (chainLengths (fun a b => b ∈ g.dependencies a) x)
      (levelAbove state.1 (g.dependencies x)) :=
    isGreatest_levelAbove (fun _ => Iff.rfl) fun dep hdep => h.longest dep (hdeps dep hdep)
  have hle : levelAbove state.1 (g.dependencies x) ≤ state.2.length := by
    cases hlevel : levelAbove state.1 (g.dependencies x) with
    | zero => exact Nat.zero_le _
    | succ d =>
      obtain ⟨dep, -, hget⟩ := exists_of_levelAbove hlevel
      exact ((h.level d dep).mpr hget).lt_length
  have hunplaced : ∀ n, ¬ InLevel state.2 n x := fun n hn =>
    hnew (h.perm.mem_iff.mp (exists_inLevel_iff.mp ⟨n, hn⟩))
  constructor
  · intro id hid
    by_cases heq : id = x
    · exact ⟨_, by rw [place, heq, Table.get?_set_self], heq ▸ hlongest⟩
    · have hold : id ∈ done := by simpa [heq] using hid
      obtain ⟨n, hget, hn⟩ := h.longest id hold
      exact ⟨n, by rw [place, Table.get?_set_ne _ _ heq, hget], hn⟩
  · intro n id
    simp only [place, inLevel_placeAt, Table.get?_set]
    by_cases heq : id = x
    · simp [heq, hunplaced, eq_comm]
    · simp [heq, h.level]
  · calc List.Perm (g.place state x).2.flatten (x :: state.2.flatten) := flatten_placeAt_perm ..
      List.Perm _ (x :: done) := h.perm.cons x
      List.Perm _ (done ++ [x]) := (List.perm_append_singleton x done).symm
  · exact nil_notMem_placeAt h.full hle

/-- Passes in order are placed one by one. -/
lemma placed_of_ordered {next : Text → List Text} {done : List Text} (h : Ordered next done)
    (hnext : ∀ x, ∀ dep ∈ g.dependencies x, dep ∈ next x) :
    g.Placed done (done.foldl g.place (.empty, [])) := by
  induction h with
  | nil =>
    exact ⟨by simp, by simp [InLevel, Table.empty, Table.get?, Table.find?], .refl _, by simp⟩
  | snoc _ hnew hdeps ih =>
    rw [List.foldl_append]
    exact ih.snoc hnew fun dep hdep => hdeps dep (hnext _ dep hdep)

end DependencyGraph

open DependencyGraph

/-! ### Levels -/

/-- The levels of some passes: every pass is in one level, at one place there, and the number of the
level is the length of its longest chain of needs. No level is empty, and no pass of a level needs
another one of it. -/
structure Layered (ps : List PassSpec) (levels : List (List Text)) : Prop where
  once : ∀ id, Registered ps id → ∃! n, InLevel levels n id
  nodup : levels.flatten.Nodup
  registered : ∀ id ∈ levels.flatten, Registered ps id
  longest : ∀ n id, InLevel levels n id → IsGreatest (chainLengths (Requires ps) id) n
  full : [] ∉ levels
  independent : ∀ level ∈ levels, ∀ a ∈ level, ∀ b ∈ level, ¬ TransGen (Requires ps) a b

/-- Passes that do not need each other in a circle have levels. -/
lemma levels_layered (ps : List PassSpec) (hacyclic : ∀ id, ¬ TransGen (Requires ps) id id) :
    ∃ levels, (Scheduler.ofPasses ps).graph.levels = .ok levels ∧ Layered ps levels := by
  set rs := ps.flatMap (·.registrations)
  have hrequires : Needs rs = Requires ps := needs_registrations ps
  have hneeds : (fun a b => b ∈ (built rs).dependencies a) = Requires ps := by
    funext a b
    rw [mem_dependencies_built, hrequires]
  have hids : ∀ id, id ∈ (built rs).ids ↔ Registered ps id := by
    intro id
    rw [← graph_ofPasses, mem_ids_ofPasses]
  have houtcome := order_outcome rs
  rw [graph_ofPasses]
  cases horder : (built rs).order with
  | error c =>
    rw [horder] at houtcome
    refine absurd ?_ (hacyclic c.pass)
    simpa only [Outcome, Leads, mem_registered_dependencies, hrequires] using houtcome
  | ok order =>
    rw [horder] at houtcome
    obtain ⟨hdone, -, hall⟩ := houtcome
    have hplaced := placed_of_ordered (g := built rs) hdone.ordered fun x dep hdep =>
      mem_registered_dependencies.mpr (mem_dependencies_built.mp hdep)
    have hmem : ∀ id, id ∈ order ↔ Registered ps id := fun id =>
      (⟨hdone.inside id, hall id⟩ : id ∈ order ↔ id ∈ (built rs).ids).trans (hids id)
    have hlongest : ∀ n id, InLevel (order.foldl (built rs).place (.empty, [])).2 n id →
        IsGreatest (chainLengths (Requires ps) id) n := by
      intro n id hn
      have hid := hplaced.perm.mem_iff.mp (exists_inLevel_iff.mp ⟨n, hn⟩)
      obtain ⟨m, hget, hm⟩ := hplaced.longest id hid
      rw [(hplaced.level n id).mp hn, Option.some.injEq] at hget
      rwa [hneeds, ← hget] at hm
    refine ⟨_, levels_of_order horder, ?_, ?_, ?_, hlongest, hplaced.full, ?_⟩
    · intro id hid
      obtain ⟨n, hn⟩ := exists_inLevel_iff.mpr (hplaced.perm.mem_iff.mpr ((hmem id).mpr hid))
      exact ⟨n, hn, fun m hm => (hlongest m id hm).unique (hlongest n id hn)⟩
    · exact hplaced.perm.nodup_iff.mpr hdone.ordered.nodup
    · exact fun id hid => (hmem id).mp (hplaced.perm.mem_iff.mp hid)
    · intro level hlevel a ha b hb hab
      obtain ⟨n, hn⟩ := List.mem_iff_getElem?.mp hlevel
      exact Nat.lt_irrefl n (lt_of_isGreatest_chainLengths hab
        (hlongest n a ⟨level, hn, ha⟩) (hlongest n b ⟨level, hn, hb⟩))

lemma Layered.registered_iff (h : Layered ps levels) : Registered ps id ↔ id ∈ levels.flatten :=
  ⟨fun hid => exists_inLevel_iff.mp (h.once id hid).exists, h.registered id⟩

/-- What a pass needs is in an earlier level. -/
lemma Layered.exists_earlier (h : Layered ps levels) (hid : InLevel levels n id)
    (hdep : Requires ps id dep) : ∃ m < n, InLevel levels m dep := by
  obtain ⟨p, hp, hpid, hmem⟩ := hdep
  obtain ⟨m, hm, -⟩ := h.once dep ⟨p, hp, .inr hmem⟩
  exact ⟨m, lt_of_isGreatest_chainLengths (.single ⟨p, hp, hpid, hmem⟩) (h.longest n id hid)
    (h.longest m dep hm), hm⟩

/-! ### Schedules -/

/-- Whether a pass is in level `n` of a schedule. -/
def Schedule.Lists (s : Schedule) (n : Nat) (id : Text) : Prop :=
  ∃ level, s.levels[n]? = some level ∧ id ∈ level.all

/-- The schedule of some passes with the given levels: it has the same levels, with the passes of
each by what they read, everything a pass needs in an earlier level, and the index of the level that
generates the intermediate representation. -/
structure Scheduled (ps : List PassSpec) (levels : List (List Text)) (schedule : Schedule) :
    Prop where
  kept : schedule.levels.length = levels.length ∧
    ∀ n id, schedule.Lists n id ↔ InLevel levels n id
  nodup : (schedule.levels.flatMap (·.all)).Nodup
  grouped : ∀ level ∈ schedule.levels, ∀ id ∈ level.all,
    (id ∈ level.ir ↔ recorded ps id = .ir) ∧ (id ∈ level.hybrid ↔ recorded ps id = .hybrid) ∧
      (id ∈ level.ast ↔ recorded ps id ≠ .ir ∧ recorded ps id ≠ .hybrid)
  earlier : ∀ n id dep, schedule.Lists n id → Requires ps id dep → ∃ m < n, schedule.Lists m dep
  irLevel : ∀ n : Nat, schedule.irLevel = n ↔ schedule.Lists n irGeneration
  noIR : schedule.irLevel = -1 ↔ ¬ Registered ps irGeneration

lemma group_all_perm (s : Scheduler) (ids : List Text) : (s.group ids).all.Perm ids := by
  induction ids with
  | nil => exact .refl _
  | cons id rest ih =>
    simp only [Scheduler.group, ScheduleLevel.all, List.append_assoc, List.filter_cons] at ih ⊢
    cases s.representation id with
    | ast => simpa using ih
    | other => simpa using ih
    | ir => simpa using List.perm_middle.trans (ih.cons id)
    | hybrid =>
      simp only [← List.append_assoc] at ih ⊢
      simpa using List.perm_middle.trans (ih.cons id)

lemma flatMap_all_perm (s : Scheduler) (levels : List (List Text)) :
    ((levels.map s.group).flatMap (·.all)).Perm levels.flatten := by
  induction levels with
  | nil => exact .refl _
  | cons level rest ih => exact (group_all_perm s level).append ih

lemma irLevel_eq_iff {schedule : Schedule} : schedule.irLevel = n ↔ schedule.irLevel? = some n := by
  cases h : schedule.irLevel? with
  | none => simp [Schedule.irLevel, h]
  | some m =>
    have hlevel : schedule.irLevel = (m : Int) := by simp [Schedule.irLevel, h]
    rw [hlevel, Int.natCast_inj, Option.some.injEq]

lemma irLevel_eq_neg_one_iff {schedule : Schedule} :
    schedule.irLevel = -1 ↔ schedule.irLevel? = none := by
  cases h : schedule.irLevel? with
  | none => simp [Schedule.irLevel, h]
  | some m => simp [Schedule.irLevel, h]

/-- Levels that are not empty become the levels of a schedule. -/
lemma schedule_of_levels {s : Scheduler} (h : s.graph.levels = .ok levels) (hfull : [] ∉ levels) :
    s.schedule = .ok {
      levels := levels.map s.group
      needsIR := s.needsIR
      irLevel? := levels.findIdx? (·.contains irGeneration) } := by
  have hkept : levels.filter (!·.isEmpty) = levels := by
    refine List.filter_eq_self.mpr fun level hlevel => ?_
    have hne : level ≠ [] := fun hnil => hfull (hnil ▸ hlevel)
    simpa using hne
  rw [Scheduler.schedule, h]
  simp only [bind, Except.bind, hkept]
  rfl

lemma lists_map_group_iff {s : Scheduler} {needsIR : Bool} {irLevel? : Option Nat} :
    Schedule.Lists ⟨levels.map s.group, needsIR, irLevel?⟩ n id ↔ InLevel levels n id := by
  simp only [Schedule.Lists, InLevel, List.getElem?_map, Option.map_eq_some_iff]
  constructor
  · rintro ⟨_, ⟨level, hlevel, rfl⟩, hid⟩
    exact ⟨level, hlevel, (group_all_perm s level).mem_iff.mp hid⟩
  · rintro ⟨level, hlevel, hid⟩
    exact ⟨_, ⟨level, hlevel, rfl⟩, (group_all_perm s level).mem_iff.mpr hid⟩

/-- The schedule of passes that have levels. -/
lemma Layered.scheduled (h : Layered ps levels) :
    Scheduled ps levels {
      levels := levels.map (Scheduler.ofPasses ps).group
      needsIR := (Scheduler.ofPasses ps).needsIR
      irLevel? := levels.findIdx? (·.contains irGeneration) } where
  kept := ⟨List.length_map .., fun _ _ => lists_map_group_iff⟩
  nodup := (flatMap_all_perm _ levels).nodup_iff.mpr h.nodup
  grouped level hlevel id hid := by
    obtain ⟨ids, -, rfl⟩ := List.mem_map.mp hlevel
    have hmem : id ∈ ids := (group_all_perm _ ids).mem_iff.mp hid
    simp [Scheduler.group, hmem, representation_ofPasses]
  earlier n id dep hid hdep := by
    obtain ⟨m, hlt, hm⟩ := h.exists_earlier (lists_map_group_iff.mp hid) hdep
    exact ⟨m, hlt, lists_map_group_iff.mpr hm⟩
  irLevel n := by
    rw [irLevel_eq_iff, lists_map_group_iff, List.findIdx?_eq_some_iff_getElem]
    constructor
    · rintro ⟨hn, hfound, -⟩
      exact ⟨levels[n], List.getElem?_eq_getElem hn, by simpa using hfound⟩
    · rintro ⟨level, hlevel, hmem⟩
      obtain ⟨hn, rfl⟩ := List.getElem?_eq_some_iff.mp hlevel
      refine ⟨hn, by simpa using hmem, fun j hj => ?_⟩
      -- an earlier level with the pass would be the same one
      have hother : ¬ irGeneration ∈ levels[j] := fun hin => Nat.ne_of_lt hj
        ((h.longest j _ ⟨_, List.getElem?_eq_getElem _, hin⟩).unique
          (h.longest n _ ⟨_, hlevel, hmem⟩))
      simpa using hother
  noIR := by
    rw [irLevel_eq_neg_one_iff, List.findIdx?_eq_none_iff, h.registered_iff, List.mem_flatten]
    simp

/-- **Levels and schedule are right.** Passes that do not need each other in a circle have levels
and a schedule, the levels are the lengths of longest chains, and the schedule keeps them. -/
theorem schedule_layered (ps : List PassSpec) (hacyclic : ∀ id, ¬ TransGen (Requires ps) id id) :
    ∃ levels schedule, (Scheduler.ofPasses ps).graph.levels = .ok levels ∧
      (Scheduler.ofPasses ps).schedule = .ok schedule ∧ Layered ps levels ∧
      Scheduled ps levels schedule := by
  obtain ⟨levels, hlevels, hlayered⟩ := levels_layered ps hacyclic
  exact ⟨levels, _, hlevels, schedule_of_levels hlevels hlayered.full, hlayered, hlayered.scheduled⟩

/-- Passes that need only passes of a lower rank do not need each other in a circle. -/
lemma acyclic_of_rank (rank : Text → Nat) (h : ∀ p ∈ ps, ∀ dep ∈ p.requires, rank dep < rank p.id)
    (id : Text) :
    ¬ TransGen (Requires ps) id id := by
  refine not_transGen_self_of_rank rank (fun a b hneeds => ?_) id
  obtain ⟨p, hp, rfl, hdep⟩ := hneeds
  exact h p hp b hdep

/-- A pass over both representations, registered before what it needs: a pass over the intermediate
representation, which needs that to be generated, and a pass that is not registered by itself. -/
def samplePasses : List PassSpec :=
  let pass (id : Text) (representation : Representation) (requires : List Text) : PassSpec :=
    ⟨id, id, [], .program, representation, requires⟩
  [pass "both" .hybrid ["over-ir", "tree"], pass "over-ir" .ir [irGeneration],
    pass irGeneration .ast ["tree"]]

/-- The sample has four levels of one pass each, and generates the intermediate representation in
the second. -/
theorem schedule_layered_sample :
    (∀ id, ¬ TransGen (Requires samplePasses) id id) ∧
      ∃ schedule, (Scheduler.ofPasses samplePasses).graph.levels =
          .ok [["tree"], [irGeneration], ["over-ir"], ["both"]] ∧
        (Scheduler.ofPasses samplePasses).schedule = .ok schedule ∧ schedule.irLevel = 1 ∧
        Layered samplePasses [["tree"], [irGeneration], ["over-ir"], ["both"]] ∧
        Scheduled samplePasses [["tree"], [irGeneration], ["over-ir"], ["both"]] schedule := by
  have hacyclic : ∀ id, ¬ TransGen (Requires samplePasses) id id :=
    acyclic_of_rank (fun id => [("tree" : Text), irGeneration, "over-ir", "both"].idxOf id)
      (by decide +kernel)
  obtain ⟨levels, schedule, hlevels, hschedule, hlayered, hscheduled⟩ :=
    schedule_layered samplePasses hacyclic
  have hknown : (Scheduler.ofPasses samplePasses).graph.levels =
      .ok [["tree"], [irGeneration], ["over-ir"], ["both"]] := by decide +kernel
  obtain rfl := Except.ok.inj (hlevels.symm.trans hknown)
  have hir : schedule.irLevel = 1 := (hscheduled.irLevel 1).mpr
    ((hscheduled.kept.2 1 irGeneration).mpr ⟨[irGeneration], rfl, List.mem_singleton_self _⟩)
  exact ⟨hacyclic, schedule, hknown, hschedule, hir, hlayered, hscheduled⟩

end ContractAudit.Plan
