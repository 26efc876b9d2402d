import Mathlib.Data.List.Nodup
import Mathlib.Data.List.Perm.Subperm
import Mathlib.Logic.Relation
import ContractAudit.Plan.Dependency

/-!
The order of passes: each comes behind everything it needs, and a cycle is found wherever there is
one.

* `Registration`, `built`: the graphs that registering passes and dependencies gives, and what they
  contain (`mem_ids_built`, `mem_dependencies_built`). What a pass needs and what needs a pass
  mirror each other in them (`Closed`).
* `Leads`: one id leads to another in at least one step.
* `Ordered`: every id of a list comes behind all it leads to (`Ordered.idxOf_lt`), which no cycle
  allows.
* `Outcome`: what a piece of a search comes to. It appends ids to an ordered list, or names an id on
  a cycle. Pieces compose (`foldlM_outcome`), and a visit is one (`visit_outcome`).
* `order_outcome`: the order lists every pass behind what it needs, or a cycle is named.
-/

namespace ContractAudit.Plan

open Relation (TransGen)

/-- One registration in a dependency graph: a pass by itself, or a pass that needs another one. -/
inductive Registration where
  | pass (id : Text)
  | dependency (id dep : Text)
deriving DecidableEq, Repr

/-- The passes that a registration names. -/
def Registration.ids : Registration → List Text
  | .pass id => [id]
  | .dependency id dep => [id, dep]

/-- Whether it was registered that `id` needs `dep`. -/
def Needs (rs : List Registration) (id dep : Text) : Prop := .dependency id dep ∈ rs

namespace DependencyGraph

/-! ### Building graphs -/

/-- Makes one registration. -/
def register (g : DependencyGraph) : Registration → DependencyGraph
  | .pass id => g.add id
  | .dependency id dep => g.addDependency id dep

/-- The graph after some registrations. -/
def built (rs : List Registration) : DependencyGraph := rs.foldl register empty

/-- No pass is registered twice, both ends of a need are registered, and what a pass needs is
needed by it. -/
structure Closed (g : DependencyGraph) : Prop where
  nodup : g.ids.Nodup
  ends : ∀ {id dep}, dep ∈ g.dependencies id → id ∈ g.ids ∧ dep ∈ g.ids
  mirrored : ∀ {id dep}, id ∈ g.dependents dep ↔ dep ∈ g.dependencies id

variable {g : DependencyGraph} {id dep x y : Text}

lemma mem_ids_add : x ∈ (g.add id).ids ↔ x ∈ g.ids ∨ x = id := by
  rw [add, has]
  split
  · next h =>
    have h : id ∈ g.ids := by simpa using h
    exact ⟨.inl, fun hx => hx.elim (·) fun heq => heq ▸ h⟩
  · simp

lemma Closed.add (h : g.Closed) (id : Text) : (g.add id).Closed where
  nodup := by
    rw [DependencyGraph.add, has]
    split
    · exact h.nodup
    · next hnew =>
      have hnew : id ∉ g.ids := by simpa using hnew
      exact List.nodup_append.mpr ⟨h.nodup, List.nodup_singleton id, fun x hx y hy => by
        rw [List.mem_singleton.mp hy]
        exact fun heq => hnew (heq ▸ hx)⟩
  ends := by
    intro x dep hdep
    rw [dependencies_add] at hdep
    simp only [mem_ids_add]
    exact ⟨.inl (h.ends hdep).1, .inl (h.ends hdep).2⟩
  mirrored := by
    intro x dep
    rw [dependencies_add, dependents_add]
    exact h.mirrored

lemma ids_addDependency (id dep : Text) :
    (g.addDependency id dep).ids = ((g.add id).add dep).ids := rfl

lemma mem_dependencies_addDependency :
    y ∈ (g.addDependency id dep).dependencies x ↔ y ∈ g.dependencies x ∨ x = id ∧ y = dep := by
  rw [dependencies_addDependency]
  split
  · next heq => simp [heq]
  · next hne => simp [hne]

lemma mem_dependents_addDependency :
    x ∈ (g.addDependency id dep).dependents y ↔ x ∈ g.dependents y ∨ x = id ∧ y = dep := by
  rw [dependents_addDependency]
  split
  · next heq => simp [heq]
  · next hne => simp [hne]

lemma Closed.addDependency (h : g.Closed) (id dep : Text) : (g.addDependency id dep).Closed where
  nodup := ((h.add id).add dep).nodup
  ends := by
    intro x y hy
    simp only [ids_addDependency, mem_ids_add]
    rcases mem_dependencies_addDependency.mp hy with hy | ⟨rfl, rfl⟩
    · exact ⟨.inl (.inl (h.ends hy).1), .inl (.inl (h.ends hy).2)⟩
    · exact ⟨.inl (.inr rfl), .inr rfl⟩
  mirrored := by
    intro x y
    rw [mem_dependencies_addDependency, mem_dependents_addDependency, h.mirrored]

/-- A built graph is closed. -/
theorem built_closed (rs : List Registration) : (built rs).Closed := by
  have hempty : ∀ x, empty.dependencies x = [] ∧ empty.dependents x = [] := fun _ => ⟨rfl, rfl⟩
  refine List.foldlRecOn rs register (motive := Closed)
    ⟨List.nodup_nil, by simp [hempty], by simp [hempty]⟩ ?_
  intro g hg r _
  cases r with
  | pass id => exact hg.add id
  | dependency id dep => exact hg.addDependency id dep

lemma mem_dependencies_register {r : Registration} :
    dep ∈ (g.register r).dependencies id ↔ dep ∈ g.dependencies id ∨ r = .dependency id dep := by
  cases r with
  | pass x => simp [register, dependencies_add]
  | dependency x y => simp [register, mem_dependencies_addDependency, eq_comm]

lemma mem_ids_register {r : Registration} : id ∈ (g.register r).ids ↔ id ∈ g.ids ∨ id ∈ r.ids := by
  cases r with
  | pass x => simp [register, mem_ids_add, Registration.ids]
  | dependency x y => simp [register, ids_addDependency, mem_ids_add, Registration.ids, or_assoc]

variable {rs : List Registration} {next : Text → List Text} {done nodes path : List Text}

/-- The dependencies in a built graph are those that were registered. -/
theorem mem_dependencies_built : dep ∈ (built rs).dependencies id ↔ Needs rs id dep := by
  have hfold : ∀ g : DependencyGraph, dep ∈ (rs.foldl register g).dependencies id ↔
      dep ∈ g.dependencies id ∨ .dependency id dep ∈ rs := by
    induction rs with
    | nil => simp
    | cons r rest ih =>
      intro g
      rw [List.foldl_cons, ih, mem_dependencies_register, or_assoc, List.mem_cons, eq_comm]
  have hempty : dep ∉ empty.dependencies id := List.not_mem_nil
  rw [built, hfold]
  simp [hempty, Needs]

/-- The passes of a built graph are those that were named. -/
theorem mem_ids_built : id ∈ (built rs).ids ↔ id ∈ rs.flatMap Registration.ids := by
  have hfold : ∀ g : DependencyGraph, id ∈ (rs.foldl register g).ids ↔
      id ∈ g.ids ∨ id ∈ rs.flatMap Registration.ids := by
    induction rs with
    | nil => simp
    | cons r rest ih =>
      intro g
      rw [List.foldl_cons, ih, mem_ids_register, or_assoc, List.flatMap_cons, List.mem_append]
  rw [built, hfold]
  simp [empty]

/-! ### Ordered lists -/

/-- Whether `x` leads to `y` in one step or more. -/
def Leads (next : Text → List Text) : Text → Text → Prop := TransGen fun a b => b ∈ next a

/-- Every id of the list comes behind all it leads to, and none is there twice. -/
inductive Ordered (next : Text → List Text) : List Text → Prop
  | nil : Ordered next []
  | snoc {done : List Text} {x : Text} (h : Ordered next done) (hnew : x ∉ done)
      (hnext : ∀ y ∈ next x, y ∈ done) : Ordered next (done ++ [x])

lemma Ordered.nodup (h : Ordered next done) : done.Nodup := by
  induction h with
  | nil => exact List.nodup_nil
  | snoc _ hnew _ ih =>
    refine List.nodup_append.mpr ⟨ih, List.nodup_singleton _, fun x hx y hy => ?_⟩
    rw [List.mem_singleton.mp hy]
    exact fun heq => hnew (heq ▸ hx)

lemma Ordered.idxOf_lt_of_next (h : Ordered next done) (hx : x ∈ done) (hy : y ∈ next x) :
    y ∈ done ∧ done.idxOf y < done.idxOf x := by
  induction h with
  | nil => exact absurd hx List.not_mem_nil
  | @snoc done z _ hnew hnext ih =>
    by_cases hmem : x ∈ done
    · obtain ⟨hy, hlt⟩ := ih hmem
      rw [List.idxOf_append_of_mem hy, List.idxOf_append_of_mem hmem]
      exact ⟨List.mem_append_left _ hy, hlt⟩
    · have hxz : x = z := by simpa [hmem] using hx
      have hydone : y ∈ done := hnext y (hxz ▸ hy)
      rw [List.idxOf_append_of_mem hydone, List.idxOf_append_of_notMem hmem]
      exact ⟨List.mem_append_left _ hydone,
        Nat.lt_of_lt_of_le (List.idxOf_lt_length_of_mem hydone) (Nat.le_add_right ..)⟩

/-- What an id leads to, directly or not, comes before it. -/
lemma Ordered.idxOf_lt (h : Ordered next done) (hx : x ∈ done) (hxy : Leads next x y) :
    y ∈ done ∧ done.idxOf y < done.idxOf x := by
  induction hxy with
  | single hy => exact h.idxOf_lt_of_next hx hy
  | tail _ hz ih =>
    obtain ⟨hmem, hlt⟩ := h.idxOf_lt_of_next ih.1 hz
    exact ⟨hmem, Nat.lt_trans hlt ih.2⟩

/-! ### Pieces of a search -/

/-- An ordered list of nodes that has nothing of `path` in it. -/
structure Finished (next : Text → List Text) (nodes path done : List Text) : Prop where
  ordered : Ordered next done
  inside : ∀ x ∈ done, x ∈ nodes
  apart : ∀ x ∈ path, x ∉ done

/-- What a piece of a search along `path` for the ids `xs` comes to: a finished list with these ids
and all that was there before, or an id on a cycle. -/
def Outcome (next : Text → List Text) (nodes path xs done : List Text) :
    Except Cycle (List Text) → Prop
  | .ok done' => Finished next nodes path done' ∧ (∀ x ∈ done, x ∈ done') ∧ ∀ x ∈ xs, x ∈ done'
  | .error c => Leads next c.pass c.pass

/-- Looking for one id after the other. -/
lemma foldlM_outcome {step : List Text → Text → Except Cycle (List Text)} {xs : List Text}
    (hstep : ∀ x ∈ xs, ∀ done, Finished next nodes path done →
      Outcome next nodes path [x] done (step done x)) :
    ∀ done, Finished next nodes path done →
      Outcome next nodes path xs done (xs.foldlM step done) := by
  induction xs with
  | nil => exact fun done hdone => ⟨hdone, fun _ hx => hx, by simp⟩
  | cons x rest ih =>
    intro done hdone
    have hfirst := hstep x (List.mem_cons_self ..) done hdone
    rw [List.foldlM_cons]
    cases hx : step done x with
    | error c =>
      rw [hx] at hfirst
      exact hfirst
    | ok done₁ =>
      rw [hx] at hfirst
      obtain ⟨hdone₁, hkept, hfound⟩ := hfirst
      have hrest := ih (fun y hy => hstep y (List.mem_cons_of_mem _ hy)) done₁ hdone₁
      show Outcome _ _ _ _ _ (rest.foldlM step done₁)
      cases hys : rest.foldlM step done₁ with
      | error c =>
        rw [hys] at hrest
        exact hrest
      | ok done₂ =>
        rw [hys] at hrest
        obtain ⟨hdone₂, hkept₂, hfound₂⟩ := hrest
        refine ⟨hdone₂, fun y hy => hkept₂ y (hkept y hy), fun y hy => ?_⟩
        rcases List.mem_cons.mp hy with rfl | hy
        · exact hkept₂ y (hfound y (List.mem_singleton_self y))
        · exact hfound₂ y hy

/-- `x` is being visited, for the sake of the ids on `path`, which all lead to it. -/
structure Underway (next : Text → List Text) (nodes path : List Text) (x : Text) : Prop where
  nodup : (x :: path).Nodup
  inside : ∀ y ∈ x :: path, y ∈ nodes
  leads : ∀ y ∈ path, Leads next y x

/-- Everything underway leads on to what comes next. -/
lemma Underway.leads_next {z : Text} (h : Underway next nodes path x) (hy : y ∈ next x)
    (hz : z ∈ x :: path) : Leads next z y := by
  rcases List.mem_cons.mp hz with rfl | hz
  · exact .single hy
  · exact (h.leads z hz).tail hy

lemma Underway.step (h : Underway next nodes path x)
    (hclosed : ∀ x ∈ nodes, ∀ y ∈ next x, y ∈ nodes) (hy : y ∈ next x) (hoff : y ∉ x :: path) :
    Underway next nodes (x :: path) y where
  nodup := List.nodup_cons.mpr ⟨hoff, h.nodup⟩
  inside z hz := by
    rcases List.mem_cons.mp hz with rfl | hz
    · exact hclosed x (h.inside x (List.mem_cons_self ..)) z hy
    · exact h.inside z hz
  leads _ hz := h.leads_next hy hz

/-- A visit ends with its own id, behind everything that the id leads to. -/
lemma Finished.snoc (h : Finished next nodes (x :: path) done) (hx : x ∈ nodes) (hoff : x ∉ path)
    (hnext : ∀ y ∈ next x, y ∈ done) : Finished next nodes path (done ++ [x]) where
  ordered := h.ordered.snoc (h.apart x (List.mem_cons_self ..)) hnext
  inside y hy := by
    rcases List.mem_append.mp hy with hy | hy
    · exact h.inside y hy
    · rwa [List.mem_singleton.mp hy]
  apart y hy hmem := by
    rcases List.mem_append.mp hmem with hmem | hmem
    · exact h.apart y (List.mem_cons_of_mem _ hy) hmem
    · exact hoff (List.mem_singleton.mp hmem ▸ hy)

/-- A visit goes to everything that `x` leads to before it appends `x`. -/
lemma visit_succ (fuel : Nat) (path : List Text) (x : Text) (done : List Text) :
    visit next (fuel + 1) path x done = (do
      let done ← (next x).foldlM
        (fun done y => if y ∈ done then .ok done
          else if y ∈ x :: path then .error ⟨y, x⟩ else visit next fuel (x :: path) y done) done
      return done ++ [x]) := rfl

/-- A visit, if the fuel covers the nodes that are not on the path. -/
lemma visit_outcome (hclosed : ∀ x ∈ nodes, ∀ y ∈ next x, y ∈ nodes) :
    ∀ (fuel : Nat) (path : List Text) (x : Text) (done : List Text),
      nodes.length ≤ fuel + path.length → Underway next nodes path x →
      Finished next nodes (x :: path) done →
      Outcome next nodes path [x] done (visit next fuel path x done) := by
  intro fuel
  induction fuel with
  | zero =>
    -- a path without repetition is no longer than the list of nodes
    intro path x done hfuel hway _
    have hle := (hway.nodup.subperm hway.inside).length_le
    rw [List.length_cons] at hle
    omega
  | succ fuel ih =>
    intro path x done hfuel hway hdone
    -- everything that `x` leads to comes first
    have hchildren : Outcome next nodes (x :: path) (next x) done ((next x).foldlM
        (fun done y => if y ∈ done then .ok done
          else if y ∈ x :: path then .error ⟨y, x⟩ else visit next fuel (x :: path) y done)
            done) := by
      refine foldlM_outcome (fun y hy done hdone => ?_) done hdone
      split
      · next hmem => exact ⟨hdone, fun _ hz => hz, by simpa using hmem⟩
      · next hmem =>
        split
        · next hcycle => exact hway.leads_next hy hcycle
        · next hoff =>
          refine ih (x :: path) y done (by rw [List.length_cons]; omega)
            (hway.step hclosed hy hoff) ⟨hdone.ordered, hdone.inside, ?_⟩
          exact List.forall_mem_cons.mpr ⟨hmem, hdone.apart⟩
    rw [visit_succ]
    revert hchildren
    generalize List.foldlM (m := Except Cycle) _ done (next x) = result
    intro hchildren
    cases result with
    | error c => exact hchildren
    | ok done₁ =>
      obtain ⟨hdone₁, hkept, hfound⟩ := hchildren
      exact ⟨hdone₁.snoc (hway.inside x (List.mem_cons_self ..)) (List.nodup_cons.mp hway.nodup).1
        hfound, fun y hy => List.mem_append_left _ (hkept y hy), by simp⟩

/-! ### The order -/

/-- What an id of a built graph leads to in the search is what it needs. -/
lemma mem_registered_dependencies :
    dep ∈ ((built rs).dependencies id).filter (built rs).has ↔ Needs rs id dep := by
  rw [List.mem_filter, mem_dependencies_built]
  refine ⟨And.left, fun h => ⟨h, ?_⟩⟩
  simpa [has] using ((built_closed rs).ends (mem_dependencies_built.mpr h)).2

/-- The order of a built graph has every pass behind what it needs, or names a pass on a cycle. -/
lemma order_outcome (rs : List Registration) :
    Outcome (fun x => ((built rs).dependencies x).filter (built rs).has) (built rs).ids []
      (built rs).ids [] (built rs).order := by
  refine foldlM_outcome (fun x hx done hdone => ?_) [] ⟨.nil, by simp, by simp⟩
  split
  · next hmem => exact ⟨hdone, fun _ hy => hy, by simpa using hmem⟩
  · next hmem =>
    refine visit_outcome (fun x _ y hy => ?_) _ [] x done (by simp [fuel])
      ⟨List.nodup_singleton x, by simpa using hx, by simp⟩
      ⟨hdone.ordered, hdone.inside, by simpa using hmem⟩
    simpa [has] using (List.mem_filter.mp hy).2

end DependencyGraph

/-- A relation that goes down in rank has no cycle. -/
lemma not_transGen_self_of_rank {leads : Text → Text → Prop} (rank : Text → Nat)
    (h : ∀ a b, leads a b → rank b < rank a) (id : Text) : ¬ TransGen leads id id := by
  intro hcycle
  have hlt : TransGen (· > ·) (rank id) (rank id) := hcycle.lift rank h
  rw [Relation.transGen_eq_self] at hlt
  exact Nat.lt_irrefl _ hlt

open DependencyGraph in
/-- **The order of passes is right and complete.** There is one exactly if no pass needs itself,
directly or through others. It lists every registered pass once, behind all that it needs, directly
or not. If there is none, the failure is a circular dependency and names a pass on a cycle. -/
theorem order_built (rs : List Registration) :
    ((∃ order, (built rs).order = .ok order) ↔ ∀ id, ¬ TransGen (Needs rs) id id) ∧
      (∀ order, (built rs).order = .ok order →
        order.Perm (built rs).ids ∧ order.Nodup ∧
          (∀ id, id ∈ order ↔ id ∈ rs.flatMap Registration.ids) ∧
          ∀ id dep, TransGen (Needs rs) id dep → order.idxOf dep < order.idxOf id) ∧
      ∀ c, (built rs).order = .error c → TransGen (Needs rs) c.pass c.pass ∧
        ∃ detail, c.failure = .fault .circularDependency c.pass detail := by
  have hneeds : Leads (fun x => ((built rs).dependencies x).filter (built rs).has) =
      TransGen (Needs rs) := by
    simp only [Leads, mem_registered_dependencies]
  have houtcome := order_outcome rs
  cases horder : (built rs).order with
  | error c =>
    rw [horder] at houtcome
    have hcycle : TransGen (Needs rs) c.pass c.pass := hneeds ▸ houtcome
    refine ⟨⟨nofun, fun hacyclic => absurd hcycle (hacyclic c.pass)⟩, nofun, fun c' hc => ?_⟩
    obtain rfl := Except.error.inj hc
    exact ⟨hcycle, _, rfl⟩
  | ok order =>
    rw [horder] at houtcome
    obtain ⟨hdone, -, hall⟩ := houtcome
    have hbefore : ∀ id dep, TransGen (Needs rs) id dep → order.idxOf dep < order.idxOf id := by
      intro id dep hdep
      obtain ⟨x, hx, -⟩ := Relation.TransGen.head'_iff.mp hdep
      have hid : id ∈ order := hall id ((built_closed rs).ends (mem_dependencies_built.mpr hx)).1
      exact (hdone.ordered.idxOf_lt hid (hneeds ▸ hdep)).2
    have hperm : order.Perm (built rs).ids :=
      (List.perm_ext_iff_of_nodup hdone.ordered.nodup (built_closed rs).nodup).mpr
        fun x => ⟨hdone.inside x, hall x⟩
    refine ⟨⟨fun _ id hcycle => Nat.lt_irrefl _ (hbefore id id hcycle), fun _ => ⟨order, rfl⟩⟩,
      fun order' heq => ?_, nofun⟩
    obtain rfl := Except.ok.inj heq
    exact ⟨hperm, hdone.ordered.nodup, fun id => hperm.mem_iff.trans mem_ids_built, hbefore⟩

/-- A diamond: one pass needs two others, and both need a fourth one, which is registered last. -/
def sampleDiamond : List Registration :=
  [.pass [97], .dependency [97] [98], .dependency [97] [99], .dependency [98] [100],
    .dependency [99] [100]]

/-- The diamond has an order, with what all others need in front; with an edge back it has none, and
the failure names a pass on the cycle. -/
theorem order_built_diamond :
    (∃ order, (DependencyGraph.built sampleDiamond).order = .ok order ∧
      order.idxOf [100] < order.idxOf [97]) ∧
    ∃ c, (DependencyGraph.built (sampleDiamond ++ [.dependency [100] [97]])).order = .error c ∧
      TransGen (Needs (sampleDiamond ++ [.dependency [100] [97]])) c.pass c.pass := by
  have hneeds : TransGen (Needs sampleDiamond) [97] [100] :=
    .tail (.single (b := [98]) (by simp [Needs, sampleDiamond])) (by simp [Needs, sampleDiamond])
  have horder : (DependencyGraph.built sampleDiamond).order = .ok [[100], [98], [99], [97]] := by
    decide +kernel
  have hcycle : (DependencyGraph.built (sampleDiamond ++ [.dependency [100] [97]])).order =
      .error ⟨[97], [100]⟩ := by decide +kernel
  exact ⟨⟨_, horder, ((order_built sampleDiamond).2.1 _ horder).2.2.2 _ _ hneeds⟩,
    ⟨_, hcycle, ((order_built _).2.2 _ hcycle).1⟩⟩

end ContractAudit.Plan
