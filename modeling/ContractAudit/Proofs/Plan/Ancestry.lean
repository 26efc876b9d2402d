import ContractAudit.Proofs.Plan.Order

/-!
What a pass needs and what needs it, directly or not.

* `reaches_of_visit_error`: a visit that fails has met the cycle on its own way.
* `Listing`: the ids that one id leads to, each once and behind all it leads to itself. `Explored`:
  a search gives such a list, or fails because a cycle can be reached, and then names an id on one.
* `explored_visit`: a visit that starts with nothing done explores what its id leads to. The nodes
  of the search are taken to be the ids that can be reached, so that nothing else can be in the
  list.
* `explored_ancestors`, `explored_descendants`: so do both searches of a built graph, along the
  needs and against them. The same chains of needs connect the two
  (`ancestors_descendants_inverse`).
-/

namespace ContractAudit.Plan

open Relation (ReflTransGen TransGen)

/-- All that `id` leads to in one step or more: each once, not `id` itself, and each behind whatever
it leads to. -/
structure Listing (leads : Text → Text → Prop) (id : Text) (ids : List Text) : Prop where
  mem_iff : ∀ x, x ∈ ids ↔ TransGen leads id x
  nodup : ids.Nodup
  apart : id ∉ ids
  behind : ∀ x ∈ ids, ∀ y, TransGen leads x y → ids.idxOf y < ids.idxOf x

/-- What a search for all that `id` leads to has found: it fails exactly where a cycle can be
reached, with a failure that names an id on such a cycle, and lists what `id` leads to otherwise. -/
structure Explored (leads : Text → Text → Prop) (id : Text) (found : Except Cycle (List Text)) :
    Prop where
  fails_iff : (∃ c, found = .error c) ↔ ∃ x, ReflTransGen leads id x ∧ TransGen leads x x
  circular : ∀ c, found = .error c → ReflTransGen leads id c.pass ∧ TransGen leads c.pass c.pass ∧
    ∃ detail, c.failure = .fault .circularDependency c.pass detail
  listed : ∀ ids, found = .ok ids → Listing leads id ids

/-- Where no cycle can be reached the search finds a list. -/
lemma Explored.exists_listing {leads : Text → Text → Prop} {id : Text}
    {found : Except Cycle (List Text)} (h : Explored leads id found)
    (hacyclic : ∀ x, ¬ TransGen leads x x) :
    ∃ ids, found = .ok ids ∧ Listing leads id ids := by
  cases found with
  | error c => exact absurd (h.circular c rfl).2.1 (hacyclic c.pass)
  | ok ids => exact ⟨ids, rfl, h.listed ids rfl⟩

namespace DependencyGraph

variable {next : Text → List Text}

/-! ### Searches from one id -/

/-- A search for one id after the other fails at one of them. -/
lemma exists_of_foldlM_error {step : List Text → Text → Except Cycle (List Text)}
    {xs done : List Text} {c : Cycle} (h : xs.foldlM step done = .error c) :
    ∃ x ∈ xs, ∃ done, step done x = .error c := by
  induction xs generalizing done with
  | nil => cases h
  | cons x rest ih =>
    rw [List.foldlM_cons] at h
    cases hx : step done x with
    | error c' =>
      rw [hx] at h
      obtain rfl := Except.error.inj h
      exact ⟨x, List.mem_cons_self, done, hx⟩
    | ok done₁ =>
      rw [hx] at h
      obtain ⟨y, hy, hfails⟩ := ih h
      exact ⟨y, List.mem_cons_of_mem x hy, hfails⟩

/-- A visit that fails was visiting an id that can be reached, and came from there to one on the
path. -/
lemma reaches_of_visit_error {fuel : Nat} {path : List Text} {x : Text} {done : List Text}
    {c : Cycle} (h : visit next fuel path x done = .error c) :
    ReflTransGen (fun a b => b ∈ next a) x c.visiting ∧ c.pass ∈ next c.visiting := by
  induction fuel generalizing path x done with
  | zero => cases h
  | succ fuel ih =>
    have hfails : ∃ done, (next x).foldlM (fun done y => if y ∈ done then .ok done
        else if y ∈ x :: path then .error ⟨y, x⟩ else visit next fuel (x :: path) y done) done =
          .error c := by
      refine ⟨done, ?_⟩
      rw [visit_succ] at h
      generalize List.foldlM (m := Except Cycle) _ done (next x) = result at h ⊢
      cases result with
      | error c' => rw [Except.error.inj h]
      | ok done₁ => cases h
    obtain ⟨done, hfails⟩ := hfails
    obtain ⟨y, hy, done', hstep⟩ := exists_of_foldlM_error hfails
    split at hstep
    · cases hstep
    · split at hstep
      · obtain rfl := Except.error.inj hstep
        exact ⟨.refl, hy⟩
      · obtain ⟨hreaches, hpass⟩ := ih hstep
        exact ⟨hreaches.head hy, hpass⟩

/-- An ordered list that ends with `id` and holds what `id` reaches lists in front of it what `id`
leads to. -/
lemma Ordered.listing {before : List Text} {id : Text} (h : Ordered next (before ++ [id]))
    (hreaches : ∀ x ∈ before ++ [id], ReflTransGen (fun a b => b ∈ next a) id x) :
    Listing (fun a b => b ∈ next a) id before := by
  have hid : id ∈ before ++ [id] := by simp
  obtain ⟨hnodup, -, hapart⟩ := List.nodup_append.mp h.nodup
  have hoff : id ∉ before := fun hmem => hapart id hmem id (List.mem_singleton_self id) rfl
  have hmem : ∀ x, x ∈ before ↔ TransGen (fun a b => b ∈ next a) id x := by
    intro x
    constructor
    · intro hx
      rcases Relation.reflTransGen_iff_eq_or_transGen.mp (hreaches x (List.mem_append_left _ hx))
        with rfl | hleads
      · exact absurd hx hoff
      · exact hleads
    · intro hleads
      obtain ⟨hx, hlt⟩ := h.idxOf_lt hid hleads
      rcases List.mem_append.mp hx with hx | hx
      · exact hx
      · rw [List.mem_singleton.mp hx] at hlt
        exact absurd hlt (Nat.lt_irrefl _)
  refine ⟨hmem, hnodup, hoff, fun x hx y hxy => ?_⟩
  have hlt := (h.idxOf_lt (List.mem_append_left _ hx) hxy).2
  have hy : y ∈ before := (hmem y).mpr (((hmem x).mp hx).trans hxy)
  rwa [List.idxOf_append_of_mem hy, List.idxOf_append_of_mem hx] at hlt

/-- A visit that starts with nothing done explores what its id leads to, if the fuel covers the id
and all others that a step can lead to. -/
lemma explored_visit {ids : List Text} (hinside : ∀ x, ∀ y ∈ next x, y ∈ ids) (id : Text) :
    Explored (fun a b => b ∈ next a) id
      (visit next (ids.length + 1) [] id [] >>= fun visited => pure visited.dropLast) := by
  classical
  set nodes := (id :: ids).filter fun x => ReflTransGen (fun a b => b ∈ next a) id x with hnodes
  have hclosed : ∀ x ∈ nodes, ∀ y ∈ next x, y ∈ nodes := by
    intro x hx y hy
    have hreaches : ReflTransGen (fun a b => b ∈ next a) id x := by
      simpa using (List.mem_filter.mp hx).2
    exact List.mem_filter.mpr ⟨List.mem_cons_of_mem id (hinside x y hy), by
      simpa using hreaches.tail hy⟩
  have hid : id ∈ nodes :=
    List.mem_filter.mpr ⟨List.mem_cons_self, by simpa using ReflTransGen.refl⟩
  have houtcome : Outcome next nodes [] [id] [] (visit next (ids.length + 1) [] id []) :=
    visit_outcome hclosed _ [] id [] (List.length_filter_le _ _)
      ⟨List.nodup_singleton id, by simpa using hid, by simp⟩ ⟨.nil, by simp, by simp⟩
  cases hvisit : visit next (ids.length + 1) [] id [] with
  | error c =>
    rw [hvisit] at houtcome
    obtain ⟨hreaches, hpass⟩ := reaches_of_visit_error hvisit
    have hcycle : TransGen (fun a b => b ∈ next a) c.pass c.pass := houtcome
    refine ⟨iff_of_true ⟨c, rfl⟩ ⟨c.pass, hreaches.tail hpass, hcycle⟩, fun c' hc => ?_, nofun⟩
    obtain rfl := Except.error.inj hc
    exact ⟨hreaches.tail hpass, hcycle, _, rfl⟩
  | ok visited =>
    obtain ⟨before, rfl⟩ : ∃ before, visited = before ++ [id] := by
      rw [visit_succ] at hvisit
      generalize List.foldlM (m := Except Cycle) _ [] (next id) = result at hvisit
      cases result with
      | error c => cases hvisit
      | ok before => exact ⟨before, (Except.ok.inj hvisit).symm⟩
    rw [hvisit] at houtcome
    obtain ⟨hdone, -, -⟩ := houtcome
    have hreaches : ∀ x ∈ before ++ [id], ReflTransGen (fun a b => b ∈ next a) id x :=
      fun x hx => by
      simpa using (List.mem_filter.mp (hdone.inside x hx)).2
    have hlisting := hdone.ordered.listing hreaches
    refine ⟨iff_of_false nofun ?_, nofun, fun ids' heq => ?_⟩
    · -- an id on a cycle would come before itself
      rintro ⟨x, hx, hcycle⟩
      have hmem : x ∈ before ++ [id] := by
        rcases Relation.reflTransGen_iff_eq_or_transGen.mp hx with rfl | hleads
        · simp
        · exact List.mem_append_left _ ((hlisting.mem_iff x).mpr hleads)
      exact Nat.lt_irrefl _ (hdone.ordered.idxOf_lt hmem hcycle).2
    · obtain rfl : before = ids' := by simpa using Except.ok.inj heq
      exact hlisting

/-! ### Ancestors and descendants -/

/-- What an id of a built graph leads to in a search against the needs is what needs it. -/
lemma mem_registered_dependents {rs : List Registration} {id dep : Text} :
    id ∈ ((built rs).dependents dep).filter (built rs).has ↔ Needs rs id dep := by
  rw [List.mem_filter, (built_closed rs).mirrored, mem_dependencies_built]
  refine ⟨And.left, fun h => ⟨h, ?_⟩⟩
  simpa [has] using ((built_closed rs).ends (mem_dependencies_built.mpr h)).1

lemma explored_ancestors (rs : List Registration) (id : Text) :
    Explored (Needs rs) id ((built rs).ancestors id) := by
  have hneeds : Needs rs = fun a b => b ∈ ((built rs).dependencies a).filter (built rs).has := by
    funext a b
    exact propext mem_registered_dependencies.symm
  rw [hneeds]
  exact explored_visit (fun x y hy => by simpa [has] using (List.mem_filter.mp hy).2) id

lemma explored_descendants (rs : List Registration) (id : Text) :
    Explored (flip (Needs rs)) id ((built rs).descendants id) := by
  have hneeded : flip (Needs rs) = fun a b => b ∈ ((built rs).dependents a).filter
    (built rs).has := by
    funext a b
    exact propext mem_registered_dependents.symm
  rw [hneeded]
  exact explored_visit (fun x y hy => by simpa [has] using (List.mem_filter.mp hy).2) id

end DependencyGraph

/-- What can be reached against the needs is what reaches along them. -/
lemma transGen_flip_iff {needs : Text → Text → Prop} {a b : Text} :
    TransGen (flip needs) a b ↔ TransGen needs b a := Relation.transGen_swap

open DependencyGraph in
/-- **Ancestors and descendants are exact, and inverse to each other.** Whatever was registered, and
for every id: the search for what it needs fails exactly if a cycle can be reached along the needs,
with a circular dependency that names a pass on one. Otherwise it lists what the id needs, directly
or not, without the id, each once and behind all it needs itself. The search for what needs the id
does the same against the needs. If nothing is needed in a circle, one id is among the ancestors of
another exactly if that one is among its descendants. -/
theorem ancestors_descendants_inverse (rs : List Registration) (id : Text) :
    Explored (Needs rs) id ((built rs).ancestors id) ∧
      Explored (flip (Needs rs)) id ((built rs).descendants id) ∧
      ((∀ x, ¬ TransGen (Needs rs) x x) → ∀ other, ∃ up down, (built rs).ancestors id = .ok up ∧
        (built rs).descendants other = .ok down ∧ (other ∈ up ↔ id ∈ down)) := by
  refine ⟨explored_ancestors rs id, explored_descendants rs id, fun hacyclic other => ?_⟩
  obtain ⟨up, hup, hancestors⟩ := (explored_ancestors rs id).exists_listing hacyclic
  obtain ⟨down, hdown, hdescendants⟩ := (explored_descendants rs other).exists_listing
    fun x hcycle => hacyclic x (transGen_flip_iff.mp hcycle)
  refine ⟨up, down, hup, hdown, ?_⟩
  rw [hancestors.mem_iff, hdescendants.mem_iff, transGen_flip_iff]

/-- In the diamond the base is needed for the pass on top, so that one is among the descendants of
the base. With an edge back there is a cycle, and a pass in front of it reaches that. -/
theorem ancestors_descendants_inverse_diamond :
    (∃ up down, (DependencyGraph.built sampleDiamond).ancestors [97] = .ok up ∧
      (DependencyGraph.built sampleDiamond).descendants [100] = .ok down ∧ [100] ∈ up ∧
        [97] ∈ down) ∧
    ∃ c, (DependencyGraph.built (sampleDiamond ++
      [.dependency [100] [98], .dependency [101] [97]])).ancestors
        [101] = .error c ∧
      TransGen (Needs (sampleDiamond ++ [.dependency [100] [98], .dependency [101] [97]])) c.pass
        c.pass := by
  have hacyclic : ∀ x, ¬ TransGen (Needs sampleDiamond) x x := by
    refine not_transGen_self_of_rank (fun id => [[100], [98], [99], [97]].idxOf id)
      fun a b hneeds => ?_
    simp only [Needs, sampleDiamond, List.mem_cons, List.not_mem_nil, reduceCtorEq,
      Registration.dependency.injEq, false_or, or_false] at hneeds
    obtain ⟨rfl, rfl⟩ | ⟨rfl, rfl⟩ | ⟨rfl, rfl⟩ | ⟨rfl, rfl⟩ := hneeds <;> decide
  obtain ⟨up, down, hup, hdown, hinverse⟩ :=
    (ancestors_descendants_inverse sampleDiamond [97]).2.2 hacyclic [100]
  have hbase : (DependencyGraph.built sampleDiamond).ancestors [97] = .ok [[100], [98], [99]] := by
    decide +kernel
  have hmem : [100] ∈ up := by simp [← Except.ok.inj (hbase.symm.trans hup)]
  have hcycle : (DependencyGraph.built
      (sampleDiamond ++ [.dependency [100] [98], .dependency [101] [97]])).ancestors [101] =
        .error ⟨[98], [100]⟩ := by decide +kernel
  exact ⟨⟨up, down, hup, hdown, hmem, hinverse.mp hmem⟩,
    _, hcycle, ((ancestors_descendants_inverse _ [101]).1.circular _ hcycle).2.1⟩

end ContractAudit.Plan
