import ContractAudit.Analysis.Passes
import ContractAudit.Proofs.Plan.Ancestry
import ContractAudit.Proofs.Plan.Readiness

/-!
Taking passes out of a roster together with all that needs them.

* `chainLengths_congr`: chains of needs that start in a set which needs nothing outside it are the
  same for any two relations that agree on the set.
* `Layered.inLevel_iff`: the level of a pass is the length of its longest chain, so a pass keeps its
  level if it keeps its chains.
* `Roster.DropsDependents`: a list of passes that has the descendants of each of them. What is left
  without it needs nothing that was taken out (`DropsDependents.not_mem_of_requires`).
* `schedule_disable`: the schedule of what is left has the same passes in the same levels, and none
  of them can fail for want of a pass.
* `dropsDependents_of_dropped`: the passes that are dropped from the built-in ones are such a list.
-/

namespace ContractAudit.Plan

open Relation (TransGen)
open DependencyGraph (InLevel)

variable {S A I : Type}

/-! ### Chains that are left -/

/-- Chains depend on the needs of the passes on them only. -/
lemma chainLengths_congr {needs needs' : Text → Text → Prop} {kept : Text → Prop}
    (hsame : ∀ a, kept a → ∀ b, needs a b ↔ needs' a b) (hkept : ∀ a, kept a → ∀ b, needs a b →
      kept b)
    {id : Text} (hid : kept id) : chainLengths needs id = chainLengths needs' id := by
  ext n
  induction n generalizing id with
  | zero => exact iff_of_true (zero_mem_chainLengths needs id) (zero_mem_chainLengths needs' id)
  | succ n ih =>
    constructor
    · intro hn
      obtain ⟨dep, hdep, hchain⟩ := exists_of_succ_mem_chainLengths hn
      exact succ_mem_chainLengths ((hsame id hid dep).mp hdep)
        ((ih (hkept id hid dep hdep)).mp hchain)
    · intro hn
      obtain ⟨dep, hdep, hchain⟩ := exists_of_succ_mem_chainLengths hn
      have hneeds : needs id dep := (hsame id hid dep).mpr hdep
      exact succ_mem_chainLengths hneeds ((ih (hkept id hid dep hneeds)).mpr hchain)

/-- A registered pass is in the level of its longest chain, and in no other. -/
lemma Layered.inLevel_iff {ps : List PassSpec} {levels : List (List Text)} (h : Layered ps levels)
    {n : Nat} {id : Text} : InLevel levels n id ↔ Registered ps id ∧
      IsGreatest (chainLengths (Requires ps) id) n := by
  constructor
  · intro hn
    exact ⟨h.registered_iff.mpr (DependencyGraph.exists_inLevel_iff.mp ⟨n, hn⟩), h.longest n id hn⟩
  · rintro ⟨hid, hlongest⟩
    obtain ⟨m, hm, -⟩ := h.once id hid
    exact hlongest.unique (h.longest m id hm) ▸ hm

/-- A known pass fails only if its body does, and then with the failure of the body inside. -/
lemma Known.failure_runSingle {passes : PassTable S A I} {id : Text} (h : Known passes id)
    {s : Session S A I} {record : PassRecord} {e : Failure}
    (hrun : (runSingle passes id s).2 = some (record, some e)) :
    ∃ p cause, passes.get? id = some p ∧ (p.run s).2 = some cause ∧ e = .inside id cause := by
  obtain ⟨p, hp, hneeds⟩ := h
  have hnone : p.requires.find? (fun dep => !passes.has dep) = none := by
    simpa using hneeds
  unfold runSingle at hrun
  split at hrun
  · cases hrun
  · simp only [hp, hnone] at hrun
    rcases hbody : p.run s with ⟨t, _ | cause⟩
    · simp [hbody] at hrun
    · simp only [hbody, Option.some.injEq, Prod.mk.injEq] at hrun
      exact ⟨p, cause, hp, by rw [hbody], hrun.2.symm⟩

namespace Roster

variable {r : Roster S A I} {ids : List Text}

/-! ### Passes that are left -/

/-- Whether the list has, with each of its passes, all that needs it, directly or not. -/
def DropsDependents (r : Roster S A I) (ids : List Text) : Prop :=
  ∀ id ∈ ids, ∀ found, r.graph.descendants id = .ok found → found ⊆ ids

/-- What the search for descendants of a pass finds in the graph of a roster. -/
lemma explored_descendants (r : Roster S A I) (id : Text) :
    Explored (flip (Requires r.specs)) id (r.graph.descendants id) := by
  rw [r.graph_eq_built, ← needs_registrations]
  exact DependencyGraph.explored_descendants _ id

/-- Passes that do not need each other in a circle have descendants. -/
lemma exists_descendants (hacyclic : ∀ id, ¬ TransGen (Requires r.specs) id id) (id : Text) :
    ∃ found, r.graph.descendants id = .ok found ∧ ∀ x, x ∈ found ↔
      TransGen (Requires r.specs) x id := by
  obtain ⟨found, hfound, hlisting⟩ := (r.explored_descendants id).exists_listing
    fun x hcycle => hacyclic x (transGen_flip_iff.mp hcycle)
  exact ⟨found, hfound, fun x => (hlisting.mem_iff x).trans transGen_flip_iff⟩

/-- A pass that is left needs nothing that was taken out. -/
lemma DropsDependents.not_mem_of_requires (h : r.DropsDependents ids)
    (hacyclic : ∀ id, ¬ TransGen (Requires r.specs) id id) {id dep : Text} (hid : id ∉ ids)
    (hdep : Requires r.specs id dep) : dep ∉ ids := by
  intro hmem
  obtain ⟨found, hfound, hlisted⟩ := exists_descendants hacyclic dep
  exact hid (h dep hmem found hfound ((hlisted id).mpr (.single hdep)))

lemma mem_passes_disable {p : Pass S A I} : p ∈ (r.disable ids).passes ↔ p ∈ r.passes ∧
    p.id ∉ ids := by
  simp [disable]

lemma requires_disable {id dep : Text} :
    Requires (r.disable ids).specs id dep ↔ Requires r.specs id dep ∧ id ∉ ids := by
  constructor
  · rintro ⟨spec, hspec, rfl, hdep⟩
    obtain ⟨p, hp, rfl⟩ := List.mem_map.mp hspec
    obtain ⟨hp, hid⟩ := mem_passes_disable.mp hp
    exact ⟨⟨_, List.mem_map_of_mem hp, rfl, hdep⟩, hid⟩
  · rintro ⟨⟨spec, hspec, rfl, hdep⟩, hid⟩
    obtain ⟨p, hp, rfl⟩ := List.mem_map.mp hspec
    exact ⟨_, List.mem_map_of_mem (mem_passes_disable.mpr ⟨hp, hid⟩), rfl, hdep⟩

/-- If every needed pass is there, the registered passes are those of the roster. -/
lemma registered_specs_iff (hregistered : ∀ p ∈ r.passes, ∀ dep ∈ p.requires, ∃ q ∈ r.passes,
    q.id = dep) {id : Text} : Registered r.specs id ↔ ∃ p ∈ r.passes, p.id = id := by
  constructor
  · rintro ⟨spec, hspec, hid⟩
    obtain ⟨p, hp, rfl⟩ := List.mem_map.mp hspec
    exact hid.elim (fun hid => ⟨p, hp, hid⟩) (hregistered p hp id)
  · rintro ⟨p, hp, hid⟩
    exact ⟨p.toPassSpec, List.mem_map_of_mem hp, .inl hid⟩

/-- The passes of a roster that do not need each other in a circle have a schedule, with each
registered pass in the level of its longest chain. -/
lemma exists_schedule (hacyclic : ∀ id, ¬ TransGen (Requires r.specs) id id) :
    ∃ schedule, r.schedule = .ok schedule ∧ (schedule.levels.flatMap (·.all)).Nodup ∧
      (∀ id, (∃ n, schedule.Lists n id) ↔ Registered r.specs id) ∧
      ∀ n id, schedule.Lists n id ↔
        Registered r.specs id ∧ IsGreatest (chainLengths (Requires r.specs) id) n := by
  obtain ⟨levels, hlevels, hlayered⟩ := levels_layered r.specs hacyclic
  have hschedule := schedule_of_levels hlevels hlayered.full
  have hlists := hlayered.scheduled.kept.2
  refine ⟨_, ?_, hlayered.scheduled.nodup, fun id => ?_, fun n id =>
    (hlists n id).trans hlayered.inLevel_iff⟩
  · rw [Roster.schedule, r.scheduler_eq, ← specs, hschedule]
  · rw [hlayered.registered_iff, ← DependencyGraph.exists_inLevel_iff]
    exact exists_congr fun n => hlists n id

/-- What taking passes out leaves of a schedule: the passes that are left are in the same levels as
before, each once, and when one of them fails it is for its own body and not for want of a pass. -/
structure KeepsRest (r : Roster S A I) (ids : List Text) (before after : Schedule) : Prop where
  remaining : ∀ id, (∃ n, after.Lists n id) ↔ ∃ p ∈ (r.disable ids).passes, p.id = id
  nodup : (after.levels.flatMap (·.all)).Nodup
  level : ∀ n id, after.Lists n id ↔ before.Lists n id ∧ id ∉ ids
  found : ∀ n id, after.Lists n id → ∀ s record e,
    (runSingle (r.disable ids).table id s).2 = some (record, some e) →
      e.kind? ≠ some .passNotFound ∧
        ∃ p ∈ (r.disable ids).passes, ∃ cause, p.id = id ∧ (p.run s).2 = some cause ∧
          e = .inside id cause

/-- **Taking out passes with all that needs them leaves the rest intact.** Let passes not need each
other in a circle, let everything they need be there, and take out passes together with their
descendants. What is left has a schedule with exactly these passes, each in the level it had before,
and none of them can fail for want of a pass. -/
theorem schedule_disable (r : Roster S A I) (hacyclic : ∀ id, ¬ TransGen (Requires r.specs) id id)
    (hregistered : ∀ p ∈ r.passes, ∀ dep ∈ p.requires, ∃ q ∈ r.passes, q.id = dep) (ids : List Text)
    (hdrops : r.DropsDependents ids) :
    ∃ before after, r.schedule = .ok before ∧ (r.disable ids).schedule = .ok after ∧
      r.KeepsRest ids before after := by
  have hleft : ∀ id, id ∉ ids → ∀ dep, Requires r.specs id dep → dep ∉ ids := fun id hid dep =>
    hdrops.not_mem_of_requires hacyclic hid
  have hneeds : ∀ id, id ∉ ids → ∀ dep, Requires r.specs id dep ↔ Requires (r.disable ids).specs id
    dep := fun id hid dep => (requires_disable.trans (and_iff_left hid)).symm
  have hacyclic' : ∀ id, ¬ TransGen (Requires (r.disable ids).specs) id id := fun id hcycle =>
    hacyclic id (TransGen.mono (fun a b (h : Requires _ a b) => (requires_disable.mp h).1)
      id id hcycle)
  have hregistered' : ∀ p ∈ (r.disable ids).passes, ∀ dep ∈ p.requires,
      ∃ q ∈ (r.disable ids).passes, q.id = dep := by
    intro p hp dep hdep
    obtain ⟨hp, hid⟩ := mem_passes_disable.mp hp
    obtain ⟨q, hq, rfl⟩ := hregistered p hp dep hdep
    exact ⟨q, mem_passes_disable.mpr ⟨hq, hleft p.id hid q.id ⟨_, List.mem_map_of_mem hp, rfl,
      hdep⟩⟩, rfl⟩
  have hpasses : ∀ id, Registered (r.disable ids).specs id ↔ Registered r.specs id ∧ id ∉ ids := by
    intro id
    rw [registered_specs_iff hregistered', registered_specs_iff hregistered]
    simp only [mem_passes_disable]
    grind
  obtain ⟨before, hbefore, -, -, hlists⟩ := exists_schedule hacyclic
  obtain ⟨after, hafter, hnodup, hlisted, hlists'⟩ := exists_schedule hacyclic'
  refine ⟨before, after, hbefore, hafter, fun id => ?_, hnodup, fun n id => ?_,
    fun n id hid s record e hrun => ?_⟩
  · rw [hlisted, registered_specs_iff hregistered']
  · rw [hlists, hlists', hpasses, and_right_comm]
    refine and_congr_left fun hid => and_congr_right fun _ => ?_
    rw [chainLengths_congr hneeds hleft hid]
  · have hknown : Known (r.disable ids).table id :=
      (r.disable ids).known_of_registered hregistered' ((hlisted id).mp ⟨n, hid⟩)
    obtain ⟨p, cause, hp, hcause, rfl⟩ := hknown.failure_runSingle hrun
    exact ⟨by simp [Failure.kind?], p, (r.disable ids).mem_of_get?_table hp, cause,
      (r.disable ids).named_table id p hp, hcause, rfl⟩

end Roster

end ContractAudit.Plan

namespace ContractAudit.Analysis

open Relation (TransGen)
open Plan

/-! ### Built-in passes -/

/-- What a list of choices that can fail comes to, item by item. -/
lemma exists_of_mem_mapM {ε α β : Type} {f : α → Except ε β} {xs : List α} {ys : List β}
    (h : xs.mapM f = .ok ys) {y : β} (hy : y ∈ ys) : ∃ x ∈ xs, f x = .ok y := by
  induction xs generalizing ys with
  | nil =>
    obtain rfl := Except.ok.inj h
    cases hy
  | cons x rest ih =>
    rw [List.mapM_cons] at h
    cases hx : f x with
    | error e => simp [hx, bind, Except.bind] at h
    | ok z =>
      cases hrest : rest.mapM f with
      | error e => simp [hx, hrest, bind, Except.bind] at h
      | ok zs =>
        obtain rfl : z :: zs = ys := by
          simpa [hx, hrest, bind, Except.bind, pure, Except.pure] using h
        obtain rfl | hy := List.mem_cons.mp hy
        · exact ⟨x, List.mem_cons_self, hx⟩
        · obtain ⟨w, hw, hfw⟩ := ih hrest hy
          exact ⟨w, List.mem_cons_of_mem x hw, hfw⟩

/-- What is dropped for some disabled passes has, with each pass, all that needs it. -/
lemma dropsDependents_of_dropped {r : AuditRoster}
    (hacyclic : ∀ id, ¬ TransGen (Requires r.specs) id id)
    {disabled : List Text} {drops : List (List Text)} (h : disabled.mapM (dropped r) = .ok drops) :
    r.DropsDependents drops.flatten := by
  intro x hx found hfound y hy
  obtain ⟨ids, hids, hx⟩ := List.mem_flatten.mp hx
  obtain ⟨id, -, hdropped⟩ := exists_of_mem_mapM h hids
  obtain ⟨needing, hneeding, hlisted⟩ := Roster.exists_descendants hacyclic id
  obtain ⟨needing', hneeding', hlisted'⟩ := Roster.exists_descendants hacyclic x
  obtain rfl : needing' = found := Except.ok.inj (hneeding'.symm.trans hfound)
  have hdrop : id :: needing = ids := by
    rw [dropped, hneeding] at hdropped
    split at hdropped
    · cases hdropped
    · exact Except.ok.inj hdropped
  subst hdrop
  -- what needs a descendant is a descendant
  have hyx : TransGen (Requires r.specs) y x := (hlisted' y).mp hy
  refine List.mem_flatten.mpr ⟨_, hids, List.mem_cons_of_mem id ((hlisted y).mpr ?_)⟩
  obtain rfl | hx := List.mem_cons.mp hx
  · exact hyx
  · exact hyx.trans ((hlisted x).mp hx)

/-- Without the lowering go the call graph and the data flow, which need it. The type index stays in
the second level and the others stay in the first. -/
theorem schedule_disable_lowering :
    ∃ drops before after, [irGeneration].mapM (dropped (fullRoster ⟨true, false, 0⟩ 0)) = .ok
      drops ∧ drops.flatten = [irGeneration, callGraphId, dataFlowId] ∧
      (fullRoster ⟨true, false, 0⟩ 0).schedule = .ok before ∧
      ((fullRoster ⟨true, false, 0⟩ 0).disable drops.flatten).schedule = .ok after ∧
      before.levels.map (·.all) = [[symbolTableId, syntaxAnalysisId, chaincodeId],
        [typeIndexId, irGeneration], [callGraphId, dataFlowId]] ∧
      after.levels.map (·.all) = [[symbolTableId, syntaxAnalysisId, chaincodeId], [typeIndexId]] ∧
      (fullRoster ⟨true, false, 0⟩ 0).KeepsRest drops.flatten before after := by
  have hacyclic : ∀ id, ¬ TransGen (Requires (fullRoster ⟨true, false, 0⟩ 0).specs) id id :=
    acyclic_of_rank (fun id => ((builtinPasses 0).map (·.id)).idxOf id) (by decide +kernel)
  have hdrops : [irGeneration].mapM (dropped (fullRoster ⟨true, false, 0⟩ 0)) =
      .ok [[irGeneration, callGraphId, dataFlowId]] := by decide +kernel
  obtain ⟨before, after, hbefore, hafter, hrest⟩ :=
    Roster.schedule_disable (fullRoster ⟨true, false, 0⟩ 0)
    hacyclic (by decide +kernel) _ (dropsDependents_of_dropped hacyclic hdrops)
  have hlevels : (fullRoster ⟨true, false, 0⟩ 0).schedule.map (·.levels.map (·.all)) =
      .ok [[symbolTableId, syntaxAnalysisId, chaincodeId], [typeIndexId, irGeneration],
        [callGraphId, dataFlowId]] := by decide +kernel
  have hlevels' : ((fullRoster ⟨true, false, 0⟩ 0).disable
      [[irGeneration, callGraphId, dataFlowId]].flatten).schedule.map (·.levels.map (·.all)) =
      .ok [[symbolTableId, syntaxAnalysisId, chaincodeId], [typeIndexId]] := by decide +kernel
  rw [hbefore] at hlevels
  rw [hafter] at hlevels'
  exact ⟨_, before, after, hdrops, rfl, hbefore, hafter, Except.ok.inj hlevels,
    Except.ok.inj hlevels', hrest⟩

end ContractAudit.Analysis
