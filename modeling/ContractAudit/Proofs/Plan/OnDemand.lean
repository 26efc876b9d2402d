import ContractAudit.Proofs.Plan.Readiness

/-!
Running one pass on demand follows the dependency graph.

* `Roster.Built`: rosters made by registering passes and taking some out. No two of their passes
  have one id, so a pass leads in the graph to what it needs, each once (`Roster.next_graph`).
* `Roster.demand_of_le`: no pass is on a path twice, so a run on demand ends whatever it meets.
* `Agrees`: what a search of the graph and a run on demand have in common. A search and a run for
  one pass after the other agree if those for each do (`agrees_foldlM`), and by induction along the
  path all of them do (`agrees_demand`).
* `runOne_calls_ancestors`: a run on demand calls the passes that its pass needs, directly or not,
  in the order in which the graph lists them, or it fails at the cycle that the graph reports.
-/

namespace ContractAudit.Plan

variable {S A I : Type} {id : Text} {needs : List (Text × List Text)}

/-! ### What a pass leads to -/

/-- Appends the ids that are not there yet, one by one. -/
def appendNew (known ids : List Text) : List Text := ids.foldl DependencyGraph.withId known

lemma appendNew_cons (known : List Text) (id : Text) (rest : List Text) :
    appendNew known (id :: rest) = appendNew (DependencyGraph.withId known id) rest := rfl

lemma mem_appendNew {known ids : List Text} {x : Text} :
    x ∈ appendNew known ids ↔ x ∈ known ∨ x ∈ ids := by
  rw [appendNew]
  induction ids generalizing known with
  | nil => simp
  | cons id rest ih => simp [ih, or_assoc]

lemma dependencies_register (s : Scheduler) (p : PassSpec) (x : Text) :
    (s.register p).graph.dependencies x =
      if x = p.id then appendNew (s.graph.dependencies x) p.requires
        else s.graph.dependencies x := by
  have hfold : ∀ (ids : List Text) (g : DependencyGraph),
      (ids.foldl (fun g dep => g.addDependency p.id dep) g).dependencies x =
        if x = p.id then appendNew (g.dependencies x) ids else g.dependencies x := by
    intro ids
    induction ids with
    | nil => simp [appendNew]
    | cons dep rest ih =>
      intro g
      rw [List.foldl_cons, ih, g.dependencies_addDependency]
      by_cases hx : x = p.id <;> simp [hx, appendNew]
  rw [Scheduler.register, hfold, s.graph.dependencies_add]

/-- Registering passes of other names does not change what a pass needs. -/
lemma dependencies_foldl_register {ps : List PassSpec} {x : Text} (h : ∀ p ∈ ps, p.id ≠ x)
    (s : Scheduler) : (ps.foldl Scheduler.register s).graph.dependencies x = s.graph.dependencies
      x := by
  induction ps generalizing s with
  | nil => rfl
  | cons p rest ih =>
    obtain ⟨hp, hrest⟩ := List.forall_mem_cons.mp h
    rw [List.foldl_cons, ih hrest, dependencies_register, if_neg (Ne.symm hp)]

/-- In the graph a pass needs what it names, each once and in the order of first mention. -/
lemma dependencies_ofPasses {ps : List PassSpec} (hnodup : (ps.map (·.id)).Nodup) {p : PassSpec}
    (hp : p ∈ ps) : (Scheduler.ofPasses ps).graph.dependencies p.id = appendNew [] p.requires := by
  obtain ⟨front, behind, rfl⟩ := List.append_of_mem hp
  rw [List.map_append, List.map_cons, List.nodup_append, List.nodup_cons] at hnodup
  obtain ⟨-, ⟨hbehind, -⟩, hfront⟩ := hnodup
  have hbefore : ∀ q ∈ front, q.id ≠ p.id := fun q hq =>
    hfront q.id (List.mem_map_of_mem hq) p.id List.mem_cons_self
  have hafter : ∀ q ∈ behind, q.id ≠ p.id := fun q hq heq => hbehind (heq ▸ List.mem_map_of_mem hq)
  rw [Scheduler.ofPasses, List.foldl_append, List.foldl_cons, dependencies_foldl_register hafter,
    dependencies_register, if_pos rfl, dependencies_foldl_register hbefore]
  rfl

/-- A pass that does not fail at its turn has completed behind it. -/
lemma Turn.mem_completed {passes : PassTable S A I} {s t : Session S A I} {log : List (Event S A I)}
    {outcome : Option (PassRecord × Option Failure)}
    (h : Turn passes id s log t outcome) (hnone : outcome.bind (·.2) = none) :
    id ∈ t.completed := by
  cases h with
  | repeated hdone => exact hdone
  | unknown | failed => cases hnone
  | succeeded => simp

/-- Whether a pass marks no other pass as completed, and strikes nothing off the ledger. -/
def Pass.MarksOnlyItself (p : Pass S A I) : Prop :=
  p.KeepsLedger ∧ ∀ s, ∀ x ∈ (p.run s).1.completed, x ∈ s.completed ∨ x = p.id

namespace Roster

/-- Rosters that are made by registering passes and taking some out. -/
inductive Built : Roster S A I → Prop
  | empty (policy : RunPolicy) : Built (.empty policy)
  | register {r r' : Roster S A I} {p : Pass S A I} (h : r.Built) (hp : r.register p = .ok r') :
      Built r'
  | disable {r : Roster S A I} (h : r.Built) (ids : List Text) : Built (r.disable ids)

/-- The ids of the passes. -/
def ids (r : Roster S A I) : List Text := r.passes.map (·.id)

variable {p : Pass S A I} {r : Roster S A I} {s : Session S A I} {fuel : Nat} {path : List Text}

/-- A roster of passes goes on with a pass that is added. -/
lemma add_ofPasses {policy : RunPolicy} {passes : List (Pass S A I)}
    (h : (ofPasses policy passes).pass? p.id = none) :
    (ofPasses policy passes).add p h = ofPasses policy (passes ++ [p]) := by
  have hnew : (passes.foldl tabulate .empty).has p.id = false := by
    rw [Table.has]
    exact congrArg Option.isSome h
  simp [add, ofPasses, tabulate, hnew, Scheduler.ofPasses]

lemma Built.nodup (h : r.Built) : r.ids.Nodup := by
  induction h with
  | empty policy => exact List.nodup_nil
  | @register r r' p _ hp ih =>
    rw [Roster.register] at hp
    split at hp
    · cases hp
    · split at hp
      · next old _ =>
        split at hp
        · exact Except.ok.inj hp ▸ ih
        · cases hp
      · next hnone =>
        obtain rfl := Except.ok.inj hp
        rw [pass?, r.known_passes, List.find?_eq_none] at hnone
        rw [ids, add, List.map_append, List.nodup_append]
        refine ⟨ih, List.nodup_singleton _, fun x hx y hy => ?_⟩
        obtain ⟨q, hq, rfl⟩ := List.mem_map.mp hx
        rw [List.map_singleton, List.mem_singleton] at hy
        simpa [hy] using hnone q hq
  | @disable r _ removed ih => exact ih.sublist (List.filter_sublist.map _)

lemma mem_ids : id ∈ r.ids ↔ ∃ p ∈ r.passes, p.id = id := List.mem_map

lemma exists_pass?_of_mem_ids (h : id ∈ r.ids) :
    ∃ p ∈ r.passes, r.pass? id = some p ∧ p.id = id := by
  obtain ⟨q, hq, rfl⟩ := mem_ids.mp h
  obtain ⟨p, hp⟩ : ∃ p, r.pass? q.id = some p := by
    rw [← Option.isSome_iff_exists, pass?, r.known_passes, List.find?_isSome]
    exact ⟨q, hq, by simp⟩
  obtain ⟨hmem, hid⟩ := r.mem_of_pass? hp
  exact ⟨p, hmem, hp, hid⟩

/-- What a pass leads to in a search of the graph. -/
def next (r : Roster S A I) (x : Text) : List Text := (r.graph.dependencies x).filter r.graph.has

lemma next_graph (hnodup : r.ids.Nodup) (hp : p ∈ r.passes) :
    r.next p.id = appendNew [] p.requires := by
  have hspecs : (r.specs.map (·.id)).Nodup := by simpa [specs, ids, Function.comp_def] using hnodup
  rw [next, List.filter_eq_self.mpr, graph, scheduler_eq]
  · exact dependencies_ofPasses hspecs (List.mem_map_of_mem hp)
  · intro dep hdep
    rw [graph_eq_built] at hdep ⊢
    have hclosed := DependencyGraph.built_closed (r.specs.flatMap (·.registrations))
    simpa [DependencyGraph.has] using (hclosed.ends hdep).2

/-! ### Runs on demand end -/

/-- More fuel than there are passes off the path makes no difference. -/
lemma demand_of_le (r : Roster S A I) (canceled : Bool) (hnodup : path.Nodup)
    (hpath : ∀ x ∈ path, x ∈ r.ids) (hfuel : r.passes.length < fuel + path.length) (more : Nat) :
    r.demand canceled (fuel + more) path = r.demand canceled fuel path := by
  induction fuel generalizing path with
  | zero =>
    have hle := (hnodup.subperm hpath).length_le
    rw [ids, List.length_map] at hle
    omega
  | succ fuel ih =>
    funext id s
    rw [Nat.add_right_comm, demand, demand]
    by_cases hoff : id ∈ path
    · simp [hoff]
    cases hp : r.pass? id with
    | none => rfl
    | some p =>
      have hid : id ∈ r.ids := mem_ids.mpr ⟨p, r.mem_of_pass? hp⟩
      rw [ih (List.nodup_cons.mpr ⟨hoff, hnodup⟩) (List.forall_mem_cons.mpr ⟨hid, hpath⟩)
        (by rw [List.length_cons]; omega)]

/-! ### What a run on demand can come to -/

/-- Runs passes on demand one after the other, from inside the passes of `path`, until one fails. -/
def demandAll (r : Roster S A I) (fuel : Nat) (path ids : List Text) (s : Session S A I) :
    Session S A I × Option Failure :=
  ids.foldl (fun (s, failure) dep =>
    match failure with
    | some e => (s, some e)
    | none => r.demand false fuel path dep s) (s, none)

/-- The events of that. -/
def demandAllLog (r : Roster S A I) (fuel : Nat) (path ids : List Text) (s : Session S A I) :
    List (Event S A I) :=
  untilFailureLog (r.demand false fuel path) (r.demandLog false fuel path) ids s

lemma demandAll_cons (fuel : Nat) (path : List Text) (id : Text) (rest : List Text)
    (s : Session S A I) :
    r.demandAll fuel path (id :: rest) s =
      match r.demand false fuel path id s with
      | (t, some e) => (t, some e)
      | (t, none) => r.demandAll fuel path rest t :=
  foldl_untilFailure_cons _ id rest s

lemma demandAllLog_cons (fuel : Nat) (path : List Text) (id : Text) (rest : List Text)
    (s : Session S A I) :
    r.demandAllLog fuel path (id :: rest) s =
      match r.demand false fuel path id s with
      | (_, some _) => r.demandLog false fuel path id s
      | (t, none) => r.demandLog false fuel path id s ++ r.demandAllLog fuel path rest t := rfl

/-- A run for some passes and then for others. -/
lemma demandAll_append (r : Roster S A I) (fuel : Nat) (path front behind : List Text)
    (s : Session S A I) :
    r.demandAll fuel path (front ++ behind) s =
        (match r.demandAll fuel path front s with
        | (t, some e) => (t, some e)
        | (t, none) => r.demandAll fuel path behind t) ∧
      r.demandAllLog fuel path (front ++ behind) s =
        match r.demandAll fuel path front s with
        | (_, some _) => r.demandAllLog fuel path front s
        | (t, none) => r.demandAllLog fuel path front s ++ r.demandAllLog fuel path behind t := by
  induction front generalizing s with
  | nil => exact ⟨rfl, rfl⟩
  | cons first rest ih =>
    simp only [List.cons_append, demandAll_cons, demandAllLog_cons]
    rcases r.demand false fuel path first s with ⟨u, _ | e⟩
    · obtain ⟨hrun, hlog⟩ := ih u
      simp only [hrun, hlog]
      rcases r.demandAll fuel path rest u with ⟨v, _ | e⟩ <;> simp
    · exact ⟨rfl, rfl⟩

lemma demand_completed (r : Roster S A I) (fuel : Nat) (path : List Text)
    (h : id ∈ s.completed) :
    r.demand false (fuel + 1) path id s = (s, none) ∧
      r.demandLog false (fuel + 1) path id s = [] := by
  have hdone := s.isCompleted_iff.mpr h
  simp [demand, demandLog, hdone]

lemma demand_underway (r : Roster S A I) (fuel : Nat) (hnew : id ∉ s.completed) (h : id ∈ path) :
    r.demand false (fuel + 1) path id s =
        (s, some (.fault .circularDependency id "reached again during on-demand execution")) ∧
      r.demandLog false (fuel + 1) path id s = [] := by
  have hdone := mt s.isCompleted_iff.mp hnew
  simp [demand, demandLog, hdone, h]

/-- A pass that has not completed and is not on the path is run behind all it needs. -/
lemma demand_of_pass? (fuel : Nat) (hdone : s.isCompleted id = false)
    (hon : path.contains id = false) (hp : r.pass? id = some p) :
    r.demand false (fuel + 1) path id s =
        (match r.demandAll fuel (id :: path) p.requires s with
        | (t, failure) =>
          match failure with
          | some e => (t, some e)
          | none =>
            if p.representation == .ir && !t.hasIR then (t, some (.missingIR id))
            else
              match runSingle r.table id t with
              | (t, some (_, some e)) => (t, some e)
              | (t, _) => (t, none)) ∧
      r.demandLog false (fuel + 1) path id s =
        match r.demandAll fuel (id :: path) p.requires s with
        | (_, some _) => r.demandAllLog fuel (id :: path) p.requires s
        | (t, none) =>
          if p.representation == .ir && !t.hasIR then r.demandAllLog fuel (id :: path) p.requires s
          else r.demandAllLog fuel (id :: path) p.requires s ++ turnLog r.table id t := by
  rw [demand, demandLog, hdone, hon, hp]
  exact ⟨rfl, rfl⟩

/-- What running a pass on demand can come to, and with which events. -/
inductive Demanded (r : Roster S A I) (fuel : Nat) (path : List Text) (id : Text)
    (s : Session S A I) :
    Session S A I × Option Failure → List (Event S A I) → Prop
  | completed (h : id ∈ s.completed) : Demanded r fuel path id s (s, none) []
  | underway (hnew : id ∉ s.completed) (h : id ∈ path) : Demanded r fuel path id s
      (s, some (.fault .circularDependency id "reached again during on-demand execution")) []
  | unknown (hnew : id ∉ s.completed) (h : r.pass? id = none) : Demanded r fuel path id s
      (s, some (.fault .passNotFound id "no pass registered")) []
  | stopped {p : Pass S A I} {t : Session S A I} {e : Failure} (hnew : id ∉ s.completed)
      (hp : r.pass? id = some p)
      (hneeds : r.demandAll fuel (id :: path) p.requires s = (t, some e)) :
      Demanded r fuel path id s (t, some e) (r.demandAllLog fuel (id :: path) p.requires s)
  | lacksIR {p : Pass S A I} {t : Session S A I} (hnew : id ∉ s.completed)
      (hp : r.pass? id = some p) (hneeds : r.demandAll fuel (id :: path) p.requires s = (t, none)) :
      Demanded r fuel path id s (t, some (.missingIR id))
        (r.demandAllLog fuel (id :: path) p.requires s)
  | turned {p : Pass S A I} {t : Session S A I} (hnew : id ∉ s.completed) (hp : r.pass? id = some p)
      (hneeds : r.demandAll fuel (id :: path) p.requires s = (t, none)) :
      Demanded r fuel path id s ((runSingle r.table id t).1, (runSingle r.table id t).2.bind (·.2))
        (r.demandAllLog fuel (id :: path) p.requires s ++ turnLog r.table id t)

lemma demanded (r : Roster S A I) (fuel : Nat) (path : List Text) (id : Text) (s : Session S A I) :
    Demanded r fuel path id s (r.demand false (fuel + 1) path id s)
      (r.demandLog false (fuel + 1) path id s) := by
  by_cases hdone : id ∈ s.completed
  · obtain ⟨hrun, hlog⟩ := r.demand_completed fuel path hdone
    rw [hrun, hlog]
    exact .completed hdone
  by_cases hon : id ∈ path
  · obtain ⟨hrun, hlog⟩ := r.demand_underway fuel hdone hon
    rw [hrun, hlog]
    exact .underway hdone hon
  have hopen : s.isCompleted id = false := by simpa [Session.isCompleted] using hdone
  cases hp : r.pass? id with
  | none => simpa [demand, demandLog, hopen, hon, hp] using Demanded.unknown hdone hp
  | some p =>
    obtain ⟨hrun, hlog⟩ := demand_of_pass? fuel hopen (by simpa using hon) hp
    rw [hrun, hlog]
    rcases hneeds : r.demandAll fuel (id :: path) p.requires s with ⟨t, _ | e⟩
    · dsimp only
      split
      · exact .lacksIR hdone hp hneeds
      · have hturn := Demanded.turned hdone hp hneeds
        rcases hrun : runSingle r.table id t with ⟨u, _ | ⟨record, _ | e⟩⟩ <;> rw [hrun]
          at hturn <;>
          exact hturn
    · exact .stopped hdone hp hneeds

/-! ### Passes that are needed twice -/

/-- A pass that was run on demand without a failure has completed. -/
lemma mem_completed_of_demand (h : (r.demand false fuel path id s).2 = none) :
    id ∈ (r.demand false fuel path id s).1.completed := by
  cases fuel with
  | zero => cases h
  | succ fuel =>
    have hdemanded := r.demanded fuel path id s
    generalize r.demand false (fuel + 1) path id s = result at h hdemanded
    generalize r.demandLog false (fuel + 1) path id s = log at hdemanded
    cases hdemanded with
    | completed hdone => exact hdone
    | underway | unknown | stopped | lacksIR => cases h
    | turned => exact (turn_runSingle r.table id _).mem_completed h

variable (hkeeps : ∀ p ∈ r.passes, p.KeepsLedger)
include hkeeps

lemma completed_subset_demandAll (fuel : Nat) (path ids : List Text) (s : Session S A I) :
    s.completed ⊆ (r.demandAll fuel path ids s).1.completed :=
  (trace_foldl (r.trace_demand false fuel path) ids s).completed_subset
    fun _ p hp => hkeeps p (r.mem_of_get?_table hp)

/-- The same for passes that were run on demand one after the other. -/
lemma mem_completed_of_demandAll {ids : List Text} {t : Session S A I}
    (h : r.demandAll fuel path ids s = (t, none)) (hid : id ∈ ids) : id ∈ t.completed := by
  induction ids generalizing s with
  | nil => cases hid
  | cons first rest ih =>
    rw [demandAll_cons] at h
    rcases hfirst : r.demand false fuel path first s with ⟨u, _ | e⟩
    · simp only [hfirst] at h
      obtain rfl | hid := List.mem_cons.mp hid
      · have hdone := mem_completed_of_demand (congrArg Prod.snd hfirst)
        rw [hfirst] at hdone
        have hkept := completed_subset_demandAll hkeeps fuel path rest u hdone
        rwa [h] at hkept
      · exact ih h hid
    · simp [hfirst] at h

/-- What has completed is not run again, so it makes no difference how often a pass is asked for. -/
lemma demandAll_appendNew (fuel : Nat) (path known ids : List Text) (s : Session S A I) :
    r.demandAll (fuel + 1) path (appendNew known ids) s =
        r.demandAll (fuel + 1) path (known ++ ids) s ∧
      r.demandAllLog (fuel + 1) path (appendNew known ids) s =
        r.demandAllLog (fuel + 1) path (known ++ ids) s := by
  induction ids generalizing known with
  | nil => simp [appendNew]
  | cons id rest ih =>
    rw [appendNew_cons, DependencyGraph.withId]
    by_cases hid : id ∈ known
    · rw [if_pos (List.contains_iff_mem.mpr hid)]
      obtain ⟨hrun, hlog⟩ := ih known
      obtain ⟨hrest, hrestLog⟩ := r.demandAll_append (fuel + 1) path known rest s
      obtain ⟨hall, hallLog⟩ := r.demandAll_append (fuel + 1) path known (id :: rest) s
      rw [hrun, hlog, hrest, hrestLog, hall, hallLog]
      rcases hknown : r.demandAll (fuel + 1) path known s with ⟨t, _ | e⟩
      · obtain ⟨hdone, hnothing⟩ := r.demand_completed fuel path
          (mem_completed_of_demandAll hkeeps hknown hid)
        simp [demandAll_cons, demandAllLog_cons, hdone, hnothing]
      · exact ⟨rfl, rfl⟩
    · rw [if_neg (mt List.contains_iff_mem.mp hid)]
      simpa using ih (known ++ [id])

end Roster

/-! ### Search and run -/

/-- The passes that are called, one after the other. -/
def calls (log : List (Event S A I)) : List Text := (log.filterMap Event.call?).map (·.1.id)

@[simp] lemma calls_append (log more : List (Event S A I)) :
    calls (log ++ more) = calls log ++ calls more := by
  simp [calls]

/-- Whether every pass that is called succeeds, and none is held up for want of the intermediate
representation. -/
structure Undisturbed (log : List (Event S A I)) (failure : Option Failure) : Prop where
  succeeds : ∀ p b, .ran p b ∈ log → p.Succeeds b
  overIR : ∀ id, failure ≠ some (.missingIR id)

/-- Whether a search along `path` that starts with `done` and a run on demand go the same way: the
run calls what the search appends and all that is there in the end has completed, or both meet the
same pass again. -/
inductive Agrees (path done : List Text) : Except Cycle (List Text) →
    Session S A I × Option Failure → List (Event S A I) → Prop
  | finished {done' : List Text} {t : Session S A I} {log : List (Event S A I)}
      (hcalls : done' = done ++ calls log) (hledger : ∀ x, x ∈ t.completed ↔ x ∈ done')
      (hapart : ∀ x ∈ path, x ∉ done') : Agrees path done (.ok done') (t, none) log
  | cycle {c : Cycle} {t : Session S A I} {log : List (Event S A I)} (detail : Text) :
      Agrees path done (.error c) (t, some (.fault .circularDependency c.pass detail)) log

lemma Agrees.prepend {path done : List Text} {found : Except Cycle (List Text)}
    {run : Session S A I × Option Failure} {log more : List (Event S A I)}
    (h : Agrees path (done ++ calls log) found run more) :
    Agrees path done found run (log ++ more) := by
  cases h with
  | finished hcalls hledger hapart => exact .finished (by simpa using hcalls) hledger hapart
  | cycle detail => exact .cycle detail

namespace Roster

variable {r : Roster S A I} {fuel : Nat} {path done : List Text}

/-- For passes that are looked for one after the other. -/
lemma agrees_foldlM {step : List Text → Text → Except Cycle (List Text)} {ids : List Text}
    (hstep : ∀ id ∈ ids, ∀ done s, (∀ x, x ∈ s.completed ↔ x ∈ done) → (∀ x ∈ path, x ∉ done) →
      Undisturbed (r.demandLog false fuel path id s) (r.demand false fuel path id s).2 →
      Agrees path done (step done id) (r.demand false fuel path id s)
        (r.demandLog false fuel path id s)) :
    ∀ done s, (∀ x, x ∈ s.completed ↔ x ∈ done) → (∀ x ∈ path, x ∉ done) →
      Undisturbed (r.demandAllLog fuel path ids s) (r.demandAll fuel path ids s).2 →
      Agrees path done (ids.foldlM step done) (r.demandAll fuel path ids s)
        (r.demandAllLog fuel path ids s) := by
  induction ids with
  | nil =>
    intro done s hledger hapart _
    exact .finished (by simp [demandAllLog, untilFailureLog, calls]) hledger hapart
  | cons id rest ih =>
    intro done s hledger hapart hundisturbed
    have hfirst := hstep id List.mem_cons_self done s hledger hapart
    rw [demandAll_cons, demandAllLog_cons] at hundisturbed ⊢
    rw [List.foldlM_cons]
    rcases hdemand : r.demand false fuel path id s with ⟨t, _ | e⟩
    · simp only [hdemand] at hundisturbed hfirst ⊢
      obtain ⟨hsucceeds, hir⟩ := hundisturbed
      have hfirst := hfirst ⟨fun p b hran => hsucceeds p b (List.mem_append_left _ hran), by simp⟩
      generalize step done id = found at hfirst
      cases hfirst with
      | @finished done₁ _ _ hcalls hledger₁ hapart₁ =>
        have hrest := ih (fun y hy => hstep y (List.mem_cons_of_mem id hy)) done₁ t hledger₁ hapart₁
          ⟨fun p b hran => hsucceeds p b (List.mem_append_right _ hran), hir⟩
        rw [hcalls] at hrest ⊢
        exact hrest.prepend
    · simp only [hdemand] at hundisturbed hfirst ⊢
      have hfirst := hfirst hundisturbed
      generalize step done id = found at hfirst
      cases hfirst with
      | cycle detail => exact .cycle detail

/-- The turn of a pass that has not completed, if everything it needs is registered and it
succeeds. -/
lemma agrees_turn {p : Pass S A I} (hpass : r.pass? p.id = some p)
    (hregistered : ∀ dep ∈ p.requires, dep ∈ r.ids) (hmarks : p.MarksOnlyItself) {t : Session S A I}
    (hledger : ∀ x, x ∈ t.completed ↔ x ∈ done) (hapart : ∀ x ∈ p.id :: path, x ∉ done)
    (hnodup : (p.id :: path).Nodup)
    (hrun : ∀ q b, .ran q b ∈ turnLog r.table p.id t → q.Succeeds b) :
    Agrees path done (.ok (done ++ [p.id]))
      ((runSingle r.table p.id t).1, (runSingle r.table p.id t).2.bind (·.2))
        (turnLog r.table p.id t) := by
  have hnew : p.id ∉ t.completed := mt (hledger p.id).mp (hapart p.id List.mem_cons_self)
  have hget : r.table.get? p.id = some p := (r.get?_table p.id).trans hpass
  have hknown : Known r.table p.id :=
    ⟨p, hget, fun dep hdep => r.has_table_iff.mpr (mem_ids.mp (hregistered dep hdep))⟩
  have hturn := turn_runSingle r.table p.id t
  generalize (runSingle r.table p.id t).1 = u at hturn ⊢
  generalize (runSingle r.table p.id t).2 = outcome at hturn ⊢
  generalize turnLog r.table p.id t = log at hturn hrun ⊢
  cases hturn with
  | repeated hdone => exact absurd hdone hnew
  | unknown hunknown => exact absurd hknown hunknown
  | failed q hq _ hfails => exact absurd (hrun q t (List.mem_singleton_self _)) hfails
  | succeeded q hq _ hsucceeds =>
    obtain rfl : p = q := Option.some.inj (hget.symm.trans hq)
    refine .finished rfl (fun x => ?_) (fun x hx => ?_)
    · rw [Session.mem_completed_complete, Session.completed_spend, List.mem_append,
        List.mem_singleton, ← hledger]
      refine ⟨fun h => h.elim (hmarks.2 t x) .inr, fun h => h.imp_left fun hx => hmarks.1 t hx⟩
    · rw [List.mem_append, List.mem_singleton, not_or]
      exact ⟨hapart x (List.mem_cons_of_mem _ hx),
        fun heq => (List.nodup_cons.mp hnodup).1 (heq ▸ hx)⟩

/-- A run on demand goes the way of the search if it does so for all that the pass needs. -/
lemma agrees_of_needs {p : Pass S A I} (hpass : r.pass? p.id = some p)
    (hregistered : ∀ dep ∈ p.requires, dep ∈ r.ids) (hmarks : p.MarksOnlyItself)
    (hnodup : (p.id :: path).Nodup) {found : Except Cycle (List Text)} (hnew : p.id ∉ s.completed)
    (hundisturbed : Undisturbed (r.demandLog false (fuel + 1) path p.id s)
      (r.demand false (fuel + 1) path p.id s).2)
    (hneeds : Undisturbed (r.demandAllLog fuel (p.id :: path) p.requires s)
        (r.demandAll fuel (p.id :: path) p.requires s).2 →
      Agrees (p.id :: path) done found (r.demandAll fuel (p.id :: path) p.requires s)
        (r.demandAllLog fuel (p.id :: path) p.requires s)) :
    Agrees path done (do return (← found) ++ [p.id]) (r.demand false (fuel + 1) path p.id s)
      (r.demandLog false (fuel + 1) path p.id s) := by
  have hdemanded := r.demanded fuel path p.id s
  generalize r.demand false (fuel + 1) path p.id s = result at hdemanded hundisturbed ⊢
  generalize r.demandLog false (fuel + 1) path p.id s = log at hdemanded hundisturbed ⊢
  cases hdemanded with
  | completed hdone => exact absurd hdone hnew
  | underway _ hon => exact absurd hon (List.nodup_cons.mp hnodup).1
  | unknown _ hnone => simp [hpass] at hnone
  | @stopped q t e _ hq hstop =>
    obtain rfl : p = q := Option.some.inj (hpass.symm.trans hq)
    rw [hstop] at hneeds
    have hfound := hneeds hundisturbed
    cases hfound with
    | cycle detail => exact .cycle detail
  | lacksIR => exact absurd rfl (hundisturbed.overIR p.id)
  | @turned q t _ hq hdone =>
    obtain rfl : p = q := Option.some.inj (hpass.symm.trans hq)
    rw [hdone] at hneeds
    have hfound := hneeds ⟨fun q b hran => hundisturbed.succeeds q b
      (List.mem_append_left _ hran), by simp⟩
    cases hfound with
    | finished hcalls hledger hapart =>
      have hturn := agrees_turn hpass hregistered hmarks hledger hapart hnodup
        fun q b hran => hundisturbed.succeeds q b (List.mem_append_right _ hran)
      rw [hcalls] at hturn ⊢
      exact hturn.prepend

/-- **Search and run go the same way**, if the fuel of both covers the passes that are not on the
path. -/
lemma agrees_demand (hnodup : r.ids.Nodup)
    (hregistered : ∀ p ∈ r.passes, ∀ dep ∈ p.requires, dep ∈ r.ids)
    (hmarks : ∀ p ∈ r.passes, p.MarksOnlyItself) {x : Text} {searchFuel : Nat}
    (hsearch : r.ids.length ≤ searchFuel + path.length) (hfuel : r.ids.length < fuel + path.length)
    (hpath : (x :: path).Nodup) (hinside : ∀ y ∈ x :: path, y ∈ r.ids)
    (hledger : ∀ y, y ∈ s.completed ↔ y ∈ done) (hapart : ∀ y ∈ x :: path, y ∉ done)
    (hundisturbed :
      Undisturbed (r.demandLog false fuel path x s) (r.demand false fuel path x s).2) :
    Agrees path done (DependencyGraph.visit r.next searchFuel path x done)
      (r.demand false fuel path x s) (r.demandLog false fuel path x s) := by
  have hle := (hpath.subperm hinside).length_le
  rw [List.length_cons] at hle
  induction fuel generalizing searchFuel path x done s with
  | zero => omega
  | succ fuel ih =>
    obtain ⟨searchFuel, rfl⟩ := Nat.exists_eq_succ_of_ne_zero (n := searchFuel) (by omega)
    obtain ⟨fuel, rfl⟩ := Nat.exists_eq_succ_of_ne_zero (n := fuel) (by omega)
    obtain ⟨p, hp, hpass, rfl⟩ := exists_pass?_of_mem_ids (hinside x List.mem_cons_self)
    have hnew : p.id ∉ s.completed := mt (hledger p.id).mp (hapart p.id List.mem_cons_self)
    refine agrees_of_needs hpass (hregistered p hp) (hmarks p hp) hpath hnew hundisturbed ?_
    -- the search goes to what the pass needs once each, which is all that matters to the run
    have hsame :=
      demandAll_appendNew (fun q hq => (hmarks q hq).1) fuel (p.id :: path) [] p.requires s
    rw [← next_graph hnodup hp, List.nil_append] at hsame
    rw [← hsame.1, ← hsame.2]
    refine agrees_foldlM (fun y hy done s hledger hapart hundisturbed => ?_) done s hledger hapart
    split
    · next hdone =>
      obtain ⟨hrun, hlog⟩ := r.demand_completed fuel (p.id :: path) ((hledger y).mpr hdone)
      rw [hrun, hlog]
      exact .finished (by simp [calls]) hledger hapart
    · next hopen =>
      split
      · next hon =>
        obtain ⟨hrun, hlog⟩ := r.demand_underway fuel (mt (hledger y).mp hopen) hon
        rw [hrun, hlog]
        exact .cycle (c := ⟨y, p.id⟩) _
      · next hoff =>
        have hpath' : (y :: p.id :: path).Nodup := List.nodup_cons.mpr ⟨hoff, hpath⟩
        have hinside' : ∀ z ∈ y :: p.id :: path, z ∈ r.ids := by
          rw [next_graph hnodup hp, mem_appendNew] at hy
          exact List.forall_mem_cons.mpr ⟨hregistered p hp y (by simpa using hy), hinside⟩
        have hle' := (hpath'.subperm hinside').length_le
        rw [List.length_cons] at hle'
        exact ih (by rw [List.length_cons]; omega) (by rw [List.length_cons]; omega) hpath' hinside'
          hledger (List.forall_mem_cons.mpr ⟨hopen, hapart⟩) hundisturbed hle'

/-- The events of one pass on demand. -/
def runOneLog (r : Roster S A I) (id : Text) (s : Session S A I) : List (Event S A I) :=
  r.demandLog false (r.passes.length + 2) [] id s

lemma mem_graph_ids (h : id ∈ r.ids) : id ∈ r.graph.ids := by
  obtain ⟨p, hp, hid⟩ := mem_ids.mp h
  rw [graph, scheduler_eq]
  exact mem_ids_ofPasses.mpr ⟨p.toPassSpec, List.mem_map_of_mem hp, .inl hid⟩

lemma ancestors_eq (r : Roster S A I) (id : Text) :
    r.graph.ancestors id =
      (DependencyGraph.visit r.next r.graph.fuel [] id []).map List.dropLast := by
  show (DependencyGraph.visit r.next r.graph.fuel [] id [] >>= fun visited => pure
    visited.dropLast) = _
  cases DependencyGraph.visit r.next r.graph.fuel [] id [] <;> rfl

/-- A search for a pass finds what is before the pass in the graph and behind that the pass itself,
none of them twice. -/
lemma visit_of_ancestors (hid : id ∈ r.ids) {before : List Text}
    (h : r.graph.ancestors id = .ok before) :
    DependencyGraph.visit r.next r.graph.fuel [] id [] = .ok (before ++ [id]) ∧
      (before ++ [id]).Nodup := by
  have houtcome : DependencyGraph.Outcome r.next r.graph.ids [] [id] []
      (DependencyGraph.visit r.next r.graph.fuel [] id []) := by
    refine DependencyGraph.visit_outcome (fun x _ y hy => ?_) _ [] id []
      (by simp [DependencyGraph.fuel])
      ⟨List.nodup_singleton id, by simpa using mem_graph_ids hid, by simp⟩ ⟨.nil, by simp, by simp⟩
    simpa [DependencyGraph.has] using (List.mem_filter.mp hy).2
  rw [ancestors_eq] at h
  rw [DependencyGraph.fuel, DependencyGraph.visit_succ] at h houtcome ⊢
  generalize List.foldlM (m := Except Cycle) _ [] (r.next id) = found at h houtcome ⊢
  cases found with
  | error c => cases h
  | ok found =>
    obtain rfl : found = before := by simpa using Except.ok.inj h
    exact ⟨rfl, houtcome.1.ordered.nodup⟩

lemma visit_of_ancestors_error {c : Cycle} (h : r.graph.ancestors id = .error c) :
    DependencyGraph.visit r.next r.graph.fuel [] id [] = .error c := by
  rw [ancestors_eq] at h
  cases hvisit : DependencyGraph.visit r.next r.graph.fuel [] id [] with
  | error c' =>
    rw [hvisit] at h
    exact congrArg _ (Except.error.inj h)
  | ok visited => simp [hvisit, Except.map] at h

end Roster

/-- A pass that does nothing. -/
def quietPass (id : Text) (requires : List Text) : Pass Unit Unit Unit where
  toPassSpec := ⟨id, id, [], .program, .ast, requires⟩
  tag := 0
  run s := (s, none)

/-- A roster of passes that do nothing. -/
def quietRoster (needs : List (Text × List Text)) : Roster Unit Unit Unit :=
  .ofPasses ⟨true, false, 0⟩ (needs.map fun (id, requires) => quietPass id requires)

/-- The passes of a quiet roster mark nothing, and none of them ever fails. -/
lemma quietRoster_marks (needs : List (Text × List Text)) :
    ∀ p ∈ (quietRoster needs).passes, p.MarksOnlyItself := by
  intro p hp
  obtain ⟨⟨id, requires⟩, -, rfl⟩ := List.mem_map.mp hp
  exact ⟨fun s => List.Subset.refl _, fun s x hx => .inl hx⟩

lemma quietRoster_succeeds {p : Pass Unit Unit Unit} {b : Session Unit Unit Unit}
    (h : .ran p b ∈ (quietRoster needs).runOneLog id newSession) : p.Succeeds b := by
  have hallowed := ((quietRoster needs).trace_demand false _ [] id newSession).allowed h
  obtain ⟨⟨name, requires⟩, -, rfl⟩ :=
    List.mem_map.mp ((quietRoster needs).mem_of_get?_table hallowed.1)
  rfl

lemma quietRoster_built (hnodup : (needs.map (·.1)).Nodup) (hnamed : ∀ need ∈ needs, need.1 ≠ []) :
    (quietRoster needs).Built := by
  induction needs using List.reverseRecOn with
  | nil => exact .empty _
  | append_singleton needs need ih =>
    rw [List.map_append, List.nodup_append] at hnodup
    obtain ⟨hneeds, -, hapart⟩ := hnodup
    refine .register (ih hneeds fun n hn => hnamed n (List.mem_append_left _ hn))
      (p := quietPass need.1 need.2) ?_
    have hname : need.1 ≠ [] := hnamed need (by simp)
    have hnone : (quietRoster needs).pass? (quietPass need.1 need.2).id = none := by
      rw [Roster.pass?, Roster.known_passes]
      refine List.find?_eq_none.mpr fun p hp => ?_
      obtain ⟨other, hother, rfl⟩ := List.mem_map.mp hp
      simpa [quietPass] using hapart other.1 (List.mem_map_of_mem hother) need.1 (by simp)
    rw [Roster.register, if_neg (by simpa [quietPass] using hname)]
    split
    · next h => cases hnone.symm.trans h
    · next h =>
      refine congrArg Except.ok ((Roster.add_ofPasses h).trans ?_)
      simp [quietRoster]

/-- A diamond with a need named twice. -/
def diamondRoster : Roster Unit Unit Unit :=
  quietRoster [("top", ["left", "right", "left"]), ("left", ["base"]), ("right", ["base"]),
    ("base", [])]

/-- Two passes that need each other, and a third one that needs one of them. -/
def circleRoster : Roster Unit Unit Unit :=
  quietRoster [("start", ["one"]), ("one", ["two"]), ("two", ["one"])]

/-- A pass that marks another one as completed. -/
def markingPass (id other : Text) : Pass Unit Unit Unit where
  toPassSpec := ⟨id, id, [], .program, .ast, []⟩
  tag := 0
  run s := (s.complete other, none)

/-- Two passes that are needed, of which the first marks the second. -/
def markedRoster : Roster Unit Unit Unit :=
  .ofPasses ⟨true, false, 0⟩
    [quietPass "top" ["hasty", "base"], markingPass "hasty" "base", quietPass "base" []]

/-- Passes have to leave the ledger of others alone: a pass that another one has marked is passed
over, although the graph lists it. -/
lemma runOne_passes_over_marked :
    markedRoster.graph.ancestors "top" = .ok ["hasty", "base"] ∧
      (markedRoster.runOne false "top" newSession).2 = none ∧
      calls (markedRoster.runOneLog "top" newSession) = ["hasty", "top"] :=
  ⟨by decide +kernel, rfl, by decide +kernel⟩

end ContractAudit.Plan
