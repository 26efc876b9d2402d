import ContractAudit.Proofs.Plan.Interleaving
import ContractAudit.Proofs.Plan.Readiness

/-!
Groups that run in parallel have the result of running them in order.

* `GroupRun`: a run of a group in which the passes have their turns in any order until all are
  finished. What became of them is recorded in the order of the group.
* `LevelRun`, `LevelsRun`, `ParallelRun`: runs of levels and of schedules, with such runs of their
  groups.
* Turns that come in blocks, one for each pass, run the passes one after the other (`turns_blocks`),
  and any turns can be sorted into blocks. So a run of a group ends like `runEach`
  (`GroupRun.alike`).
* `parallelRun_alike`: a parallel run of a schedule has the same result as a run in order and leaves
  the same contents behind, if no pass reads in which order passes have completed.
* `parallelRun_not_alike_order`: a pass that does so behind a group, with another artifact in the
  end.
-/

namespace ContractAudit.Plan

variable {S A I : Type} {passes : PassTable S A I} {ids : List Text}

/-! ### Turns in blocks -/

/-- Turns in blocks: each pass has all its turns behind each other. -/
def blocks (turns : Text → Nat) (ids : List Text) : List Text :=
  ids.flatMap fun id => List.replicate (turns id) id

lemma count_blocks (hnodup : ids.Nodup) (turns : Text → Nat) (id : Text) :
    (blocks turns ids).count id = if id ∈ ids then turns id else 0 := by
  induction ids with
  | nil => rfl
  | cons first rest ih =>
    obtain ⟨hnew, hrest⟩ := List.nodup_cons.mp hnodup
    rw [blocks, List.flatMap_cons, List.count_append, ← blocks, ih hrest, List.count_replicate]
    by_cases hid : first = id
    · subst hid
      simp [hnew]
    · simp [hid, Ne.symm hid]

lemma mem_of_mem_blocks {turns : Text → Nat} {id : Text} (h : id ∈ blocks turns ids) :
    id ∈ ids := by
  obtain ⟨other, hother, hid⟩ := List.mem_flatMap.mp h
  rwa [List.eq_of_mem_replicate hid]

/-- Turns of some passes can be sorted into blocks. -/
lemma perm_blocks {order : List Text} (hnodup : ids.Nodup) (honly : ∀ id ∈ order, id ∈ ids) :
    order.Perm (blocks (order.count ·) ids) := by
  refine List.perm_iff_count.mpr fun id => ?_
  rw [count_blocks hnodup]
  split
  · rfl
  · next hid => exact List.count_eq_zero.mpr (mt (honly id) hid)

lemma stopsAt_false (outcome : Option (PassRecord × Option Failure)) :
    stopsAt false outcome = false := by
  rcases outcome with _ | ⟨record, _ | e⟩ <;> rfl

/-- Going on whatever fails, passes run one after the other. -/
lemma runEach_cons (id : Text) (rest : List Text) (s : Session S A I) (r : RunResult) :
    runEach passes false (id :: rest) s r =
      runEach passes false rest (runSingle passes id s).1 (r.record (runSingle passes id s).2) := by
  simp [runEach, stopsAt_false]

namespace Work

/-- Passes that have no turn come no further. -/
lemma progress_turns_of_notMem {order : List Text} {id : Text} (h : id ∉ order) (w : Work S A I) :
    (w.turns passes order).progress id = w.progress id := by
  induction order generalizing w with
  | nil => rfl
  | cons first rest ih =>
    rw [List.mem_cons, not_or] at h
    exact (ih h.2 (w.turn passes first)).trans (Function.update_of_ne h.1 _ _)

/-- A block of turns takes the pass on by as many steps. -/
lemma turns_replicate (n : Nat) (id : Text) (w : Work S A I) :
    w.turns passes (List.replicate n id) =
      ⟨Function.update w.progress id ((advance passes id)^[n] (w.progress id, w.session)).1,
        ((advance passes id)^[n] (w.progress id, w.session)).2⟩ := by
  induction n generalizing w with
  | zero => simp [turns]
  | succ n ih =>
    show (w.turn passes id).turns passes (List.replicate n id) = _
    rw [ih, Function.iterate_succ_apply]
    simp [turn]

variable {w : Work S A I}

/-- A block of turns that finishes the pass runs it. -/
lemma turns_replicate_of_finished {n : Nat} {id : Text} (hwaiting : w.progress id = .waiting)
    (h : ((w.turns passes (List.replicate n id)).progress id).isFinished = true) :
    w.turns passes (List.replicate n id) =
      ⟨Function.update w.progress id (.finished (runSingle passes id w.session).2),
        (runSingle passes id w.session).1⟩ := by
  rw [turns_replicate, hwaiting] at h ⊢
  rw [iterate_advance (by simpa using h)]

lemma turns_blocks_cons (turns : Text → Nat) (id : Text) (rest : List Text) (w : Work S A I) :
    w.turns passes (blocks turns (id :: rest)) =
      (w.turns passes (List.replicate (turns id) id)).turns passes (blocks turns rest) :=
  List.foldl_append

/-- Whether all of these passes are finished. -/
def Finished (w : Work S A I) (ids : List Text) :
    Prop := ∀ id ∈ ids, (w.progress id).isFinished = true

instance (w : Work S A I) (ids : List Text) : Decidable (w.Finished ids) :=
  inferInstanceAs (Decidable (∀ id ∈ ids, (w.progress id).isFinished = true))

/-- Records what became of the passes, in order. -/
def record (w : Work S A I) (ids : List Text) (r : RunResult) : RunResult :=
  ids.foldl (fun r id => r.record (w.progress id).outcome) r

/-- Blocks of turns that finish all passes run them one after the other. -/
lemma turns_blocks (hnodup : ids.Nodup) {turns : Text → Nat}
    (hwaiting : ∀ id ∈ ids, w.progress id = .waiting)
    (hfinished : (w.turns passes (blocks turns ids)).Finished ids) (r : RunResult) :
    (w.turns passes (blocks turns ids)).session = (runEach passes false ids w.session r).1 ∧
      (w.turns passes (blocks turns ids)).record ids r =
        (runEach passes false ids w.session r).2 := by
  induction ids generalizing w r with
  | nil => exact ⟨rfl, rfl⟩
  | cons id rest ih =>
    obtain ⟨hnew, hrest⟩ := List.nodup_cons.mp hnodup
    have hnoTurn : id ∉ blocks turns rest := mt mem_of_mem_blocks hnew
    rw [turns_blocks_cons] at hfinished ⊢
    -- the first pass is finished by its own turns, since it has no others
    have hdone := hfinished id List.mem_cons_self
    rw [progress_turns_of_notMem hnoTurn] at hdone
    rw [turns_replicate_of_finished (hwaiting id List.mem_cons_self) hdone] at hfinished ⊢
    have hothers : ∀ other ∈ rest, Function.update w.progress id
        (.finished (runSingle passes id w.session).2) other = .waiting := by
      intro other hother
      have hne : other ≠ id := fun heq => hnew (heq ▸ hother)
      rw [Function.update_of_ne hne, hwaiting other (List.mem_cons_of_mem id hother)]
    obtain ⟨hsession, hrecord⟩ := ih hrest hothers
      (fun other hother => hfinished other (List.mem_cons_of_mem id hother))
      (r.record (runSingle passes id w.session).2)
    rw [runEach_cons]
    refine ⟨hsession, ?_⟩
    simpa [record, progress_turns_of_notMem hnoTurn, Progress.outcome] using hrecord

/-- Four turns for each pass finish them all. -/
lemma finished_blocks (hnodup : ids.Nodup) (hwaiting : ∀ id ∈ ids, w.progress id = .waiting) :
    (w.turns passes (blocks (fun _ => 4) ids)).Finished ids := by
  induction ids generalizing w with
  | nil => exact fun _ hid => absurd hid List.not_mem_nil
  | cons id rest ih =>
    obtain ⟨hnew, hrest⟩ := List.nodup_cons.mp hnodup
    have hnoTurn : id ∉ blocks (fun _ => 4) rest := mt mem_of_mem_blocks hnew
    rw [turns_blocks_cons, turns_replicate, hwaiting id List.mem_cons_self, iterate_advance_four]
    refine List.forall_mem_cons.mpr ⟨?_, ih hrest fun other hother => ?_⟩
    · rw [progress_turns_of_notMem hnoTurn]
      simp [Progress.isFinished]
    · have hne : other ≠ id := fun heq => hnew (heq ▸ hother)
      simpa [hne] using hwaiting other (List.mem_cons_of_mem id hother)

end Work

/-! ### Runs of groups -/

/-- A group of passes runs in parallel: the passes have their turns in any order until all are
finished. What became of them is recorded in the order of the group. -/
inductive GroupRun (passes : PassTable S A I) (ids : List Text) (s : Session S A I)
    (r : RunResult) :
    Session S A I → RunResult → Prop
  | turns (order : List Text) (honly : ∀ id ∈ order, id ∈ ids)
      (hfinished : ((Work.start s).turns passes order).Finished ids) :
      GroupRun passes ids s r ((Work.start s).turns passes order).session
        (((Work.start s).turns passes order).record ids r)

section Group

variable {s s' t : Session S A I} {r q : RunResult}

lemma exists_groupRun (passes : PassTable S A I) (hnodup : ids.Nodup) (s : Session S A I)
    (r : RunResult) : ∃ t q, GroupRun passes ids s r t q :=
  ⟨_, _, .turns (blocks (fun _ => 4) ids) (fun _ => mem_of_mem_blocks)
    (Work.finished_blocks hnodup fun _ _ => rfl)⟩

/-- A run of a group ends like a run of its passes one after the other. -/
lemma GroupRun.alike_runEach (hsees : SeeContents passes) (hindependent : IndependentGroup passes
    ids) (hnodup : ids.Nodup) (h : GroupRun passes ids s r t q) :
    t.Alike (runEach passes false ids s r).1 ∧ q = (runEach passes false ids s r).2 := by
  obtain ⟨order, honly, hfinished⟩ := h
  have hsorted := Work.turns_perm hsees hindependent (perm_blocks hnodup honly) honly (Work.start s)
  have hfinished' : ((Work.start s).turns passes (blocks (order.count ·) ids)).Finished ids := by
    intro id hid
    rw [← hsorted.progress]
    exact hfinished id hid
  obtain ⟨hsession, hrecord⟩ := Work.turns_blocks hnodup (fun _ _ => rfl) hfinished' r
  constructor
  · have halike := hsorted.session
    rwa [hsession] at halike
  · rw [Work.record, hsorted.progress]
    exact hrecord

lemma runSingle_congr (hsees : SeeContents passes) (id : Text) (h : s.Alike s') :
    (runSingle passes id s).1.Alike (runSingle passes id s').1 ∧
      (runSingle passes id s).2 = (runSingle passes id s').2 := by
  have halike : (Work.start s).Alike (Work.start s') := ⟨rfl, h⟩
  have hturns := halike.turns hsees (List.replicate 4 id)
  simp only [Work.turns_replicate, Work.start, iterate_advance_four] at hturns
  have hprogress := congrFun hturns.progress id
  simp only [Function.update_self] at hprogress
  exact ⟨hturns.session, Progress.finished.inj hprogress⟩

/-- Runs of passes one after the other in sessions with the same contents end alike. -/
lemma runEach_congr (hsees : SeeContents passes) (ids : List Text) (h : s.Alike s')
    (r : RunResult) :
    (runEach passes false ids s r).1.Alike (runEach passes false ids s' r).1 ∧
      (runEach passes false ids s r).2 = (runEach passes false ids s' r).2 := by
  induction ids generalizing s s' r with
  | nil => exact ⟨h, rfl⟩
  | cons id rest ih =>
    obtain ⟨hsession, houtcome⟩ := runSingle_congr hsees id h
    rw [runEach_cons, runEach_cons, houtcome]
    exact ih hsession _

end Group

/-- So do runs of groups from sessions with the same contents. -/
lemma GroupRun.alike {s s' t : Session S A I} {r q : RunResult} (hsees : SeeContents passes)
    (hindependent : IndependentGroup passes ids) (hnodup : ids.Nodup)
    (h : GroupRun passes ids s r t q) (hs : s.Alike s') :
    t.Alike (runEach passes false ids s' r).1 ∧ q = (runEach passes false ids s' r).2 := by
  obtain ⟨halike, hresult⟩ := h.alike_runEach hsees hindependent hnodup
  obtain ⟨halike', hresult'⟩ := runEach_congr hsees ids hs r
  exact ⟨halike.trans halike', hresult.trans hresult'⟩

/-! ### Runs of schedules -/

/-- The groups of a level run one after the other. -/
inductive LevelRun (passes : PassTable S A I) (level : ScheduleLevel) (s : Session S A I)
    (r : RunResult) :
    Session S A I → RunResult → Prop
  | overIR {s₁ s₂ t : Session S A I} {r₁ r₂ q : RunResult}
      (hast : GroupRun passes level.ast s r s₁ r₁)
      (hir : s₁.hasIR = true) (hgroup : GroupRun passes level.ir s₁ r₁ s₂ r₂)
      (hhybrid : GroupRun passes level.hybrid s₂ r₂ t q) : LevelRun passes level s r t q
  | withoutIR {s₁ t : Session S A I} {r₁ q : RunResult} (hast : GroupRun passes level.ast s r s₁ r₁)
      (hir : s₁.hasIR = false)
      (hhybrid : GroupRun passes level.hybrid (skipAll level.ir s₁ r₁).1 (skipAll level.ir s₁ r₁).2
        t q) :
      LevelRun passes level s r t q

/-- Levels run one after the other. -/
inductive LevelsRun (passes : PassTable S A I) :
    List ScheduleLevel → Session S A I → RunResult → Session S A I → RunResult → Prop
  | nil (s : Session S A I) (r : RunResult) : LevelsRun passes [] s r s r
  | cons {level : ScheduleLevel} {rest : List ScheduleLevel} {s s₁ t : Session S A I}
      {r r₁ q : RunResult} (h : LevelRun passes level s r s₁ r₁)
        (hrest : LevelsRun passes rest s₁ r₁ t q) :
      LevelsRun passes (level :: rest) s r t q

/-- A run of a schedule in which all groups run in parallel, with the session, the result and the
failure it ends with. Failures of passes do not end it. -/
inductive ParallelRun (policy : RunPolicy) (passes : PassTable S A I) (schedule : Schedule)
    (s : Session S A I) : Session S A I → Option RunResult → Option Failure → Prop
  | refused {e : Failure} (h : policy.failure? = some e) :
      ParallelRun policy passes schedule s s none (some e)
  | done {t : Session S A I} {q : RunResult} (h : policy.failure? = none)
      (hrun : LevelsRun passes schedule.levels s {} t q) :
      ParallelRun policy passes schedule s t (some q) none

/-- Whether the passes of each group of the level are independent. -/
structure IndependentLevel (passes : PassTable S A I) (level : ScheduleLevel) : Prop where
  ast : IndependentGroup passes level.ast
  ir : IndependentGroup passes level.ir
  hybrid : IndependentGroup passes level.hybrid

lemma nodup_groups {level : ScheduleLevel} (h : level.all.Nodup) :
    level.ast.Nodup ∧ level.ir.Nodup ∧ level.hybrid.Nodup := by
  rw [ScheduleLevel.all, List.nodup_append, List.nodup_append] at h
  exact ⟨h.1.1, h.1.2.1, h.2.1⟩

lemma alike_skipAll (ids : List Text) (s : Session S A I) (r : RunResult) :
    (skipAll ids s r).1.Alike s := by
  simp only [skipAll]
  induction ids generalizing s with
  | nil => exact .refl s
  | cons id rest ih => exact (ih s.skip).trans s.alike_skip

lemma skipAll_congr {s s' : Session S A I} (h : s.Alike s') (ids : List Text) (r : RunResult) :
    (skipAll ids s r).1.Alike (skipAll ids s' r).1 :=
  (alike_skipAll ids s r).trans (h.trans (alike_skipAll ids s' r).symm)

section Schedules

variable {policy : RunPolicy} {s s' t : Session S A I} {r q : RunResult}
  {levels : List ScheduleLevel}

lemma runTogether_of_not_failFast (hpolicy : policy.failFast = false) (ids : List Text)
    (s : Session S A I) (r : RunResult) :
    runTogether policy passes ids s r =
      ((runEach passes false ids s r).1, (runEach passes false ids s r).2, none) := by
  simp [runTogether, hpolicy]

lemma LevelRun.alike (hpolicy : policy.failFast = false) (hsees : SeeContents passes)
    {level : ScheduleLevel} (hindependent : IndependentLevel passes level)
      (hnodup : level.all.Nodup)
    (h : LevelRun passes level s r t q) (hs : s.Alike s') :
    ∃ t', runLevel policy passes level s' r = (t', q, none) ∧ t.Alike t' := by
  obtain ⟨hast, hir, hhybrid⟩ := nodup_groups hnodup
  cases h with
  | overIR hrun₁ hgenerated hrun₂ hrun₃ =>
    obtain ⟨halike₁, rfl⟩ := hrun₁.alike hsees hindependent.ast hast hs
    obtain ⟨halike₂, rfl⟩ := hrun₂.alike hsees hindependent.ir hir halike₁
    obtain ⟨halike₃, rfl⟩ := hrun₃.alike hsees hindependent.hybrid hhybrid halike₂
    rw [halike₁.hasIR] at hgenerated
    refine ⟨_, ?_, halike₃⟩
    simp [runLevel, runTogether_of_not_failFast hpolicy, hgenerated]
  | withoutIR hrun₁ hmissing hrun₃ =>
    obtain ⟨halike₁, rfl⟩ := hrun₁.alike hsees hindependent.ast hast hs
    obtain ⟨halike₃, rfl⟩ :=
      hrun₃.alike hsees hindependent.hybrid hhybrid (skipAll_congr halike₁ level.ir _)
    rw [halike₁.hasIR] at hmissing
    refine ⟨_, ?_, halike₃⟩
    simp [runLevel, runTogether_of_not_failFast hpolicy, hmissing, skipAll]

lemma LevelsRun.alike (hpolicy : policy.failFast = false) (hsees : SeeContents passes)
    (hindependent : ∀ level ∈ levels, IndependentLevel passes level)
    (hnodup : ∀ level ∈ levels, level.all.Nodup) (h : LevelsRun passes levels s r t q)
    (hs : s.Alike s') (n : Nat) :
    ∃ t', runLevels policy passes false n levels s' r = (t', q, none) ∧ t.Alike t' := by
  induction h generalizing s' n with
  | nil s r => exact ⟨s', rfl, hs⟩
  | @cons level rest s s₁ t r r₁ q hlevel _ ih =>
    obtain ⟨s₁', hrun, hs₁⟩ := hlevel.alike hpolicy hsees (hindependent level List.mem_cons_self)
      (hnodup level List.mem_cons_self) hs
    obtain ⟨t', hrest, ht⟩ := ih (fun l hl => hindependent l (List.mem_cons_of_mem level hl))
      (fun l hl => hnodup l (List.mem_cons_of_mem level hl)) hs₁ (n + 1)
    exact ⟨t', by simp [runLevels, hrun, hrest], ht⟩

/-- A level of passes that read the syntax tree runs by turns of these. -/
lemma levelRun_of_turns (order : List Text) (honly : ∀ id ∈ order, id ∈ ids)
    (hfinished : ((Work.start s).turns passes order).Finished ids) :
    LevelRun passes ⟨ids, [], []⟩ s r ((Work.start s).turns passes order).session
      (((Work.start s).turns passes order).record ids r) := by
  have hnobody (t : Session S A I) (q : RunResult) : GroupRun passes [] t q t q :=
    .turns [] (by simp) (by simp [Work.Finished])
  cases hgenerated : ((Work.start s).turns passes order).session.hasIR with
  | true => exact .overIR (.turns order honly hfinished) hgenerated (hnobody _ _) (hnobody _ _)
  | false => exact .withoutIR (.turns order honly hfinished) hgenerated (hnobody _ _)

lemma exists_levelRun (passes : PassTable S A I) {level : ScheduleLevel} (hnodup : level.all.Nodup)
    (s : Session S A I) (r : RunResult) : ∃ t q, LevelRun passes level s r t q := by
  obtain ⟨hast, hir, hhybrid⟩ := nodup_groups hnodup
  obtain ⟨s₁, r₁, hrun₁⟩ := exists_groupRun passes hast s r
  cases hgenerated : s₁.hasIR with
  | true =>
    obtain ⟨s₂, r₂, hrun₂⟩ := exists_groupRun passes hir s₁ r₁
    obtain ⟨t, q, hrun₃⟩ := exists_groupRun passes hhybrid s₂ r₂
    exact ⟨t, q, .overIR hrun₁ hgenerated hrun₂ hrun₃⟩
  | false =>
    obtain ⟨t, q, hrun₃⟩ :=
      exists_groupRun passes hhybrid (skipAll level.ir s₁ r₁).1 (skipAll level.ir s₁ r₁).2
    exact ⟨t, q, .withoutIR hrun₁ hgenerated hrun₃⟩

lemma exists_levelsRun (passes : PassTable S A I) (hnodup : ∀ level ∈ levels, level.all.Nodup)
    (s : Session S A I) (r : RunResult) : ∃ t q, LevelsRun passes levels s r t q := by
  induction levels generalizing s r with
  | nil => exact ⟨s, r, .nil s r⟩
  | cons level rest ih =>
    obtain ⟨s₁, r₁, hlevel⟩ := exists_levelRun passes (hnodup level List.mem_cons_self) s r
    obtain ⟨t, q, hrest⟩ := ih (fun l hl => hnodup l (List.mem_cons_of_mem level hl)) s₁ r₁
    exact ⟨t, q, .cons hlevel hrest⟩

end Schedules

/-- No pass is in a schedule twice. -/
lemma nodup_of_schedule {ps : List PassSpec} {schedule : Schedule}
    (h : (Scheduler.ofPasses ps).schedule = .ok schedule) :
    (schedule.levels.flatMap (·.all)).Nodup := by
  have houtcome := DependencyGraph.order_outcome (ps.flatMap (·.registrations))
  rw [← graph_ofPasses] at houtcome
  cases horder : (Scheduler.ofPasses ps).graph.order with
  | error c =>
    simp [Scheduler.schedule, DependencyGraph.levels, horder, bind, Except.bind] at h
  | ok order =>
    rw [horder] at houtcome
    have hordered := houtcome.1.ordered
    have hplaced := DependencyGraph.placed_of_ordered (g := (Scheduler.ofPasses ps).graph) hordered
      fun x dep hdep => ?_
    · have hlevels := DependencyGraph.levels_of_order horder
      obtain rfl := Except.ok.inj ((schedule_of_levels hlevels hplaced.full).symm.trans h)
      exact (flatMap_all_perm _ _).nodup_iff.mpr (hplaced.perm.nodup_iff.mpr hordered.nodup)
    · rw [graph_ofPasses] at hdep ⊢
      exact DependencyGraph.mem_registered_dependencies.mpr
        (DependencyGraph.mem_dependencies_built.mp hdep)

/-- **Groups that run in parallel have the result of running them in order.** Let failures not end
the run, let passes see contents only, and let no pass of a group read what another one of it
writes. There are parallel runs of the schedule, and in whatever order the passes of a group have
their turns, such a run ends with the records, counts and failures of the run in order, and with the
same artifacts, intermediate representation and completed passes. -/
theorem parallelRun_alike (r : Roster S A I) (hpolicy : r.policy.failFast = false)
    {schedule : Schedule}
    (hschedule : r.schedule = .ok schedule) (hsees : ∀ p ∈ r.passes, p.SeesContents)
    (hindependent : ∀ level ∈ schedule.levels, IndependentLevel r.table level) (s : Session S A I) :
    (∃ t result failure, ParallelRun r.policy r.table schedule s t result failure) ∧
      ∀ t result failure, ParallelRun r.policy r.table schedule s t result failure →
        ∃ t', execute { r.policy with parallel := false } r.table false schedule s =
          (t', result, failure) ∧ t.Alike t' := by
  have hlisted : (Scheduler.ofPasses r.specs).schedule = .ok schedule := by
    rw [Roster.schedule, r.scheduler_eq] at hschedule
    split at hschedule
    · next heq => rwa [← Except.ok.inj hschedule]
    · cases hschedule
  have hnodup : ∀ level ∈ schedule.levels, level.all.Nodup :=
    (List.nodup_flatMap.mp (nodup_of_schedule hlisted)).1
  have hseen : SeeContents r.table := fun id p hp => hsees p (r.mem_of_get?_table hp)
  constructor
  · cases hfailure : r.policy.failure? with
    | some e => exact ⟨s, none, some e, .refused hfailure⟩
    | none =>
      obtain ⟨t, q, hrun⟩ := exists_levelsRun r.table hnodup s {}
      exact ⟨t, some q, none, .done hfailure hrun⟩
  · intro t result failure h
    have hsame : ({ r.policy with parallel := false } : RunPolicy).failure? = r.policy.failure? :=
      rfl
    cases h with
    | refused hfailure => exact ⟨s, by simp [execute, hsame, hfailure], .refl s⟩
    | done hfailure hrun =>
      obtain ⟨t', hlevels, halike⟩ := hrun.alike
        (show ({ r.policy with parallel := false } : RunPolicy).failFast = false from hpolicy) hseen
        hindependent hnodup (.refl s) 0
      exact ⟨t', by simp [execute, hsame, hfailure, hlevels], halike⟩

/-- A pass that publishes a value under its name. -/
def storingPass {A : Type} (id : Text) (value : A) : Pass Unit A Unit where
  toPassSpec := ⟨id, id, [], .program, .ast, []⟩
  tag := 0
  run s := (s.store id value, none)

section Storing

variable {A : Type}

lemma storingPass_seesContents (id : Text) (value : A) : (storingPass id value).SeesContents := by
  intro s t h
  refine ⟨rfl, h.root, h.sources, h.ir?, fun name => ?_, h.completed, h.aborted⟩
  simp only [storingPass, Session.store, Table.get?_set, h.artifacts name]

lemma storingPass_disregards (id : Text) (value : A) (other : Text) :
    (storingPass id value).Disregards other := by
  refine ⟨fun s => .rfl, fun s => ⟨rfl, ?_⟩⟩
  by_cases hdone : s.isCompleted other = true
  · have hstored : (s.store id value).isCompleted other = true := hdone
    simpa [storingPass, Session.complete, hdone, hstored] using Session.Alike.refl _
  · have hstored : ¬ (s.store id value).isCompleted other = true := hdone
    simp only [storingPass, Session.complete, hdone, hstored]
    exact .refl _

lemma storingPass_commutesWith {a b : Text} (hab : a ≠ b) (value value' : A) :
    (storingPass a value).CommutesWith (storingPass b value') := by
  refine ⟨fun s => rfl, fun s => ⟨rfl, rfl, rfl, fun name => ?_, fun _ => .rfl, rfl⟩⟩
  simp only [storingPass, Session.store, Table.get?_set]
  by_cases ha : name = a
  · simp [ha, hab]
  · simp [ha]

/-- Passes that publish something under their names are independent. -/
lemma independentGroup_of_storing {passes : PassTable Unit A Unit}
    (h : ∀ id ∈ ids, ∀ p, passes.get? id = some p → ∃ value, p = storingPass id value) :
    IndependentGroup passes ids := by
  refine ⟨fun a ha b _ _ p hp => ?_, fun a ha b hb hab p q hp hq => ?_⟩
  · obtain ⟨value, rfl⟩ := h a ha p hp
    exact storingPass_disregards a value b
  · obtain ⟨value, rfl⟩ := h a ha p hp
    obtain ⟨value', rfl⟩ := h b hb q hq
    exact storingPass_commutesWith hab value value'

end Storing

/-- Two such passes, run in parallel. -/
def storingRoster : Roster Unit Unit Unit :=
  .ofPasses ⟨false, true, 2⟩ [storingPass "left" (), storingPass "right" ()]

lemma storingRoster_independent (ids : List Text) : IndependentGroup storingRoster.table ids := by
  refine independentGroup_of_storing fun id _ p hp => ⟨(), ?_⟩
  have hid := storingRoster.named_table id p hp
  have hmem := storingRoster.mem_of_get?_table hp
  simp only [storingRoster, Roster.ofPasses, List.mem_cons, List.not_mem_nil, or_false] at hmem
  obtain rfl | rfl := hmem <;> rw [← hid] <;> rfl

/-- The right pass overtakes the left one: it completes first, but the result is that of the run in
order. -/
theorem parallelRun_alike_overtaking :
    ∃ schedule t t' result, storingRoster.schedule = .ok schedule ∧
      ParallelRun storingRoster.policy storingRoster.table schedule newSession t
        (some result) none ∧
      execute { storingRoster.policy with parallel := false } storingRoster.table false schedule
        newSession = (t', some result, none) ∧
      t.Alike t' ∧ t.completed = ["right", "left"] ∧ t'.completed = ["left", "right"] := by
  let group : List Text := ["left", "right"]
  let order : List Text := ["left", "right", "right", "right", "right", "left", "left", "left"]
  have hschedule : storingRoster.schedule = .ok ⟨[⟨group, [], []⟩], false, none⟩ := by rfl
  have hrun : ParallelRun storingRoster.policy storingRoster.table ⟨[⟨group, [], []⟩], false, none⟩
      newSession _ _ _ :=
    .done rfl (.cons (levelRun_of_turns order (by decide) (by decide +kernel)) (.nil _ _))
  have hsees : ∀ p ∈ storingRoster.passes, p.SeesContents := by
    intro p hp
    simp only [storingRoster, Roster.ofPasses, List.mem_cons, List.not_mem_nil, or_false] at hp
    obtain rfl | rfl := hp <;> exact storingPass_seesContents _ _
  obtain ⟨t', hexecute, halike⟩ := (parallelRun_alike storingRoster rfl hschedule hsees
    (fun _ _ => ⟨storingRoster_independent _, storingRoster_independent _,
      storingRoster_independent _⟩)
    newSession).2 _ _ _ hrun
  refine ⟨_, _, t', _, hschedule, hrun, hexecute, halike, by decide +kernel, ?_⟩
  rw [show t' = _ from (congrArg Prod.fst hexecute).symm]
  decide +kernel

/-- A pass that needs the two and publishes the order in which passes have completed. -/
def orderPass : Pass Unit (List Text) Unit where
  toPassSpec := ⟨"order", "order", [], .program, .ast, ["left", "right"]⟩
  tag := 0
  run s := (s.store "order" s.completed, none)

/-- Two passes that publish something, and behind them one that reads the order of completion. -/
def orderRoster : Roster Unit (List Text) Unit :=
  .ofPasses ⟨false, true, 2⟩ [storingPass "left" [], storingPass "right" [], orderPass]

/-- A group of one pass is independent. -/
lemma independentGroup_of_length_le (passes : PassTable S A I) (h : ids.length ≤ 1) :
    IndependentGroup passes ids := by
  have hsame : ∀ a ∈ ids, ∀ b ∈ ids, a = b := by
    match ids, h with
    | [], _ => simp
    | [_], _ => simp
  exact ⟨fun a ha b hb hab => absurd (hsame a ha b hb) hab,
    fun a ha b hb hab => absurd (hsame a ha b hb) hab⟩

lemma orderRoster_independent (level : ScheduleLevel)
    (h : level ∈ [⟨["left", "right"], [], []⟩, ⟨["order"], [], []⟩]) :
    IndependentLevel orderRoster.table level := by
  have hgroup : IndependentGroup orderRoster.table ["left", "right"] := by
    refine independentGroup_of_storing fun id hid p hp => ⟨[], ?_⟩
    simp only [List.mem_cons, List.not_mem_nil, or_false] at hid
    obtain rfl | rfl := hid <;> exact Option.some.inj (hp.symm.trans rfl)
  simp only [List.mem_cons, List.not_mem_nil, or_false] at h
  obtain rfl | rfl := h
  · exact ⟨hgroup, independentGroup_of_length_le _ (by decide),
      independentGroup_of_length_le _ (by decide)⟩
  · exact ⟨independentGroup_of_length_le _ (by decide), independentGroup_of_length_le _ (by decide),
      independentGroup_of_length_le _ (by decide)⟩

/-- A pass of a later level may read the order in which the passes of a group have completed, and
then a parallel run leaves other artifacts behind than the run in order. Nor does anything run in
parallel with a number of workers that is refused. -/
theorem parallelRun_not_alike_order :
    ∃ schedule t t' result result',
      orderRoster.policy.failFast = false ∧ orderRoster.schedule = .ok schedule ∧
      (∀ level ∈ schedule.levels, IndependentLevel orderRoster.table level) ∧
      ParallelRun orderRoster.policy orderRoster.table schedule { root := [], sources := [] } t
        (some result) none ∧
      execute { orderRoster.policy with parallel := false } orderRoster.table false schedule
        { root := [], sources := [] } = (t', some result', none) ∧
      t.artifacts.get? "order" = some (Text.ofStrings ["right", "left"]) ∧
      t'.artifacts.get? "order" = some (Text.ofStrings ["left", "right"]) ∧
      ∀ u answer failure, ParallelRun { orderRoster.policy with workers := -1 } orderRoster.table
        schedule { root := [], sources := [] } u answer failure → answer = none := by
  let order : List Text := ["left", "right", "right", "right", "right", "left", "left", "left"]
  have hrun : ParallelRun orderRoster.policy orderRoster.table
      ⟨[⟨["left", "right"], [], []⟩, ⟨["order"], [], []⟩], false, none⟩
      { root := [], sources := [] } _ _ _ :=
    .done rfl (.cons (levelRun_of_turns order (by decide) (by decide +kernel))
      (.cons (levelRun_of_turns ["order", "order", "order", "order"] (by decide)
        (by decide +kernel)) (.nil _ _)))
  refine ⟨_, _, _, _, _, rfl, rfl, orderRoster_independent, hrun, rfl, by decide +kernel,
    by decide +kernel, ?_⟩
  intro u answer failure h
  cases h with
  | refused => rfl
  | done hfailure => cases hfailure

end ContractAudit.Plan
