import Mathlib.Data.List.Induction
import ContractAudit.Plan.Roster

/-!
What happens while passes run.

* `Event`: what becomes of a pass whose turn it is, and `Trace`: events that lead from one session
  to another, each of them in the session that the one before it leaves behind.
* `Turn`: the four ways in which a turn ends (`turn_runSingle`).
* `Stage`: a part of a run that ends early at a failure, with its events. Groups, levels and whole
  schedules are stages put together by `andThen`, and they run as schedules do (`run_level`,
  `run_levels`).
* `trace_execute`, `trace_demand`, `trace_run`: the events of every kind of run lead to the session
  in which it ends.
-/

namespace ContractAudit.Plan

variable {S A I : Type} {passes : PassTable S A I}

/-! ### Events and traces -/

/-- What becomes of a pass whose turn it is, and the session it finds. -/
inductive Event (S A I : Type) where
  | ran (pass : Pass S A I) (before : Session S A I)
  /-- The pass has completed before. -/
  | repeated (id : Text) (before : Session S A I)
  /-- The pass needs the intermediate representation, and there is none. -/
  | withheld (id : Text) (before : Session S A I)

/-- Whether a pass succeeds in a session. -/
def Pass.Succeeds (p : Pass S A I) (s : Session S A I) : Prop := (p.run s).2 = none

instance (p : Pass S A I) (s : Session S A I) : Decidable (p.Succeeds s) :=
  inferInstanceAs (Decidable ((p.run s).2 = none))

namespace Event

/-- The session in which the event happens. -/
def before : Event S A I → Session S A I
  | ran _ s | repeated _ s | withheld _ s => s

/-- The session that the event leaves behind. -/
def after : Event S A I → Session S A I
  | ran p s =>
    let t := (p.run s).1.spend p.id 0
    if p.Succeeds s then t.complete p.id else t
  | repeated _ s | withheld _ s => s.skip

/-- The call of a pass. -/
def call? : Event S A I → Option (Pass S A I × Session S A I)
  | ran p s => some (p, s)
  | repeated _ _ | withheld _ _ => none

/-- What holds whenever the event happens: only known passes are run, and none that has
completed. -/
def Allowed (passes : PassTable S A I) : Event S A I → Prop
  | ran p s => passes.get? p.id = some p ∧ p.id ∉ s.completed
  | repeated id s => id ∈ s.completed
  | withheld _ s => s.hasIR = false

end Event

/-- Events that lead from one session to another. -/
inductive Trace (passes : PassTable S A I) (s : Session S A I) :
    List (Event S A I) → Session S A I → Prop where
  | nil : Trace passes s [] s
  | snoc {log : List (Event S A I)} {e : Event S A I} (h : Trace passes s log e.before)
      (he : e.Allowed passes) : Trace passes s (log ++ [e]) e.after

namespace Trace

variable {passes : PassTable S A I} {s t u : Session S A I} {log more : List (Event S A I)}
  {e : Event S A I}

lemma single (he : e.Allowed passes) : Trace passes e.before [e] e.after := snoc nil he

lemma append (h : Trace passes s log t) (h' : Trace passes t more u) :
    Trace passes s (log ++ more) u := by
  induction h' with
  | nil => simpa using h
  | snoc _ he ih => simpa using snoc ih he

/-- The last event of a trace. -/
lemma of_snoc (h : Trace passes s (log ++ [e]) t) :
    Trace passes s log e.before ∧ e.Allowed passes ∧ t = e.after := by
  generalize hall : log ++ [e] = all at h
  cases h with
  | nil => simp at hall
  | snoc h he =>
    obtain ⟨rfl, heq⟩ := List.append_inj' hall rfl
    obtain rfl : e = _ := List.singleton_inj.mp heq
    exact ⟨h, he, rfl⟩

/-- A trace can be cut anywhere. -/
lemma of_append (h : Trace passes s (log ++ more) t) :
    ∃ u, Trace passes s log u ∧ Trace passes u more t := by
  induction more using List.reverseRecOn generalizing t with
  | nil => exact ⟨t, by simpa using h, nil⟩
  | append_singleton more e ih =>
    rw [← List.append_assoc] at h
    obtain ⟨hbefore, he, rfl⟩ := of_snoc h
    obtain ⟨u, hlog, hmore⟩ := ih hbefore
    exact ⟨u, hlog, snoc hmore he⟩

/-- A trace can be cut around an event. -/
lemma of_append_cons (h : Trace passes s (log ++ e :: more) t) :
    Trace passes s log e.before ∧ e.Allowed passes ∧ Trace passes e.after more t := by
  rw [← List.singleton_append, ← List.append_assoc] at h
  obtain ⟨u, hlog, hmore⟩ := of_append h
  obtain ⟨hbefore, he, rfl⟩ := of_snoc hlog
  exact ⟨hbefore, he, hmore⟩

lemma allowed (h : Trace passes s log t) (he : e ∈ log) : e.Allowed passes := by
  obtain ⟨earlier, later, rfl⟩ := List.append_of_mem he
  exact h.of_append_cons.2.1

end Trace

/-- A session in which nothing has happened yet. -/
def newSession : Session Unit Unit Unit := { root := [], sources := [] }

/-! ### Turns -/

/-- Whether every pass is found under its own name. -/
def Named (passes : PassTable S A I) : Prop := ∀ id p, passes.get? id = some p → p.id = id

/-- Whether the pass is known, and all that it needs. -/
def Known (passes : PassTable S A I) (id : Text) : Prop :=
  ∃ p, passes.get? id = some p ∧ ∀ dep ∈ p.requires, passes.has dep = true

/-- The event of a turn, if there is one. -/
def turnLog (passes : PassTable S A I) (id : Text) (s : Session S A I) : List (Event S A I) :=
  if s.isCompleted id then [.repeated id s]
  else
    match passes.get? id with
    | none => []
    | some p => if p.requires.all passes.has then [.ran p s] else []

/-- What a turn of a pass can come to: its events, the session behind it, and its outcome. -/
inductive Turn (passes : PassTable S A I) (id : Text) (s : Session S A I) :
    List (Event S A I) → Session S A I → Option (PassRecord × Option Failure) → Prop where
  | repeated (h : id ∈ s.completed) : Turn passes id s [.repeated id s] s.skip none
  | unknown (h : ¬ Known passes id) (record : PassRecord) (e : Failure) :
      Turn passes id s [] s (some (record, some e))
  | succeeded (p : Pass S A I) (hp : passes.get? id = some p) (h : id ∉ s.completed)
      (hrun : p.Succeeds s) (record : PassRecord) :
      Turn passes id s [.ran p s] (((p.run s).1.spend id 0).complete id) (some (record, none))
  | failed (p : Pass S A I) (hp : passes.get? id = some p) (h : id ∉ s.completed)
      (hrun : ¬ p.Succeeds s) (record : PassRecord) (e : Failure) :
      Turn passes id s [.ran p s] ((p.run s).1.spend id 0) (some (record, some e))

/-- Every turn is one of these. -/
lemma turn_runSingle (passes : PassTable S A I) (id : Text) (s : Session S A I) :
    Turn passes id s (turnLog passes id s) (runSingle passes id s).1 (runSingle passes id s).2 := by
  by_cases hdone : s.isCompleted id = true
  · simp only [turnLog, runSingle, hdone, if_true]
    exact .repeated (s.isCompleted_iff.mp hdone)
  have hnew : id ∉ s.completed := mt s.isCompleted_iff.mpr hdone
  simp only [turnLog, runSingle, hdone, Bool.false_eq_true, if_false]
  cases hp : passes.get? id with
  | none => exact .unknown (by simp [Known, hp]) _ _
  | some p =>
    cases hmissing : p.requires.find? fun dep => !passes.has dep with
    | some dep =>
      have hlacks : passes.has dep = false := by simpa using List.find?_some hmissing
      have hdep : dep ∈ p.requires := List.mem_of_find?_eq_some hmissing
      have hall : p.requires.all passes.has = false :=
        List.all_eq_false.mpr ⟨dep, hdep, by simp [hlacks]⟩
      simp only [hmissing, hall, Bool.false_eq_true, if_false]
      refine .unknown ?_ _ _
      rintro ⟨q, hq, hhas⟩
      obtain rfl : p = q := Option.some.inj (hp.symm.trans hq)
      simp [hhas dep hdep] at hlacks
    | none =>
      have hall : p.requires.all passes.has = true :=
        List.all_eq_true.mpr (by simpa using hmissing)
      simp only [hmissing, hall, if_true]
      rcases hrun : p.run s with ⟨t, _ | cause⟩
      · simpa [hrun] using Turn.succeeded p hp hnew (by simp [Pass.Succeeds, hrun]) _
      · simpa [hrun] using Turn.failed p hp hnew (by simp [Pass.Succeeds, hrun]) _
          (.inside id cause)

lemma Turn.trace {id : Text} {s t : Session S A I} {log : List (Event S A I)}
    {outcome : Option (PassRecord × Option Failure)} (h : Turn passes id s log t outcome)
    (hnamed : Named passes) : Trace passes s log t := by
  cases h with
  | repeated h => exact Trace.single (e := .repeated id s) h
  | unknown h record e => exact .nil
  | succeeded p hp h hrun record =>
    obtain rfl := hnamed id p hp
    have hran : Trace passes s [.ran p s] (Event.ran p s).after :=
      Trace.single (e := .ran p s) ⟨hp, h⟩
    simpa [Event.after, hrun] using hran
  | failed p hp h hrun record e =>
    obtain rfl := hnamed id p hp
    have hran : Trace passes s [.ran p s] (Event.ran p s).after :=
      Trace.single (e := .ran p s) ⟨hp, h⟩
    simpa [Event.after, hrun] using hran

/-- The events of passes that have their turns one after the other. -/
def eachLog (passes : PassTable S A I) (failFast : Bool) :
    List Text → Session S A I → List (Event S A I)
  | [], _ => []
  | id :: rest, s =>
    turnLog passes id s ++
      if stopsAt failFast (runSingle passes id s).2 then []
      else eachLog passes failFast rest (runSingle passes id s).1

lemma trace_runEach (hnamed : Named passes) (failFast : Bool) (ids : List Text) (s : Session S A I)
    (r : RunResult) :
    Trace passes s (eachLog passes failFast ids s) (runEach passes failFast ids s r).1 := by
  induction ids generalizing s r with
  | nil => exact .nil
  | cons id rest ih =>
    have hturn := (turn_runSingle passes id s).trace hnamed
    simp only [eachLog, runEach]
    split
    · simpa using hturn
    · exact hturn.append (ih _ _)

/-- The events of passes over the intermediate representation when there is none. -/
def withheldLog : List Text → Session S A I → List (Event S A I)
  | [], _ => []
  | id :: rest, s => .withheld id s :: withheldLog rest s.skip

lemma trace_skipAll (passes : PassTable S A I) (ids : List Text) {s : Session S A I} (r : RunResult)
    (hir : s.hasIR = false) : Trace passes s (withheldLog ids s) (skipAll ids s r).1 := by
  simp only [skipAll]
  induction ids generalizing s with
  | nil => exact .nil
  | cons id rest ih => exact (Trace.single (e := .withheld id s) hir).append (ih hir)

/-! ### Stages -/

/-- A part of a run: what it does, ending early with the failure if there is one, and its events. -/
structure Stage (S A I : Type) where
  run : Session S A I → RunResult → Session S A I × RunResult × Option Failure
  log : Session S A I → RunResult → List (Event S A I)

namespace Stage

/-- Does nothing, or fails at once. -/
def halt (e : Option Failure) : Stage S A I := ⟨fun s r => (s, r, e), fun _ _ => []⟩

/-- One stage, and then another unless it has failed. -/
def andThen (a b : Stage S A I) : Stage S A I where
  run s r :=
    match a.run s r with
    | (s, r, some e) => (s, r, some e)
    | (s, r, none) => b.run s r
  log s r :=
    match a.run s r with
    | (_, _, some _) => a.log s r
    | (s', r', none) => a.log s r ++ b.log s' r'

/-- A group of passes. -/
def group (policy : RunPolicy) (passes : PassTable S A I) (ids : List Text) : Stage S A I where
  run := runTogether policy passes ids
  log s _ := eachLog passes (policy.failFast && !(policy.parallel && 1 < ids.length)) ids s

/-- A group of passes that need the intermediate representation. -/
def overIR (policy : RunPolicy) (passes : PassTable S A I) (ids : List Text) : Stage S A I where
  run s r :=
    if s.hasIR then (group policy passes ids).run s r
    else ((skipAll ids s r).1, (skipAll ids s r).2, none)
  log s r := if s.hasIR then (group policy passes ids).log s r else withheldLog ids s

/-- The groups of one level. -/
def level (policy : RunPolicy) (passes : PassTable S A I) (l : ScheduleLevel) : Stage S A I :=
  (group policy passes l.ast).andThen
    ((overIR policy passes l.ir).andThen (group policy passes l.hybrid))

/-- Levels one after the other, numbered from `n` on. -/
def levels (policy : RunPolicy) (passes : PassTable S A I) (canceled : Bool) :
    Nat → List ScheduleLevel → Stage S A I
  | _, [] => halt none
  | n, l :: rest =>
    if canceled then halt (some (.labelled ("level " ++ Text.ofNat n) .canceled))
    else (level policy passes l).andThen (levels policy passes canceled (n + 1) rest)

lemma run_level (policy : RunPolicy) (passes : PassTable S A I) (l : ScheduleLevel)
    (s : Session S A I) (r : RunResult) :
    (level policy passes l).run s r = runLevel policy passes l s r := by
  simp only [level, andThen, group, overIR, runLevel]
  rcases runTogether policy passes l.ast s r with ⟨s', r', _ | e⟩
  · by_cases hir : s'.hasIR = true
    · simp only [hir, if_true]
      rcases runTogether policy passes l.ir s' r' with ⟨t, q, _ | e⟩ <;> rfl
    · simp [hir]
  · rfl

lemma run_levels (policy : RunPolicy) (passes : PassTable S A I) (canceled : Bool) (n : Nat)
    (ls : List ScheduleLevel) (s : Session S A I) (r : RunResult) :
    (levels policy passes canceled n ls).run s r = runLevels policy passes canceled n ls s r := by
  induction ls generalizing n s r with
  | nil => rfl
  | cons l rest ih =>
    simp only [levels, runLevels]
    split
    · rfl
    · simp only [andThen, run_level]
      rcases runLevel policy passes l s r with ⟨s', r', _ | e⟩
      · exact ih _ _ _
      · rfl

/-- Whether the events of a stage lead to the session it ends in. -/
def Traced (passes : PassTable S A I) (a : Stage S A I) : Prop :=
  ∀ s r, Trace passes s (a.log s r) (a.run s r).1

variable {policy : RunPolicy} {passes : PassTable S A I}

lemma Traced.andThen {a b : Stage S A I} (ha : a.Traced passes) (hb : b.Traced passes) :
    (a.andThen b).Traced passes := by
  intro s r
  have hfirst := ha s r
  simp only [Stage.andThen]
  rcases hrun : a.run s r with ⟨t, q, _ | e⟩
  · rw [hrun] at hfirst
    exact hfirst.append (hb t q)
  · rwa [hrun] at hfirst

lemma traced_halt (e : Option Failure) : (halt e : Stage S A I).Traced passes := fun _ _ => .nil

lemma traced_group (hnamed : Named passes) (ids : List Text) :
    (group policy passes ids).Traced passes :=
  fun s r => trace_runEach hnamed _ ids s r

lemma traced_overIR (hnamed : Named passes) (ids : List Text) :
    (overIR policy passes ids).Traced passes := by
  intro s r
  by_cases hir : s.hasIR = true
  · simpa [overIR, hir] using traced_group hnamed ids s r
  · simpa [overIR, hir] using trace_skipAll passes ids r (by simpa using hir)

lemma traced_level (hnamed : Named passes) (l : ScheduleLevel) :
    (level policy passes l).Traced passes :=
  (traced_group hnamed _).andThen ((traced_overIR hnamed _).andThen (traced_group hnamed _))

lemma traced_levels (hnamed : Named passes) (canceled : Bool) (n : Nat) (ls : List ScheduleLevel) :
    (levels policy passes canceled n ls).Traced passes := by
  induction ls generalizing n with
  | nil => exact traced_halt none
  | cons l rest ih =>
    rw [levels]
    split
    · exact traced_halt _
    · exact (traced_level hnamed l).andThen (ih _)

end Stage

/-- The events of a run of a schedule. -/
def executeLog (policy : RunPolicy) (passes : PassTable S A I) (canceled : Bool)
    (schedule : Schedule) (s : Session S A I) : List (Event S A I) :=
  match policy.failure? with
  | some _ => []
  | none => (Stage.levels policy passes canceled 0 schedule.levels).log s {}

lemma trace_execute (hnamed : Named passes) (policy : RunPolicy) (canceled : Bool)
    (schedule : Schedule) (s : Session S A I) :
    Trace passes s (executeLog policy passes canceled schedule s)
      (execute policy passes canceled schedule s).1 := by
  simp only [executeLog, execute]
  cases policy.failure? with
  | some e => exact .nil
  | none =>
    rw [← Stage.run_levels]
    exact Stage.traced_levels hnamed canceled 0 schedule.levels s {}

/-! ### Rosters -/

/-- The events of steps taken one after the other until one fails. -/
def untilFailureLog (step : Text → Session S A I → Session S A I × Option Failure)
    (events : Text → Session S A I → List (Event S A I)) :
    List Text → Session S A I → List (Event S A I)
  | [], _ => []
  | id :: rest, s =>
    match step id s with
    | (_, some _) => events id s
    | (t, none) => events id s ++ untilFailureLog step events rest t

/-- Behind a failure nothing happens. -/
lemma foldl_untilFailure_cons (step : Text → Session S A I → Session S A I × Option Failure)
    (id : Text) (rest : List Text) (s : Session S A I) :
    (id :: rest).foldl (fun (s, failure) id =>
        match failure with
        | some e => (s, some e)
        | none => step id s) (s, none) =
      match step id s with
      | (t, some e) => (t, some e)
      | (t, none) => rest.foldl (fun (s, failure) id =>
        match failure with
        | some e => (s, some e)
        | none => step id s) (t, none) := by
  have hfailed : ∀ (ids : List Text) (s : Session S A I) (e : Failure),
      ids.foldl (fun (s, failure) id =>
        match failure with
        | some e => (s, some e)
        | none => step id s) (s, some e) = (s, some e) := by
    intro ids s e
    induction ids with
    | nil => rfl
    | cons id rest ih => exact ih
  simp only [List.foldl_cons]
  rcases step id s with ⟨t, _ | e⟩
  · rfl
  · exact hfailed rest t e

lemma trace_foldl {step : Text → Session S A I → Session S A I × Option Failure}
    {events : Text → Session S A I → List (Event S A I)}
    (h : ∀ id s, Trace passes s (events id s) (step id s).1) (ids : List Text) (s : Session S A I) :
    Trace passes s (untilFailureLog step events ids s)
      (ids.foldl (fun (s, failure) id =>
        match failure with
        | some e => (s, some e)
        | none => step id s) (s, none)).1 := by
  induction ids generalizing s with
  | nil => exact .nil
  | cons id rest ih =>
    have hfirst := h id s
    rw [foldl_untilFailure_cons, untilFailureLog]
    rcases hstep : step id s with ⟨t, _ | e⟩
    · rw [hstep] at hfirst
      exact hfirst.append (ih t)
    · rwa [hstep] at hfirst

namespace Roster

variable (r : Roster S A I)

lemma get?_table (id : Text) : r.table.get? id = r.pass? id :=
  (r.table_passes id).trans (r.known_passes id).symm

/-- A pass that is found is registered under its id. -/
lemma mem_of_pass? {id : Text} {p : Pass S A I} (hp : r.pass? id = some p) :
    p ∈ r.passes ∧ p.id = id := by
  rw [pass?, r.known_passes] at hp
  exact ⟨List.mem_of_find?_eq_some hp, by simpa using List.find?_some hp⟩

lemma named_table : Named r.table := by
  intro id p hp
  rw [get?_table] at hp
  exact (r.mem_of_pass? hp).2

lemma mem_of_get?_table {id : Text} {p : Pass S A I} (hp : r.table.get? id = some p) :
    p ∈ r.passes := by
  rw [get?_table] at hp
  exact (r.mem_of_pass? hp).1

/-- The events of a pass on demand. -/
def demandLog (canceled : Bool) :
    Nat → List Text → Text → Session S A I → List (Event S A I)
  | 0, _, _, _ => []
  | fuel + 1, path, id, s =>
    if s.isCompleted id || path.contains id || canceled then []
    else
      match r.pass? id with
      | none => []
      | some p =>
        let needs := untilFailureLog (r.demand canceled fuel (id :: path))
          (demandLog canceled fuel (id :: path)) p.requires s
        match p.requires.foldl
            (fun (s, failure) dep =>
              match failure with
              | some e => (s, some e)
              | none => r.demand canceled fuel (id :: path) dep s)
            (s, none) with
        | (_, some _) => needs
        | (t, none) =>
          if p.representation == .ir && !t.hasIR then needs else needs ++ turnLog r.table id t

lemma trace_demand (canceled : Bool) (fuel : Nat) (path : List Text) (id : Text)
    (s : Session S A I) :
    Trace r.table s (r.demandLog canceled fuel path id s) (r.demand canceled fuel path id s).1 := by
  induction fuel generalizing path id s with
  | zero => exact .nil
  | succ fuel ih =>
    simp only [demandLog, demand]
    cases s.isCompleted id with
    | true => exact .nil
    | false => ?_
    cases path.contains id with
    | true => exact .nil
    | false => ?_
    cases r.pass? id with
    | none => cases canceled <;> exact .nil
    | some p =>
      cases canceled with
      | true => exact .nil
      | false =>
        simp only [Bool.or_self, Bool.false_eq_true, if_false]
        have hneeds := trace_foldl (ih (id :: path)) p.requires s
        revert hneeds
        generalize p.requires.foldl _ (s, none) = reached
        intro hneeds
        obtain ⟨t, _ | e⟩ := reached
        · dsimp only
          split
          · exact hneeds
          · have hturn := (turn_runSingle r.table id t).trace r.named_table
            have hall := hneeds.append hturn
            rcases hrun : runSingle r.table id t with ⟨u, _ | ⟨record, _ | e⟩⟩ <;>
              simpa [hrun] using hall
        · exact hneeds

/-- The events of a run of every pass. -/
def runLog (canceled : Bool) (s : Session S A I) : List (Event S A I) :=
  match r.schedule with
  | .error _ => []
  | .ok schedule => executeLog r.policy r.table canceled schedule s

lemma trace_run (canceled : Bool) (s : Session S A I) :
    Trace r.table s (r.runLog canceled s) (r.run canceled s).1 := by
  simp only [runLog, run]
  cases r.schedule with
  | error e => exact .nil
  | ok schedule =>
    have h := trace_execute r.named_table r.policy canceled schedule s
    rcases hrun : execute r.policy r.table canceled schedule s with ⟨t, _ | result, _ | e⟩ <;>
      simpa [hrun] using h

end Roster

end ContractAudit.Plan
