import ContractAudit.Plan.Run

/-!
Rosters: the passes of an analysis.

A roster holds passes in order of registration, and tables of them that stay in step with that. It
runs them all by their schedule, or one of them on demand together with everything it needs.
-/

namespace ContractAudit.Plan

variable {S A I : Type}

/-- Whether a table has the passes of a list by their ids. Of two with one id the first counts. -/
def Tabulates (table : PassTable S A I) (passes : List (Pass S A I)) : Prop :=
  ∀ id, table.get? id = passes.find? (·.id == id)

/-- Notes a pass in a table, unless there is one with its id. -/
def tabulate (table : PassTable S A I) (p : Pass S A I) : PassTable S A I :=
  if table.has p.id then table else table.set p.id p

namespace Tabulates

variable {table : PassTable S A I} {passes : List (Pass S A I)}

theorem empty : Tabulates (.empty : PassTable S A I) [] := fun _ => rfl

theorem add (h : Tabulates table passes) {p : Pass S A I}
    (hp : passes.find? (·.id == p.id) = none) :
    Tabulates (table.set p.id p) (passes ++ [p]) := by
  intro id
  rw [Table.get?_set, List.find?_append, h id]
  split
  · next hid => simp [hid, hp]
  · next hid => simp [Ne.symm hid]

theorem addAll (h : Tabulates table passes) (more : List (Pass S A I)) :
    Tabulates (more.foldl tabulate table) (passes ++ more) := by
  induction more generalizing table passes with
  | nil => simpa using h
  | cons p rest ih =>
    rw [List.foldl_cons, tabulate, ← List.singleton_append, ← List.append_assoc]
    refine ih ?_
    split
    · next hp =>
      intro id
      rw [List.find?_append, h id]
      rw [Table.has, h p.id] at hp
      by_cases hid : p.id = id
      · obtain ⟨q, hq⟩ := Option.isSome_iff_exists.mp hp
        simp [← hid, hq]
      · simp [hid]
    · next hp => exact h.add (by simpa [Table.has, h p.id] using hp)

theorem filter (h : Tabulates table passes) (keep : Text → Bool) :
    Tabulates (table.filterKeys keep) (passes.filter fun p => keep p.id) := by
  intro id
  rw [Table.get?_filterKeys, List.find?_filter, h id]
  split
  · next hkeep =>
    congr 1
    funext p
    by_cases hid : p.id = id <;> simp [hid, hkeep]
  · next hkeep =>
    refine (List.find?_eq_none.mpr fun p _ => ?_).symm
    by_cases hid : p.id = id <;> simp [hid, hkeep]

end Tabulates

/-- The registered passes, and how they are run. The passes are kept in order of registration, by
their ids where they are looked up (`known`) and where they are run (`table`), and with what they
need and read for the schedule. -/
structure Roster (S A I : Type) where
  policy : RunPolicy
  passes : List (Pass S A I)
  known : PassTable S A I
  table : PassTable S A I
  scheduler : Scheduler
  known_passes : Tabulates known passes
  table_passes : Tabulates table passes
  scheduler_eq : scheduler = .ofPasses (passes.map (·.toPassSpec))

namespace Roster

/-- The roster of some passes. -/
def ofPasses (policy : RunPolicy) (passes : List (Pass S A I)) : Roster S A I :=
  { policy, passes
    known := passes.foldl tabulate .empty
    table := passes.foldl tabulate .empty
    scheduler := .ofPasses (passes.map (·.toPassSpec))
    known_passes := Tabulates.empty.addAll passes
    table_passes := Tabulates.empty.addAll passes
    scheduler_eq := rfl }

/-- A roster without passes. -/
def empty (policy : RunPolicy) : Roster S A I := ofPasses policy []

/-- The pass with the given id. -/
def pass? (r : Roster S A I) (id : Text) : Option (Pass S A I) := r.known.get? id

/-- Adds a pass with a new id. -/
def add (r : Roster S A I) (p : Pass S A I) (h : r.pass? p.id = none) : Roster S A I :=
  { policy := r.policy
    passes := r.passes ++ [p]
    known := r.known.set p.id p
    table := r.table.set p.id p
    scheduler := r.scheduler.register p.toPassSpec
    known_passes := r.known_passes.add ((r.known_passes p.id).symm.trans h)
    table_passes := r.table_passes.add ((r.known_passes p.id).symm.trans h)
    scheduler_eq := by simp [r.scheduler_eq, Scheduler.ofPasses] }

/-- Adds a pass. A pass that is there already changes nothing; another one with its id is
refused. -/
def register (r : Roster S A I) (p : Pass S A I) : Except Failure (Roster S A I) :=
  if p.id.isEmpty then
    .error (.fault .invalidConfiguration [] ("pass " ++ p.name.quoted ++ " has an empty id"))
  else
    match h : r.pass? p.id with
    | some old =>
      if old.tag == p.tag then .ok r
      else .error (.fault .invalidConfiguration p.id "pass registered twice")
    | none => .ok (r.add p h)

/-- Which passes need which. -/
def graph (r : Roster S A I) : DependencyGraph := r.scheduler.graph

/-- The schedule of the passes. -/
def schedule (r : Roster S A I) : Except Failure Schedule :=
  match r.scheduler.schedule with
  | .ok s => .ok s
  | .error c => .error c.failure

/-- Removes passes. One that is left and needs a removed one fails when it is run. -/
def disable (r : Roster S A I) (ids : List Text) : Roster S A I :=
  let passes := r.passes.filter fun p => !ids.contains p.id
  { policy := r.policy, passes
    known := r.known.filterKeys fun id => !ids.contains id
    table := r.table.filterKeys fun id => !ids.contains id
    scheduler := .ofPasses (passes.map (·.toPassSpec))
    known_passes := r.known_passes.filter fun id => !ids.contains id
    table_passes := r.table_passes.filter fun id => !ids.contains id
    scheduler_eq := rfl }

/-- Runs every pass. -/
def run (r : Roster S A I) (canceled : Bool) (s : Session S A I) :
    Session S A I × Except Failure RunReport :=
  match r.schedule with
  | .error e => (s, .error e)
  | .ok schedule =>
    match execute r.policy r.table canceled schedule s with
    | (s, _, some e) => (s, .error e)
    | (s, some result, none) => (s, .ok (result.report s.stats))
    | (s, none, none) => (s, .ok (RunResult.report {} s.stats))

/-- Runs one pass, and before it everything it needs that has not completed yet, from inside the
passes of `path`. -/
def demand (r : Roster S A I) (canceled : Bool) :
    Nat → List Text → Text → Session S A I → Session S A I × Option Failure
  | 0, _, id, s => (s, some (.fault .passNotFound id "no pass registered"))
  | fuel + 1, path, id, s =>
    if s.isCompleted id then (s, none)
    else if path.contains id then
      (s, some (.fault .circularDependency id "reached again during on-demand execution"))
    else
      match r.pass? id with
      | none => (s, some (.fault .passNotFound id "no pass registered"))
      | some p =>
        if canceled then (s, some .canceled)
        else
          let (s, failure) := p.requires.foldl
            (fun (s, failure) dep =>
              match failure with
              | some e => (s, some e)
              | none => demand r canceled fuel (id :: path) dep s)
            (s, none)
          match failure with
          | some e => (s, some e)
          | none =>
            if p.representation == .ir && !s.hasIR then (s, some (.missingIR id))
            else
              match runSingle r.table id s with
              | (s, some (_, some e)) => (s, some e)
              | (s, _) => (s, none)

/-- Runs one pass on demand. Every pass on a path is registered, so one more step than there are
passes is enough. -/
def runOne (r : Roster S A I) (canceled : Bool) (id : Text) (s : Session S A I) :
    Session S A I × Option Failure :=
  r.demand canceled (r.passes.length + 2) [] id s

end Roster

end ContractAudit.Plan
