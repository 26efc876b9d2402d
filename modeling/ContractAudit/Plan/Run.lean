import ContractAudit.Plan.Schedule

/-!
Running schedules.

Levels run in order, and the groups of a level one after the other. A pass runs when it has not
completed before and it and all that it needs are known; passes over the intermediate representation
are skipped while there is none. With the fail-fast policy the first failure ends the run, after its
group if the group runs in parallel.
-/

namespace ContractAudit.Plan

variable {S A I : Type}

/-- How a run deals with failures, and how many passes run at a time. -/
structure RunPolicy where
  failFast : Bool
  parallel : Bool
  /-- How many passes run at a time in parallel; zero stands for the number of processors. -/
  workers : Int
deriving DecidableEq, Repr

/-- What is wrong with a policy. -/
def RunPolicy.failure? (p : RunPolicy) : Option Failure :=
  if p.workers < 0 then
    some (.fault .invalidConfiguration [] ("workers must be >= 0, got " ++ Text.ofInt p.workers))
  else none

/-- The record of one pass that was run. The duration is in nanoseconds. -/
structure PassRecord where
  id : Text
  name : Text
  duration : Int
  success : Bool
  error : Text
deriving DecidableEq, Repr

/-- The outcome of a run so far. -/
structure RunResult where
  passes : List PassRecord := []
  successful : Nat := 0
  failed : Nat := 0
  skipped : Nat := 0
  errors : List Failure := []
deriving DecidableEq, Repr

/-- Adds what became of a pass: nothing for one that was skipped. -/
def RunResult.record (r : RunResult) : Option (PassRecord × Option Failure) → RunResult
  | none => { r with skipped := r.skipped + 1 }
  | some (p, none) => { r with passes := r.passes ++ [p], successful := r.successful + 1 }
  | some (p, some e) =>
    { r with passes := r.passes ++ [p], failed := r.failed + 1, errors := r.errors ++ [e] }

/-- The passes that can be run, by id. -/
abbrev PassTable (S A I : Type) := Table Text (Pass S A I)

/-- Runs one pass. There is no record of a pass that has completed before. A pass that needs one
that is not there fails with the missing one's name. -/
def runSingle (passes : PassTable S A I) (id : Text) (s : Session S A I) :
    Session S A I × Option (PassRecord × Option Failure) :=
  if s.isCompleted id then (s.skip, none)
  else
    match passes.get? id with
    | none =>
      let e : Failure := .fault .passNotFound id "no pass registered"
      (s, some (⟨id, id, 0, false, e.message⟩, some e))
    | some p =>
      match p.requires.find? fun dep => !passes.has dep with
      | some dep =>
        let e : Failure := .fault .passNotFound dep ("required by " ++ id)
        (s, some (⟨id, p.name, 0, false, e.message⟩, some e))
      | none =>
        match p.run s with
        | (s, none) => ((s.spend id 0).complete id, some (⟨id, p.name, 0, true, []⟩, none))
        | (s, some cause) =>
          let e : Failure := .inside id cause
          (s.spend id 0, some (⟨id, p.name, 0, false, e.message⟩, some e))

/-- Whether a run stops at this outcome of a pass. -/
def stopsAt (failFast : Bool) : Option (PassRecord × Option Failure) → Bool
  | some (_, some _) => failFast
  | _ => false

/-- Runs passes one after the other; with `failFast` none behind the first that fails. -/
def runEach (passes : PassTable S A I) (failFast : Bool) :
    List Text → Session S A I → RunResult → Session S A I × RunResult
  | [], s, r => (s, r)
  | id :: rest, s, r =>
    let (s, outcome) := runSingle passes id s
    let r := r.record outcome
    if stopsAt failFast outcome then (s, r) else runEach passes failFast rest s r

/-- Runs a group of passes and returns the first failure if it ends the run. In parallel all of them
run, whatever fails. -/
def runTogether (policy : RunPolicy) (passes : PassTable S A I) (ids : List Text)
    (s : Session S A I) (r : RunResult) : Session S A I × RunResult × Option Failure :=
  let parallel := policy.parallel && 1 < ids.length
  let (s, r') := runEach passes (policy.failFast && !parallel) ids s r
  (s, r', if policy.failFast then (r'.errors.drop r.errors.length).head? else none)

/-- Skips passes for want of the intermediate representation. -/
def skipAll (ids : List Text) (s : Session S A I) (r : RunResult) : Session S A I × RunResult :=
  (ids.foldl (fun s _ => s.skip) s, { r with skipped := r.skipped + ids.length })

/-- Runs one level. -/
def runLevel (policy : RunPolicy) (passes : PassTable S A I) (level : ScheduleLevel)
    (s : Session S A I) (r : RunResult) : Session S A I × RunResult × Option Failure :=
  match runTogether policy passes level.ast s r with
  | (s, r, some e) => (s, r, some e)
  | (s, r, none) =>
    let (s, r, e) :=
      if s.hasIR then runTogether policy passes level.ir s r
      else
        let (s, r) := skipAll level.ir s r
        (s, r, none)
    match e with
    | some e => (s, r, some e)
    | none => runTogether policy passes level.hybrid s r

/-- Runs levels one after the other, numbered from `n` on. A canceled run stops before the first. -/
def runLevels (policy : RunPolicy) (passes : PassTable S A I) (canceled : Bool) :
    Nat → List ScheduleLevel → Session S A I → RunResult →
      Session S A I × RunResult × Option Failure
  | _, [], s, r => (s, r, none)
  | n, level :: rest, s, r =>
    if canceled then (s, r, some (.labelled ("level " ++ Text.ofNat n) .canceled))
    else
      match runLevel policy passes level s r with
      | (s, r, some e) => (s, r, some e)
      | (s, r, none) => runLevels policy passes canceled (n + 1) rest s r

/-- Runs a schedule. There is no result at all under a policy that makes no sense; otherwise the
result so far comes with the failure that ended the run, if one did. -/
def execute (policy : RunPolicy) (passes : PassTable S A I) (canceled : Bool) (schedule : Schedule)
    (s : Session S A I) : Session S A I × Option RunResult × Option Failure :=
  match policy.failure? with
  | some e => (s, none, some e)
  | none =>
    let (s, r, e) := runLevels policy passes canceled 0 schedule.levels s {}
    (s, some r, e)

/-! ### Reports -/

/-- The summary of a whole run. Times are in nanoseconds. -/
structure RunReport where
  passes : List PassRecord
  total : Int
  executed : Int
  skipped : Int
  success : Bool
  errors : List Text
  stats : Stats
deriving Repr

/-- The passes that failed. -/
def RunReport.failed (r : RunReport) : List PassRecord := r.passes.filter (!·.success)

/-- The report of a result. -/
def RunResult.report (r : RunResult) (stats : Stats) : RunReport :=
  { passes := r.passes
    total := 0
    executed := r.successful
    skipped := r.skipped
    success := r.failed == 0
    errors := r.errors.map (·.message)
    stats }

end ContractAudit.Plan
