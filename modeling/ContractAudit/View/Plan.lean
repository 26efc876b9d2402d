import ContractAudit.Plan.Roster
import ContractAudit.View.Basic

/-!
JSON views of schedules and runs. Times are left out.
-/

namespace ContractAudit.View

open Plan

/-- The statistics of a session. -/
def stats (s : Stats) : Json :=
  object [("executed", .nat s.executed), ("skipped", .nat s.skipped),
    ("traversals", table Json.nat s.traversals), ("phases", texts (Text.sorted s.phases.keys))]

/-- What happened to a pass. -/
def passRecord (p : PassRecord) : Json :=
  object [("id", text p.id), ("name", text p.name), ("success", .bool p.success),
    ("error", text p.error)]

/-- What happened in a run. -/
def report (r : RunReport) : Json :=
  object [("passes", list passRecord r.passes), ("executed", .int r.executed),
    ("skipped", .int r.skipped), ("success", .bool r.success), ("errors", texts r.errors),
    ("stats", stats r.stats), ("failed", list passRecord r.failed)]

/-- The result of running a schedule. -/
def runResult (r : RunResult) : Json :=
  object [("passes", list passRecord r.passes), ("successful", .nat r.successful),
    ("failed", .nat r.failed), ("skipped", .nat r.skipped), ("ok", .bool (r.failed == 0)),
    ("errors", texts (r.errors.map (·.message)))]

/-- A schedule. -/
def schedule (s : Schedule) : Json :=
  let level (l : ScheduleLevel) := object [("ast", texts l.ast), ("ir", texts l.ir),
    ("hybrid", texts l.hybrid), ("all", texts l.all), ("empty", .bool l.all.isEmpty)]
  object [("levels", list level s.levels), ("needsIR", .bool s.needsIR),
    ("irLevel", .int s.irLevel), ("len", .nat s.size)]

/-- What a pass is called and needs. -/
def passSpec (completed : Bool) (p : PassSpec) : Json :=
  object [("id", text p.id), ("name", text p.name), ("desc", text p.description),
    ("level", text p.level.name), ("rep", text p.representation.name),
    ("requires", texts p.requires), ("completed", .bool completed)]

end ContractAudit.View
