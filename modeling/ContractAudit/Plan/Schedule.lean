import ContractAudit.Plan.Session
import ContractAudit.Plan.Dependency

/-!
Schedules: in which order passes run.

The levels of the dependency graph run one after the other. Within a level the passes that read the
syntax tree come first, then those that read the intermediate representation, then those that read
both.
-/

namespace ContractAudit.Plan

/-- The pass that generates the intermediate representation. -/
def irGeneration : Text := "ir-generation"

/-- The passes of one level, by the representation they read. -/
structure ScheduleLevel where
  ast : List Text
  ir : List Text
  hybrid : List Text
deriving DecidableEq, Repr

/-- The passes of a level in the order in which they run. -/
def ScheduleLevel.all (l : ScheduleLevel) : List Text := l.ast ++ l.ir ++ l.hybrid

/-- Levels in the order in which they run. -/
structure Schedule where
  levels : List ScheduleLevel
  needsIR : Bool
  /-- The level that generates the intermediate representation, if one does. -/
  irLevel? : Option Nat
deriving DecidableEq, Repr

/-- The index of the level that generates the intermediate representation, or -1. -/
def Schedule.irLevel (s : Schedule) : Int := (s.irLevel?.map Int.ofNat).getD (-1)

/-- The number of scheduled passes. -/
def Schedule.size (s : Schedule) : Nat := (s.levels.flatMap (·.all)).length

/-- The passes known to a scheduler: what they need and what they read. -/
structure Scheduler where
  graph : DependencyGraph
  representations : Table Text Representation
deriving Repr

namespace Scheduler

/-- A scheduler without passes. -/
def empty : Scheduler := ⟨.empty, .empty⟩

/-- Records a pass, what it reads and what it needs. -/
def register (s : Scheduler) (p : PassSpec) : Scheduler :=
  { graph := p.requires.foldl (fun g dep => g.addDependency p.id dep) (s.graph.add p.id)
    representations := s.representations.set p.id p.representation }

/-- The scheduler that knows the given passes. -/
def ofPasses (ps : List PassSpec) : Scheduler := ps.foldl register empty

/-- What a pass reads: the syntax tree unless something else was recorded. -/
def representation (s : Scheduler) (id : Text) : Representation :=
  (s.representations.get? id).getD .ast

/-- Whether some recorded pass needs the intermediate representation. -/
def needsIR (s : Scheduler) : Bool := s.representations.entries.any fun (_, r) => r.needsIR

/-- The passes of one level by what they read. -/
def group (s : Scheduler) (ids : List Text) : ScheduleLevel :=
  { ast := ids.filter fun id => s.representation id != .ir && s.representation id != .hybrid
    ir := ids.filter fun id => s.representation id == .ir
    hybrid := ids.filter fun id => s.representation id == .hybrid }

/-- The schedule of the recorded passes. -/
def schedule (s : Scheduler) : Except Cycle Schedule := do
  let levels ← s.graph.levels
  return {
    levels := (levels.filter (!·.isEmpty)).map s.group
    needsIR := s.needsIR
    irLevel? := (levels.filter (!·.isEmpty)).findIdx? (·.contains irGeneration) }

end Scheduler

end ContractAudit.Plan
