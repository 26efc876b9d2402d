import ContractAudit.Table
import ContractAudit.Plan.Failure

/-!
Sessions and passes.

A session is what the passes of one analysis run share: the sources, the intermediate representation
once there is one, the artifacts published so far, and the ledger of completed passes. A pass reads
a session and leaves a changed one behind, also when it fails.
-/

namespace ContractAudit.Plan

/-- The granularity a pass works at. -/
inductive Level where
  | program
  | contract
  | function
  | block
  | statement
  | expression
  | variable
  | other
deriving DecidableEq, Repr

/-- The name of a level. -/
def Level.name : Level → Text
  | .program => "program"
  | .contract => "contract"
  | .function => "function"
  | .block => "block"
  | .statement => "statement"
  | .expression => "expression"
  | .variable => "variable"
  | .other => "unknown"

/-- The level with the given number, counted from zero. -/
def Level.ofNumber (n : Int) : Level :=
  if 0 ≤ n then
    ([Level.program, .contract, .function, .block, .statement, .expression,
      .variable][n.toNat]?).getD
      .other
  else .other

/-- The representation of the program a pass reads. -/
inductive Representation where
  | ast
  | ir
  | hybrid
  | other
deriving DecidableEq, Repr

/-- The name of a representation. -/
def Representation.name : Representation → Text
  | .ast => "ast"
  | .ir => "ir"
  | .hybrid => "hybrid"
  | .other => "unknown"

/-- The representation with the given number, counted from zero. -/
def Representation.ofNumber (n : Int) : Representation :=
  if n == 0 then .ast else if n == 1 then .ir else if n == 2 then .hybrid else .other

/-- Whether passes of the representation need the intermediate representation. -/
def Representation.needsIR : Representation → Bool
  | .ir | .hybrid => true
  | _ => false

/-- Statistics of a session. `phases` are the times spent in passes, in nanoseconds. -/
structure Stats where
  executed : Nat
  skipped : Nat
  traversals : Table Text Nat
  phases : Table Text Int
deriving Repr

/-- What the passes of one analysis run share: sources of type `S`, artifacts of type `A` and an
intermediate representation of type `I`. -/
structure Session (S A I : Type) where
  root : Text
  sources : List S
  ir? : Option I := none
  artifacts : Table Text A := .empty
  /-- The completed passes, in the order of their completion. -/
  completed : List Text := []
  stats : Stats := ⟨0, 0, .empty, .empty⟩
  /-- Whether a pass met a member without a body where one was needed. Such a run has no result. -/
  aborted : Bool := false
deriving Repr

namespace Session

variable {S A I : Type}

/-- Whether there is an intermediate representation. -/
def hasIR (s : Session S A I) : Bool := s.ir?.isSome

/-- Publishes the intermediate representation. -/
def setIR (s : Session S A I) (ir : I) : Session S A I := { s with ir? := some ir }

/-- Publishes an artifact, in the place of an earlier one with the same name. -/
def store (s : Session S A I) (name : Text) (artifact : A) : Session S A I :=
  { s with artifacts := s.artifacts.set name artifact }

/-- Whether the pass has completed. -/
def isCompleted (s : Session S A I) (id : Text) : Bool := s.completed.contains id

/-- Records that a pass has completed. Only the first time counts. -/
def complete (s : Session S A I) (id : Text) : Session S A I :=
  if s.isCompleted id then s
  else
    { s with
      completed := s.completed ++ [id]
      stats := { s.stats with executed := s.stats.executed + 1 } }

/-- Records that a pass was skipped. -/
def skip (s : Session S A I) : Session S A I :=
  { s with stats := { s.stats with skipped := s.stats.skipped + 1 } }

/-- Counts one traversal of the given kind. -/
def traverse (s : Session S A I) (kind : Text) : Session S A I :=
  let n := (s.stats.traversals.get? kind).getD 0
  { s with stats := { s.stats with traversals := s.stats.traversals.set kind (n + 1) } }

/-- Adds to the time spent in a phase. -/
def spend (s : Session S A I) (phase : Text) (time : Int) : Session S A I :=
  let t := (s.stats.phases.get? phase).getD 0
  { s with stats := { s.stats with phases := s.stats.phases.set phase (t + time) } }

/-! ### What the operations change -/

variable (s : Session S A I)

theorem isCompleted_iff {id : Text} : s.isCompleted id = true ↔ id ∈ s.completed := by
  simp [isCompleted]

@[simp] theorem completed_skip : s.skip.completed = s.completed := rfl

@[simp] theorem executed_skip : s.skip.stats.executed = s.stats.executed := rfl

@[simp] theorem completed_spend (phase : Text) (time : Int) :
    (s.spend phase time).completed = s.completed := rfl

@[simp] theorem executed_spend (phase : Text) (time : Int) :
    (s.spend phase time).stats.executed = s.stats.executed := rfl

@[simp] theorem mem_completed_complete {id other : Text} :
    other ∈ (s.complete id).completed ↔ other ∈ s.completed ∨ other = id := by
  unfold complete
  split
  case isTrue h =>
    have hid := s.isCompleted_iff.mp h
    exact ⟨.inl, fun hor => hor.elim (fun hother => hother) fun heq => heq ▸ hid⟩
  case isFalse => simp

theorem completed_complete {id : Text} (h : id ∉ s.completed) :
    (s.complete id).completed = s.completed ++ [id] := by
  simp [complete, s.isCompleted_iff, h]

theorem executed_complete {id : Text} (h : id ∉ s.completed) :
    (s.complete id).stats.executed = s.stats.executed + 1 := by
  simp [complete, s.isCompleted_iff, h]

end Session

/-- What a pass is called and needs. -/
structure PassSpec where
  id : Text
  name : Text
  description : Text
  level : Level
  representation : Representation
  requires : List Text
deriving DecidableEq, Repr

/-- A pass: its description and its effect on a session, with the reason if it fails. Two passes
with the same id are the same when they have the same `tag`. -/
structure Pass (S A I : Type) extends PassSpec where
  tag : Nat
  run : Session S A I → Session S A I × Option Failure

end ContractAudit.Plan
