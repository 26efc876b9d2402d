import Mathlib.Data.List.Basic
import ContractAudit.Flow.Lowering

/-!
Executing bodies and walking their graphs.

Both take the outcomes of the conditions from a list, in the order in which conditions are
evaluated, and stop for lack of steps or of outcomes. What they let see is the sequence of
instructions executed so far and how the execution ended.

* `execute` runs a body statement by statement. What is left to do is a list of tasks, in which the
  loops around the current statement stand behind the rest of their bodies.
* `Graph.walk` runs a graph block by block.
* `Observed` says what can be seen of an execution at some moment.
-/

namespace ContractAudit.Flow

open Source (Expr Stmt Token)

/-! ### What is seen of an execution -/

/-- What an execution lets see of an instruction. -/
structure Event where
  op : Opcode
  value : Expr
  calls : List Text
  external : Text
  line : Nat
deriving DecidableEq, Repr

/-- What an execution lets see of `i`. -/
def Instr.event (i : Instr) : Event :=
  { op := i.op, value := i.value, calls := i.calls, external := i.external, line := i.line }

/-- How an execution ended, if it did. -/
inductive Ending where
  | running
  | returned (values : List Var)
  | reverted (reason : Text)
deriving DecidableEq, Repr

/-- What has been seen of an execution: the instructions so far, and its ending. -/
structure Seen where
  trace : List Event
  ending : Ending
deriving DecidableEq, Repr

namespace Seen

/-- Nothing yet. -/
def nothing : Seen := ⟨[], .running⟩

/-- The same behind some other instructions. -/
def behind (events : List Event) (s : Seen) : Seen := { s with trace := events ++ s.trace }

/-- `s` is what `t` lets see, at its end or at an earlier moment. -/
def Before (s t : Seen) : Prop := s = t ∨ (s.ending = .running ∧ s.trace <+: t.trace)

lemma Before.refl (s : Seen) : s.Before s := .inl rfl

lemma Before.trans {s t u : Seen} (hst : s.Before t) (htu : t.Before u) : s.Before u := by
  rcases hst with rfl | ⟨hs, hst⟩
  · exact htu
  · rcases htu with rfl | ⟨_, htu⟩
    · exact .inr ⟨hs, hst⟩
    · exact .inr ⟨hs, hst.trans htu⟩

lemma nothing_before (s : Seen) : nothing.Before s := .inr ⟨rfl, List.nil_prefix⟩

lemma Before.behind {s t : Seen} (h : s.Before t) (events : List Event) :
    (s.behind events).Before (t.behind events) := by
  rcases h with rfl | ⟨hs, hst⟩
  · exact .refl _
  · exact .inr ⟨hs, (List.prefix_append_right_inj events).mpr hst⟩

@[simp] lemma behind_nil (s : Seen) : s.behind [] = s := rfl

lemma behind_append (s : Seen) (first second : List Event) :
    s.behind (first ++ second) = (s.behind second).behind first := by
  simp [Seen.behind]

end Seen

/-- What can be seen at some moment of an execution, given by what is seen after each number of
steps. -/
def Observed (seen : Nat → Seen) (s : Seen) : Prop := ∃ n, s.Before (seen n)

/-- Goes on by the next outcome of a condition. Without one the execution stays where it is. -/
def onOutcome (yes no : List Bool → Seen) : List Bool → Seen
  | [] => .nothing
  | true :: outcomes => yes outcomes
  | false :: outcomes => no outcomes

/-! ### Graphs -/

/-- What is seen after `n` steps from statement number `k` of block `id`. A step executes one
instruction or one terminator. -/
def Graph.walk (g : Graph Instr) : Nat → BlockId → Nat → List Bool → Seen
  | 0, _, _, _ => .nothing
  | n + 1, id, k, outcomes =>
    match g.block? id with
    | none => .nothing
    | some b =>
      match b.stmts[k]? with
      | some i => (g.walk n id (k + 1) outcomes).behind [i.event]
      | none =>
        match b.term with
        | .jump target => g.walk n target 0 outcomes
        | .branch _ yes no => onOutcome (g.walk n yes 0) (g.walk n no 0) outcomes
        | .done values => ⟨[], .returned values⟩
        | .revert reason => ⟨[], .reverted reason⟩
        | .unreachable => .nothing

/-! ### Bodies -/

/-- Whether a token that may be missing is there and has one of the given texts. -/
def readsAs (t : Option Token) (texts : List Text) : Bool := t.any fun t => texts.contains t.text

/-- What an expression statement does, by its form. It deletes or steps something where the word or
the mark for that stands beside something. An assignment to a declared name is a declaration. -/
def exprOp (e : Expr) : Opcode :=
  if 2 ≤ e.length ∧ readsAs e.head? ["delete"] then .delete
  else if 2 ≤ e.length ∧ (readsAs e.head? ["++", "--"] ∨ readsAs e.getLast? ["++", "--"]) then .step
  else
    match e.assignment? with
    | some a =>
      if (a.target.stripParens.topParts ",").any Expr.isDeclaration then .declare else .assign
    | none =>
      if e.isDeclaration then .declare
      else if e.calls = [] ∧ e.outsideCall? = none then .eval
      else .call

/-- The expression that an expression statement evaluates: all of it, but of an assignment only what
is assigned. A declaration alone evaluates nothing. -/
def exprValue (e : Expr) : Expr :=
  match exprOp e with
  | .assign | .declare => (e.assignment?.map Expr.Assignment.value).getD []
  | _ => e

/-- What is seen of an expression statement. -/
def exprEvent (e : Expr) (line : Nat) : Event :=
  { op := exprOp e, value := exprValue e, calls := e.calls, external := e.outsideCall?.getD [],
    line }

/-- What is seen of an expression that may be missing. -/
def exprEvents (e : Expr) (line : Nat) : List Event := if e.isEmpty then [] else [exprEvent e line]

/-- What is seen of a condition. -/
def condEvent (e : Expr) (line : Nat) : Event :=
  { op := .cond, value := e, calls := e.calls, external := e.outsideCall?.getD [], line }

/-- What is seen of an event that is emitted. -/
def emitEvent (args : Expr) (line : Nat) : Event :=
  { op := .emit, value := args, calls := args.calls, external := [], line }

/-- What is seen of a returned value: its instruction, where that calls something. -/
def returnEvents (value : Expr) (line : Nat) : List Event :=
  (exprEvents value line).filter fun e => !e.external.isEmpty || !e.calls.isEmpty

/-- What is seen of the arguments of a revert: their evaluation, where they read something. -/
def revertEvents (args : Expr) (line : Nat) : List Event :=
  if args.readNames.isEmpty then []
  else [{ op := .eval, value := args, calls := [], external := [], line }]

/-- The reason of a check that fails: its message. An assertion without one has a reason of its
own. -/
def failureReason : Text → Bool → Text
  | [], true => "assertion failed"
  | message, _ => message

/-- What a string literal says: what stands between two quotes of one kind. -/
def literalContent : Text → Text
  | [] => []
  | quote :: rest =>
    if (quote = 34 ∨ quote = 39) ∧ rest.getLast? = some quote then rest.dropLast else quote :: rest

/-- The reason of a revert: what a string literal says that is alone, in brackets or not, and other
arguments as they are written. -/
def revertReason : Expr → Text
  | [t] => if t.kind = .string then literalContent t.text else Expr.text [t]
  | [before, t, behind] =>
    if before.text = "(" ∧ behind.text = ")" ∧ t.kind = .string ∧ t.text ≠ ")" then
      literalContent t.text
    else Expr.text [before, t, behind]
  | args => Expr.text args

/-- A loop: while the condition holds, or forever without one, the body and then the step `post`. -/
structure Loop where
  line : Nat
  cond : Expr
  post : Expr
  body : Stmt

/-- Something left to do. -/
inductive Task where
  | stmt (s : Stmt)
  /-- Tests the condition of a loop and goes on in its body or behind the loop. -/
  | test (l : Loop)
  /-- Ends a round of a loop. The tasks in front of it belong to the body. -/
  | next (l : Loop)

/-- The innermost loop around the first task, and what is left to do behind that loop. -/
def innermost? : List Task → Option (Loop × List Task)
  | [] => none
  | .next l :: tasks => some (l, tasks)
  | _ :: tasks => innermost? tasks

/-- What is seen after `n` steps of doing the given tasks. Having done them all returns the values
`named`. -/
def execute (named : List Var) : Nat → List Task → List Bool → Seen
  | 0, _, _ => .nothing
  | _ + 1, [], _ => ⟨[], .returned named⟩
  | n + 1, .stmt .empty :: tasks, outcomes => execute named n tasks outcomes
  | n + 1, .stmt (.placeholder _) :: tasks, outcomes => execute named n tasks outcomes
  | n + 1, .stmt (.block _ body) :: tasks, outcomes =>
    execute named n (body.map .stmt ++ tasks) outcomes
  | n + 1, .stmt (.expr line value) :: tasks, outcomes =>
    (execute named n tasks outcomes).behind (exprEvents value line)
  | n + 1, .stmt (.emit line _ args) :: tasks, outcomes =>
    (execute named n tasks outcomes).behind [emitEvent args line]
  | n + 1, .stmt (.ifElse line cond yes no) :: tasks, outcomes =>
    (onOutcome (execute named n (.stmt yes :: tasks)) (execute named n (.stmt no :: tasks))
      outcomes).behind [condEvent cond line]
  | n + 1, .stmt (.whileLoop line cond body) :: tasks, outcomes =>
    execute named n (.test ⟨line, cond, [], body⟩ :: tasks) outcomes
  | n + 1, .stmt (.doLoop line cond body) :: tasks, outcomes =>
    execute named n (.stmt body :: .next ⟨line, cond, [], body⟩ :: tasks) outcomes
  | n + 1, .stmt (.forLoop line init cond post body) :: tasks, outcomes =>
    (execute named n (.test ⟨line, cond, post, body⟩ :: tasks) outcomes).behind
      (exprEvents init init.line)
  | _ + 1, .stmt (.returnValue line value) :: _, _ =>
    ⟨returnEvents value line, .returned value.readNames⟩
  | _ + 1, .stmt (.revert line args) :: _, _ =>
    ⟨revertEvents args line, .reverted (revertReason args)⟩
  | n + 1, .stmt (.require line cond message internal) :: tasks, outcomes =>
    (onOutcome (execute named n tasks) (fun _ => ⟨[], .reverted (failureReason message internal)⟩)
      outcomes).behind [condEvent cond line]
  | n + 1, .stmt (.breakLoop _) :: tasks, outcomes =>
    match innermost? tasks with
    | none => .nothing
    | some (_, tasks) => execute named n tasks outcomes
  | n + 1, .stmt (.continueLoop _) :: tasks, outcomes =>
    match innermost? tasks with
    | none => .nothing
    | some (l, tasks) => execute named n (.next l :: tasks) outcomes
  | n + 1, .test l :: tasks, outcomes =>
    if l.cond.isEmpty then execute named n (.stmt l.body :: .next l :: tasks) outcomes
    else
      (onOutcome (execute named n (.stmt l.body :: .next l :: tasks)) (execute named n tasks)
        outcomes).behind [condEvent l.cond l.line]
  | n + 1, .next l :: tasks, outcomes =>
    (execute named n (.test l :: tasks) outcomes).behind (exprEvents l.post l.line)

end ContractAudit.Flow
