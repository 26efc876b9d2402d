import ContractAudit.Source.Expr
import ContractAudit.Flow.Graph

/-!
Instructions: the statements of a lowered function.

An instruction keeps the expression it came from and what the analyses ask of it: the variables it
defines and reads, the state variables it writes, the functions it calls, and whether control passes
to another contract.
-/

namespace ContractAudit.Flow

open Source (Expr)

/-- What an instruction does. -/
inductive Opcode where
  | eval
  | assign
  | declare
  | delete
  | step
  | call
  | emit
  | cond
deriving DecidableEq, Repr

/-- The name of an opcode in listings. `step` is an increment or a decrement. -/
def Opcode.name : Opcode → Text
  | .eval => "eval"
  | .assign => "assign"
  | .declare => "declare"
  | .delete => "delete"
  | .step => "incdec"
  | .call => "call"
  | .emit => "emit"
  | .cond => "cond"

/-- One instruction. -/
structure Instr where
  op : Opcode
  defs : List Var := []
  uses : List Var := []
  value : Expr := []
  /-- Whether the definition goes through an index or a member, so that the rest of the old value
  stays. -/
  isPartial : Bool := false
  /-- The operator of an assignment, such as `=` or `+=`. -/
  assignOp : Text := []
  /-- The state variables written. -/
  stateWrites : List Text := []
  /-- The member of a low-level call or ether transfer, empty without one. -/
  external : Text := []
  calls : List Text := []
  line : Nat
deriving DecidableEq, Repr

/-- The instruction as it is written in listings. -/
def Instr.text (i : Instr) : Text :=
  let targets := Text.joinWith ", " i.defs
  match i.op with
  | .eval | .call | .emit => i.op.name ++ " " ++ Expr.text i.value
  | .delete | .step => i.op.name ++ " " ++ targets
  | .assign | .declare | .cond =>
    if i.value.isEmpty then i.op.name ++ " " ++ targets else targets ++ " = " ++ Expr.text i.value

instance : Statement Instr where
  defs := Instr.defs
  uses := Instr.uses
  text := Instr.text

end ContractAudit.Flow
