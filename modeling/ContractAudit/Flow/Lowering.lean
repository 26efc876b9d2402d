import ContractAudit.Source.Unit
import ContractAudit.Flow.Instr

/-!
Lowering function bodies to control-flow graphs.

A `Draft` is a graph under construction: its blocks, numbered in order of creation, and the block
that takes the next instruction. Code behind a terminator has no current block; the first
instruction of such dead code opens a block that nothing jumps to.

* `instrOf` turns an expression statement into an instruction.
* `lowerStmt` lowers a statement into a draft. It fails on a `break` or `continue` outside a loop.
* `lowerBody` lowers a whole body. The graph starts at block zero and ends every path that falls off
  the body by returning the named return values.
-/

namespace ContractAudit.Flow

open Source (Expr Token Stmt addNew isBuiltin)

/-! ### Instructions -/

/-- The names a body can refer to: state variables, and the locals declared so far. -/
structure Scope where
  state : List Text
  locals : List Text
deriving Repr

/-- Declares a local variable. -/
def Scope.declare (s : Scope) (name : Text) : Scope := { s with locals := name :: s.locals }

/-- Whether `name` is a state variable that no local hides. -/
def Scope.isState (s : Scope) (name : Text) : Bool :=
  s.state.contains name && !s.locals.contains name

/-- Notes in an instruction that it writes `name`, if that is a state variable. -/
def Instr.noteWrite (i : Instr) (s : Scope) (name : Text) : Instr :=
  if s.isState name then { i with stateWrites := i.stateWrites ++ [name] } else i

/-- Notes in an instruction that it writes to `target`. A declaration defines its name and adds it
to the scope; a name is defined, and read as well by a compound operator; anything else starting
with a name of the program is a partial definition of that name; of what is left only the reads
count. -/
def Instr.writeTo (i : Instr) (s : Scope) (target : Expr) (compound : Bool) : Instr × Scope :=
  match target with
  | [] => (i, s)
  | first :: rest =>
    if target.isDeclaration then
      let name := (target.getLast?.map (·.text)).getD []
      ({ i with defs := addNew i.defs [name] }, s.declare name)
    else if rest.isEmpty && first.kind == .ident then
      let name := first.text
      let uses := if compound then addNew i.uses [name] else i.uses
      ({ i with defs := addNew i.defs [name], uses }.noteWrite s name, s)
    else if first.kind != .ident || isBuiltin first.text then
      ({ i with uses := addNew i.uses target.readNames }, s)
    else
      let base := first.text
      ({ i with
          defs := addNew i.defs [base]
          uses := addNew (addNew i.uses [base]) target.readNames
          isPartial := true }.noteWrite s base, s)

/-- Notes in an instruction that it writes to one part of the left-hand side of an assignment. -/
def Instr.writePart (compound : Bool) (written : Instr × Scope) (part : Expr) : Instr × Scope :=
  let (i, s) := written
  (if part.isDeclaration then { i with op := .declare } else i).writeTo s part compound

/-- Whether a token is an increment or decrement operator. -/
def isStep (t : Token) : Bool := t.is "++" || t.is "--"

/-- The instruction of an expression statement, and the scope behind it. -/
def instrOf (s : Scope) (e : Expr) (line : Nat) : Instr × Scope :=
  let plain : Instr :=
    { op := .eval, value := e, calls := e.calls, external := e.outsideCall?.getD [], line }
  let many := 2 ≤ e.length
  if many && Expr.isAt e.head? "delete" then
    let (i, s) := { plain with op := .delete }.writeTo s (e.drop 1) true
    ({ i with isPartial := true }, s)
  else if many && e.getLast?.any isStep then
    { plain with op := .step }.writeTo s e.dropLast true
  else if many && e.head?.any isStep then
    { plain with op := .step }.writeTo s (e.drop 1) true
  else
    match e.assignment? with
    | some a =>
      let start : Instr :=
        { plain with op := .assign, assignOp := a.op, value := a.value, uses := a.value.readNames }
      (a.target.stripParens.topParts ",").foldl (Instr.writePart (a.op != "=")) (start, s)
    | none =>
      if e.isDeclaration then { plain with op := .declare, value := [] }.writeTo s e false
      else
        let op := if !plain.external.isEmpty || !plain.calls.isEmpty then .call else .eval
        ({ plain with op, uses := e.readNames }, s)

/-! ### Drafts -/

/-- A block under construction. -/
structure DraftBlock where
  stmts : List Instr
  term : Terminator
deriving Repr

/-- Where `break` and `continue` lead inside a loop. -/
structure LoopExits where
  exit : Nat
  next : Nat
deriving Repr

/-- A graph under construction. Blocks are numbered by their place in the list. `current` is the
block that takes the next instruction, missing behind a terminator. -/
structure Draft where
  blocks : List DraftBlock
  current : Option Nat
  /-- How many conditions have been named. -/
  conds : Nat
  scope : Scope
  /-- The loops around the current statement, innermost first. -/
  loops : List LoopExits
deriving Repr

namespace Draft

/-- Adds an empty block and returns its number. -/
def openBlock (d : Draft) : Nat × Draft :=
  (d.blocks.length, { d with blocks := d.blocks ++ [⟨[], .unreachable⟩] })

/-- Makes sure that there is a current block. -/
def ensure (d : Draft) : Draft :=
  match d.current with
  | some _ => d
  | none => let (n, d) := d.openBlock; { d with current := some n }

/-- Changes block number `n`. -/
def modify (d : Draft) (n : Nat) (f : DraftBlock → DraftBlock) : Draft :=
  { d with blocks := d.blocks.modify n f }

/-- Sets the terminator of block number `n`. -/
def setTerm (d : Draft) (n : Nat) (t : Terminator) : Draft := d.modify n fun b =>
    { b with term := t }

/-- Appends an instruction to the current block. -/
def emit (d : Draft) (i : Instr) : Draft :=
  let d := d.ensure
  match d.current with
  | some n => d.modify n fun b => { b with stmts := b.stmts ++ [i] }
  | none => d

/-- Ends the current block, if there is one. -/
def terminate (d : Draft) (t : Terminator) : Draft :=
  match d.current with
  | some n => { d.setTerm n t with current := none }
  | none => d

/-- Ends the current block with a jump to block number `n`, if there is a current block. -/
def jump (d : Draft) (n : Nat) : Draft := d.terminate (.jump n)

/-- Makes block number `n` the current one. -/
def goTo (d : Draft) (n : Nat) : Draft := { d with current := some n }

/-- Appends the evaluation of a condition and returns the variable that holds its value. -/
def cond (d : Draft) (e : Expr) (line : Nat) : Var × Draft :=
  let n := d.conds + 1
  let v : Var := "%cond" ++ Text.ofNat n
  let i : Instr :=
    { op := .cond, defs := [v], uses := e.readNames, value := e, calls := e.calls,
      external := e.outsideCall?.getD [], line }
  (v, { d with conds := n }.emit i)

/-- The instruction of an expression, with the scope behind it. -/
def instr (d : Draft) (e : Expr) (line : Nat) : Instr × Draft :=
  let (i, scope) := instrOf d.scope e line
  (i, { d with scope })

/-- Appends an expression statement. -/
def expr (d : Draft) (e : Expr) (line : Nat) : Draft :=
  let (i, d) := d.instr e line
  d.emit i

/-- Appends an expression that matters only for what it calls: without a call there is nothing to
execute. -/
def calling (d : Draft) (e : Expr) (line : Nat) : Draft :=
  if e.isEmpty then d
  else
    let (i, d) := d.instr e line
    if !i.external.isEmpty || !i.calls.isEmpty then d.emit i else d

end Draft

/-! ### Statements -/

/-- Why a body cannot be lowered. -/
inductive LowerError where
  | breakOutside (line : Nat)
  | continueOutside (line : Nat)
  | malformed (faults : List GraphFault)
deriving DecidableEq, Repr

/-- The wording of an error. -/
def LowerError.message : LowerError → Text
  | .breakOutside line => "line " ++ Text.ofNat line ++ ": break outside a loop"
  | .continueOutside line => "line " ++ Text.ofNat line ++ ": continue outside a loop"
  | .malformed faults => Text.joinWith "\n" (faults.map (·.message))

/-- The reason with which a failed check reverts. -/
def checkReason (message : Text) (internal : Bool) : Text :=
  if message.isEmpty && internal then "assertion failed" else message

/-- The blocks of a choice between two branches. Without a second branch, `no` is the block behind
the choice itself. -/
structure ChoiceFrame where
  yes : Nat
  no : Nat
  join : Nat
deriving Repr

/-- Opens a choice: evaluates its condition, opens its blocks and branches to them. -/
def Draft.openChoice (d : Draft) (cond : Expr) (line : Nat) (both : Bool) : ChoiceFrame × Draft :=
  let (v, d) := d.cond cond line
  let (yes, d) := d.openBlock
  let (no, d) := if both then d.openBlock else (d.blocks.length, d)
  let (join, d) := d.openBlock
  ({ yes, no, join }, d.terminate (.branch v yes no))

/-- Appends a check: control goes on where the condition holds, and a block of its own reverts where
it does not. -/
def Draft.check (d : Draft) (cond : Expr) (line : Nat) (reason : Text) : Draft :=
  let (frame, d) := d.openChoice cond line false
  (d.setTerm frame.no (.revert reason)).goTo frame.yes

/-- The blocks of a loop: its header tests the condition, its latch runs before the header is
entered again, and is the header itself where nothing has to be done. -/
structure LoopFrame where
  header : Nat
  body : Nat
  latch : Nat
  exit : Nat
deriving Repr

/-- Opens the blocks of a loop with the given step expression. -/
def Draft.openLoop (d : Draft) (post : Expr) : LoopFrame × Draft :=
  let (header, d) := d.openBlock
  let (body, d) := d.openBlock
  let (latch, d) := if post.isEmpty then (header, d) else d.openBlock
  let (exit, d) := d.openBlock
  ({ header, body, latch, exit }, d)

/-- Enters a loop: falls through to its first block, fills the header, and goes on in the body. -/
def Draft.enterLoop (d : Draft) (frame : LoopFrame) (line : Nat) (cond : Expr) (bodyFirst : Bool) :
    Draft :=
  let d := (d.jump (if bodyFirst then frame.body else frame.header)).goTo frame.header
  let d :=
    if cond.isEmpty then d.jump frame.body
    else
      let (v, d) := d.cond cond line
      d.terminate (.branch v frame.body frame.exit)
  { d.goTo frame.body with loops := ⟨frame.exit, frame.latch⟩ :: d.loops }

/-- Leaves a loop: ends the body, fills the latch, and goes on behind the loop. -/
def Draft.leaveLoop (d : Draft) (frame : LoopFrame) (line : Nat) (post : Expr) : Draft :=
  let d := { d with loops := d.loops.drop 1 }.jump frame.latch
  let d := if post.isEmpty then d else ((d.goTo frame.latch).expr post line).jump frame.header
  d.goTo frame.exit

mutual

/-- Lowers a statement. -/
def lowerStmt : Stmt → Draft → Except LowerError Draft
  | .empty, d => .ok d
  | .placeholder _, d => .ok d
  | .block _ body, d => lowerStmts body d
  | .expr line value, d => .ok (if value.isEmpty then d else d.expr value line)
  | .emit line _ args, d =>
    .ok (d.emit { op := .emit, uses := args.readNames, value := args, calls := args.calls, line })
  | .ifElse line cond yes no, d => do
    let (frame, d) := d.openChoice cond line (!no.isEmpty)
    let d ← lowerStmt yes (d.goTo frame.yes)
    let d := d.jump frame.join
    if no.isEmpty then return d.goTo frame.join
    let d ← lowerStmt no (d.goTo frame.no)
    return (d.jump frame.join).goTo frame.join
  | .whileLoop line cond body, d => do
    let (frame, d) := d.openLoop []
    let d ← lowerStmt body (d.enterLoop frame line cond false)
    return d.leaveLoop frame line []
  | .doLoop line cond body, d => do
    let (frame, d) := d.openLoop []
    let d ← lowerStmt body (d.enterLoop frame line cond true)
    return d.leaveLoop frame line []
  | .forLoop line init cond post body, d => do
    let d := if init.isEmpty then d else d.expr init init.line
    let (frame, d) := d.openLoop post
    let d ← lowerStmt body (d.enterLoop frame line cond false)
    return d.leaveLoop frame line post
  | .returnValue line value, d =>
    .ok ((d.calling value line).ensure.terminate (.done value.readNames))
  | .revert line args, d =>
    let d :=
      if args.readNames.isEmpty then d
      else d.emit { op := .eval, uses := args.readNames, value := args, line }
    .ok (d.ensure.terminate (.revert args.revertText))
  | .require line cond message internal, d => .ok (d.check cond line (checkReason message internal))
  | .breakLoop line, d =>
    match d.loops with
    | [] => .error (.breakOutside line)
    | top :: _ => .ok (d.ensure.jump top.exit)
  | .continueLoop line, d =>
    match d.loops with
    | [] => .error (.continueOutside line)
    | top :: _ => .ok (d.ensure.jump top.next)

/-- Lowers statements one after the other. -/
def lowerStmts : List Stmt → Draft → Except LowerError Draft
  | [], d => .ok d
  | s :: rest, d => do
    let d ← lowerStmt s d
    lowerStmts rest d

end

/-! ### Bodies -/

/-- The graph of a finished draft. -/
def Draft.graph (d : Draft) (name : Text) : Graph Instr :=
  { name, entry := 0, exits := [], order := []
    blocks := d.blocks.mapIdx fun n b => Block.ofTerminator (n : Int) b.stmts b.term
    ascending := List.pairwise_iff_getElem.mpr fun i j _ _ h => by
      simpa [Block.ofTerminator] using h }

/-- The draft at the start of a body: block zero is current. -/
def Draft.start (scope : Scope) : Draft :=
  { blocks := [⟨[], .unreachable⟩], current := some 0, conds := 0, scope, loops := [] }

/-- Lowers a body to the graph of the given name. `named` are the named return values, which a path
that falls off the end returns. -/
def lowerBody (name : Text) (scope : Scope) (named : List Var) (body : Stmt) :
    Except LowerError (Graph Instr) := do
  let d ← lowerStmt body (Draft.start scope)
  let g := ((d.terminate (.done named)).graph name).withMetadata
  if g.faults.isEmpty then return g else .error (.malformed g.faults)

end ContractAudit.Flow
