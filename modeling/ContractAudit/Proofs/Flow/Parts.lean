import ContractAudit.Proofs.Flow.Entry

/-!
The expressions of a body and the instructions made of them.

`partsOf` lists the expressions of a body in the order in which they are lowered, each with what it
is there for. Lowering makes at most one instruction of each (`Part.instr?`). Between the parts only
the scope is carried along, and only statements and results change it (`Logs`).
-/

namespace ContractAudit.Flow

open Source (Expr Stmt Contract Function SourceUnit)

/-- What an expression is there for in a body. -/
inductive Role where
  /-- An expression statement, or the first or the last part of the head of a loop. -/
  | statement
  | condition
  /-- The arguments of an event. -/
  | event
  /-- The value of a return. -/
  | result
  /-- The arguments of a revert. -/
  | reason
deriving DecidableEq, Repr

/-- An expression of a body. -/
structure Part where
  role : Role
  line : Nat
  value : Expr
deriving DecidableEq, Repr

/-- An expression that may be missing. -/
def partOf (role : Role) (line : Nat) (value : Expr) : List Part :=
  if value.isEmpty then [] else [⟨role, line, value⟩]

mutual

/-- The expressions of a statement, in the order in which they are lowered. -/
def partsOf : Stmt → List Part
  | .empty | .placeholder _ | .breakLoop _ | .continueLoop _ => []
  | .block _ body => partsOfAll body
  | .expr line value => partOf .statement line value
  | .emit line _ args => [⟨.event, line, args⟩]
  | .ifElse line cond yes no => ⟨.condition, line, cond⟩ :: (partsOf yes ++ partsOf no)
  | .whileLoop line cond body => partOf .condition line cond ++ partsOf body
  | .doLoop line cond body => partOf .condition line cond ++ partsOf body
  | .forLoop line init cond post body =>
    partOf .statement init.line init ++
      (partOf .condition line cond ++ (partsOf body ++ partOf .statement line post))
  | .returnValue line value => partOf .result line value
  | .revert line args => [⟨.reason, line, args⟩]
  | .require line cond _ _ => [⟨.condition, line, cond⟩]

/-- The expressions of some statements. -/
def partsOfAll : List Stmt → List Part
  | [] => []
  | s :: rest => partsOf s ++ partsOfAll rest

end

/-! ### The instructions of parts -/

/-- Writing to targets leaves alone what an instruction calls. -/
lemma called_foldl_writePart (compound : Bool) (targets : List Expr) (i : Instr) (s : Scope) :
    (targets.foldl (Instr.writePart compound) (i, s)).1.calls = i.calls ∧
      (targets.foldl (Instr.writePart compound) (i, s)).1.external = i.external := by
  refine List.foldlRecOn (motive := fun w : Instr × Scope => w.1.calls = i.calls ∧
    w.1.external = i.external)
    targets _ ⟨rfl, rfl⟩ fun w hw t _ => ?_
  have hevent : ∀ j : Instr, (j.writeTo w.2 t compound).1.event = j.event := fun j =>
    event_writeTo j w.2 t compound
  rw [Instr.writePart]
  split
  · exact ⟨(congrArg Event.calls (hevent _)).trans hw.1,
      (congrArg Event.external (hevent _)).trans hw.2⟩
  · exact ⟨(congrArg Event.calls (hevent _)).trans hw.1,
      (congrArg Event.external (hevent _)).trans hw.2⟩

/-- Whatever an expression statement is taken for, its instruction calls what the expression
calls. -/
lemma called_instrOf (s : Scope) (e : Expr) (line : Nat) :
    (instrOf s e line).1.calls = e.calls ∧
      (instrOf s e line).1.external = e.outsideCall?.getD [] := by
  have hwrite : ∀ (i : Instr) (t : Expr) (compound : Bool),
      (i.writeTo s t compound).1.calls = i.calls ∧
        (i.writeTo s t compound).1.external = i.external :=
    fun i t compound =>
      ⟨congrArg Event.calls (event_writeTo ..), congrArg Event.external (event_writeTo ..)⟩
  simp only [instrOf]
  split
  · exact hwrite ..
  split
  · exact hwrite ..
  split
  · exact hwrite ..
  cases e.assignment? with
  | some a => exact called_foldl_writePart ..
  | none =>
    dsimp only
    split
    · exact hwrite ..
    · exact ⟨rfl, rfl⟩

/-- Whether an expression calls something. -/
def callsSomething (e : Expr) : Bool := !(e.outsideCall?.getD []).isEmpty || !e.calls.isEmpty

namespace Part

/-- The scope behind a part. -/
def scopeAfter (p : Part) (s : Scope) : Scope :=
  match p.role with
  | .statement | .result => (instrOf s p.value p.line).2
  | .condition | .event | .reason => s

/-- The instruction of a part, in a given scope. The value of a condition goes to the variable `v`.
There is none for a result that calls nothing and for a reason that reads nothing. -/
def instr? (p : Part) (s : Scope) (v : Var) : Option Instr :=
  match p.role with
  | .statement => some (instrOf s p.value p.line).1
  | .condition =>
    some { op := .cond, defs := [v], uses := p.value.readNames, value := p.value,
           calls := p.value.calls, external := p.value.outsideCall?.getD [], line := p.line }
  | .event =>
    some { op := .emit, uses := p.value.readNames, value := p.value, calls := p.value.calls,
           line := p.line }
  | .result =>
    some (instrOf s p.value p.line).1 |>.filter fun i => !i.external.isEmpty || !i.calls.isEmpty
  | .reason =>
    if p.value.readNames.isEmpty then none
    else some { op := .eval, uses := p.value.readNames, value := p.value, line := p.line }

/-- A result makes the instruction of its expression, if the expression calls something. -/
lemma instr?_result {p : Part} (h : p.role = .result) (s : Scope) (v : Var) :
    p.instr? s v = if callsSomething p.value then some (instrOf s p.value p.line).1 else none := by
  obtain ⟨hcalls, hexternal⟩ := called_instrOf s p.value p.line
  rw [instr?, h, callsSomething, ← hcalls, ← hexternal]
  rfl

end Part

/-- The log of some parts, from the scope in front of them to the one behind them: each with its
instruction. -/
inductive Logs : Scope → List (Part × Option Instr) → Scope → Prop
  | nil (s : Scope) : Logs s [] s
  | cons {s s' : Scope} {rest : List (Part × Option Instr)} (p : Part) (v : Var)
      (h : Logs (p.scopeAfter s) rest s') : Logs s ((p, p.instr? s v) :: rest) s'

namespace Logs

lemma append {s s' s'' : Scope} {first second : List (Part × Option Instr)} (h : Logs s first s')
    (h' : Logs s' second s'') : Logs s (first ++ second) s'' := by
  induction h with
  | nil => exact h'
  | cons p v _ ih => exact .cons p v (ih h')

lemma of_cons {s s' : Scope} {p : Part} {made : Option Instr} {rest : List (Part × Option Instr)}
    (h : Logs s ((p, made) :: rest) s') : ∃ v, made = p.instr? s v ∧
      Logs (p.scopeAfter s) rest s' := by
  cases h with
  | cons _ v h => exact ⟨v, rfl, h⟩

/-- A log is cut between any two of its parts. -/
lemma of_append {s s'' : Scope} {first second : List (Part × Option Instr)}
    (h : Logs s (first ++ second) s'') :
    ∃ s', Logs s first s' ∧ Logs s' second s'' := by
  induction first generalizing s with
  | nil => exact ⟨s, .nil s, h⟩
  | cons entry first ih =>
    cases h with
    | cons p v h =>
      obtain ⟨s', hfirst, hsecond⟩ := ih h
      exact ⟨s', .cons p v hfirst, hsecond⟩

end Logs

/-- The names that are in scope in the whole body of a function: its parameters and named return
values. -/
def outerNames (fn : Function) : List Text := (fn.params.map (·.name)).filter (!·.isEmpty) ++
    fn.namedReturns

end ContractAudit.Flow
