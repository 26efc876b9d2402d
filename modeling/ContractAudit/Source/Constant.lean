import ContractAudit.Source.Expr
import ContractAudit.Source.Numeral

/-!
Constant expressions.

`constantValue?` folds an expression to a word. It reads the run of tokens by precedence climbing,
and gives nothing when the expression is malformed, reads a name that has no known value, calls or
indexes something, or divides by zero. Truth values are zero and one.
-/

namespace ContractAudit.Source

/-- The known values of names. -/
abbrev Env := Text → Option Nat

/-- The binary operators. -/
inductive BinaryOp where
  | or | and
  | eq | ne
  | lt | gt | le | ge
  | bitOr | bitXor | bitAnd
  | shiftLeft | shiftRight
  | add | sub
  | mul | div | mod
  | pow
deriving DecidableEq, Repr

namespace BinaryOp

/-- The operators with their symbols. -/
def table : List (Text × BinaryOp) :=
  [("||", .or), ("&&", .and), ("==", .eq), ("!=", .ne), ("<", .lt), (">", .gt), ("<=", .le),
    (">=", .ge), ("|", .bitOr), ("^", .bitXor), ("&", .bitAnd), ("<<", .shiftLeft),
    (">>", .shiftRight), ("+", .add), ("-", .sub), ("*", .mul), ("/", .div), ("%", .mod),
    ("**", .pow)]

/-- The operator with the given symbol. -/
def ofSymbol? (symbol : Text) : Option BinaryOp := table.lookup symbol

/-- How tightly an operator binds; one is the loosest. -/
def precedence : BinaryOp → Nat
  | .or => 1
  | .and => 2
  | .eq | .ne => 3
  | .lt | .gt | .le | .ge => 4
  | .bitOr => 5
  | .bitXor => 6
  | .bitAnd => 7
  | .shiftLeft | .shiftRight => 8
  | .add | .sub => 9
  | .mul | .div | .mod => 10
  | .pow => 11

/-- What the right operand has to bind tighter than: operators associate to the left, powers to the
right. -/
def rightBound (op : BinaryOp) : Nat :=
  match op with
  | .pow => op.precedence - 1
  | _ => op.precedence

/-- Zero or one for a truth value. -/
def truth (b : Bool) : Nat := if b then 1 else 0

/-- The value of an operator, nothing for a division by zero. A shift by more than sixteen bits
gives zero. -/
def apply (op : BinaryOp) (a b : Nat) : Option Nat :=
  match op with
  | .or => some (truth (a != 0 || b != 0))
  | .and => some (truth (a != 0 && b != 0))
  | .eq => some (truth (a == b))
  | .ne => some (truth (a != b))
  | .lt => some (truth (a < b))
  | .gt => some (truth (b < a))
  | .le => some (truth (a ≤ b))
  | .ge => some (truth (b ≤ a))
  | .bitOr => some ((a ||| b) % wordCount)
  | .bitXor => some ((a ^^^ b) % wordCount)
  | .bitAnd => some ((a &&& b) % wordCount)
  | .shiftLeft => some (if b < 65536 then (a <<< b) % wordCount else 0)
  | .shiftRight => some (if b < 65536 then (a >>> b) % wordCount else 0)
  | .add => some ((a + b) % wordCount)
  | .sub => some (toWord ((a : Int) - (b : Int)))
  | .mul => some (a * b % wordCount)
  | .div => if b == 0 then none else some (a / b % wordCount)
  | .mod => if b == 0 then none else some (a % b % wordCount)
  | .pow => some (wordPower a b)

end BinaryOp

/-- The unary operators. -/
inductive UnaryOp where
  | neg
  | complement
  | not
deriving DecidableEq, Repr

namespace UnaryOp

/-- The operator with the given symbol. -/
def ofSymbol? (symbol : Text) : Option UnaryOp :=
  let table : List (Text × UnaryOp) := [("-", .neg), ("~", .complement), ("!", .not)]
  table.lookup symbol

/-- The value of an operator. -/
def apply (op : UnaryOp) (a : Nat) : Nat :=
  match op with
  | .neg => toWord (-(a : Int))
  | .complement => toWord (-(a : Int) - 1)
  | .not => BinaryOp.truth (a == 0)

end UnaryOp

/-- A number literal as a word. -/
def literalWord? (literal : Text) : Option Nat := (readNumeral? literal).map toWord

mutual

/-- Evaluates an expression whose operators all bind tighter than `bound`. -/
def evalBinary (env : Env) : Nat → Nat → Expr → Option (Nat × Expr)
  | 0, _, _ => none
  | fuel + 1, bound, e => do
    let (left, rest) ← evalUnary env fuel e
    evalClimb env fuel bound left rest

/-- Goes on from the value `left` with the operators behind it that bind tighter than `bound`. -/
def evalClimb (env : Env) : Nat → Nat → Nat → Expr → Option (Nat × Expr)
  | 0, _, _, _ => none
  | fuel + 1, bound, left, e =>
    match e with
    | [] => some (left, [])
    | t :: rest =>
      match BinaryOp.ofSymbol? t.text with
      | none => some (left, e)
      | some op =>
        if op.precedence ≤ bound then some (left, e)
        else do
          let (right, rest) ← evalBinary env fuel op.rightBound rest
          let value ← op.apply left right
          evalClimb env fuel bound value rest

/-- Evaluates an operand with the unary operators in front of it. -/
def evalUnary (env : Env) : Nat → Expr → Option (Nat × Expr)
  | 0, _ => none
  | fuel + 1, e =>
    match e with
    | [] => none
    | t :: rest =>
      match UnaryOp.ofSymbol? t.text with
      | some op => do
        let (value, rest) ← evalUnary env fuel rest
        return (op.apply value, rest)
      | none => evalPrimary env fuel e

/-- Evaluates an expression in brackets, a literal with its unit, or a name. -/
def evalPrimary (env : Env) : Nat → Expr → Option (Nat × Expr)
  | 0, _ => none
  | fuel + 1, e =>
    match e with
    | [] => none
    | t :: rest =>
      if t.is "(" then do
        let (value, rest) ← evalBinary env fuel 0 rest
        match rest with
        | close :: rest => if close.is ")" then return (value, rest) else none
        | [] => none
      else if t.kind == .number then do
        let value ← literalWord? t.text
        match rest with
        | unit :: behind =>
          match unitFactor? unit.text with
          | some factor => return (value * factor % wordCount, behind)
          | none => return (value, rest)
        | [] => return (value, [])
      else if t.is "true" then some (1, rest)
      else if t.is "false" then some (0, rest)
      else if t.kind == .ident then
        let next := rest.head?
        if Expr.isAt next "(" || Expr.isAt next "." || Expr.isAt next "[" then none
        else (env t.text).map fun value => (value, rest)
      else none

end

/-- The value of a constant expression. Four calls at most are made for one token. -/
def constantValue? (e : Expr) (env : Env) : Option Nat :=
  match evalBinary env (4 * e.length + 4) 0 e with
  | some (value, []) => some value
  | _ => none

end ContractAudit.Source
