import ContractAudit.Source.Expr

/-!
Source units: the outline of a file and the bodies of its functions.

Statements form a tree; the expressions in them stay token runs. Names, types and keywords are kept
as the texts of their tokens.
-/

namespace ContractAudit.Source

/-- A statement. `empty` is a lone semicolon, and stands for a missing `else` branch too. -/
inductive Stmt where
  | empty
  | block (line : Nat) (body : List Stmt)
  | ifElse (line : Nat) (cond : Expr) (yes no : Stmt)
  | whileLoop (line : Nat) (cond : Expr) (body : Stmt)
  | doLoop (line : Nat) (cond : Expr) (body : Stmt)
  | forLoop (line : Nat) (init cond post : Expr) (body : Stmt)
  | returnValue (line : Nat) (value : Expr)
  | revert (line : Nat) (args : Expr)
  /-- A checked condition: `require`, or `assert` when `internal` is set. -/
  | require (line : Nat) (cond : Expr) (message : Text) (internal : Bool)
  | emit (line : Nat) (event : Text) (args : Expr)
  | breakLoop (line : Nat)
  | continueLoop (line : Nat)
  /-- The place in a modifier where the modified body goes. -/
  | placeholder (line : Nat)
  /-- An expression, an assignment or the declaration of a local variable. -/
  | expr (line : Nat) (value : Expr)
deriving Repr

/-- Whether the statement is a lone semicolon. -/
def Stmt.isEmpty : Stmt → Bool
  | .empty => true
  | _ => false

/-- A parameter or return value. The name is empty when none is given. -/
structure Param where
  name : Text
  type : Text
deriving DecidableEq, Repr

/-- What a member with a body is, as its keyword says. -/
inductive FunctionKind where
  | function
  | constructor
  | receive
  | fallback
  | modifier
deriving DecidableEq, Repr

/-- The keyword of a kind of function. -/
def FunctionKind.keyword : FunctionKind → Text
  | .function => "function"
  | .constructor => "constructor"
  | .receive => "receive"
  | .fallback => "fallback"
  | .modifier => "modifier"

/-- The kind of function a keyword opens. -/
def FunctionKind.ofKeyword? (word : Text) : Option FunctionKind :=
  [FunctionKind.function, .constructor, .receive, .fallback, .modifier].find? (·.keyword == word)

/-- A function, constructor, receive or fallback function, or a modifier. `body?` is missing when
the member is declared without an implementation. -/
structure Function where
  name : Text
  kind : FunctionKind
  visibility : Text
  mutability : Text
  modifiers : List Text
  params : List Param
  returns : List Param
  line : Nat
  endLine : Nat
  body? : Option Stmt
deriving Repr

/-- The return values that have names. -/
def Function.namedReturns (f : Function) : List Text :=
  (f.returns.map (·.name)).filter (!·.isEmpty)

/-- Whether the function promises not to write state. -/
def Function.isReadOnly (f : Function) : Bool :=
  f.mutability == "view" || f.mutability == "pure"

/-- Whether the function can be called from outside its contract. -/
def Function.isExposed (f : Function) : Bool :=
  match f.kind with
  | .receive | .fallback => true
  | .modifier | .constructor => false
  | .function => f.visibility == "public" || f.visibility == "external" || f.visibility.isEmpty

/-- A state variable. `value` is empty when it has no initialiser. -/
structure StateVar where
  name : Text
  type : Text
  visibility : Text
  isConstant : Bool
  isImmutable : Bool
  value : Expr
  line : Nat
deriving DecidableEq, Repr

/-- A contract, an interface or a library. -/
structure Contract where
  name : Text
  kind : Text
  isAbstract : Bool
  bases : List Text
  line : Nat
  stateVars : List StateVar
  functions : List Function
  modifiers : List Function
deriving Repr

/-- The first state variable of a contract with the given name. -/
def Contract.stateVar? (c : Contract) (name : Text) : Option StateVar :=
  c.stateVars.find? (·.name == name)

/-- A parsed source file. `pragma` is the compiler version constraint and `pragmaLine` its line,
zero when the file has none. -/
structure SourceUnit where
  path : Text
  content : Text
  pragma : Text
  pragmaLine : Nat
  imports : List Text
  contracts : List Contract
deriving Repr

/-- The first contract of a unit with the given name. -/
def SourceUnit.contract? (u : SourceUnit) (name : Text) : Option Contract :=
  u.contracts.find? (·.name == name)

end ContractAudit.Source
