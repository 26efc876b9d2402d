import ContractAudit.Text.Quoted

/-!
Syntax errors: what is wrong, and on which line.
-/

namespace ContractAudit.Source

/-- What is wrong with a source text. -/
inductive Fault where
  /-- Another token was needed here. `found` is `none` at the end of the file. -/
  | expected (want : Text) (found : Option Text)
  /-- An identifier was needed here. -/
  | expectedName (found : Text)
  /-- The file ends inside an expression. -/
  | endOfFile
  /-- A closing bracket without its opening one. -/
  | unbalanced (bracket : Text)
  /-- The file ends inside a contract. -/
  | contractNotClosed (name : Text)
  /-- The file ends inside a block. -/
  | blockNotClosed (line : Nat)
  /-- A state variable declaration without a name. -/
  | namelessVariable
  /-- The file ends inside a function header. -/
  | functionNotEnded (name : Text)
  /-- A token that has no place in a function header. -/
  | strayInHeader (found : Text)
  /-- A statement that starts with a string literal. -/
  | stringStatement
  /-- A kind of statement that the parser does not accept. -/
  | unsupported (keyword : Text)
  /-- The bound on the parser's steps was reached. -/
  | outOfSteps
deriving DecidableEq, Repr

/-- The wording of a fault. -/
def Fault.message : Fault → Text
  | .expected want (some found) => "expected " ++ want.quoted ++ ", found " ++ found.quoted
  | .expected want none => "expected " ++ want.quoted ++ ", found \"end of file\""
  | .expectedName found => "expected identifier, found " ++ found.quoted
  | .endOfFile => "unexpected end of file"
  | .unbalanced bracket => "unbalanced " ++ bracket.quoted
  | .contractNotClosed name => "contract " ++ name ++ " is not closed"
  | .blockNotClosed line => "block opened on line " ++ Text.ofNat line ++ " is not closed"
  | .namelessVariable => "cannot find a name in state variable declaration"
  | .functionNotEnded name => "function " ++ name ++ " has no body or terminator"
  | .strayInHeader found => "unexpected " ++ found.quoted ++ " in function header"
  | .stringStatement => "unexpected string literal"
  | .unsupported keyword => keyword ++ " statements are not supported"
  | .outOfSteps => "too many steps"

/-- A fault with the line it was found on. -/
structure ParseError where
  line : Nat
  fault : Fault
deriving DecidableEq, Repr

/-- The error as it is reported for the file at `path`. -/
def ParseError.message (e : ParseError) (path : Text) : Text :=
  path ++ ":" ++ Text.ofNat e.line ++ ": " ++ e.fault.message

end ContractAudit.Source
