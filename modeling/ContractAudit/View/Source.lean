import ContractAudit.Source.Unit
import ContractAudit.View.Basic

/-!
JSON views of source units. An expression is its text, the number of its tokens and its line.
-/

namespace ContractAudit.View

open Source

/-- An expression. -/
def expr (e : Expr) : Json := .arr [text e.text, .nat e.length, .nat e.line]

/-- The name of a kind of token. -/
def tokenKind : TokenKind → String
  | .ident => "ident"
  | .number => "number"
  | .string => "string"
  | .punct => "punct"

/-- The tokens of a text and the end of it. -/
def tokens (s : Tokens) : Json :=
  let row (t : Token) := Json.arr [.str (tokenKind t.kind), text t.text, .nat t.line]
  .arr (s.list.map row ++ [.arr [.str "eof", .str [], .nat s.endLine]])

/-- A statement with its kind and line. -/
def node (kind : String) (line : Nat) (members : List (String × Json)) : Json :=
  object ([("k", .str kind), ("line", .nat line)] ++ members)

mutual

/-- A statement; the empty one is null. -/
def stmt : Stmt → Json
  | .empty => .null
  | .block line body => node "block" line [("stmts", .arr (stmts body))]
  | .ifElse line c yes no =>
    node "if" line [("cond", expr c), ("then", stmt yes), ("else", stmt no)]
  | .whileLoop line c body =>
    node "while" line [("cond", expr c), ("body", stmt body), ("do", .bool false)]
  | .doLoop line c body =>
    node "while" line [("cond", expr c), ("body", stmt body), ("do", .bool true)]
  | .forLoop line i c post body =>
    let init := if i.isEmpty then Json.null else node "expr" i.line [("x", expr i)]
    node "for" line [("init", init), ("cond", expr c), ("post", expr post), ("body", stmt body)]
  | .returnValue line v => node "return" line [("value", expr v)]
  | .revert line args => node "revert" line [("args", expr args)]
  | .require line c message isAssert =>
    node "require" line [("cond", expr c), ("message", text message), ("assert", .bool isAssert)]
  | .emit line event args => node "emit" line [("event", text event), ("args", expr args)]
  | .breakLoop line => node "break" line []
  | .continueLoop line => node "continue" line []
  | .placeholder line => node "placeholder" line []
  | .expr line x => node "expr" line [("x", expr x)]

/-- A list of statements. -/
def stmts : List Stmt → List Json
  | [] => []
  | s :: rest => stmt s :: stmts rest

end

/-- A parameter: its name and its type. -/
def param (p : Param) : Json := .arr [text p.name, text p.type]

/-- A function or a modifier. -/
def function (f : Function) : Json :=
  object [("name", text f.name), ("kind", text f.kind.keyword), ("visibility", text f.visibility),
    ("mutability", text f.mutability), ("modifiers", texts f.modifiers),
    ("params", list param f.params), ("returns", list param f.returns), ("line", .nat f.line),
    ("endLine", .nat f.endLine), ("readOnly", .bool f.isReadOnly), ("exposed", .bool f.isExposed),
    ("body", option stmt f.body?)]

/-- A state variable. -/
def stateVariable (v : StateVar) : Json :=
  object [("name", text v.name), ("type", text v.type), ("visibility", text v.visibility),
    ("constant", .bool v.isConstant), ("immutable", .bool v.isImmutable), ("line", .nat v.line),
    ("value", expr v.value)]

/-- A contract. -/
def contract (c : Contract) : Json :=
  object [("name", text c.name), ("kind", text c.kind), ("abstract", .bool c.isAbstract),
    ("bases", texts c.bases), ("line", .nat c.line), ("stateVars", list stateVariable c.stateVars),
    ("functions", list function c.functions), ("modifiers", list function c.modifiers)]

/-- A source unit. -/
def unit (u : SourceUnit) : Json :=
  object [("path", text u.path), ("pragma", text u.pragma), ("pragmaLine", .nat u.pragmaLine),
    ("imports", texts u.imports), ("contracts", list contract u.contracts)]

end ContractAudit.View
