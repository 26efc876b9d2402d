import ContractAudit.Source.Token

/-!
Expressions as token runs.

The analyses do not need expression trees. An expression is the run of its tokens, and the questions
asked of it are answered on the run: its text, the names it reads, the functions it calls, whether
it is an assignment, where its top-level commas are.

*Depth* counts open brackets of any kind; a token is at top level where the depth is zero.
-/

namespace ContractAudit.Source

/-- An expression is the run of its tokens. -/
abbrev Expr := List Token

namespace Token

/-- Whether the token's text is `t`. -/
def is (t : Token) (text : Text) : Bool := t.text == text

/-- Whether the token is a punctuation mark that opens a bracket. -/
def opens (t : Token) : Bool := t.kind == .punct && (t.is "(" || t.is "[" || t.is "\x7b")

/-- Whether the token is a punctuation mark that closes a bracket. -/
def closes (t : Token) : Bool := t.kind == .punct && (t.is ")" || t.is "]" || t.is "\x7d")

/-- The depth behind the token, from the depth in front of it. -/
def depthAfter (t : Token) (depth : Int) : Int :=
  if t.opens then depth + 1 else if t.closes then depth - 1 else depth

end Token

/-! ### Names -/

/-- Words that never name a variable or a function of the program. -/
def builtins : List Text := Text.ofStrings
  ["msg", "tx", "block", "abi", "this", "super", "now", "type", "true", "false", "new", "delete",
    "payable", "address", "bool", "string", "bytes", "int", "uint", "memory", "storage", "calldata",
    "wei", "gwei", "ether", "seconds", "minutes", "hours", "days", "weeks", "mapping", "keccak256",
    "sha256", "ecrecover", "gasleft", "blockhash", "require", "assert", "revert", "selfdestruct",
    "emit"]

/-- Whether `name` is a word of the language rather than of the program. -/
def isBuiltin (name : Text) : Bool := builtins.contains name

/-- Whether `name` is one of the words `uint`, `int`, `bytes` followed by a bit or byte count. -/
def isSizedType (name : Text) : Bool :=
  let stems : List Text := ["uint", "int", "bytes"]
  stems.any fun stem =>
    match name.after? stem with
    | some size => !size.isEmpty && size.all Text.isDigit
    | none => false

/-- Whether `name` is an elementary type. -/
def isElementary (name : Text) : Bool :=
  let plain : List Text := ["address", "bool", "string", "bytes", "int", "uint", "byte", "mapping"]
  plain.contains name || isSizedType name

/-- Appends the elements of `more` that are not there yet, in order. -/
def addNew {α : Type} [DecidableEq α] (xs more : List α) : List α :=
  more.foldl (fun acc x => if x ∈ acc then acc else acc ++ [x]) xs

namespace Expr

/-! ### Text -/

/-- Whether a space is written between two neighbouring tokens. -/
def spaced (before behind : Token) : Bool :=
  let tight : List Text := [".", "(", ")", "[", "]", ",", ";", "++", "--"]
  let open_ : List Text := [".", "(", "[", "!", "~"]
  !tight.contains behind.text && !open_.contains before.text

/-- The tokens behind `before`, written out. -/
def textAfter : Token → Expr → Text
  | _, [] => []
  | before, t :: rest => (if spaced before t then [32] else []) ++ t.text ++ textAfter t rest

/-- The expression written out with canonical spacing. -/
def text : Expr → Text
  | [] => []
  | t :: rest => t.text ++ textAfter t rest

/-- The line of the first token, or zero. -/
def line : Expr → Nat
  | [] => 0
  | t :: _ => t.line

/-- Whether the text of the expression contains `part`. -/
def mentions (e : Expr) (part : Text) : Bool := Text.contains (text e) part

/-! ### Splitting -/

/-- The assignment operators. -/
def assignOps : List Text :=
  ["=", "+=", "-=", "*=", "/=", "%=", "&=", "|=", "^=", "<<=", ">>=", ">>>=", "**="]

/-- An assignment: what is written, by which operator, to what. -/
structure Assignment where
  target : Expr
  op : Text
  value : Expr
deriving DecidableEq, Repr

/-- Splits `e`, which starts at the given depth, at its first top-level assignment operator. -/
def assignmentFrom? : Int → Expr → Option Assignment
  | _, [] => none
  | depth, t :: rest =>
    if t.kind == .punct && !t.opens && !t.closes && depth == 0 && assignOps.contains t.text then
      some ⟨[], t.text, rest⟩
    else
      (assignmentFrom? (t.depthAfter depth) rest).map fun a => { a with target := t :: a.target }

/-- Splits an assignment at its operator; `none` when there is no top-level operator. -/
def assignment? (e : Expr) : Option Assignment := assignmentFrom? 0 e

/-- Splits `e`, which starts at the given depth, at the top-level occurrences of `sep`. -/
def topPartsFrom (sep : Text) : Int → Expr → List Expr
  | _, [] => [[]]
  | depth, t :: rest =>
    if t.kind == .punct && !t.opens && !t.closes && depth == 0 && t.is sep then
      [] :: topPartsFrom sep depth rest
    else
      match topPartsFrom sep (t.depthAfter depth) rest with
      | [] => [[t]]
      | part :: parts => (t :: part) :: parts

/-- The parts of `e` between top-level occurrences of `sep`. There is always at least one. -/
def topParts (e : Expr) (sep : Text) : List Expr := topPartsFrom sep 0 e

/-- Whether the bracket opened `depth` levels above is closed by the last token of the run and by no
token before it. Only round brackets count. -/
def closesLast : Int → Expr → Bool
  | _, [] => true
  | depth, t :: rest =>
    let depth' := if t.is "(" then depth + 1 else if t.is ")" then depth - 1 else depth
    (!(t.is ")" && depth' == 0) || rest.isEmpty) && closesLast depth' rest

/-- Strips one pair of round brackets that encloses the whole expression. -/
def stripParens (e : Expr) : Expr :=
  match e.head?, e.getLast? with
  | some first, some last =>
    if 2 ≤ e.length && first.is "(" && last.is ")" && closesLast 0 e then (e.drop 1).dropLast
    else e
  | _, _ => e

/-! ### What an expression reads and calls -/

/-- The tokens with their neighbours: the token before, the token itself and the token behind. -/
def neighboursAfter : Option Token → Expr → List (Option Token × Token × Option Token)
  | _, [] => []
  | before, t :: rest => (before, t, rest.head?) :: neighboursAfter (some t) rest

/-- The tokens with their neighbours. -/
def neighbours (e : Expr) : List (Option Token × Token × Option Token) := neighboursAfter none e

/-- Whether an optional token is there and has the text `text`. -/
def isAt (t : Option Token) (text : Text) : Bool := t.any (·.is text)

/-- Whether a token with these neighbours is a name of the program that is not a member of
something. -/
def isOwnName (before : Option Token) (t : Token) : Bool :=
  t.kind == .ident && !isBuiltin t.text && !isElementary t.text && !isAt before "."

/-- The variables an expression reads: its own names that are neither called nor keys of named
arguments. Each is listed once, in order of first occurrence. -/
def readNames (e : Expr) : List Text :=
  addNew [] ((neighbours e).filterMap fun (before, t, behind) =>
    if isOwnName before t && !isAt behind "(" && !isAt behind ":" then some t.text else none)

/-- The functions an expression calls by name, in order of appearance. -/
def calls (e : Expr) : List Text :=
  (neighbours e).filterMap fun (before, t, behind) =>
    if isOwnName before t && isAt behind "(" then some t.text else none

/-- Members that hand control to another contract. -/
def callMembers : List Text := ["call", "delegatecall", "staticcall", "send", "transfer"]

/-- The member of the first low-level call or ether transfer in the expression. -/
def outsideCall? (e : Expr) : Option Text :=
  (neighbours e).findSome? fun (before, t, behind) =>
    if isAt before "." && callMembers.contains t.text && (isAt behind "(" || isAt behind
      "\x7b") then
      some t.text
    else none

/-- Whether the expression reads `tx.origin`. -/
def readsTxOrigin : Expr → Bool
  | a :: b :: c :: rest =>
    (a.is "tx" && b.is "." && c.is "origin") || readsTxOrigin (b :: c :: rest)
  | _ => false

/-- Whether a run of tokens declares a local variable: a type, any data location, then a name. -/
def isDeclaration (e : Expr) : Bool :=
  match e, e.getLast? with
  | first :: second :: _, some last =>
    last.kind == .ident && !isBuiltin last.text && first.kind == .ident && !first.is "delete" &&
      (isElementary first.text || second.kind == .ident || second.is "[") &&
      e.all fun t => t.kind == .ident || t.kind == .number || t.is "[" || t.is "]"
  | _, _ => false

/-- The reason a revert gives: a lone string literal without its quotes, else the arguments as
written. -/
def revertText (args : Expr) : Text :=
  match stripParens args with
  | [t] => if t.kind == .string then unquoted t.text else text args
  | _ => text args

end Expr

end ContractAudit.Source
