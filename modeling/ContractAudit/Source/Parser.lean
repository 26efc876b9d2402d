import ContractAudit.Source.Unit
import ContractAudit.Source.Pragma
import ContractAudit.Source.ParseError

/-!
The parser of source units.

Each parser takes the tokens that are left and returns what it read with the tokens behind it, or
the first fault. Expressions are not parsed: `runTo` takes the run up to a top-level terminator.

* `stmt` and `stmts` read statements. They call each other at most twice for every token read, which
  is where their fuel comes from.
* `function`, `stateVariable` and `member` read the members of a contract.
* `parse` reads a whole file. Every loop step reads at least one token.

A bound that is reached is a fault of its own, so that it cannot be taken for an answer.
-/

namespace ContractAudit.Source

/-- What a parser returns: what it read, or a fault. -/
abbrev Reading := Except ParseError

namespace Tokens

/-- The line of the next token, or of the end of the file. -/
def line (s : Tokens) : Nat :=
  match s.list with
  | t :: _ => t.line
  | [] => s.endLine

/-- The text of the next token, empty at the end of the file. -/
def text (s : Tokens) : Text :=
  match s.list with
  | t :: _ => t.text
  | [] => []

/-- Fails at the next token. -/
def fail {α : Type} (s : Tokens) (fault : Fault) : Reading α := .error ⟨s.line, fault⟩

/-- The tokens behind the next one. -/
def rest (s : Tokens) : Tokens := { s with list := s.list.drop 1 }

/-- Whether the next token is the word or mark `text`. -/
def isAt (s : Tokens) (text : Text) : Bool :=
  match s.list with
  | t :: _ => t.is text && t.kind != .string
  | [] => false

/-- Skips the next token if it is `text`. -/
def skipIf (s : Tokens) (text : Text) : Tokens := if s.isAt text then s.rest else s

/-- Skips the next token, which has to be `text`. -/
def expect (s : Tokens) (text : Text) : Reading Tokens :=
  if s.isAt text then .ok s.rest else s.fail (.expected text (s.list.head?.map (·.text)))

/-- Reads an identifier. -/
def name (s : Tokens) : Reading (Text × Tokens) :=
  match s.list with
  | t :: _ => if t.kind == .ident then .ok (t.text, s.rest) else s.fail (.expectedName t.text)
  | [] => s.fail (.expectedName [])

/-- Reads up to the first token of `stops` outside brackets, from inside `depth` open brackets. The
stop is not read. -/
def takeUntil (stops : List Text) (endLine : Nat) :
    Nat → List Token → Except ParseError (Expr × List Token)
  | _, [] => .error ⟨endLine, .endOfFile⟩
  | depth, t :: rest =>
    if depth == 0 && t.kind == .punct && stops.contains t.text then .ok ([], t :: rest)
    else if t.opens then do
      let (run, left) ← takeUntil stops endLine (depth + 1) rest
      return (t :: run, left)
    else if t.closes then
      match depth with
      | 0 => .error ⟨t.line, .unbalanced t.text⟩
      | depth + 1 => do
        let (run, left) ← takeUntil stops endLine depth rest
        return (t :: run, left)
    else do
      let (run, left) ← takeUntil stops endLine depth rest
      return (t :: run, left)

/-- Reads up to the first token of `stops` outside brackets, which is not read. -/
def runTo (s : Tokens) (stops : List Text) : Reading (Expr × Tokens) := do
  let (run, left) ← takeUntil stops s.endLine 0 s.list
  return (run, { s with list := left })

/-- Reads up to the first `stop` outside brackets, and the stop itself. -/
def through (s : Tokens) (stop : Text) : Reading (Expr × Tokens) := do
  let (run, s) ← s.runTo [stop]
  return (run, s.rest)

/-- Reads an expression in round brackets. -/
def parens (s : Tokens) : Reading (Expr × Tokens) := do
  let s ← s.expect "("
  s.through ")"

/-- Skips a group in round brackets if one comes next. -/
def skipGroup (s : Tokens) : Reading Tokens :=
  if s.isAt "(" then do
    let (_, s) ← s.parens
    return s
  else return s

/-- Skips a declaration that ends in a semicolon or in a block. -/
def skipDeclaration (s : Tokens) : Reading Tokens := do
  let (_, s) ← s.runTo [";", "\x7b"]
  if s.isAt ";" then return s.rest
  let s ← s.expect "\x7b"
  let (_, s) ← s.through "\x7d"
  return s

end Tokens

/-! ### Statements -/

/-- A checked condition, from the arguments of `require` or `assert`. The message is a lone string
literal without its quotes, or the second argument as written. -/
def checkedStmt (line : Nat) (args : Expr) (internal : Bool) : Stmt :=
  match Expr.topParts args "," with
  | cond :: [t] :: _ =>
    .require line cond (if t.kind == .string then unquoted t.text else Expr.text [t]) internal
  | cond :: message :: _ => .require line cond (Expr.text message) internal
  | [cond] => .require line cond [] internal
  | [] => .require line [] [] internal

/-- An emitted event, from the tokens behind the keyword. -/
def eventStmt (line : Nat) : Expr → Stmt
  | [] => .emit line [] []
  | t :: args => .emit line t.text args

mutual

/-- Reads a statement. -/
def stmt : Nat → Tokens → Reading (Stmt × Tokens)
  | 0, s => s.fail .outOfSteps
  | fuel + 1, s =>
    match s.list with
    | [] => s.fail .endOfFile
    | t :: _ =>
      if t.kind == .string then s.fail .stringStatement
      else if t.is "\x7b" then block fuel s
      else if t.is ";" then .ok (.empty, s.rest)
      else if t.is "unchecked" && s.rest.text == "\x7b" then block fuel s.rest
      else if t.is "if" then do
        let (cond, s) ← s.rest.parens
        let (yes, s) ← stmt fuel s
        if s.isAt "else" then
          let (no, s) ← stmt fuel s.rest
          return (.ifElse t.line cond yes no, s)
        else return (.ifElse t.line cond yes .empty, s)
      else if t.is "while" then do
        let (cond, s) ← s.rest.parens
        let (body, s) ← stmt fuel s
        return (.whileLoop t.line cond body, s)
      else if t.is "do" then do
        let (body, s) ← stmt fuel s.rest
        let s ← s.expect "while"
        let (cond, s) ← s.parens
        return (.doLoop t.line cond body, s.skipIf ";")
      else if t.is "for" then do
        let s ← s.rest.expect "("
        let (init, s) ← s.through ";"
        let (cond, s) ← s.through ";"
        let (post, s) ← s.through ")"
        let (body, s) ← stmt fuel s
        return (.forLoop t.line init cond post body, s)
      else if t.is "return" then do
        let (value, s) ← s.rest.through ";"
        return (.returnValue t.line value, s)
      else if t.is "revert" then do
        let (args, s) ← s.rest.through ";"
        return (.revert t.line args, s)
      else if (t.is "require" || t.is "assert") && s.rest.text == "(" then do
        let (args, s) ← s.rest.parens
        return (checkedStmt t.line args (t.is "assert"), s.skipIf ";")
      else if t.is "emit" then do
        let (run, s) ← s.rest.through ";"
        return (eventStmt t.line run, s)
      else if t.is "break" then .ok (.breakLoop t.line, s.rest.skipIf ";")
      else if t.is "continue" then .ok (.continueLoop t.line, s.rest.skipIf ";")
      else if t.is "_" && s.rest.text == ";" then .ok (.placeholder t.line, s.rest.rest)
      else if t.is "try" || t.is "assembly" then s.fail (.unsupported t.text)
      else do
        let (value, s) ← s.through ";"
        return (.expr t.line value, s)

/-- Reads the statements of a block that was opened on the given line, and its closing brace. Empty
statements are dropped. -/
def stmts : Nat → Nat → Tokens → Reading (List Stmt × Tokens)
  | 0, _, s => s.fail .outOfSteps
  | fuel + 1, opened, s =>
    if s.isAt "\x7d" then .ok ([], s.rest)
    else if s.list.isEmpty then s.fail (.blockNotClosed opened)
    else do
      let (first, s) ← stmt fuel s
      let (more, s) ← stmts fuel opened s
      return (if first.isEmpty then more else first :: more, s)

/-- Reads a block in braces. -/
def block : Nat → Tokens → Reading (Stmt × Tokens)
  | 0, s => s.fail .outOfSteps
  | fuel + 1, s => do
    let opened := s.line
    let s ← s.expect "\x7b"
    let (body, s) ← stmts fuel opened s
    return (.block opened body, s)

end

/-- Fuel for the statements in a run of tokens: a block, its list and its first statement are three
calls for one token. -/
def Tokens.fuel (s : Tokens) : Nat := 3 * s.list.length + 3

/-! ### Members of contracts -/

/-- The text of a type: its words with a space between neighbours, none beside brackets. -/
def typeText (words : List Text) : Text :=
  let spaced := Text.joinWith " " words
  let pairs : List (Text × Text) :=
    [(" (", "("), ("( ", "("), (" )", ")"), (" [", "["), ("[ ", "["), (" ]", "]")]
  pairs.foldl (fun t (loose, tight) => t.replaceAll loose tight) spaced

/-- Words that may stand between the type and the name of a parameter. -/
def dataLocations : List Text := ["memory", "storage", "calldata", "indexed", "payable"]

/-- Reads one parameter. The last token is the name if it is an identifier and not a data location;
then the data locations are no part of the type, `payable` excepted. -/
def param (run : Expr) : Param :=
  let whole : Param := ⟨[], typeText (run.map (·.text))⟩
  match run.getLast? with
  | none => ⟨[], []⟩
  | some last =>
    if 2 ≤ run.length && last.kind == .ident && !dataLocations.contains last.text then
      let words := (run.dropLast.map (·.text)).filter fun w =>
        !dataLocations.contains w || w == "payable"
      ⟨last.text, typeText words⟩
    else whole

/-- Reads a list of parameters in round brackets. -/
def parameters (s : Tokens) : Reading (List Param × Tokens) := do
  let (inner, s) ← s.parens
  if inner.isEmpty then return ([], s)
  return ((Expr.topParts inner ",").map param, s)

/-- Words that say who may use a member. -/
def visibilities : List Text := ["public", "external", "internal", "private"]

/-- Words that say what a function may do to the state. -/
def mutabilities : List Text := ["view", "pure", "payable", "nonpayable", "constant"]

/-- Reads a function header from behind the parameters up to the body or the semicolon. -/
def functionHeader : Nat → Function → Tokens → Reading (Function × Tokens)
  | 0, _, s => s.fail .outOfSteps
  | fuel + 1, f, s =>
    if s.isAt "\x7b" || s.isAt ";" then .ok (f, s)
    else
      match s.list with
      | [] => s.fail (.functionNotEnded f.name)
      | t :: _ =>
        if visibilities.contains t.text then
          functionHeader fuel { f with visibility := t.text } s.rest
        else if mutabilities.contains t.text then
          functionHeader fuel { f with mutability := t.text } s.rest
        else if t.is "virtual" then functionHeader fuel f s.rest
        else if t.is "returns" then do
          let (returns, s) ← parameters s.rest
          functionHeader fuel { f with returns } s
        else if t.is "override" then do
          let s ← s.rest.skipGroup
          functionHeader fuel f s
        else if t.kind != .ident then s.fail (.strayInHeader t.text)
        else do
          let s ← s.rest.skipGroup
          functionHeader fuel { f with modifiers := f.modifiers ++ [t.text] } s

/-- Reads a function or modifier from behind its keyword, which stands on the given line. -/
def functionAfter (kind : FunctionKind) (line : Nat) (s : Tokens) :
    Reading (Function × Tokens) := do
  let (name, s) ← if kind == .function || kind == .modifier then s.name else .ok (kind.keyword, s)
  let (params, s) ← if s.isAt "(" then parameters s else .ok ([], s)
  let start : Function :=
    { name, kind, visibility := [], mutability := [], modifiers := [], params, returns := [],
      line, endLine := line, body? := none }
  let (f, s) ← functionHeader (s.list.length + 1) start s
  if s.isAt ";" then return (f, s.rest)
  let (body, left) ← block s.fuel s
  let read := s.list.take (s.list.length - left.list.length)
  return ({ f with body? := some body, endLine := (read.getLast?.map (·.line)).getD line }, left)

/-- A state variable from the tokens in front of its initialiser. The last token is the name if it
is an identifier; what is left of the others is the type. -/
def stateVarOf (line : Nat) (decl value : Expr) : StateVar :=
  let words := decl.map (·.text)
  let marks : List Text := ["constant", "immutable", "public", "private", "internal", "external",
    "override"]
  let name : Text :=
    match decl.getLast? with
    | some last => if last.kind == .ident && !marks.contains last.text then last.text else []
    | none => []
  let typed := if name.isEmpty then words else words.dropLast
  { name, line, value
    type := typeText (typed.filter fun w => !marks.contains w)
    visibility := ((words.filter visibilities.contains).getLast?).getD []
    isConstant := words.contains "constant"
    isImmutable := words.contains "immutable" }

/-- Reads a state variable. -/
def stateVariable (s : Tokens) : Reading (StateVar × Tokens) := do
  let line := s.line
  let (decl, s) ← s.through ";"
  let v :=
    match Expr.assignment? decl with
    | some a => stateVarOf line a.target a.value
    | none => stateVarOf line decl []
  if v.name.isEmpty then .error ⟨line, .namelessVariable⟩ else return (v, s)

/-- Words that open a member which the analyses do not need. -/
def skippedMembers : List Text := ["event", "error", "using", "struct", "enum", "type"]

/-- Reads a member into the contract `c`. -/
def member (c : Contract) (s : Tokens) : Reading (Contract × Tokens) :=
  match FunctionKind.ofKeyword? s.text with
  | some .modifier => do
    let (f, s) ← functionAfter .modifier s.line s.rest
    return ({ c with modifiers := c.modifiers ++ [f] }, s)
  | some kind => do
    let (f, s) ← functionAfter kind s.line s.rest
    return ({ c with functions := c.functions ++ [f] }, s)
  | none =>
    if skippedMembers.contains s.text then do
      let s ← s.skipDeclaration
      return (c, s)
    else do
      let (v, s) ← stateVariable s
      return ({ c with stateVars := c.stateVars ++ [v] }, s)

/-- Reads the members of `c` up to its closing brace. -/
def members : Nat → Contract → Tokens → Reading (Contract × Tokens)
  | 0, _, s => s.fail .outOfSteps
  | fuel + 1, c, s =>
    if s.isAt "\x7d" then .ok (c, s.rest)
    else if s.list.isEmpty then s.fail (.contractNotClosed c.name)
    else do
      let (c, s) ← member c s
      members fuel c s

/-- Reads the list of bases behind a contract's name. -/
def baseList (s : Tokens) : Reading (List Text × Tokens) :=
  if s.isAt "is" then do
    let (run, s) ← s.rest.runTo ["\x7b"]
    return ((Expr.topParts run ",").filterMap fun base => base.head?.map (·.text), s)
  else return ([], s)

/-- Reads a contract, an interface or a library. -/
def contract (s : Tokens) : Reading (Contract × Tokens) := do
  let line := s.line
  let isAbstract := s.isAt "abstract"
  let s := s.skipIf "abstract"
  let kind := s.text
  let (name, s) ← s.rest.name
  let (bases, s) ← baseList s
  let s ← s.expect "\x7b"
  members (s.list.length + 1)
    { name, kind, isAbstract, bases, line, stateVars := [], functions := [], modifiers := [] } s

/-! ### Units -/

/-- Words that open a contract. -/
def contractKeywords : List Text := ["abstract", "contract", "interface", "library"]

/-- Reads declarations into the unit `u` up to the end of the file. -/
def declarations : Nat → SourceUnit → Tokens → Except ParseError SourceUnit
  | 0, _, s => s.fail .outOfSteps
  | fuel + 1, u, s =>
    if s.list.isEmpty then .ok u
    else if s.text == "pragma" then do
      let (_, s) ← s.through ";"
      declarations fuel u s
    else if s.text == "import" then do
      let (run, s) ← s.through ";"
      let paths := (run.filter (·.kind == .string)).map fun t => unquoted t.text
      declarations fuel { u with imports := u.imports ++ paths } s
    else if contractKeywords.contains s.text then do
      let (c, s) ← contract s
      declarations fuel { u with contracts := u.contracts ++ [c] } s
    else do
      let s ← s.skipDeclaration
      declarations fuel u s

/-- Parses the source text `content` of the file at `path`. -/
def parse (path content : Text) : Except ParseError SourceUnit :=
  let s := scan content
  let (pragmaLine, pragma) := (Pragma.find? content).getD (0, [])
  declarations (s.list.length + 1)
    { path, content, pragma, pragmaLine, imports := [], contracts := [] } s

end ContractAudit.Source
