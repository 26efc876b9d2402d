import ContractAudit.Text.Utf8

/-!
Tokens of a source text.

`scan` cuts a source into tokens and drops white space and comments. It never fails: a byte that
opens nothing else is a punctuation mark of its own.

* `piece` says what stands at the head of a text: a gap or a lexeme. Each takes at least one byte.
* `scan` follows pieces to the end and numbers the lines. Only gaps advance the line number.
* `Tokens` is the result: the tokens in order and the line on which the text ends. It is also what
  a parser has left to read.
-/

namespace ContractAudit.Source

/-- The classes of tokens. -/
inductive TokenKind where
  | ident
  | number
  | string
  | punct
deriving DecidableEq, Repr

/-- A token with the line it starts on, counted from one. -/
structure Token where
  kind : TokenKind
  text : Text
  line : Nat
deriving DecidableEq, Repr

/-- A run of tokens with the line on which the text they stand in ends. -/
structure Tokens where
  list : List Token
  endLine : Nat
deriving DecidableEq, Repr

/-! ### Character classes -/

/-- Whether `c` can start an identifier: a letter, an underscore or a dollar sign. -/
def opensName (c : UInt8) : Bool := c == 95 || c == 36 || Text.isLower c || Text.isUpper c

/-- Whether `c` can stand inside an identifier. -/
def inName (c : UInt8) : Bool := opensName c || Text.isDigit c

/-- Whether `c` can stand inside a number, whose digits may be mixed with letters and points. -/
def inNumber (c : UInt8) : Bool := inName c || c == 46

/-- Whether `c` separates tokens without ending the line. -/
def isBlank (c : UInt8) : Bool := c == 32 || c == 9 || c == 13

/-- Whether `c` opens a string literal. -/
def isQuote (c : UInt8) : Bool := c == 34 || c == 39

/-- The operators of more than one character. A longer one stands before its own beginnings. -/
def operators : List Text :=
  [">>>=", "<<=", ">>=", "**=", ">>>",
    "==", "!=", "<=", ">=", "&&", "||", "++", "--", "+=", "-=", "*=", "/=",
    "%=", "&=", "|=", "^=", "<<", ">>", "**", "=>", "->"]

/-! ### Pieces -/

/-- The number of bytes of a block comment behind its opening mark: up to and including the closing
mark, or all that is left. -/
def commentSize : Text → Nat
  | [] => 0
  | [_] => 1
  | a :: b :: rest => if a == 42 && b == 47 then 2 else commentSize (b :: rest) + 1

/-- What belongs to a string literal behind its opening `quote`. It ends with the same quote, or
before a line break, or with the text. A backslash takes the next byte with it. -/
def literalRest (quote : UInt8) : Text → Text
  | [] => []
  | [c] => if c == Text.newline then [] else [c]
  | c :: d :: rest =>
    if c == quote then [c]
    else if c == Text.newline then []
    else if c == 92 then c :: d :: literalRest quote rest
    else c :: literalRest quote (d :: rest)

/-- The punctuation at the head of `c :: rest`: the first operator of the table that stands there,
else the code point numbered `c` alone. -/
def punctuation (c : UInt8) (rest : Text) : Text :=
  match operators.find? (·.isPrefixOf (c :: rest)) with
  | some op => op
  | none => Text.encode c.toNat

/-- What stands at the head of a text. -/
inductive Piece where
  /-- White space or a comment of `size` bytes with `breaks` line breaks in it. -/
  | gap (size breaks : Nat)
  /-- A token. It takes as many bytes as its text has. -/
  | lexeme (kind : TokenKind) (text : Text)
deriving DecidableEq, Repr

/-- The piece at the head of `c :: rest`. -/
def piece (c : UInt8) (rest : Text) : Piece :=
  if c == Text.newline then .gap 1 1
  else if isBlank c then .gap 1 0
  else if c == 47 && rest.head? == some 47 then
    .gap (1 + (rest.takeWhile (· != Text.newline)).length) 0
  else if c == 47 && rest.head? == some 42 then
    let size := commentSize (rest.drop 1)
    .gap (2 + size) (Text.lineBreaks ((rest.drop 1).take size))
  else if opensName c then .lexeme .ident (c :: rest.takeWhile inName)
  else if Text.isDigit c then .lexeme .number (c :: rest.takeWhile inNumber)
  else if isQuote c then .lexeme .string (c :: literalRest c rest)
  else .lexeme .punct (punctuation c rest)

/-! ### Scanning -/

/-- Scans a text that starts on the given line, `fuel` pieces at most. -/
def scanFrom : (fuel line : Nat) → Text → Tokens
  | 0, line, _ => ⟨[], line⟩
  | _, line, [] => ⟨[], line⟩
  | fuel + 1, line, c :: rest =>
    match piece c rest with
    | .gap size breaks => scanFrom fuel (line + breaks) ((c :: rest).drop size)
    | .lexeme kind text =>
      let following := scanFrom fuel line ((c :: rest).drop text.length)
      { following with list := ⟨kind, text, line⟩ :: following.list }

/-- The tokens of a source text. Every piece takes at least one byte, so there are no more pieces
than bytes. -/
def scan (src : Text) : Tokens := scanFrom src.length 1 src

/-! ### String literals -/

/-- The text between the quotes of a string literal; a text that is not quoted is left alone. -/
def unquoted (t : Text) : Text :=
  match t.head? with
  | none => t
  | some q =>
    if 2 ≤ t.length && isQuote q && t.getLast? == some q then (t.drop 1).dropLast else t

end ContractAudit.Source
