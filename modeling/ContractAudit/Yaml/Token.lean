import ContractAudit.Yaml.Cursor

/-!
The tokens of a YAML text.

Block collections are marked by indentation alone, so tokens for their starts and ends are put in
where the indentation changes. That a scalar is the key of a mapping shows only at the colon behind
it: every token that could be a key is kept in mind as a `PendingKey`, and the tokens that open the
mapping are put in before it once the colon comes.
-/

namespace ContractAudit.Yaml

/-- A token of a YAML text. A text that cannot be read ends in `fault`. -/
inductive Token where
  | documentStart
  | documentEnd
  | directive
  | blockSequence
  | blockMapping
  | blockEnd
  | flowSequence
  | flowSequenceEnd
  | flowMapping
  | flowMappingEnd
  | blockEntry
  | flowEntry
  | key
  | value
  | alias (name : Text)
  | anchor (name : Text)
  | tag (name : Text)
  | scalar (text : Text) (plain : Bool)
  | fault
deriving DecidableEq, Repr

/-- A token that may turn out to be a key. -/
structure PendingKey where
  /-- Whether nothing but a key can stand there. -/
  required : Bool
  /-- The number of tokens before it. -/
  position : Nat
  index : Nat
  line : Nat
  column : Nat

/-- The state of reading tokens. -/
structure Scan where
  cursor : Cursor
  /-- The number of open brackets. -/
  flow : Nat := 0
  /-- The column of the innermost block collection, or -1. -/
  indent : Int := -1
  indents : List Int := []
  /-- Whether a key may start here. -/
  keyAllowed : Bool := true
  /-- The pending key of each level of brackets, the innermost first. -/
  keys : List (Option PendingKey) := [none]
  tokens : List Token := []

namespace Scan

/-- Adds a token. -/
def emit (s : Scan) (t : Token) : Scan := { s with tokens := s.tokens ++ [t] }

/-- Puts a token in before the token with the given number. -/
def insertAt (s : Scan) (n : Nat) (t : Token) : Scan :=
  { s with tokens := s.tokens.take n ++ t :: s.tokens.drop n }

/-- Past some code points. -/
def skip (s : Scan) (n : Nat) : Scan := { s with cursor := s.cursor.skip n }

/-- Replaces the pending key of the innermost level. -/
def setKey (s : Scan) (k : Option PendingKey) : Scan := { s with keys := k :: s.keys.tail }

/-- The pending key of the innermost level, if it is still possible: keys are short and stay on one
line. Nothing is found when a required key has become impossible. -/
def pending? (s : Scan) : Option (Option PendingKey) :=
  match s.keys.head?.join with
  | none => some none
  | some k =>
    if k.line < s.cursor.line || k.index + 1024 < s.cursor.index then
      if k.required then none else some none
    else some (some k)

/-- Gives up the pending key, which may not be required. -/
def dropKey? (s : Scan) : Option Scan :=
  match s.keys.head?.join with
  | some k => if k.required then none else some (s.setKey none)
  | none => some s

/-- Keeps the next token in mind as a possible key. -/
def saveKey? (s : Scan) : Option Scan :=
  if s.keyAllowed then
    s.dropKey?.map fun s =>
      s.setKey (some {
        required := s.flow == 0 && s.indent == s.cursor.column
        position := s.tokens.length
        index := s.cursor.index
        line := s.cursor.line
        column := s.cursor.column })
  else some s

/-- Opens a block collection at a column deeper than the current one, with its token before the
token with the given number. -/
def open_ (s : Scan) (column : Nat) (position : Nat) (t : Token) : Scan :=
  if s.flow == 0 && s.indent < column then
    { s.insertAt position t with indent := column, indents := s.indent :: s.indents }
  else s

/-- Closes the block collections deeper than a column. -/
def close (column : Int) : Nat → Scan → Scan
  | 0, s => s
  | fuel + 1, s =>
    if s.flow == 0 && column < s.indent then
      close column fuel
        { s.emit .blockEnd with indent := s.indents.headD (-1), indents := s.indents.tail }
    else s

/-- Closes the block collections deeper than a column. -/
def closeTo (s : Scan) (column : Int) : Scan := close column (s.indents.length + 1) s

/-- Past white space and comments. A tab is no indentation where a key may start. -/
def toNext : Nat → Scan → Scan
  | 0, s => s
  | fuel + 1, s =>
    let tabs := s.flow != 0 || !s.keyAllowed
    let run := s.cursor.rest.takeWhile fun x => x == 32 || (tabs && x == 9)
    let c := s.cursor.skip run.length
    let c := if c.sees 35 then c.skipToBreak else c
    match c.rest with
    | x :: _ =>
      if isBreak x then
        toNext fuel { s with cursor := c.skipLine, keyAllowed := s.keyAllowed || s.flow == 0 }
      else { s with cursor := c }
    | [] => { s with cursor := c }

/-- Whether a code point can stand in the name of an anchor. -/
def isNameCode (c : Nat) : Bool :=
  (48 ≤ c && c ≤ 57) || (65 ≤ c && c ≤ 90) || (97 ≤ c && c ≤ 122) || c == 95 || c == 45

/-- An alias or an anchor. -/
def named? (s : Scan) (make : Text → Token) : Option Scan := do
  let s ← s.saveKey?
  let name := (s.cursor.rest.drop 1).takeWhile isNameCode
  let behind := s.cursor.rest.drop (1 + name.length)
  let ends := startsBlank behind || behind.head?.any ([63, 58, 44, 93, 125, 37, 64, 96].contains ·)
  if name.isEmpty || !ends then none
  else return { (s.skip (1 + name.length)).emit (make (bytes name)) with keyAllowed := false }

/-- A tag. -/
def tag? (s : Scan) : Option Scan := do
  let s ← s.saveKey?
  let name := s.cursor.rest.takeWhile fun x =>
    !(isBlank x || isBreak x || (s.flow != 0 && [44, 91, 93, 123, 125].contains x))
  if startsBlank (s.cursor.rest.drop name.length) || s.flow != 0 then
    return { (s.skip name.length).emit (.tag (bytes name)) with keyAllowed := false }
  else none

/-- A bracket that opens a flow collection. -/
def openFlow? (s : Scan) (t : Token) : Option Scan := do
  let s ← s.saveKey?
  return { (s.skip 1).emit t with flow := s.flow + 1, keys := none :: s.keys, keyAllowed := true }

/-- A bracket that closes a flow collection. -/
def closeFlow? (s : Scan) (t : Token) : Option Scan := do
  let s ← s.dropKey?
  let s := if s.flow == 0 then s else { s with flow := s.flow - 1, keys := s.keys.tail }
  return { (s.skip 1).emit t with keyAllowed := false }

/-- The sign of an entry of a block sequence. -/
def blockEntry? (s : Scan) : Option Scan := do
  if s.flow == 0 && !s.keyAllowed then none
  let s := s.open_ s.cursor.column s.tokens.length .blockSequence
  let s ← s.dropKey?
  return { (s.skip 1).emit .blockEntry with keyAllowed := true }

/-- The sign of a key. -/
def key? (s : Scan) : Option Scan := do
  if s.flow == 0 && !s.keyAllowed then none
  let s := s.open_ s.cursor.column s.tokens.length .blockMapping
  let s ← s.dropKey?
  return { (s.skip 1).emit .key with keyAllowed := s.flow == 0 }

/-- The sign of a value. -/
def value? (s : Scan) : Option Scan := do
  match ← s.pending? with
  | some k =>
    let s := (s.insertAt k.position .key).open_ k.column k.position .blockMapping
    return { ((s.setKey none).skip 1).emit .value with keyAllowed := false }
  | none =>
    if s.flow == 0 && !s.keyAllowed then none
    let s := s.open_ s.cursor.column s.tokens.length .blockMapping
    return { ((s.setKey none).skip 1).emit .value with keyAllowed := s.flow == 0 }

/-- A block scalar. -/
def blockScalar? (s : Scan) (literal : Bool) : Option Scan := do
  let s ← s.dropKey?
  let (text, c) ← block? literal s.indent (s.cursor.skip 1)
  return { s.emit (.scalar (bytes text) false) with cursor := c, keyAllowed := true }

/-- A quoted scalar. -/
def quotedScalar? (s : Scan) (quote : Nat) : Option Scan := do
  let s ← s.saveKey?
  let c := s.cursor.skip 1
  let (text, c) ← quoted? quote (c.rest.length + 2) [] c
  return { s.emit (.scalar (bytes text) false) with cursor := c, keyAllowed := false }

/-- A plain scalar. -/
def plainScalar? (s : Scan) : Option Scan := do
  let s ← s.saveKey?
  let (text, c, broken) ←
    plain? (s.flow != 0) (s.indent + 1) (s.cursor.rest.length + 1) [] {} s.cursor
  return { s.emit (.scalar (bytes text) true) with cursor := c, keyAllowed := broken }

/-- A mark between documents. -/
def boundary? (s : Scan) (t : Token) : Option Scan := do
  let s ← (s.closeTo (-1)).dropKey?
  return { (s.skip 3).emit t with keyAllowed := false }

/-- A directive, which takes the rest of its line. -/
def directive? (s : Scan) : Option Scan := do
  let s ← (s.closeTo (-1)).dropKey?
  return { s.emit .directive with cursor := s.cursor.skipToBreak, keyAllowed := false }

/-- The code points that no plain scalar starts with. -/
def indicators : List Nat :=
  [45, 63, 58, 44, 91, 93, 123, 125, 35, 38, 42, 33, 124, 62, 39, 34, 37, 64, 96]

/-- One more token, at a cursor that is not at the end. -/
def next? (s : Scan) : Option Scan :=
  match s.cursor.rest with
  | [] => some s
  | c :: more =>
    let inFlow := s.flow != 0
    if s.cursor.column == 0 && c == 37 then s.directive?
    else if s.cursor.atBoundary then
      s.boundary? (if c == 45 then .documentStart else .documentEnd)
    else if c == 91 then s.openFlow? .flowSequence
    else if c == 123 then s.openFlow? .flowMapping
    else if c == 93 then s.closeFlow? .flowSequenceEnd
    else if c == 125 then s.closeFlow? .flowMappingEnd
    else if c == 44 then do
      let s ← s.dropKey?
      return { (s.skip 1).emit .flowEntry with keyAllowed := true }
    else if c == 45 && startsBlank more then s.blockEntry?
    else if c == 63 && (inFlow || startsBlank more) then s.key?
    else if c == 58 && (inFlow || startsBlank more) then s.value?
    else if c == 42 then s.named? .alias
    else if c == 38 then s.named? .anchor
    else if c == 33 then s.tag?
    else if c == 124 && !inFlow then s.blockScalar? true
    else if c == 62 && !inFlow then s.blockScalar? false
    else if c == 39 || c == 34 then s.quotedScalar? c
    else if (!isBlank c && !indicators.contains c) || (c == 45 && !(more.head?.any isBlank)) ||
        (!inFlow && (c == 63 || c == 58) && !startsBlank more) then s.plainScalar?
    else none

/-- All tokens from a state on. -/
def all : Nat → Scan → List Token
  | 0, s => s.tokens
  | fuel + 1, s =>
    let s := toNext (s.cursor.rest.length + 1) s
    match s.pending? with
    | none => s.tokens ++ [.fault]
    | some k =>
      let s := (s.setKey k).closeTo s.cursor.column
      if s.cursor.rest.isEmpty then
        let s := s.closeTo (-1)
        if (s.keys.head?.join.any (·.required)) then s.tokens ++ [.fault] else s.tokens
      else
        match s.next? with
        | some s => all fuel s
        | none => s.tokens ++ [.fault]

end Scan

/-- The tokens of a YAML text. -/
def tokens (t : Text) : List Token :=
  let codes := (t.runes.map (·.code))
  let codes := if codes.head? == some 0xFEFF then codes.drop 1 else codes
  if t.isUtf8 && codes.all isAllowed then Scan.all (codes.length + 2)
    { cursor := { rest := codes } }
  else [.fault]

end ContractAudit.Yaml
