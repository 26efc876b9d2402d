import ContractAudit.Text.Utf8

/-!
Positions in a YAML text, and the parts of a text that stand for themselves: plain, quoted and block
scalars.

A scalar over several lines is folded: a single line break becomes a space, and of several line
breaks in a row the first is dropped.
-/

namespace ContractAudit.Yaml

/-- The rest of a text and the position it starts at. -/
structure Cursor where
  rest : List Nat
  index : Nat := 0
  line : Nat := 0
  column : Nat := 0

/-- Whether a code point may stand in a YAML text. -/
def isAllowed (c : Nat) : Bool :=
  c == 9 || c == 10 || c == 13 || (0x20 ≤ c && c ≤ 0x7E) || c == 0x85 ||
    (0xA0 ≤ c && c ≤ 0xD7FF) || (0xE000 ≤ c && c ≤ 0xFFFD && c != 0xFEFF) || 0x10000 ≤ c

/-- A space or a tab. -/
def isBlank (c : Nat) : Bool := c == 32 || c == 9

/-- A line break. -/
def isBreak (c : Nat) : Bool := c == 10 || c == 13 || c == 0x85 || c == 0x2028 || c == 0x2029

/-- Whether a rest of a text starts with white space or is empty. -/
def startsBlank (rest : List Nat) : Bool :=
  match rest with
  | [] => true
  | c :: _ => isBlank c || isBreak c

namespace Cursor

/-- Whether the code point at a cursor is the given one. -/
def sees (c : Cursor) (code : Nat) : Bool := c.rest.head? == some code

/-- Past some code points of the same line. -/
def skip (c : Cursor) (n : Nat) : Cursor :=
  { c with rest := c.rest.drop n, index := c.index + n, column := c.column + n }

/-- Past a line break. -/
def skipLine (c : Cursor) : Cursor :=
  match c.rest with
  | 13 :: 10 :: rest => ⟨rest, c.index + 2, c.line + 1, 0⟩
  | _ :: rest => ⟨rest, c.index + 1, c.line + 1, 0⟩
  | [] => c

/-- The line break at a cursor as it counts in a scalar. -/
def lineBreak (c : Cursor) : List Nat :=
  match c.rest with
  | 0x2028 :: _ => [0x2028]
  | 0x2029 :: _ => [0x2029]
  | _ => [10]

/-- Past a run of blanks. -/
def skipBlanks (c : Cursor) : Cursor := c.skip (c.rest.takeWhile isBlank).length

/-- Past everything up to the next line break. -/
def skipToBreak (c : Cursor) : Cursor := c.skip (c.rest.takeWhile fun x => !isBreak x).length

/-- Whether a line with the mark of a document boundary starts at a cursor. -/
def atBoundary (c : Cursor) : Bool :=
  c.column == 0 && match c.rest with
    | 45 :: 45 :: 45 :: rest => startsBlank rest
    | 46 :: 46 :: 46 :: rest => startsBlank rest
    | _ => false

end Cursor

/-- The bytes of code points. -/
def bytes (codes : List Nat) : Text := codes.flatMap Text.encode

/-! ### Folding -/

/-- White space inside a scalar: blanks on one line, or line breaks, of which the first is apart. -/
structure Gap where
  blanks : List Nat := []
  first : List Nat := []
  more : List Nat := []
  /-- Whether the gap has a line break. -/
  broken : Bool := false

/-- What a gap stands for. -/
def Gap.folded (g : Gap) : List Nat :=
  if !g.broken then g.blanks
  else if g.first.head? == some 10 then if g.more.isEmpty then [32] else g.more
  else g.first ++ g.more

/-- The white space at a cursor, and where it ends. Nothing is found when a tab stands before column
`indent` of a line. -/
def gap? (indent : Int) : Nat → Gap → Cursor → Option (Gap × Cursor)
  | 0, g, c => some (g, c)
  | fuel + 1, g, c =>
    match c.rest with
    | x :: _ =>
      if isBlank x then
        if g.broken && (c.column : Int) < indent && x == 9 then none
        else gap? indent fuel (if g.broken then g else { g with blanks := g.blanks ++ [x] })
          (c.skip 1)
      else if isBreak x then
        if g.broken then gap? indent fuel { g with more := g.more ++ c.lineBreak } c.skipLine
        else gap? indent fuel { g with blanks := [], first := c.lineBreak, broken := true }
          c.skipLine
      else some (g, c)
    | [] => some (g, c)

/-! ### Plain scalars -/

/-- Whether a plain scalar ends before the given rest of a text, which starts with no white
space. -/
def endsPlain (inFlow : Bool) (rest : List Nat) : Bool :=
  match rest with
  | 58 :: more => startsBlank more
  | x :: _ => inFlow && [44, 63, 91, 93, 123, 125].contains x
  | [] => true

/-- The length of the run at the head of a plain scalar without white space. -/
def plainRun (inFlow : Bool) : List Nat → Nat
  | [] => 0
  | x :: rest =>
    if isBlank x || isBreak x || endsPlain inFlow (x :: rest) then 0
    else plainRun inFlow rest + 1

/-- The plain scalar at a cursor, where it ends, and whether a line break was passed behind it. -/
def plain? (inFlow : Bool) (indent : Int) :
    Nat → List Nat → Gap → Cursor → Option (List Nat × Cursor × Bool)
  | 0, text, g, c => some (text, c, g.broken)
  | fuel + 1, text, g, c =>
    if c.atBoundary || c.sees 35 then some (text, c, g.broken)
    else
      let n := plainRun inFlow c.rest
      let text := if n == 0 then text else text ++ g.folded ++ c.rest.take n
      let g := if n == 0 then g else {}
      let c := c.skip n
      if !startsBlank c.rest || c.rest.isEmpty then some (text, c, g.broken)
      else
        match gap? indent (c.rest.length + 1) g c with
        | none => none
        | some (g, c) =>
          if !inFlow && (c.column : Int) < indent then some (text, c, g.broken)
          else plain? inFlow indent fuel text g c

/-! ### Quoted scalars -/

/-- The value of the given number of hexadecimal digits at the head of a text. -/
def hexValue? (n : Nat) (rest : List Nat) : Option Nat :=
  let digits := (rest.take n).map UInt8.ofNat
  if digits.length == n && (rest.take n).all (· < 128) then Text.readBase? 16 digits else none

/-- The code point behind a backslash, and how many code points of the text stand for it. -/
def escape? (rest : List Nat) : Option (Nat × Nat) :=
  let wide (n : Nat) (rest : List Nat) : Option (Nat × Nat) :=
    (hexValue? n rest).bind fun v =>
      if (0xD800 ≤ v && v ≤ 0xDFFF) || 0x10FFFF < v then none else some (v, n + 1)
  match rest with
  | 48 :: _ => some (0, 1)
  | 97 :: _ => some (7, 1)
  | 98 :: _ => some (8, 1)
  | 116 :: _ => some (9, 1)
  | 9 :: _ => some (9, 1)
  | 110 :: _ => some (10, 1)
  | 118 :: _ => some (11, 1)
  | 102 :: _ => some (12, 1)
  | 114 :: _ => some (13, 1)
  | 101 :: _ => some (27, 1)
  | 32 :: _ => some (32, 1)
  | 34 :: _ => some (34, 1)
  | 39 :: _ => some (39, 1)
  | 47 :: _ => some (47, 1)
  | 92 :: _ => some (92, 1)
  | 78 :: _ => some (0x85, 1)
  | 95 :: _ => some (0xA0, 1)
  | 76 :: _ => some (0x2028, 1)
  | 80 :: _ => some (0x2029, 1)
  | 120 :: more => wide 2 more
  | 117 :: more => wide 4 more
  | 85 :: more => wide 8 more
  | _ => none

/-- How a run without white space inside a quoted scalar ends. -/
inductive RunEnd where
  | blank
  | quote
  | joined
  | fault

/-- The run without white space at a cursor inside a quoted scalar. -/
def quotedRun (quote : Nat) : Nat → List Nat → Cursor → List Nat × Cursor × RunEnd
  | 0, text, c => (text, c, .fault)
  | fuel + 1, text, c =>
    match c.rest with
    | [] => (text, c, .blank)
    | x :: rest =>
      if isBlank x || isBreak x then (text, c, .blank)
      else if x == quote then
        if quote == 39 && rest.head? == some 39 then quotedRun quote fuel (text ++ [39]) (c.skip 2)
        else (text, c, .quote)
      else if quote == 34 && x == 92 then
        match rest with
        | y :: _ =>
          if isBreak y then (text, (c.skip 1).skipLine, .joined)
          else
            match escape? rest with
            | some (v, n) => quotedRun quote fuel (text ++ [v]) (c.skip (n + 1))
            | none => (text, c, .fault)
        | [] => (text, c, .fault)
      else quotedRun quote fuel (text ++ [x]) (c.skip 1)

/-- The rest of a quoted scalar from a cursor on, and where it ends. -/
def quoted? (quote : Nat) : Nat → List Nat → Cursor → Option (List Nat × Cursor)
  | 0, _, _ => none
  | fuel + 1, text, c =>
    if c.atBoundary || c.rest.isEmpty then none
    else
      match quotedRun quote (c.rest.length + 1) text c with
      | (_, _, .fault) => none
      | (text, c, .quote) => some (text, c.skip 1)
      | (text, c, ending) =>
        let joined := match ending with
          | .joined => true
          | _ => false
        match gap? 0 (c.rest.length + 1) { broken := joined } c with
        | none => none
        | some (g, c) =>
          let fill := if joined then g.more else g.folded
          quoted? quote fuel (text ++ fill) c

/-! ### Block scalars -/

/-- Passes indentation and empty lines before a line of a block scalar; an `indent` of zero is not
known yet. The line breaks passed, the largest column seen and the cursor are returned. -/
def blockBreaks? (indent : Nat) :
    Nat → List Nat → Nat → Cursor → Option (List Nat × Nat × Cursor)
  | 0, breaks, widest, c => some (breaks, widest, c)
  | fuel + 1, breaks, widest, c =>
    let spaces := (c.rest.takeWhile (· == 32)).length
    let c := c.skip (if indent == 0 then spaces else min spaces (indent - c.column))
    let widest := max widest c.column
    if (indent == 0 || c.column < indent) && c.sees 9 then none
    else
      match c.rest with
      | x :: _ =>
        if isBreak x then blockBreaks? indent fuel (breaks ++ c.lineBreak) widest c.skipLine
        else some (breaks, widest, c)
      | [] => some (breaks, widest, c)

/-- A block scalar while it is read. -/
structure BlockText where
  text : List Nat := []
  /-- The break behind the last line. -/
  last : List Nat := []
  /-- The breaks of the empty lines behind it. -/
  empty : List Nat := []
  /-- Whether the last line starts with a blank. -/
  led : Bool := false

/-- The lines of a block scalar with the given indentation. -/
def blockLines? (literal : Bool) (indent : Nat) :
    Nat → BlockText → Cursor → Option (BlockText × Cursor)
  | 0, b, c => some (b, c)
  | fuel + 1, b, c =>
    match c.rest with
    | [] => some (b, c)
    | x :: _ =>
      if c.column != indent then some (b, c)
      else
        let folds := !literal && !b.led && !isBlank x && b.last.head? == some 10
        let join := if folds then if b.empty.isEmpty then [32] else [] else b.last
        let line := c.rest.takeWhile fun x => !isBreak x
        let text := b.text ++ join ++ b.empty ++ line
        let c := c.skip line.length
        let last := if c.rest.isEmpty then [] else c.lineBreak
        match blockBreaks? indent (c.rest.length + 1) [] 0 c.skipLine with
        | none => none
        | some (empty, _, c) => blockLines? literal indent fuel ⟨text, last, empty, isBlank x⟩ c

/-- The marks behind the sign of a block scalar: what happens to line breaks at the end (`some true`
keeps all, `some false` drops all), and the depth of its indentation, zero when it is not given. -/
def blockMarks? (c : Cursor) : Option (Option Bool × Nat × Cursor) :=
  let chomp (c : Cursor) : Option Bool × Cursor :=
    if c.sees 43 then (some true, c.skip 1) else if c.sees 45 then (some false, c.skip 1)
      else (none, c)
  let depth (c : Cursor) : Option (Nat × Cursor) :=
    match c.rest with
    | x :: _ =>
      if x == 48 then none else if 49 ≤ x && x ≤ 57 then some (x - 48, c.skip 1) else some (0, c)
    | [] => some (0, c)
  match chomp c with
  | (some keep, c) => (depth c).map fun (n, c) => (some keep, n, c)
  | (none, c) =>
    (depth c).map fun (n, c) =>
      if n == 0 then (none, 0, c)
      else
        let (keep, c) := chomp c
        (keep, n, c)

/-- The block scalar behind its sign, inside a collection with the given indentation. -/
def block? (literal : Bool) (outer : Int) (c : Cursor) : Option (List Nat × Cursor) := do
  let (keep, depth, c) ← blockMarks? c
  let c := c.skipBlanks
  let c := if c.sees 35 then c.skipToBreak else c
  if !(c.rest.isEmpty || (c.rest.head?.any isBreak)) then none
  let c := c.skipLine
  let given : Nat := if depth == 0 then 0 else (max outer 0).toNat + depth
  let (breaks, widest, c) ← blockBreaks? given (c.rest.length + 1) [] 0 c
  let indent := if given == 0 then max widest (max (outer + 1).toNat 1) else given
  let (b, c) ← blockLines? literal indent (c.rest.length + 1) { empty := breaks } c
  let tail := match keep with
    | some false => []
    | some true => b.last ++ b.empty
    | none => b.last
  return (b.text ++ tail, c)

end ContractAudit.Yaml
