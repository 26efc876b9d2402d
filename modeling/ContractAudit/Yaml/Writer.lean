import ContractAudit.Yaml.Cursor
import ContractAudit.Yaml.Scalar

/-!
Writing YAML.

Collections are written as blocks, four columns a level, and the entries of a sequence behind a dash
and a space. A text is written plain where it then reads back as the same text, over several lines
when it has line breaks, and between quotes otherwise.
-/

namespace ContractAudit.Yaml

/-- A value to write. -/
inductive Value where
  | bool (b : Bool)
  | int (n : Int)
  | text (t : Text)
  | sequence (items : List Value)
  | mapping (entries : List (Text × Value))

/-! ### Scalars -/

/-- Words that older readers take for truth values. -/
def oldTruths : List Text := Text.ofStrings [
  "y", "Y", "yes", "Yes", "YES", "on", "On", "ON", "n", "N", "no", "No", "NO", "off", "Off", "OFF"]

/-- A part of a number in base sixty: one or two digits below sixty. -/
def isSixtieth (t : Text) : Bool :=
  t.all Text.isDigit && (t.length == 1 || (t.length == 2 && t.head?.any (· < 54)))

/-- Whether older readers take a text for a number in base sixty. -/
def isBaseSixty (t : Text) : Bool :=
  match Text.splitOn (sign t).2 ":" with
  | first :: second :: more =>
    let parts := second :: more
    let last := parts.getLastD []
    let whole := last.takeWhile (· != 46)
    let fraction := last.drop whole.length
    first.head?.any Text.isDigit && first.all (fun c => Text.isDigit c || c == 95) &&
      (parts.dropLast.all isSixtieth) && isSixtieth whole &&
      (fraction.drop 1).all (fun c => Text.isDigit c || c == 95)
  | _ => false

/-- Whether a text that is written plain reads back as a text. -/
def staysText (t : Text) : Bool :=
  match meaning t with
  | .text => !isBaseSixty t && !oldTruths.contains t
  | _ => false

/-- Whether a rune is written as it is. -/
def isShown (c : Nat) : Bool :=
  c == 10 || (0x20 ≤ c && c ≤ 0x7E) || (0xA0 ≤ c && c ≤ 0xD7FF) ||
    (0xE000 ≤ c && c ≤ 0xFFFD && c != 0xFEFF)

/-- Whether the rune `c`, with one before it and one behind it, means something else than itself in
a plain scalar. The first rune has none before it. -/
def isSign (before? : Option Nat) (c : Nat) (behind? : Option Nat) : Bool :=
  let loose := behind?.all isBlank
  match before? with
  | none =>
    [35, 44, 91, 93, 123, 125, 38, 42, 33, 124, 62, 39, 34, 37, 64, 96].contains c ||
      ((c == 63 || c == 58 || c == 45) && loose)
  | some b => (c == 58 && loose) || (c == 35 && (isBlank b || isBreak b))

/-- Whether some rune means something else than itself in a plain scalar. -/
def hasSign : Option Nat → List Nat → Bool
  | _, [] => false
  | before?, c :: rest => isSign before? c rest.head? || hasSign (some c) rest

/-- Whether two neighbours satisfy `p`. -/
def anyPair (p : Nat → Nat → Bool) (cs : List Nat) : Bool :=
  (cs.zip (cs.drop 1)).any fun (a, b) => p a b

/-- What matters for the choice of how to write a text. -/
structure Traits where
  /-- White space at an end, or a line break. -/
  edged : Bool
  breaks : Bool
  spaceAtEnd : Bool
  /-- A space behind a line break. -/
  breakSpace : Bool
  /-- A space in front of a line break. -/
  spaceBreak : Bool
  tabs : Bool
  /-- Runes that have to be written by number. -/
  special : Bool
  signs : Bool

/-- The traits of a text. -/
def traits (cs : List Nat) : Traits where
  edged := cs.head?.any (fun c => c == 32 || isBreak c) || cs.getLast?.any
    (fun c => c == 32 || isBreak c)
  breaks := cs.any isBreak
  spaceAtEnd := cs.getLast? == some 32
  breakSpace := anyPair (fun a b => isBreak a && b == 32) cs
  spaceBreak := anyPair (fun a b => a == 32 && isBreak b) cs
  tabs := cs.contains 9
  special := cs.any fun c => c != 9 && !isShown c
  signs := cs.take 3 == [45, 45, 45] || cs.take 3 == [46, 46, 46] || hasSign none cs

/-- Whether a text can be written plain. -/
def Traits.plain (t : Traits) : Bool :=
  !(t.edged || t.breaks || t.breakSpace || t.spaceBreak || t.tabs || t.special || t.signs)

/-- Whether a text can be written between single quotes. -/
def Traits.single (t : Traits) : Bool := !(t.breakSpace || t.spaceBreak || t.tabs || t.special)

/-- Whether a text can be written over several lines. -/
def Traits.block (t : Traits) : Bool := !(t.spaceAtEnd || t.spaceBreak || t.special)

/-- A hexadecimal digit in upper case. -/
def upperDigit (n : Nat) : UInt8 := if n < 10 then UInt8.ofNat (48 + n) else UInt8.ofNat (55 + n)

/-- The last `width` hexadecimal digits of a number in upper case. -/
def upperHex (width n : Nat) : Text :=
  (List.range width).reverse.map fun i => upperDigit (n / Nat.pow 16 i % 16)

/-- A rune between double quotes. -/
def doubleRune (c : Nat) : Text :=
  if isShown c && !isBreak c && c != 34 && c != 92 then Text.encode c
  else if c == 0 then "\\0"
  else if c == 7 then "\\a"
  else if c == 8 then "\\b"
  else if c == 9 then "\\t"
  else if c == 10 then "\\n"
  else if c == 11 then "\\v"
  else if c == 12 then "\\f"
  else if c == 13 then "\\r"
  else if c == 27 then "\\e"
  else if c == 34 then "\\\""
  else if c == 92 then "\\\\"
  else if c == 0x85 then "\\N"
  else if c == 0xA0 then "\\_"
  else if c == 0x2028 then "\\L"
  else if c == 0x2029 then "\\P"
  else if c ≤ 0xFF then "\\x" ++ upperHex 2 c
  else if c ≤ 0xFFFF then "\\u" ++ upperHex 4 c
  else "\\U" ++ upperHex 8 c

/-- A text between double quotes. -/
def double (cs : List Nat) : Text := "\"" ++ cs.flatMap doubleRune ++ "\""

/-- The runes between single quotes, of which those inside are written twice. What follows a line
break starts at a column. -/
def singleRunes (column : Nat) : Bool → List Nat → Text
  | _, [] => []
  | broken, c :: rest =>
    (if broken && !isBreak c then List.replicate column 32 else []) ++
      (if c == 39 then [39, 39] else Text.encode c) ++ singleRunes column (isBreak c) rest

/-- A text between single quotes. -/
def single (column : Nat) (cs : List Nat) : Text := "'" ++ singleRunes column false cs ++ "'"

/-- The start of a line at a column. -/
def lineAt (column : Nat) : Text := Text.newline :: List.replicate column 32

/-- A text over several lines at a column. The sign says whether the text starts with white space,
and whether it ends in no line break or in several. -/
def literal (column : Nat) (t : Text) : Text :=
  let depth : Text := if t.head?.any (fun c => c == 32 || c == 10) then "4" else []
  let tail : Text := if !t.endsWith "\n" then "-"
    else if t == "\n" || t.endsWith "\n\n" then "+" else []
  let lines := Text.lines (if t.endsWith "\n" then t.dropLast else t)
  let line (l : Text) : Text := if l.isEmpty then "\n" else lineAt column ++ l
  "|" ++ depth ++ tail ++ lines.flatMap line

/-- A text, whose further lines start at a column. -/
def scalarText (column : Nat) (t : Text) : Text :=
  let cs := t.runes.map (·.code)
  let tr := traits cs
  if t.contains "\n" then if tr.block then literal column t else double cs
  else if !staysText t then double cs
  else if tr.plain then t
  else if tr.single then single column cs
  else double cs

/-! ### Collections -/

/-- The column of what stands inside a value at a column. -/
def inner (column : Nat) : Nat := 4 * ((column + 4) / 4)

mutual

/-- A value behind the colon of an entry whose key stands at a column. -/
def behindKey (column : Nat) : Value → Text
  | .bool b => if b then " true" else " false"
  | .int n => " " ++ Text.ofInt n
  | .text t => " " ++ scalarText (inner column) t
  | .sequence [] => " []"
  | .sequence items => writeItems (inner column) items
  | .mapping [] => " \x7b\x7d"
  | .mapping entries => writeEntries (inner column) entries

/-- A value behind the dash of an entry that stands at a column. -/
def behindDash (column : Nat) : Value → Text
  | .bool b => if b then " true" else " false"
  | .int n => " " ++ Text.ofInt n
  | .text t => " " ++ scalarText (column + 2) t
  | .sequence [] => " []"
  | .sequence items => (writeItems (column + 2) items).drop (column + 2)
  | .mapping [] => " \x7b\x7d"
  | .mapping entries => (writeEntries (column + 2) entries).drop (column + 2)

/-- The items of a sequence, each on a new line. -/
def writeItems (column : Nat) : List Value → Text
  | [] => []
  | v :: rest => lineAt column ++ "-" ++ behindDash column v ++ writeItems column rest

/-- The entries of a mapping, each on a new line. -/
def writeEntries (column : Nat) : List (Text × Value) → Text
  | [] => []
  | (name, v) :: rest =>
    lineAt column ++ scalarText column name ++ ":" ++ behindKey column v ++ writeEntries column rest

end

/-- A mapping as a document. -/
def writeMapping (entries : List (Text × Value)) : Text :=
  (writeEntries 0 entries).drop 1 ++ "\n"

end ContractAudit.Yaml
