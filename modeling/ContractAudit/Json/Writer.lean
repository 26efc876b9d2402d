import ContractAudit.Json.Basic

/-!
Writing JSON.

`Json.compact` writes a value without white space, `Json.indented` one item or member a line. In
strings the characters `<`, `>`, `&` and the two line separators of Unicode are written as numeric
escapes, so that the text can stand in a web page or a script; bytes that are not UTF-8 are written
as the escape of the replacement code point.
-/

namespace ContractAudit.Json

/-- One rune inside a string. -/
def writeRune (r : Text.Rune) : Text :=
  if r.stray then "\\ufffd"
  else if r.code == 34 then "\\\""
  else if r.code == 92 then "\\\\"
  else if r.code == 8 then "\\b"
  else if r.code == 12 then "\\f"
  else if r.code == 10 then "\\n"
  else if r.code == 13 then "\\r"
  else if r.code == 9 then "\\t"
  else if r.code < 32 || r.code == 60 || r.code == 62 || r.code == 38 || r.code == 0x2028 ||
      r.code == 0x2029 then "\\u" ++ Text.hex 4 r.code
  else r.bytes

/-- A string between its quotes. -/
def writeString (t : Text) : Text := "\"" ++ t.runes.flatMap writeRune ++ "\""

mutual

/-- The value without white space. -/
def compact : Json → Text
  | .null => "null"
  | .bool true => "true"
  | .bool false => "false"
  | .num spelling => spelling
  | .str t => writeString t
  | .arr items => "[" ++ compactItems items ++ "]"
  | .obj members => "\x7b" ++ compactMembers members ++ "\x7d"

/-- The items with commas between neighbours. -/
def compactItems : List Json → Text
  | [] => []
  | [v] => compact v
  | v :: more => compact v ++ "," ++ compactItems more

/-- The members with commas between neighbours. -/
def compactMembers : List (Text × Json) → Text
  | [] => []
  | [(name, v)] => writeString name ++ ":" ++ compact v
  | (name, v) :: more => writeString name ++ ":" ++ compact v ++ "," ++ compactMembers more

end

/-- The start of a line `depth` levels in, two spaces a level. -/
def lineStart (depth : Nat) : Text := Text.newline :: List.replicate (2 * depth) 32

mutual

/-- The value with one item or member a line, standing `depth` levels in. -/
def indentedAt (depth : Nat) : Json → Text
  | .null => "null"
  | .bool true => "true"
  | .bool false => "false"
  | .num spelling => spelling
  | .str t => writeString t
  | .arr [] => "[]"
  | .arr items => "[" ++ indentedItems (depth + 1) items ++ lineStart depth ++ "]"
  | .obj [] => "\x7b\x7d"
  | .obj members => "\x7b" ++ indentedMembers (depth + 1) members ++ lineStart depth ++ "\x7d"

/-- The items, each on a line of its own. -/
def indentedItems (depth : Nat) : List Json → Text
  | [] => []
  | [v] => lineStart depth ++ indentedAt depth v
  | v :: more => lineStart depth ++ indentedAt depth v ++ "," ++ indentedItems depth more

/-- The members, each on a line of its own. -/
def indentedMembers (depth : Nat) : List (Text × Json) → Text
  | [] => []
  | [(name, v)] => lineStart depth ++ writeString name ++ ": " ++ indentedAt depth v
  | (name, v) :: more =>
    lineStart depth ++ writeString name ++ ": " ++ indentedAt depth v ++ "," ++
      indentedMembers depth more

end

/-- The value with one item or member a line. -/
def indented (v : Json) : Text := indentedAt 0 v

end ContractAudit.Json
