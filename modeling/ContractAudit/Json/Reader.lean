import ContractAudit.Json.Basic

/-!
Reading JSON.

`Json.read?` accepts exactly one JSON value with white space around it, nested at most
`Json.maxDepth` deep. In strings, bytes that are not UTF-8 and lone surrogate escapes are read as
the replacement code point.
-/

namespace ContractAudit.Json

/-- How deep arrays and objects may be nested. -/
def maxDepth : Nat := 10000

/-- White space between tokens. -/
def isBlank (c : UInt8) : Bool := c == 32 || c == 9 || c == 10 || c == 13

/-- The text behind leading white space. -/
def skipBlank (t : Text) : Text := t.dropWhile isBlank

/-! ### Numbers -/

/-- Splits a nonempty run of digits off the head of a text. -/
def digits? (t : Text) : Option (Text × Text) :=
  let run := t.takeWhile Text.isDigit
  if run.isEmpty then none else some (run, t.drop run.length)

/-- The integer part of a number: no zero in front of another digit. -/
def whole? (t : Text) : Option (Text × Text) :=
  match t with
  | 48 :: rest => some ([48], rest)
  | _ => digits? t

/-- The fraction of a number, which may be missing. -/
def fraction? (t : Text) : Option (Text × Text) :=
  match t with
  | 46 :: rest => (digits? rest).map fun (run, rest) => (46 :: run, rest)
  | _ => some ([], t)

/-- The exponent of a number, which may be missing. -/
def exponent? (t : Text) : Option (Text × Text) :=
  match t with
  | c :: rest =>
    if c == 101 || c == 69 then
      match rest with
      | s :: more =>
        if s == 43 || s == 45 then (digits? more).map fun (run, left) => (c :: s :: run, left)
        else (digits? rest).map fun (run, left) => (c :: run, left)
      | [] => none
    else some ([], t)
  | [] => some ([], [])

/-- Splits a number off the head of a text. -/
def number? (t : Text) : Option (Text × Text) := do
  let (sign, t) := match t with
    | 45 :: rest => (([45] : Text), rest)
    | _ => ([], t)
  let (whole, t) ← whole? t
  let (fraction, t) ← fraction? t
  let (exponent, t) ← exponent? t
  return (sign ++ whole ++ fraction ++ exponent, t)

/-! ### Strings -/

/-- The character a one-letter escape stands for. -/
def escape? (c : UInt8) : Option UInt8 :=
  match c with
  | 34 => some 34
  | 92 => some 92
  | 47 => some 47
  | 98 => some 8
  | 102 => some 12
  | 110 => some 10
  | 114 => some 13
  | 116 => some 9
  | _ => none

/-- The number spelled by the four hexadecimal digits at the head of a text. -/
def unit? (t : Text) : Option (Nat × Text) :=
  if t.length < 4 then none else (Text.readBase? 16 (t.take 4)).map fun n => (n, t.drop 4)

/-- Whether a code unit is the first half of a surrogate pair. -/
def isHigh (n : Nat) : Bool := 0xD800 ≤ n && n < 0xDC00

/-- Whether a code unit is the second half of a surrogate pair. -/
def isLow (n : Nat) : Bool := 0xDC00 ≤ n && n < 0xE000

/-- The bytes that a numeric escape stands for, from behind its opening letter, and the text behind
it. A pair of surrogate escapes is one code point. -/
def numericEscape? (t : Text) : Option (Text × Text) := do
  let (n, rest) ← unit? t
  if isHigh n then
    match rest with
    | 92 :: 117 :: more =>
      match unit? more with
      | some (low, left) =>
        if isLow low then
          return (Text.encode (0x10000 + (n - 0xD800) * 1024 + (low - 0xDC00)), left)
        else return (Text.encode Text.replacement, rest)
      | none => return (Text.encode Text.replacement, rest)
    | _ => return (Text.encode Text.replacement, rest)
  else return (Text.encode n, rest)

/-- Reads a string from behind its opening quote, `fuel` characters at most. -/
def stringBody? : Nat → Text → Option (Text × Text)
  | 0, _ => none
  | _, [] => none
  | fuel + 1, c :: rest =>
    if c == 34 then some ([], rest)
    else if c < 32 then none
    else if c == 92 then
      match rest with
      | [] => none
      | 117 :: more => do
        let (bytes, left) ← numericEscape? more
        let (body, left) ← stringBody? fuel left
        return (bytes ++ body, left)
      | e :: more => do
        let b ← escape? e
        let (body, left) ← stringBody? fuel more
        return (b :: body, left)
    else do
      let r := Text.headRune c rest
      let (body, left) ← stringBody? fuel (rest.drop (r.bytes.length - 1))
      return (Text.encode r.code ++ body, left)

/-! ### Values -/

mutual

/-- Reads a value at the given depth. -/
def value? : Nat → Nat → Text → Option (Json × Text)
  | 0, _, _ => none
  | fuel + 1, depth, t =>
    match t with
    | [] => none
    | c :: rest =>
      if c == 123 then
        if maxDepth ≤ depth then none
        else
          match skipBlank rest with
          | 125 :: left => some (.obj [], left)
          | t => do
            let (members, left) ← members? fuel (depth + 1) t
            return (.obj members, left)
      else if c == 91 then
        if maxDepth ≤ depth then none
        else
          match skipBlank rest with
          | 93 :: left => some (.arr [], left)
          | t => do
            let (items, left) ← items? fuel (depth + 1) t
            return (.arr items, left)
      else if c == 34 then do
        let (body, left) ← stringBody? t.length rest
        return (.str body, left)
      else if c == 45 || Text.isDigit c then do
        let (spelling, left) ← number? t
        return (.num spelling, left)
      else
        match Text.after? t "true", Text.after? t "false", Text.after? t "null" with
        | some left, _, _ => some (.bool true, left)
        | _, some left, _ => some (.bool false, left)
        | _, _, some left => some (.null, left)
        | _, _, _ => none

/-- Reads the items of an array from the first one on, and the closing bracket. -/
def items? : Nat → Nat → Text → Option (List Json × Text)
  | 0, _, _ => none
  | fuel + 1, depth, t => do
    let (first, t) ← value? fuel depth t
    match skipBlank t with
    | 93 :: left => return ([first], left)
    | 44 :: left => do
      let (more, left) ← items? fuel depth (skipBlank left)
      return (first :: more, left)
    | _ => none

/-- Reads the members of an object from the first one on, and the closing brace. -/
def members? : Nat → Nat → Text → Option (List (Text × Json) × Text)
  | 0, _, _ => none
  | fuel + 1, depth, t =>
    match t with
    | 34 :: rest => do
      let (name, t) ← stringBody? t.length rest
      match skipBlank t with
      | 58 :: t => do
        let (value, t) ← value? fuel depth (skipBlank t)
        match skipBlank t with
        | 125 :: left => return ([(name, value)], left)
        | 44 :: left => do
          let (more, left) ← members? fuel depth (skipBlank left)
          return ((name, value) :: more, left)
        | _ => none
      | _ => none
    | _ => none

end

/-- The value at the head of a text, white space in front of it skipped, and the text behind it.
Each call of the reader but every second takes a byte. -/
def readHead? (t : Text) : Option (Json × Text) :=
  value? (2 * t.length + 2) 0 (skipBlank t)

/-- The JSON value that `t` spells. -/
def read? (t : Text) : Option Json := do
  let (v, rest) ← readHead? t
  if (skipBlank rest).isEmpty then return v else none

end ContractAudit.Json
