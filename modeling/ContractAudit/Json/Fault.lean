import ContractAudit.Json.Reader
import ContractAudit.Text.Quoted

/-!
Where a text stops being JSON.

The bytes of a text are taken one by one by a machine that knows what may stand next; `Json.fault?`
is its complaint about the first byte that may not, or about an end that comes too early.
-/

namespace ContractAudit.Json

/-- What is being read inside an array or an object. -/
inductive Nest where
  | key
  | value
  | item
deriving DecidableEq, Repr

/-- What may stand next. -/
inductive Expect where
  /-- A value. -/
  | value
  /-- The first item of an array, or its end. -/
  | firstItem
  /-- A name in an object. -/
  | name
  /-- The first name in an object, or its end. -/
  | firstName
  /-- What follows a value. -/
  | next
  /-- The rest of a string. -/
  | text
  /-- The letter of an escape. -/
  | escape
  /-- As many more digits of a numeric escape, and one. -/
  | escapeDigit (more : Nat)
  /-- The first digit of a number. -/
  | firstDigit
  /-- What follows a leading zero. -/
  | zero
  /-- More digits of a number. -/
  | digits
  /-- The first digit behind a point. -/
  | firstDecimal
  /-- More digits behind a point. -/
  | decimals
  /-- What follows the mark of an exponent. -/
  | exponentSign
  /-- The first digit of an exponent. -/
  | firstExponent
  /-- More digits of an exponent. -/
  | exponent
  /-- The rest of a word. -/
  | word (word rest : Text)
deriving DecidableEq, Repr

/-- What may stand next, inside which arrays and objects, innermost first. -/
structure Progress where
  expect : Expect
  nests : List Nest
deriving DecidableEq, Repr

/-- The complaint about a byte. -/
def unexpected {α : Type} (c : UInt8) (where_ : Text) : Except Text α :=
  .error ("invalid character " ++ Text.quotedByte c ++ " " ++ where_)

/-- Enters an array or an object. -/
def enter (p : Progress) (c : UInt8) (nest : Nest) (expect : Expect) : Except Text Progress :=
  if p.nests.length < maxDepth then .ok ⟨expect, nest :: p.nests⟩
    else unexpected c "exceeded max depth"

/-- Takes the first byte of a value. -/
def startValue (p : Progress) (c : UInt8) : Except Text Progress :=
  if isBlank c then .ok p
  else if c == 123 then enter p c .key .firstName
  else if c == 91 then enter p c .item .firstItem
  else if c == 34 then .ok ⟨.text, p.nests⟩
  else if c == 45 then .ok ⟨.firstDigit, p.nests⟩
  else if c == 48 then .ok ⟨.zero, p.nests⟩
  else if c == 116 then .ok ⟨.word "true" "rue", p.nests⟩
  else if c == 102 then .ok ⟨.word "false" "alse", p.nests⟩
  else if c == 110 then .ok ⟨.word "null" "ull", p.nests⟩
  else if Text.isDigit c then .ok ⟨.digits, p.nests⟩
  else unexpected c "looking for beginning of value"

/-- Takes the first byte of a name. -/
def startName (p : Progress) (c : UInt8) : Except Text Progress :=
  if isBlank c then .ok p
  else if c == 34 then .ok ⟨.text, p.nests⟩
  else unexpected c "looking for beginning of object key string"

/-- Takes a byte behind a value or a name. -/
def afterValue (nests : List Nest) (c : UInt8) : Except Text Progress :=
  if isBlank c then .ok ⟨.next, nests⟩
  else match nests with
  | [] => unexpected c "after top-level value"
  | .key :: outer =>
    if c == 58 then .ok ⟨.value, .value :: outer⟩ else unexpected c "after object key"
  | .value :: outer =>
    if c == 44 then .ok ⟨.name, .key :: outer⟩
    else if c == 125 then .ok ⟨.next, outer⟩
    else unexpected c "after object key:value pair"
  | .item :: outer =>
    if c == 44 then .ok ⟨.value, .item :: outer⟩
    else if c == 93 then .ok ⟨.next, outer⟩
    else unexpected c "after array element"

/-- Takes a byte behind the whole part of a number. -/
def afterWhole (nests : List Nest) (c : UInt8) : Except Text Progress :=
  if c == 46 then .ok ⟨.firstDecimal, nests⟩
  else if c == 101 || c == 69 then .ok ⟨.exponentSign, nests⟩
  else afterValue nests c

/-- Takes a digit, with a complaint about anything else. -/
def needDigit (nests : List Nest) (c : UInt8) (then_ : Expect) (where_ : Text) :
    Except Text Progress :=
  if Text.isDigit c then .ok ⟨then_, nests⟩ else unexpected c where_

/-- Takes a byte. -/
def take (p : Progress) (c : UInt8) : Except Text Progress :=
  let go (e : Expect) : Except Text Progress := .ok ⟨e, p.nests⟩
  match p.expect with
  | .value => startValue p c
  | .firstItem => if c == 93 then .ok ⟨.next, p.nests.tail⟩ else startValue p c
  | .name => startName p c
  | .firstName => if c == 125 then .ok ⟨.next, p.nests.tail⟩ else startName p c
  | .next => afterValue p.nests c
  | .text =>
    if c == 34 then go .next
    else if c == 92 then go .escape
    else if c < 32 then unexpected c "in string literal"
    else go .text
  | .escape =>
    if c == 117 then go (.escapeDigit 3)
    else if (escape? c).isSome then go .text
    else unexpected c "in string escape code"
  | .escapeDigit more =>
    if (Text.digitValue? c).isNone then unexpected c "in \\u hexadecimal character escape"
    else match more with
    | 0 => go .text
    | more + 1 => go (.escapeDigit more)
  | .firstDigit => if c == 48 then go .zero else needDigit p.nests c .digits "in numeric literal"
  | .zero => afterWhole p.nests c
  | .digits => if Text.isDigit c then go .digits else afterWhole p.nests c
  | .firstDecimal => needDigit p.nests c .decimals "after decimal point in numeric literal"
  | .decimals =>
    if Text.isDigit c then go .decimals
    else if c == 101 || c == 69 then go .exponentSign
    else afterValue p.nests c
  | .exponentSign =>
    if c == 43 || c == 45 then go .firstExponent
    else needDigit p.nests c .exponent "in exponent of numeric literal"
  | .firstExponent => needDigit p.nests c .exponent "in exponent of numeric literal"
  | .exponent => if Text.isDigit c then go .exponent else afterValue p.nests c
  | .word word rest =>
    match rest with
    | [] => afterValue p.nests c
    | want :: rest =>
      if c == want then go (if rest.isEmpty then .next else .word word rest)
      else unexpected c ("in literal " ++ word ++ " (expecting " ++ Text.quotedByte want ++ ")")

/-- Takes the bytes of a text. -/
def takeAll (p : Progress) (t : Text) : Except Text Progress := t.foldlM take p

/-- What is wrong with a text that is not JSON. The end of a text counts as white space first. -/
def fault? (t : Text) : Option Text :=
  match takeAll ⟨.value, []⟩ (t ++ [32]) with
  | .error e => some e
  | .ok p => if p == ⟨.next, []⟩ then none else some "unexpected end of JSON input"

end ContractAudit.Json
