import ContractAudit.Text.Basic

/-!
Lists of words between commas. A word in double quotes may hold commas and, written twice, double
quotes.
-/

namespace ContractAudit.Csv

/-- What is wrong with a list, and at which byte, counted from one. -/
inductive Fault where
  | bareQuote (column : Nat)
  | strayQuote (column : Nat)
  | empty
deriving DecidableEq, Repr

/-- The wording of a fault. -/
def Fault.message : Fault → Text
  | .bareQuote column =>
    "parse error on line 1, column " ++ Text.ofNat column ++ ": bare \" in non-quoted field"
  | .strayQuote column =>
    "parse error on line 1, column " ++ Text.ofNat column ++
      ": extraneous or missing \" in quoted-field"
  | .empty => "EOF"

/-- Where in a list a byte stands. -/
inductive Place where
  | start
  | plain
  | quoted
  | behindQuote
deriving DecidableEq, Repr

/-- The words of a list from a byte on: `word` is what has been read of the current one, last byte
first. -/
def words : Nat → Place → (word : Text) → Text → Except Fault (List Text)
  | column, .quoted, _, [] => .error (.strayQuote column)
  | _, _, word, [] => .ok [word.reverse]
  | column, .quoted, word, c :: rest =>
    if c == 34 then words (column + 1) .behindQuote word rest
    else words (column + 1) .quoted (c :: word) rest
  | column, .behindQuote, word, c :: rest =>
    if c == 34 then words (column + 1) .quoted (c :: word) rest
    else if c == 44 then do return word.reverse :: (← words (column + 1) .start [] rest)
    else if c == 10 then .ok [word.reverse]
    else .error (.strayQuote (column - 1))
  | column, place, word, c :: rest =>
    if c == 44 then do return word.reverse :: (← words (column + 1) .start [] rest)
    else if c == 10 then .ok [word.reverse]
    else if c == 34 then
      if place == .start then words (column + 1) .quoted word rest else .error (.bareQuote column)
    else words (column + 1) .plain (c :: word) rest

/-- The words of a list. Only the first line that is not empty counts. -/
def read (t : Text) : Except Fault (List Text) :=
  if t.isEmpty then .ok []
  else
    let t := (Text.trimEnd (Text.replaceAll t "\r\n" "\n") "\r").dropWhile (· == 10)
    if t.isEmpty then .error .empty else words 1 .start [] t

end ContractAudit.Csv
