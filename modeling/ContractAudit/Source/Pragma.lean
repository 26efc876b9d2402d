import ContractAudit.Text.Utf8

/-!
The compiler version pragma of a source text.

A version pragma stands at the start of a line, white space aside: the word `pragma`, the word
`solidity`, and a constraint up to the next semicolon. The first one in the text counts. It is
looked for in the raw text, so one inside a comment counts as well.
-/

namespace ContractAudit.Source.Pragma

/-- White space between the words of a pragma. -/
def isGap (c : UInt8) : Bool := c == 9 || c == 10 || c == 12 || c == 13 || c == 32

/-- What follows `word` and the white space in front of it, with the number of line breaks in that
white space. At least `least` bytes of white space are needed. -/
def afterWord (word : Text) (least : Nat) (t : Text) : Option (Nat × Text) :=
  let gap := t.takeWhile isGap
  if gap.length < least then none
  else (Text.after? (t.drop gap.length) word).map fun rest => (Text.lineBreaks gap, rest)

/-- The constraint behind the words of a pragma, with the number of line breaks in front of it.
White space is skipped, but the constraint has at least one byte: when nothing but white space
stands before the semicolon, its last byte is the constraint and something must be left before
it. -/
def constraint? (t : Text) : Option (Nat × Text) :=
  let gap := t.takeWhile isGap
  let behind := t.drop gap.length
  let body := behind.takeWhile (· != 59)
  if gap.isEmpty || behind.length == body.length then none
  else if !body.isEmpty then some (Text.lineBreaks gap, body)
  else if 2 ≤ gap.length then
    some (Text.lineBreaks gap.dropLast, gap.drop (gap.length - 1))
  else none

/-- The constraint of a pragma at the head of `t`, with the number of line breaks in front of it. -/
def atHead? (t : Text) : Option (Nat × Text) := do
  let (first, t) ← afterWord "pragma" 0 t
  let (second, t) ← afterWord "solidity" 1 t
  let (third, found) ← constraint? t
  return (first + second + third, found)

/-- The first pragma of a text that starts on the given line. `opening` says whether the text starts
at the start of a line. -/
def findFrom : Bool → Nat → Text → Option (Nat × Text)
  | opening, line, t =>
    match if opening then atHead? t else none with
    | some (breaks, found) => some (line + breaks, found)
    | none =>
      match t with
      | [] => none
      | c :: rest =>
        let ends := c == Text.newline
        findFrom ends (if ends then line + 1 else line) rest

/-- The first version pragma of a source text: the line of its constraint and the constraint without
surrounding white space. -/
def find? (src : Text) : Option (Nat × Text) :=
  (findFrom true 1 src).map fun (line, found) => (line, found.trim)

end ContractAudit.Source.Pragma
