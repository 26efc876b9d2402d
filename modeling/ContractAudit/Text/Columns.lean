import ContractAudit.Text.Utf8

/-!
Texts in columns.

A line is cut into cells by tabs. Neighbouring lines that go on behind a cell have that cell filled
up with spaces to a common width, so that what follows stands in a column. The last cell of a line
belongs to no column. A form feed ends a line and all columns.
-/

namespace ContractAudit.Text

/-- The number of runes. -/
def width (t : Text) : Nat := t.runes.length

/-- The text with spaces behind it, at least `n` runes in all. -/
def padRight (n : Nat) (t : Text) : Text := t ++ List.replicate (n - t.width) 32

/-- The text with spaces in front of it, at least `n` runes in all. -/
def padLeft (n : Nat) (t : Text) : Text := List.replicate (n - t.width) 32 ++ t

/-- The cells of a line. -/
abbrev Row := List Text

/-- Whether a row goes on behind its cell number `j`. -/
def Row.goesOn (j : Nat) (row : Row) : Bool := j + 1 < row.length

/-- The width of the widest cell number `j`. -/
def widest (j : Nat) (rows : List Row) : Nat :=
  rows.foldl (fun w row => max w (width (row[j]?.getD []))) 0

/-- Neighbouring rows that go on behind cell number `j`, with a common width for it. -/
def alignRun (gap j : Nat) (run : List Row) : List Row :=
  if run.all (Row.goesOn j) then run.map fun row => row.modify j (padRight (widest j run + gap))
  else run

/-- The rows with their cells number `j` aligned. -/
def alignColumn (gap : Nat) (rows : List Row) (j : Nat) : List Row :=
  (rows.splitBy fun a b => a.goesOn j == b.goesOn j).flatMap (alignRun gap j)

/-- The rows with all columns aligned, `gap` spaces behind the widest cell of each. -/
def align (gap : Nat) (rows : List Row) : List Row :=
  (List.range (rows.foldl (fun n row => max n row.length) 0)).foldl (alignColumn gap) rows

/-- A vertical tab cuts as a tab does. -/
def plainTabs (t : Text) : Text := t.map fun c => if c == 11 then 9 else c

/-- The text with its columns aligned. -/
def columns (gap : Nat) (t : Text) : Text :=
  let part (t : Text) : Text :=
    joinWith "\n" ((align gap (t.lines.map fun line => splitOn line [9])).map List.flatten)
  joinWith "\n" ((splitOn (plainTabs t) [12]).map part)

end ContractAudit.Text
