import ContractAudit.Text.Basic

/-!
The edit distance of texts: how many bytes have to be put in, left out or changed to get from one to
the other.
-/

namespace ContractAudit.Text

/-- The distances from one byte more of the first text to all beginnings of the second, from those
of one byte less: `left` is the distance found last, `above` are the old ones from there on. -/
def distanceRow (c : UInt8) : (left : Nat) → (above : List Nat) → Text → List Nat
  | left, corner :: up :: above, d :: rest =>
    let here := if c == d then corner else min (min left up) corner + 1
    here :: distanceRow c here (up :: above) rest
  | _, _, _ => []

/-- The distances from a text to all beginnings of another, longer beginnings of the first by and
by. -/
def distances : (row : List Nat) → Text → Text → List Nat
  | row, [], _ => row
  | row, c :: rest, t =>
    let first := row.headD 0 + 1
    distances (first :: distanceRow c first row t) rest t

/-- The edit distance. -/
def distance (s t : Text) : Nat := (distances (List.range (t.length + 1)) s t).getLast?.getD 0

end ContractAudit.Text
