import ContractAudit.Text.Basic

/-!
Snippets: the lines of a source around a place.
-/

namespace ContractAudit

/-- The lines from `first` to `last`, counted from one, with `margin` more on each side, as far as
the source goes. -/
def snippet (content : Text) (first last margin : Int) : Text :=
  if content.isEmpty then []
  else
    let lines := content.lines
    let first := max first 1
    let last := max last first
    let from_ := max 0 (first - 1 - margin)
    let to_ := min ((lines.length : Int) - 1) (last - 1 + margin)
    if to_ < from_ then []
    else Text.joinWith "\n" ((lines.take (to_ + 1).toNat).drop from_.toNat)

/-- The line, counted from one, of the first occurrence of a nonempty text, or zero. -/
def lineWith (content needle : Text) : Nat :=
  match Text.indexOf? needle content with
  | some i => if needle.isEmpty then 0 else Text.lineBreaks (content.take i) + 1
  | none => 0

end ContractAudit
