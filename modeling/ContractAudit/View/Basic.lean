import ContractAudit.Table
import ContractAudit.Json.Basic
import ContractAudit.Domain.FinSet

/-!
JSON views of values, for programs that read the results of an analysis.

A text is a string, or an object with its bytes in hexadecimal when it is not UTF-8. Sets are listed
in byte order.
-/

namespace ContractAudit.View

/-- An object with the given members. -/
abbrev object := Json.object

/-- A text. -/
def text (t : Text) : Json := if t.isUtf8 then .str t else object [("hex", .str t.toHex)]

/-- A list. -/
def list {α : Type} (f : α → Json) (xs : List α) : Json := .arr (xs.map f)

/-- A list of texts. -/
def texts (ts : List Text) : Json := list text ts

/-- A value that may be missing, which is null. -/
def option {α : Type} (f : α → Json) (x : Option α) : Json := (x.map f).getD .null

/-- A table as an object. -/
def table {α : Type} (f : α → Json) (t : Table Text α) : Json :=
  .obj (t.entries.map fun (k, v) => (k, f v))

/-- A set of texts. -/
def set (s : FinSet Text) : Json := texts (Text.sorted s.elems)

/-- A number of any size, as a text. -/
def word (n : Nat) : Json := .str (Text.ofNat n)

end ContractAudit.View
