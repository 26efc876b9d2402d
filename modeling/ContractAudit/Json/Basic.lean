import ContractAudit.Text.Utf8

/-!
JSON values.

Objects keep their members in the order written, repeated names included, and numbers keep their
spelling: how a number is read depends on who asks for it.
-/

namespace ContractAudit

/-- A JSON value. A number is kept as it is spelled. -/
inductive Json where
  | null
  | bool (value : Bool)
  | num (spelling : Text)
  | str (value : Text)
  | arr (items : List Json)
  | obj (members : List (Text × Json))
deriving Repr, Inhabited

namespace Json

/-- An integer as a JSON number. -/
def int (i : Int) : Json := .num (Text.ofInt i)

/-- A natural number as a JSON number. -/
def nat (n : Nat) : Json := .num (Text.ofNat n)

/-- A list of texts as an array of strings. -/
def texts (ts : List Text) : Json := .arr (ts.map .str)

/-- An object with the given members. -/
def object (members : List (String × Json)) : Json :=
  .obj (members.map fun (name, v) => (Text.ofString name, v))

/-- A member for a text, left out when the text is empty. -/
def textMember (name : String) (t : Text) : List (String × Json) :=
  if t.isEmpty then [] else [(name, .str t)]

/-- A member for a list, left out when the list is empty. -/
def listMember {α : Type} (name : String) (f : α → Json) (xs : List α) : List (String × Json) :=
  if xs.isEmpty then [] else [(name, .arr (xs.map f))]

/-- The last member with exactly the given name. -/
def member? (members : List (Text × Json)) (name : Text) : Option Json :=
  (members.reverse.find? (·.1 == name)).map (·.2)

/-- An integer within 64 bits. A spelling with a fraction or an exponent is not an integer. -/
def readInt? (spelling : Text) : Option Int :=
  match spelling with
  | 45 :: digits =>
    (Text.readNat? digits).bind fun n => if n ≤ Nat.pow 2 63 then some (-(n : Int)) else none
  | digits => (Text.readNat? digits).bind fun n => if n < Nat.pow 2 63 then some (n : Int) else none

end Json

end ContractAudit
