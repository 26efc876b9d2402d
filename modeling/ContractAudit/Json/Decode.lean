import ContractAudit.Text.Caseless
import ContractAudit.Json.Basic

/-!
Reading records out of JSON values.

A `Decoder α` reads a value over an old one: members that are missing, and members that are null,
leave what was there before. Names of members are compared without regard to case unless a field
has exactly that name, and a member that names no field is passed over. A value of the wrong shape
makes the whole reading fail.
-/

namespace ContractAudit.Json

/-- Reads a JSON value over an old value. -/
abbrev Decoder (α : Type) := α → Json → Option α

namespace Decoder

/-- A text. Null leaves the old one. -/
def text : Decoder Text
  | old, .null => some old
  | _, .str t => some t
  | _, _ => none

/-- An integer within 64 bits. Null leaves the old one. -/
def int : Decoder Int
  | old, .null => some old
  | _, .num spelling => readInt? spelling
  | _, _ => none

/-- A truth value. Null leaves the old one. -/
def bool : Decoder Bool
  | old, .null => some old
  | _, .bool b => some b
  | _, _ => none

/-- The items of an array, each read over the old item in its place, if there is one. -/
def items {α : Type} (fresh : α) (item : Decoder α) : List α → List Json → Option (List α)
  | _, [] => some []
  | old, v :: rest => do
    let x ← item (old.head?.getD fresh) v
    return x :: (← items fresh item old.tail rest)

/-- An array. Null is the empty list. -/
def list {α : Type} (fresh : α) (item : Decoder α) : Decoder (List α)
  | _, .null => some []
  | old, .arr vs => items fresh item old vs
  | _, _ => none

/-- The field that the member `name` stands for: the one with exactly that name, or the first one
with that name in another case. -/
def field? {β : Type} (fields : List (Text × β)) (name : Text) : Option β :=
  match fields.find? (·.1 == name) with
  | some (_, f) => some f
  | none => (fields.find? fun (n, _) => Text.sameFold n name).map (·.2)

/-- Reads members in order. -/
def members {α : Type} (fields : List (Text × Decoder α)) : α → List (Text × Json) → Option α
  | old, [] => some old
  | old, (name, v) :: rest => do
    let next ← match field? fields name with
      | some read => read old v
      | none => some old
    members fields next rest

/-- A record with the given fields. Null leaves the old one. -/
def record {α : Type} (fields : List (Text × Decoder α)) : Decoder α
  | old, .null => some old
  | old, .obj ms => members fields old ms
  | _, _ => none

/-- A field of a record, by how it is got and put. -/
def field {α β : Type} (get : α → β) (put : α → β → α) (read : Decoder β) : Decoder α :=
  fun old v => (read (get old) v).map (put old)

end Decoder

end ContractAudit.Json
