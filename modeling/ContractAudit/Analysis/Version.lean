import ContractAudit.Source.Pragma
import ContractAudit.Source.Unit

/-!
Compiler version constraints.

A constraint names versions such as `0.8.19`. The first one in it counts as the lowest version, and
a constraint *floats* unless it is exactly one full version, with an optional equals sign in front.
-/

namespace ContractAudit.Analysis

open Source

/-- A version number: major, minor and patch. -/
structure Version where
  major : Nat
  minor : Nat
  patch : Nat
deriving DecidableEq, Repr

namespace Version

/-- Whether a version comes before another. -/
def lt (a b : Version) : Bool :=
  a.major < b.major || (a.major == b.major &&
    (a.minor < b.minor || (a.minor == b.minor && a.patch < b.patch)))

/-- The version as it is written in listings. -/
def text (v : Version) : Text :=
  "v" ++ Text.ofNat v.major ++ "." ++ Text.ofNat v.minor ++ "." ++ Text.ofNat v.patch

/-- The run of digits at the head of a text, and what follows. -/
def digits? (t : Text) : Option (Text × Text) :=
  let run := t.takeWhile Text.isDigit
  if run.isEmpty then none else some (run, t.drop run.length)

/-- A point and the run of digits behind it at the head of a text, and what follows. -/
def pointDigits? (t : Text) : Option (Text × Text) :=
  match t with
  | 46 :: rest => digits? rest
  | _ => none

/-- Two or three runs of digits with points between them at the head of a text. -/
def atHead? (t : Text) : Option (List Text) := do
  let (major, t) ← digits? t
  let (minor, t) ← pointDigits? t
  match pointDigits? t with
  | some (patch, _) => return [major, minor, patch]
  | none => return [major, minor]

/-- The first two or three runs of digits with points between them in a text. -/
def find? : Text → Option (List Text)
  | [] => none
  | c :: rest =>
    match atHead? (c :: rest) with
    | some parts => some parts
    | none => find? rest

/-- A number of a version: no zero in front of another digit. -/
def number? (digits : Text) : Option Nat :=
  if 1 < digits.length && digits.head? == some 48 then none else Text.readNat? digits

/-- The version with the given numbers; a missing patch number is zero. -/
def ofParts? (parts : List Text) : Option Version :=
  match parts.mapM number? with
  | some [major, minor, patch] => some ⟨major, minor, patch⟩
  | some [major, minor] => some ⟨major, minor, 0⟩
  | _ => none

end Version

/-- The compiler version constraint of one source unit. -/
structure VersionPragma where
  file : Text
  line : Nat
  constraint : Text
  /-- The first version that the constraint names, if it is a proper one. -/
  version? : Option Version
  /-- Whether the constraint admits more than one version. -/
  isFloating : Bool
deriving DecidableEq, Repr

/-- Whether a constraint is exactly one full version, with an optional equals sign in front. -/
def isExact (constraint : Text) : Bool :=
  let bare := (Text.trimStart constraint "=").dropWhile Pragma.isGap
  match Version.digits? bare with
  | some (_, t) =>
    match Version.pointDigits? t with
    | some (_, t) =>
      match Version.pointDigits? t with
      | some (_, rest) => rest.isEmpty
      | none => false
    | none => false
  | none => false

/-- The version constraint of a source unit. -/
def VersionPragma.ofUnit (u : SourceUnit) : VersionPragma :=
  let constraint := u.pragma.trim
  if constraint.isEmpty then ⟨u.path, u.pragmaLine, [], none, false⟩
  else
    ⟨u.path, u.pragmaLine, constraint, (Version.find? constraint).bind Version.ofParts?,
      !isExact constraint⟩

/-- Whether the unit has no version constraint. -/
def VersionPragma.isMissing (p : VersionPragma) : Bool := p.constraint.isEmpty

/-- Whether the constraint admits versions before `v`. -/
def VersionPragma.isBefore (p : VersionPragma) (v : Version) : Bool := p.version?.any (·.lt v)

end ContractAudit.Analysis
