import ContractAudit.File.Path
import ContractAudit.Table

/-!
Files and directories.

A `FileSystem` is a tree of files and directories together with the directory that paths start from.
Paths are followed part by part, as an operating system does: a part can only be followed out of a
directory that exists. What cannot be done is a `FileFault`, which says what was tried, on which
path, and why it failed.
-/

namespace ContractAudit

/-- The names on the way from the root. -/
abbrev Place := List Text

/-- What stands at a place. -/
inductive Entry where
  | file (content : Text)
  | directory
deriving DecidableEq, Repr

/-- Why something could not be done. -/
inductive FileCause where
  | missing
  | notDirectory
  | isDirectory
  | invalidPath
  | nameTooLong
deriving DecidableEq, Repr

/-- The wording of a cause. -/
def FileCause.text : FileCause → Text
  | .missing => "no such file or directory"
  | .notDirectory => "not a directory"
  | .isDirectory => "is a directory"
  | .invalidPath => "invalid argument"
  | .nameTooLong => "file name too long"

/-- What was tried on a path and why it failed. -/
structure FileFault where
  attempt : Text
  path : Text
  cause : FileCause
deriving DecidableEq, Repr

/-- The wording of a fault. -/
def FileFault.message (f : FileFault) : Text := f.attempt ++ " " ++ f.path ++ ": " ++ f.cause.text

/-- A tree of files and directories, and the directory that paths start from. -/
structure FileSystem where
  entries : Table Place Entry := .empty
  here : Place := []
deriving Repr

namespace FileSystem

/-- What stands at a place. The root is a directory. -/
def entry? (fs : FileSystem) (place : Place) : Option Entry :=
  if place.isEmpty then some .directory else fs.entries.get? place

/-- The longest name, in bytes. -/
def maxName : Nat := 255

/-- The longest path, in bytes. -/
def maxPath : Nat := 4095

/-- The place that parts lead to from `place`. What stands there is not asked. -/
def follow (fs : FileSystem) : Place → List Text → Except FileCause Place
  | place, [] => .ok place
  | place, part :: rest =>
    match fs.entry? place with
    | none => .error .missing
    | some (.file _) => .error .notDirectory
    | some .directory =>
      if part.isEmpty || part == Path.self then follow fs place rest
      else if part == Path.up then follow fs place.dropLast rest
      else if maxName < part.length then .error .nameTooLong
      else follow fs (place ++ [part]) rest

/-- The place that a path leads to. What stands there is not asked. -/
def locate (fs : FileSystem) (path : Text) : Except FileCause Place :=
  if path.isEmpty then .error .missing
  else if path.any (· == 0) then .error .invalidPath
  else if maxPath < path.length then .error .nameTooLong
  else follow fs (if Path.isRooted path then [] else fs.here) (Path.parts path)

/-- The place that a path leads to and what stands there. -/
def look (fs : FileSystem) (path : Text) : Except FileCause (Place × Entry) := do
  let place ← fs.locate path
  match fs.entry? place with
  | some e => .ok (place, e)
  | none => .error .missing

/-- Whether something stands at a path. -/
def exists? (fs : FileSystem) (path : Text) : Bool := (fs.look path).isOk

/-- The result of a step, with what was tried when it failed. -/
def attempting {α : Type} (attempt path : Text) : Except FileCause α → Except FileFault α
  | .ok x => .ok x
  | .error cause => .error ⟨attempt, path, cause⟩

/-- The content of a file. -/
def read (fs : FileSystem) (path : Text) : Except FileFault Text :=
  match attempting "open" path (fs.look path) with
  | .ok (_, .file content) => .ok content
  | .ok (_, .directory) => .error ⟨"read", path, .isDirectory⟩
  | .error e => .error e

/-- The path without slashes at its end. -/
def withoutSlashes (path : Text) : Text := (path.reverse.dropWhile (· == Path.slash)).reverse

/-- Writes a file, in the place of an earlier one. Its directory has to exist. -/
def write (fs : FileSystem) (path content : Text) : Except FileFault FileSystem := do
  let place ← attempting "open" path (fs.locate (withoutSlashes path))
  if path.endsWith "/" then .error ⟨"open", path, .isDirectory⟩
  else match fs.entry? place with
  | some .directory => .error ⟨"open", path, .isDirectory⟩
  | _ => .ok { fs with entries := fs.entries.set place (.file content) }

/-- Follows parts from `place` and makes the directories that are missing on the way. -/
def build (fs : FileSystem) : Place → List Text → Except FileCause FileSystem
  | _, [] => .ok fs
  | place, part :: rest =>
    if part.isEmpty || part == Path.self then build fs place rest
    else if part == Path.up then build fs place.dropLast rest
    else if maxName < part.length then .error .nameTooLong
    else
      let place := place ++ [part]
      match fs.entry? place with
      | some (.file _) => .error .notDirectory
      | some .directory => build fs place rest
      | none => build { fs with entries := fs.entries.set place .directory } place rest

/-- Makes a directory and those above it, as far as they are missing. -/
def makeDirectory (fs : FileSystem) (path : Text) : Except FileFault FileSystem :=
  attempting "mkdir" path <|
    if path.isEmpty then .error .missing
    else if path.any (· == 0) then .error .invalidPath
    else fs.build (if Path.isRooted path then [] else fs.here) (Path.parts path)

/-- Writes a file and makes the directories above it. -/
def place (fs : FileSystem) (path content : Text) : Except FileFault FileSystem := do
  let fs ← fs.makeDirectory (Path.parent path)
  fs.write path content

/-- Removes what stands at a path and everything below. -/
def remove (fs : FileSystem) (path : Text) : Except FileFault FileSystem :=
  if path == Path.self || path.endsWith "/." then .error ⟨"RemoveAll", path, .invalidPath⟩
  else match fs.locate path with
  | .ok place => .ok { fs with entries := fs.entries.filterKeys fun p => !place.isPrefixOf p }
  | .error .missing => .ok fs
  | .error cause => .error ⟨"unlinkat", path, cause⟩

/-! ### What a directory holds -/

/-- Places in the order of a walk: name by name in byte order, a directory before what it holds. -/
def placeLe : Place → Place → Bool
  | [], _ => true
  | _ :: _, [] => false
  | a :: as, b :: bs => if a == b then placeLe as bs else Text.le a b

/-- The files below a place, each by the names on the way to it from there. -/
def filesBelow (fs : FileSystem) (place : Place) : List (Place × Text) :=
  let found := fs.entries.entries.filterMap fun (p, e) =>
    match e with
    | .file content => if place.isPrefixOf p then some (p.drop place.length, content) else none
    | .directory => none
  found.mergeSort fun a b => placeLe a.1 b.1

/-- The number of entries in the directory at a path; none where there is no directory. -/
def countIn (fs : FileSystem) (path : Text) : Nat :=
  match fs.look path with
  | .ok (place, .directory) =>
    (fs.entries.keys.filter fun p => p.dropLast == place && !p.isEmpty).length
  | _ => 0

/-- The path of a place, from the root. -/
def pathOf (place : Place) : Text := "/" ++ Text.joinWith "/" place

/-- A path from the root that leads where the given path leads. -/
def absolute (fs : FileSystem) (path : Text) : Text :=
  if Path.isRooted path then Path.clean path else Path.join [pathOf fs.here, path]

end FileSystem

end ContractAudit
