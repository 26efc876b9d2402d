import ContractAudit.Json.Reader
import ContractAudit.Json.Writer
import ContractAudit.Settings.Json
import ContractAudit.Settings.Yaml
import ContractAudit.Trouble

/-!
Settings in files.

A settings file is YAML when its name says so and JSON otherwise. It is read over the default
settings. Without a path, the file is looked for in a directory and in those above it.
-/

namespace ContractAudit.Settings

/-- Whether a path names a YAML file. -/
def isYaml (path : Text) : Bool :=
  Path.extension path == ".yaml" || Path.extension path == ".yml"

/-- The text of a settings file at a path. -/
def fileText (path : Text) (s : Settings) : Text := if isYaml path then s.toYaml
    else s.toJson.indented

/-- The settings in the text of a file at a path, read over the default ones. -/
def ofFileText? (path t : Text) : Option Settings :=
  if isYaml path then readYaml? .default t else (Json.read? t).bind (decoder .default)

/-- The settings in the text of a file at a path, when there is nothing wrong with them. -/
def ofFileText (path t : Text) : Except Trouble Settings :=
  match ofFileText? path t with
  | none => .error (.unreadable path)
  | some s =>
    if s.faults.isEmpty then .ok s
    else .error (.labelled path (.complaint (Text.joinWith "\n" s.faults)))

/-- Reads a settings file. -/
def readFile (fs : FileSystem) (path : Text) : Except Trouble Settings := do
  let t ← Trouble.ofFiles (fs.read path)
  ofFileText path t

/-- The names of a settings file, in order of preference. -/
def fileNames : List Text := Text.ofStrings [".verazt.json", ".verazt.yaml", ".verazt.yml"]

/-- The directories from one up to the root, each by its names. -/
def upward (place : Place) : List Place :=
  (List.range (place.length + 1)).reverse.map place.take

/-- The path of the settings file that holds in a directory: the first one in it, or else the one
that holds in the directory above. -/
def search (fs : FileSystem) (place : Place) : Option Text :=
  ((upward place).flatMap fun p => fileNames.map fun name => Path.join [FileSystem.pathOf p,
    name]).find?
    fs.exists?

/-- The directory in which a search from a path starts. -/
def startOf (fs : FileSystem) (path : Text) : Place :=
  let start := Path.components (fs.absolute path)
  match fs.look (FileSystem.pathOf start) with
  | .ok (_, .file _) => start.dropLast
  | _ => start

/-- The settings that hold at a path, with the path of their file. Without a file the default
settings hold. -/
def load (fs : FileSystem) (path : Text) : Except Trouble (Settings × Text) :=
  match search fs (startOf fs path) with
  | none => .ok (.default, [])
  | some found => do
    let s ← readFile fs found
    return (s, found)

end ContractAudit.Settings
