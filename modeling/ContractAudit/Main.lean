import Std.Time.DateTime
import ContractAudit.Console.Program

/-!
The analyser as a program.

The files that a command line may need are read into a `FileSystem`: everything below the working
directory, everything at a path that the command line names, and the settings files above these. The
command runs on that, and the files that it changed are written back.
-/

namespace ContractAudit.Program

/-- Bytes as a text. -/
def textOf (bytes : ByteArray) : Text := bytes.data.toList

/-- A text as bytes. -/
def bytesOf (t : Text) : ByteArray := ⟨t.toArray⟩

/-- A text as a string. What is not UTF-8 cannot name a file here. -/
def stringOf (t : Text) : String := (String.fromUTF8? (bytesOf t)).getD ""

/-- Adds the file at a path of the machine, if it can be read. -/
def addFile (fs : FileSystem) (path : String) : IO FileSystem := do
  try
    let bytes ← IO.FS.readBinFile path
    return (fs.place path (textOf bytes)).toOption.getD fs
  catch _ => return fs

/-- Adds what stands at a path of the machine, and what is below it. -/
partial def addTree (fs : FileSystem) (path : String) : IO FileSystem := do
  try
    let resolved ← IO.FS.realPath path
    if ← resolved.isDir then
      let mut fs := (fs.makeDirectory path).toOption.getD fs
      for entry in ← resolved.readDir do
        let kind := (← entry.path.symlinkMetadata).type
        let below := path ++ "/" ++ entry.fileName
        fs ← match kind with
          | .dir => addTree fs below
          | .file => addFile fs below
          | _ => pure fs
      return fs
    else addFile fs path
  catch _ => return fs

/-- Adds the settings files in a directory and in those above it. -/
def addSettings (fs : FileSystem) (place : Place) : IO FileSystem :=
  (Settings.upward place).foldlM (fun fs p =>
    Settings.fileNames.foldlM (fun fs name => do
      let path := stringOf (Path.join [FileSystem.pathOf p, name])
      addFile fs path) fs) fs

/-- The files that a command line may need. -/
def snapshot (here : Text) (args : List Text) : IO FileSystem := do
  let start : FileSystem := { here := Path.components here }
  let paths := here :: (args.map start.absolute).filter fun p =>
    p != here && !Text.startsWith p (here ++ "/")
  paths.foldlM (fun fs p => do
    let fs ← addTree fs (stringOf p)
    addSettings fs (Path.components p)) start

/-- Writes the files that differ from what they were before. -/
def writeBack (before after : FileSystem) : IO Unit :=
  after.entries.entries.forM fun (place, entry) => do
    match entry with
    | .file content =>
      if before.entry? place != some entry then
        IO.FS.writeBinFile (stringOf (FileSystem.pathOf place)) (bytesOf content)
    | .directory => pure ()

/-- The present instant. -/
def present : IO Calendar.Instant := do
  let now ← Std.Time.Timestamp.now
  return ⟨now.toSecondsSinceUnixEpoch.val, 0⟩

/-- Runs a command line and prints what comes of it. The result is the exit code. -/
def runArgs (args : List String) : IO UInt32 := do
  let words := args.map Text.ofString
  let here := Text.ofString (← IO.currentDir).toString
  let before ← snapshot here words
  let outcome := Console.run before (← present) words
  (← IO.getStdout).write (bytesOf outcome.output)
  writeBack before outcome.files
  match outcome.trouble? with
  | none => return 0
  | some t =>
    let message : Text := "Error: " ++ t.message ++ "\n"
    (← IO.getStderr).write (bytesOf message)
    return 1

end ContractAudit.Program

/-- The program. -/
def main (args : List String) : IO UInt32 := ContractAudit.Program.runArgs args
