import ContractAudit.File.System
import ContractAudit.Text.Sha256

/-!
A cache: contents under keys, each in a file of its own.

The key of a list of parts is a hash of `preimage`, which writes every part behind its length, so
that lists which differ in any way are hashed differently.
-/

namespace ContractAudit

/-- A cache in a directory. Without a directory nothing is kept. -/
structure Cache where
  dir : Text
deriving DecidableEq, Repr

namespace Cache

/-- The lowest eight bytes of a number, lowest first. -/
def lengthBytes (n : Nat) : Text := (List.range 8).map fun i => UInt8.ofNat (n / Nat.pow 256 i)

/-- What is hashed for a list of parts: each part behind its length. -/
def preimage (parts : List Text) : Text := parts.flatMap fun p => lengthBytes p.length ++ p

/-- The key of a list of parts. -/
def key (parts : List Text) : Text := Text.sha256 (preimage parts)

/-- Whether the cache keeps anything. -/
def isEnabled (c : Cache) : Bool := !c.dir.isEmpty

/-- The path of a key's file. -/
def pathOf (c : Cache) (key : Text) : Text := Path.join [c.dir, key]

/-- The content under a key. -/
def load (c : Cache) (fs : FileSystem) (key : Text) : Option Text :=
  if c.isEnabled then (fs.read (c.pathOf key)).toOption else none

/-- The longest key: its file is written under a longer name first, and there has to be room for
it. -/
def maxKey : Nat := 241

/-- Keeps a content under a key, and says whether that went well. The content is written beside its
file first and then moved there. It cannot be moved where a directory stands, and is left behind
then. -/
def store (c : Cache) (fs : FileSystem) (key content : Text) : FileSystem × Bool :=
  if !c.isEnabled then (fs, true)
  else
    match fs.makeDirectory c.dir with
    | .error _ => (fs, false)
    | .ok fs =>
      if key.any (fun b => b == Path.slash || b == 0) || maxKey < key.length then (fs, false)
      else
        match fs.write (c.pathOf key) content with
        | .ok fs => (fs, true)
        | .error _ =>
          match fs.write (Path.join [c.dir, key ++ ".tmp"]) content with
          | .ok fs => (fs, false)
          | .error _ => (fs, false)

/-- Drops all contents, and says whether that went well. -/
def clear (c : Cache) (fs : FileSystem) : FileSystem × Bool :=
  if !c.isEnabled then (fs, true)
  else
    match fs.remove c.dir with
    | .ok fs => (fs, true)
    | .error _ => (fs, false)

end Cache

end ContractAudit
