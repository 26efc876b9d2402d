import ContractAudit.Cache
import ContractAudit.Compiler.Output

/-!
Syntax trees of the compiler that were cached earlier.
-/

namespace ContractAudit.Compiler

/-- The command that runs the compiler, if no other is given. -/
def usualCommand : Text := "solc"

/-- The key under which the tree of a source is cached. It changes with the compiler, the path from
the root and the content of the source. -/
def cacheKey (command path content : Text) : Text :=
  Cache.key ["solc-ast", if command.isEmpty then usualCommand else command, path, content]

/-- The cached tree of the source at a path. -/
def cached? (c : Cache) (fs : FileSystem) (command path : Text) : Option Output := do
  let absolute := fs.absolute path
  let content ← (fs.read absolute).toOption
  let t ← c.load fs (cacheKey command absolute content)
  readTree? t

end ContractAudit.Compiler
