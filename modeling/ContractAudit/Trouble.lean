import ContractAudit.File.System
import ContractAudit.Plan.Failure
import ContractAudit.Source.ParseError

/-!
What can keep a scan or a command from its result.
-/

namespace ContractAudit

/-- Why there is no result. -/
inductive Trouble where
  /-- A file or directory could not be used. -/
  | file (fault : FileFault)
  /-- A file does not hold what it should. -/
  | unreadable (path : Text)
  /-- A source does not parse. -/
  | unparsable (path : Text) (error : Source.ParseError)
  /-- The analysis failed. -/
  | failure (cause : Plan.Failure)
  /-- A pass met a member without a body where one was needed. -/
  | aborted
  /-- Something else that is said in words. -/
  | complaint (message : Text)
  /-- Trouble with a label in front that says where it arose. -/
  | labelled (label : Text) (cause : Trouble)
deriving DecidableEq, Repr

/-- The wording of trouble. -/
def Trouble.message : Trouble → Text
  | .file fault => fault.message
  | .unreadable path => path ++ ": cannot be read"
  | .unparsable path error => error.message path
  | .failure cause => cause.message
  | .aborted => "a modifier without a body is used"
  | .complaint message => message
  | .labelled label cause => label ++ ": " ++ cause.message

/-- The trouble of a step on files. -/
def Trouble.ofFiles {α : Type} : Except FileFault α → Except Trouble α
  | .ok x => .ok x
  | .error fault => .error (.file fault)

end ContractAudit
