import ContractAudit.Console.Flag
import ContractAudit.Text.Caseless
import ContractAudit.Text.Distance

/-!
Commands on a command line.

A command has flags and may have commands below it. The command that a command line means is found
by its words: each word that is no flag and no value of a flag leads one command further, as long as
there is such a command.
-/

namespace ContractAudit.Console

/-- How many arguments a command takes. -/
inductive Arity where
  | any
  | atMost (n : Nat)
  | atLeast (n : Nat)
deriving DecidableEq, Repr

/-- What is wrong with a number of arguments. -/
def Arity.complaint? (a : Arity) (n : Nat) : Option Text :=
  match a with
  | .any => none
  | .atMost m =>
    if n ≤ m then none
    else some ("accepts at most " ++ Text.ofNat m ++ " arg(s), received " ++ Text.ofNat n)
  | .atLeast m =>
    if m ≤ n then none
    else some ("requires at least " ++ Text.ofNat m ++ " arg(s), only received " ++ Text.ofNat n)

/-- A command with the commands below it. `α` is what a command does; one that does nothing only
groups those below. -/
structure Command (α : Type) where
  name : Text
  /-- What stands behind the name in an example of its use. -/
  operands : Text := []
  summary : Text
  description : Text := []
  flags : List Flag := []
  arity : Arity := .any
  action? : Option α := none
  /-- Whether the command is left out where commands are suggested. -/
  unlisted : Bool := false
  children : List (Command α) := []

/-- A command with the names on the way to it. -/
structure Target (α : Type) where
  command : Command α
  path : List Text

variable {α : Type}

/-! ### Finding a command -/

/-- Whether a word is a flag whose value is the next word. -/
def takesNext (flags : List Flag) (word : Text) : Bool :=
  if !(word.all (· != 61)) then false
  else if word.startsWith "--" then
    !(flags.any fun f => f.kind == .switch && f.name == word.drop 2)
  else word.length == 2 && word.head? == some 45 &&
    !(flags.any fun f => f.kind == .switch && f.letter? == word[1]?)

/-- The words that are neither flags nor values of flags, up to a bare `--`. A flag that takes the
last word ends the search. -/
def bareWords (flags : List Flag) : List Text → List Text
  | [] => []
  | word :: rest =>
    if word == "--" then []
    else if takesNext flags word then
      match rest with
      | _ :: next :: more => bareWords flags (next :: more)
      | _ => []
    else if word.isEmpty || word.head? == some 45 then bareWords flags rest
    else word :: bareWords flags rest

/-- The words without the first one that is `x` and neither a flag nor the value of one. -/
def withoutWord (flags : List Flag) (x : Text) : List Text → List Text
  | [] => []
  | word :: rest =>
    if word == "--" then word :: rest
    else if takesNext flags word then
      match rest with
      | value :: more => word :: value :: withoutWord flags x more
      | [] => [word]
    else if word == x && word.head? != some 45 then rest
    else word :: withoutWord flags x rest

/-- The command that words lead to from a command, and the words that are left. Each step uses up a
word. -/
def locate (shared : List Flag) : Nat → Target α → List Text → Target α × List Text
  | 0, t, words => (t, words)
  | fuel + 1, t, words =>
    let flags := t.command.flags ++ shared
    match bareWords flags words with
    | [] => (t, words)
    | name :: _ =>
      match t.command.children.find? (·.name == name) with
      | some child => locate shared fuel ⟨child, t.path ++ [name]⟩ (withoutWord flags name words)
      | none => (t, words)

/-- Whether the name of a command is near to a word: at most two edits away, or longer. -/
def isNear (word name : Text) : Bool :=
  Text.distance word.lower name.lower ≤ 2 || Text.startsWith name.lower word.lower

/-- A line with a command that may have been meant. -/
def hintLine (name : Text) : Text := "\t" ++ name ++ "\n"

/-- The complaint about a word that is no command. -/
def unknownCommand (root : Command α) (word : Text) : Text :=
  let near := (root.children.filter fun c => !c.unlisted && isNear word c.name).map (·.name)
  let hint : Text := if near.isEmpty then []
    else "\n\nDid you mean this?\n" ++ near.flatMap hintLine
  "unknown command " ++ word.quoted ++ " for " ++ root.name.quoted ++ hint

/-- The command that a command line means, and its words; or a complaint about a word that is no
command. -/
def find (root : Command α) (shared : List Flag) (words : List Text) :
    Except Text (Target α × List Text) :=
  let (t, left) := locate shared (words.length + 1) ⟨root, [root.name]⟩ words
  match t.path, bareWords (t.command.flags ++ shared) left with
  | [_], word :: _ => .error (unknownCommand root word)
  | _, _ => .ok (t, left)

/-! ### Help -/

/-- The flag that asks for help. -/
def helpFlag (name : Text) : Flag := ⟨"help", some 104, .switch, [], "help for " ++ name⟩

/-- The flag that asks for the version. -/
def versionFlag (name : Text) : Flag := ⟨"version", some 118, .switch, [], "version for " ++ name⟩

/-- The flags of a command itself. The root has the shared ones too. -/
def Target.ownFlags (t : Target α) (shared : List Flag) : List Flag :=
  let own := helpFlag t.command.name :: t.command.flags
  if t.path.length == 1 then own ++ versionFlag t.command.name :: shared else own

/-- The flags that a command takes. -/
def Target.allFlags (t : Target α) (shared : List Flag) : List Flag :=
  if t.path.length == 1 then t.ownFlags shared else t.ownFlags shared ++ shared

/-- The names on the way to a command. -/
def Target.pathText (t : Target α) : Text := Text.joinWith " " t.path

/-- A command in a list of commands. -/
def commandLine (width : Nat) (c : Command α) : Text :=
  "\n  " ++ c.name.padRight width ++ " " ++ c.summary

/-- The commands below a command, by name, with what they do in a column. -/
def commandList (cs : List (Command α)) : Text :=
  let width := cs.foldl (fun w c => max w c.name.length) 11
  (cs.mergeSort fun a b => Text.le a.name b.name).flatMap (commandLine width)

/-- How a command is used. -/
def Target.usage (t : Target α) (shared : List Flag) : Text :=
  let c := t.command
  let line : Text := if c.action?.isNone then []
    else "\n  " ++ t.pathText ++ (if c.operands.isEmpty then ([] : Text) else " " ++ c.operands) ++
      " [flags]"
  let below : Text := if c.children.isEmpty then [] else "\n  " ++ t.pathText ++ " [command]"
  let commands : Text := if c.children.isEmpty then []
    else "\n\nAvailable Commands:" ++ commandList c.children
  let own : Text := "\n\nFlags:\n" ++ flagList (t.ownFlags shared)
  let inherited : Text := if t.path.length == 1 then [] else "\n\nGlobal Flags:\n" ++
    flagList shared
  let more : Text := if c.children.isEmpty then []
    else "\n\nUse \"" ++ t.pathText ++ " [command] --help\" for more information about a command."
  "Usage:" ++ line ++ below ++ commands ++ own ++ inherited ++ more ++ "\n"

/-- What a command does and how it is used. -/
def Target.help (t : Target α) (shared : List Flag) : Text :=
  let about := if t.command.description.isEmpty then t.command.summary else t.command.description
  about ++ "\n\n" ++ t.usage shared

end ContractAudit.Console
