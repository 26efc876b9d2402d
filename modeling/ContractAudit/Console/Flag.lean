import ContractAudit.Text.Columns
import ContractAudit.Text.Csv
import ContractAudit.Text.Quoted

/-!
Flags on a command line.

A flag is named in full behind two dashes, or by a letter behind one. Its value follows a `=` or is
the next word; a switch needs none. Words that are not flags are arguments, and behind a bare `--`
everything is.
-/

namespace ContractAudit.Console

/-- What values a flag takes. -/
inductive FlagKind where
  | text
  | number
  | switch
  | words
deriving DecidableEq, Repr

/-- A flag, with the value that it has when it is not set. -/
structure Flag where
  name : Text
  letter? : Option UInt8 := none
  kind : FlagKind := .text
  usual : Text := []
  usage : Text
deriving DecidableEq, Repr

/-! ### Values -/

/-- Whether a switch is on, by the words for it. -/
def readSwitch? (t : Text) : Option Bool :=
  if (Text.ofStrings ["1", "t", "T", "true", "TRUE", "True"]).contains t then some true
  else if (Text.ofStrings ["0", "f", "F", "false", "FALSE", "False"]).contains t then some false
  else none

/-- The base that the head of a number stands for, and the digits behind it. -/
def baseOf (t : Text) : Nat × Text :=
  match t with
  | 48 :: c :: rest =>
    let c := if Text.isUpper c then c + 32 else c
    if rest.isEmpty then (8, t.tail)
    else if c == 98 then (2, rest)
    else if c == 111 then (8, rest)
    else if c == 120 then (16, rest)
    else (8, t.tail)
  | [48] => (8, [])
  | _ => (10, t)

/-- Whether every underscore stands behind a digit or the mark of a base, and before a digit. -/
def underscoresFit : (behindDigit : Bool) → Text → Bool
  | _, [] => true
  | behindDigit, 95 :: rest =>
    behindDigit && (rest.head?.any fun c => (Text.digitValue? c).isSome) && underscoresFit false
      rest
  | _, _ :: rest => underscoresFit true rest

/-- Reads a whole number within 64 bits, in the base that its head stands for, or says why it cannot
be read. -/
def readNumber (t : Text) : Except Text Int :=
  let syntaxFault : Text := "invalid syntax"
  let (negative, magnitude) : Bool × Text := match t with
    | 45 :: rest => (true, rest)
    | 43 :: rest => (false, rest)
    | _ => (false, t)
  let (base, digits) := baseOf magnitude
  let marked := digits.length + 1 < magnitude.length || magnitude.head? == some 48
  if magnitude.isEmpty || !underscoresFit marked digits then .error syntaxFault
  else
    let plain := digits.filter (· != 95)
    match if plain.isEmpty then (if magnitude == "0" then some 0 else none)
      else Text.readBase? base plain with
    | none => .error syntaxFault
    | some n =>
      if negative then if n ≤ Nat.pow 2 63 then .ok (-(n : Int)) else .error "value out of range"
      else if n < Nat.pow 2 63 then .ok n else .error "value out of range"

/-- What is wrong with the value of a flag. -/
def FlagKind.complaint? (kind : FlagKind) (value : Text) : Option Text :=
  match kind with
  | .text => none
  | .switch =>
    if (readSwitch? value).isSome then none
    else some ("strconv.ParseBool: parsing " ++ value.quoted ++ ": invalid syntax")
  | .number =>
    match readNumber value with
    | .ok _ => none
    | .error reason => some ("strconv.ParseInt: parsing " ++ value.quoted ++ ": " ++ reason)
  | .words =>
    match Csv.read value with
    | .ok _ => none
    | .error fault => some fault.message

/-! ### Reading a command line -/

/-- What is wrong with a command line. -/
inductive FlagFault where
  | badSyntax (word : Text)
  | unknown (name : Text)
  | unknownLetter (letter : UInt8) (letters : Text)
  | valueMissing (word : Text)
  | valueMissingBehind (letter : UInt8) (letters : Text)
  | badValue (flag : Flag) (value reason : Text)
deriving DecidableEq, Repr

/-- The full name of a flag, with its letter in front. -/
def Flag.shown (f : Flag) : Text :=
  match f.letter? with
  | some c => "-" ++ [c] ++ ", --" ++ f.name
  | none => "--" ++ f.name

/-- The wording of a fault. -/
def FlagFault.message : FlagFault → Text
  | .badSyntax word => "bad flag syntax: " ++ word
  | .unknown name => "unknown flag: --" ++ name
  | .unknownLetter letter letters =>
    "unknown shorthand flag: " ++ Text.quotedByte letter ++ " in -" ++ letters
  | .valueMissing word => "flag needs an argument: " ++ word
  | .valueMissingBehind letter letters =>
    "flag needs an argument: " ++ Text.quotedByte letter ++ " in -" ++ letters
  | .badValue flag value reason =>
    "invalid argument " ++ value.quoted ++ " for " ++ flag.shown.quoted ++ " flag: " ++ reason

/-- What a command line says: the values given to flags, in order, and the arguments. -/
structure Parsed where
  values : List (Text × Text) := []
  arguments : List Text := []
deriving DecidableEq, Repr

/-- Gives a flag a value. -/
def Parsed.assign (p : Parsed) (f : Flag) (value : Text) : Except FlagFault Parsed :=
  match f.kind.complaint? value with
  | some reason => .error (.badValue f value reason)
  | none => .ok { p with values := p.values ++ [(f.name, value)] }

/-- What a word of a command line comes to: a new state, or a flag that still needs the next word,
with the fault if there is none. -/
inductive Step where
  | done (p : Parsed)
  | needs (p : Parsed) (flag : Flag) (fault : FlagFault)

/-- Takes a flag that is named in full. -/
def Parsed.long (p : Parsed) (flags : List Flag) (word : Text) : Except FlagFault Step :=
  let body := word.drop 2
  if body.head? == some 45 || body.head? == some 61 then .error (.badSyntax word)
  else
    let (name, value?) : Text × Option Text := match Text.cut? body "=" with
      | some (name, value) => (name, some value)
      | none => (body, none)
    match flags.find? (·.name == name), value? with
    | none, _ => .error (.unknown name)
    | some f, some value => do return .done (← p.assign f value)
    | some f, none =>
      if f.kind == .switch then do return .done (← p.assign f "true")
      else .ok (.needs p f (.valueMissing word))

/-- Takes flags that are named by letters. -/
def Parsed.letters (p : Parsed) (flags : List Flag) : Text → Except FlagFault Step
  | [] => .ok (.done p)
  | c :: rest =>
    match flags.find? (·.letter? == some c) with
    | none => .error (.unknownLetter c (c :: rest))
    | some f =>
      if rest.head? == some 61 && 1 < rest.length then do return .done (← p.assign f rest.tail)
      else if f.kind == .switch then do
        let p ← p.assign f "true"
        p.letters flags rest
      else if rest.isEmpty then .ok (.needs p f (.valueMissingBehind c (c :: rest)))
      else do return .done (← p.assign f rest)

/-- Takes a word. -/
def Parsed.word (p : Parsed) (flags : List Flag) (word : Text) : Except FlagFault Step :=
  if word.head? != some 45 || word.length == 1 then
    .ok (.done { p with arguments := p.arguments ++ [word] })
  else if word.startsWith "--" then p.long flags word
  else p.letters flags word.tail

/-- Reads a command line. -/
def Parsed.read (flags : List Flag) : Parsed → List Text → Except FlagFault Parsed
  | p, [] => .ok p
  | p, [last] =>
    if last == "--" then .ok p
    else
      match p.word flags last with
      | .error e => .error e
      | .ok (.done p) => .ok p
      | .ok (.needs _ _ fault) => .error fault
  | p, word :: next :: rest =>
    if word == "--" then .ok { p with arguments := p.arguments ++ next :: rest }
    else
      match p.word flags word with
      | .error e => .error e
      | .ok (.done p) => Parsed.read flags p (next :: rest)
      | .ok (.needs p f _) =>
        match p.assign f next with
        | .error e => .error e
        | .ok p => Parsed.read flags p rest

/-- The value of a flag: the one given last, or else the usual one. -/
def Parsed.value (p : Parsed) (f : Flag) : Text :=
  ((p.values.reverse.find? (·.1 == f.name)).map (·.2)).getD f.usual

/-- Whether a switch is on. -/
def Parsed.isOn (p : Parsed) (f : Flag) : Bool := (readSwitch? (p.value f)).getD false

/-- The words of all lists given to a flag. -/
def Parsed.words (p : Parsed) (f : Flag) : List Text :=
  (p.values.filter (·.1 == f.name)).flatMap fun (_, v) => (Csv.read v).toOption.getD []

/-! ### Help -/

/-- The word for the values of a flag. -/
def FlagKind.word : FlagKind → Text
  | .text => " string"
  | .number => " int"
  | .switch => []
  | .words => " strings"

/-- A flag as it stands in a list of flags. -/
def Flag.entry (f : Flag) : Text :=
  let names : Text := match f.letter? with
    | some c => "  -" ++ [c] ++ ", --"
    | none => "      --"
  names ++ f.name ++ f.kind.word

/-- What is said about a flag: what it is for and its usual value. -/
def Flag.remark (f : Flag) : Text :=
  if f.kind == .text && !f.usual.isEmpty then f.usage ++ " (default " ++ f.usual.quoted ++ ")"
    else f.usage

/-- A list of flags by name, with what is said about them in a column. -/
def flagList (flags : List Flag) : Text :=
  let flags := flags.mergeSort fun a b => Text.le a.name b.name
  let width := flags.foldl (fun w f => max w f.entry.length) 0
  Text.joinWith "\n" (flags.map fun f =>
    f.entry ++ List.replicate (width - f.entry.length + 3) 32 ++ f.remark)

end ContractAudit.Console
