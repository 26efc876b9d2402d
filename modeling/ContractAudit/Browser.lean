import ContractAudit.Report.Text

/-!
A view of the result of a scan for a terminal.

One pane lists the findings with the selected one in detail, the other the passes. Keys move the
selection, switch between the panes and quit.
-/

namespace ContractAudit

open Plan Report

/-- The two panes. -/
inductive Pane where
  | findings
  | passes
deriving DecidableEq, Repr

/-- What is shown: the result of a scan, the selected finding, the pane, and how many lines there
are. -/
structure Browser where
  findings : List Finding
  report? : Option RunReport
  cursor : Nat := 0
  pane : Pane := .findings
  height : Int := 20
deriving Repr

/-- What a key asks for. -/
inductive Command where
  | up
  | down
  | first
  | last
  | switch
  | quit
deriving DecidableEq, Repr

/-- What the key with the given name asks for. -/
def Command.ofKey? (key : Text) : Option Command :=
  if key == "q" || key == "esc" || key == "ctrl+c" then some .quit
  else if key == "up" || key == "k" then some .up
  else if key == "down" || key == "j" then some .down
  else if key == "home" || key == "g" then some .first
  else if key == "end" || key == "G" then some .last
  else if key == "tab" then some .switch
  else none

namespace Browser

/-- The other pane. -/
def otherPane : Pane → Pane
  | .findings => .passes
  | .passes => .findings

/-- Obeys a command. The selection stays on a finding. -/
def obey (b : Browser) : Command → Browser
  | .up => { b with cursor := b.cursor - 1 }
  | .down => if b.cursor + 1 < b.findings.length then { b with cursor := b.cursor + 1 } else b
  | .first => { b with cursor := 0 }
  | .last => { b with cursor := b.findings.length - 1 }
  | .switch => { b with pane := otherPane b.pane }
  | .quit => b

/-- Obeys a key, if it asks for anything, and says whether it asks to quit. -/
def press (b : Browser) (key : Text) : Browser × Bool :=
  match Command.ofKey? key with
  | some c => (b.obey c, c == .quit)
  | none => (b, false)

/-- Takes the number of lines that the terminal has now. -/
def resize (b : Browser) (height : Int) : Browser := { b with height }

/-! ### What is seen -/

/-- How many findings are listed at a time. -/
def rows (b : Browser) : Nat := (max (b.height - 12) 3).toNat

/-- The number of the first finding that is listed. The selected one is the last at most. -/
def firstRow (b : Browser) : Nat := b.cursor + 1 - b.rows

/-- A finding in the list, with a mark if it is selected. -/
def rowText (selected : Bool) (f : Finding) : Text :=
  let mark : Text := if selected then "> " else "  "
  mark ++ f.severity.name.padRight 8 ++ " " ++ f.rule.padRight 26 ++ " " ++ f.file ++ ":" ++
    Text.ofInt f.startLine ++ "\n"

/-- The selected finding in detail. -/
def detailText (f : Finding) : Text :=
  let message : Text := "\n" ++ f.message ++ " " ++ confidenceText f ++ "\n"
  let entity : Text := if f.entity.isEmpty then [] else "in " ++ f.entity ++ "\n"
  let fix : Text := if f.remediation.isEmpty then [] else "fix: " ++ f.remediation ++ "\n"
  let lines : Text := if f.snippet.isEmpty then [] else "\n" ++ f.snippet ++ "\n"
  message ++ entity ++ fix ++ lines

/-- The pane of findings. -/
def findingsText (b : Browser) : Text :=
  let head : Text := "Findings (" ++ Text.ofNat b.findings.length ++ ")   tab: passes  q: quit\n\n"
  match b.findings[b.cursor]? with
  | none => head ++ "  no findings\n"
  | some f =>
    let listed := (b.findings.zipIdx.drop b.firstRow).take b.rows
    head ++ (listed.flatMap fun (f, i) => rowText (i == b.cursor) f) ++ detailText f

/-- A pass in the list. -/
def passText (p : PassRecord) : Text :=
  let status : Text := if p.success then "ok" else "FAILED " ++ p.error
  let time := Duration.text (Duration.round p.duration Duration.microsecond)
  "  " ++ p.id.padRight 16 ++ " " ++ time.padRight 10 ++ " " ++ status ++ "\n"

/-- The pane of passes. -/
def passesText (b : Browser) : Text :=
  let head : Text := "Passes   tab: findings  q: quit\n\n"
  match b.report? with
  | none => head ++ "  no pass report\n"
  | some r =>
    head ++ r.passes.flatMap passText ++ "\n" ++ Text.ofInt r.executed ++ " executed, " ++
      Text.ofInt r.skipped ++ " skipped, total " ++
      Duration.text (Duration.round r.total Duration.microsecond) ++ "\n"

/-- The pane that is shown. -/
def text (b : Browser) : Text :=
  match b.pane with
  | .findings => b.findingsText
  | .passes => b.passesText

end Browser

end ContractAudit
