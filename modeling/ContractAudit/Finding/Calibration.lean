import ContractAudit.Finding.Basic

/-!
Calibration: findings of one rule at one line are merged into one, which is surer than they are on
average.
-/

namespace ContractAudit.Finding

/-- Where a finding is and what it is about. Findings with one spot corroborate each other. -/
structure Spot where
  file : Text
  line : Int
  rule : Text
deriving DecidableEq, Repr

/-- The spot of a finding. -/
def spot (f : Finding) : Spot := ⟨f.file, f.startLine, f.rule⟩

/-- The spots of findings, each once, in order of first occurrence. -/
def spots (fs : List Finding) : List Spot :=
  fs.foldl (fun seen f => if f.spot ∈ seen then seen else seen ++ [f.spot]) []

/-- The highest severity among findings, the last one of equally high ones. -/
def topSeverity (first : Severity) (fs : List Finding) : Severity :=
  fs.foldl (fun top f => if f.severity.atLeast top then f.severity else top) first

/-- The average confidence and a tenth more, at most 0.99. A confidence below zero counts as
none. -/
def corroborated (fs : List Finding) : Float :=
  let sum := fs.foldl (fun sum f => sum + (if f.confidence < 0 then 0 else f.confidence)) 0.0
  let raised := sum / fs.length.toFloat + 0.1
  if 0.99 < raised then 0.99 else raised

/-- One finding for findings at one spot: the first, with the highest severity and the raised
confidence. A finding alone stays as it is. -/
def merge (fs : List Finding) : Option Finding :=
  match fs with
  | [] => none
  | [f] => some f
  | f :: _ => some { f with severity := topSeverity f.severity fs, confidence := corroborated fs }

/-- One finding for each spot, in order of first occurrence. -/
def calibrate (fs : List Finding) : List Finding :=
  (spots fs).filterMap fun s => merge (fs.filter fun f => f.spot == s)

end ContractAudit.Finding
