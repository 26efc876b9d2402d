import ContractAudit.Text.Caseless

/-!
Severities of findings.

There are four severities. A finding that was not made here may name another one, which ranks below
all four.
-/

namespace ContractAudit

/-- How bad a finding is. -/
inductive Severity where
  | low
  | medium
  | high
  | critical
  | other (name : Text)
deriving DecidableEq, Repr

namespace Severity

/-- The name of a severity. -/
def name : Severity → Text
  | .low => "low"
  | .medium => "medium"
  | .high => "high"
  | .critical => "critical"
  | .other name => name

/-- The severity with exactly the given name. -/
def ofName (t : Text) : Severity :=
  if t == "low" then .low
  else if t == "medium" then .medium
  else if t == "high" then .high
  else if t == "critical" then .critical
  else .other t

/-- The severity that a user names, in any case. An unknown name stands for low. -/
def read (t : Text) : Severity :=
  match ofName t.lower with
  | .other _ => .low
  | s => s

/-- The rank of a severity; unknown ones rank lowest. -/
def rank : Severity → Nat
  | .other _ => 0
  | .low => 1
  | .medium => 2
  | .high => 3
  | .critical => 4

/-- Whether a severity ranks at least as high as another. -/
def atLeast (a b : Severity) : Bool := b.rank ≤ a.rank

end Severity

end ContractAudit
