import ContractAudit.Analysis.Facts
import ContractAudit.Text.Columns

/-!
The data-flow facts of a function for readers.
-/

namespace ContractAudit.Report

open Analysis ContractAudit.Flow Source

/-- The values that are known before an instruction, of the variables that it reads. -/
def knownText (i : Instr) (env : Env) : Text :=
  Text.joinWith "," (i.uses.filterMap fun v => (env v).map fun n => v ++ "=" ++ Text.ofNat n)

/-- The lines of the external calls that may have been made. -/
def callLines (c : CallHistory) : Text :=
  let lines := c.1.elems.mergeSort fun a b => a ≤ b
  "[" ++ Text.joinWith " " (lines.map Text.ofNat) ++ "]"

/-- An instruction with the variables live behind it, the values known before it and the external
calls made before it. -/
def instrText (i : Instr) (live : FinSet Var) (env : Env) (calls : CallHistory) : Text :=
  let known := knownText i env
  let knownPart : Text := if known.isEmpty then [] else " const=\x7b" ++ known ++ "\x7d"
  let callPart : Text := if calls.1.elems.isEmpty then [] else " after-calls=" ++ callLines calls
  "    " ++ (Text.ofNat i.line).padLeft 4 ++ "  " ++ (Text.padRight 40 i.text) ++ " live=\x7b" ++
    Text.joinWith "," (Text.sorted live.elems) ++ "\x7d" ++ knownPart ++ callPart ++ "\n"

/-- The lines of instructions, each block under a head of its own. -/
def blockTexts : Option BlockId → List (BlockId × Text) → Text
  | _, [] => []
  | last, (b, t) :: rest =>
    let head : Text := if last == some b then [] else "  b" ++ Text.ofInt b ++ ":\n"
    head ++ t ++ blockTexts (some b) rest

/-- The facts of a function, instruction by instruction. -/
def factsText (f : FlowFacts) : Text :=
  let status : Text := if f.converged then "converged" else "not converged"
  let lines := (f.liveAfter.zip (f.constantsBefore.zip f.callsBefore)).map
    fun ((b, i, live), (_, _, env), (_, _, calls)) => (b.id, instrText i live env calls)
  f.function.name ++ " (" ++ status ++ ")\n" ++ blockTexts none lines ++ "\n"

end ContractAudit.Report
