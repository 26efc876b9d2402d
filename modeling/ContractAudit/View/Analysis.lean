import ContractAudit.Rule.Rulebook
import ContractAudit.View.Flow
import ContractAudit.View.Plan

/-!
JSON views of the artifacts of an analysis and of its findings.
-/

namespace ContractAudit.View

open Source Domain Analysis Rule

/-- A symbol table. -/
def symbols (t : SymbolTable) : Json :=
  let unitOf (name : Text) := ((t.units.get? name).map (·.path)).getD []
  let symbol (s : Symbol) := object [("qualified", text s.name), ("line", .nat s.function.line),
    ("contract", text s.contract.name), ("unit", text s.unit.path)]
  object [
    ("contracts", .obj (t.contracts.entries.map fun (name, c) =>
      (name, object [("line", .nat c.line), ("unit", text (unitOf name))]))),
    ("functions", table symbol t.functions),
    ("duplicates", texts t.duplicates)]

/-- A type index. -/
def types (t : TypeIndex) : Json :=
  object [("state", table (table text) t.stateTypes), ("locals", table (table text) t.locals),
    ("constants", table (table word) t.constants)]

/-- A version constraint. -/
def versionPragma (p : VersionPragma) : Json :=
  object [("file", text p.file), ("line", .nat p.line), ("constraint", text p.constraint),
    ("version", text ((p.version?.map Version.text).getD [])), ("floating", .bool p.isFloating),
    ("missing", .bool p.isMissing), ("before080", .bool (p.isBefore checkedArithmetic))]

/-- A call graph. -/
def callGraph (g : CallGraph) : Json :=
  object [("callees", table texts g.callees), ("callers", table texts g.callers),
    ("roots", texts g.roots), ("reachable", texts (Text.sorted g.reachable))]

/-- The external calls made before an instruction. -/
def callHistory (c : CallHistory) : Json :=
  let truth (b : Bool) : Text := if b then "true" else "false"
  .arr [list Json.nat (c.1.elems.mergeSort (· ≤ ·)), text (c.2.text truth)]

/-- The facts of a function. -/
def facts (f : FlowFacts) : Json :=
  let ids := f.function.graph.ids
  let values := table fun (v : Flat Nat) => text (v.text Text.ofNat)
  object [("converged", .bool f.converged),
    ("live", object (solutionMembers set .empty ids f.live)),
    ("reaching", object (solutionMembers definitions .empty ids f.reaching)),
    ("constants", object (solutionMembers values .empty ids f.constants)),
    ("calls", object (solutionMembers callHistory (.empty, .bottom) ids f.calls)),
    ("walkLive", list (fun (b, i, live) => .arr [.int b.id, text i.text, set live]) f.liveAfter),
    ("walkConst", list (fun (b, i, env) => .arr [.int b.id,
      .obj (i.uses.filterMap fun u => (env u).map fun n => (u, word n)),
      option word (constantValue? i.value env)]) f.constantsBefore),
    ("walkCalls", list (fun (b, i, c) => .arr [.int b.id, .nat i.line, callHistory c])
      f.callsBefore)]

/-- A named part of an analysis, or null. -/
def part (a : Audit) (name : Text) : Json :=
  if name == "symbols" then option symbols (symbols? a)
  else if name == "types" then option types (types? a)
  else if name == "pragmas" then option (list versionPragma) (pragmas? a)
  else if name == "diagnostics" then option texts (diagnostics? a)
  else if name == "callgraph" then option callGraph (callGraph? a)
  else if name == "facts" then option (table facts) (facts? a)
  else .null

/-- What a name stands for inside a contract. -/
def resolved (a : Audit) (contract name : Text) : Json :=
  object [
    ("fn", option (fun s => text s.name) ((symbols? a).bind (·.resolve? contract name))),
    ("stateType", option text ((types? a).bind (·.typeOfState? contract name))),
    ("constant", option word ((types? a).bind (·.constant? contract name)))]

/-- A finding; its confidence has six places. -/
def finding (f : Finding) : Json :=
  object [("ruleId", text f.rule), ("severity", text f.severity.name),
    ("confidence", .str (Decimal.fixed 6 f.confidence)), ("detectorId", text f.detector),
    ("file", text f.file), ("startLine", .int f.startLine), ("endLine", .int f.endLine),
    ("snippet", text f.snippet), ("entity", text f.entity), ("message", text f.message),
    ("rationale", text f.rationale), ("remediation", text f.remediation),
    ("references", texts f.references), ("fingerprint", text f.fingerprint)]

/-- A list of findings. -/
def findings (fs : List Finding) : Json := list finding fs

/-- A rule. -/
def rule (r : RuleInfo) : Json :=
  object [("id", text r.id), ("title", text r.title), ("severity", text r.severity.name),
    ("language", text r.language.name), ("requires", texts r.requires), ("tags", texts r.tags)]

end ContractAudit.View
