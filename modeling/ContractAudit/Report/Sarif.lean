import ContractAudit.Report.Json

/-!
Reports in the static analysis results interchange format.

A `Log` holds the table of rules, the results and how the run went. A result refers to its rule by
the rule's place in the table, in which every rule that is given, or that a finding names, stands
once, in the order of first mention.
-/

namespace ContractAudit.Report.Sarif

open Json Plan Rule

/-- A rule in the table. -/
structure Entry where
  id : Text
  title : Text
  severity : Severity
  tags : List Text
deriving DecidableEq, Repr

/-- A finding, with the place of its rule in the table. -/
structure Result where
  ruleIndex : Nat
  finding : Finding
deriving Repr

/-- A pass that failed. -/
structure Notification where
  pass : Text
  message : Text
deriving DecidableEq, Repr

/-- How a run went. -/
structure Invocation where
  success : Bool
  notifications : List Notification
deriving DecidableEq, Repr

/-- What is reported. -/
structure Log where
  rules : List Entry
  results : List Result
  invocation? : Option Invocation
deriving Repr

/-- The entry of a rule. -/
def Entry.ofRule (r : RuleInfo) : Entry := ⟨r.id, r.title, r.severity, r.tags⟩

/-- The entry of a rule of which only a finding is known. -/
def Entry.ofFinding (f : Finding) : Entry := ⟨f.rule, f.rule, f.severity, []⟩

/-- A table of rules, and the place of every rule by its id. -/
structure RuleList where
  rules : List Entry
  index : Table Text Nat
  places : ∀ id, index.get? id = rules.findIdx? (·.id == id)

namespace RuleList

/-- No rules. -/
def empty : RuleList := ⟨[], .empty, fun _ => rfl⟩

/-- Adds a rule, unless it is there. -/
def add (l : RuleList) (e : Entry) : RuleList :=
  if h : l.index.get? e.id = none then
    { rules := l.rules ++ [e]
      index := l.index.set e.id l.rules.length
      places := fun id => by
        rw [List.findIdx?_append, Table.get?_set, ← l.places]
        split
        · next hid => simp [hid, h]
        · next hid => simp [Ne.symm hid] }
  else l

end RuleList

/-- Lists the rule of a finding, and makes the finding a result. -/
def addFinding (s : RuleList × List Result) (f : Finding) : RuleList × List Result :=
  let list := s.1.add (.ofFinding f)
  (list, s.2 ++ [⟨(list.index.get? f.rule).getD 0, f⟩])

/-- How a run went. -/
def Invocation.ofRun (r : RunReport) : Invocation :=
  ⟨r.success, r.failed.map fun p => ⟨p.id, p.error⟩⟩

/-- What is reported about findings under the given rules, and about the run that led to them. -/
def log (fs : List Finding) (rules : List RuleInfo) (run : Option RunReport) : Log :=
  let given := rules.foldl (fun list r => list.add (.ofRule r)) .empty
  let (list, results) := fs.foldl addFinding (given, [])
  ⟨list.rules, results, run.map Invocation.ofRun⟩

/-! ### The document -/

/-- The name of a level, by severity. -/
def level : Severity → Text
  | .medium => "warning"
  | .high | .critical => "error"
  | _ => "note"

/-- A message. -/
def messageJson (t : Text) : Json := .object [("text", .str t)]

/-- A rule in the table. -/
def entryJson (e : Entry) : Json :=
  .object (List.flatten [
    [("id", .str e.id), ("shortDescription", messageJson e.title),
      ("defaultConfiguration", .object [("level", .str (level e.severity))])],
    if e.tags.isEmpty then [] else [("properties", .object (listMember "tags" .str e.tags))]])

/-- The lines of a finding. -/
def regionJson (f : Finding) : Json :=
  .object (List.flatten [
    [("startLine", .int f.startLine)],
    if f.endLine == 0 then [] else [("endLine", .int f.endLine)],
    if f.snippet.isEmpty then [] else [("snippet", messageJson f.snippet)]])

/-- The place of a finding. -/
def locationJson (f : Finding) : Json :=
  .object [("physicalLocation", .object [
    ("artifactLocation", .object [("uri", .str f.file)]), ("region", regionJson f)])]

/-- A finding. -/
def resultJson (r : Result) : Json :=
  let f := r.finding
  .object (List.flatten [
    [("ruleId", .str f.rule), ("ruleIndex", .nat r.ruleIndex), ("level", .str (level f.severity)),
      ("message", messageJson f.message), ("locations", .arr [locationJson f])],
    if f.fingerprint.isEmpty then []
      else [("partialFingerprints", .object [("verazt/v1", .str f.fingerprint)])],
    [("properties", .object (("confidence", number f.confidence) :: textMember "entity"
      f.entity))]])

/-- A pass that failed. -/
def notificationJson (n : Notification) : Json :=
  .object [("level", .str "error"), ("message", messageJson n.message),
    ("descriptor", .object [("id", .str n.pass)])]

/-- How a run went. -/
def invocationJson (i : Invocation) : Json :=
  .object (("executionSuccessful", .bool i.success) ::
    listMember "toolExecutionNotifications" notificationJson i.notifications)

/-- The name of this tool. -/
def toolName : Text := "verazt"

/-- The version of this tool. -/
def toolVersion : Text := "dev"

/-- The tool and its rules. -/
def toolJson (rules : List Entry) : Json :=
  .object [("driver", .object (List.flatten [
    [("name", .str toolName), ("version", .str toolVersion)],
    listMember "rules" entryJson rules]))]

/-- The document of a log. -/
def Log.toJson (l : Log) : Json :=
  .object [
    ("$schema", .str "https://json.schemastore.org/sarif-2.1.0.json"),
    ("version", .str "2.1.0"),
    ("runs", .arr [.object (List.flatten [
      [("tool", toolJson l.rules)],
      listMember "invocations" invocationJson l.invocation?.toList,
      [("results", .arr (l.results.map resultJson))]])])]

end ContractAudit.Report.Sarif
