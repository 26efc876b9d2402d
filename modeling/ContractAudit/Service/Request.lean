import ContractAudit.Json.Decode
import ContractAudit.Json.Fault

/-!
Requests to the analyzer service.

A request is a JSON object. `AuditRequest.read` reads it, or says what is wrong with it: a text that
is no JSON, or the first value that is of another kind than its member takes.
-/

namespace ContractAudit.Service

open Json

/-- A source given inline, with the relative path that it is analysed under. -/
structure InlineSource where
  name : Text := []
  content : Text := []
deriving DecidableEq, Repr

/-- What to analyse: inline sources, or a path below the root of the server. -/
structure AuditRequest where
  sources : List InlineSource := []
  path : Text := []
  severityThreshold : Text := []
  rules : List Text := []
  disabledPasses : List Text := []
  /-- The time that the analysis may take in milliseconds; zero for the usual one. -/
  timeBudget : Int := 0
deriving DecidableEq, Repr

open Decoder

/-- Reads a source. -/
def sourceDecoder : Decoder InlineSource :=
  record [
    ("name", field (·.name) (fun s name => { s with name }) text),
    ("content", field (·.content) (fun s content => { s with content }) text)]

/-- Reads a request. -/
def requestDecoder : Decoder AuditRequest :=
  record [
    ("sources", field (·.sources) (fun r sources => { r with sources }) (list {} sourceDecoder)),
    ("path", field (·.path) (fun r path => { r with path }) text),
    ("severityThreshold",
      field (·.severityThreshold) (fun r severityThreshold => { r with severityThreshold }) text),
    ("rules", field (·.rules) (fun r rules => { r with rules }) (list [] text)),
    ("disabledPasses",
      field (·.disabledPasses) (fun r disabledPasses => { r with disabledPasses }) (list [] text)),
    ("timeBudgetMs", field (·.timeBudget) (fun r timeBudget => { r with timeBudget }) int)]

/-! ### What is wrong with a request -/

/-- What a value is to be, with the name of it in a complaint. -/
inductive Form where
  | text
  | number
  | list (name : Text) (item : Form)
  | record (name short : Text) (fields : List (Text × Form))

/-- The name of a form. -/
def Form.name : Form → Text
  | .text => "string"
  | .number => "int"
  | .list name _ => name
  | .record name _ _ => name

/-- Where a value stands: the record it is in, and the names on the way to it. -/
structure Spot where
  record : Text := []
  way : List Text := []

/-- The complaint about a value that is of another kind than it is to be. -/
def Spot.complaint (s : Spot) (found : Text) (form : Form) : Text :=
  let into : Text := if s.way.isEmpty then "Go value"
    else "Go struct field " ++ s.record ++ "." ++ Text.joinWith "." s.way
  "json: cannot unmarshal " ++ found ++ " into " ++ into ++ " of type " ++ form.name

/-- The word for a kind of value. -/
def kindText : Json → Text
  | .null => "null"
  | .bool _ => "bool"
  | .num _ => "number"
  | .str _ => "string"
  | .arr _ => "array"
  | .obj _ => "object"

mutual

/-- The complaint about the first value that is of another kind than it is to be. -/
def mismatch? (s : Spot) (form : Form) : Json → Option Text
  | .null => none
  | .str t => match form with
    | .text => none
    | _ => some (s.complaint (kindText (.str t)) form)
  | .num spelling => match form with
    | .number =>
      if (readInt? spelling).isSome then none else some (s.complaint ("number " ++ spelling) form)
    | _ => some (s.complaint "number" form)
  | .bool b => some (s.complaint (kindText (.bool b)) form)
  | .arr items => match form with
    | .list _ item => itemMismatch? s item items
    | _ => some (s.complaint "array" form)
  | .obj members => match form with
    | .record _ short fields => memberMismatch? s short fields members
    | _ => some (s.complaint "object" form)

/-- The complaint about the first item that is of another kind than it is to be. -/
def itemMismatch? (s : Spot) (form : Form) : List Json → Option Text
  | [] => none
  | v :: rest => match mismatch? s form v with
    | some e => some e
    | none => itemMismatch? s form rest

/-- The complaint about the first member that is of another kind than it is to be. -/
def memberMismatch? (s : Spot) (short : Text) (fields : List (Text × Form)) :
    List (Text × Json) → Option Text
  | [] => none
  | (name, v) :: rest =>
    let wrong := match field? (fields.map fun (n, form) => (n, n, form)) name with
      | some (n, form) => mismatch? ⟨short, s.way ++ [n]⟩ form v
      | none => none
    match wrong with
    | some e => some e
    | none => memberMismatch? s short fields rest

end

/-- What a source is to be. -/
def sourceForm : Form := .record "api.Source" "Source" [("name", .text), ("content", .text)]

/-- What a request is to be. -/
def requestForm : Form :=
  .record "api.AnalyzeRequest" "AnalyzeRequest" [
    ("sources", .list "[]api.Source" sourceForm), ("path", .text), ("severityThreshold", .text),
    ("rules", .list "[]string" .text), ("disabledPasses", .list "[]string" .text),
    ("timeBudgetMs", .number)]

/-- Reads a request out of a text. -/
def AuditRequest.read (t : Text) : Except Text AuditRequest :=
  match Json.read? t with
  | none => .error ((fault? t).getD "unexpected end of JSON input")
  | some v =>
    match requestDecoder {} v with
    | some r => .ok r
    | none => .error ((mismatch? {} requestForm v).getD [])

end ContractAudit.Service
