import ContractAudit.Settings.Basic
import ContractAudit.Yaml.Node
import ContractAudit.Yaml.Writer

/-!
Settings as YAML.

Reading goes over older settings. What stands for nothing changes nothing, and items of a list that
stand for nothing are dropped.
-/

namespace ContractAudit.Settings

open Yaml

/-- What a node stands for, when it is a plain scalar. -/
def meaning? : Node → Option Meaning
  | .scalar t true => some (Yaml.meaning t)
  | _ => none

/-- Whether a node stands for nothing. -/
def isNull (n : Node) : Bool :=
  match meaning? n with
  | some .null => true
  | _ => false

/-- Reads a node over an old value. -/
abbrev NodeDecoder (α : Type) := α → Node → Option α

/-- A text: any scalar as it is written. -/
def nodeText : NodeDecoder Text := fun old n =>
  if isNull n then some old
  else
    match n with
    | .scalar t _ => some t
    | _ => none

/-- The words for truth values that count wherever a truth value is needed. -/
def truth? (t : Text) : Option Bool :=
  if [Text.ofString "y", "Y", "yes", "on"].contains t then some true
  else if [Text.ofString "n", "N", "no", "off"].contains t then some false
  else none

/-- A truth value. -/
def nodeBool : NodeDecoder Bool := fun old n =>
  match n, meaning? n with
  | _, some .null => some old
  | _, some (.bool b) => some b
  | .scalar t _, some .text => truth? t
  | .scalar t _, none => truth? t
  | _, _ => none

/-- The integer part of a number up to 2^63. It wraps around at that bound, and numbers too far
below zero count as -2^63. -/
def truncated? (x : Float) : Option Int :=
  if x.isNaN || 9223372036854775808.0 < x then none
  else if x < -9223372036854775808.0 || x == 9223372036854775808.0 then some (-9223372036854775808)
  else some x.toInt64.toInt

/-- An integer within 64 bits. A number with places is cut off. -/
def nodeInt : NodeDecoder Int := fun old n =>
  match meaning? n with
  | some .null => some old
  | some (.int i) => if i < 9223372036854775808 then some i else none
  | some (.float x) => truncated? x
  | _ => none

/-- A list. -/
def nodeList {α : Type} (fresh : α) (item : NodeDecoder α) : NodeDecoder (List α) := fun _ n =>
  if isNull n then some []
  else
    match n with
    | .sequence items => (items.filter (!isNull ·)).mapM (item fresh)
    | _ => none

/-- A record with the given fields. Every key is a scalar; entries with other keys are passed
over. -/
def nodeRecord {α : Type} (fields : List (Text × NodeDecoder α)) : NodeDecoder α := fun old n =>
  if isNull n then some old
  else
    match n with
    | .mapping entries =>
      entries.foldlM (fun r (k, v) => do
        match fields.lookup (← keyName? k) with
        | some read => read r v
        | none => some r) old
    | _ => none

/-- A field of a record, by how it is got and put. -/
def nodeField {α β : Type} (get : α → β) (put : α → β → α) (read : NodeDecoder β) : NodeDecoder α :=
  fun old n => (read (get old) n).map (put old)

/-- Reads an ignore rule. -/
def ignoreNode : NodeDecoder Exemption :=
  nodeRecord [
    ("rule", nodeField (·.rule) (fun r rule => { r with rule }) nodeText),
    ("path", nodeField (·.path) (fun r path => { r with path }) nodeText),
    ("reason", nodeField (·.reason) (fun r reason => { r with reason }) nodeText),
    ("expires", nodeField (·.expires) (fun r expires => { r with expires }) nodeText)]

/-- Reads the settings of the compiler. -/
def compilerNode : NodeDecoder CompilerSettings :=
  nodeRecord [
    ("enabled", nodeField (·.enabled) (fun c enabled => { c with enabled }) nodeBool),
    ("path", nodeField (·.path) (fun c path => { c with path }) nodeText)]

/-- Reads the settings of the cache. -/
def cacheNode : NodeDecoder CacheSettings :=
  nodeRecord [
    ("enabled", nodeField (·.enabled) (fun c enabled => { c with enabled }) nodeBool),
    ("dir", nodeField (·.dir) (fun c dir => { c with dir }) nodeText)]

/-- Reads settings over older ones. -/
def ofNode : NodeDecoder Settings :=
  nodeRecord [
    ("severityThreshold", nodeField (·.severityThreshold)
      (fun s severityThreshold => { s with severityThreshold }) nodeText),
    ("timeBudgetMs", nodeField (·.timeBudget) (fun s timeBudget => { s with timeBudget }) nodeInt),
    ("ignore", nodeField (·.ignore) (fun s ignore => { s with ignore }) (nodeList {} ignoreNode)),
    ("plugins", nodeField (·.rules) (fun s rules => { s with rules }) (nodeList [] nodeText)),
    ("disabledPasses", nodeField (·.disabledPasses)
      (fun s disabledPasses => { s with disabledPasses }) (nodeList [] nodeText)),
    ("failFast", nodeField (·.failFast) (fun s failFast => { s with failFast }) nodeBool),
    ("parallel", nodeField (·.parallel) (fun s parallel => { s with parallel }) nodeBool),
    ("workers", nodeField (·.workers) (fun s workers => { s with workers }) nodeInt),
    ("maxIterations",
      nodeField (·.maxIterations) (fun s maxIterations => { s with maxIterations }) nodeInt),
    ("baseline", nodeField (·.baseline) (fun s baseline => { s with baseline }) nodeText),
    ("solc", nodeField (·.compiler) (fun s compiler => { s with compiler }) compilerNode),
    ("cache", nodeField (·.cache) (fun s cache => { s with cache }) cacheNode),
    ("logLevel", nodeField (·.logLevel) (fun s logLevel => { s with logLevel }) nodeText)]

/-- Reads a YAML text over older settings. A text without a document changes nothing. -/
def readYaml? (old : Settings) (t : Text) : Option Settings :=
  match Yaml.read? t with
  | none => none
  | some none => some old
  | some (some n) => ofNode old n

/-! ### Writing -/

/-- An entry for a text, left out when the text is empty. -/
def textEntry (name : String) (t : Text) : List (Text × Value) :=
  if t.isEmpty then [] else [(Text.ofString name, .text t)]

/-- An entry for a list, left out when the list is empty. -/
def listEntry {α : Type} (name : String) (f : α → Value) (xs : List α) : List (Text × Value) :=
  if xs.isEmpty then [] else [(Text.ofString name, .sequence (xs.map f))]

/-- An ignore rule. -/
def ignoreValue (r : Exemption) : Value :=
  .mapping (List.flatten [
    [("rule", .text r.rule), ("path", .text r.path), ("reason", .text r.reason)],
    textEntry "expires" r.expires])

/-- The entries of settings, in a fixed order. -/
def toEntries (s : Settings) : List (Text × Value) :=
  List.flatten [
    [("severityThreshold", .text s.severityThreshold), ("timeBudgetMs", .int s.timeBudget)],
    listEntry "ignore" ignoreValue s.ignore,
    listEntry "plugins" .text s.rules,
    listEntry "disabledPasses" .text s.disabledPasses,
    [("failFast", .bool s.failFast), ("parallel", .bool s.parallel), ("workers", .int s.workers),
      ("maxIterations", .int s.maxIterations)],
    textEntry "baseline" s.baseline,
    [("solc", .mapping (("enabled", .bool s.compiler.enabled) :: textEntry "path" s.compiler.path)),
      ("cache", .mapping (("enabled", .bool s.cache.enabled) :: textEntry "dir" s.cache.dir)),
      ("logLevel", .text s.logLevel)]]

/-- Settings as a YAML text. -/
def toYaml (s : Settings) : Text := writeMapping (toEntries s)

end ContractAudit.Settings
