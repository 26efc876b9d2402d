import ContractAudit.Json.Decode
import ContractAudit.Settings.Basic

/-!
Settings as JSON: `toJson` writes them, `decoder` reads them over older ones.
-/

namespace ContractAudit.Settings

open Json

/-- An ignore rule. -/
def ignoreJson (r : Exemption) : Json :=
  .object (List.flatten [
    [("rule", .str r.rule), ("path", .str r.path), ("reason", .str r.reason)],
    textMember "expires" r.expires])

/-- The settings of the compiler. -/
def compilerJson (c : CompilerSettings) : Json :=
  .object (("enabled", .bool c.enabled) :: textMember "path" c.path)

/-- The settings of the cache. -/
def cacheJson (c : CacheSettings) : Json :=
  .object (("enabled", .bool c.enabled) :: textMember "dir" c.dir)

/-- Settings with their members in a fixed order. Empty lists and some empty texts are left out. -/
def toJson (s : Settings) : Json :=
  .object (List.flatten [
    [("severityThreshold", .str s.severityThreshold), ("timeBudgetMs", .int s.timeBudget)],
    listMember "ignore" ignoreJson s.ignore,
    listMember "plugins" .str s.rules,
    listMember "disabledPasses" .str s.disabledPasses,
    [("failFast", .bool s.failFast), ("parallel", .bool s.parallel), ("workers", .int s.workers),
      ("maxIterations", .int s.maxIterations)],
    textMember "baseline" s.baseline,
    [("solc", compilerJson s.compiler), ("cache", cacheJson s.cache),
      ("logLevel", .str s.logLevel)]])

open Decoder

/-- Reads an ignore rule. -/
def ignoreDecoder : Decoder Exemption :=
  record [
    ("rule", field (·.rule) (fun r rule => { r with rule }) text),
    ("path", field (·.path) (fun r path => { r with path }) text),
    ("reason", field (·.reason) (fun r reason => { r with reason }) text),
    ("expires", field (·.expires) (fun r expires => { r with expires }) text)]

/-- Reads the settings of the compiler. -/
def compilerDecoder : Decoder CompilerSettings :=
  record [
    ("enabled", field (·.enabled) (fun c enabled => { c with enabled }) bool),
    ("path", field (·.path) (fun c path => { c with path }) text)]

/-- Reads the settings of the cache. -/
def cacheDecoder : Decoder CacheSettings :=
  record [
    ("enabled", field (·.enabled) (fun c enabled => { c with enabled }) bool),
    ("dir", field (·.dir) (fun c dir => { c with dir }) text)]

/-- Reads settings over older ones. -/
def decoder : Decoder Settings :=
  record [
    ("severityThreshold",
      field (·.severityThreshold) (fun s severityThreshold => { s with severityThreshold }) text),
    ("timeBudgetMs", field (·.timeBudget) (fun s timeBudget => { s with timeBudget }) int),
    ("ignore", field (·.ignore) (fun s ignore => { s with ignore }) (list {} ignoreDecoder)),
    ("plugins", field (·.rules) (fun s rules => { s with rules }) (list [] text)),
    ("disabledPasses",
      field (·.disabledPasses) (fun s disabledPasses => { s with disabledPasses }) (list [] text)),
    ("failFast", field (·.failFast) (fun s failFast => { s with failFast }) bool),
    ("parallel", field (·.parallel) (fun s parallel => { s with parallel }) bool),
    ("workers", field (·.workers) (fun s workers => { s with workers }) int),
    ("maxIterations",
      field (·.maxIterations) (fun s maxIterations => { s with maxIterations }) int),
    ("baseline", field (·.baseline) (fun s baseline => { s with baseline }) text),
    ("solc", field (·.compiler) (fun s compiler => { s with compiler }) compilerDecoder),
    ("cache", field (·.cache) (fun s cache => { s with cache }) cacheDecoder),
    ("logLevel", field (·.logLevel) (fun s logLevel => { s with logLevel }) text)]

end ContractAudit.Settings
