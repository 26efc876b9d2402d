import ContractAudit.Calendar
import ContractAudit.Finding.Basic
import ContractAudit.Json.Decode
import ContractAudit.Json.Reader
import ContractAudit.Json.Writer
import ContractAudit.Table

/-!
Baselines: the findings that were accepted earlier, by their fingerprints.

A baseline file is a JSON array of fingerprints, or an object that says of each fingerprint whether
it is accepted. The array is what is written.
-/

namespace ContractAudit

open Calendar

/-- The accepted fingerprints. -/
structure Baseline where
  generatedAt : Instant := .unset
  fingerprints : Table Text Bool := .empty
deriving DecidableEq, Repr

namespace Baseline

/-- The baseline that accepts nothing. -/
def empty : Baseline := {}

/-- Whether a fingerprint is accepted. -/
def accepts (b : Baseline) (fingerprint : Text) : Bool :=
  (b.fingerprints.get? fingerprint).getD false

/-- The baseline that accepts the given fingerprints. -/
def ofFingerprints (fps : List Text) : Baseline :=
  { fingerprints := .ofList (fps.map fun fp => (fp, true)) }

/-- Reads an instant over an old one. -/
def instantDecoder : Json.Decoder Instant
  | old, .null => some old
  | _, .str t => readInstant? t
  | _, _ => none

/-- Reads which fingerprints are accepted. -/
def fingerprintsDecoder : Json.Decoder (Table Text Bool)
  | _, .null => some .empty
  | old, .obj ms =>
    ms.foldlM (fun t (name, v) => (Json.Decoder.bool false v).map fun b => t.set name b) old
  | _, _ => none

/-- Reads a baseline written as an object. -/
def decoder : Json.Decoder Baseline :=
  .record [
    ("generatedAt", .field (·.generatedAt) (fun b generatedAt => { b with generatedAt })
      instantDecoder),
    ("fingerprints", .field (·.fingerprints) (fun b fingerprints => { b with fingerprints })
      fingerprintsDecoder)]

/-- The baseline in a JSON value. -/
def ofJson? (v : Json) : Option Baseline :=
  match Json.Decoder.list [] .text [] v with
  | some fps => some (ofFingerprints fps)
  | none => decoder empty v

/-- Reads a baseline file. -/
def read? (t : Text) : Option Baseline := (Json.read? t).bind ofJson?

/-- The list without an item that equals the one before it. -/
def withoutRepeats : List Text → List Text
  | a :: b :: rest => if a == b then withoutRepeats (b :: rest) else a :: withoutRepeats (b :: rest)
  | ts => ts

/-- The fingerprints of findings, sorted and each once. -/
def fingerprintsOf (fs : List Finding) : List Text :=
  withoutRepeats (Text.sorted ((fs.map (·.fingerprint)).filter (!·.isEmpty)))

/-- Writes a baseline file that accepts findings. -/
def write (fs : List Finding) : Text := (Json.texts (fingerprintsOf fs)).indented

end Baseline

end ContractAudit
