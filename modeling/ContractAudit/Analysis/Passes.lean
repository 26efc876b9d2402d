import ContractAudit.Analysis.Calls
import ContractAudit.Analysis.Chaincode
import ContractAudit.Analysis.Facts
import ContractAudit.Analysis.Version
import ContractAudit.Compiler.Output
import ContractAudit.Plan.Roster

/-!
The built-in passes.

Each pass reads the artifacts of the passes it requires and publishes its own. Every kind of
artifact has a name, and an artifact of another kind under that name counts as missing.
-/

namespace ContractAudit.Analysis

open Source ContractAudit.Flow Plan

/-- What a pass publishes. -/
inductive Artifact where
  | symbols (table : SymbolTable)
  | pragmas (list : List VersionPragma)
  | types (index : TypeIndex)
  | callGraph (graph : CallGraph)
  | diagnostics (messages : List Text)
  | facts (facts : Facts)
  | chaincode (functions : List ChaincodeFunction)
  | compiled (trees : Table Text Compiler.Output)

/-- The state of an analysis of source units. -/
abbrev Audit := Session SourceUnit Artifact Program

/-- A pass over source units. -/
abbrev AuditPass := Pass SourceUnit Artifact Program

/-! ### Names of passes and artifacts -/

/-- The pass that indexes contracts and functions. -/
def symbolTableId : Text := "symbol-table"

/-- The pass that reads version pragmas. -/
def syntaxAnalysisId : Text := "syntax-analysis"

/-- The pass that indexes types and folds constants. -/
def typeIndexId : Text := "type-index"

/-- The pass that resolves calls. -/
def callGraphId : Text := "call-graph"

/-- The pass that solves data-flow problems. -/
def dataFlowId : Text := "data-flow"

/-- The pass that reads chaincode. -/
def chaincodeId : Text := "go-ssa"

/-- The name of the symbol table. -/
def symbolsKey : Text := "symbols"

/-- The name of the version pragmas. -/
def pragmasKey : Text := "pragmas"

/-- The name of the type index. -/
def typesKey : Text := "types"

/-- The name of the call graph. -/
def callGraphKey : Text := "call-graph"

/-- The name of the messages about functions that cannot be lowered. -/
def diagnosticsKey : Text := "ir.diagnostics"

/-- The name of the data-flow facts. -/
def factsKey : Text := "data-flow.facts"

/-- The name of the chaincode functions. -/
def chaincodeKey : Text := "go.functions"

/-- The name of the compiler's syntax trees. -/
def compiledKey : Text := "solc.ast"

/-! ### Published artifacts -/

/-- The symbol table of an analysis. -/
def symbols? (a : Audit) : Option SymbolTable :=
  match a.artifacts.get? symbolsKey with
  | some (.symbols t) => some t
  | _ => none

/-- The version pragmas of an analysis. -/
def pragmas? (a : Audit) : Option (List VersionPragma) :=
  match a.artifacts.get? pragmasKey with
  | some (.pragmas ps) => some ps
  | _ => none

/-- The type index of an analysis. -/
def types? (a : Audit) : Option TypeIndex :=
  match a.artifacts.get? typesKey with
  | some (.types t) => some t
  | _ => none

/-- The call graph of an analysis. -/
def callGraph? (a : Audit) : Option CallGraph :=
  match a.artifacts.get? callGraphKey with
  | some (.callGraph g) => some g
  | _ => none

/-- The messages about functions that could not be lowered. -/
def diagnostics? (a : Audit) : Option (List Text) :=
  match a.artifacts.get? diagnosticsKey with
  | some (.diagnostics ms) => some ms
  | _ => none

/-- The data-flow facts of an analysis. -/
def facts? (a : Audit) : Option Facts :=
  match a.artifacts.get? factsKey with
  | some (.facts f) => some f
  | _ => none

/-- The chaincode functions of an analysis. -/
def chaincode? (a : Audit) : Option (List ChaincodeFunction) :=
  match a.artifacts.get? chaincodeKey with
  | some (.chaincode fs) => some fs
  | _ => none

/-! ### Passes -/

/-- Indexes contracts, inheritance and functions. -/
def runSymbols (a : Audit) : Audit × Option Failure :=
  ((a.traverse "ast").store symbolsKey (.symbols (.ofUnits a.sources)), none)

/-- Reads the version pragmas. -/
def runSyntax (a : Audit) : Audit × Option Failure :=
  ((a.traverse "ast").store pragmasKey (.pragmas (a.sources.map VersionPragma.ofUnit)), none)

/-- Indexes types and folds constants. -/
def runTypes (a : Audit) : Audit × Option Failure :=
  match symbols? a with
  | none => (a, some (.missingArtifact typeIndexId symbolsKey))
  | some t => ((a.traverse "ast").store typesKey (.types (.ofSymbols t)), none)

/-- Lowers every function. It fails only when nothing could be lowered, and notes the functions that
could not otherwise. -/
def runLowering (a : Audit) : Audit × Option Failure :=
  let a := a.traverse "ast"
  let (program, failures) := lower a.sources
  let messages := failures.map (·.message)
  if program.functions.isEmpty && !failures.isEmpty then
    (a, some (.plain (Text.joinWith "\n" messages)))
  else ((a.store diagnosticsKey (.diagnostics messages)).setIR program, none)

/-- Builds the call graph. A modifier without a body aborts the whole analysis. -/
def runCalls (a : Audit) : Audit × Option Failure :=
  match symbols? a, a.ir? with
  | none, _ => (a, some (.missingArtifact callGraphId symbolsKey))
  | some _, none => (a, some (.missingIR callGraphId))
  | some t, some p =>
    let a := a.traverse "ir"
    match CallGraph.ofProgram t p with
    | .ok g => (a.store callGraphKey (.callGraph g), none)
    | .error m =>
      ({ a with aborted := true }, some (.plain ("modifier " ++ m.modifier ++ " has no body")))

/-- The number of iterations a solver may take unless a limit is set. -/
def defaultIterations : Int := 10000

/-- Solves the data-flow problems of every function. -/
def runDataFlow (limit : Int) (a : Audit) : Audit × Option Failure :=
  match types? a, a.ir? with
  | none, _ => (a, some (.missingArtifact dataFlowId typesKey))
  | some _, none => (a, some (.missingIR dataFlowId))
  | some t, some p =>
    let limit := if limit ≤ 0 then defaultIterations else limit
    let a := p.functions.foldl (fun a _ => a.traverse "cfg") a
    (a.store factsKey (.facts (Facts.ofProgram p t limit)), none)

/-- Publishes the chaincode functions. Source units hold none. -/
def runChaincode (a : Audit) : Audit × Option Failure :=
  (a.store chaincodeKey (.chaincode []), none)

/-- The built-in passes, in order. `limit` bounds the iterations of a solver. -/
def builtinPasses (limit : Int) : List AuditPass := [
  { id := symbolTableId, name := "Symbol table"
    description := "Indexes contracts, inheritance and functions"
    level := .program, representation := .ast, requires := [], tag := 0, run := runSymbols },
  { id := syntaxAnalysisId, name := "Syntax analysis"
    description := "Parses compiler version pragmas"
    level := .program, representation := .ast, requires := [], tag := 1, run := runSyntax },
  { id := typeIndexId, name := "Type index"
    description := "Records declared types and folds constant state variables"
    level := .contract, representation := .ast, requires := [symbolTableId], tag := 2
    run := runTypes },
  { id := irGeneration, name := "IR generation"
    description := "Lowers function bodies to control-flow graphs"
    level := .function, representation := .ast, requires := [symbolTableId], tag := 3
    run := runLowering },
  { id := callGraphId, name := "Call graph"
    description := "Resolves internal calls between functions"
    level := .function, representation := .ir, requires := [symbolTableId, irGeneration], tag := 4
    run := runCalls },
  { id := dataFlowId, name := "Data flow"
    description := "Solves liveness, reaching definitions, constants and call ordering"
    level := .function, representation := .ir, requires := [irGeneration, typeIndexId], tag := 5
    run := runDataFlow limit },
  { id := chaincodeId, name := "Go SSA"
    description := "Builds SSA control-flow graphs for Go chaincode"
    level := .program, representation := .ast, requires := [], tag := 6, run := runChaincode }]

/-- A roster of passes over source units. -/
abbrev AuditRoster := Roster SourceUnit Artifact Program

/-- The roster of every built-in pass. -/
def fullRoster (policy : RunPolicy) (limit : Int) : AuditRoster :=
  .ofPasses policy (builtinPasses limit)

/-- The disabled pass and every pass that needs it. An unknown pass cannot be disabled. -/
def dropped (r : AuditRoster) (id : Text) : Except Failure (List Text) :=
  if (r.pass? id).isNone then .error (.plain ("disabling " ++ id ++ ": pass not found"))
  else
    match r.graph.descendants id with
    | .ok ids => .ok (id :: ids)
    | .error c => .error c.failure

/-- The roster of the built-in passes without the disabled ones and those that need them. -/
def builtinRoster (policy : RunPolicy) (limit : Int) (disabled : List Text) :
    Except Failure AuditRoster := do
  let r := fullRoster policy limit
  return r.disable (← disabled.mapM (dropped r)).flatten

end ContractAudit.Analysis
