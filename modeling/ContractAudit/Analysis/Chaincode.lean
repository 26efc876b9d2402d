import ContractAudit.Flow.Graph

/-!
Functions of chaincode, the contracts of permissioned ledgers, as control-flow graphs.
-/

namespace ContractAudit.Analysis

open ContractAudit.Flow

/-- An instruction of a chaincode function. -/
structure ChaincodeInstr where
  defs : List Var
  uses : List Var
  /-- The name of the function that is called, if one is. -/
  callee : Text
  line : Int
deriving DecidableEq, Repr

instance : Statement ChaincodeInstr := ⟨ChaincodeInstr.defs, ChaincodeInstr.uses,
    ChaincodeInstr.callee⟩

/-- A chaincode function. -/
structure ChaincodeFunction where
  name : Text
  file : Text
  graph : Graph ChaincodeInstr

end ContractAudit.Analysis
