import ContractAudit.Main
import ContractAudit.Service.Http
import ContractAudit.View.Analysis
import ContractAudit.View.Settings
import ContractAudit.Proofs.Fixpoint.Convergence
import ContractAudit.Proofs.Flow.Construction
import ContractAudit.Proofs.Flow.ReversePostorder
import ContractAudit.Proofs.Flow.Returns
import ContractAudit.Proofs.Flow.Simulation
import ContractAudit.Proofs.Flow.WellFormed
import ContractAudit.Proofs.Source.Brackets
import ContractAudit.Proofs.Source.Climbing
import ContractAudit.Proofs.Source.Lossless
import ContractAudit.Proofs.Source.Progress
import ContractAudit.Proofs.Source.Statements
import ContractAudit.Proofs.Analysis.FoldingOrder
import ContractAudit.Proofs.Analysis.MissingBodies
import ContractAudit.Proofs.Analysis.NamedReturns
import ContractAudit.Proofs.Analysis.Settling
import ContractAudit.Proofs.Rule.Coverage
import ContractAudit.Proofs.Rule.LedgerWrite
import ContractAudit.Proofs.Rule.Reentrancy
import ContractAudit.Proofs.Finding.Calibration
import ContractAudit.Proofs.Finding.PathPattern
import ContractAudit.Proofs.Finding.Silencing
import ContractAudit.Proofs.Plan.Accounting
import ContractAudit.Proofs.Plan.Disabling
import ContractAudit.Proofs.Plan.OnDemand
import ContractAudit.Proofs.Report.RuleTable
import ContractAudit.Proofs.Settings.RoundTrip
import ContractAudit.Proofs.Service.Confinement
import ContractAudit.Proofs.Cache
