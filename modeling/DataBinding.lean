import DataBinding.Config
import DataBinding.Expr.Arena
import DataBinding.Proofs.Acceptance
import DataBinding.Proofs.Applies
import DataBinding.Proofs.Assigning
import DataBinding.Proofs.Attendance
import DataBinding.Proofs.Caching
import DataBinding.Proofs.Calls
import DataBinding.Proofs.Collections
import DataBinding.Proofs.Constants
import DataBinding.Proofs.Containment
import DataBinding.Proofs.ContentWatches
import DataBinding.Proofs.Deliveries
import DataBinding.Proofs.Detachment
import DataBinding.Proofs.Documents
import DataBinding.Proofs.EarlyExit
import DataBinding.Proofs.Equalities
import DataBinding.Proofs.Extents
import DataBinding.Proofs.Finality
import DataBinding.Proofs.Flushes
import DataBinding.Proofs.GroupValues
import DataBinding.Proofs.Histories
import DataBinding.Proofs.Inheritance
import DataBinding.Proofs.InputRuns
import DataBinding.Proofs.InputWatches
import DataBinding.Proofs.Inputs
import DataBinding.Proofs.Ledger
import DataBinding.Proofs.Moments
import DataBinding.Proofs.Newcomers
import DataBinding.Proofs.NodeEvaluation
import DataBinding.Proofs.Numerals
import DataBinding.Proofs.OneTime
import DataBinding.Proofs.Outcomes
import DataBinding.Proofs.Quoting
import DataBinding.Proofs.Reflection
import DataBinding.Proofs.Refusals
import DataBinding.Proofs.Removal
import DataBinding.Proofs.Returning
import DataBinding.Proofs.Settling
import DataBinding.Proofs.Shielding
import DataBinding.Proofs.Termination
import DataBinding.Proofs.WakeUps
import DataBinding.Script.Session
import DataBinding.Script.Trial
import DataBinding.Value.Inspection
