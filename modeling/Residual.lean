import Residual.Argument.Decoder
import Residual.Argument.Region
import Residual.Argument.Run
import Residual.Bytes.Access
import Residual.Host.Intrinsic
import Residual.Proofs.Bytes.RoundTrip
import Residual.Proofs.Bytes.Words
import Residual.Sample.TwoRun
import Residual.Sample.WeightedSum
import Residual.Session.Report
import Residual.Session.Run
import Residual.Store.Check
import Residual.Proofs.Argument.Canonical
import Residual.Proofs.Argument.Decoding
import Residual.Proofs.Argument.Writing
import Residual.Proofs.Store.Segment
import Residual.Proofs.Store.Ledger
import Residual.Proofs.Store.Refinement
import Residual.Proofs.Store.Generations
import Residual.Proofs.Function.Numbering
import Residual.Proofs.Guest.Layout
import Residual.Proofs.Lookup.Order
import Residual.Proofs.Guest.LookupArray
import Residual.Proofs.Guest.PendingChain
import Residual.Proofs.Guest.PendingImage
import Residual.Proofs.Guest.PendingWalk
import Residual.Proofs.Session.Modes
import Residual.Proofs.Session.History
import Residual.Proofs.Session.Lifecycle
import Residual.Proofs.Session.Slots
import Residual.Proofs.Session.Identity
import Residual.Proofs.TwoRun
import Residual.Proofs.Lookup.Sorting
import Residual.Proofs.Guest.LookupScan
import Residual.Proofs.Argument.Growth
import Residual.Proofs.Argument.Log
import Residual.Proofs.Argument.Capacity
import Residual.Proofs.Session.Construction
import Residual.Proofs.Session.Drafting
import Residual.Proofs.Argument.Truncation
import Residual.Proofs.Guest.Filling
import Residual.Proofs.Guest.PendingLayout
import Residual.Proofs.Guest.Refusal
import Residual.Proofs.Guest.SlotCells
import Residual.Proofs.Argument.Doubling
import Residual.Proofs.Store.Accounting
import Residual.Proofs.Guest.SharedNumbering
import Residual.Proofs.Lookup.FirstDifference
