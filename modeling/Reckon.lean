import Reckon.Decimal
import Reckon.Location
import Reckon.Token
import Reckon.Cursor
import Reckon.Complaint
import Reckon.Arithmetic
import Reckon.Operator
import Reckon.Failure
import Reckon.Evaluation
import Reckon.Lookahead
import Reckon.Outcome
import Reckon.Utf8
import Reckon.Run
import Reckon.Files
import Reckon.CommandLine
import Reckon.Program
import Reckon.Main
import Reckon.Proofs.Acceptance
import Reckon.Proofs.Chains
import Reckon.Proofs.Course
import Reckon.Proofs.Descent
import Reckon.Proofs.Exact
import Reckon.Proofs.Extension
import Reckon.Proofs.Grammar
import Reckon.Proofs.History
import Reckon.Proofs.Idle
import Reckon.Proofs.Interruption
import Reckon.Proofs.Lexemes
import Reckon.Proofs.Lines
import Reckon.Proofs.Lockstep
import Reckon.Proofs.Meaning
import Reckon.Proofs.Mismatch
import Reckon.Proofs.Nesting
import Reckon.Proofs.Places
import Reckon.Proofs.Report
import Reckon.Proofs.Statements
import Reckon.Proofs.Steps
import Reckon.Proofs.Viable
import Reckon.Proofs.Verdict
import Reckon.Proofs.Lossy
import Reckon.Proofs.Recoding
import Reckon.Proofs.Readback
import Reckon.Proofs.Footprint
import Reckon.Proofs.Culprits
import Reckon.Proofs.Standstill
import Reckon.Proofs.Tapes
import Reckon.Proofs.Packing
import Reckon.Proofs.Grouping
import Reckon.Proofs.Listing
import Reckon.Proofs.Counts
import Reckon.Proofs.Scripts
import Reckon.Proofs.Termination
import Reckon.Proofs.Arguments
import Reckon.Proofs.Rearrangement
import Reckon.Proofs.Limits
import Reckon.Proofs.Powers
