import Dissect.Document.Tables
import Dissect.Report
import Dissect.Failure
import Dissect.Main
import Dissect.Proofs.Partition
import Dissect.Proofs.Flattening
import Dissect.Proofs.Attributes
import Dissect.Proofs.Acceptance
import Dissect.Proofs.Fields
import Dissect.Proofs.Programs
import Dissect.Proofs.Renaming
import Dissect.Proofs.Renumbering
import Dissect.Proofs.Numbering
import Dissect.Proofs.Relocation
import Dissect.Proofs.Rearrangement
import Dissect.Proofs.Moments
import Dissect.Proofs.Tiling
import Dissect.Proofs.Agreement
import Dissect.Proofs.Written
import Dissect.Proofs.Shapes
import Dissect.Proofs.Image
import Dissect.Proofs.Traps
import Dissect.Proofs.Trapping
import Dissect.Proofs.Sound
import Dissect.Proofs.Lengths
import Dissect.Proofs.Closed
import Dissect.Proofs.Safety
import Dissect.Proofs.Lockstep
import Dissect.Proofs.Limits
import Dissect.Proofs.Truncation
import Dissect.Proofs.Logs
import Dissect.Proofs.Delivery
import Dissect.Proofs.Standing
import Dissect.Proofs.Positions
import Dissect.Proofs.Blame
import Dissect.Proofs.References
import Dissect.Proofs.Located
import Dissect.Proofs.Arithmetic
import Dissect.Proofs.Division
import Dissect.Proofs.Operands
import Dissect.Proofs.Literals
import Dissect.Proofs.Extents
import Dissect.Proofs.Captures
import Dissect.Proofs.Quantities
import Dissect.Proofs.Flags
import Dissect.Proofs.Detection
import Dissect.Proofs.Encodings
import Dissect.Proofs.Dangling
import Dissect.Proofs.Histories
import Dissect.Proofs.LowestTerms
import Dissect.Proofs.Patterns
import Dissect.Proofs.Reports
import Dissect.Proofs.Tallies
import Dissect.Proofs.Mirrors
import Dissect.Proofs.Containment
import Dissect.Proofs.PlainReports
import Dissect.Proofs.SpanEnds
import Dissect.Proofs.HexTexts
