import NestedMatch.Audit
import NestedMatch.Bench
import NestedMatch.Decode
import NestedMatch.Engine.Table
import NestedMatch.Main
import NestedMatch.Residue.Stream
import NestedMatch.Proofs.Order
import NestedMatch.Proofs.Partition
import NestedMatch.Proofs.Captures
import NestedMatch.Proofs.Faithful
import NestedMatch.Proofs.Reading
import NestedMatch.Proofs.Meaning
import NestedMatch.Proofs.Boundary
import NestedMatch.Proofs.Leftmost
import NestedMatch.Proofs.Locality
import NestedMatch.Proofs.Spans
import NestedMatch.Proofs.Faults
import NestedMatch.Proofs.Safety
import NestedMatch.Proofs.Delimited
import NestedMatch.Proofs.Sharing
import NestedMatch.Proofs.Undeclared
import NestedMatch.Proofs.DumpInjective
import NestedMatch.Proofs.FirstFault
import NestedMatch.Proofs.Undefined
import NestedMatch.Proofs.Loading
import NestedMatch.Proofs.Building
import NestedMatch.Proofs.RoundTrip
import NestedMatch.Proofs.Auditing
import NestedMatch.Proofs.Termination
import NestedMatch.Proofs.Stepping
import NestedMatch.Proofs.CapturedText
import NestedMatch.Proofs.Multiplicity
import NestedMatch.Proofs.Positions
import NestedMatch.Proofs.Numerals
import NestedMatch.Proofs.Integers
import NestedMatch.Proofs.Grid
import NestedMatch.Proofs.Rounding
import NestedMatch.Proofs.FloatText
import NestedMatch.Proofs.Floats
import NestedMatch.Proofs.Walking
import NestedMatch.Proofs.Ownership
