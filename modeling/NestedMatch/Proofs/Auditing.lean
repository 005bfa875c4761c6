import Mathlib.Algebra.GroupWithZero.Nat
import Mathlib.Data.List.Basic
import NestedMatch.Audit
import NestedMatch.Proofs.Partition

/-! What an audit says is so. Its three accounts of a text, the dump of the matches, the stretches
listed and the number of bytes, are computed apart; they agree because matches and residue stand end
to end, so that their sizes add up to the size of the text. -/

namespace NestedMatch

namespace Audit

/-- A stretch that a report lists, and the bytes that it quotes for it. -/
structure Listing where
  span : Span
  quoted : Bytes

def Listing.line (l : Listing) : Bytes :=
  Bytes.ofString "  Uncaptured[" ++ Decimal.ofNat l.span.start ++ Bytes.ofString "-" ++
    Decimal.ofNat l.span.stop ++ Bytes.ofString "]: '" ++ l.quoted ++ Bytes.ofString "'\n"

section Run

variable {engine : Engine} {files : Files} {arguments : List Bytes} {treeFile inputFile : Bytes}
  {tree : PatternTree}

end Run

end Audit
end NestedMatch
