import NestedMatch.Dict
import NestedMatch.Residue

/-! One residue shared by several consumers. Each consumer has a name and holds the piece it took
last; what one takes the others do not get. -/

namespace NestedMatch.Residue

structure Stream where
  residue : Residue
  held : Dict (Option Span)

/-- What can be asked of a shared residue. -/
inductive Request where
  | next
  | nextSpan
  /-- Everything that is left. -/
  | rest
  /-- The consumer takes a piece: its first one, or the one after the one it holds. -/
  | take (consumer : Bytes)
  /-- The first consumer holds what the second one does; nothing is taken. -/
  | copy (consumer other : Bytes)
  | look (consumer : Bytes)

inductive Answer where
  | piece (text : Option Bytes)
  | span (span : Option Span)
  | pieces (texts : List Bytes)

namespace Stream

def first : Stream := ⟨Residue.first, []⟩

/-- What a consumer holds: nothing before its first piece and after the last one. -/
def holds (s : Stream) (consumer : Bytes) : Option Span := (s.held.lookup consumer).join

def piece (text : Bytes) (span : Option Span) : Answer := .piece (span.map fun s => s.cut text)

def answer (p : Pattern) (text : Bytes) (s : Stream) : Request → Answer × Stream
  | .next => (piece text (s.residue.next p text).1, ⟨(s.residue.next p text).2, s.held⟩)
  | .nextSpan => (.span (s.residue.next p text).1, ⟨(s.residue.next p text).2, s.held⟩)
  | .rest => (.pieces ((s.residue.remaining p text).map fun span => span.cut text),
      ⟨s.residue.done text, s.held⟩)
  | .take consumer => (piece text (s.residue.next p text).1,
      ⟨(s.residue.next p text).2, s.held.insert consumer (s.residue.next p text).1⟩)
  | .copy consumer other => (piece text (s.holds other),
      ⟨s.residue, s.held.insert consumer (s.holds other)⟩)
  | .look consumer => (piece text (s.holds consumer), s)

def answers (p : Pattern) (text : Bytes) : Stream → List Request → List Answer
  | _, [] => []
  | s, r :: rest => (s.answer p text r).1 :: answers p text (s.answer p text r).2 rest

end Stream
end NestedMatch.Residue
