import NestedMatch.Scan

/-! Match trees: the occurrences of a pattern in a text, each with what its named groups captured
and with the occurrences that the child patterns have in those captures. -/

namespace NestedMatch

/-- One match of a pattern. Groups and children stand in the order of their names; one that took no
part is listed as absent. -/
structure Occurrence where
  whole : Capture
  groups : List (Bytes × Option Capture)
  children : List (Bytes × Option (List Occurrence))

abbrev MatchTree := List Occurrence

namespace PatternTree

/-- The named groups of a match with the stretch of each that took part. -/
def namedSpans : List (Option Bytes) → List (Option Span) → List (Bytes × Option Span)
  | [], _ => []
  | none :: names, spans => namedSpans names spans.tail
  | some name :: names, spans => (name, spans.head?.join) :: namedSpans names spans.tail

/-- What the named groups of a match captured, in a text that begins at position `k`. The first
group of a name counts. -/
def captures (p : Pattern) (m : RawMatch) (text : Bytes) (k : Nat) : Dict (Option Capture) :=
  Dict.ofList ((namedSpans p.matcher.groupNames m.groups).reverse.map fun (name, span) =>
    (name, span.map fun s => s.capture text k))

/-- What the group of a name captured, found by the number of the group. -/
def capturedBy (p : Pattern) (m : RawMatch) (text : Bytes) (k : Nat) (name : Bytes) :
    Option Capture :=
  ((p.groupIndex? name).bind m.group).map fun s => s.capture text k

mutual

/-- The match tree of a text that begins at position `k` of a document. -/
def occurrences : PatternTree → Bytes → Nat → MatchTree
  | .node p branches, text, k => (p.findAllAt text k).map fun m =>
    ⟨m.whole.capture text k, captures p m text k,
      branchOccurrences branches (capturedBy p m text k)⟩

/-- A child is matched against what its group captured, and is absent where its group is. -/
def branchOccurrences :
    List (Bytes × PatternTree) → (Bytes → Option Capture) → List (Bytes × Option MatchTree)
  | [], _ => []
  | (name, child) :: rest, captured =>
    (name, (captured name).map fun c => child.occurrences c.text c.span.start) ::
      branchOccurrences rest captured

end

mutual

/-- The tree with exactly the groups and children that the pattern tree has: what is missing is
absent, and what the pattern tree does not know is dropped. -/
def conform : PatternTree → MatchTree → MatchTree
  | .node p branches, tree => tree.map fun o =>
    ⟨o.whole, Dict.ofList (p.groupNames.map fun name => (name, (o.groups.lookup name).join)),
      conformBranches branches o.children⟩

def conformBranches : List (Bytes × PatternTree) → List (Bytes × Option MatchTree) →
    List (Bytes × Option MatchTree)
  | [], _ => []
  | (name, child) :: rest, given =>
    (name, (given.lookup name).join.map fun tree => child.conform tree) ::
      conformBranches rest given

end

theorem branchOccurrences_eq (bs : List (Bytes × PatternTree))
    (captured : Bytes → Option Capture) :
    branchOccurrences bs captured = bs.map fun b =>
      (b.1, (captured b.1).map fun c => b.2.occurrences c.text c.span.start) := by
  induction bs with
  | nil => rfl
  | cons b rest ih => simp [branchOccurrences, ih]

end PatternTree

namespace Occurrence

mutual

/-- The occurrence with all its stretches moved by `k`. -/
def shift (k : Nat) : Occurrence → Occurrence
  | ⟨whole, groups, children⟩ =>
    ⟨⟨whole.span.shift k, whole.text⟩,
      groups.map fun (name, c) => (name, c.map fun c => ⟨c.span.shift k, c.text⟩),
      shiftChildren k children⟩

def shiftTree (k : Nat) : List Occurrence → List Occurrence
  | [] => []
  | o :: rest => o.shift k :: shiftTree k rest

def shiftChildren (k : Nat) :
    List (Bytes × Option (List Occurrence)) → List (Bytes × Option (List Occurrence))
  | [] => []
  | (name, none) :: rest => (name, none) :: shiftChildren k rest
  | (name, some tree) :: rest => (name, some (shiftTree k tree)) :: shiftChildren k rest

end

end Occurrence
end NestedMatch
