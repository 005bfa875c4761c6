import NestedMatch.NamedTree
import NestedMatch.Span

/-! Patterns, the engine that compiles and searches them, and pattern trees. What a pattern means is
the engine's affair: it is a parameter of everything that follows. -/

namespace NestedMatch

/-- One match: the stretch matched, and for groups 1, 2, ... the stretch of each that took part. -/
structure RawMatch where
  whole : Span
  groups : List (Option Span)
deriving DecidableEq, Repr

/-- A compiled pattern: the names of groups 1, 2, ..., where they have one, and the search of a
text for a match that starts at or after a position. -/
structure Matcher where
  groupNames : List (Option Bytes)
  search : Bytes → Nat → Option RawMatch

/-- Compiles the text of a pattern, or says why not. -/
abbrev Engine := Bytes → Except Bytes Matcher

structure Pattern where
  source : Bytes
  matcher : Matcher

namespace RawMatch

def shift (k : Nat) (m : RawMatch) : RawMatch :=
  ⟨m.whole.shift k, m.groups.map (Option.map (Span.shift k))⟩

/-- All groups, the whole match as group 0 in front. -/
def allGroups (m : RawMatch) : List (Option Span) := some m.whole :: m.groups

/-- The stretch of a group by its number, where it took part. -/
def group (m : RawMatch) (i : Nat) : Option Span := m.allGroups[i]?.join

/-- The stretch matched starts at or after `i` and lies inside the text. -/
def Within (text : Bytes) (i : Nat) (m : RawMatch) : Prop :=
  i ≤ m.whole.start ∧ m.whole.start ≤ m.whole.stop ∧ m.whole.stop ≤ text.length

instance (text : Bytes) (i : Nat) (m : RawMatch) : Decidable (m.Within text i) :=
  inferInstanceAs (Decidable (_ ∧ _ ∧ _))

theorem shift_shift (j k : Nat) (m : RawMatch) : (m.shift j).shift k = m.shift (j + k) := by
  simp [shift, Span.shift_shift, Function.comp_def]

theorem group_shift (k : Nat) (m : RawMatch) (i : Nat) :
    (m.shift k).group i = (m.group i).map (Span.shift k) := by
  have h : (m.shift k).allGroups = m.allGroups.map (Option.map (Span.shift k)) := rfl
  rw [group, group, h, List.getElem?_map, Option.join_map_eq_map_join]

end RawMatch

namespace Pattern

/-- The named groups in the order of their numbers. -/
def groupNames (p : Pattern) : List Bytes := p.matcher.groupNames.filterMap id

/-- The number of groups, the whole match counted as group 0. -/
def groupCount (p : Pattern) : Nat := p.matcher.groupNames.length + 1

/-- The number of the group with this name, counted from 1. -/
def groupIndex? (p : Pattern) (name : Bytes) : Option Nat :=
  (p.matcher.groupNames.findIdx? (· == some name)).map (· + 1)

def hasGroup (p : Pattern) (name : Bytes) : Bool := p.groupNames.contains name

/-- The engine's answer to a search from position `i`. An answer outside the text or before `i`
is none. -/
def find? (p : Pattern) (text : Bytes) (i : Nat) : Option RawMatch :=
  (p.matcher.search text i).filter fun m => decide (m.Within text i)

theorem within_of_find? {p : Pattern} {text : Bytes} {i : Nat} {m : RawMatch}
    (h : p.find? text i = some m) : m.Within text i := by
  simpa using (Option.filter_eq_some_iff.1 h).2

theorem hasGroup_iff {p : Pattern} {name : Bytes} :
    p.hasGroup name = true ↔ some name ∈ p.matcher.groupNames := by
  simp [hasGroup, groupNames]

theorem isSome_groupIndex? (p : Pattern) (name : Bytes) :
    (p.groupIndex? name).isSome = p.hasGroup name := by
  rw [Bool.eq_iff_iff, hasGroup_iff]
  simp [groupIndex?, List.findIdx?_isSome]

end Pattern

/-- A pattern, and under the names of its groups the patterns for what they capture. A child's name
need not be a group of its parent; such a child never takes part. -/
abbrev PatternTree := NamedTree Pattern

namespace PatternTree

def pattern (t : PatternTree) : Pattern := t.label

def source (t : PatternTree) : Bytes := t.pattern.source

def groupNames (t : PatternTree) : List Bytes := t.pattern.groupNames

def hasGroup (t : PatternTree) (name : Bytes) : Bool := t.pattern.hasGroup name

def children (t : PatternTree) : Dict PatternTree := t.branches

def child? (t : PatternTree) (name : Bytes) : Option PatternTree := t.branch? name

@[simp] theorem pattern_node (p : Pattern) (bs : List (Bytes × PatternTree)) :
    pattern (.node p bs) = p := rfl

@[simp] theorem children_node (p : Pattern) (bs : List (Bytes × PatternTree)) :
    children (.node p bs) = bs := rfl

end PatternTree

end NestedMatch
