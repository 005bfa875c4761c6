import NestedMatch.Pattern

/-! Two engines: the one of a finite table, with every pattern it knows and the matches it has in
each text, and the one that takes every pattern as the literal text to find. Main statement: in
sorted rows a search finds the one with the least start. -/

namespace NestedMatch.Engine

inductive TableEntry where
  /-- The pattern does not compile, for this reason. -/
  | rejected (reason : Bytes)
  /-- The pattern has these groups, and in each text listed these matches. -/
  | accepted (groupNames : List (Option Bytes)) (texts : List (Bytes × List RawMatch))

/-- The first match listed that starts at or after `i`. -/
def firstFrom (rows : List RawMatch) (i : Nat) : Option RawMatch :=
  rows.find? fun row => i ≤ row.whole.start

def tableMatcher (groupNames : List (Option Bytes)) (texts : List (Bytes × List RawMatch)) :
    Matcher :=
  ⟨groupNames, fun text i => firstFrom ((texts.lookup text).getD []) i⟩

def TableEntry.compile : TableEntry → Except Bytes Matcher
  | .rejected reason => .error reason
  | .accepted names texts => .ok (tableMatcher names texts)

def ofTable (table : List (Bytes × TableEntry)) : Engine := fun source =>
  match table.lookup source with
  | some entry => entry.compile
  | none => .error (Bytes.ofString "unknown pattern")

/-- The row of a table that starts at `i`. -/
def rowAt (rows : List RawMatch) (i : Nat) : Option RawMatch :=
  rows.find? fun row => row.whole.start == i

theorem start_of_rowAt {rows : List RawMatch} {m : RawMatch} {i : Nat}
    (h : rowAt rows i = some m) : m.whole.start = i := by
  simpa using List.find?_some h

theorem rowAt_eq_none {rows : List RawMatch} {i : Nat} :
    rowAt rows i = none ↔ ∀ row ∈ rows, row.whole.start ≠ i := by
  simp [rowAt]

/-- Where the rows are sorted by their starts, a search finds the one with the least start. -/
theorem firstFrom_eq_some_iff {rows : List RawMatch} {m : RawMatch} {i : Nat}
    (hsorted : rows.Pairwise fun a b => a.whole.start < b.whole.start) :
    firstFrom rows i = some m ↔
      rowAt rows m.whole.start = some m ∧ i ≤ m.whole.start ∧
        ∀ j, i ≤ j → j < m.whole.start → rowAt rows j = none := by
  constructor
  · intro h
    obtain ⟨hi, before, rest, rfl, hbefore⟩ := List.find?_eq_some_iff_append.1 h
    obtain ⟨-, hm, hcross⟩ := List.pairwise_append.1 hsorted
    have hrest := (List.pairwise_cons.1 hm).1
    refine ⟨List.find?_eq_some_iff_append.2 ⟨by simp, before, rest, rfl, ?_⟩, by simpa using hi, ?_⟩
    · intro a ha
      have := hcross a ha m List.mem_cons_self
      simp only [Bool.not_eq_true', beq_eq_false_iff_ne]
      omega
    · intro j hj hlt
      apply rowAt_eq_none.2
      intro row hrow
      rcases List.mem_append.1 hrow with hrow | hrow
      · have : row.whole.start < i := by simpa using hbefore row hrow
        omega
      · rcases List.mem_cons.1 hrow with rfl | hrow
        · omega
        · have := hrest row hrow
          omega
  · rintro ⟨hm, hi, hnone⟩
    obtain ⟨-, before, rest, rfl, -⟩ := List.find?_eq_some_iff_append.1 hm
    have hcross := (List.pairwise_append.1 hsorted).2.2
    apply List.find?_eq_some_iff_append.2
    refine ⟨by simpa using hi, before, rest, rfl, ?_⟩
    intro a ha
    have hlt := hcross a ha m List.mem_cons_self
    cases hle : decide (i ≤ a.whole.start) with
    | false => rfl
    | true =>
      have hnone := rowAt_eq_none.1 (hnone _ (of_decide_eq_true hle) hlt)
      exact absurd rfl (hnone a (List.mem_append_left _ ha))

/-- The first position at or after `i` where `needle` stands in the text. -/
def findLiteral (needle text : Bytes) (i : Nat) : Option Nat :=
  (List.range' i (text.length + 1 - i)).find? fun k => needle.isPrefixOf (text.drop k)

/-- Every pattern compiles, and has no groups. -/
def literal : Engine := fun source =>
  .ok ⟨[], fun text i => (findLiteral source text i).map fun k => ⟨⟨k, k + source.length⟩, []⟩⟩

end NestedMatch.Engine
