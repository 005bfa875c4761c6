import NestedMatch.Proofs.Faithful

/-! Matching does not see where its text stands in a document: a text that begins further on gives
the same tree, moved. So what a child found is what it finds in its group's text alone, moved to
where the group stands. The law is proved for a move from any start, as the children of a match are
moved together with the match. -/

namespace NestedMatch

namespace Occurrence

theorem shiftTree_eq (k : Nat) (found : MatchTree) : shiftTree k found = found.map (shift k) := by
  induction found with
  | nil => rfl
  | cons o rest ih => rw [shiftTree, ih, List.map_cons]

theorem shiftChildren_eq (k : Nat) (children : List (Bytes × Option MatchTree)) :
    shiftChildren k children = children.map fun c => (c.1, c.2.map (shiftTree k)) := by
  induction children with
  | nil => rfl
  | cons c rest ih =>
    obtain ⟨name, tree⟩ := c
    cases tree with
    | none => rw [shiftChildren, ih, List.map_cons, Option.map_none]
    | some tree => rw [shiftChildren, ih, List.map_cons, Option.map_some]

theorem shift_mk (k : Nat) (whole : Capture) (groups : Dict (Option Capture))
    (children : List (Bytes × Option MatchTree)) :
    shift k ⟨whole, groups, children⟩ =
      ⟨whole.shift k, groups.map fun g => (g.1, g.2.map (Capture.shift k)),
        children.map fun c => (c.1, c.2.map (shiftTree k))⟩ := by
  rw [shift, shiftChildren_eq]
  rfl

end Occurrence

theorem Pattern.findAllAt_add (p : Pattern) (text : Bytes) (j k : Nat) :
    p.findAllAt text (j + k) = (p.findAllAt text j).map (RawMatch.shift k) := by
  rw [findAllAt, findAllAt, List.map_map]
  exact List.map_congr_left fun m _ => (m.shift_shift j k).symm

namespace PatternTree

theorem namedSpans_map (f : Span → Span) (names : List (Option Bytes))
    (spans : List (Option Span)) :
    namedSpans names (spans.map (Option.map f)) =
      (namedSpans names spans).map fun e => (e.1, e.2.map f) := by
  induction names generalizing spans with
  | nil => rfl
  | cons first names ih =>
    cases first with
    | none => rw [namedSpans, namedSpans, ← List.map_tail, ih]
    | some name =>
      rw [namedSpans, namedSpans, ← List.map_tail, ih, List.map_cons, List.head?_map,
        Option.join_map_eq_map_join]

variable {p : Pattern} {m : RawMatch} {text : Bytes} {j k : Nat}

theorem captures_shift :
    captures p (m.shift k) text (j + k) =
      (captures p m text j).map fun g => (g.1, g.2.map (Capture.shift k)) := by
  rw [captures, captures, ← Dict.ofList_map, RawMatch.shift, namedSpans_map, ← List.map_reverse,
    List.map_map, List.map_map]
  congr 2
  funext e
  simp [Function.comp_def, Span.capture_shift_add]

theorem capturedBy_shift (name : Bytes) :
    capturedBy p (m.shift k) text (j + k) name =
      (capturedBy p m text j name).map (Capture.shift k) := by
  unfold capturedBy
  cases p.groupIndex? name with
  | none => rfl
  | some i =>
    rw [Option.bind_some, Option.bind_some, RawMatch.group_shift, Option.map_map, Option.map_map]
    simp only [Function.comp_def, Span.capture_shift_add]

theorem occurrences_add (tree : PatternTree) (text : Bytes) (j k : Nat) :
    tree.occurrences text (j + k) = Occurrence.shiftTree k (tree.occurrences text j) := by
  induction tree using NamedTree.induct generalizing text j with
  | node p branches ih =>
    have hbranches (m : RawMatch) :
        branchOccurrences branches (capturedBy p (m.shift k) text (j + k)) =
          (branchOccurrences branches (capturedBy p m text j)).map
            fun c => (c.1, c.2.map (Occurrence.shiftTree k)) := by
      rw [branchOccurrences_eq, branchOccurrences_eq, List.map_map]
      refine List.map_congr_left fun b hb => ?_
      rw [capturedBy_shift, Function.comp_apply, Option.map_map, Option.map_map]
      congr 2
      funext c
      exact ih b hb c.text c.span.start
    rw [occurrences, occurrences, p.findAllAt_add, Occurrence.shiftTree_eq, List.map_map,
      List.map_map]
    refine List.map_congr_left fun m _ => ?_
    rw [Function.comp_apply, Function.comp_apply, Occurrence.shift_mk, captures_shift, hbranches]
    congr 1
    exact m.whole.capture_shift_add text j k

/-- What is listed under a name is the tree of the child of that name. -/
theorem exists_child_of_lookup {tree : PatternTree} {o : Occurrence} {name : Bytes}
    {entry : Option MatchTree} (h : o ∈ tree.occurrences text k)
    (hentry : o.children.lookup name = some entry) : ∃ child, tree.child? name = some child := by
  obtain ⟨m, -, rfl⟩ := mem_occurrences.1 h
  dsimp only at hentry
  rw [lookup_branchOccurrences] at hentry
  obtain ⟨child, hchild, -⟩ := Option.map_eq_some_iff.1 hentry
  exact ⟨child, hchild⟩

theorem occurrences_eq_shiftTree (tree : PatternTree) (text : Bytes) (k : Nat) :
    tree.occurrences text k = Occurrence.shiftTree k (tree.occurrences text 0) := by
  have h := tree.occurrences_add text 0 k
  rwa [Nat.zero_add] at h

end PatternTree

/-- A text that begins at `k` gives the tree that it gives at the beginning, moved by `k`, and at
every depth the tree below a group is the one that the child finds in the group's text alone, moved
to where the group starts. -/
theorem occurrences_local (tree : PatternTree) (text : Bytes) (k : Nat) :
    tree.occurrences text k = Occurrence.shiftTree k (tree.occurrences text 0) ∧
      ∀ n o, Produced tree (tree.occurrences text k) n o →
        ∀ name nested, o.children.lookup name = some (some nested) →
          ∃ child c, n.child? name = some child ∧ o.groups.lookup name = some (some c) ∧
            nested = Occurrence.shiftTree c.span.start (child.occurrences c.text 0) ∧
            nested = child.occurrences c.text c.span.start := by
  refine ⟨tree.occurrences_eq_shiftTree text k, fun n o h name nested hnested => ?_⟩
  obtain ⟨-, text', k', ho⟩ := PatternTree.exists_occurrences_of_produced h rfl
  obtain ⟨child, hchild⟩ := PatternTree.exists_child_of_lookup ho hnested
  obtain ⟨c, hc, rfl⟩ := PatternTree.nested_eq ho hchild hnested
  exact ⟨child, c, hchild, hc, child.occurrences_eq_shiftTree c.text c.span.start, rfl⟩

/-- The letter between the brackets, seen from a text that begins at 10 and from its own text. -/
theorem bracketed_local :
    Produced bracketed (bracketed.occurrences (Bytes.ofString "x<b>") 10) bracketed bracketedFound ∧
      bracketedFound.children.lookup (Bytes.ofString "w") = some (some [letterFound]) ∧
      [letterFound] = Occurrence.shiftTree 12 (letter.occurrences (Bytes.ofString "b") 0) := by
  have hproduced : Produced bracketed (bracketed.occurrences (Bytes.ofString "x<b>") 10) bracketed
      bracketedFound := by
    rw [occurrences_bracketed]
    exact .top (List.mem_singleton_self _)
  have hnested : bracketedFound.children.lookup (Bytes.ofString "w") = some (some [letterFound]) :=
    rfl
  obtain ⟨child, c, hchild, hc, hmoved, -⟩ := (occurrences_local bracketed (Bytes.ofString "x<b>")
    10).2 bracketed bracketedFound hproduced (Bytes.ofString "w") [letterFound] hnested
  obtain rfl : letter = child := Option.some_inj.1 hchild
  obtain rfl : (⟨⟨12, 13⟩, Bytes.ofString "b"⟩ : Capture) = c :=
    Option.some_inj.1 (Option.some_inj.1 hc)
  exact ⟨hproduced, hnested, hmoved⟩

end NestedMatch
