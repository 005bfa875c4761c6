import NestedMatch.MatchTree

/-! What one occurrence of a match tree holds. Its groups are listed in the order of the pattern's
group names while a child is found by the number of its group: both ways lead to the same capture. -/

namespace NestedMatch.PatternTree

theorem lookup_namedSpans (names : List (Option Bytes)) (spans : List (Option Span))
    (name : Bytes) :
    (namedSpans names spans).lookup name =
      (names.findIdx? (· == some name)).map fun i => spans[i]?.join := by
  induction names generalizing spans with
  | nil => rfl
  | cons first names ih =>
    rw [List.findIdx?_cons]
    cases first with
    | none =>
      rw [namedSpans, ih]
      simp [Function.comp_def]
    | some other =>
      rw [namedSpans]
      by_cases h : name = other
      · subst h
        simp [List.head?_eq_getElem?]
      · rw [Dict.lookup_cons_of_ne h, ih]
        simp [Ne.symm h, Function.comp_def]

theorem lookup_captures (p : Pattern) (m : RawMatch) (text : Bytes) (k : Nat) (name : Bytes) :
    (captures p m text k).lookup name =
      (p.groupIndex? name).map fun _ => capturedBy p m text k name := by
  have hmap := Dict.lookup_map (fun _ => Option.map fun s : Span => s.capture text k) name
    (namedSpans p.matcher.groupNames m.groups)
  rw [captures, List.map_reverse, Dict.lookup_ofList_reverse, hmap, lookup_namedSpans, capturedBy,
    Pattern.groupIndex?]
  cases p.matcher.groupNames.findIdx? (· == some name) with
  | none => rfl
  | some i => rfl

theorem lookup_captures_eq_some {p : Pattern} {m : RawMatch} {text : Bytes} {k : Nat} {name : Bytes}
    {c : Capture} :
    (captures p m text k).lookup name = some (some c) ↔ capturedBy p m text k name = some c := by
  rw [lookup_captures]
  unfold capturedBy
  cases p.groupIndex? name <;> simp

theorem lookup_branchOccurrences (bs : Dict PatternTree) (captured : Bytes → Option Capture)
    (name : Bytes) :
    (branchOccurrences bs captured).lookup name = (bs.lookup name).map fun child =>
      (captured name).map fun c => child.occurrences c.text c.span.start := by
  rw [branchOccurrences_eq]
  exact Dict.lookup_map (fun n child => (captured n).map fun c =>
    child.occurrences c.text c.span.start) name bs

theorem names_branchOccurrences (bs : Dict PatternTree) (captured : Bytes → Option Capture) :
    Dict.names (branchOccurrences bs captured) = bs.names := by
  rw [branchOccurrences_eq, Dict.names, Dict.names, List.map_map]
  rfl

/-- The occurrence that one match gives. -/
theorem mem_occurrences {tree : PatternTree} {text : Bytes} {k : Nat} {o : Occurrence} :
    o ∈ tree.occurrences text k ↔ ∃ m ∈ tree.pattern.findAllAt text k,
      o = ⟨m.whole.capture text k, captures tree.pattern m text k,
        branchOccurrences tree.children (capturedBy tree.pattern m text k)⟩ := by
  obtain ⟨p, branches⟩ := tree
  rw [occurrences, List.mem_map]
  simp only [pattern_node, children_node, eq_comm]

/-- The tree of a child is the one that its group's capture has by itself. -/
theorem nested_eq {tree child : PatternTree} {text : Bytes} {k : Nat} {o : Occurrence}
    {name : Bytes} {nested : MatchTree} (h : o ∈ tree.occurrences text k)
    (hchild : tree.child? name = some child)
    (hnested : o.children.lookup name = some (some nested)) :
    ∃ c, o.groups.lookup name = some (some c) ∧
      nested = child.occurrences c.text c.span.start := by
  obtain ⟨m, -, rfl⟩ := mem_occurrences.1 h
  have hchild : tree.children.lookup name = some child := hchild
  dsimp only at hnested
  rw [lookup_branchOccurrences, hchild, Option.map_some, Option.some_inj,
    Option.map_eq_some_iff] at hnested
  obtain ⟨c, hc, rfl⟩ := hnested
  exact ⟨c, lookup_captures_eq_some.2 hc, rfl⟩

end NestedMatch.PatternTree
