import NestedMatch.Proofs.Captures

/-! Match trees that say something about every group and every child of their pattern tree. The
trees that matching gives do. -/

namespace NestedMatch

/-- Every occurrence has an entry, present or absent, for every named group and every child of its
node, and so have the occurrences below it. -/
inductive Conforms : PatternTree → MatchTree → Prop
  | intro {tree : PatternTree} {found : MatchTree} :
    (∀ o ∈ found, ∀ name, tree.hasGroup name = true → ∃ c, o.groups.lookup name = some c) →
    (∀ o ∈ found, ∀ name child, tree.child? name = some child →
      ∃ nested, o.children.lookup name = some nested) →
    (∀ o ∈ found, ∀ name child nested, tree.child? name = some child →
      o.children.lookup name = some (some nested) → Conforms child nested) →
    Conforms tree found

theorem Conforms.of_subset {tree : PatternTree} {found part : MatchTree} (h : Conforms tree found)
    (hsub : part ⊆ found) : Conforms tree part := by
  obtain ⟨h₁, h₂, h₃⟩ := h
  exact ⟨fun o ho => h₁ o (hsub ho), fun o ho => h₂ o (hsub ho), fun o ho => h₃ o (hsub ho)⟩

/-- Occurrences that fit a scope: any do where there is no node. -/
def Fits (scope : Option PatternTree) (found : List Occurrence) : Prop :=
  ∀ tree, scope = some tree → Conforms tree found

theorem Conforms.fits {tree : PatternTree} {found : MatchTree} (h : Conforms tree found) :
    Fits (some tree) found := fun _ htree => Option.some_inj.1 htree ▸ h

theorem Fits.singleton {scope : Option PatternTree} {found : List Occurrence} {o : Occurrence}
    (h : Fits scope found) (ho : o ∈ found) : Fits scope [o] :=
  fun tree htree => (h tree htree).of_subset (by simpa using ho)

namespace PatternTree

theorem conforms_occurrences (tree : PatternTree) (text : Bytes) (k : Nat) :
    Conforms tree (tree.occurrences text k) := by
  induction tree using NamedTree.induct generalizing text k with
  | node p branches ih =>
    refine .intro ?_ ?_ ?_
    · intro o ho name hg
      obtain ⟨m, -, rfl⟩ := mem_occurrences.1 ho
      obtain ⟨i, hi⟩ := Option.isSome_iff_exists.1 ((p.isSome_groupIndex? name).trans hg)
      refine ⟨capturedBy p m text k name, ?_⟩
      rw [lookup_captures, pattern_node, hi]
      rfl
    · intro o ho name child hchild
      obtain ⟨m, -, rfl⟩ := mem_occurrences.1 ho
      have hchild : List.lookup name branches = some child := hchild
      refine ⟨(capturedBy p m text k name).map fun c => child.occurrences c.text c.span.start, ?_⟩
      rw [lookup_branchOccurrences, children_node, hchild]
      rfl
    · intro o ho name child nested hchild hnested
      obtain ⟨c, -, rfl⟩ := nested_eq ho hchild hnested
      exact ih (name, child) (Dict.mem_of_lookup hchild) c.text c.span.start

end PatternTree
end NestedMatch
