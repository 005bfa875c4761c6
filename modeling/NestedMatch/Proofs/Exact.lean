import Mathlib.Data.List.Sort
import NestedMatch.Proofs.Faithful

/-! Match trees that list exactly what their pattern tree has, each name once and in order, at every
depth. Matching gives such trees. Two occurrences of one node that list exactly its groups and
children are the same once their matches, their groups and what is nested in groups that took part
are. -/

namespace NestedMatch

namespace Dict

variable {α : Type}

theorem mem_iff_lookup {d : Dict α} (h : d.Sorted) {name : Bytes} {a : α} :
    (name, a) ∈ d ↔ d.lookup name = some a := by
  refine ⟨fun hmem => ?_, mem_of_lookup⟩
  induction d with
  | nil => cases hmem
  | cons first rest ih =>
    obtain ⟨n, b⟩ := first
    obtain ⟨hfirst, hrest⟩ := List.pairwise_cons.1 h
    rcases List.mem_cons.1 hmem with he | hmem
    · obtain ⟨rfl, rfl⟩ := Prod.mk.inj he
      exact List.lookup_cons_self
    · have hne : name ≠ n := fun he => List.lt_irrefl _ (he ▸ hfirst _ hmem)
      rw [lookup_cons_of_ne hne, ih hrest hmem]

theorem eq_of_lookup_eq {d e : Dict α} (hd : d.Sorted) (he : e.Sorted)
    (h : ∀ name, d.lookup name = e.lookup name) : d = e := by
  have : Std.Irrefl fun a b : Bytes × α => a.1 < b.1 := ⟨fun _ => List.lt_irrefl _⟩
  have : Std.Antisymm fun a b : Bytes × α => a.1 < b.1 :=
    ⟨fun _ _ hlt hgt => absurd (List.lt_trans hlt hgt) (List.lt_irrefl _)⟩
  refine List.Pairwise.eq_of_mem_iff hd he fun entry => ?_
  rw [mem_iff_lookup hd, mem_iff_lookup he, h]

theorem sorted_iff_names {d : Dict α} : d.Sorted ↔ d.names.Pairwise (· < ·) :=
  List.pairwise_map.symm

theorem names_eq_of_sorted {β : Type} {d : Dict α} {e : Dict β} (hd : d.Sorted) (he : e.Sorted)
    (h : ∀ name, name ∈ d.names ↔ name ∈ e.names) : d.names = e.names :=
  List.Pairwise.eq_of_mem_iff (sorted_iff_names.1 hd) (sorted_iff_names.1 he) h

end Dict

/-- The branches of every node stand in the order of their names, each name once. -/
inductive NamedTree.Ordered {α : Type} : NamedTree α → Prop
  | node {a : α} {branches : List (Bytes × NamedTree α)} :
    Dict.Sorted branches → (∀ b ∈ branches, b.2.Ordered) → Ordered (.node a branches)

theorem NamedTree.ordered_leaf {α : Type} (a : α) : (leaf a).Ordered :=
  .node List.Pairwise.nil fun _ h => absurd h List.not_mem_nil

theorem NamedTree.Ordered.insert {α : Type} {a : α} {branches : List (Bytes × NamedTree α)}
    {t : NamedTree α} (h : Ordered (.node a branches)) (ht : t.Ordered) (name : Bytes) :
    Ordered (.node a (Dict.insert name t branches)) := by
  cases h with
  | node hsorted hbelow =>
    refine .node (Dict.sorted_insert hsorted) fun b hb => ?_
    rcases Dict.mem_insert hb with rfl | hb
    · exact ht
    · exact hbelow b hb

/-- Exactly the named groups and the children of the node are listed, in the order of their names,
and a child found something to list exactly where its group took part. -/
structure Occurrence.ListsExactly (n : PatternTree) (o : Occurrence) : Prop where
  groups_sorted : Dict.Sorted o.groups
  groups_names : ∀ name, name ∈ Dict.names o.groups ↔ n.hasGroup name = true
  children_sorted : Dict.Sorted o.children
  children_names : ∀ name, name ∈ Dict.names o.children ↔ name ∈ n.children.names
  present : ∀ name child, n.child? name = some child →
    ((∃ nested, o.children.lookup name = some (some nested)) ↔
      n.hasGroup name = true ∧ ∃ c, o.groups.lookup name = some (some c))

/-- The match tree is laid out as the pattern tree is, at every depth. Its stretches and texts may be
any. -/
inductive ConformsExactly : PatternTree → MatchTree → Prop
  | intro {tree : PatternTree} {found : MatchTree} :
    (∀ o ∈ found, o.ListsExactly tree) →
    (∀ o ∈ found, ∀ name child nested, tree.child? name = some child →
      o.children.lookup name = some (some nested) → ConformsExactly child nested) →
    ConformsExactly tree found

/-- What the child under a name found, where it took part. -/
def Occurrence.nested (o : Occurrence) (name : Bytes) : Option MatchTree :=
  (o.children.lookup name).join

namespace PatternTree

/-- What matching gives is laid out as the pattern tree is, if that lists its children in order. -/
theorem conformsExactly_occurrences {n : PatternTree} (hn : n.Ordered) (text : Bytes) (k : Nat) :
    ConformsExactly n (n.occurrences text k) := by
  induction hn generalizing text k with
  | @node p branches hsorted _ ih =>
    refine .intro (fun o ho => ?_) (fun o ho name child nested hchild hnested => ?_)
    · have hnames : Dict.names o.children = Dict.names branches := by
        obtain ⟨m, -, rfl⟩ := mem_occurrences.1 ho
        exact names_branchOccurrences _ _
      refine
        { groups_sorted := ?_
          groups_names := mem_names_groups ho
          children_sorted := Dict.sorted_iff_names.2 (hnames ▸ Dict.sorted_iff_names.1 hsorted)
          children_names := fun name => by rw [hnames, children_node]
          present := fun name child hchild => children_present_iff ho hchild }
      obtain ⟨m, -, rfl⟩ := mem_occurrences.1 ho
      exact Dict.sorted_ofList _
    · obtain ⟨c, -, rfl⟩ := nested_eq ho hchild hnested
      exact ih (name, child) (Dict.mem_of_lookup hchild) c.text c.span.start

end PatternTree

namespace Occurrence.ListsExactly

variable {n : PatternTree} {o o' : Occurrence}

theorem isSome_lookup_children (h : o.ListsExactly n) (name : Bytes) :
    (o.children.lookup name).isSome = (n.child? name).isSome := by
  rw [Bool.eq_iff_iff, ← Dict.mem_names_iff, h.children_names, Dict.mem_names_iff]
  rfl

theorem lookup_eq_none (h : o.ListsExactly n) {name : Bytes} (hchild : n.child? name = none) :
    o.children.lookup name = none := by
  have hsome := h.isSome_lookup_children name
  rw [hchild] at hsome
  exact Option.isNone_iff_eq_none.1 (Option.isSome_eq_false_iff.1 hsome)

theorem lookup_eq_some_nested (h : o.ListsExactly n) {name : Bytes} {child : PatternTree}
    (hchild : n.child? name = some child) : o.children.lookup name = some (o.nested name) := by
  have hsome := h.isSome_lookup_children name
  rw [hchild] at hsome
  obtain ⟨found, hfound⟩ := Option.isSome_iff_exists.1 hsome
  rw [nested, hfound]
  rfl

theorem exists_nested (h : o.ListsExactly n) {name : Bytes} {child : PatternTree} {c : Capture}
    (hchild : n.child? name = some child) (hc : (name, some c) ∈ o.groups) :
    ∃ found, o.children.lookup name = some (some found) :=
  (h.present name child hchild).2 ⟨(h.groups_names name).1 (List.mem_map_of_mem hc), c,
    (Dict.mem_iff_lookup h.groups_sorted).1 hc⟩

theorem exists_group (h : o.ListsExactly n) {name : Bytes} {found : MatchTree}
    (hfound : o.nested name = some found) : ∃ c, (name, some c) ∈ o.groups := by
  have hfound := Option.join_eq_some_iff.1 hfound
  cases hchild : n.child? name with
  | none =>
    rw [h.lookup_eq_none hchild] at hfound
    cases hfound
  | some child =>
    obtain ⟨-, c, hc⟩ := (h.present name child hchild).1 ⟨found, hfound⟩
    exact ⟨c, Dict.mem_of_lookup hc⟩

/-- Where both occurrences have the group, the child took part in both or there is none. -/
theorem rel_nested (h : o.ListsExactly n) (h' : o'.ListsExactly n) {R : MatchTree → MatchTree → Prop}
    {name : Bytes} {c : Capture} (hc : (name, some c) ∈ o.groups) (hc' : (name, some c) ∈ o'.groups)
    (hR : ∀ child a b, n.child? name = some child → o.children.lookup name = some (some a) →
      o'.children.lookup name = some (some b) → R a b) :
    Option.Rel R (o.nested name) (o'.nested name) := by
  cases hchild : n.child? name with
  | none =>
    rw [nested, nested, h.lookup_eq_none hchild, h'.lookup_eq_none hchild]
    exact .none
  | some child =>
    obtain ⟨a, ha⟩ := h.exists_nested hchild hc
    obtain ⟨b, hb⟩ := h'.exists_nested hchild hc'
    rw [nested, nested, ha, hb]
    exact .some (hR child a b hchild ha hb)

/-- Occurrences of one node with the same groups have the same children, if what the groups that
took part have nested is the same. -/
theorem children_eq (h : o.ListsExactly n) (h' : o'.ListsExactly n) (hgroups : o.groups = o'.groups)
    (hnested : ∀ name c, (name, some c) ∈ o.groups → o.nested name = o'.nested name) :
    o.children = o'.children := by
  have hnested (name : Bytes) : o.nested name = o'.nested name := by
    by_cases hc : ∃ c, (name, some c) ∈ o.groups
    · obtain ⟨c, hc⟩ := hc
      exact hnested name c hc
    · have hnone : o.nested name = none :=
        Option.eq_none_iff_forall_ne_some.2 fun _ hfound => hc (h.exists_group hfound)
      have hnone' : o'.nested name = none :=
        Option.eq_none_iff_forall_ne_some.2 fun _ hfound => hc (hgroups ▸ h'.exists_group hfound)
      rw [hnone, hnone']
  refine Dict.eq_of_lookup_eq h.children_sorted h'.children_sorted fun name => ?_
  cases hchild : n.child? name with
  | none => rw [h.lookup_eq_none hchild, h'.lookup_eq_none hchild]
  | some child => rw [h.lookup_eq_some_nested hchild, h'.lookup_eq_some_nested hchild, hnested]

end Occurrence.ListsExactly

theorem ordered_bracketed : bracketed.Ordered := by
  refine .node (List.pairwise_singleton _ _) fun b hb => ?_
  obtain rfl := List.mem_singleton.1 hb
  exact .node .nil (by simp)

end NestedMatch
