import NestedMatch.Engine.Table
import NestedMatch.Proofs.Captures
import NestedMatch.Proofs.Order

/-! A match tree is faithful at every depth: each capture reads the text of the whole document at
its own position, groups and children are those of the node, and what a child found lies inside its
group. Positions are followed through one level at a time: what reads the text of a capture reads
the document, since the capture does. -/

namespace NestedMatch

/-- The stretch is one, and lies inside the other. -/
def Span.Inside (s t : Span) : Prop := t.start ≤ s.start ∧ s.start ≤ s.stop ∧ s.stop ≤ t.stop

instance (s t : Span) : Decidable (s.Inside t) := inferInstanceAs (Decidable (_ ∧ _ ∧ _))

theorem Span.Inside.refl {s : Span} (h : s.start ≤ s.stop) : s.Inside s :=
  ⟨Nat.le_refl _, h, Nat.le_refl _⟩

theorem Span.Inside.trans {s t u : Span} (h : s.Inside t) (h' : t.Inside u) : s.Inside u :=
  ⟨Nat.le_trans h'.1 h.1, h.2.1, Nat.le_trans h.2.2 h'.2.2⟩

/-- The capture has the bytes that stand at its position in a text that begins at position `k`. -/
def Capture.Reads (text : Bytes) (k : Nat) (c : Capture) : Prop :=
  c.span.Inside ⟨k, k + text.length⟩ ∧
    c.text = (⟨c.span.start - k, c.span.stop - k⟩ : Span).cut text

/-- The capture is the match itself or that of a named group. -/
def Occurrence.Holds (o : Occurrence) (c : Capture) : Prop :=
  c = o.whole ∨ ∃ name, o.groups.lookup name = some (some c)

/-- Every group that takes part lies inside the match. -/
def Pattern.GroupsInside (p : Pattern) : Prop :=
  ∀ text i m, p.find? text i = some m → ∀ s, some s ∈ m.groups → s.Inside m.whole

/-- Somewhere in the match tree `found` of a pattern tree, its node `n` has the occurrence `o`. -/
inductive Produced : PatternTree → MatchTree → PatternTree → Occurrence → Prop
  | top {tree : PatternTree} {found : MatchTree} {o : Occurrence} :
    o ∈ found → Produced tree found tree o
  | deeper {tree child n : PatternTree} {found nested : MatchTree} {o o' : Occurrence}
    {name : Bytes} :
    o ∈ found → tree.child? name = some child → o.children.lookup name = some (some nested) →
      Produced child nested n o' → Produced tree found n o'

/-- The occurrence of a node says what the text and the node say. -/
structure Faithful (text : Bytes) (k : Nat) (n : PatternTree) (o : Occurrence) : Prop where
  reads : ∀ c, o.Holds c → c.Reads text k
  groups_sorted : Dict.Sorted o.groups
  groups_names : ∀ name, name ∈ Dict.names o.groups ↔ n.hasGroup name = true
  children_names : Dict.names o.children = n.children.names
  present : ∀ name child, n.child? name = some child →
    ((∃ nested, o.children.lookup name = some (some nested)) ↔
      n.hasGroup name = true ∧ ∃ c, o.groups.lookup name = some (some c))
  group_inside : ∀ name c, o.groups.lookup name = some (some c) → c.span.Inside o.whole.span
  nested_inside : ∀ name child nested c, n.child? name = some child →
    o.children.lookup name = some (some nested) → o.groups.lookup name = some (some c) →
    ∀ n' o', Produced child nested n' o' → ∀ c', o'.Holds c' → c'.span.Inside c.span

theorem Span.reads_capture_shift {s : Span} {text : Bytes} (h : s.Inside ⟨0, text.length⟩)
    (k : Nat) : ((s.shift k).capture text k).Reads text k := by
  obtain ⟨-, h₂, h₃⟩ := h
  rw [Span.capture_shift]
  refine ⟨⟨Nat.le_add_left _ _, Nat.add_le_add_right h₂ k, ?_⟩, ?_⟩
  · simp only [shift] at h₃ ⊢
    omega
  · simp [shift]

theorem Capture.Reads.start_le_stop {text : Bytes} {k : Nat} {c : Capture} (h : c.Reads text k) :
    c.span.start ≤ c.span.stop := h.1.2.1

theorem Capture.Reads.length_text {text : Bytes} {k : Nat} {c : Capture} (h : c.Reads text k) :
    c.text.length = c.span.size := by
  obtain ⟨⟨h₁, h₂, h₃⟩, htext⟩ := h
  dsimp only at h₁ h₃
  rw [htext, Span.length_cut]
  · simp only [Span.size]
    omega
  · dsimp only
    omega

/-- What reads the text of a capture lies inside the capture. -/
theorem Capture.Reads.inside {text : Bytes} {k : Nat} {c d : Capture} (hc : c.Reads text k)
    (hd : d.Reads c.text c.span.start) : d.span.Inside c.span := by
  have hlen := hc.length_text
  obtain ⟨⟨-, h, -⟩, -⟩ := hc
  obtain ⟨⟨h₁, h₂, h₃⟩, -⟩ := hd
  simp only [Span.size] at hlen
  dsimp only at h₁ h₃
  exact ⟨h₁, h₂, by omega⟩

/-- What reads the text of a capture reads the text that the capture was taken from. -/
theorem Capture.Reads.trans {text : Bytes} {k : Nat} {c d : Capture} (hc : c.Reads text k)
    (hd : d.Reads c.text c.span.start) : d.Reads text k := by
  obtain ⟨h₁, h₂, h₃⟩ := hc.inside hd
  obtain ⟨⟨h₄, h₅, h₆⟩, hctext⟩ := hc
  obtain ⟨-, hdtext⟩ := hd
  dsimp only at h₄ h₆
  refine ⟨⟨by dsimp only; omega, h₂, by dsimp only; omega⟩, ?_⟩
  rw [hdtext, hctext, Span.cut_cut (by dsimp only; omega)]
  simp only [Span.shift]
  congr 2 <;> omega

namespace PatternTree

variable {tree n : PatternTree} {text : Bytes} {k : Nat} {o : Occurrence}

theorem exists_of_capturedBy {p : Pattern} {m : RawMatch} {name : Bytes} {c : Capture}
    (h : capturedBy p (m.shift k) text k name = some c) :
    ∃ s, some s ∈ m.groups ∧ c = (s.shift k).capture text k := by
  obtain ⟨t, ht, rfl⟩ := Option.map_eq_some_iff.1 h
  obtain ⟨i, hi, hg⟩ := Option.bind_eq_some_iff.1 ht
  obtain ⟨j, -, rfl⟩ := Option.map_eq_some_iff.1 hi
  rw [RawMatch.group_shift] at hg
  obtain ⟨s, hs, rfl⟩ := Option.map_eq_some_iff.1 hg
  have hs' : m.groups[j]? = some (some s) := Option.join_eq_some_iff.1 hs
  exact ⟨s, List.mem_of_getElem? hs', rfl⟩

/-- A match that the engine finds, seen as the occurrence it gives. -/
theorem exists_of_mem_occurrences (h : o ∈ tree.occurrences text k) :
    ∃ i m, tree.pattern.find? text i = some m ∧
      o = ⟨(m.whole.shift k).capture text k, captures tree.pattern (m.shift k) text k,
        branchOccurrences tree.children (capturedBy tree.pattern (m.shift k) text k)⟩ := by
  obtain ⟨m', hm', rfl⟩ := mem_occurrences.1 h
  obtain ⟨m, hm, rfl⟩ := List.mem_map.1 hm'
  obtain ⟨i, hi⟩ := Cursor.exists_find?_of_mem_remaining hm
  exact ⟨i, m, hi, rfl⟩

theorem group_inside_of_mem (hp : tree.pattern.GroupsInside) (h : o ∈ tree.occurrences text k)
    {name : Bytes} {c : Capture} (hc : o.groups.lookup name = some (some c)) :
    c.span.Inside o.whole.span ∧ c.Reads text k := by
  obtain ⟨i, m, hm, rfl⟩ := exists_of_mem_occurrences h
  obtain ⟨h₁, h₂, h₃⟩ := Pattern.within_of_find? hm
  obtain ⟨s, hs, rfl⟩ := exists_of_capturedBy (lookup_captures_eq_some.1 hc)
  obtain ⟨h₄, h₅, h₆⟩ := hp text i m hm s hs
  refine ⟨⟨Nat.add_le_add_right h₄ k, Nat.add_le_add_right h₅ k, Nat.add_le_add_right h₆ k⟩, ?_⟩
  exact Span.reads_capture_shift ⟨Nat.zero_le _, h₅, Nat.le_trans h₆ h₃⟩ k

theorem reads_of_mem (hp : tree.pattern.GroupsInside) (h : o ∈ tree.occurrences text k)
    {c : Capture} (hc : o.Holds c) : c.Reads text k := by
  rcases hc with rfl | ⟨name, hc⟩
  · obtain ⟨i, m, hm, rfl⟩ := exists_of_mem_occurrences h
    obtain ⟨-, h₂, h₃⟩ := Pattern.within_of_find? hm
    exact Span.reads_capture_shift ⟨Nat.zero_le _, h₂, h₃⟩ k
  · exact (group_inside_of_mem hp h hc).2

theorem reads_of_produced {found : MatchTree} (h : Produced tree found n o)
    (hp : ∀ p ∈ tree.labels, p.GroupsInside) (hfound : found = tree.occurrences text k)
    {c : Capture} (hc : o.Holds c) : c.Reads text k := by
  induction h generalizing text k with
  | @top tree found o ho =>
    subst hfound
    exact reads_of_mem (hp _ tree.label_mem_labels) ho hc
  | @deeper tree child n found nested o o' name ho hchild hnested _ ih =>
    subst hfound
    obtain ⟨d, hd, rfl⟩ := nested_eq ho hchild hnested
    have hsub := NamedTree.labels_subset_of_branch? hchild
    have hreads := ih (fun p hmem => hp p (hsub hmem)) rfl hc
    exact (reads_of_mem (hp _ tree.label_mem_labels) ho (.inr ⟨name, hd⟩)).trans hreads

theorem exists_occurrences_of_produced {found : MatchTree} (h : Produced tree found n o)
    (hfound : found = tree.occurrences text k) :
    n.labels ⊆ tree.labels ∧ ∃ text' k', o ∈ n.occurrences text' k' := by
  induction h generalizing text k with
  | top ho => exact ⟨List.Subset.refl _, text, k, hfound ▸ ho⟩
  | deeper ho hchild hnested _ ih =>
    subst hfound
    obtain ⟨c, -, hc⟩ := nested_eq ho hchild hnested
    obtain ⟨hsub, hmem⟩ := ih hc
    exact ⟨List.Subset.trans hsub (NamedTree.labels_subset_of_branch? hchild), hmem⟩

theorem mem_names_groups (h : o ∈ tree.occurrences text k) (name : Bytes) :
    name ∈ Dict.names o.groups ↔ tree.hasGroup name = true := by
  obtain ⟨m, -, rfl⟩ := mem_occurrences.1 h
  rw [Dict.mem_names_iff, lookup_captures, Option.isSome_map, Pattern.isSome_groupIndex?]
  rfl

theorem children_present_iff (h : o ∈ tree.occurrences text k) {name : Bytes}
    {child : PatternTree} (hchild : tree.child? name = some child) :
    (∃ nested, o.children.lookup name = some (some nested)) ↔
      tree.hasGroup name = true ∧ ∃ c, o.groups.lookup name = some (some c) := by
  constructor
  · rintro ⟨nested, hnested⟩
    obtain ⟨c, hc, -⟩ := nested_eq h hchild hnested
    refine ⟨(mem_names_groups h name).1 ?_, c, hc⟩
    rw [Dict.mem_names_iff, hc]
    rfl
  · rintro ⟨-, c, hc⟩
    obtain ⟨m, -, rfl⟩ := mem_occurrences.1 h
    have hchild : tree.children.lookup name = some child := hchild
    refine ⟨child.occurrences c.text c.span.start, ?_⟩
    rw [lookup_branchOccurrences, hchild, lookup_captures_eq_some.1 hc]
    rfl

end PatternTree

/-- Every occurrence at any depth is faithful to the whole text and to the node it belongs to. Of
the engine it is only asked that groups lie inside their match. -/
theorem occurrences_faithful (tree : PatternTree) (text : Bytes) (k : Nat)
    (hp : ∀ p ∈ tree.labels, p.GroupsInside) (n : PatternTree) (o : Occurrence)
    (h : Produced tree (tree.occurrences text k) n o) : Faithful text k n o := by
  obtain ⟨hsub, text', k', ho⟩ := PatternTree.exists_occurrences_of_produced h rfl
  have hn : n.pattern.GroupsInside := hp _ (hsub n.label_mem_labels)
  refine
    { reads := fun c hc => PatternTree.reads_of_produced h hp rfl hc
      groups_sorted := ?_
      groups_names := PatternTree.mem_names_groups ho
      children_names := ?_
      present := fun name child hchild => PatternTree.children_present_iff ho hchild
      group_inside := fun name c hc => (PatternTree.group_inside_of_mem hn ho hc).1
      nested_inside := ?_ }
  · obtain ⟨m, -, rfl⟩ := PatternTree.mem_occurrences.1 ho
    exact Dict.sorted_ofList _
  · obtain ⟨m, -, rfl⟩ := PatternTree.mem_occurrences.1 ho
    exact PatternTree.names_branchOccurrences _ _
  · intro name child nested c hchild hnested hc n' o' h' c' hc'
    obtain ⟨d, hd, hnested'⟩ := PatternTree.nested_eq ho hchild hnested
    obtain rfl : c = d := by
      rw [hc] at hd
      exact Option.some_inj.1 (Option.some_inj.1 hd)
    have hreads := (PatternTree.group_inside_of_mem hn ho hc).2
    have hsub' := List.Subset.trans (NamedTree.labels_subset_of_branch? hchild) hsub
    exact hreads.inside
      (PatternTree.reads_of_produced h' (fun p hmem => hp p (hsub' hmem)) hnested' hc')

theorem groupsInside_tableMatcher {source : Bytes} {names : List (Option Bytes)}
    {texts : List (Bytes × List RawMatch)}
    (h : ∀ t ∈ texts, ∀ row ∈ t.2, ∀ g ∈ row.groups, ∀ s ∈ g, s.Inside row.whole) :
    Pattern.GroupsInside ⟨source, Engine.tableMatcher names texts⟩ := by
  intro text i m hm s hs
  obtain ⟨hm, -⟩ := Option.filter_eq_some_iff.1 hm
  have hrow : m ∈ (texts.lookup text).getD [] := List.mem_of_find?_eq_some hm
  cases ht : texts.lookup text with
  | none => simp [ht] at hrow
  | some rows =>
    rw [ht, Option.getD_some] at hrow
    exact h _ (Dict.mem_of_lookup ht) m hrow _ hs s rfl

def letter : PatternTree :=
  .leaf ⟨Bytes.ofString "b", Engine.tableMatcher [] [(Bytes.ofString "b", [⟨⟨0, 1⟩, []⟩])]⟩

/-- A letter in angle brackets, with a child for the letter alone. -/
def bracketed : PatternTree :=
  .node ⟨Bytes.ofString "<(?P<w>b)>", Engine.tableMatcher [some (Bytes.ofString "w")]
      [(Bytes.ofString "x<b>", [⟨⟨1, 4⟩, [some ⟨2, 3⟩]⟩])]⟩
    [(Bytes.ofString "w", letter)]

def letterFound : Occurrence := ⟨⟨⟨12, 13⟩, Bytes.ofString "b"⟩, [], []⟩

def bracketedFound : Occurrence :=
  ⟨⟨⟨11, 14⟩, Bytes.ofString "<b>"⟩, [(Bytes.ofString "w", some ⟨⟨12, 13⟩, Bytes.ofString "b"⟩)],
    [(Bytes.ofString "w", some [letterFound])]⟩

theorem groupsInside_bracketed : ∀ p ∈ bracketed.labels, p.GroupsInside := by
  have hlabels : bracketed.labels = [bracketed.pattern, letter.pattern] := rfl
  intro p hp
  rw [hlabels] at hp
  rcases List.mem_cons.1 hp with rfl | hp
  · exact groupsInside_tableMatcher (by decide)
  · obtain rfl := List.mem_singleton.1 hp
    exact groupsInside_tableMatcher (by decide)

theorem occurrences_bracketed :
    bracketed.occurrences (Bytes.ofString "x<b>") 10 = [bracketedFound] := by
  with_unfolding_all rfl

theorem produced_letter :
    Produced bracketed (bracketed.occurrences (Bytes.ofString "x<b>") 10) letter letterFound := by
  have hchild : bracketed.child? (Bytes.ofString "w") = some letter := rfl
  have hnested : bracketedFound.children.lookup (Bytes.ofString "w") = some (some [letterFound]) :=
    rfl
  rw [occurrences_bracketed]
  exact .deeper (List.mem_singleton_self _) hchild hnested (.top (List.mem_singleton_self _))

/-- The letter between the brackets, found by the child in a text that begins at position 10. -/
theorem letter_faithful :
    (∀ p ∈ bracketed.labels, p.GroupsInside) ∧
      Produced bracketed (bracketed.occurrences (Bytes.ofString "x<b>") 10) letter letterFound ∧
      Faithful (Bytes.ofString "x<b>") 10 letter letterFound :=
  ⟨groupsInside_bracketed, produced_letter,
    occurrences_faithful bracketed (Bytes.ofString "x<b>") 10 groupsInside_bracketed letter
      letterFound produced_letter⟩

end NestedMatch
