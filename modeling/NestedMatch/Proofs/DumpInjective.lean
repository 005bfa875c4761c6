import NestedMatch.Proofs.Delimited
import NestedMatch.Proofs.Exact
import NestedMatch.Scalar.Floating

/-! The dump of a match tree loses nothing: no two trees of one pattern tree have the same dump,
whatever bytes their texts hold. Texts cannot break a line, so a dump is told apart line by line, and
a nested dump ends where a line starts further left. That bound on the next line is what the
induction carries: the dump of a tree is followed by nothing or by a line before its own column, the
lines of an occurrence by nothing or by a line before the column of its groups. -/

namespace NestedMatch

/-- A name as the groups of patterns have it: letters, digits and underscores, at least one. -/
def Bytes.IsWord (t : Bytes) : Prop := t ≠ [] ∧ ∀ b ∈ t, FloatNumeral.isWordByte b = true

instance (t : Bytes) : Decidable t.IsWord := inferInstanceAs (Decidable (_ ∧ _))

namespace Dump

theorem childDumps_eq (depth : Nat) (children : List (Bytes × Option MatchTree)) :
    childDumps depth children = children.map fun c => (c.1, c.2.map (tree depth)) := by
  induction children with
  | nil => rfl
  | cons c rest ih =>
    obtain ⟨name, found⟩ := c
    cases found with
    | none => rw [childDumps, ih]; rfl
    | some found => rw [childDumps, ih]; rfl

/-- A text that begins with the dump of one of the trees tells which of them it is and where the
dump ends, as long as what follows starts further left. -/
def ToldApart (depth : Nat) (a b : MatchTree) : Prop :=
  ∀ r s, Outdented (2 * depth) r → Outdented (2 * depth) s →
    tree depth a ++ r = tree depth b ++ s → a = b ∧ r = s

/-- The lines of groups and of what is nested in them. -/
def groupLines (depth : Nat) (nested : Bytes → Option MatchTree) (gs : Dict (Option Capture)) :
    Bytes :=
  gs.flatMap fun g => group depth g.1 g.2 ((nested g.1).map (tree (depth + 2)))

/-- A line that a group's name begins, and what follows the name. -/
def entry (depth : Nat) (name rest : Bytes) : Bytes :=
  indent (depth + 1) ++ (name ++ 58 :: 32 :: rest)

theorem indent_succ (depth : Nat) : indent (depth + 1) = indent depth ++ [32, 32] := by
  rw [indent, Nat.mul_succ, List.replicate_add]
  rfl

variable {depth : Nat} {name r s : Bytes}

theorem group_none_append (child : Option Bytes) :
    group depth name none child ++ r = entry depth name (Bytes.ofString "absent\n" ++ r) := by
  simp only [group, entry, indent_succ, List.append_assoc]
  rfl

theorem group_some_append (c : Capture) (child : Option Bytes) :
    group depth name (some c) child ++ r =
      entry depth name (capture c ++ 10 :: (child.getD [] ++ r)) := by
  simp only [group, entry, indent_succ, List.append_assoc]
  rfl

theorem entry_inj (h : entry depth name r = entry depth name s) : r = s := by
  have h := List.append_cancel_left (List.append_cancel_left h)
  exact (List.cons.inj (List.cons.inj h).2).2

/-- The line of a group tells what the group captured. -/
theorem group_append_inj {x y : Option Capture} {child child' : Option Bytes}
    (h : group depth name x child ++ r = group depth name y child' ++ s) :
    (x = none ∧ y = none ∧ r = s) ∨
      ∃ c, x = some c ∧ y = some c ∧ child.getD [] ++ r = child'.getD [] ++ s := by
  cases x with
  | none =>
    rw [group_none_append] at h
    cases y with
    | none =>
      rw [group_none_append] at h
      exact .inl ⟨rfl, rfl, List.append_cancel_left (entry_inj h)⟩
    | some d =>
      rw [group_some_append] at h
      exact absurd (entry_inj h).symm (capture_append_ne_absent d _ _)
  | some c =>
    rw [group_some_append] at h
    cases y with
    | none =>
      rw [group_none_append] at h
      exact absurd (entry_inj h) (capture_append_ne_absent c _ _)
    | some d =>
      rw [group_some_append] at h
      obtain ⟨rfl, hrest⟩ := capture_append_inj (entry_inj h)
      exact .inr ⟨c, rfl, rfl, (List.cons.inj hrest).2⟩

theorem nested_append_inj {x y : Option MatchTree} (h : Option.Rel (ToldApart depth) x y)
    (hr : Outdented (2 * depth) r) (hs : Outdented (2 * depth) s)
    (hdump : (x.map (tree depth)).getD [] ++ r = (y.map (tree depth)).getD [] ++ s) :
    x = y ∧ r = s := by
  cases h with
  | none => exact ⟨rfl, hdump⟩
  | some h =>
    obtain ⟨rfl, hrs⟩ := h r s hr hs hdump
    exact ⟨rfl, hrs⟩

theorem column_entry (hname : name.IsWord) : column (entry depth name r) = 2 * (depth + 1) := by
  refine column_indent ?_ (depth + 1)
  obtain ⟨b, t, rfl⟩ := List.exists_cons_of_ne_nil hname.1
  refine Bytes.stops_cons ?_
  have hb := hname.2 b List.mem_cons_self
  by_contra h
  obtain rfl : b = 32 := by simpa using h
  exact absurd hb (by decide)

theorem outdented_group (hname : name.IsWord) (x : Option Capture) (child : Option Bytes) :
    Outdented (2 * (depth + 2)) (group depth name x child ++ r) := by
  refine .inr ?_
  cases x with
  | none =>
    rw [group_none_append, column_entry hname]
    omega
  | some c =>
    rw [group_some_append, column_entry hname]
    omega

theorem groupLines_cons_append (nested : Bytes → Option MatchTree) (x : Option Capture)
    (gs : Dict (Option Capture)) :
    groupLines depth nested ((name, x) :: gs) ++ r =
      group depth name x ((nested name).map (tree (depth + 2))) ++
        (groupLines depth nested gs ++ r) := by
  rw [groupLines, List.flatMap_cons, List.append_assoc]
  rfl

theorem outdented_groupLines {nested : Bytes → Option MatchTree} {gs : Dict (Option Capture)}
    (hwords : ∀ name ∈ gs.names, name.IsWord) (hr : Outdented (2 * (depth + 1)) r) :
    Outdented (2 * (depth + 2)) (groupLines depth nested gs ++ r) := by
  cases gs with
  | nil => exact hr.mono (by omega)
  | cons g rest =>
    obtain ⟨name, x⟩ := g
    rw [groupLines_cons_append]
    exact outdented_group (hwords _ List.mem_cons_self) _ _

/-- The lines of groups of the same names tell what each of them captured, and what is nested in
those that took part. -/
theorem groupLines_append_inj {nested nested' : Bytes → Option MatchTree}
    {gs gs' : Dict (Option Capture)} (hnames : gs.names = gs'.names)
    (hwords : ∀ name ∈ gs.names, name.IsWord)
    (hnested : ∀ name c, (name, some c) ∈ gs → (name, some c) ∈ gs' →
      Option.Rel (ToldApart (depth + 2)) (nested name) (nested' name))
    (hr : Outdented (2 * (depth + 1)) r) (hs : Outdented (2 * (depth + 1)) s)
    (h : groupLines depth nested gs ++ r = groupLines depth nested' gs' ++ s) :
    gs = gs' ∧ r = s ∧ ∀ name c, (name, some c) ∈ gs → nested name = nested' name := by
  induction gs generalizing gs' with
  | nil =>
    obtain rfl := List.map_eq_nil_iff.1 hnames.symm
    exact ⟨rfl, h, by simp⟩
  | cons g rest ih =>
    cases gs' with
    | nil => cases hnames
    | cons g' rest' =>
      obtain ⟨name, x⟩ := g
      obtain ⟨name', y⟩ := g'
      obtain rfl : name = name' := (List.cons.inj hnames).1
      have hrest : Dict.names rest = Dict.names rest' := (List.cons.inj hnames).2
      rw [groupLines_cons_append, groupLines_cons_append] at h
      have hwords' : ∀ name ∈ Dict.names rest, name.IsWord :=
        fun name hname => hwords name (List.mem_cons_of_mem _ hname)
      have ih := ih hrest hwords' fun name c hc hc' =>
        hnested name c (List.mem_cons_of_mem _ hc) (List.mem_cons_of_mem _ hc')
      rcases group_append_inj h with ⟨rfl, rfl, hlines⟩ | ⟨c, rfl, rfl, hlines⟩
      · obtain ⟨rfl, hrs, hsame⟩ := ih hlines
        refine ⟨rfl, hrs, fun other c hc => ?_⟩
        rcases List.mem_cons.1 hc with hc | hc
        · cases hc
        · exact hsame other c hc
      · -- what is nested ends at the line of the next group, which starts two columns further left
        have hrel := hnested name c List.mem_cons_self List.mem_cons_self
        obtain ⟨hfound, hlines⟩ := nested_append_inj hrel (outdented_groupLines hwords' hr)
          (outdented_groupLines (hrest ▸ hwords') hs) hlines
        obtain ⟨rfl, hrs, hsame⟩ := ih hlines
        refine ⟨rfl, hrs, fun other d hd => ?_⟩
        rcases List.mem_cons.1 hd with hd | hd
        · obtain ⟨rfl, -⟩ := Prod.mk.inj hd
          exact hfound
        · exact hsame other d hd

theorem occurrence_append (depth index : Nat) (o : Occurrence) (r : Bytes) :
    occurrence depth index o ++ r = indent depth ++ 91 :: (Decimal.ofNat index ++ (93 :: 32 ::
      (capture o.whole ++ 10 :: (groupLines depth o.nested o.groups ++ r)))) := by
  obtain ⟨whole, gs, children⟩ := o
  have hlookup (name : Bytes) : ((childDumps (depth + 2) children).lookup name).join =
      ((children.lookup name).join).map (tree (depth + 2)) := by
    rw [childDumps_eq, Dict.lookup_map fun _ => Option.map (tree (depth + 2)),
      Option.join_map_eq_map_join]
  simp only [occurrence, hlookup, List.append_assoc, List.cons_append]
  rfl

/-- Two occurrences of a node are told apart, if what their groups have nested is. -/
theorem occurrence_append_inj {n : PatternTree} {index : Nat} {o o' : Occurrence}
    (hwords : ∀ name, n.hasGroup name = true → name.IsWord) (ho : o.ListsExactly n)
    (ho' : o'.ListsExactly n)
    (hnested : ∀ name child a b, n.child? name = some child →
      o.children.lookup name = some (some a) → o'.children.lookup name = some (some b) →
      ToldApart (depth + 2) a b)
    (hr : Outdented (2 * (depth + 1)) r) (hs : Outdented (2 * (depth + 1)) s)
    (h : occurrence depth index o ++ r = occurrence depth index o' ++ s) : o = o' ∧ r = s := by
  rw [occurrence_append, occurrence_append] at h
  have h := List.append_cancel_left (List.cons.inj (List.append_cancel_left h)).2
  obtain ⟨hwhole, h⟩ := capture_append_inj (List.cons.inj (List.cons.inj h).2).2
  have hnames : Dict.names o.groups = Dict.names o'.groups :=
    Dict.names_eq_of_sorted ho.groups_sorted ho'.groups_sorted fun name => by
      rw [ho.groups_names, ho'.groups_names]
  obtain ⟨hgroups, hrs, hsame⟩ := groupLines_append_inj hnames
    (fun name hname => hwords name ((ho.groups_names name).1 hname))
    (fun name c hc hc' => ho.rel_nested ho' hc hc' (hnested name)) hr hs (List.cons.inj h).2
  have hchildren := ho.children_eq ho' hgroups hsame
  obtain ⟨whole, gs, children⟩ := o
  obtain ⟨whole', gs', children'⟩ := o'
  exact ⟨by rw [Occurrence.mk.injEq]; exact ⟨hwhole, hgroups, hchildren⟩, hrs⟩

theorem column_occurrence (depth index : Nat) (o : Occurrence) (r : Bytes) :
    column (occurrence depth index o ++ r) = 2 * depth := by
  rw [occurrence_append]
  exact column_indent (Bytes.stops_cons rfl) depth

theorem occurrences_cons_append (depth index : Nat) (o : Occurrence) (rest : MatchTree)
    (r : Bytes) : occurrences depth index (o :: rest) ++ r =
      occurrence depth index o ++ (occurrences depth (index + 1) rest ++ r) := by
  rw [occurrences, List.append_assoc]

theorem outdented_occurrences {index : Nat} {found : MatchTree} (hr : Outdented (2 * depth) r) :
    Outdented (2 * (depth + 1)) (occurrences depth index found ++ r) := by
  cases found with
  | nil => exact hr.mono (by omega)
  | cons o rest =>
    rw [occurrences_cons_append]
    exact .inr (by rw [column_occurrence]; omega)

/-- Where the lines of an occurrence follow, the dump of the tree is not over. -/
theorem Outdented.ne_occurrence {index : Nat} {o : Occurrence} (hr : Outdented (2 * depth) r) :
    r ≠ occurrence depth index o ++ s := by
  rintro rfl
  rcases hr with hnil | hlt
  · rw [occurrence_append] at hnil
    simp at hnil
  · rw [column_occurrence] at hlt
    exact Nat.lt_irrefl _ hlt

theorem occurrences_append_inj {n : PatternTree} {index : Nat} {a b : MatchTree}
    (hwords : ∀ name, n.hasGroup name = true → name.IsWord) (ha : ∀ o ∈ a, o.ListsExactly n)
    (hb : ∀ o ∈ b, o.ListsExactly n)
    (hnested : ∀ o ∈ a, ∀ o' ∈ b, ∀ name child found found', n.child? name = some child →
      o.children.lookup name = some (some found) → o'.children.lookup name = some (some found') →
      ToldApart (depth + 2) found found')
    (hr : Outdented (2 * depth) r) (hs : Outdented (2 * depth) s)
    (h : occurrences depth index a ++ r = occurrences depth index b ++ s) : a = b ∧ r = s := by
  induction a generalizing index b with
  | nil =>
    cases b with
    | nil => exact ⟨rfl, h⟩
    | cons o' b =>
      rw [occurrences_cons_append] at h
      exact absurd h hr.ne_occurrence
  | cons o a ih =>
    rw [occurrences_cons_append] at h
    cases b with
    | nil => exact absurd h.symm hs.ne_occurrence
    | cons o' b =>
      rw [occurrences_cons_append] at h
      obtain ⟨rfl, hlines⟩ := occurrence_append_inj hwords (ha o List.mem_cons_self)
        (hb o' List.mem_cons_self) (hnested o List.mem_cons_self o' List.mem_cons_self)
        (outdented_occurrences hr) (outdented_occurrences hs) h
      obtain ⟨rfl, hrs⟩ := ih (fun o ho => ha o (List.mem_cons_of_mem _ ho))
        (fun o ho => hb o (List.mem_cons_of_mem _ ho))
        (fun o ho o' ho' => hnested o (List.mem_cons_of_mem _ ho) o' (List.mem_cons_of_mem _ ho'))
        hlines
      exact ⟨rfl, hrs⟩

theorem tree_nil_append (depth : Nat) (r : Bytes) :
    tree depth [] ++ r = indent depth ++ 40 :: (Bytes.ofString "no matches)\n" ++ r) := by
  rw [tree, List.append_assoc]
  rfl

theorem tree_cons (depth : Nat) (o : Occurrence) (rest : MatchTree) :
    tree depth (o :: rest) = occurrences depth 0 (o :: rest) := by
  rw [tree, occurrences]

/-- A tree without occurrences says so where an occurrence would have its number. -/
theorem tree_nil_append_ne (o : Occurrence) (rest : MatchTree) :
    tree depth [] ++ r ≠ tree depth (o :: rest) ++ s := by
  intro h
  rw [tree_nil_append, tree_cons, occurrences_cons_append, occurrence_append] at h
  exact absurd (List.cons.inj (List.append_cancel_left h)).1 (by decide)

/-- By induction on the pattern tree: what a group has nested stands two levels further in. -/
theorem toldApart_of_conformsExactly {n : PatternTree} {a b : MatchTree}
    (hwords : ∀ p ∈ n.labels, ∀ name, p.hasGroup name = true → name.IsWord)
    (ha : ConformsExactly n a) (hb : ConformsExactly n b) (depth : Nat) :
    ToldApart depth a b := by
  induction n using NamedTree.induct generalizing a b depth with
  | node p branches ih =>
    intro r s hr hs h
    obtain ⟨ha, hdeep⟩ := ha
    obtain ⟨hb, hdeep'⟩ := hb
    have hnested : ∀ o ∈ a, ∀ o' ∈ b, ∀ name child found found',
        PatternTree.child? (.node p branches) name = some child →
        o.children.lookup name = some (some found) →
        o'.children.lookup name = some (some found') → ToldApart (depth + 2) found found' := by
      intro o ho o' ho' name child found found' hchild hfound hfound'
      have hsub := NamedTree.labels_subset_of_branch? hchild
      exact ih (name, child) (Dict.mem_of_lookup hchild) (fun p hp => hwords p (hsub hp))
        (hdeep o ho name child found hchild hfound) (hdeep' o' ho' name child found' hchild hfound')
        (depth + 2)
    cases a with
    | nil =>
      cases b with
      | nil => exact ⟨rfl, List.append_cancel_left h⟩
      | cons o' b => exact absurd h (tree_nil_append_ne o' b)
    | cons o a =>
      cases b with
      | nil => exact absurd h.symm (tree_nil_append_ne o a)
      | cons o' b =>
        rw [tree_cons, tree_cons] at h
        have hwords : ∀ name, PatternTree.hasGroup (.node p branches) name = true → name.IsWord :=
          hwords p (NamedTree.label_mem_labels (.node p branches))
        exact occurrences_append_inj hwords ha hb hnested hr hs h

end Dump

/-- The dump of a match tree loses nothing: trees that conform to one pattern tree, with any
stretches and texts, have the same dump only if they are the same. -/
theorem dump_injective {n : PatternTree} {a b : MatchTree}
    (hwords : ∀ p ∈ n.labels, ∀ name, p.hasGroup name = true → name.IsWord)
    (ha : ConformsExactly n a) (hb : ConformsExactly n b) (h : a.dump = b.dump) : a = b := by
  have happend : Dump.tree 0 a ++ [] = Dump.tree 0 b ++ [] := by
    rw [List.append_nil, List.append_nil]
    exact h
  exact (Dump.toldApart_of_conformsExactly hwords ha hb 0 [] [] (.inl rfl) (.inl rfl) happend).1

theorem isWord_of_hasGroup_bracketed :
    ∀ p ∈ bracketed.labels, ∀ name, p.hasGroup name = true → name.IsWord := by
  have hlabels : bracketed.labels = [bracketed.pattern, letter.pattern] := rfl
  intro p hp name hname
  have hmem : some name ∈ p.matcher.groupNames := Pattern.hasGroup_iff.1 hname
  rw [hlabels] at hp
  rcases List.mem_cons.1 hp with rfl | hp
  · obtain rfl : name = Bytes.ofString "w" := Option.some_inj.1 (List.mem_singleton.1 hmem)
    decide +kernel
  · obtain rfl := List.mem_singleton.1 hp
    cases hmem

/-- The letter between the brackets, found at position 10, known again from its dump. -/
theorem bracketed_known_from_dump :
    (∀ p ∈ bracketed.labels, ∀ name, p.hasGroup name = true → name.IsWord) ∧
      ConformsExactly bracketed (bracketed.occurrences (Bytes.ofString "x<b>") 10) ∧
      ConformsExactly bracketed [bracketedFound] ∧
      MatchTree.dump (bracketed.occurrences (Bytes.ofString "x<b>") 10) =
        MatchTree.dump [bracketedFound] ∧
      bracketed.occurrences (Bytes.ofString "x<b>") 10 = [bracketedFound] := by
  have hconforms := PatternTree.conformsExactly_occurrences ordered_bracketed
    (Bytes.ofString "x<b>") 10
  have hfound : ConformsExactly bracketed [bracketedFound] := occurrences_bracketed ▸ hconforms
  have hdump : MatchTree.dump (bracketed.occurrences (Bytes.ofString "x<b>") 10) =
      MatchTree.dump [bracketedFound] := by with_unfolding_all rfl
  exact ⟨isWord_of_hasGroup_bracketed, hconforms, hfound, hdump,
    dump_injective isWord_of_hasGroup_bracketed hconforms hfound hdump⟩

/-- A text that imitates the line of an occurrence stays on its own line. -/
example : MatchTree.dump [⟨⟨⟨0, 13⟩, Bytes.ofString "b\"\n[1] 4-5 \"b"⟩, [], []⟩] =
    Bytes.ofString "[0] 0-13 \"b\\\"\\n[1] 4-5 \\\"b\"\n" := by with_unfolding_all rfl

end NestedMatch
