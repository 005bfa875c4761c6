import NestedMatch.Proofs.Faithful
import NestedMatch.Proofs.Meaning

/-! Spans in a decoded value point at the text they were decoded from, and a span inside another
value's span lies inside it. What is followed through the shape is that the occurrences at hand
belong to the text, and that every span below an occurrence lies inside the occurrence. -/

namespace NestedMatch

namespace Value

/-- The values directly inside. -/
def parts : Value → List Value
  | .scalar _ => []
  | .absent => []
  | .present v => [v]
  | .sequence elements => elements
  | .spanned _ v => [v]
  | .tuple components => components
  | .record fields => fields.map Prod.snd

/-- The second value is the first or stands somewhere in it, at any depth. -/
inductive Contains : Value → Value → Prop
  | self (v : Value) : Contains v v
  | inside {v part w : Value} : part ∈ v.parts → Contains part w → Contains v w

end Value

/-- The occurrence belongs to the text: its node matched a part of the text there, or a group
without a child captured it there. -/
def Grounded (text : Bytes) : Option PatternTree → Occurrence → Prop
  | some tree, o => (∀ p ∈ tree.labels, p.GroupsInside) ∧
    ∃ c : Capture, c.Reads text 0 ∧ o ∈ tree.occurrences c.text c.span.start
  | none, o => ∃ c : Capture, c.Reads text 0 ∧ o = .ofCapture c

/-- What a field is read from was captured by the group of its name. -/
theorem Occurrence.exists_capture_of_mem_field {tree : PatternTree} {text : Bytes} {k : Nat}
    {o o' : Occurrence} {name : Bytes} (h : o ∈ tree.occurrences text k)
    (h' : o' ∈ o.field (some tree) name) : ∃ c, o.groups.lookup name = some (some c) ∧
      ((∃ child, tree.child? name = some child ∧ o' ∈ child.occurrences c.text c.span.start) ∨
        tree.child? name = none ∧ o' = .ofCapture c) := by
  unfold field at h'
  rw [Option.bind_some] at h'
  cases hchild : tree.child? name with
  | some child =>
    simp only [hchild] at h'
    cases hnested : (o.children.lookup name).join with
    | none => simp [hnested] at h'
    | some nested =>
      rw [hnested, Option.getD_some] at h'
      obtain ⟨c, hc, rfl⟩ := PatternTree.nested_eq h hchild (Option.join_eq_some_iff.1 hnested)
      exact ⟨c, hc, .inl ⟨child, rfl, h'⟩⟩
  | none =>
    simp only [hchild, Option.mem_toList, Option.map_eq_some_iff] at h'
    obtain ⟨c, hc, rfl⟩ := h'
    exact ⟨c, Option.join_eq_some_iff.1 hc, .inr ⟨rfl, rfl⟩⟩

namespace Grounded

variable {text : Bytes} {scope : Option PatternTree} {o o' : Occurrence} {name : Bytes}

theorem of_mem_occurrences {tree : PatternTree} (hp : ∀ p ∈ tree.labels, p.GroupsInside)
    (h : o ∈ tree.occurrences text 0) : Grounded text (some tree) o := by
  refine ⟨hp, ⟨⟨0, text.length⟩, text⟩, ⟨?_, ?_⟩, h⟩
  · simp [Span.Inside]
  · simp [Span.cut, Span.size]

theorem reads (h : Grounded text scope o) : o.whole.Reads text 0 := by
  cases scope with
  | none =>
    obtain ⟨c, hc, rfl⟩ := h
    exact hc
  | some tree =>
    obtain ⟨hp, c, hc, ho⟩ := h
    exact hc.trans (PatternTree.reads_of_mem (hp _ tree.label_mem_labels) ho (.inl rfl))

theorem field (h : Grounded text scope o) (h' : o' ∈ o.field scope name) :
    Grounded text (scope.bind fun tree => tree.child? name) o' ∧
      o'.whole.span.Inside o.whole.span := by
  cases scope with
  | none =>
    obtain ⟨c, -, rfl⟩ := h
    simp [Occurrence.field, Occurrence.ofCapture] at h'
  | some tree =>
    obtain ⟨hp, d, hd, ho⟩ := h
    obtain ⟨c, hc, hfrom⟩ := Occurrence.exists_capture_of_mem_field ho h'
    obtain ⟨hinside, hreads⟩ := PatternTree.group_inside_of_mem (hp _ tree.label_mem_labels) ho hc
    rw [Option.bind_some]
    rcases hfrom with ⟨child, hchild, ho'⟩ | ⟨hchild, rfl⟩
    · have hsub := NamedTree.labels_subset_of_branch? hchild
      have hp' : ∀ p ∈ child.labels, p.GroupsInside := fun p hmem => hp p (hsub hmem)
      have hwhole := PatternTree.reads_of_mem (hp' _ child.label_mem_labels) ho' (.inl rfl)
      rw [hchild]
      exact ⟨⟨hp', c, hd.trans hreads, ho'⟩, (hreads.inside hwhole).trans hinside⟩
    · rw [hchild]
      exact ⟨⟨c, hd.trans hreads, rfl⟩, hinside⟩

end Grounded

/-- The spans of a value read from `found`: each lies inside an occurrence, a text under a span is
the text that stands there, and spans below a span lie inside it. -/
structure Placed (text : Bytes) (found : List Occurrence) (v : Value) : Prop where
  inside : ∀ span w, v.Contains (.spanned span w) → ∃ o ∈ found, span.Inside o.whole.span
  reads : ∀ span t, v.Contains (.spanned span (.scalar (.text t))) →
    (⟨span, t⟩ : Capture).Reads text 0
  nested : ∀ outer w, v.Contains (.spanned outer w) → ∀ inner u, w.Contains (.spanned inner u) →
    inner.Inside outer

namespace Placed

variable {text : Bytes} {found found' : List Occurrence} {o : Occurrence} {v : Value}

theorem mono (h : Placed text found v)
    (hsub : ∀ o ∈ found, ∃ o' ∈ found', o.whole.span.Inside o'.whole.span) :
    Placed text found' v where
  inside span w hw := by
    obtain ⟨o, ho, hspan⟩ := h.inside span w hw
    obtain ⟨o', ho', hinside⟩ := hsub o ho
    exact ⟨o', ho', hspan.trans hinside⟩
  reads := h.reads
  nested := h.nested

theorem of_mem (h : Placed text [o] v) (ho : o ∈ found) (hreads : o.whole.Reads text 0) :
    Placed text found v := by
  apply h.mono
  intro o' ho'
  obtain rfl := List.mem_singleton.1 ho'
  exact ⟨_, ho, .refl hreads.start_le_stop⟩

/-- A value that adds no span of its own is placed where its parts are. -/
theorem of_parts (hv : ∀ span w, v ≠ .spanned span w)
    (h : ∀ part ∈ v.parts, Placed text found part) : Placed text found v where
  inside span w hw := by
    cases hw with
    | self => exact absurd rfl (hv span w)
    | inside hpart hw => exact (h _ hpart).inside span w hw
  reads span t ht := by
    cases ht with
    | self => exact absurd rfl (hv span _)
    | inside hpart ht => exact (h _ hpart).reads span t ht
  nested outer w hw := by
    cases hw with
    | self => exact absurd rfl (hv outer w)
    | inside hpart hw => exact (h _ hpart).nested outer w hw

theorem spanned (h : Placed text [o] v) (ho : o.whole.Reads text 0)
    (hv : ∀ t, v = .scalar (.text t) → t = o.whole.text) :
    Placed text [o] (.spanned o.whole.span v) where
  inside span w hw := by
    cases hw with
    | self => exact ⟨o, List.mem_singleton_self o, .refl ho.start_le_stop⟩
    | inside hpart hw =>
      obtain rfl := List.mem_singleton.1 hpart
      exact h.inside span w hw
  reads span t ht := by
    cases ht with
    | self =>
      obtain rfl := hv t rfl
      exact ho
    | inside hpart ht =>
      obtain rfl := List.mem_singleton.1 hpart
      exact h.reads span t ht
  nested outer w hw inner u hu := by
    cases hw with
    | self =>
      obtain ⟨o', ho', hinner⟩ := h.inside inner u hu
      obtain rfl := List.mem_singleton.1 ho'
      exact hinner
    | inside hpart hw =>
      obtain rfl := List.mem_singleton.1 hpart
      exact h.nested outer w hw inner u hu

end Placed

theorem exists_zip_of_mem {α β : Type} {as : List α} {bs : List β} {b : β}
    (hlen : as.length = bs.length) (hb : b ∈ bs) : ∃ a ∈ as, (a, b) ∈ as.zip bs := by
  rw [← List.map_snd_zip (Nat.le_of_eq hlen.symm), List.mem_map] at hb
  obtain ⟨⟨a, b⟩, hmem, rfl⟩ := hb
  exact ⟨a, (List.of_mem_zip hmem).1, hmem⟩

/-- By induction on the rules. The fields of a record are read from other occurrences than its own,
so the statement speaks of the occurrences at hand and not of the text alone. -/
theorem Means.placed {text : Bytes} {s : Shape} {scope : Option PatternTree}
    {found : List Occurrence} {v : Value} (h : Means s scope found v)
    (hg : ∀ o ∈ found, Grounded text scope o) : Placed text found v := by
  have single {scope : Option PatternTree} {found : List Occurrence} {o : Occurrence}
      (hg : ∀ o ∈ found, Grounded text scope o) (ho : o ∈ found) :
      ∀ o' ∈ [o], Grounded text scope o' := by
    intro o' ho'
    obtain rfl := List.mem_singleton.1 ho'
    exact hg _ ho
  induction h with
  | scalar hv => exact .of_parts (by simp) (by simp [Value.parts])
  | absent => exact .of_parts (by simp) (by simp [Value.parts])
  | present h ih => exact .of_parts (by simp) (by simpa [Value.parts] using ih hg)
  | sequence hlen h ih =>
    apply Placed.of_parts
    · simp
    · intro v hv
      obtain ⟨o, ho, hmem⟩ := exists_zip_of_mem hlen hv
      exact (ih o v hmem (single hg ho)).of_mem ho (hg o ho).reads
  | @spanned inner scope o v h ih =>
    apply (ih hg).spanned (hg o (List.mem_singleton_self o)).reads
    intro t hv
    subst hv
    cases h with
    | scalar hparse => exact Scalar.eq_of_parse_eq_text hparse
  | @tuple components scope found vs hcount hlen h ih =>
    have hzip : (components.zip found).length = vs.length := by
      rw [List.length_zip]
      omega
    apply Placed.of_parts
    · simp
    · intro v hv
      obtain ⟨⟨s, o⟩, hso, hmem⟩ := exists_zip_of_mem hzip hv
      have ho := (List.of_mem_zip hso).2
      exact (ih s o v hmem (single hg ho)).of_mem ho (hg o ho).reads
  | @record fields scope o vs hlen hnames h ih =>
    have ho := hg o (List.mem_singleton_self o)
    apply Placed.of_parts
    · simp
    · intro v hv
      obtain ⟨w, hw, rfl⟩ := List.mem_map.1 hv
      obtain ⟨f, -, hmem⟩ := exists_zip_of_mem hlen hw
      apply (ih f w hmem fun o' ho' => (ho.field ho').1).mono
      intro o' ho'
      exact ⟨o, List.mem_singleton_self o, (ho.field ho').2⟩

/-- Where a text is decoded, a text under a span is the text that stands there, and a span inside
another's value lies inside the other. Of the engine it is only asked that groups lie inside their
match. -/
theorem spans_point_at_text (s : Shape) (tree : PatternTree) (text : Bytes) (v : Value)
    (hp : ∀ p ∈ tree.labels, p.GroupsInside) (h : s.decodeText tree text = .ok v) :
    (∀ span t, v.Contains (.spanned span (.scalar (.text t))) →
      span.start ≤ span.stop ∧ span.stop ≤ text.length ∧ t = span.cut text) ∧
      ∀ outer w inner u, v.Contains (.spanned outer w) → w.Contains (.spanned inner u) →
        inner.Inside outer := by
  obtain ⟨⟨⟩, hcheck, hread⟩ := bind_eq_ok.1 h
  have hscoped := (s.check_eq_ok_iff (some tree) Path.root).1 hcheck
  have hmeans := (Shape.read_eq_ok_iff hscoped (tree.conforms_occurrences text 0).fits).1 hread
  have hplaced := hmeans.placed fun o ho => Grounded.of_mem_occurrences hp ho
  constructor
  · intro span t ht
    obtain ⟨⟨-, hle, hstop⟩, htext⟩ := hplaced.reads span t ht
    exact ⟨hle, by simpa using hstop, htext⟩
  · intro outer w inner u hw hu
    exact hplaced.nested outer w hw inner u hu

theorem groupsInside_assignment : ∀ p ∈ assignment.labels, p.GroupsInside := by
  have hlabels : assignment.labels = [assignment.pattern, _] := rfl
  intro p hp
  rw [hlabels] at hp
  rcases List.mem_cons.1 hp with rfl | hp
  · exact groupsInside_tableMatcher (by decide)
  · obtain rfl := List.mem_singleton.1 hp
    exact groupsInside_tableMatcher (by decide)

/-- The whole assignment, its name and each of its numbers, all with their positions. -/
def locatedShape : Shape :=
  .spanned (.record [(Bytes.ofString "key", .spanned (.scalar .string)),
    (Bytes.ofString "nums", .sequence (.spanned (.scalar .view)))])

def locatedNumbers : Value :=
  .sequence [.spanned ⟨3, 4⟩ (.scalar (.text (Bytes.ofString "1"))),
    .spanned ⟨5, 7⟩ (.scalar (.text (Bytes.ofString "23")))]

def locatedFields : Value :=
  .record [(Bytes.ofString "key", .spanned ⟨0, 2⟩ (.scalar (.text (Bytes.ofString "ab")))),
    (Bytes.ofString "nums", locatedNumbers)]

/-- The second number of the list stands inside the whole assignment. -/
theorem located_number :
    (∀ p ∈ assignment.labels, p.GroupsInside) ∧
      locatedShape.decodeText assignment (Bytes.ofString "ab=1,23") =
        .ok (.spanned ⟨0, 7⟩ locatedFields) ∧
      Bytes.ofString "23" = (⟨5, 7⟩ : Span).cut (Bytes.ofString "ab=1,23") ∧
      (⟨5, 7⟩ : Span).Inside ⟨0, 7⟩ := by
  have hdecode : locatedShape.decodeText assignment (Bytes.ofString "ab=1,23") =
      .ok (.spanned ⟨0, 7⟩ locatedFields) := by
    with_unfolding_all rfl
  have hnumber : locatedFields.Contains
      (.spanned ⟨5, 7⟩ (.scalar (.text (Bytes.ofString "23")))) := by
    have hlist : locatedNumbers ∈ locatedFields.parts := by simp [locatedFields, Value.parts]
    refine .inside hlist (.inside ?_ (.self _))
    simp [locatedNumbers, Value.parts]
  obtain ⟨hreads, hnested⟩ := spans_point_at_text locatedShape assignment
    (Bytes.ofString "ab=1,23") (.spanned ⟨0, 7⟩ locatedFields) groupsInside_assignment hdecode
  obtain ⟨-, -, htext⟩ := hreads ⟨5, 7⟩ (Bytes.ofString "23")
    (.inside (List.mem_singleton_self _) hnumber)
  exact ⟨groupsInside_assignment, hdecode, htext,
    hnested ⟨0, 7⟩ locatedFields ⟨5, 7⟩ _ (.self _) hnumber⟩

end NestedMatch
