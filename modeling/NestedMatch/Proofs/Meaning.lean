import NestedMatch.Engine.Table
import NestedMatch.Proofs.Conforming
import NestedMatch.Proofs.Reading

/-! What the occurrences of a match tree mean as a value of a shape, said without reading them. The
scope is a node of the pattern tree, or none for text that a group without a child captured. Main
statement: decoding gives exactly the values that the shape may ask for and the occurrences mean. -/

namespace NestedMatch

/-- Every field asked for is a group of the node it is asked of. -/
inductive Scoped : Shape → Option PatternTree → Prop
  | scalar {type : Scalar} {scope : Option PatternTree} : Scoped (.scalar type) scope
  | optional {inner : Shape} {scope : Option PatternTree} :
    Scoped inner scope → Scoped (.optional inner) scope
  | sequence {inner : Shape} {scope : Option PatternTree} :
    Scoped inner scope → Scoped (.sequence inner) scope
  | spanned {inner : Shape} {scope : Option PatternTree} :
    Scoped inner scope → Scoped (.spanned inner) scope
  | tuple {components : List Shape} {scope : Option PatternTree} :
    (∀ s ∈ components, Scoped s scope) → Scoped (.tuple components) scope
  | record {fields : List (Bytes × Shape)} {scope : Option PatternTree} :
    (∀ f ∈ fields, ∃ tree, scope = some tree ∧ tree.hasGroup f.1 = true) →
    (∀ f ∈ fields, Scoped f.2 (scope.bind fun tree => tree.child? f.1)) →
    Scoped (.record fields) scope

namespace Scoped

variable {inner : Shape} {scope : Option PatternTree}

theorem of_optional (h : Scoped (.optional inner) scope) : Scoped inner scope := by
  cases h; assumption

theorem of_sequence (h : Scoped (.sequence inner) scope) : Scoped inner scope := by
  cases h; assumption

theorem of_spanned (h : Scoped (.spanned inner) scope) : Scoped inner scope := by
  cases h; assumption

theorem of_tuple {components : List Shape} (h : Scoped (.tuple components) scope) :
    ∀ s ∈ components, Scoped s scope := by
  cases h; assumption

theorem of_record {fields : List (Bytes × Shape)} (h : Scoped (.record fields) scope) :
    (∀ f ∈ fields, ∃ tree, scope = some tree ∧ tree.hasGroup f.1 = true) ∧
      ∀ f ∈ fields, Scoped f.2 (scope.bind fun tree => tree.child? f.1) := by
  cases h
  exact ⟨‹_›, ‹_›⟩

end Scoped

/-- What a field is read from: the occurrences of its child, or what its group captured where the
node has no child of that name; nothing where the group took no part. -/
def Occurrence.field (o : Occurrence) (scope : Option PatternTree) (name : Bytes) :
    List Occurrence :=
  match scope.bind fun tree => tree.child? name with
  | some _ => (o.children.lookup name).join.getD []
  | none => ((o.groups.lookup name).join.map Occurrence.ofCapture).toList

inductive Means : Shape → Option PatternTree → List Occurrence → Value → Prop
  | scalar {type : Scalar} {scope : Option PatternTree} {o : Occurrence} {v : ScalarValue} :
    type.parse o.whole.text = some v → Means (.scalar type) scope [o] (.scalar v)
  | absent {inner : Shape} {scope : Option PatternTree} : Means (.optional inner) scope [] .absent
  | present {inner : Shape} {scope : Option PatternTree} {o : Occurrence} {v : Value} :
    Means inner scope [o] v → Means (.optional inner) scope [o] (.present v)
  | sequence {inner : Shape} {scope : Option PatternTree} {found : List Occurrence}
    {vs : List Value} : found.length = vs.length →
    (∀ o v, (o, v) ∈ found.zip vs → Means inner scope [o] v) →
    Means (.sequence inner) scope found (.sequence vs)
  | spanned {inner : Shape} {scope : Option PatternTree} {o : Occurrence} {v : Value} :
    Means inner scope [o] v → Means (.spanned inner) scope [o] (.spanned o.whole.span v)
  | tuple {components : List Shape} {scope : Option PatternTree} {found : List Occurrence}
    {vs : List Value} : found.length = components.length → found.length = vs.length →
    (∀ s o v, ((s, o), v) ∈ (components.zip found).zip vs → Means s scope [o] v) →
    Means (.tuple components) scope found (.tuple vs)
  | record {fields : List (Bytes × Shape)} {scope : Option PatternTree} {o : Occurrence}
    {vs : List (Bytes × Value)} : fields.length = vs.length →
    (∀ f w, (f, w) ∈ fields.zip vs → w.1 = f.1) →
    (∀ f w, (f, w) ∈ fields.zip vs →
      Means f.2 (scope.bind fun tree => tree.child? f.1) (o.field scope f.1) w.2) →
    Means (.record fields) scope [o] (.record vs)

theorem Fits.field {tree : PatternTree} {o : Occurrence} (h : Fits (some tree) [o]) (name : Bytes) :
    Fits (tree.child? name) (o.field (some tree) name) := by
  intro child hchild
  obtain ⟨-, h₂, h₃⟩ := h tree rfl
  obtain ⟨nested, hnested⟩ := h₂ o List.mem_cons_self name child hchild
  have hfield : o.field (some tree) name = nested.getD [] := by
    simp [Occurrence.field, hchild, hnested]
  rw [hfield]
  cases nested with
  | none => exact .intro (by simp) (by simp) (by simp)
  | some nested => exact h₃ o List.mem_cons_self name child nested hchild hnested

theorem fieldOccurrences_eq_field {tree : PatternTree} {o : Occurrence}
    (h : Fits (some tree) [o]) {name : Bytes} (hg : tree.hasGroup name = true) (path : Path) :
    Shape.fieldOccurrences (some tree) path name o = .ok (o.field (some tree) name) := by
  obtain ⟨h₁, h₂, -⟩ := h tree rfl
  unfold Shape.fieldOccurrences Occurrence.field
  rw [Option.bind_some]
  cases hchild : tree.child? name with
  | some child =>
    obtain ⟨nested, hnested⟩ := h₂ o List.mem_cons_self name child hchild
    simp [hchild, hnested]
  | none =>
    obtain ⟨c, hc⟩ := h₁ o List.mem_cons_self name hg
    simp [hchild, hc]

namespace Shape

theorem check_eq_ok_iff (s : Shape) (scope : Option PatternTree) (path : Path) :
    s.check scope path = .ok () ↔ Scoped s scope := by
  induction s generalizing scope path with
  | scalar type => exact ⟨fun _ => .scalar, fun _ => rfl⟩
  | optional inner ih => exact (ih scope path).trans ⟨.optional, fun | .optional h => h⟩
  | sequence inner ih => exact (ih scope path).trans ⟨.sequence, fun | .sequence h => h⟩
  | spanned inner ih => exact (ih scope path).trans ⟨.spanned, fun | .spanned h => h⟩
  | tuple components ih =>
    rw [check, checkComponents_eq_ok_iff fun s hs path => ih s hs scope path]
    exact ⟨.tuple, fun | .tuple h => h⟩
  | record fields ih =>
    rw [check, checkFields_eq_ok_iff (P := fun name s =>
      Scoped s (scope.bind fun tree => tree.child? name)) fun f hf path => ih f hf _ path]
    exact ⟨fun h => .record (fun f hf => (h f hf).1) fun f hf => (h f hf).2,
      fun | .record h₁ h₂ => fun f hf => ⟨h₁ f hf, h₂ f hf⟩⟩

/-! The rules read backwards, in the form in which the shapes are read. -/

section

variable {inner : Shape} {scope : Option PatternTree} {found : List Occurrence} {v : Value}

theorem means_scalar_iff {type : Scalar} :
    Means (.scalar type) scope found v ↔
      ∃ o w, found = [o] ∧ type.parse o.whole.text = some w ∧ v = .scalar w := by
  constructor
  · rintro ⟨h⟩
    exact ⟨_, _, rfl, h, rfl⟩
  · rintro ⟨o, w, rfl, h, rfl⟩
    exact .scalar h

theorem means_optional_iff :
    Means (.optional inner) scope found v ↔ (found = [] ∧ v = .absent) ∨
      ∃ o w, found = [o] ∧ Means inner scope [o] w ∧ v = .present w := by
  constructor
  · intro h
    cases h with
    | absent => exact .inl ⟨rfl, rfl⟩
    | present h => exact .inr ⟨_, _, rfl, h, rfl⟩
  · rintro (⟨rfl, rfl⟩ | ⟨o, w, rfl, h, rfl⟩)
    · exact .absent
    · exact .present h

theorem means_sequence_iff :
    Means (.sequence inner) scope found v ↔
      ∃ vs, List.Forall₂ (fun o w => Means inner scope [o] w) found vs ∧ v = .sequence vs := by
  simp only [List.forall₂_iff_zip]
  constructor
  · intro h
    cases h with
    | sequence hlen h => exact ⟨_, ⟨hlen, fun {o w} hmem => h o w hmem⟩, rfl⟩
  · rintro ⟨vs, ⟨hlen, h⟩, rfl⟩
    exact .sequence hlen fun o w hmem => h hmem

theorem means_spanned_iff :
    Means (.spanned inner) scope found v ↔
      ∃ o w, found = [o] ∧ Means inner scope [o] w ∧ v = .spanned o.whole.span w := by
  constructor
  · intro h
    cases h with
    | spanned h => exact ⟨_, _, rfl, h, rfl⟩
  · rintro ⟨o, w, rfl, h, rfl⟩
    exact .spanned h

theorem means_tuple_iff {components : List Shape} :
    Means (.tuple components) scope found v ↔ found.length = components.length ∧
      ∃ vs, List.Forall₂ (fun p w => Means p.1 scope [p.2] w) (components.zip found) vs ∧
        v = .tuple vs := by
  simp only [List.forall₂_iff_zip, List.length_zip]
  constructor
  · intro h
    cases h with
    | tuple hcount hlen h =>
      exact ⟨hcount, _, ⟨by omega, fun {p w} hmem => h p.1 p.2 w hmem⟩, rfl⟩
  · rintro ⟨hcount, vs, ⟨hlen, h⟩, rfl⟩
    exact .tuple hcount (by omega) fun s o w hmem => h hmem

theorem means_record_iff {fields : List (Bytes × Shape)} :
    Means (.record fields) scope found v ↔ ∃ o vs, found = [o] ∧
      List.Forall₂ (fun f w => w.1 = f.1 ∧
        Means f.2 (scope.bind fun tree => tree.child? f.1) (o.field scope f.1) w.2) fields vs ∧
      v = .record vs := by
  simp only [List.forall₂_iff_zip]
  constructor
  · intro h
    cases h with
    | record hlen hnames h =>
      exact ⟨_, _, rfl, ⟨hlen, fun {f w} hmem => ⟨hnames f w hmem, h f w hmem⟩⟩, rfl⟩
  · rintro ⟨o, vs, rfl, ⟨hlen, h⟩, rfl⟩
    exact .record hlen (fun f w hmem => (h hmem).1) fun f w hmem => (h hmem).2

end

theorem read_eq_ok_iff {s : Shape} {scope : Option PatternTree} (hs : Scoped s scope) {path : Path}
    {found : List Occurrence} (hfound : Fits scope found) {v : Value} :
    s.read scope path found = .ok v ↔ Means s scope found v := by
  induction s generalizing scope path found v with
  | scalar type => rw [read_scalar_eq_ok, means_scalar_iff]
  | optional inner ih =>
    rw [read_optional_eq_ok, means_optional_iff]
    refine or_congr Iff.rfl (exists_congr fun o => exists_congr fun w => and_congr_right fun h => ?_)
    rw [ih hs.of_optional (h ▸ hfound)]
  | sequence inner ih =>
    rw [read_sequence_eq_ok, means_sequence_iff]
    refine exists_congr fun vs => and_congr_left fun _ => ?_
    exact readEach_eq_ok_iff fun i o ho w => ih hs.of_sequence (hfound.singleton ho)
  | spanned inner ih =>
    rw [read_spanned_eq_ok, means_spanned_iff]
    refine exists_congr fun o => exists_congr fun w => and_congr_right fun h => ?_
    rw [ih hs.of_spanned (h ▸ hfound)]
  | tuple components ih =>
    rw [read_tuple_eq_ok, means_tuple_iff]
    refine and_congr_right fun hlen => exists_congr fun vs => and_congr_left fun _ => ?_
    exact readComponents_eq_ok_iff
      (fun s hmem path o ho w => ih s hmem (hs.of_tuple s hmem) (hfound.singleton ho)) hlen
  | record fields ih =>
    obtain ⟨hgroups, hs⟩ := hs.of_record
    rw [read_record_eq_ok, means_record_iff]
    refine exists_congr fun o => exists_congr fun vs => and_congr_right fun h => ?_
    subst h
    refine and_congr_left fun _ => readFields_eq_ok_iff (R := fun name s w =>
      Means s (scope.bind fun tree => tree.child? name) (o.field scope name) w) fun f hf => ?_
    obtain ⟨tree, rfl, hg⟩ := hgroups f hf
    exact ⟨_, fieldOccurrences_eq_field hfound hg path, fun w => ih f hf (hs f hf) (hfound.field f.1)⟩

end Shape

/-- Decoding gives a value exactly when every field asked for is a group and the occurrences mean
that value. -/
theorem decode_eq_ok_iff (s : Shape) (tree : PatternTree) (found : MatchTree)
    (h : Conforms tree found) (v : Value) :
    s.decode tree found = .ok v ↔ Scoped s (some tree) ∧ Means s (some tree) found v := by
  have hfits : Fits (some tree) found := fun _ he => Option.some_inj.1 he ▸ h
  rw [Shape.decode, bind_eq_ok, ← s.check_eq_ok_iff (some tree) Path.root]
  constructor
  · rintro ⟨⟨⟩, hcheck, hread⟩
    exact ⟨hcheck, (Shape.read_eq_ok_iff ((s.check_eq_ok_iff _ _).1 hcheck) hfits).1 hread⟩
  · rintro ⟨hcheck, hmeans⟩
    exact ⟨(), hcheck, (Shape.read_eq_ok_iff ((s.check_eq_ok_iff _ _).1 hcheck) hfits).2 hmeans⟩

/-- A name and a list of numbers, with a child for the numbers alone. -/
def assignment : PatternTree :=
  .node ⟨Bytes.ofString "(?P<key>[a-z]+)=(?P<nums>.*)",
      Engine.tableMatcher [some (Bytes.ofString "key"), some (Bytes.ofString "nums")]
        [(Bytes.ofString "ab=1,23", [⟨⟨0, 7⟩, [some ⟨0, 2⟩, some ⟨3, 7⟩]⟩])]⟩
    [(Bytes.ofString "nums", .leaf ⟨Bytes.ofString "[0-9]+",
      Engine.tableMatcher [] [(Bytes.ofString "1,23", [⟨⟨0, 1⟩, []⟩, ⟨⟨2, 4⟩, []⟩])]⟩)]

def assignmentShape : Shape :=
  .record [(Bytes.ofString "key", .scalar .string),
    (Bytes.ofString "nums", .sequence (.spanned (.scalar (.integer ⟨false, .w8⟩))))]

def assignmentValue : Value :=
  .record [(Bytes.ofString "key", .scalar (.text (Bytes.ofString "ab"))),
    (Bytes.ofString "nums", .sequence [.spanned ⟨3, 4⟩ (.scalar (.integer 1)),
      .spanned ⟨5, 7⟩ (.scalar (.integer 23))])]

/-- A field read from a child beside one read from a group alone. -/
theorem assignment_means :
    Conforms assignment (assignment.occurrences (Bytes.ofString "ab=1,23") 0) ∧
      Scoped assignmentShape (some assignment) ∧
      Means assignmentShape (some assignment)
        (assignment.occurrences (Bytes.ofString "ab=1,23") 0) assignmentValue := by
  have hconforms := assignment.conforms_occurrences (Bytes.ofString "ab=1,23") 0
  have hdecode : assignmentShape.decode assignment
      (assignment.occurrences (Bytes.ofString "ab=1,23") 0) = .ok assignmentValue := by
    with_unfolding_all rfl
  exact ⟨hconforms, (decode_eq_ok_iff _ _ _ hconforms _).1 hdecode⟩

end NestedMatch
