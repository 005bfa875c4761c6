import NestedMatch.Proofs.Meaning

/-! What reading needs of a match tree and does not look after: a field is asked only of a node that
has a group of its name, and what is looked up under the name is listed. Any error of a reading that
is not about the occurrences themselves comes from a field it asks for, so it is enough to follow the
fields asked for, through every shape and down the pattern tree. -/

namespace NestedMatch

/-- The error is about the occurrences found: how many there are, or the text of one. -/
def DecodeError.IsMisreading : DecodeError → Prop
  | .arity .. => True
  | .unreadable .. => True
  | _ => False

/-- `Asks s scope found scope' o name`: reading `found` in `scope` comes to a field `name`, to be read
from the occurrence `o` in `scope'`. A field counts also where an earlier fault ends the reading
before it. -/
inductive Asks :
    Shape → Option PatternTree → List Occurrence → Option PatternTree → Occurrence → Bytes → Prop
  | optional {inner : Shape} {scope scope' : Option PatternTree} {o o' : Occurrence} {name : Bytes} :
    Asks inner scope [o] scope' o' name → Asks (.optional inner) scope [o] scope' o' name
  | sequence {inner : Shape} {scope scope' : Option PatternTree} {found : List Occurrence}
    {o o' : Occurrence} {name : Bytes} : o ∈ found →
    Asks inner scope [o] scope' o' name → Asks (.sequence inner) scope found scope' o' name
  | spanned {inner : Shape} {scope scope' : Option PatternTree} {o o' : Occurrence} {name : Bytes} :
    Asks inner scope [o] scope' o' name → Asks (.spanned inner) scope [o] scope' o' name
  | tuple {components : List Shape} {scope scope' : Option PatternTree} {found : List Occurrence}
    {s : Shape} {o o' : Occurrence} {name : Bytes} : found.length = components.length →
    (s, o) ∈ components.zip found → Asks s scope [o] scope' o' name →
    Asks (.tuple components) scope found scope' o' name
  | here {fields : List (Bytes × Shape)} {scope : Option PatternTree} {o : Occurrence}
    {f : Bytes × Shape} : f ∈ fields → Asks (.record fields) scope [o] scope o f.1
  | deeper {fields : List (Bytes × Shape)} {scope scope' : Option PatternTree} {o o' : Occurrence}
    {f : Bytes × Shape} {name : Bytes} : f ∈ fields →
    Asks f.2 (scope.bind fun tree => tree.child? f.1) (o.field scope f.1) scope' o' name →
    Asks (.record fields) scope [o] scope' o' name

/-- The error is about the occurrences found, or it is the one of a field asked for. -/
def Explained (s : Shape) (scope : Option PatternTree) (found : List Occurrence)
    (e : DecodeError) : Prop :=
  e.IsMisreading ∨ ∃ scope' o name path, Asks s scope found scope' o name ∧
    Shape.fieldOccurrences scope' path name o = .error e

theorem Explained.mono {s t : Shape} {a b : Option PatternTree} {found found' : List Occurrence}
    {e : DecodeError} (h : Explained s a found e)
    (hsub : ∀ scope o name, Asks s a found scope o name → Asks t b found' scope o name) :
    Explained t b found' e := by
  rcases h with h | ⟨scope, o, name, path, hasks, hcause⟩
  · exact .inl h
  · exact .inr ⟨scope, o, name, path, hsub scope o name hasks, hcause⟩

/-- The scope is a node with a group of the name, and the occurrence has an entry under the name
where the field is looked up: among its children, or among its groups where the node has no child
of the name. -/
def Answers (scope : Option PatternTree) (o : Occurrence) (name : Bytes) : Prop :=
  ∃ tree, scope = some tree ∧ tree.hasGroup name = true ∧
    (∀ child, tree.child? name = some child → ∃ nested, o.children.lookup name = some nested) ∧
    (tree.child? name = none → ∃ c, o.groups.lookup name = some c)

/-- Reading asks for no field that has no answer, and fails only over the occurrences found. -/
structure SafelyRead (s : Shape) (tree : PatternTree) (found : MatchTree) : Prop where
  answered : ∀ scope o name, Asks s (some tree) found scope o name → Answers scope o name
  errors : ∀ path e, s.read (some tree) path found = .error e → e.IsMisreading

namespace Shape

theorem eq_field_of_fieldOccurrences {scope : Option PatternTree} {path : Path} {name : Bytes}
    {o : Occurrence} {found : List Occurrence}
    (h : fieldOccurrences scope path name o = .ok found) : found = o.field scope name := by
  unfold fieldOccurrences at h
  cases scope with
  | none => simp at h
  | some tree =>
    unfold Occurrence.field
    rw [Option.bind_some]
    dsimp only at h
    cases hchild : tree.child? name with
    | some child =>
      rw [hchild] at h
      cases hnested : o.children.lookup name with
      | none => simp [hnested] at h
      | some nested =>
        simp only [hnested, Except.ok.injEq] at h
        exact h.symm
    | none =>
      rw [hchild] at h
      cases hc : o.groups.lookup name with
      | none => simp [hc] at h
      | some c =>
        simp only [hc, Except.ok.injEq] at h
        exact h.symm

theorem exists_of_readEach_error {read : Nat → Occurrence → Except DecodeError Value} {i : Nat}
    {found : List Occurrence} {e : DecodeError} (h : readEach read i found = .error e) :
    ∃ j, ∃ o ∈ found, read j o = .error e := by
  induction found generalizing i with
  | nil => cases h
  | cons o rest ih =>
    rw [readEach, bind_eq_error] at h
    rcases h with h | ⟨v, -, h⟩
    · exact ⟨i, o, List.mem_cons_self, h⟩
    · rcases bind_eq_error.1 h with h | ⟨vs, -, h⟩
      · obtain ⟨j, o', ho', hread⟩ := ih h
        exact ⟨j, o', List.mem_cons_of_mem _ ho', hread⟩
      · exact absurd h pure_ne_error

theorem exists_of_readComponents_error {scope : Option PatternTree} {path : Path}
    {components : List Shape} {i : Nat} {found : List Occurrence} {e : DecodeError}
    (h : readComponents components scope path i found = .error e)
    (hlen : found.length = components.length) :
    ∃ s o path, (s, o) ∈ components.zip found ∧ s.read scope path [o] = .error e := by
  induction components generalizing i found with
  | nil => cases h
  | cons s rest ih =>
    cases found with
    | nil => simp at hlen
    | cons o found =>
      rw [readComponents, bind_eq_error] at h
      rcases h with h | ⟨v, -, h⟩
      · exact ⟨s, o, _, List.mem_cons_self, h⟩
      · rcases bind_eq_error.1 h with h | ⟨vs, -, h⟩
        · obtain ⟨t, o', path, hmem, hread⟩ := ih h (Nat.succ_inj.1 hlen)
          exact ⟨t, o', path, List.mem_cons_of_mem _ hmem, hread⟩
        · exact absurd h pure_ne_error

theorem exists_of_readFields_error {scope : Option PatternTree} {path : Path} {o : Occurrence}
    {fields : List (Bytes × Shape)} {e : DecodeError}
    (h : readFields fields scope path o = .error e) :
    ∃ f ∈ fields, fieldOccurrences scope path f.1 o = .error e ∨
      f.2.read (scope.bind fun tree => tree.child? f.1) (path.member f.1) (o.field scope f.1) =
        .error e := by
  induction fields with
  | nil => cases h
  | cons f rest ih =>
    obtain ⟨name, s⟩ := f
    rw [readFields, bind_eq_error] at h
    rcases h with h | ⟨found, hfound, h⟩
    · exact ⟨(name, s), List.mem_cons_self, .inl h⟩
    · obtain rfl := eq_field_of_fieldOccurrences hfound
      rcases bind_eq_error.1 h with h | ⟨v, -, h⟩
      · exact ⟨(name, s), List.mem_cons_self, .inr h⟩
      · rcases bind_eq_error.1 h with h | ⟨vs, -, h⟩
        · obtain ⟨f, hf, hcause⟩ := ih h
          exact ⟨f, List.mem_cons_of_mem _ hf, hcause⟩
        · exact absurd h pure_ne_error

/-- Whatever the scope and the occurrences are, an error is explained. -/
theorem explained_of_read_error {s : Shape} {scope : Option PatternTree} {path : Path}
    {found : List Occurrence} {e : DecodeError} (h : s.read scope path found = .error e) :
    Explained s scope found e := by
  induction s generalizing scope path found with
  | scalar type =>
    left
    rcases found with _ | ⟨o, _ | ⟨o', rest⟩⟩
    · cases h
      trivial
    · rw [read] at h
      split at h
      · cases h
      · cases h
        trivial
    · cases h
      trivial
  | optional inner ih =>
    rcases found with _ | ⟨o, _ | ⟨o', rest⟩⟩
    · cases h
    · rw [read, map_eq_error] at h
      exact (ih h).mono fun _ _ _ => .optional
    · cases h
      exact .inl trivial
  | sequence inner ih =>
    rw [read, map_eq_error] at h
    obtain ⟨i, o, ho, hread⟩ := exists_of_readEach_error h
    exact (ih hread).mono fun _ _ _ => .sequence ho
  | spanned inner ih =>
    rcases found with _ | ⟨o, _ | ⟨o', rest⟩⟩
    · cases h
      exact .inl trivial
    · rw [read, map_eq_error] at h
      exact (ih h).mono fun _ _ _ => .spanned
    · cases h
      exact .inl trivial
  | tuple components ih =>
    rw [read] at h
    split at h
    · rename_i hlen
      rw [map_eq_error] at h
      obtain ⟨s, o, path, hmem, hread⟩ := exists_of_readComponents_error h hlen
      exact (ih s (List.of_mem_zip hmem).1 hread).mono fun _ _ _ => .tuple hlen hmem
    · cases h
      exact .inl trivial
  | record fields ih =>
    rcases found with _ | ⟨o, _ | ⟨o', rest⟩⟩
    · cases h
      exact .inl trivial
    · rw [read, map_eq_error] at h
      obtain ⟨f, hf, hcause | hread⟩ := exists_of_readFields_error h
      · exact .inr ⟨scope, o, f.1, path, .here hf, hcause⟩
      · exact (ih f hf hread).mono fun _ _ _ => .deeper hf
    · cases h
      exact .inl trivial

end Shape

theorem Answers.of_fits {tree : PatternTree} {o : Occurrence} (h : Fits (some tree) [o])
    {name : Bytes} (hg : tree.hasGroup name = true) : Answers (some tree) o name := by
  obtain ⟨h₁, h₂, -⟩ := h tree rfl
  exact ⟨tree, rfl, hg, fun child hchild => h₂ o List.mem_cons_self name child hchild,
    fun _ => h₁ o List.mem_cons_self name hg⟩

theorem Answers.fieldOccurrences_ne_error {scope : Option PatternTree} {o : Occurrence}
    {name : Bytes} (h : Answers scope o name) (path : Path) (e : DecodeError) :
    Shape.fieldOccurrences scope path name o ≠ .error e := by
  obtain ⟨tree, rfl, -, hchildren, hgroups⟩ := h
  unfold Shape.fieldOccurrences
  cases hchild : tree.child? name with
  | some child =>
    obtain ⟨nested, hnested⟩ := hchildren child hchild
    simp [hchild, hnested]
  | none =>
    obtain ⟨c, hc⟩ := hgroups hchild
    simp [hchild, hc]

/-- By induction on the fields asked for: shape, node and occurrences go down together, and checking
has gone the same way. -/
theorem Asks.answers {s : Shape} {scope scope' : Option PatternTree} {found : List Occurrence}
    {o : Occurrence} {name : Bytes} (h : Asks s scope found scope' o name) (hs : Scoped s scope)
    (hfound : Fits scope found) : Answers scope' o name := by
  induction h with
  | optional _ ih => exact ih hs.of_optional hfound
  | sequence ho _ ih => exact ih hs.of_sequence (hfound.singleton ho)
  | spanned _ ih => exact ih hs.of_spanned hfound
  | tuple _ hmem _ ih =>
    obtain ⟨hmem, ho⟩ := List.of_mem_zip hmem
    exact ih (hs.of_tuple _ hmem) (hfound.singleton ho)
  | here hf =>
    obtain ⟨tree, rfl, hg⟩ := hs.of_record.1 _ hf
    exact .of_fits hfound hg
  | deeper hf _ ih =>
    obtain ⟨tree, rfl, -⟩ := hs.of_record.1 _ hf
    exact ih (hs.of_record.2 _ hf) (hfound.field _)

theorem SafelyRead.of_conforms {s : Shape} {tree : PatternTree} {found : MatchTree}
    (hs : Scoped s (some tree)) (h : Conforms tree found) : SafelyRead s tree found where
  answered _ _ _ hasks := hasks.answers hs h.fits
  errors path e he := by
    rcases Shape.explained_of_read_error he with hmis | ⟨scope, o, name, path', hasks, hcause⟩
    · exact hmis
    · exact absurd hcause ((hasks.answers hs h.fits).fieldOccurrences_ne_error path' e)

/-- Once the shape has been checked, reading is safe for every tree that conforms to the pattern
tree, and so for every tree that matching gives. -/
theorem checked_safely_read (s : Shape) (tree : PatternTree) (path : Path)
    (h : s.check (some tree) path = .ok ()) :
    (∀ found, Conforms tree found → SafelyRead s tree found) ∧
      ∀ text k, SafelyRead s tree (tree.occurrences text k) := by
  have hs := (s.check_eq_ok_iff (some tree) path).1 h
  exact ⟨fun found hfound => .of_conforms hs hfound,
    fun text k => .of_conforms hs (tree.conforms_occurrences text k)⟩

/-- The name in an assignment, asked for by a field in a tree that has an entry for it. -/
theorem assignment_safely_read :
    assignmentShape.check (some assignment) Path.root = .ok () ∧
      SafelyRead assignmentShape assignment
        (assignment.occurrences (Bytes.ofString "ab=1,23") 0) := by
  have hcheck : assignmentShape.check (some assignment) Path.root = .ok () := by
    with_unfolding_all rfl
  exact ⟨hcheck, (checked_safely_read assignmentShape assignment Path.root hcheck).2
    (Bytes.ofString "ab=1,23") 0⟩

end NestedMatch
