import NestedMatch.Proofs.Safety

/-! Fields that no group can answer. Whether a shape has one is settled by going down the shape and
the pattern tree together; occurrences and texts do not enter. Main statement: where there is one,
decoding fails over it with one error for whatever is decoded, and where there is none, no decoding
fails over such a field. -/

namespace NestedMatch

/-- The error is about a field that is no group of the pattern it is asked of. -/
def DecodeError.IsUndefinedGroup : DecodeError → Prop
  | .withoutPattern .. => True
  | .unknownGroup .. => True
  | _ => False

/-- Down the shape and the pattern tree there is a record with fields in text that a group without
a child captured, or a record with a field that is no group of the node it is reached at. -/
inductive Unscoped : Shape → Option PatternTree → Prop
  | optional {inner : Shape} {scope : Option PatternTree} :
    Unscoped inner scope → Unscoped (.optional inner) scope
  | sequence {inner : Shape} {scope : Option PatternTree} :
    Unscoped inner scope → Unscoped (.sequence inner) scope
  | spanned {inner : Shape} {scope : Option PatternTree} :
    Unscoped inner scope → Unscoped (.spanned inner) scope
  | tuple {components : List Shape} {scope : Option PatternTree} {s : Shape} :
    s ∈ components → Unscoped s scope → Unscoped (.tuple components) scope
  | withoutPattern {fields : List (Bytes × Shape)} :
    fields ≠ [] → Unscoped (.record fields) none
  | unknownGroup {fields : List (Bytes × Shape)} {tree : PatternTree} {f : Bytes × Shape} :
    f ∈ fields → tree.hasGroup f.1 = false → Unscoped (.record fields) (some tree)
  | field {fields : List (Bytes × Shape)} {tree : PatternTree} {f : Bytes × Shape} :
    f ∈ fields → Unscoped f.2 (tree.child? f.1) → Unscoped (.record fields) (some tree)

theorem Unscoped.not_scoped {s : Shape} {scope : Option PatternTree} (h : Unscoped s scope) :
    ¬ Scoped s scope := by
  induction h with
  | optional _ ih => exact fun hs => ih hs.of_optional
  | sequence _ ih => exact fun hs => ih hs.of_sequence
  | spanned _ ih => exact fun hs => ih hs.of_spanned
  | tuple hmem _ ih => exact fun hs => ih (hs.of_tuple _ hmem)
  | withoutPattern hne =>
    intro hs
    obtain ⟨f, hf⟩ := List.exists_mem_of_ne_nil _ hne
    obtain ⟨tree, htree, -⟩ := hs.of_record.1 f hf
    cases htree
  | unknownGroup hf hg =>
    intro hs
    obtain ⟨tree, htree, hg'⟩ := hs.of_record.1 _ hf
    cases htree
    rw [hg] at hg'
    cases hg'
  | field hf _ ih => exact fun hs => ih (hs.of_record.2 _ hf)

namespace Shape

theorem exists_of_checkComponents_error {components : List Shape} {scope : Option PatternTree}
    {path : Path} {i : Nat} {e : DecodeError}
    (h : checkComponents components scope path i = .error e) :
    ∃ s ∈ components, ∃ path, s.check scope path = .error e := by
  induction components generalizing i with
  | nil => cases h
  | cons s rest ih =>
    rw [checkComponents, bind_eq_error] at h
    rcases h with h | ⟨_, -, h⟩
    · exact ⟨s, List.mem_cons_self, _, h⟩
    · obtain ⟨t, ht, path, hcheck⟩ := ih h
      exact ⟨t, List.mem_cons_of_mem _ ht, path, hcheck⟩

theorem exists_of_checkFields_error {fields : List (Bytes × Shape)} {tree : PatternTree}
    {path : Path} {e : DecodeError} (h : checkFields fields (some tree) path = .error e) :
    ∃ f ∈ fields, (tree.hasGroup f.1 = false ∧ e = .unknownGroup path f.1 tree.source) ∨
      f.2.check (tree.child? f.1) (path.member f.1) = .error e := by
  induction fields with
  | nil => cases h
  | cons f rest ih =>
    obtain ⟨name, s⟩ := f
    rw [checkFields] at h
    cases hg : tree.hasGroup name with
    | false =>
      rw [hg] at h
      cases h
      exact ⟨(name, s), List.mem_cons_self, .inl ⟨hg, rfl⟩⟩
    | true =>
      rw [hg, if_pos rfl, bind_eq_error] at h
      rcases h with h | ⟨_, -, h⟩
      · exact ⟨(name, s), List.mem_cons_self, .inr h⟩
      · obtain ⟨f, hf, hcause⟩ := ih h
        exact ⟨f, List.mem_cons_of_mem _ hf, hcause⟩

/-- The check fails only over a field without a group, and that field is in the shape. -/
theorem unscoped_of_check_error {s : Shape} {scope : Option PatternTree} {path : Path}
    {e : DecodeError} (h : s.check scope path = .error e) :
    e.IsUndefinedGroup ∧ Unscoped s scope := by
  induction s generalizing scope path with
  | scalar type => cases h
  | optional inner ih => exact (ih h).imp id .optional
  | sequence inner ih => exact (ih h).imp id .sequence
  | spanned inner ih => exact (ih h).imp id .spanned
  | tuple components ih =>
    obtain ⟨s, hs, path, hcheck⟩ := exists_of_checkComponents_error h
    exact (ih s hs hcheck).imp id (.tuple hs)
  | record fields ih =>
    cases scope with
    | none =>
      cases fields with
      | nil => cases h
      | cons f rest =>
        cases h
        exact ⟨trivial, .withoutPattern (List.cons_ne_nil f rest)⟩
    | some tree =>
      obtain ⟨f, hf, ⟨hg, rfl⟩ | hcheck⟩ := exists_of_checkFields_error h
      · exact ⟨trivial, .unknownGroup hf hg⟩
      · exact (ih f hf hcheck).imp id (.field hf)

theorem decode_of_check_error {s : Shape} {tree : PatternTree} {e : DecodeError}
    (h : s.check (some tree) Path.root = .error e) (found : MatchTree) :
    s.decode tree found = .error e := bind_eq_error.2 (.inl h)

theorem isMisreading_of_decode_error {s : Shape} {tree : PatternTree} {found : MatchTree}
    {e : DecodeError} (hs : Scoped s (some tree)) (hfound : Conforms tree found)
    (h : s.decode tree found = .error e) : e.IsMisreading := by
  rcases bind_eq_error.1 h with hcheck | ⟨_, -, hread⟩
  · exact absurd hs (unscoped_of_check_error hcheck).2.not_scoped
  · exact (SafelyRead.of_conforms hs hfound).errors Path.root e hread

end Shape

/-- Whether decoding is about an undefined group does not depend on what is decoded: it fails over
one for every match tree and every text, with the same error, or for none. -/
theorem undefined_group_static (s : Shape) (tree : PatternTree) :
    (Unscoped s (some tree) ∧ ∃ e : DecodeError, e.IsUndefinedGroup ∧
        (∀ found, s.decode tree found = .error e) ∧ ∀ text, s.decodeText tree text = .error e) ∨
      (¬ Unscoped s (some tree) ∧
        (∀ found e, Conforms tree found → s.decode tree found = .error e → e.IsMisreading) ∧
        ∀ text e, s.decodeText tree text = .error e → e.IsMisreading) := by
  cases hcheck : s.check (some tree) Path.root with
  | error e =>
    obtain ⟨he, hs⟩ := Shape.unscoped_of_check_error hcheck
    exact .inl ⟨hs, e, he, Shape.decode_of_check_error hcheck,
      fun text => Shape.decode_of_check_error hcheck _⟩
  | ok u =>
    have hs := (s.check_eq_ok_iff (some tree) Path.root).1 hcheck
    exact .inr ⟨fun hun => hun.not_scoped hs,
      fun found e hfound => Shape.isMisreading_of_decode_error hs hfound,
      fun text e => Shape.isMisreading_of_decode_error hs (tree.conforms_occurrences text 0)⟩

end NestedMatch
