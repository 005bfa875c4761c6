import Mathlib.Data.List.Forall2
import NestedMatch.Decode
import NestedMatch.Proofs.FirstFault

/-! Checking and reading lists of parts, seen part by part: a list succeeds when every part does,
whatever the paths handed down are. -/

namespace NestedMatch

namespace Shape

theorem checkComponents_eq_ok_iff {P : Shape → Prop} {scope : Option PatternTree} {path : Path}
    {components : List Shape} {i : Nat}
    (h : ∀ s ∈ components, ∀ path, s.check scope path = .ok () ↔ P s) :
    checkComponents components scope path i = .ok () ↔ ∀ s ∈ components, P s := by
  induction components generalizing i with
  | nil => simp [checkComponents]
  | cons s rest ih =>
    obtain ⟨hs, hrest⟩ := List.forall_mem_cons.1 h
    rw [checkComponents, bind_eq_ok, List.forall_mem_cons, ← ih hrest, ← hs (path.element i)]
    exact ⟨fun ⟨_, h₁, h₂⟩ => ⟨h₁, h₂⟩, fun ⟨h₁, h₂⟩ => ⟨(), h₁, h₂⟩⟩

theorem checkFields_eq_ok_iff {P : Bytes → Shape → Prop} {scope : Option PatternTree} {path : Path}
    {fields : List (Bytes × Shape)}
    (h : ∀ f ∈ fields, ∀ path,
      f.2.check (scope.bind fun tree => tree.child? f.1) path = .ok () ↔ P f.1 f.2) :
    checkFields fields scope path = .ok () ↔
      ∀ f ∈ fields, (∃ tree, scope = some tree ∧ tree.hasGroup f.1 = true) ∧ P f.1 f.2 := by
  induction fields with
  | nil => simp [checkFields]
  | cons f rest ih =>
    obtain ⟨name, s⟩ := f
    obtain ⟨hs, hrest⟩ := List.forall_mem_cons.1 h
    cases scope with
    | none =>
      refine iff_of_false (by simp [checkFields]) fun hall => ?_
      obtain ⟨⟨tree, h, -⟩, -⟩ := hall (name, s) List.mem_cons_self
      cases h
    | some tree =>
      rw [checkFields, List.forall_mem_cons, ← ih hrest]
      dsimp only at hs ⊢
      rw [← hs (path.member name)]
      split
      · rename_i hg
        rw [bind_eq_ok]
        exact ⟨fun ⟨_, h₁, h₂⟩ => ⟨⟨⟨tree, rfl, hg⟩, h₁⟩, h₂⟩, fun ⟨⟨_, h₁⟩, h₂⟩ => ⟨(), h₁, h₂⟩⟩
      · rename_i hg
        simp [hg]

theorem readEach_eq_ok_iff {R : Occurrence → Value → Prop}
    {read : Nat → Occurrence → Except DecodeError Value} {i : Nat} {found : List Occurrence}
    {vs : List Value} (h : ∀ i, ∀ o ∈ found, ∀ v, read i o = .ok v ↔ R o v) :
    readEach read i found = .ok vs ↔ List.Forall₂ R found vs := by
  induction found generalizing i vs with
  | nil => simp [readEach, eq_comm]
  | cons o rest ih =>
    have ho := h i o List.mem_cons_self
    have hrest (vs : List Value) := @ih (i + 1) vs fun j o' ho' =>
      h j o' (List.mem_cons_of_mem _ ho')
    simp only [readEach, bind_eq_ok, pure_eq_ok, ho, hrest, List.forall₂_cons_left_iff]
    exact ⟨fun ⟨v, hv, vs, hvs, he⟩ => ⟨v, vs, hv, hvs, he.symm⟩,
      fun ⟨v, vs, hv, hvs, he⟩ => ⟨v, hv, vs, hvs, he.symm⟩⟩

theorem readComponents_eq_ok_iff {R : Shape → Occurrence → Value → Prop}
    {scope : Option PatternTree} {path : Path} {components : List Shape} {i : Nat}
    {found : List Occurrence} {vs : List Value}
    (h : ∀ s ∈ components, ∀ path, ∀ o ∈ found, ∀ v, s.read scope path [o] = .ok v ↔ R s o v)
    (hlen : found.length = components.length) :
    readComponents components scope path i found = .ok vs ↔
      List.Forall₂ (fun p v => R p.1 p.2 v) (components.zip found) vs := by
  induction components generalizing i found vs with
  | nil => simp [readComponents, eq_comm]
  | cons s rest ih =>
    cases found with
    | nil => simp at hlen
    | cons o found =>
      have hs := h s List.mem_cons_self (path.element i) o List.mem_cons_self
      have hrest (vs : List Value) := @ih (i + 1) found vs
        (fun t ht path o' ho' => h t (List.mem_cons_of_mem _ ht) path o' (List.mem_cons_of_mem _ ho'))
        (by simpa using hlen)
      simp only [readComponents, bind_eq_ok, pure_eq_ok, List.take_succ_cons, List.take_zero,
        List.drop_succ_cons, List.drop_zero, hs, hrest, List.zip_cons_cons,
        List.forall₂_cons_left_iff]
      exact ⟨fun ⟨v, hv, vs, hvs, he⟩ => ⟨v, vs, hv, hvs, he.symm⟩,
        fun ⟨v, vs, hv, hvs, he⟩ => ⟨v, hv, vs, hvs, he.symm⟩⟩

theorem readFields_eq_ok_iff {R : Bytes → Shape → Value → Prop} {scope : Option PatternTree}
    {path : Path} {o : Occurrence} {fields : List (Bytes × Shape)} {vs : List (Bytes × Value)}
    (h : ∀ f ∈ fields, ∃ found, fieldOccurrences scope path f.1 o = .ok found ∧
      ∀ v, f.2.read (scope.bind fun tree => tree.child? f.1) (path.member f.1) found = .ok v ↔
        R f.1 f.2 v) :
    readFields fields scope path o = .ok vs ↔
      List.Forall₂ (fun f w => w.1 = f.1 ∧ R f.1 f.2 w.2) fields vs := by
  induction fields generalizing vs with
  | nil => simp [readFields, eq_comm]
  | cons f rest ih =>
    obtain ⟨name, s⟩ := f
    obtain ⟨⟨found, hfound, hs⟩, hrest⟩ := List.forall_mem_cons.1 h
    simp only [readFields, bind_eq_ok, pure_eq_ok, hfound, Except.ok.injEq, exists_eq_left', hs,
      ih hrest, List.forall₂_cons_left_iff]
    constructor
    · rintro ⟨v, hv, vs, hvs, rfl⟩
      exact ⟨(name, v), vs, ⟨rfl, hv⟩, hvs, rfl⟩
    · rintro ⟨⟨n, v⟩, vs, ⟨rfl, hv⟩, hvs, rfl⟩
      exact ⟨v, hv, vs, hvs, rfl⟩

/-! A shape read with success, one lemma for each constructor. -/

section

variable {inner : Shape} {scope : Option PatternTree} {path : Path} {found : List Occurrence}
  {v : Value}

theorem read_scalar_eq_ok {type : Scalar} :
    (Shape.scalar type).read scope path found = .ok v ↔
      ∃ o w, found = [o] ∧ type.parse o.whole.text = some w ∧ v = .scalar w := by
  rcases found with _ | ⟨o, _ | ⟨o', rest⟩⟩
  · simp [read]
  · cases h : type.parse o.whole.text with
    | none => simp [read, h]
    | some w => simp [read, h, eq_comm]
  · simp [read]

theorem read_optional_eq_ok :
    (Shape.optional inner).read scope path found = .ok v ↔ (found = [] ∧ v = .absent) ∨
      ∃ o w, found = [o] ∧ inner.read scope path [o] = .ok w ∧ v = .present w := by
  rcases found with _ | ⟨o, _ | ⟨o', rest⟩⟩
  · simp [read, eq_comm]
  · simp [read, map_eq_ok]
  · simp [read]

theorem read_sequence_eq_ok :
    (Shape.sequence inner).read scope path found = .ok v ↔
      ∃ vs, readEach (fun i o => inner.read scope (path.element i) [o]) 0 found = .ok vs ∧
        v = .sequence vs := by
  rw [read, map_eq_ok]

theorem read_spanned_eq_ok :
    (Shape.spanned inner).read scope path found = .ok v ↔
      ∃ o w, found = [o] ∧ inner.read scope path [o] = .ok w ∧ v = .spanned o.whole.span w := by
  rcases found with _ | ⟨o, _ | ⟨o', rest⟩⟩
  · simp [read]
  · simp [read, map_eq_ok]
  · simp [read]

theorem read_tuple_eq_ok {components : List Shape} :
    (Shape.tuple components).read scope path found = .ok v ↔
      found.length = components.length ∧
        ∃ vs, readComponents components scope path 0 found = .ok vs ∧ v = .tuple vs := by
  rw [read]
  split
  · rename_i hlen
    simp [hlen, map_eq_ok]
  · rename_i hlen
    simp [hlen]

theorem read_record_eq_ok {fields : List (Bytes × Shape)} :
    (Shape.record fields).read scope path found = .ok v ↔
      ∃ o vs, found = [o] ∧ readFields fields scope path o = .ok vs ∧ v = .record vs := by
  rcases found with _ | ⟨o, _ | ⟨o', rest⟩⟩
  · simp [read]
  · simp [read, map_eq_ok]
  · simp [read]

end

end Shape
end NestedMatch
