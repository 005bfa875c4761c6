import NestedMatch.Proofs.Locality
import NestedMatch.Proofs.Reading

/-! Where an occurrence stands does not decide how it is read. Positions go into a value where the
shape asks for them, and nowhere else: no count, no text and no path comes from one. So whatever is
done to all the spans of a match tree is done to the spans of the value and changes nothing else,
and the same error is reported. Moving the tree and forgetting its positions are two cases. -/

namespace NestedMatch

/-- The same text under another span. -/
def Capture.mapSpan (g : Span → Span) (c : Capture) : Capture := ⟨g c.span, c.text⟩

namespace Occurrence

mutual

/-- The occurrence with `g` applied to the span of every match and every group, at all depths. -/
def mapSpans (g : Span → Span) : Occurrence → Occurrence
  | ⟨whole, groups, children⟩ =>
    ⟨whole.mapSpan g, groups.map fun e => (e.1, e.2.map (Capture.mapSpan g)),
      mapSpansOfChildren g children⟩

def mapSpansOfTree (g : Span → Span) : List Occurrence → List Occurrence
  | [] => []
  | o :: rest => o.mapSpans g :: mapSpansOfTree g rest

def mapSpansOfChildren (g : Span → Span) :
    List (Bytes × Option (List Occurrence)) → List (Bytes × Option (List Occurrence))
  | [] => []
  | (name, none) :: rest => (name, none) :: mapSpansOfChildren g rest
  | (name, some tree) :: rest => (name, some (mapSpansOfTree g tree)) :: mapSpansOfChildren g rest

end

end Occurrence

namespace Value

mutual

/-- The value with `g` applied to every span in it, at all depths. -/
def mapSpans (g : Span → Span) : Value → Value
  | .scalar v => .scalar v
  | .absent => .absent
  | .present v => .present (v.mapSpans g)
  | .sequence elements => .sequence (mapSpansOfEach g elements)
  | .spanned span v => .spanned (g span) (v.mapSpans g)
  | .tuple components => .tuple (mapSpansOfEach g components)
  | .record fields => .record (mapSpansOfFields g fields)

def mapSpansOfEach (g : Span → Span) : List Value → List Value
  | [] => []
  | v :: rest => v.mapSpans g :: mapSpansOfEach g rest

def mapSpansOfFields (g : Span → Span) : List (Bytes × Value) → List (Bytes × Value)
  | [] => []
  | (name, v) :: rest => (name, v.mapSpans g) :: mapSpansOfFields g rest

end

/-- The value as it is read from a text that has `k` more bytes in front. -/
def shift (k : Nat) : Value → Value := mapSpans (Span.shift k)

/-- The value with nothing said of positions. -/
def unplaced : Value → Value := mapSpans fun _ => ⟨0, 0⟩

variable {g : Span → Span}

theorem mapSpansOfEach_eq (vs : List Value) : mapSpansOfEach g vs = vs.map (mapSpans g) := by
  induction vs with
  | nil => rfl
  | cons v rest ih => rw [mapSpansOfEach, ih, List.map_cons]

theorem mapSpansOfFields_eq (fields : List (Bytes × Value)) :
    mapSpansOfFields g fields = fields.map fun f => (f.1, f.2.mapSpans g) := by
  induction fields with
  | nil => rfl
  | cons f rest ih => rw [mapSpansOfFields, ih, List.map_cons]

end Value

/-- The trees differ in nothing but positions. -/
def SameTexts (found other : MatchTree) : Prop :=
  found.map (Occurrence.mapSpans fun _ => ⟨0, 0⟩) = other.map (Occurrence.mapSpans fun _ => ⟨0, 0⟩)

namespace Occurrence

variable {g : Span → Span}

theorem mapSpansOfTree_eq (found : MatchTree) :
    mapSpansOfTree g found = found.map (mapSpans g) := by
  induction found with
  | nil => rfl
  | cons o rest ih => rw [mapSpansOfTree, ih, List.map_cons]

theorem mapSpansOfChildren_eq (children : List (Bytes × Option MatchTree)) :
    mapSpansOfChildren g children =
      children.map fun c => (c.1, c.2.map (List.map (mapSpans g))) := by
  induction children with
  | nil => rfl
  | cons c rest ih =>
    obtain ⟨name, tree⟩ := c
    cases tree with
    | none => rw [mapSpansOfChildren, ih, List.map_cons, Option.map_none]
    | some tree =>
      rw [mapSpansOfChildren, ih, List.map_cons, Option.map_some, mapSpansOfTree_eq]

theorem whole_mapSpans (o : Occurrence) : (o.mapSpans g).whole = o.whole.mapSpan g := by
  cases o
  rw [mapSpans]

theorem lookup_groups_mapSpans (o : Occurrence) (name : Bytes) :
    (o.mapSpans g).groups.lookup name =
      (o.groups.lookup name).map (Option.map (Capture.mapSpan g)) := by
  cases o
  rw [mapSpans]
  exact Dict.lookup_map (fun _ => Option.map (Capture.mapSpan g)) name _

theorem lookup_children_mapSpans (o : Occurrence) (name : Bytes) :
    (o.mapSpans g).children.lookup name =
      (o.children.lookup name).map (Option.map (List.map (mapSpans g))) := by
  cases o
  rw [mapSpans, mapSpansOfChildren_eq]
  exact Dict.lookup_map (fun _ => Option.map (List.map (mapSpans g))) name _

theorem mapSpans_ofCapture (c : Capture) :
    (ofCapture c).mapSpans g = ofCapture (c.mapSpan g) := by
  rw [ofCapture, mapSpans]
  rfl

mutual

theorem shift_eq_mapSpans (k : Nat) :
    (o : Occurrence) → o.shift k = o.mapSpans (Span.shift k)
  | ⟨whole, groups, children⟩ => by
    rw [shift, mapSpans, shiftChildren_eq_mapSpans k children]
    rfl

theorem shiftTree_eq_mapSpans (k : Nat) :
    (found : List Occurrence) → shiftTree k found = mapSpansOfTree (Span.shift k) found
  | [] => rfl
  | o :: rest => by
    rw [shiftTree, mapSpansOfTree, shift_eq_mapSpans k o, shiftTree_eq_mapSpans k rest]

theorem shiftChildren_eq_mapSpans (k : Nat) :
    (children : List (Bytes × Option (List Occurrence))) →
      shiftChildren k children = mapSpansOfChildren (Span.shift k) children
  | [] => rfl
  | (name, none) :: rest => by
    rw [shiftChildren, mapSpansOfChildren, shiftChildren_eq_mapSpans k rest]
  | (name, some tree) :: rest => by
    rw [shiftChildren, mapSpansOfChildren, shiftTree_eq_mapSpans k tree,
      shiftChildren_eq_mapSpans k rest]

end

end Occurrence

namespace Shape

variable {g : Span → Span} {scope : Option PatternTree} {path : Path}

/-- A field is read from the same occurrences, or from the same capture. -/
theorem fieldOccurrences_mapSpans (name : Bytes) (o : Occurrence) :
    fieldOccurrences scope path name (o.mapSpans g) =
      (fieldOccurrences scope path name o).map (List.map (Occurrence.mapSpans g)) := by
  cases scope with
  | none => rfl
  | some tree =>
    simp only [fieldOccurrences]
    cases tree.child? name with
    | some child =>
      rw [Occurrence.lookup_children_mapSpans]
      cases o.children.lookup name with
      | none => rfl
      | some nested => cases nested <;> rfl
    | none =>
      rw [Occurrence.lookup_groups_mapSpans]
      cases o.groups.lookup name with
      | none => rfl
      | some captured =>
        cases captured with
        | none => rfl
        | some c =>
          simp only [Except.map, Option.map_some, Option.toList_some, List.map_cons, List.map_nil,
            Occurrence.mapSpans_ofCapture]

theorem readEach_map {read read' : Nat → Occurrence → Except DecodeError Value}
    (h : ∀ i o, read' i (o.mapSpans g) = (read i o).map (Value.mapSpans g)) (i : Nat)
    (found : List Occurrence) :
    readEach read' i (found.map (Occurrence.mapSpans g)) =
      (readEach read i found).map (List.map (Value.mapSpans g)) := by
  induction found generalizing i with
  | nil => rfl
  | cons o rest ih =>
    rw [List.map_cons, readEach, readEach, h, ih]
    cases read i o with
    | error e => rfl
    | ok v => cases readEach read (i + 1) rest <;> rfl

theorem readComponents_mapSpans {components : List Shape}
    (h : ∀ s ∈ components, ∀ path found, s.read scope path (found.map (Occurrence.mapSpans g)) =
      (s.read scope path found).map (Value.mapSpans g)) (i : Nat) (found : List Occurrence) :
    readComponents components scope path i (found.map (Occurrence.mapSpans g)) =
      (readComponents components scope path i found).map (List.map (Value.mapSpans g)) := by
  induction components generalizing i found with
  | nil => rfl
  | cons s rest ih =>
    obtain ⟨hs, hrest⟩ := List.forall_mem_cons.1 h
    rw [readComponents, readComponents, ← List.map_take, ← List.map_drop, hs, ih hrest]
    cases s.read scope (path.element i) (found.take 1) with
    | error e => rfl
    | ok v => cases readComponents rest scope path (i + 1) (found.drop 1) <;> rfl

theorem readFields_mapSpans {fields : List (Bytes × Shape)}
    (h : ∀ f ∈ fields, ∀ scope path found, f.2.read scope path (found.map (Occurrence.mapSpans g)) =
      (f.2.read scope path found).map (Value.mapSpans g)) (o : Occurrence) :
    readFields fields scope path (o.mapSpans g) =
      (readFields fields scope path o).map (List.map fun f => (f.1, f.2.mapSpans g)) := by
  induction fields with
  | nil => rfl
  | cons f rest ih =>
    obtain ⟨name, s⟩ := f
    obtain ⟨hs, hrest⟩ := List.forall_mem_cons.1 h
    rw [readFields, readFields, fieldOccurrences_mapSpans, ih hrest]
    cases fieldOccurrences scope path name o with
    | error e => rfl
    | ok found =>
      simp only [Except.map, bind, Except.bind, hs]
      cases s.read (scope.bind fun tree => tree.child? name) (path.member name) found with
      | error e => rfl
      | ok v => cases readFields rest scope path o <;> rfl

theorem miscount_map (s : Shape) (expected : Arity) (f : Occurrence → Occurrence)
    (found : List Occurrence) :
    miscount s expected scope path (found.map f) = miscount s expected scope path found := by
  rw [miscount, miscount, List.length_map]

theorem read_mapSpans (s : Shape) (scope : Option PatternTree) (path : Path)
    (found : List Occurrence) :
    s.read scope path (found.map (Occurrence.mapSpans g)) =
      (s.read scope path found).map (Value.mapSpans g) := by
  induction s generalizing scope path found with
  | scalar type =>
    rcases found with _ | ⟨o, _ | ⟨o', rest⟩⟩
    · rfl
    · rw [List.map_singleton, read, read, Occurrence.whole_mapSpans, Capture.mapSpan]
      cases type.parse o.whole.text <;> rfl
    · exact congrArg Except.error (miscount_map _ _ _ _)
  | optional inner ih =>
    rcases found with _ | ⟨o, _ | ⟨o', rest⟩⟩
    · rfl
    · have hinner := ih scope path [o]
      rw [List.map_singleton] at hinner
      rw [List.map_singleton, read, read, hinner, map_map, map_map]
      rfl
    · exact congrArg Except.error (miscount_map _ _ _ _)
  | sequence inner ih =>
    rw [read, read, readEach_map fun i o => ih scope (path.element i) [o], map_map, map_map]
    congr 1
    funext vs
    rw [Function.comp_apply, Function.comp_apply, Value.mapSpans, Value.mapSpansOfEach_eq]
  | spanned inner ih =>
    rcases found with _ | ⟨o, _ | ⟨o', rest⟩⟩
    · rfl
    · have hinner := ih scope path [o]
      rw [List.map_singleton] at hinner
      rw [List.map_singleton, read, read, hinner, map_map, map_map, Occurrence.whole_mapSpans]
      rfl
    · exact congrArg Except.error (miscount_map _ _ _ _)
  | tuple components ih =>
    rw [read, read, List.length_map]
    split
    · rw [readComponents_mapSpans fun s hs path found => ih s hs scope path found, map_map, map_map]
      congr 1
      funext vs
      rw [Function.comp_apply, Function.comp_apply, Value.mapSpans, Value.mapSpansOfEach_eq]
    · exact congrArg Except.error (miscount_map _ _ _ _)
  | record fields ih =>
    rcases found with _ | ⟨o, _ | ⟨o', rest⟩⟩
    · rfl
    · rw [List.map_singleton, read, read, readFields_mapSpans ih, map_map, map_map]
      congr 1
      funext vs
      rw [Function.comp_apply, Function.comp_apply, Value.mapSpans, Value.mapSpansOfFields_eq]
    · exact congrArg Except.error (miscount_map _ _ _ _)

theorem decode_mapSpans (s : Shape) (tree : PatternTree) (found : MatchTree) (g : Span → Span) :
    s.decode tree (found.map (Occurrence.mapSpans g)) =
      (s.decode tree found).map (Value.mapSpans g) := by
  rw [decode, decode, read_mapSpans]
  cases s.check (some tree) Path.root <;> rfl

theorem decode_shift (s : Shape) (tree : PatternTree) (found : MatchTree) (k : Nat) :
    s.decode tree (Occurrence.shiftTree k found) = (s.decode tree found).map (Value.shift k) := by
  rw [Occurrence.shiftTree_eq_mapSpans, Occurrence.mapSpansOfTree_eq, decode_mapSpans]
  rfl

end Shape

/-- A tree moved by `k` is decoded to the same value with its spans moved by `k`, or with the same
error. Trees that differ in nothing but positions give values that differ in nothing but positions,
or the same error. A text that begins at `k` gives what it gives at the beginning, moved. -/
theorem positions_only_in_spans (s : Shape) (tree : PatternTree) (found : MatchTree) (k : Nat) :
    s.decode tree (Occurrence.shiftTree k found) = (s.decode tree found).map (Value.shift k) ∧
      (∀ other, SameTexts found other →
        (s.decode tree found).map Value.unplaced = (s.decode tree other).map Value.unplaced) ∧
      ∀ text, s.decode tree (tree.occurrences text k) =
        (s.decodeText tree text).map (Value.shift k) := by
  refine ⟨s.decode_shift tree found k, fun other h => ?_, fun text => ?_⟩
  · have hfound := s.decode_mapSpans tree found fun _ => ⟨0, 0⟩
    have hother := s.decode_mapSpans tree other fun _ => ⟨0, 0⟩
    rw [SameTexts] at h
    rw [h] at hfound
    exact hfound.symm.trans hother
  · rw [tree.occurrences_eq_shiftTree, s.decode_shift]
    rfl

end NestedMatch
