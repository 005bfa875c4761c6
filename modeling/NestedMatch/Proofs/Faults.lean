import NestedMatch.Proofs.Meaning

/-! All faults that decoding could report, in the order in which shape, pattern tree and match tree
are walked. They are collected without stopping and each says where it is from the part that it was
found in, so that its path is put together on the way out. Decoding, which stops at once and hands
the path down, reports the first of them. -/

namespace NestedMatch

namespace DecodeError

/-- The same error seen from further up: with more steps in front of its path. -/
def under (above : Path) : DecodeError → DecodeError
  | .withoutPattern path field => .withoutPattern (above ++ path) field
  | .unknownGroup path field pattern => .unknownGroup (above ++ path) field pattern
  | .arity path target expected pattern found =>
    .arity (above ++ path) target expected pattern found
  | .unreadable path text type => .unreadable (above ++ path) text type
  | .nonconforming path field => .nonconforming (above ++ path) field

theorem under_root (e : DecodeError) : e.under Path.root = e := by cases e <;> rfl

theorem map_under_root (es : List DecodeError) : es.map (under Path.root) = es := by
  rw [funext under_root]
  exact List.map_id es

theorem under_under (above path : Path) (e : DecodeError) :
    (e.under path).under above = e.under (above ++ path) := by
  cases e <;> simp [under, List.append_assoc]

theorem map_under_under (above path : Path) (es : List DecodeError) :
    (es.map (under path)).map (under above) = es.map (under (above ++ path)) := by
  rw [List.map_map]
  exact List.map_congr_left fun e _ => under_under above path e

end DecodeError

namespace Shape

mutual

/-- A fault for each field that is asked of text without a node, or of a node without a group of
its name. What such a field is made of is not looked at. -/
def undefinedGroups : Shape → Option PatternTree → List DecodeError
  | .scalar _, _ => []
  | .optional inner, scope => inner.undefinedGroups scope
  | .sequence inner, scope => inner.undefinedGroups scope
  | .spanned inner, scope => inner.undefinedGroups scope
  | .tuple components, scope => undefinedInComponents components scope 0
  | .record fields, scope => undefinedInFields fields scope

def undefinedInComponents : List Shape → Option PatternTree → Nat → List DecodeError
  | [], _, _ => []
  | s :: rest, scope, i =>
    (s.undefinedGroups scope).map (.under [.element i]) ++
      undefinedInComponents rest scope (i + 1)

def undefinedInFields : List (Bytes × Shape) → Option PatternTree → List DecodeError
  | [], _ => []
  | (name, _) :: rest, none => .withoutPattern Path.root name :: undefinedInFields rest none
  | (name, s) :: rest, some tree =>
    if tree.hasGroup name then
      (s.undefinedGroups (tree.child? name)).map (.under [.member name]) ++
        undefinedInFields rest (some tree)
    else .unknownGroup Path.root name tree.source :: undefinedInFields rest (some tree)

end

mutual

/-- A fault for each part of the shape that has the wrong number of occurrences, and is then not
looked into, and for each text that is no scalar of its type. -/
def misreadings : Shape → Option PatternTree → List Occurrence → List DecodeError
  | .scalar type, scope, found =>
    match found with
    | [o] =>
      match type.parse o.whole.text with
      | some _ => []
      | none => [.unreadable Path.root o.whole.text type]
    | _ => [miscount (.scalar type) .exactlyOne scope Path.root found]
  | .optional inner, scope, found =>
    match found with
    | [] => []
    | [o] => inner.misreadings scope [o]
    | _ => [miscount (.optional inner) .atMostOne scope Path.root found]
  | .sequence inner, scope, found =>
    found.zipIdx.flatMap fun p => (inner.misreadings scope [p.1]).map (.under [.element p.2])
  | .spanned inner, scope, found =>
    match found with
    | [o] => inner.misreadings scope [o]
    | _ => [miscount (.spanned inner) .exactlyOne scope Path.root found]
  | .tuple components, scope, found =>
    if found.length = components.length then misreadComponents components scope 0 found
    else [miscount (.tuple components) (.exactly components.length) scope Path.root found]
  | .record fields, scope, found =>
    match found with
    | [o] => misreadFields fields scope o
    | _ => [miscount (.record fields) .exactlyOne scope Path.root found]

def misreadComponents : List Shape → Option PatternTree → Nat → List Occurrence → List DecodeError
  | [], _, _, _ => []
  | s :: rest, scope, i, found =>
    (s.misreadings scope (found.take 1)).map (.under [.element i]) ++
      misreadComponents rest scope (i + 1) (found.drop 1)

def misreadFields : List (Bytes × Shape) → Option PatternTree → Occurrence → List DecodeError
  | [], _, _ => []
  | (name, s) :: rest, scope, o =>
    (s.misreadings (scope.bind fun tree => tree.child? name) (o.field scope name)).map
        (.under [.member name]) ++
      misreadFields rest scope o

end

/-- All faults of a match tree. The occurrences are looked at where no group is undefined. -/
def faults (s : Shape) (tree : PatternTree) (found : MatchTree) : List DecodeError :=
  if (s.undefinedGroups (some tree)).isEmpty then s.misreadings (some tree) found
  else s.undefinedGroups (some tree)

theorem checkComponents_reports {scope : Option PatternTree} {path : Path}
    {components : List Shape} (h : ∀ s ∈ components, ∀ path,
      Reports (s.check scope path) ((s.undefinedGroups scope).map (.under path))) (i : Nat) :
    Reports (checkComponents components scope path i)
      ((undefinedInComponents components scope i).map (.under path)) := by
  induction components generalizing i with
  | nil => exact .ok ()
  | cons s rest ih =>
    obtain ⟨hs, hrest⟩ := List.forall_mem_cons.1 h
    rw [checkComponents, undefinedInComponents, List.map_append, DecodeError.map_under_under]
    exact (hs (path.element i)).bind fun _ _ => ih hrest (i + 1)

theorem checkFields_reports {scope : Option PatternTree} {path : Path}
    {fields : List (Bytes × Shape)} (h : ∀ f ∈ fields, ∀ scope path,
      Reports (f.2.check scope path) ((f.2.undefinedGroups scope).map (.under path))) :
    Reports (checkFields fields scope path)
      ((undefinedInFields fields scope).map (.under path)) := by
  induction fields with
  | nil => exact .ok ()
  | cons f rest ih =>
    obtain ⟨name, s⟩ := f
    obtain ⟨hs, hrest⟩ := List.forall_mem_cons.1 h
    cases scope with
    | none =>
      rw [checkFields, undefinedInFields, List.map_cons, DecodeError.under, Path.append_root]
      exact .error _ _
    | some tree =>
      rw [checkFields, undefinedInFields]
      split
      · rw [List.map_append, DecodeError.map_under_under]
        exact (hs (tree.child? name) (path.member name)).bind fun _ _ => ih hrest
      · rw [List.map_cons, DecodeError.under, Path.append_root]
        exact .error _ _

theorem check_reports (s : Shape) (scope : Option PatternTree) (path : Path) :
    Reports (s.check scope path) ((s.undefinedGroups scope).map (.under path)) := by
  induction s generalizing scope path with
  | scalar type => exact .ok ()
  | optional inner ih => exact ih scope path
  | sequence inner ih => exact ih scope path
  | spanned inner ih => exact ih scope path
  | tuple components ih => exact checkComponents_reports (fun s hs path => ih s hs scope path) 0
  | record fields ih => exact checkFields_reports ih

theorem under_miscount (s : Shape) (expected : Arity) (scope : Option PatternTree) (path : Path)
    (found : List Occurrence) :
    (miscount s expected scope Path.root found).under path =
      miscount s expected scope path found := by
  rw [miscount, DecodeError.under, Path.append_root, miscount]

theorem miscount_reports {α : Type} {s : Shape} {expected : Arity} {scope : Option PatternTree}
    {path : Path} {found : List Occurrence} :
    Reports (.error (miscount s expected scope path found) : Except DecodeError α)
      ([miscount s expected scope Path.root found].map (.under path)) := by
  rw [List.map_singleton, under_miscount]
  exact .error _ _

/-- A shape that asks for exactly one occurrence. -/
theorem exactlyOne_reports {α : Type} {s : Shape} {scope : Option PatternTree} {path : Path}
    {found : List Occurrence} {f : Occurrence → Except DecodeError α}
    {es : Occurrence → List DecodeError}
    (h : ∀ o, found = [o] → Reports (f o) ((es o).map (.under path))) :
    Reports
      (match found with
        | [o] => f o
        | _ => .error (miscount s .exactlyOne scope path found))
      ((match found with
        | [o] => es o
        | _ => [miscount s .exactlyOne scope Path.root found]).map (.under path)) := by
  rcases found with _ | ⟨o, _ | ⟨o', rest⟩⟩
  · exact miscount_reports
  · exact h o rfl
  · exact miscount_reports

theorem readEach_reports {read : Nat → Occurrence → Except DecodeError Value}
    {faults : Occurrence → Nat → List DecodeError} {found : List Occurrence}
    (h : ∀ i, ∀ o ∈ found, Reports (read i o) (faults o i)) (i : Nat) :
    Reports (readEach read i found) ((found.zipIdx i).flatMap fun p => faults p.1 p.2) := by
  induction found generalizing i with
  | nil => exact .ok []
  | cons o rest ih =>
    have hrest := ih (fun j o' ho' => h j o' (List.mem_cons_of_mem _ ho')) (i + 1)
    rw [readEach, List.zipIdx_cons, List.flatMap_cons]
    exact (h i o List.mem_cons_self).both List.cons hrest

theorem readComponents_reports {scope : Option PatternTree} {path : Path}
    {components : List Shape} {found : List Occurrence}
    (h : ∀ s ∈ components, ∀ path, ∀ o ∈ found,
      Reports (s.read scope path [o]) ((s.misreadings scope [o]).map (.under path)))
    (hlen : found.length = components.length) (i : Nat) :
    Reports (readComponents components scope path i found)
      ((misreadComponents components scope i found).map (.under path)) := by
  induction components generalizing found i with
  | nil => exact .ok []
  | cons s rest ih =>
    cases found with
    | nil => simp at hlen
    | cons o found =>
      have hs := h s List.mem_cons_self (path.element i) o List.mem_cons_self
      have hrest := ih (fun t ht path o' ho' =>
        h t (List.mem_cons_of_mem _ ht) path o' (List.mem_cons_of_mem _ ho'))
        (Nat.succ_inj.1 hlen) (i + 1)
      rw [readComponents, misreadComponents, List.map_append, DecodeError.map_under_under]
      exact hs.both List.cons hrest

theorem readFields_reports {scope : Option PatternTree} {path : Path} {o : Occurrence}
    {fields : List (Bytes × Shape)}
    (hsource : ∀ f ∈ fields, fieldOccurrences scope path f.1 o = .ok (o.field scope f.1))
    (h : ∀ f ∈ fields, Reports
      (f.2.read (scope.bind fun tree => tree.child? f.1) (path.member f.1) (o.field scope f.1))
      ((f.2.misreadings (scope.bind fun tree => tree.child? f.1) (o.field scope f.1)).map
        (.under (path.member f.1)))) :
    Reports (readFields fields scope path o)
      ((misreadFields fields scope o).map (.under path)) := by
  induction fields with
  | nil => exact .ok []
  | cons f rest ih =>
    obtain ⟨name, s⟩ := f
    obtain ⟨hfirst, hrestSource⟩ := List.forall_mem_cons.1 hsource
    obtain ⟨hs, hrest⟩ := List.forall_mem_cons.1 h
    rw [readFields, misreadFields, List.map_append, DecodeError.map_under_under, hfirst]
    exact hs.both (fun v vs => (name, v) :: vs) (ih hrestSource hrest)

/-- The path handed down is the one that the faults get on the way out. -/
theorem read_reports {s : Shape} {scope : Option PatternTree} (hs : Scoped s scope) (path : Path)
    {found : List Occurrence} (hfound : Fits scope found) :
    Reports (s.read scope path found) ((s.misreadings scope found).map (.under path)) := by
  induction s generalizing scope path found with
  | scalar type =>
    unfold read misreadings
    apply exactlyOne_reports
    intro o _
    cases type.parse o.whole.text with
    | some v => exact .ok _
    | none =>
      rw [List.map_singleton, DecodeError.under, Path.append_root]
      exact .error _ _
  | optional inner ih =>
    rcases found with _ | ⟨o, _ | ⟨o', rest⟩⟩
    · exact .ok _
    · exact (ih hs.of_optional path hfound).map _
    · exact miscount_reports
  | sequence inner ih =>
    have heach : ∀ i, ∀ o ∈ found, Reports (inner.read scope (path.element i) [o])
        ((inner.misreadings scope [o]).map (.under (path.element i))) := by
      intro i o ho
      exact ih hs.of_sequence (path.element i) (hfound.singleton ho)
    rw [read, misreadings, List.map_flatMap]
    simp only [DecodeError.map_under_under]
    exact (readEach_reports heach 0).map _
  | spanned inner ih =>
    unfold read misreadings
    apply exactlyOne_reports
    rintro o rfl
    exact (ih hs.of_spanned path hfound).map _
  | tuple components ih =>
    rw [read, misreadings]
    split
    · rename_i hlen
      refine (readComponents_reports ?_ hlen 0).map _
      intro s hmem path o ho
      exact ih s hmem (hs.of_tuple s hmem) path (hfound.singleton ho)
    · exact miscount_reports
  | record fields ih =>
    obtain ⟨hgroups, hs⟩ := hs.of_record
    unfold read misreadings
    apply exactlyOne_reports
    rintro o rfl
    refine (readFields_reports ?_ ?_).map _
    · intro f hf
      obtain ⟨tree, rfl, hg⟩ := hgroups f hf
      exact fieldOccurrences_eq_field hfound hg path
    · intro f hf
      obtain ⟨tree, rfl, -⟩ := hgroups f hf
      exact ih f hf (hs f hf) (path.member f.1) (hfound.field f.1)

theorem decode_reports {s : Shape} {tree : PatternTree} {found : MatchTree}
    (h : Conforms tree found) : Reports (s.decode tree found) (s.faults tree found) := by
  have hcheck := s.check_reports (some tree) Path.root
  rw [DecodeError.map_under_root] at hcheck
  rw [decode, faults]
  split
  · rename_i hnone
    rw [List.isEmpty_iff.1 hnone] at hcheck
    refine hcheck.bind fun _ hok => ?_
    have hread := read_reports ((s.check_eq_ok_iff _ _).1 hok) Path.root h.fits
    rwa [DecodeError.map_under_root] at hread
  · rename_i hsome
    rw [← List.append_nil (s.undefinedGroups (some tree))]
    refine hcheck.bind fun u hok => ?_
    exact absurd (List.isEmpty_iff.2 (hcheck.eq_nil_iff.2 ⟨u, hok⟩)) hsome

end Shape

/-- Decoding gives a value exactly where there is no fault, and otherwise fails with the first. -/
theorem decode_first_fault (s : Shape) (tree : PatternTree) (found : MatchTree)
    (h : Conforms tree found) :
    ((∃ v, s.decode tree found = .ok v) ↔ s.faults tree found = []) ∧
      ∀ e, s.decode tree found = .error e ↔ (s.faults tree found).head? = some e :=
  ⟨(Shape.decode_reports h).eq_nil_iff.symm, Shape.decode_reports h⟩

/-- The numbers as single characters, then the name as a number. -/
def misfit : Shape :=
  .record [(Bytes.ofString "nums", .sequence (.scalar .char)),
    (Bytes.ofString "key", .scalar (.integer ⟨false, .w8⟩))]

def longNumber : DecodeError :=
  .unreadable [.member (Bytes.ofString "nums"), .element 1] (Bytes.ofString "23") .char

def wordForNumber : DecodeError :=
  .unreadable [.member (Bytes.ofString "key")] (Bytes.ofString "ab") (.integer ⟨false, .w8⟩)

/-- Of two faults in different fields and at different depths, the one of the first field. -/
theorem misfit_first_fault :
    Conforms assignment (assignment.occurrences (Bytes.ofString "ab=1,23") 0) ∧
      misfit.faults assignment (assignment.occurrences (Bytes.ofString "ab=1,23") 0) =
        [longNumber, wordForNumber] ∧
      misfit.decode assignment (assignment.occurrences (Bytes.ofString "ab=1,23") 0) =
        .error longNumber ∧
      longNumber.message = Bytes.ofString "$.nums[1]: cannot parse '23' as char" := by
  have hconforms := assignment.conforms_occurrences (Bytes.ofString "ab=1,23") 0
  have hfaults : misfit.faults assignment (assignment.occurrences (Bytes.ofString "ab=1,23") 0) =
      [longNumber, wordForNumber] := by
    with_unfolding_all rfl
  have hfirst := (decode_first_fault misfit assignment _ hconforms).2 longNumber
  exact ⟨hconforms, hfaults, hfirst.2 (by rw [hfaults]; rfl), by decide +kernel⟩

end NestedMatch
