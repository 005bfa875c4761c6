import NestedMatch.Proofs.Faults

/-! One shape asked for any number of times, for a fixed number of times, or at most once: a
sequence, a tuple of copies and an optional value are read from the same occurrences to the same
elements. The path handed down differs with the index of an element. It shows in errors alone, in
front of what the path is from there, so a sequence may be cut anywhere and read in parts. -/

namespace NestedMatch

/-- What at most one element is as an optional value. -/
def Value.ofAtMostOne : List Value → Value
  | [] => .absent
  | v :: _ => .present v

namespace Shape

variable {scope : Option PatternTree} {above path : Path} {found : List Occurrence}

theorem fieldOccurrences_under (name : Bytes) (o : Occurrence) :
    fieldOccurrences scope (above ++ path) name o =
      (fieldOccurrences scope path name o).mapError (.under above) := by
  cases scope with
  | none => rfl
  | some tree =>
    simp only [fieldOccurrences]
    cases tree.child? name with
    | some child => cases o.children.lookup name <;> rfl
    | none => cases o.groups.lookup name <;> rfl

theorem readEach_mapError {read read' : Nat → Occurrence → Except DecodeError Value}
    {f : DecodeError → DecodeError} (h : ∀ i o, read' i o = (read i o).mapError f) (i : Nat) :
    readEach read' i found = (readEach read i found).mapError f := by
  induction found generalizing i with
  | nil => rfl
  | cons o rest ih =>
    rw [readEach, readEach, h, ih]
    cases read i o with
    | error e => rfl
    | ok v => cases readEach read (i + 1) rest <;> rfl

theorem readComponents_under {components : List Shape}
    (h : ∀ s ∈ components, ∀ path found,
      s.read scope (above ++ path) found = (s.read scope path found).mapError (.under above))
    (i : Nat) :
    readComponents components scope (above ++ path) i found =
      (readComponents components scope path i found).mapError (.under above) := by
  induction components generalizing i found with
  | nil => rfl
  | cons s rest ih =>
    obtain ⟨hs, hrest⟩ := List.forall_mem_cons.1 h
    have hfirst := hs (path.element i) (found.take 1)
    rw [Path.element, ← List.append_assoc] at hfirst
    rw [readComponents, readComponents, Path.element, Path.element, hfirst, ih hrest]
    cases s.read scope (path ++ [.element i]) (found.take 1) with
    | error e => rfl
    | ok v => cases readComponents rest scope path (i + 1) (found.drop 1) <;> rfl

theorem readFields_under {fields : List (Bytes × Shape)} {o : Occurrence}
    (h : ∀ f ∈ fields, ∀ scope path found,
      f.2.read scope (above ++ path) found = (f.2.read scope path found).mapError (.under above)) :
    readFields fields scope (above ++ path) o =
      (readFields fields scope path o).mapError (.under above) := by
  induction fields with
  | nil => rfl
  | cons f rest ih =>
    obtain ⟨name, s⟩ := f
    obtain ⟨hs, hrest⟩ := List.forall_mem_cons.1 h
    rw [readFields, readFields, fieldOccurrences_under, ih hrest, Path.member, Path.member,
      List.append_assoc]
    cases fieldOccurrences scope path name o with
    | error e => rfl
    | ok found =>
      simp only [mapError_ok, bind, Except.bind, hs]
      cases s.read (scope.bind fun tree => tree.child? name) (path ++ [.member name]) found with
      | error e => rfl
      | ok v => cases readFields rest scope path o <;> rfl

/-- A longer path changes the path of an error and nothing else. -/
theorem read_under (s : Shape) (scope : Option PatternTree) (above path : Path)
    (found : List Occurrence) :
    s.read scope (above ++ path) found = (s.read scope path found).mapError (.under above) := by
  induction s generalizing scope path found with
  | scalar type =>
    rcases found with _ | ⟨o, _ | ⟨o', rest⟩⟩
    · rfl
    · rw [read, read]
      cases type.parse o.whole.text <;> rfl
    · rfl
  | optional inner ih =>
    rcases found with _ | ⟨o, _ | ⟨o', rest⟩⟩
    · rfl
    · rw [read, read, ih, mapError_map]
    · rfl
  | sequence inner ih =>
    have heach (i : Nat) (o : Occurrence) :
        inner.read scope ((above ++ path).element i) [o] =
          (inner.read scope (path.element i) [o]).mapError (.under above) := by
      rw [Path.element, List.append_assoc, ih]
      rfl
    rw [read, read, readEach_mapError heach, mapError_map]
  | spanned inner ih =>
    rcases found with _ | ⟨o, _ | ⟨o', rest⟩⟩
    · rfl
    · rw [read, read, ih, mapError_map]
    · rfl
  | tuple components ih =>
    rw [read, read]
    split
    · rw [readComponents_under fun s hs path found => ih s hs scope path found, mapError_map]
    · rfl
  | record fields ih =>
    rcases found with _ | ⟨o, _ | ⟨o', rest⟩⟩
    · rfl
    · rw [read, read, readFields_under ih, mapError_map]
    · rfl

theorem read_eq_ok_iff_root {s : Shape} {v : Value} :
    s.read scope path found = .ok v ↔ s.read scope Path.root found = .ok v := by
  have h := s.read_under scope path Path.root found
  rw [Path.append_root] at h
  rw [h, mapError_eq_ok]

/-- The elements of a sequence are read one by one, each as if it stood alone. -/
theorem read_sequence_eq_ok_iff {s : Shape} {v : Value} :
    (Shape.sequence s).read scope path found = .ok v ↔
      ∃ vs, List.Forall₂ (fun o w => s.read scope Path.root [o] = .ok w) found vs ∧
        v = .sequence vs := by
  rw [read_sequence_eq_ok]
  exact exists_congr fun vs => and_congr_left fun _ =>
    readEach_eq_ok_iff fun i o _ w => read_eq_ok_iff_root

theorem readComponents_replicate (s : Shape) (i : Nat) :
    readComponents (List.replicate found.length s) scope path i found =
      readEach (fun i o => s.read scope (path.element i) [o]) i found := by
  induction found generalizing i with
  | nil => rfl
  | cons o rest ih =>
    rw [List.length_cons, List.replicate_succ, readComponents, readEach, List.take_succ_cons,
      List.take_zero, List.drop_succ_cons, List.drop_zero, ih]

theorem check_tuple_replicate {s : Shape} (h : s.check scope Path.root = .ok ()) (m : Nat) :
    (Shape.tuple (List.replicate m s)).check scope Path.root = .ok () := by
  rw [check_eq_ok_iff] at h ⊢
  refine .tuple fun t ht => ?_
  rw [List.eq_of_mem_replicate ht]
  exact h

theorem decode_of_check {s : Shape} {tree : PatternTree}
    (h : s.check (some tree) Path.root = .ok ()) (found : MatchTree) :
    s.decode tree found = s.read (some tree) Path.root found := by
  rw [decode, h]
  rfl

end Shape

/-- What sequences, tuples of copies and optional values of one shape have to do with each other. -/
structure CountedAlike (s : Shape) (tree : PatternTree) : Prop where
  elements : ∀ found v, (Shape.sequence s).decode tree found = .ok v →
    ∃ vs, v = .sequence vs ∧ vs.length = found.length
  append : ∀ front back v, (Shape.sequence s).decode tree (front ++ back) = .ok v ↔
    ∃ vs ws, (Shape.sequence s).decode tree front = .ok (.sequence vs) ∧
      (Shape.sequence s).decode tree back = .ok (.sequence ws) ∧ v = .sequence (vs ++ ws)
  tuple : ∀ m found v, (Shape.tuple (List.replicate m s)).decode tree found = .ok v ↔
    found.length = m ∧ ∃ vs, (Shape.sequence s).decode tree found = .ok (.sequence vs) ∧
      v = .tuple vs
  tuple_error : ∀ found e,
    (Shape.tuple (List.replicate found.length s)).decode tree found = .error e ↔
      (Shape.sequence s).decode tree found = .error e
  optional : ∀ found v, found.length ≤ 1 → ((Shape.optional s).decode tree found = .ok v ↔
    ∃ vs, (Shape.sequence s).decode tree found = .ok (.sequence vs) ∧ v = .ofAtMostOne vs)
  optional_many : ∀ found, 1 < found.length → (Shape.optional s).decode tree found =
    .error (.arity Path.root (Shape.optional s).name .atMostOne (some tree.source) found.length)

namespace Shape

variable {s : Shape} {tree : PatternTree}

/-- A sequence is read from one occurrence to one element, whatever stands around. -/
theorem decode_sequence_eq_ok_iff (h : s.check (some tree) Path.root = .ok ()) {found : MatchTree}
    {v : Value} : (Shape.sequence s).decode tree found = .ok v ↔
      ∃ vs, List.Forall₂ (fun o w => s.read (some tree) Path.root [o] = .ok w) found vs ∧
        v = .sequence vs := by
  rw [decode_of_check (s := .sequence s) h, read_sequence_eq_ok_iff]

theorem decode_sequence_eq_ok_sequence_iff (h : s.check (some tree) Path.root = .ok ())
    {found : MatchTree} {vs : List Value} :
    (Shape.sequence s).decode tree found = .ok (.sequence vs) ↔
      List.Forall₂ (fun o w => s.read (some tree) Path.root [o] = .ok w) found vs := by
  rw [decode_sequence_eq_ok_iff h]
  constructor
  · rintro ⟨ws, hws, hv⟩
    cases hv
    exact hws
  · exact fun hvs => ⟨vs, hvs, rfl⟩

theorem decode_sequence_append (h : s.check (some tree) Path.root = .ok ())
    (front back : MatchTree) (v : Value) :
    (Shape.sequence s).decode tree (front ++ back) = .ok v ↔
      ∃ vs ws, (Shape.sequence s).decode tree front = .ok (.sequence vs) ∧
        (Shape.sequence s).decode tree back = .ok (.sequence ws) ∧ v = .sequence (vs ++ ws) := by
  simp only [decode_sequence_eq_ok_sequence_iff h]
  rw [decode_sequence_eq_ok_iff h]
  constructor
  · rintro ⟨us, hus, rfl⟩
    have hlen : front.length ≤ us.length := by
      rw [← hus.length_eq, List.length_append]
      exact Nat.le_add_right _ _
    refine ⟨us.take front.length, us.drop front.length, ?_, ?_, ?_⟩
    · have := List.forall₂_take front.length hus
      rwa [List.take_left] at this
    · have := List.forall₂_drop front.length hus
      rwa [List.drop_left] at this
    · rw [List.take_append_drop]
  · rintro ⟨vs, ws, hvs, hws, rfl⟩
    exact ⟨vs ++ ws, List.rel_append hvs hws, rfl⟩

/-- A tuple of copies and a sequence do the same reading, where the number of occurrences fits. -/
theorem decode_tuple_replicate (h : s.check (some tree) Path.root = .ok ()) (found : MatchTree) :
    (Shape.tuple (List.replicate found.length s)).decode tree found =
        (readEach (fun i o => s.read (some tree) (Path.root.element i) [o]) 0 found).map .tuple ∧
      (Shape.sequence s).decode tree found =
        (readEach (fun i o => s.read (some tree) (Path.root.element i) [o]) 0 found).map
          .sequence := by
  constructor
  · rw [decode_of_check (check_tuple_replicate h _), read, List.length_replicate, if_pos rfl,
      readComponents_replicate]
  · rw [decode_of_check (s := .sequence s) h, read]

theorem decode_tuple_replicate_eq_ok_iff (h : s.check (some tree) Path.root = .ok ()) (m : Nat)
    (found : MatchTree) (v : Value) :
    (Shape.tuple (List.replicate m s)).decode tree found = .ok v ↔ found.length = m ∧
      ∃ vs, (Shape.sequence s).decode tree found = .ok (.sequence vs) ∧ v = .tuple vs := by
  by_cases hlen : found.length = m
  · subst hlen
    obtain ⟨htuple, hsequence⟩ := decode_tuple_replicate h found
    rw [htuple, hsequence, map_eq_ok]
    simp only [map_eq_ok, Value.sequence.injEq, exists_eq_right', true_and]
  · rw [decode_of_check (check_tuple_replicate h m), read_tuple_eq_ok, List.length_replicate]
    exact iff_of_false (fun hread => hlen hread.1) fun hread => hlen hread.1

theorem decode_optional_eq_ok_iff (h : s.check (some tree) Path.root = .ok ()) (found : MatchTree)
    (v : Value) (hfew : found.length ≤ 1) : (Shape.optional s).decode tree found = .ok v ↔
      ∃ vs, (Shape.sequence s).decode tree found = .ok (.sequence vs) ∧ v = .ofAtMostOne vs := by
  simp only [decode_sequence_eq_ok_sequence_iff h]
  rw [decode_of_check (s := .optional s) h, read_optional_eq_ok]
  rcases found with _ | ⟨o, _ | ⟨o', rest⟩⟩
  · simp [Value.ofAtMostOne]
  · constructor
    · rintro (⟨hnone, -⟩ | ⟨o', w, ho, hw, rfl⟩)
      · cases hnone
      · obtain rfl : o = o' := by simpa using ho
        exact ⟨[w], .cons hw .nil, rfl⟩
    · rintro ⟨vs, hvs, rfl⟩
      obtain ⟨w, ws, hw, hws, rfl⟩ := List.forall₂_cons_left_iff.1 hvs
      obtain rfl := List.forall₂_nil_left_iff.1 hws
      exact .inr ⟨o, w, rfl, hw, rfl⟩
  · exact absurd hfew (by simp)

theorem decode_optional_many (h : s.check (some tree) Path.root = .ok ()) (found : MatchTree)
    (hmany : 1 < found.length) : (Shape.optional s).decode tree found =
      .error (.arity Path.root (Shape.optional s).name .atMostOne (some tree.source)
        found.length) := by
  rw [decode_of_check (s := .optional s) h]
  rcases found with _ | ⟨o, _ | ⟨o', rest⟩⟩
  · exact absurd hmany (by simp)
  · exact absurd hmany (by simp)
  · rfl

end Shape

/-- Of any shape that the pattern tree answers: a sequence is read in parts, a tuple of copies is a
sequence of that length with the same elements or the same error, and an optional value is a
sequence of at most one. -/
theorem countedAlike_of_check (s : Shape) (tree : PatternTree)
    (h : s.check (some tree) Path.root = .ok ()) : CountedAlike s tree where
  elements found v hv := by
    obtain ⟨vs, hvs, rfl⟩ := (Shape.decode_sequence_eq_ok_iff h).1 hv
    exact ⟨vs, rfl, hvs.length_eq.symm⟩
  append := Shape.decode_sequence_append h
  tuple := Shape.decode_tuple_replicate_eq_ok_iff h
  tuple_error found e := by
    obtain ⟨htuple, hsequence⟩ := Shape.decode_tuple_replicate h found
    rw [htuple, hsequence, map_eq_error, map_eq_error]
  optional := Shape.decode_optional_eq_ok_iff h
  optional_many := Shape.decode_optional_many h

/-- The same assignment found twice. -/
def assignments : MatchTree :=
  assignment.occurrences (Bytes.ofString "ab=1,23") 0 ++
    assignment.occurrences (Bytes.ofString "ab=1,23") 0

/-- Two records in a row: read in parts as a sequence, and with the same elements as a pair. -/
theorem assignments_read_alike :
    assignmentShape.check (some assignment) Path.root = .ok () ∧
      (Shape.sequence assignmentShape).decode assignment assignments =
        .ok (.sequence [assignmentValue, assignmentValue]) ∧
      (Shape.tuple [assignmentShape, assignmentShape]).decode assignment assignments =
        .ok (.tuple [assignmentValue, assignmentValue]) := by
  have hcheck : assignmentShape.check (some assignment) Path.root = .ok () := by
    with_unfolding_all rfl
  have hone : (Shape.sequence assignmentShape).decode assignment
      (assignment.occurrences (Bytes.ofString "ab=1,23") 0) =
        .ok (.sequence [assignmentValue]) := by
    with_unfolding_all rfl
  have halike := countedAlike_of_check assignmentShape assignment hcheck
  have hboth : (Shape.sequence assignmentShape).decode assignment assignments =
      .ok (.sequence [assignmentValue, assignmentValue]) :=
    (halike.append _ _ _).2 ⟨_, _, hone, hone, rfl⟩
  have hlen : assignments.length = 2 := by decide +kernel
  exact ⟨hcheck, hboth, (halike.tuple 2 _ _).2 ⟨hlen, _, hboth, rfl⟩⟩

end NestedMatch
