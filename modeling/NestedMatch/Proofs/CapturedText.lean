import NestedMatch.Proofs.Spans
import NestedMatch.Proofs.Undeclared

/-! Text captured by a group without a child is decoded as if a leaf had matched all of it, once. In
one tree the text is an occurrence as it stands, in the other a run of the leaf finds it. What is
followed through the shape is that both have their occurrences in the same places. -/

namespace NestedMatch

/-- Both results are the same value, or both are failures, and these are related. -/
inductive AgreeUpTo {ε α : Type} (R : ε → ε → Prop) : Except ε α → Except ε α → Prop
  | ok (a : α) : AgreeUpTo R (.ok a) (.ok a)
  | error {e e' : ε} : R e e' → AgreeUpTo R (.error e) (.error e')

namespace AgreeUpTo

variable {ε α β : Type} {R : ε → ε → Prop} {x y : Except ε α}

theorem refl (hR : ∀ e, R e e) (x : Except ε α) : AgreeUpTo R x x := by
  cases x with
  | error e => exact .error (hR e)
  | ok a => exact .ok a

theorem map (f : α → β) (h : AgreeUpTo R x y) : AgreeUpTo R (x.map f) (y.map f) := by
  cases h with
  | ok a => exact .ok (f a)
  | error he => exact .error he

theorem bind {f g : α → Except ε β} (h : AgreeUpTo R x y) (hf : ∀ a, AgreeUpTo R (f a) (g a)) :
    AgreeUpTo R (x >>= f) (y >>= g) := by
  cases h with
  | ok a => exact hf a
  | error he => exact .error he

theorem eq_ok {a : α} (h : AgreeUpTo R (.ok a) y) : y = .ok a := by
  cases h
  rfl

end AgreeUpTo

/-- The errors are equal, or a wrong number of occurrences is said to be of a captured group in the
first and of the pattern in the second. -/
inductive DecodeError.NamesInstead (pattern : Bytes) : DecodeError → DecodeError → Prop
  | same (e : DecodeError) : NamesInstead pattern e e
  | arity {path : Path} {target : Bytes} {expected : Arity} {found : Nat} :
    NamesInstead pattern (.arity path target expected none found)
      (.arity path target expected (some pattern) found)

namespace Shape

/-- Occurrences in two scopes that are read alike: they have the same text in the same place, a
wrong number of them is a fault alike, and the fields that the shape declares are read alike. -/
structure Corresponds (R : DecodeError → DecodeError → Prop) (a b : Option PatternTree)
    (Q : Occurrence → Occurrence → Prop) (s : Shape) : Prop where
  refl : ∀ e, R e e
  whole : ∀ o o', Q o o' → o.whole = o'.whole
  miscount : ∀ s expected path (found found' : List Occurrence), found.length = found'.length →
    R (miscount s expected a path found) (miscount s expected b path found')
  field : ∀ name member, s.Declares name member → ∀ o o', Q o o' → ∀ path path',
    AgreeUpTo R
      (fieldOccurrences a path name o >>=
        member.read (a.bind fun tree => tree.child? name) path')
      (fieldOccurrences b path name o' >>=
        member.read (b.bind fun tree => tree.child? name) path')

variable {R : DecodeError → DecodeError → Prop} {a b : Option PatternTree}
  {Q : Occurrence → Occurrence → Prop} {s s' : Shape} {path : Path} {found found' : List Occurrence}

theorem Corresponds.of_declares (h : Corresponds R a b Q s)
    (hsub : ∀ name member, s'.Declares name member → s.Declares name member) :
    Corresponds R a b Q s' where
  refl := h.refl
  whole := h.whole
  miscount := h.miscount
  field name member hm := h.field name member (hsub name member hm)

theorem readEach_agree {read read' : Nat → Occurrence → Except DecodeError Value} {i : Nat}
    (hfound : List.Forall₂ Q found found')
    (h : ∀ i o o', Q o o' → AgreeUpTo R (read i o) (read' i o')) :
    AgreeUpTo R (readEach read i found) (readEach read' i found') := by
  induction hfound generalizing i with
  | nil => exact .ok []
  | cons ho _ ih => exact (h i _ _ ho).bind fun v => ih.bind fun vs => .ok (v :: vs)

theorem readComponents_agree {components : List Shape} {i : Nat}
    (hfound : List.Forall₂ Q found found')
    (h : ∀ s ∈ components, ∀ path found found', List.Forall₂ Q found found' →
      AgreeUpTo R (s.read a path found) (s.read b path found')) :
    AgreeUpTo R (readComponents components a path i found)
      (readComponents components b path i found') := by
  induction components generalizing i found found' with
  | nil => exact .ok []
  | cons s rest ih =>
    obtain ⟨hs, hrest⟩ := List.forall_mem_cons.1 h
    refine (hs _ _ _ (List.forall₂_take 1 hfound)).bind fun v => ?_
    exact (ih (List.forall₂_drop 1 hfound) hrest).bind fun vs => .ok (v :: vs)

theorem readFields_agree {fields : List (Bytes × Shape)} {o o' : Occurrence}
    (h : Corresponds R a b Q s) (hfields : ∀ f ∈ fields, s.Declares f.1 f.2) (ho : Q o o') :
    AgreeUpTo R (readFields fields a path o) (readFields fields b path o') := by
  induction fields with
  | nil => exact .ok []
  | cons f rest ih =>
    obtain ⟨name, member⟩ := f
    obtain ⟨hf, hrest⟩ := List.forall_mem_cons.1 hfields
    have hfield := h.field name member hf o o' ho path (path.member name)
    rw [readFields, readFields, ← bind_assoc, ← bind_assoc]
    exact hfield.bind fun v => (ih hrest).bind fun vs => .ok ((name, v) :: vs)

theorem read_agree (h : Corresponds R a b Q s) (hfound : List.Forall₂ Q found found') :
    AgreeUpTo R (s.read a path found) (s.read b path found') := by
  have hlen := hfound.length_eq
  induction s generalizing path found found' with
  | scalar type =>
    rcases hfound with _ | ⟨ho, _ | ⟨_, _⟩⟩
    · exact .error (h.miscount _ _ _ _ _ rfl)
    · rw [read, read, h.whole _ _ ho]
      exact .refl h.refl _
    · exact .error (h.miscount _ _ _ _ _ hlen)
  | optional inner ih =>
    rcases hfound with _ | ⟨ho, _ | ⟨_, _⟩⟩
    · exact .ok Value.absent
    · have hinner := h.of_declares fun _ _ => .optional
      exact (ih hinner (.cons ho .nil) rfl).map _
    · exact .error (h.miscount _ _ _ _ _ hlen)
  | sequence inner ih =>
    have hinner := h.of_declares fun _ _ => .sequence
    rw [read, read]
    refine (readEach_agree hfound fun i o o' ho => ?_).map _
    exact ih hinner (.cons ho .nil) rfl
  | spanned inner ih =>
    rcases hfound with _ | ⟨ho, _ | ⟨_, _⟩⟩
    · exact .error (h.miscount _ _ _ _ _ rfl)
    · have hinner := h.of_declares fun _ _ => .spanned
      rw [read, read, h.whole _ _ ho]
      exact (ih hinner (.cons ho .nil) rfl).map _
    · exact .error (h.miscount _ _ _ _ _ hlen)
  | tuple components ih =>
    rw [read, read, ← hlen]
    split
    · refine (readComponents_agree hfound fun s hs path found found' hfound => ?_).map _
      exact ih s hs (h.of_declares fun _ _ => .tuple hs) hfound hfound.length_eq
    · exact .error (h.miscount _ _ _ _ _ hlen)
  | record fields ih =>
    rcases hfound with _ | ⟨ho, _ | ⟨_, _⟩⟩
    · exact .error (h.miscount _ _ _ _ _ rfl)
    · exact (readFields_agree h (fun f hf => .record hf) ho).map _
    · exact .error (h.miscount _ _ _ _ _ hlen)

theorem check_eq_of_declares {s : Shape} {t u : PatternTree} (hpattern : t.pattern = u.pattern)
    (h : ∀ name member, s.Declares name member → ∀ path,
      member.check (t.child? name) path = member.check (u.child? name) path) (path : Path) :
    s.check (some t) path = s.check (some u) path := by
  induction s generalizing path with
  | scalar type => rfl
  | optional inner ih => exact ih (fun name member hm => h name member (.optional hm)) path
  | sequence inner ih => exact ih (fun name member hm => h name member (.sequence hm)) path
  | spanned inner ih => exact ih (fun name member hm => h name member (.spanned hm)) path
  | tuple components ih =>
    refine checkComponents_congr fun s hs path => ?_
    exact ih s hs (fun name member hm => h name member (.tuple hs hm)) path
  | record fields ih =>
    exact checkFields_congr hpattern fun f hf path => h f.1 f.2 (.record hf) path

/-- No field is asked of the node the shape is read from: in particular, a shape without records. -/
def FieldFree (s : Shape) : Prop := ∀ name member, ¬ s.Declares name member

/-- Such a shape is read from any scope, also from text that a group without a child captured. -/
theorem FieldFree.scoped (h : s.FieldFree) (scope : Option PatternTree) : Scoped s scope := by
  induction s with
  | scalar type => exact .scalar
  | optional inner ih => exact .optional (ih fun name member hm => h name member (.optional hm))
  | sequence inner ih => exact .sequence (ih fun name member hm => h name member (.sequence hm))
  | spanned inner ih => exact .spanned (ih fun name member hm => h name member (.spanned hm))
  | tuple components ih =>
    exact .tuple fun s hs => ih s hs fun name member hm => h name member (.tuple hs hm)
  | record fields ih =>
    have hnone (f : Bytes × Shape) (hf : f ∈ fields) : False := h f.1 f.2 (.record hf)
    exact .record (fun f hf => (hnone f hf).elim) fun f hf => (hnone f hf).elim

theorem FieldFree.check (h : s.FieldFree) (scope : Option PatternTree) (path : Path) :
    s.check scope path = .ok () :=
  (s.check_eq_ok_iff scope path).2 (h.scoped scope)

end Shape

/-- A stretch, seen from its own beginning and put back in its place. -/
theorem Span.shift_start {s : Span} (h : s.start ≤ s.stop) :
    (⟨0, s.size⟩ : Span).shift s.start = s := by
  obtain ⟨start, stop⟩ := s
  simp only [shift, size, Span.mk.injEq] at h ⊢
  omega

/-- The pattern matches all of the text in one stretch. Where this leaves the search from the end of
a text open, all that the engine can answer there is nothing or the empty match. -/
def Pattern.MatchesAll (q : Pattern) (text : Bytes) : Prop :=
  ∃ m, q.find? text 0 = some m ∧ m.whole = ⟨0, text.length⟩

/-- After a match that stopped at the end of the text there can only be an empty one, and that is
passed over. -/
theorem Cursor.remaining_eq_nil_of_stopped {q : Pattern} {text : Bytes} {c : Cursor}
    (hpos : text.length ≤ c.position) (hlast : c.lastStop = some text.length) :
    c.remaining q text = [] := by
  rcases Nat.lt_or_eq_of_le hpos with hpast | hend
  · exact remaining_of_finished (search_of_lt hpast)
  · cases hm : q.find? text c.position with
    | none => exact remaining_of_finished (search_of_none hm)
    | some m =>
      obtain ⟨hpast, hc⟩ := position_lt_of_find? hm
      obtain ⟨hstart, horder, hstop⟩ := Pattern.within_of_find? hm
      have hskip : m.whole.isEmpty ∧ c.lastStop = some m.whole.stop :=
        ⟨Span.isEmpty_iff.2 (by omega), by rw [hlast]; exact congrArg some (by omega)⟩
      rw [remaining_of_skipped (search_of_skip hc hm hskip)]
      rw [← hend] at hpast
      exact remaining_of_finished (search_of_lt hpast)

theorem Pattern.findAll_of_matchesAll {q : Pattern} {text : Bytes} (h : q.MatchesAll text) :
    ∃ m, q.findAll text = [m] ∧ m.whole = ⟨0, text.length⟩ := by
  obtain ⟨m, hm, hwhole⟩ := h
  have hreport : Cursor.first.search q text = .found m (.after text m) :=
    Cursor.search_of_report (Nat.zero_le _) hm fun hskip => by simp [Cursor.first] at hskip
  have hafter : text.length ≤ (Cursor.after text m).position := by
    rw [Cursor.after, hwhole]
    dsimp only
    split
    · exact Nat.le_of_lt (Utf8.lt_next (Nat.le_refl _))
    · exact Nat.le_refl _
  have hlast : (Cursor.after text m).lastStop = some text.length := by
    rw [Cursor.after, hwhole]
  refine ⟨m, ?_, hwhole⟩
  rw [findAll, Cursor.remaining_of_found hreport, Cursor.remaining_eq_nil_of_stopped hafter hlast]

namespace PatternTree

/-- The tree with a leaf under the name. -/
def withLeaf (t : PatternTree) (name : Bytes) (q : Pattern) : PatternTree :=
  .node t.pattern (t.children.insert name (.leaf q))

section

variable {t : PatternTree} {name : Bytes} {q : Pattern} {text : Bytes}

theorem pattern_withLeaf : (t.withLeaf name q).pattern = t.pattern := rfl

theorem child?_withLeaf_self : (t.withLeaf name q).child? name = some (.leaf q) :=
  Dict.lookup_insert_self name (NamedTree.leaf q) t.children

theorem child?_withLeaf_of_ne {other : Bytes} (h : other ≠ name) :
    (t.withLeaf name q).child? other = t.child? other :=
  Dict.lookup_insert_of_ne h (NamedTree.leaf q) t.children

/-- The leaf has one occurrence in a capture that its pattern matches, and finds it in its place. -/
theorem occurrences_leaf {c : Capture} {k : Nat} (hc : c.Reads text k) (hq : q.MatchesAll c.text) :
    ∃ o, occurrences (.leaf q) c.text c.span.start = [o] ∧ o.whole = c := by
  obtain ⟨m, hfound, hwhole⟩ := Pattern.findAll_of_matchesAll hq
  have hplace : (m.shift c.span.start).whole.capture c.text c.span.start = c := by
    have hspan : m.whole.shift c.span.start = c.span := by
      rw [hwhole, hc.length_text, Span.shift_start hc.start_le_stop]
    have hcut : m.whole.cut c.text = c.text := by
      rw [hwhole, Span.cut, Span.size]
      exact List.take_length
    rw [RawMatch.shift, Span.capture_shift, hspan, hcut]
  rw [occurrences_eq_map, Pattern.findAllAt, NamedTree.leaf, pattern_node, hfound]
  exact ⟨_, rfl, hplace⟩

/-- A field under another name is read from the same occurrences. -/
theorem fieldOccurrences_withLeaf_of_ne {other : Bytes} (h : other ≠ name) (path : Path)
    (m : RawMatch) :
    Shape.fieldOccurrences (some (t.withLeaf name q)) path other
        ((t.withLeaf name q).occurrence text 0 m) =
      Shape.fieldOccurrences (some t) path other (t.occurrence text 0 m) := by
  have hchild : (t.withLeaf name q).children.lookup other = t.children.lookup other :=
    child?_withLeaf_of_ne h
  simp only [Shape.fieldOccurrences, child?_withLeaf_of_ne h, occurrence, pattern_withLeaf,
    lookup_branchOccurrences, hchild]

/-- Under the name, the one tree gives the capture and the other what the leaf finds in it. -/
theorem fieldOccurrences_withLeaf_self (hgroup : t.hasGroup name = true)
    (hchild : t.child? name = none) (path : Path) (m : RawMatch) :
    Shape.fieldOccurrences (some t) path name (t.occurrence text 0 m) =
        .ok ((capturedBy t.pattern m text 0 name).map Occurrence.ofCapture).toList ∧
      Shape.fieldOccurrences (some (t.withLeaf name q)) path name
          ((t.withLeaf name q).occurrence text 0 m) =
        .ok (((capturedBy t.pattern m text 0 name).map fun c =>
          occurrences (.leaf q) c.text c.span.start).getD []) := by
  obtain ⟨i, hi⟩ := Option.isSome_iff_exists.1 ((t.pattern.isSome_groupIndex? name).trans hgroup)
  have hleaf : (t.withLeaf name q).children.lookup name = some (.leaf q) := child?_withLeaf_self
  constructor
  · simp only [Shape.fieldOccurrences, hchild, occurrence, lookup_captures, hi, Option.map_some]
  · simp only [Shape.fieldOccurrences, child?_withLeaf_self, occurrence, pattern_withLeaf,
      lookup_branchOccurrences, hleaf, Option.map_some]

/-- What the two trees read from the group, which may have taken no part, is in the same places. -/
theorem same_places {captured : Option Capture} {k : Nat}
    (h : ∀ c, captured = some c → c.Reads text k ∧ q.MatchesAll c.text) :
    List.Forall₂ (fun o o' : Occurrence => o.whole = o'.whole)
      (captured.map Occurrence.ofCapture).toList
      ((captured.map fun c => occurrences (.leaf q) c.text c.span.start).getD []) := by
  cases captured with
  | none => exact .nil
  | some c =>
    obtain ⟨hreads, hall⟩ := h c rfl
    obtain ⟨o, hfound, hplace⟩ := occurrences_leaf hreads hall
    rw [Option.map_some, Option.map_some, Option.getD_some, hfound]
    exact .cons hplace.symm .nil

end

/-- Occurrences of the two trees that come from the same match. -/
def SameMatch (t u : PatternTree) (text : Bytes) (o o' : Occurrence) : Prop :=
  ∃ m ∈ t.pattern.findAllAt text 0, o = t.occurrence text 0 m ∧ o' = u.occurrence text 0 m

end PatternTree

namespace Shape

open DecodeError (NamesInstead)

variable {t : PatternTree} {s : Shape} {name : Bytes} {q : Pattern} {text : Bytes}

/-- Without fields, nothing but the place of an occurrence counts. -/
theorem FieldFree.corresponds (h : s.FieldFree) :
    Corresponds (NamesInstead q.source) none (some (.leaf q))
      (fun o o' => o.whole = o'.whole) s where
  refl := .same
  whole _ _ ho := ho
  miscount s expected path found found' hlen := by
    rw [Shape.miscount, Shape.miscount, hlen]
    exact .arity
  field name member hm := (h name member hm).elim

theorem corresponds_withLeaf (hgroup : t.hasGroup name = true) (hchild : t.child? name = none)
    (hinside : t.pattern.GroupsInside) (hdeclared : ∀ member, s.Declares name member →
      member.FieldFree) (hwhole : ∀ o ∈ t.occurrences text 0, ∀ c,
        o.groups.lookup name = some (some c) → q.MatchesAll c.text) :
    Corresponds (NamesInstead q.source) (some t) (some (t.withLeaf name q))
      (t.SameMatch (t.withLeaf name q) text) s where
  refl := .same
  whole := by
    rintro o o' ⟨m, -, rfl, rfl⟩
    rfl
  miscount s expected path found found' hlen := by
    rw [Shape.miscount, Shape.miscount, hlen]
    exact .same _
  field := by
    rintro other member hm o o' ⟨m, hmem, rfl, rfl⟩ path path'
    rw [Option.bind_some, Option.bind_some]
    by_cases hname : other = name
    · subst hname
      obtain ⟨hcapture, hleaf⟩ := t.fieldOccurrences_withLeaf_self hgroup hchild path m
      rw [hcapture, hleaf, hchild, PatternTree.child?_withLeaf_self]
      have hcaptured (c : Capture) (hc : PatternTree.capturedBy t.pattern m text 0 other = some c) :
          c.Reads text 0 ∧ q.MatchesAll c.text := by
        have ho : t.occurrence text 0 m ∈ t.occurrences text 0 :=
          PatternTree.mem_occurrences.2 ⟨m, hmem, rfl⟩
        have hlookup : (t.occurrence text 0 m).groups.lookup other = some (some c) :=
          PatternTree.lookup_captures_eq_some.2 hc
        obtain ⟨-, hreads⟩ := PatternTree.group_inside_of_mem hinside ho hlookup
        exact ⟨hreads, hwhole _ ho c hlookup⟩
      exact read_agree (hdeclared member hm).corresponds (PatternTree.same_places hcaptured)
    · rw [PatternTree.fieldOccurrences_withLeaf_of_ne hname,
        PatternTree.child?_withLeaf_of_ne hname]
      exact .refl .same _

end Shape

/-- A leaf that matches all that a group captures, put under the group, changes no decoded value and
no position in it. Errors stay the same too, but that a wrong number of occurrences is said to be of
the leaf's pattern and not of a captured group. The shape asks for no field of what was captured. -/
theorem decodeText_withLeaf (s : Shape) (t : PatternTree) (name : Bytes) (q : Pattern)
    (text : Bytes) (hgroup : t.hasGroup name = true) (hchild : t.child? name = none)
    (hinside : t.pattern.GroupsInside)
    (hdeclared : ∀ member, s.Declares name member → member.FieldFree)
    (hwhole : ∀ o ∈ t.occurrences text 0, ∀ c, o.groups.lookup name = some (some c) →
      q.MatchesAll c.text) :
    AgreeUpTo (DecodeError.NamesInstead q.source) (s.decodeText t text)
      (s.decodeText (t.withLeaf name q) text) := by
  have hcheck : s.check (some t) Path.root = s.check (some (t.withLeaf name q)) Path.root := by
    refine s.check_eq_of_declares t.pattern_withLeaf.symm (fun other member hm path => ?_) _
    by_cases hname : other = name
    · subst hname
      rw [(hdeclared member hm).check, (hdeclared member hm).check]
    · rw [PatternTree.child?_withLeaf_of_ne hname]
  have hsame : List.Forall₂ (t.SameMatch (t.withLeaf name q) text) (t.occurrences text 0)
      ((t.withLeaf name q).occurrences text 0) := by
    rw [t.occurrences_eq_map, (t.withLeaf name q).occurrences_eq_map, t.pattern_withLeaf,
      List.forall₂_map_left_iff, List.forall₂_map_right_iff, List.forall₂_same]
    exact fun m hm => ⟨m, hm, rfl, rfl⟩
  have hcorresponds := s.corresponds_withLeaf hgroup hchild hinside hdeclared hwhole
  rw [Shape.decodeText, Shape.decodeText, Shape.decode, Shape.decode, ← hcheck]
  refine (AgreeUpTo.refl .same (s.check (some t) Path.root)).bind fun _ => ?_
  exact Shape.read_agree hcorresponds hsame

/-- A pattern for letters, also none. After the word it finds the empty match there. -/
def lettersPattern : Pattern :=
  ⟨Bytes.ofString "[a-z]*", Engine.tableMatcher []
    [(Bytes.ofString "ab", [⟨⟨0, 2⟩, []⟩, ⟨⟨2, 2⟩, []⟩])]⟩

theorem declares_key {member : Shape} (h : locatedShape.Declares (Bytes.ofString "key") member) :
    member = .spanned (.scalar .string) := by
  rcases h with _ | _ | h
  rcases h with _ | _ | _ | _ | hf
  have hne : Bytes.ofString "key" ≠ Bytes.ofString "nums" := by decide
  simpa [hne] using hf

/-- The name of an assignment is the same word in the same place when a leaf matches it. -/
theorem name_matched_by_leaf :
    assignment.hasGroup (Bytes.ofString "key") = true ∧
      assignment.child? (Bytes.ofString "key") = none ∧
      lettersPattern.MatchesAll (Bytes.ofString "ab") ∧
      locatedShape.decodeText (assignment.withLeaf (Bytes.ofString "key") lettersPattern)
        (Bytes.ofString "ab=1,23") = .ok (.spanned ⟨0, 7⟩ locatedFields) := by
  have hgroup : assignment.hasGroup (Bytes.ofString "key") = true := by decide
  have hchild : assignment.child? (Bytes.ofString "key") = none := rfl
  have hdeclared (member : Shape) (h : locatedShape.Declares (Bytes.ofString "key") member) :
      member.FieldFree := by
    rw [declares_key h]
    intro name member h
    rcases h with _ | _ | h
    cases h
  have hword : lettersPattern.MatchesAll (Bytes.ofString "ab") :=
    ⟨⟨⟨0, 2⟩, []⟩, by decide, by decide⟩
  have hcaptured : (assignment.occurrences (Bytes.ofString "ab=1,23") 0).map
      (fun o => o.groups.lookup (Bytes.ofString "key")) =
        [some (some ⟨⟨0, 2⟩, Bytes.ofString "ab"⟩)] := by
    with_unfolding_all rfl
  have hwhole (o : Occurrence) (ho : o ∈ assignment.occurrences (Bytes.ofString "ab=1,23") 0)
      (c : Capture) (hc : o.groups.lookup (Bytes.ofString "key") = some (some c)) :
      lettersPattern.MatchesAll c.text := by
    have hmem := List.mem_map_of_mem (f := fun o => o.groups.lookup (Bytes.ofString "key")) ho
    rw [hcaptured, List.mem_singleton, hc, Option.some_inj, Option.some_inj] at hmem
    rw [hmem]
    exact hword
  have hdecode : locatedShape.decodeText assignment (Bytes.ofString "ab=1,23") =
      .ok (.spanned ⟨0, 7⟩ locatedFields) := by
    with_unfolding_all rfl
  have hagree := decodeText_withLeaf locatedShape assignment (Bytes.ofString "key") lettersPattern
    (Bytes.ofString "ab=1,23") hgroup hchild
    (groupsInside_assignment _ assignment.label_mem_labels) hdeclared hwhole
  rw [hdecode] at hagree
  exact ⟨hgroup, hchild, hword, hagree.eq_ok⟩

end NestedMatch
