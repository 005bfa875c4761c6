import NestedMatch.Proofs.Faithful
import NestedMatch.Proofs.Meaning

/-! Decoding sees of a pattern tree what the shape declares and nothing else. Two trees that agree on
it give different match trees, so the two readings are followed over one list of matches: at each
node both have the occurrences of the same matches, and below a declared field both have either the
same capture or again the same matches. -/

namespace NestedMatch

namespace Shape

/-- The shape asks a node for the field, and reads it as the second shape. Between shape and field
stand only shapes that are read from the same node. -/
inductive Declares : Shape → Bytes → Shape → Prop
  | optional {inner member : Shape} {name : Bytes} :
    Declares inner name member → Declares (.optional inner) name member
  | sequence {inner member : Shape} {name : Bytes} :
    Declares inner name member → Declares (.sequence inner) name member
  | spanned {inner member : Shape} {name : Bytes} :
    Declares inner name member → Declares (.spanned inner) name member
  | tuple {components : List Shape} {s member : Shape} {name : Bytes} :
    s ∈ components → Declares s name member → Declares (.tuple components) name member
  | record {fields : List (Bytes × Shape)} {member : Shape} {name : Bytes} :
    (name, member) ∈ fields → Declares (.record fields) name member

end Shape

/-- The trees have the same pattern and the same children among the fields that the shape declares.
Such children agree on every shape that the field is declared with. -/
inductive AlikeFor : Shape → PatternTree → PatternTree → Prop
  | intro {s : Shape} {t u : PatternTree} : t.pattern = u.pattern →
    (∀ name member, s.Declares name member →
      ((∃ c, t.child? name = some c) ↔ ∃ d, u.child? name = some d)) →
    (∀ name member c d, s.Declares name member → t.child? name = some c →
      u.child? name = some d → AlikeFor member c d) →
    AlikeFor s t u

namespace AlikeFor

variable {s s' member : Shape} {t u : PatternTree} {name : Bytes}

theorem pattern_eq (h : AlikeFor s t u) : t.pattern = u.pattern := by
  cases h; assumption

theorem of_declares (h : AlikeFor s t u)
    (hsub : ∀ name member, s'.Declares name member → s.Declares name member) :
    AlikeFor s' t u := by
  obtain ⟨hpattern, hchildren, hmembers⟩ := h
  exact ⟨hpattern, fun name member hm => hchildren name member (hsub name member hm),
    fun name member c d hm => hmembers name member c d (hsub name member hm)⟩

/-- Under a declared name both trees have no child, or both have one. -/
theorem child?_cases (h : AlikeFor s t u) (hm : s.Declares name member) :
    (t.child? name = none ∧ u.child? name = none) ∨
      ∃ c d, t.child? name = some c ∧ u.child? name = some d ∧ AlikeFor member c d := by
  obtain ⟨-, hchildren, hmembers⟩ := h
  have hboth := hchildren name member hm
  cases ht : t.child? name with
  | none =>
    left
    cases hu : u.child? name with
    | none => exact ⟨rfl, rfl⟩
    | some d =>
      obtain ⟨c, hc⟩ := hboth.2 ⟨d, hu⟩
      rw [ht] at hc
      cases hc
  | some c =>
    right
    obtain ⟨d, hd⟩ := hboth.1 ⟨c, ht⟩
    exact ⟨c, d, rfl, hd, hmembers name member c d hm ht hd⟩

end AlikeFor

/-- Scopes that are both without a node, or are alike. -/
inductive ScopesAlike : Shape → Option PatternTree → Option PatternTree → Prop
  | none {s : Shape} : ScopesAlike s none none
  | some {s : Shape} {t u : PatternTree} : AlikeFor s t u → ScopesAlike s (some t) (some u)

namespace ScopesAlike

variable {s s' member : Shape} {a b : Option PatternTree} {t u : PatternTree} {name : Bytes}

theorem of_declares (h : ScopesAlike s a b)
    (hsub : ∀ name member, s'.Declares name member → s.Declares name member) :
    ScopesAlike s' a b := by
  cases h with
  | none => exact .none
  | some h => exact .some (h.of_declares hsub)

theorem of_child? (h : AlikeFor s t u) (hm : s.Declares name member) :
    ScopesAlike member (t.child? name) (u.child? name) := by
  rcases h.child?_cases hm with ⟨ht, hu⟩ | ⟨c, d, ht, hu, hcd⟩
  · rw [ht, hu]
    exact .none
  · rw [ht, hu]
    exact .some hcd

end ScopesAlike

namespace Shape

variable {a b : Option PatternTree} {t u : PatternTree}

theorem checkComponents_congr {components : List Shape} {path : Path} {i : Nat}
    (h : ∀ s ∈ components, ∀ path, s.check a path = s.check b path) :
    checkComponents components a path i = checkComponents components b path i := by
  induction components generalizing i with
  | nil => rfl
  | cons s rest ih =>
    obtain ⟨hs, hrest⟩ := List.forall_mem_cons.1 h
    rw [checkComponents, checkComponents, hs, ih hrest]

theorem checkFields_congr {fields : List (Bytes × Shape)} {path : Path}
    (hpattern : t.pattern = u.pattern) (h : ∀ f ∈ fields, ∀ path,
      f.2.check (t.child? f.1) path = f.2.check (u.child? f.1) path) :
    checkFields fields (some t) path = checkFields fields (some u) path := by
  have hgroup (name : Bytes) : t.hasGroup name = u.hasGroup name := by
    rw [PatternTree.hasGroup, PatternTree.hasGroup, hpattern]
  have hsource : t.source = u.source := by
    rw [PatternTree.source, PatternTree.source, hpattern]
  induction fields with
  | nil => rfl
  | cons f rest ih =>
    obtain ⟨name, s⟩ := f
    obtain ⟨hs, hrest⟩ := List.forall_mem_cons.1 h
    rw [checkFields, checkFields, hgroup, hsource, hs, ih hrest]

theorem check_congr {s : Shape} (h : ScopesAlike s a b) (path : Path) :
    s.check a path = s.check b path := by
  induction s generalizing a b path with
  | scalar type => rfl
  | optional inner ih => exact ih (h.of_declares fun _ _ => .optional) path
  | sequence inner ih => exact ih (h.of_declares fun _ _ => .sequence) path
  | spanned inner ih => exact ih (h.of_declares fun _ _ => .spanned) path
  | tuple components ih =>
    refine checkComponents_congr fun s hs path => ?_
    exact ih s hs (h.of_declares fun _ _ => .tuple hs) path
  | record fields ih =>
    cases h with
    | none => rfl
    | some h =>
      refine checkFields_congr h.pattern_eq fun f hf path => ?_
      exact ih f hf (.of_child? h (.record hf)) path

end Shape

/-- The occurrence that a match of the tree's pattern gives. -/
def PatternTree.occurrence (t : PatternTree) (text : Bytes) (k : Nat) (m : RawMatch) : Occurrence :=
  ⟨m.whole.capture text k, captures t.pattern m text k,
    branchOccurrences t.children (capturedBy t.pattern m text k)⟩

theorem PatternTree.occurrences_eq_map (t : PatternTree) (text : Bytes) (k : Nat) :
    t.occurrences text k = (t.pattern.findAllAt text k).map (t.occurrence text k) := by
  obtain ⟨p, branches⟩ := t
  rfl

namespace Shape

/-- The shape is read alike from the same matches of two trees that agree on what it declares. -/
def ReadsAlike (s : Shape) : Prop :=
  ∀ (t u : PatternTree), AlikeFor s t u →
    ∀ (text : Bytes) (k : Nat) (path : Path) (ms : List RawMatch),
      s.read (some t) path (ms.map (t.occurrence text k)) =
        s.read (some u) path (ms.map (u.occurrence text k))

variable {t u : PatternTree} {text : Bytes} {k : Nat} {path : Path}

theorem miscount_congr (h : t.pattern = u.pattern) (s : Shape) (expected : Arity)
    (ms : List RawMatch) :
    miscount s expected (some t) path (ms.map (t.occurrence text k)) =
      miscount s expected (some u) path (ms.map (u.occurrence text k)) := by
  rw [miscount, miscount, List.length_map, List.length_map, Option.map_some, Option.map_some,
    PatternTree.source, PatternTree.source, h]

theorem readEach_map_congr {read read' : Nat → Occurrence → Except DecodeError Value}
    {f g : RawMatch → Occurrence} {ms : List RawMatch} {i : Nat}
    (h : ∀ i m, read i (f m) = read' i (g m)) :
    readEach read i (ms.map f) = readEach read' i (ms.map g) := by
  induction ms generalizing i with
  | nil => rfl
  | cons m rest ih => rw [List.map_cons, List.map_cons, readEach, readEach, h, ih]

theorem readComponents_map_congr {f g : RawMatch → Occurrence} {components : List Shape}
    {ms : List RawMatch} {i : Nat}
    (h : ∀ s ∈ components, ∀ (path : Path) (ms : List RawMatch),
      s.read (some t) path (ms.map f) = s.read (some u) path (ms.map g)) :
    readComponents components (some t) path i (ms.map f) =
      readComponents components (some u) path i (ms.map g) := by
  induction components generalizing i ms with
  | nil => rfl
  | cons s rest ih =>
    obtain ⟨hs, hrest⟩ := List.forall_mem_cons.1 h
    rw [readComponents, readComponents, ← List.map_take, ← List.map_take, ← List.map_drop,
      ← List.map_drop, hs, ih hrest]

/-- A declared field is read from the same capture, or from the same matches of alike children. -/
theorem readField_congr {s member : Shape} {name : Bytes} (h : AlikeFor s t u)
    (hm : s.Declares name member) (ih : member.ReadsAlike) (text : Bytes) (k : Nat)
    (path path' : Path) (m : RawMatch) :
    (fieldOccurrences (some t) path name (t.occurrence text k m) >>=
        member.read (t.child? name) path') =
      (fieldOccurrences (some u) path name (u.occurrence text k m) >>=
        member.read (u.child? name) path') := by
  have hgroups : (t.occurrence text k m).groups = (u.occurrence text k m).groups := by
    rw [PatternTree.occurrence, PatternTree.occurrence, h.pattern_eq]
  rcases h.child?_cases hm with ⟨ht, hu⟩ | ⟨c, d, ht, hu, hcd⟩
  · simp only [fieldOccurrences, ht, hu, hgroups]
  · have entry (v w : PatternTree) (hv : v.child? name = some w) :
        fieldOccurrences (some v) path name (v.occurrence text k m) =
          .ok (((PatternTree.capturedBy v.pattern m text k name).map fun c =>
            w.occurrences c.text c.span.start).getD []) := by
      have hv' : v.children.lookup name = some w := hv
      simp only [fieldOccurrences, hv, PatternTree.occurrence,
        PatternTree.lookup_branchOccurrences, hv', Option.map_some]
    rw [entry t c ht, entry u d hu, h.pattern_eq, ht, hu]
    cases PatternTree.capturedBy u.pattern m text k name with
    | none => exact ih c d hcd text k path' []
    | some captured =>
      have hread := ih c d hcd captured.text captured.span.start path'
        (d.pattern.findAllAt captured.text captured.span.start)
      rw [Option.map_some, Option.map_some, c.occurrences_eq_map, d.occurrences_eq_map,
        hcd.pattern_eq]
      exact hread

theorem readFields_congr {s : Shape} {fields : List (Bytes × Shape)} {m : RawMatch}
    (h : AlikeFor s t u) (hfields : ∀ f ∈ fields, s.Declares f.1 f.2)
    (ih : ∀ f ∈ fields, f.2.ReadsAlike) :
    readFields fields (some t) path (t.occurrence text k m) =
      readFields fields (some u) path (u.occurrence text k m) := by
  induction fields with
  | nil => rfl
  | cons f rest ihrest =>
    obtain ⟨name, member⟩ := f
    obtain ⟨hf, hrest⟩ := List.forall_mem_cons.1 hfields
    obtain ⟨ihf, ihs⟩ := List.forall_mem_cons.1 ih
    have hfield := readField_congr h hf ihf text k path (path.member name) m
    rw [readFields, readFields, ← bind_assoc, ← bind_assoc, Option.bind_some, Option.bind_some,
      hfield, ihrest hrest ihs]

theorem readsAlike (s : Shape) : s.ReadsAlike := by
  induction s with
  | scalar type =>
    intro t u h text k path ms
    rcases ms with _ | ⟨m, _ | ⟨m', rest⟩⟩
    · exact congrArg Except.error (miscount_congr h.pattern_eq _ _ _)
    · rfl
    · exact congrArg Except.error (miscount_congr h.pattern_eq _ _ _)
  | optional inner ih =>
    intro t u h text k path ms
    rcases ms with _ | ⟨m, _ | ⟨m', rest⟩⟩
    · rfl
    · have hread := ih t u (h.of_declares fun _ _ => .optional) text k path [m]
      exact congrArg (Except.map Value.present) hread
    · exact congrArg Except.error (miscount_congr h.pattern_eq _ _ _)
  | sequence inner ih =>
    intro t u h text k path ms
    rw [read, read]
    refine congrArg (Except.map Value.sequence) (readEach_map_congr fun i m => ?_)
    exact ih t u (h.of_declares fun _ _ => .sequence) text k (path.element i) [m]
  | spanned inner ih =>
    intro t u h text k path ms
    rcases ms with _ | ⟨m, _ | ⟨m', rest⟩⟩
    · exact congrArg Except.error (miscount_congr h.pattern_eq _ _ _)
    · have hread := ih t u (h.of_declares fun _ _ => .spanned) text k path [m]
      exact congrArg (Except.map (Value.spanned (m.whole.capture text k).span)) hread
    · exact congrArg Except.error (miscount_congr h.pattern_eq _ _ _)
  | tuple components ih =>
    intro t u h text k path ms
    rw [read, read, List.length_map, List.length_map]
    split
    · refine congrArg (Except.map Value.tuple) (readComponents_map_congr fun s hs path ms => ?_)
      exact ih s hs t u (h.of_declares fun _ _ => .tuple hs) text k path ms
    · exact congrArg Except.error (miscount_congr h.pattern_eq _ _ _)
  | record fields ih =>
    intro t u h text k path ms
    rcases ms with _ | ⟨m, _ | ⟨m', rest⟩⟩
    · exact congrArg Except.error (miscount_congr h.pattern_eq _ _ _)
    · exact congrArg (Except.map Value.record)
        (readFields_congr h (fun f hf => .record hf) ih)
    · exact congrArg Except.error (miscount_congr h.pattern_eq _ _ _)

end Shape

/-- Trees that agree on what the shape declares are decoded alike from every text, to the same value
or with the same error. -/
theorem decodeText_ignores_undeclared (s : Shape) (t u : PatternTree) (h : AlikeFor s t u)
    (text : Bytes) : s.decodeText t text = s.decodeText u text := by
  have hcheck := Shape.check_congr (.some h) Path.root
  have hread := s.readsAlike t u h text 0 Path.root (t.pattern.findAllAt text 0)
  rw [Shape.decodeText, Shape.decodeText, Shape.decode, Shape.decode, hcheck,
    t.occurrences_eq_map, hread, h.pattern_eq, ← u.occurrences_eq_map]

/-- The assignment with a child more at its name, and one more below its numbers. -/
def annotated : PatternTree :=
  .node assignment.pattern
    [(Bytes.ofString "key", letter),
      (Bytes.ofString "nums", .node ⟨Bytes.ofString "[0-9]+",
        Engine.tableMatcher [] [(Bytes.ofString "1,23", [⟨⟨0, 1⟩, []⟩, ⟨⟨2, 4⟩, []⟩])]⟩
          [(Bytes.ofString "digit", letter)])]

/-- The numbers alone, once with their positions and once without. -/
def numbersShape : Shape :=
  .tuple [.record [(Bytes.ofString "nums", .sequence (.spanned (.scalar (.integer ⟨false, .w8⟩)))),
    (Bytes.ofString "nums", .sequence (.scalar .string))]]

def numbersValue : Value :=
  .tuple [.record [(Bytes.ofString "nums", .sequence [.spanned ⟨3, 4⟩ (.scalar (.integer 1)),
      .spanned ⟨5, 7⟩ (.scalar (.integer 23))]),
    (Bytes.ofString "nums", .sequence [.scalar (.text (Bytes.ofString "1")),
      .scalar (.text (Bytes.ofString "23"))])]]

theorem alikeFor_annotated : AlikeFor numbersShape assignment annotated := by
  have hdeclared : ∀ name member, numbersShape.Declares name member →
      name = Bytes.ofString "nums" ∧ ∀ name' member', ¬ member.Declares name' member' := by
    rintro name member (_ | _ | _ | ⟨hs, hmember⟩ | _)
    obtain rfl := List.mem_singleton.1 hs
    rcases hmember with _ | _ | _ | _ | hf
    simp only [List.mem_cons, Prod.mk.injEq, List.not_mem_nil, or_false] at hf
    rcases hf with ⟨rfl, rfl⟩ | ⟨rfl, rfl⟩
    · exact ⟨rfl, fun _ _ h => by cases h with | sequence h => cases h with | spanned h => cases h⟩
    · exact ⟨rfl, fun _ _ h => by cases h with | sequence h => cases h⟩
  refine .intro rfl ?_ ?_
  · intro name member h
    obtain ⟨rfl, -⟩ := hdeclared name member h
    exact iff_of_true ⟨_, rfl⟩ ⟨_, rfl⟩
  · intro name member c d h hc hd
    obtain ⟨rfl, hnone⟩ := hdeclared name member h
    obtain rfl := Option.some_inj.1 hc
    obtain rfl := Option.some_inj.1 hd
    exact .intro rfl (fun _ _ h => absurd h (hnone _ _)) fun _ _ _ _ h => absurd h (hnone _ _)

/-- The children that are not declared take part in the matching, and no value shows it. -/
theorem annotation_ignored :
    AlikeFor numbersShape assignment annotated ∧
      numbersShape.decodeText annotated (Bytes.ofString "ab=1,23") = .ok numbersValue := by
  have hdecode : numbersShape.decodeText assignment (Bytes.ofString "ab=1,23") =
      .ok numbersValue := by
    with_unfolding_all rfl
  refine ⟨alikeFor_annotated, ?_⟩
  rw [← decodeText_ignores_undeclared numbersShape assignment annotated alikeFor_annotated]
  exact hdecode

end NestedMatch
