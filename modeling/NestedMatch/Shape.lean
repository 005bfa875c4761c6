import NestedMatch.Scalar
import NestedMatch.Span

/-! Shapes: how the occurrences of a pattern become a value. -/

namespace NestedMatch

inductive Shape where
  /-- Exactly one occurrence, its text read as a scalar. -/
  | scalar (type : Scalar)
  /-- At most one occurrence. -/
  | optional (inner : Shape)
  /-- Any number of occurrences, an element for each. -/
  | sequence (inner : Shape)
  /-- Exactly one occurrence, and where it was found. -/
  | spanned (inner : Shape)
  /-- One occurrence for each component, in order. -/
  | tuple (components : List Shape)
  /-- Exactly one occurrence, each field taken from the group of its name. -/
  | record (fields : List (Bytes × Shape))

/-- The values of shapes. -/
inductive Value where
  | scalar (v : ScalarValue)
  | absent
  | present (v : Value)
  | sequence (elements : List Value)
  | spanned (span : Span) (v : Value)
  | tuple (components : List Value)
  | record (fields : List (Bytes × Value))

namespace Shape

mutual

def name : Shape → Bytes
  | .scalar type => type.name
  | .optional inner => Bytes.ofString "optional<" ++ inner.name ++ Bytes.ofString ">"
  | .sequence inner => Bytes.ofString "sequence<" ++ inner.name ++ Bytes.ofString ">"
  | .spanned inner => Bytes.ofString "spanned<" ++ inner.name ++ Bytes.ofString ">"
  | .tuple components =>
    Bytes.ofString "tuple<" ++ Bytes.join (Bytes.ofString ", ") (names components) ++
      Bytes.ofString ">"
  | .record _ => Bytes.ofString "record"

def names : List Shape → List Bytes
  | [] => []
  | s :: rest => s.name :: names rest

end

/-- Induction over a shape, with the hypothesis for every component and every field. -/
@[elab_as_elim, induction_eliminator]
theorem induct {motive : Shape → Prop} (scalar : ∀ type, motive (.scalar type))
    (optional : ∀ inner, motive inner → motive (.optional inner))
    (sequence : ∀ inner, motive inner → motive (.sequence inner))
    (spanned : ∀ inner, motive inner → motive (.spanned inner))
    (tuple : ∀ components, (∀ s ∈ components, motive s) → motive (.tuple components))
    (record : ∀ fields, (∀ f ∈ fields, motive f.2) → motive (.record fields)) (s : Shape) :
    motive s := by
  refine @Shape.rec motive (fun components => ∀ s ∈ components, motive s)
    (fun fields => ∀ f ∈ fields, motive f.2) (fun f => motive f.2)
    scalar optional sequence spanned tuple record ?_ ?_ ?_ ?_ ?_ s
  · simp
  · exact fun s rest hs hrest => List.forall_mem_cons.2 ⟨hs, hrest⟩
  · simp
  · exact fun f rest hf hrest => List.forall_mem_cons.2 ⟨hf, hrest⟩
  · exact fun name s h => h

end Shape
end NestedMatch
