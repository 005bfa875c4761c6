import NestedMatch.Dict

/-! JSON values. The members of an object stand in the order of their names, no name twice. -/

namespace NestedMatch

inductive Json where
  | null
  | boolean (b : Bool)
  /-- A number as it is written. -/
  | number (lexeme : Bytes)
  | string (text : Bytes)
  | array (elements : List Json)
  | object (members : List (Bytes × Json))
deriving Inhabited

namespace Json

/-- The name of the kind of value. -/
def kind : Json → Bytes
  | .null => Bytes.ofString "null"
  | .boolean _ => Bytes.ofString "boolean"
  | .number _ => Bytes.ofString "number"
  | .string _ => Bytes.ofString "string"
  | .array _ => Bytes.ofString "array"
  | .object _ => Bytes.ofString "object"

/-- Induction over a value, with the hypothesis for every element and every member. -/
@[elab_as_elim, induction_eliminator]
theorem induct {motive : Json → Prop} (null : motive .null) (boolean : ∀ b, motive (.boolean b))
    (number : ∀ lexeme, motive (.number lexeme)) (string : ∀ text, motive (.string text))
    (array : ∀ elements, (∀ v ∈ elements, motive v) → motive (.array elements))
    (object : ∀ members, (∀ m ∈ members, motive m.2) → motive (.object members)) (v : Json) :
    motive v := by
  refine @Json.rec motive (fun elements => ∀ v ∈ elements, motive v)
    (fun members => ∀ m ∈ members, motive m.2) (fun m => motive m.2)
    null boolean number string array object ?_ ?_ ?_ ?_ ?_ v
  · simp
  · exact fun v rest hv hrest => List.forall_mem_cons.2 ⟨hv, hrest⟩
  · simp
  · exact fun m rest hm hrest => List.forall_mem_cons.2 ⟨hm, hrest⟩
  · exact fun name v h => h

end Json
end NestedMatch
