import NestedMatch.Scalar.Floating
import NestedMatch.Scalar.Integer

/-! The scalar types, and the texts read as a value of one. -/

namespace NestedMatch

namespace Boolean

def trueSpellings : List Bytes := ["true", "t", "yes", "y", "1"].map Bytes.ofString

def falseSpellings : List Bytes := ["false", "f", "no", "n", "0"].map Bytes.ofString

def parse (text : Bytes) : Option Bool :=
  if text.lower ∈ trueSpellings then some true
  else if text.lower ∈ falseSpellings then some false
  else none

end Boolean

inductive FloatType where
  | single | double | extended
deriving DecidableEq, Repr

def FloatType.format : FloatType → FloatFormat
  | .single => .single
  | .double => .double
  | .extended => .extended

inductive Scalar where
  | bool
  /-- One byte. -/
  | char
  | integer (type : IntegerType)
  | floating (type : FloatType)
  /-- The text itself, whatever it is. -/
  | string
  /-- The text itself, as a view of where it stands. -/
  | view
  /-- Any text, which is not looked at. -/
  | unit
deriving DecidableEq, Repr

inductive ScalarValue where
  | bool (b : Bool)
  | char (b : UInt8)
  | integer (v : Int)
  | floating (v : Floating)
  | text (t : Bytes)
  | unit
deriving DecidableEq, Repr

namespace Scalar

def name : Scalar → Bytes
  | .bool => Bytes.ofString "bool"
  | .char => Bytes.ofString "char"
  | .integer type => type.name
  | .floating .single => Bytes.ofString "float"
  | .floating .double => Bytes.ofString "double"
  | .floating .extended => Bytes.ofString "long double"
  | .string => Bytes.ofString "string"
  | .view => Bytes.ofString "string_view"
  | .unit => Bytes.ofString "unit"

def parseChar : Bytes → Option UInt8
  | [b] => some b
  | _ => none

/-- Reads the whole text as a value of the type. -/
def parse (s : Scalar) (text : Bytes) : Option ScalarValue :=
  match s with
  | .bool => (Boolean.parse text).map .bool
  | .char => (parseChar text).map .char
  | .integer type => (type.parse text).map .integer
  | .floating type => (Floating.parse type.format text).map .floating
  | .string | .view => some (.text text)
  | .unit => some .unit

/-- A text that is kept is kept as it stands. -/
theorem eq_of_parse_eq_text {s : Scalar} {text t : Bytes} (h : s.parse text = some (.text t)) :
    t = text := by
  cases s <;> simp_all [parse]

end Scalar
end NestedMatch
