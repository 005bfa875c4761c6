import NestedMatch.Decimal

/-! Integers of a fixed width: their ranges, and the numerals read as one. -/

namespace NestedMatch

/-- The number of bits. -/
inductive Width where
  | w8 | w16 | w32 | w64
deriving DecidableEq, Repr

def Width.bits : Width → Nat
  | .w8 => 8
  | .w16 => 16
  | .w32 => 32
  | .w64 => 64

structure IntegerType where
  signed : Bool
  width : Width
deriving DecidableEq, Repr

namespace IntegerType

def least (t : IntegerType) : Int := if t.signed then -(Nat.pow 2 (t.width.bits - 1) : Int) else 0

def greatest (t : IntegerType) : Int :=
  if t.signed then (Nat.pow 2 (t.width.bits - 1) : Int) - 1 else (Nat.pow 2 t.width.bits : Int) - 1

def Holds (t : IntegerType) (v : Int) : Prop := t.least ≤ v ∧ v ≤ t.greatest

instance (t : IntegerType) (v : Int) : Decidable (t.Holds v) := inferInstanceAs (Decidable (_ ∧ _))

def name (t : IntegerType) : Bytes :=
  Bytes.ofString (if t.signed then "int" else "uint") ++ Decimal.ofNat t.width.bits ++
    Bytes.ofString "_t"

/-- The number a run of digits denotes, if it is one and not empty. -/
def magnitude (digits : Bytes) : Option Nat :=
  if digits ≠ [] ∧ digits.all Decimal.isDigit then some (Decimal.value digits) else none

/-- A numeral with an optional sign; only signed types take a minus. -/
def numeral (t : IntegerType) (text : Bytes) : Option Int :=
  if t.signed ∧ (Sign.splitMinus text).1 then
    (magnitude (Sign.splitMinus text).2).map fun n => -(n : Int)
  else (magnitude text).map fun n => (n : Int)

/-- Reads the whole text as a number in the range of the type. -/
def parse (t : IntegerType) (text : Bytes) : Option Int :=
  (Sign.dropPlus text).bind fun body => (t.numeral body).filter fun v => decide (t.Holds v)

end IntegerType
end NestedMatch
