import NestedMatch.Decimal
import NestedMatch.Scalar.Floating.Format

/-! Floating-point numerals, digits with a point and a power of ten or a special value by name, and
the values they are read as, correctly rounded. -/

namespace NestedMatch

/-- The number `coefficient * 10 ^ exponent`. -/
structure Scientific where
  coefficient : Nat
  exponent : Int
deriving DecidableEq, Repr

/-- What a numeral without its sign denotes. -/
inductive FloatNumeral where
  | finite (value : Scientific)
  | infinity
  | nan
deriving DecidableEq, Repr

namespace FloatNumeral

/-- A sign, plus or minus or none, and at least one digit. -/
def signedDigits (text : Bytes) : Option Int :=
  let negative := text.head? = some 45
  let digits := if text.head? = some 43 ∨ text.head? = some 45 then text.tail else text
  if digits ≠ [] ∧ digits.all Decimal.isDigit then
    some (if negative then -(Decimal.value digits : Int) else Decimal.value digits)
  else none

/-- The power of ten after the digits: nothing, or `e` and a number. -/
def power : Bytes → Option Int
  | [] => some 0
  | b :: rest => if b = 101 ∨ b = 69 then signedDigits rest else none

/-- The digits behind a point, and what follows them. -/
def fraction : Bytes → Bytes × Bytes
  | [] => ([], [])
  | b :: rest =>
    if b = 46 then (rest.takeWhile Decimal.isDigit, rest.dropWhile Decimal.isDigit)
    else ([], b :: rest)

/-- Digits with at most one point, at least one digit, and an optional power of ten. -/
def scientific (text : Bytes) : Option Scientific :=
  let whole := text.takeWhile Decimal.isDigit
  let part := fraction (text.dropWhile Decimal.isDigit)
  if whole ++ part.1 = [] then none
  else (power part.2).map fun e => ⟨Decimal.value (whole ++ part.1), e - part.1.length⟩

def isWordByte (b : UInt8) : Bool :=
  Decimal.isDigit b || (65 ≤ b.toNat && b.toNat ≤ 90) || (97 ≤ b.toNat && b.toNat ≤ 122) || b = 95

/-- The word `nan`, which may carry letters, digits and underscores in parentheses. -/
def isNan (lower : Bytes) : Bool :=
  lower == Bytes.ofString "nan" ||
    (lower.take 4 == Bytes.ofString "nan(" && lower.getLast? == some 41 &&
      ((lower.drop 4).dropLast).all isWordByte)

/-- The special values, in any case. -/
def special (text : Bytes) : Option FloatNumeral :=
  if text.lower = Bytes.ofString "inf" ∨ text.lower = Bytes.ofString "infinity" then some .infinity
  else if isNan text.lower then some .nan
  else none

def parse (text : Bytes) : Option FloatNumeral :=
  (special text).or ((scientific text).map .finite)

end FloatNumeral

/-- A value of some format. A finite one is `mantissa * 2 ^ exponent` with its sign, the mantissa
odd, or zero with exponent zero. -/
inductive Floating where
  | finite (negative : Bool) (mantissa : Nat) (exponent : Int)
  | infinity (negative : Bool)
  | nan
deriving DecidableEq, Repr

namespace Floating

/-- The value nearest to a decimal number. Zero keeps its sign; another number that is rounded to
zero, or beyond the greatest number of the format, has none. -/
def ofScientific (f : FloatFormat) (negative : Bool) (s : Scientific) : Option Floating :=
  if s.coefficient = 0 then some (.finite negative 0 0)
  else (Rounding.nearestDecimal? f s.coefficient s.exponent).map fun (m, e) =>
    .finite negative (Rounding.oddMantissa m e).1 (Rounding.oddMantissa m e).2

def ofNumeral (f : FloatFormat) (negative : Bool) : FloatNumeral → Option Floating
  | .finite s => ofScientific f negative s
  | .infinity => some (.infinity negative)
  | .nan => some .nan

/-- Reads the whole text as a number of the format. -/
def parse (f : FloatFormat) (text : Bytes) : Option Floating :=
  (Sign.dropPlus text).bind fun body =>
    (FloatNumeral.parse (Sign.splitMinus body).2).bind (ofNumeral f (Sign.splitMinus body).1)

end Floating
end NestedMatch
