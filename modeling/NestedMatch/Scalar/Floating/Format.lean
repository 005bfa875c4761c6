import NestedMatch.Bytes

/-! Binary floating-point formats and rounding to the nearest number of a format. All arithmetic is
exact; a number of a format is a mantissa below `2 ^ precision` times a power of two. -/

namespace NestedMatch

/-- The finite numbers of a format are `m * 2 ^ e` with `m < 2 ^ precision` and
`leastExponent ≤ e ≤ greatestExponent`. The least normal one is
`2 ^ (leastExponent + precision - 1)`. -/
structure FloatFormat where
  precision : Nat
  leastExponent : Int
  greatestExponent : Int
  /-- Whether a number below the least normal one is rounded like any other. Where it is not, only
  such numbers are read as are in the format. -/
  roundsTiny : Bool
deriving DecidableEq, Repr

namespace FloatFormat

/-- The format of 32 bits. -/
def single : FloatFormat := ⟨24, -149, 104, true⟩

/-- The format of 64 bits. -/
def double : FloatFormat := ⟨53, -1074, 971, true⟩

/-- The format of 80 bits, which has no hidden bit in the mantissa. -/
def extended : FloatFormat := ⟨64, -16445, 16320, false⟩

end FloatFormat

namespace Rounding

/-- The integer nearest to `n / d`, an even one where two are as near. -/
def roundDiv (n d : Nat) : Nat :=
  if 2 * (n % d) < d ∨ (2 * (n % d) = d ∧ n / d % 2 = 0) then n / d else n / d + 1

/-- The exponent of the power of two at or just below `n / d`, for positive `n` and `d`. -/
def binade (n d : Nat) : Int :=
  let k : Int := (n.log2 : Int) - d.log2
  if d * Nat.pow 2 k.toNat ≤ n * Nat.pow 2 (-k).toNat then k else k - 1

/-- The exponent of the last bit kept of `n / d`. -/
def quantum (f : FloatFormat) (n d : Nat) : Int :=
  max f.leastExponent (binade n d - f.precision + 1)

/-- The nearest multiple of `2 ^ q` to `n / d`, as a multiple of it. -/
def mantissa (n d : Nat) (q : Int) : Nat :=
  roundDiv (n * Nat.pow 2 (-q).toNat) (d * Nat.pow 2 q.toNat)

/-- Whether `n / d` is a multiple of `2 ^ q`. -/
def isMultiple (n d : Nat) (q : Int) : Bool :=
  n * Nat.pow 2 (-q).toNat % (d * Nat.pow 2 q.toNat) = 0

/-- Whether `n / d` stays below the least normal number when it is rounded to the precision of the
format alone, whatever exponent that takes. -/
def isTiny (f : FloatFormat) (n d : Nat) : Bool :=
  let q := binade n d - f.precision + 1
  q < f.leastExponent && mantissa n d q < Nat.pow 2 (f.leastExponent + f.precision - 1 - q).toNat

/-- The number of the format nearest to `n / d`, as mantissa and exponent. None if it is zero, or
beyond the greatest number of the format, or tiny and not exact in a format that does not round
such numbers. -/
def nearest? (f : FloatFormat) (n d : Nat) : Option (Nat × Int) :=
  let q := quantum f n d
  let m := mantissa n d q
  if m = 0 then none
  else if !f.roundsTiny && isTiny f n d && !isMultiple n d q then none
  else if Nat.pow 2 (f.precision + (f.greatestExponent - f.leastExponent).toNat) ≤
      m * Nat.pow 2 (q - f.leastExponent).toNat then none
  else some (m, q)

/-- Whether `coefficient * 10 ^ exponent` is beyond the format, or rounded to zero, by its size
alone. It is at least `2 ^ log2 c * 8 ^ e` for `e` not negative, and less than
`2 ^ (log2 c + 1) * 8 ^ e` for negative `e`. -/
def isFar (f : FloatFormat) (coefficient : Nat) (exponent : Int) : Bool :=
  if 0 ≤ exponent then
    (f.precision : Int) + f.greatestExponent ≤ (coefficient.log2 : Int) + 3 * exponent
  else (coefficient.log2 : Int) + 1 + 3 * exponent < f.leastExponent

/-- The number of the format nearest to `coefficient * 10 ^ exponent`. -/
def nearestDecimal? (f : FloatFormat) (coefficient : Nat) (exponent : Int) :
    Option (Nat × Int) :=
  if isFar f coefficient exponent then none
  else nearest? f (coefficient * Nat.pow 10 exponent.toNat) (Nat.pow 10 (-exponent).toNat)

/-- The same number with an odd mantissa, for a mantissa other than zero. -/
def oddMantissa (m : Nat) (e : Int) : Nat × Int :=
  if h : m ≠ 0 ∧ m % 2 = 0 then oddMantissa (m / 2) (e + 1) else (m, e)
termination_by m
decreasing_by omega

end Rounding
end NestedMatch
