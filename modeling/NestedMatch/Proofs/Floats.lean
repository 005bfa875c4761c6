import NestedMatch.Proofs.FloatText
import NestedMatch.Proofs.Rounding

/-! Which texts are read as a floating-point number: the numerals, each as the number of the format
nearest to what it denotes, and the names of the special values. -/

namespace NestedMatch

open Sign (Signed Unsigned)
open FloatNumeral (Written Named)

namespace FloatType

theorem two_le_precision (type : FloatType) : 2 ≤ type.format.precision := by
  cases type <;> decide

theorem leastExponent_le (type : FloatType) :
    type.format.leastExponent ≤ type.format.greatestExponent := by
  cases type <;> decide

end FloatType

namespace Floating

/-- The value that a number is read as, with a sign in front of it or not. Zero keeps the sign. -/
inductive Nearest (f : FloatFormat) (negative : Bool) : ℚ → Floating → Prop
  | zero : Nearest f negative 0 (.finite negative 0 0)
  | rounded {x : ℚ} {m : ℕ} {e : ℤ} : Odd m → f.Reads x (m * 2 ^ e) →
      Nearest f negative x (.finite negative m e)

/-- The texts of a value: a numeral that denotes a number nearest to it, or its name. -/
inductive Spells (f : FloatFormat) (text : Bytes) : Floating → Prop
  | number {t : Bytes} {negative : Bool} {x : ℚ} {v : Floating} : Signed text negative t →
      Written t x → Nearest f negative x v → Spells f text v
  | infinity {t : Bytes} {negative : Bool} : Signed text negative t → Named t .infinity →
      Spells f text (.infinity negative)
  | nan {t : Bytes} {negative : Bool} : Signed text negative t → Named t .nan → Spells f text .nan

variable {f : FloatFormat} {text t : Bytes} {negative : Bool} {v : Floating}

theorem ofScientific_iff (hp : 2 ≤ f.precision)
    (hrange : f.leastExponent ≤ f.greatestExponent) (s : Scientific) :
    ofScientific f negative s = some v ↔
      Nearest f negative (s.coefficient * 10 ^ s.exponent) v := by
  rw [ofScientific]
  split
  · rename_i hzero
    rw [hzero, Nat.cast_zero, zero_mul, Option.some_inj]
    constructor
    · rintro rfl
      exact .zero
    · rintro (_ | ⟨-, h⟩)
      · rfl
      · exact absurd rfl h.ne_zero
  · rename_i hc
    have hiff := fun y => Rounding.nearestDecimal?_iff (y := y) hp hrange hc s.exponent
    simp only [Option.map_eq_some_iff, Prod.exists]
    constructor
    · rintro ⟨m, q, h, rfl⟩
      have hreads := (hiff _).1 ⟨m, q, h, rfl⟩
      have hm : m ≠ 0 := by
        rintro rfl
        simpa using hreads.pos
      obtain ⟨hodd, heq⟩ := Rounding.oddMantissa_spec hm q
      exact .rounded hodd (heq ▸ hreads)
    · generalize hx : (s.coefficient : ℚ) * 10 ^ s.exponent = x at hiff
      rintro (_ | @⟨_, m, e, hodd, h⟩)
      · have hcast : (s.coefficient : ℚ) ≠ 0 := by exact_mod_cast hc
        exact absurd hx (mul_ne_zero hcast (zpow_ne_zero _ (by norm_num)))
      · obtain ⟨m', q, hsome, heq⟩ := (hiff _).2 h
        have hm : m' ≠ 0 := by
          rintro rfl
          rw [Nat.cast_zero, zero_mul] at heq
          exact h.pos.ne' heq
        obtain ⟨hodd', heq'⟩ := Rounding.oddMantissa_spec hm q
        obtain ⟨h₁, h₂⟩ := Rounding.odd_mul_two_zpow_inj hodd' hodd (heq'.trans heq.symm)
        exact ⟨m', q, hsome, by rw [h₁, h₂]⟩

theorem parse_of_signed (h : Signed text negative t) (ht : Unsigned t) :
    parse f text = (FloatNumeral.parse t).bind (ofNumeral f negative) := by
  obtain ⟨body, hbody, hsplit⟩ := h.exists_body ht
  rw [parse, hbody, Option.bind_some, hsplit]

theorem parse_eq_some_iff (hp : 2 ≤ f.precision)
    (hrange : f.leastExponent ≤ f.greatestExponent) :
    parse f text = some v ↔ Spells f text v := by
  constructor
  · intro h
    simp only [parse, Option.bind_eq_some_iff] at h
    obtain ⟨body, hbody, w, hw, hv⟩ := h
    have hsign := Sign.signed_of_dropPlus hbody
    rcases FloatNumeral.parse_iff.1 hw with hname | ⟨s, hs, rfl⟩
    · cases w with
      | finite s => cases hname
      | infinity =>
        cases hv
        exact .infinity hsign hname
      | nan =>
        cases hv
        exact .nan hsign hname
    · exact .number hsign (FloatNumeral.scientific_iff.1 ⟨s, hs, rfl⟩)
        ((ofScientific_iff hp hrange s).1 hv)
  · intro h
    cases h with
    | number hsign hx hv =>
      obtain ⟨s, hs, rfl⟩ := FloatNumeral.scientific_iff.2 hx
      rw [parse_of_signed hsign hx.unsigned, FloatNumeral.parse_iff.2 (.inr ⟨s, hs, rfl⟩)]
      exact (ofScientific_iff hp hrange s).2 hv
    | infinity hsign hname =>
      rw [parse_of_signed hsign hname.unsigned, FloatNumeral.parse_iff.2 (.inl hname)]
      rfl
    | nan hsign hname =>
      rw [parse_of_signed hsign hname.unsigned, FloatNumeral.parse_iff.2 (.inl hname)]
      rfl

end Floating

/-- Reading a floating-point number gives the value that the text spells, and nothing for any other
text. A numeral spells the number of the format nearest to what it denotes, ties to even; none if
another number than zero is rounded to zero, or beyond the format, or is tiny and not exact in the
extended format. Every positive number is rounded to exactly one. -/
theorem floats_read_exactly (type : FloatType) :
    (∀ text v, Floating.parse type.format text = some v ↔ Floating.Spells type.format text v) ∧
      ∀ x : ℚ, 0 < x → ∃! y, type.format.grid.RoundsTo x y :=
  ⟨fun _ _ => Floating.parse_eq_some_iff type.two_le_precision type.leastExponent_le,
    fun _ => type.format.existsUnique_roundsTo type.two_le_precision⟩

/-- A number just below the least normal one of the extended format is rounded to it, but to a
smaller one where the exponent is free. So it counts as tiny, and not being exact it is not read. -/
theorem normal_extended_unread :
    Written (Bytes.ofString "3.3621031431120935061e-4932")
        (33621031431120935061 * 10 ^ (-4951 : ℤ)) ∧
      FloatFormat.extended.grid.RoundsTo (33621031431120935061 * 10 ^ (-4951 : ℤ))
        (2 ^ (-16382 : ℤ)) ∧
      FloatFormat.extended.Holds (2 ^ (-16382 : ℤ)) ∧
      FloatFormat.extended.leastExponent + FloatFormat.extended.precision - 1 = -16382 ∧
      Floating.parse .extended (Bytes.ofString "3.3621031431120935061e-4932") = none := by
  refine ⟨FloatNumeral.scientific_iff.1 ⟨⟨33621031431120935061, -4951⟩, by decide, rfl⟩, ?_, ?_,
    rfl, ?_⟩
  · have hval : (33621031431120935061 : ℚ) * 10 ^ (-4951 : ℤ) =
        (33621031431120935061 : ℕ) / (10 ^ 4951 : ℕ) := by
      rw [zpow_neg, div_eq_mul_inv]
      norm_cast
    have hq : Rounding.quantum .extended 33621031431120935061 (10 ^ 4951) = -16445 := by
      decide +kernel
    have hm : Rounding.mantissa 33621031431120935061 (10 ^ 4951) (-16445) = 2 ^ 63 := by
      decide +kernel
    rw [hval, Rounding.roundsTo_iff (by decide) (by decide) (by positivity), hq, hm,
      Nat.cast_pow, Nat.cast_ofNat, two_pow_mul_zpow]
    rfl
  · exact ⟨1, -16382, by decide, by decide, by decide, by simp⟩
  · decide +kernel

/-- A zero keeps its sign, and what is only rounded to zero is none. -/
example : Floating.parse .single (Bytes.ofString "-.0e9") = some (.finite true 0 0) ∧
    Floating.parse .single (Bytes.ofString "1e-46") = none := by decide

end NestedMatch
