import Mathlib.Algebra.Order.Field.Power
import Mathlib.Data.Rat.Cast.Order
import Mathlib.Tactic.Linarith
import Mathlib.Tactic.Positivity
import Mathlib.Tactic.Ring

/-! The numbers whose mantissa has a bounded number of bits, and the one of them that is nearest to
a rational, ties to even. Which one it is can be read off the last place of the rational: the
nearest multiple of that place. So there is exactly one for every positive rational. -/

namespace NestedMatch

/-- The numbers `m * 2 ^ e` with `m < 2 ^ precision`, and `least ≤ e` where there is a least
exponent. -/
structure Grid where
  precision : Nat
  least : Option Int

namespace Grid

def Allows (g : Grid) (e : Int) : Prop := ∀ l ∈ g.least, l ≤ e

def Number (g : Grid) (y : ℚ) : Prop :=
  ∃ (m : ℕ) (e : ℤ), m < 2 ^ g.precision ∧ g.Allows e ∧ y = m * 2 ^ e

/-- A number whose last bit is zero. -/
def EvenNumber (g : Grid) (y : ℚ) : Prop :=
  ∃ (m : ℕ) (e : ℤ), m < 2 ^ g.precision ∧ g.Allows e ∧ Even m ∧ y = m * 2 ^ e

/-- No number is nearer to `x`, and if another is as near, then `y` is the even one. -/
structure RoundsTo (g : Grid) (x y : ℚ) : Prop where
  number : g.Number y
  nearest : ∀ z, g.Number z → |x - y| ≤ |x - z|
  even_of_tie : ∀ z, g.Number z → z ≠ y → |x - z| = |x - y| → g.EvenNumber y

/-- The place of the last bit that is kept of `x`: the mantissa has room for `x` there, and either
no smaller place is allowed or the room is used. -/
structure LastPlace (g : Grid) (x : ℚ) (q : Int) : Prop where
  allows : g.Allows q
  lt : x < 2 ^ g.precision * 2 ^ q
  least_or_le : (∀ e, g.Allows e → q ≤ e) ∨ 2 ^ g.precision * 2 ^ q ≤ 2 * x

end Grid

/-- The multiple of `2 ^ q` nearest to `x` is the one by `m`, an even `m` in the middle of two. -/
structure NearestMultiple (x : ℚ) (q : Int) (m : ℕ) : Prop where
  near : |x - m * 2 ^ q| ≤ 2 ^ q / 2
  even_of_tie : |x - m * 2 ^ q| = 2 ^ q / 2 → Even m

theorem two_zpow_pos (q : ℤ) : (0 : ℚ) < 2 ^ q := zpow_pos two_pos q

theorem two_pow_mul_zpow (k : ℕ) (q : ℤ) : (2 : ℚ) ^ k * 2 ^ q = 2 ^ (q + k) := by
  rw [zpow_add₀ two_ne_zero, zpow_natCast, mul_comm]

/-- A multiple of a greater power of two is a multiple of a smaller one. -/
theorem mul_two_zpow_of_le (m : ℕ) {q e : ℤ} (h : q ≤ e) :
    (m : ℚ) * 2 ^ e = (m * 2 ^ (e - q).toNat : ℕ) * 2 ^ q := by
  have he : e = q + (e - q).toNat := by omega
  push_cast
  rw [mul_assoc, two_pow_mul_zpow, ← he]

namespace NearestMultiple

variable {x z : ℚ} {q : ℤ} {m j : ℕ}

/-- Below the middle of two integers the lower one is the nearest, and in the middle if it is
even. -/
theorem lower {t : ℚ} (h₀ : 0 ≤ t) (ht : t ≤ 1 / 2) (heven : t = 1 / 2 → Even m) :
    NearestMultiple (m + t) 0 m := by
  have hdist : |(m : ℚ) + t - m * 2 ^ (0 : ℤ)| = t := by
    rw [zpow_zero, mul_one, add_sub_cancel_left, abs_of_nonneg h₀]
  constructor
  · rwa [hdist, zpow_zero]
  · rwa [hdist, zpow_zero]

theorem upper {t : ℚ} (ht : 1 / 2 ≤ t) (h₁ : t ≤ 1) (heven : t = 1 / 2 → Even (m + 1)) :
    NearestMultiple (m + t) 0 (m + 1) := by
  have hdist : |(m : ℚ) + t - (m + 1 : ℕ) * 2 ^ (0 : ℤ)| = 1 - t := by
    rw [zpow_zero, mul_one, abs_sub_comm, Nat.cast_succ, add_sub_add_left_eq_sub,
      abs_of_nonneg (sub_nonneg.2 h₁)]
  constructor
  · rw [hdist, zpow_zero]
    linarith
  · rw [hdist, zpow_zero]
    exact fun htie => heven (by linarith)

theorem scale (h : NearestMultiple x q m) (k : ℤ) : NearestMultiple (x * 2 ^ k) (q + k) m := by
  have hpos := two_zpow_pos k
  have hdist : |x * 2 ^ k - m * 2 ^ (q + k)| = |x - m * 2 ^ q| * 2 ^ k := by
    rw [zpow_add₀ two_ne_zero, ← mul_assoc, ← sub_mul, abs_mul, abs_of_pos hpos]
  have hhalf : (2 : ℚ) ^ (q + k) / 2 = 2 ^ q / 2 * 2 ^ k := by
    rw [zpow_add₀ two_ne_zero]
    ring
  constructor
  · rw [hdist, hhalf]
    exact mul_le_mul_of_nonneg_right h.near hpos.le
  · rw [hdist, hhalf, mul_left_inj' hpos.ne']
    exact h.even_of_tie

theorem dist_of_le {k : ℕ} (h : (k : ℤ) ≤ |(m : ℤ) - j|) :
    (k : ℚ) * 2 ^ q ≤ |(m : ℚ) * 2 ^ q - j * 2 ^ q| := by
  have hcast : (k : ℚ) ≤ |(m : ℚ) - j| := by exact_mod_cast h
  rw [← sub_mul, abs_mul, abs_of_pos (two_zpow_pos q)]
  exact mul_le_mul_of_nonneg_right hcast (two_zpow_pos q).le

/-- Two multiples are no farther from each other than both are from `x`. -/
theorem dist_le (x : ℚ) (q : ℤ) (m j : ℕ) :
    |(m : ℚ) * 2 ^ q - j * 2 ^ q| ≤ |x - m * 2 ^ q| + |x - j * 2 ^ q| := by
  rw [abs_sub_comm x (m * 2 ^ q)]
  exact abs_sub_le _ x _

/-- Another multiple is half a place away at least. -/
theorem half_le_of_ne (h : NearestMultiple x q m) (hj : j ≠ m) :
    (2 : ℚ) ^ q / 2 ≤ |x - j * 2 ^ q| := by
  have hone : ((1 : ℕ) : ℚ) * 2 ^ q ≤ _ := dist_of_le (m := m) (j := j) (Int.one_le_abs (by omega))
  have hdist := dist_le x q m j
  have hnear := h.near
  push_cast at hone
  linarith

theorem le_multiple (h : NearestMultiple x q m) (j : ℕ) :
    |x - m * 2 ^ q| ≤ |x - j * 2 ^ q| := by
  rcases eq_or_ne j m with rfl | hj
  · exact le_rfl
  · exact h.near.trans (h.half_le_of_ne hj)

theorem lt_of_lt_multiple (h : NearestMultiple x q m) (hj : (j : ℚ) * 2 ^ q ≤ x)
    (hz : z < j * 2 ^ q) : |x - m * 2 ^ q| < |x - z| := by
  have hle := h.le_multiple j
  rw [abs_of_nonneg (sub_nonneg.2 hj)] at hle
  rw [abs_of_nonneg (by linarith : 0 ≤ x - z)]
  linarith

theorem even_of_eq (h : NearestMultiple x q m) (hj : j ≠ m)
    (heq : |x - j * 2 ^ q| = |x - m * 2 ^ q|) : Even m :=
  h.even_of_tie (le_antisymm h.near (heq ▸ h.half_le_of_ne hj))

/-- Between two even multiples stands an odd one. -/
theorem eq_of_even (h : NearestMultiple x q m) (hj : Even j) (hm : Even m)
    (heq : |x - j * 2 ^ q| = |x - m * 2 ^ q|) : j = m := by
  by_contra hne
  have htwo : ((2 : ℕ) : ℚ) * 2 ^ q ≤ _ := dist_of_le (m := m) (j := j) (by
    obtain ⟨a, rfl⟩ := hj
    obtain ⟨b, rfl⟩ := hm
    rw [le_abs]
    omega)
  have hdist := dist_le x q m j
  have hnear := h.near
  have hpos := two_zpow_pos q
  push_cast at htwo
  linarith

theorem le_of_le (h : NearestMultiple x q m) (hj : (j : ℚ) * 2 ^ q ≤ x) : j ≤ m := by
  by_contra hlt
  have hm : (m : ℚ) * 2 ^ q < j * 2 ^ q := by
    have hcast : (m : ℚ) < j := by exact_mod_cast not_le.1 hlt
    exact mul_lt_mul_of_pos_right hcast (two_zpow_pos q)
  exact lt_irrefl _ (h.lt_of_lt_multiple hj hm)

theorem le_of_ge (h : NearestMultiple x q m) (hj : x ≤ (j : ℚ) * 2 ^ q) : m ≤ j := by
  by_contra hlt
  have hm : (j : ℚ) * 2 ^ q + 2 ^ q ≤ m * 2 ^ q := by
    have hcast : (j : ℚ) + 1 ≤ m := by exact_mod_cast not_le.1 hlt
    have hmul := mul_le_mul_of_nonneg_right hcast (two_zpow_pos q).le
    linarith
  have hnear := (abs_le.1 h.near).1
  have hpos := two_zpow_pos q
  linarith

/-- Where `x` uses all bits, so does the mantissa. -/
theorem all_bits (h : NearestMultiple x q m) {p : ℕ} (hp : p ≠ 0)
    (hx : (2 : ℚ) ^ p * 2 ^ q ≤ 2 * x) : 2 ^ (p - 1) ≤ m := by
  refine h.le_of_le ?_
  rw [← mul_pow_sub_one hp] at hx
  push_cast
  linarith

end NearestMultiple

namespace Grid

variable {g : Grid} {x y z : ℚ} {q e : ℤ} {m : ℕ}

theorem Allows.mono (h : g.Allows q) (hle : q ≤ e) : g.Allows e := fun l hl => (h l hl).trans hle

theorem EvenNumber.number (h : g.EvenNumber y) : g.Number y := by
  obtain ⟨m, e, hm, he, -, rfl⟩ := h
  exact ⟨m, e, hm, he, rfl⟩

/-- A mantissa that was rounded up to `2 ^ precision` moves one place up. -/
theorem number_of_le (hp : 2 ≤ g.precision) (hq : g.Allows q) (hm : m ≤ 2 ^ g.precision) :
    g.Number (m * 2 ^ q) ∧ (Even m → g.EvenNumber (m * 2 ^ q)) := by
  rcases hm.lt_or_eq with hlt | rfl
  · exact ⟨⟨m, q, hlt, hq, rfl⟩, fun heven => ⟨m, q, hlt, hq, heven, rfl⟩⟩
  · obtain ⟨p, hp'⟩ : ∃ p, g.precision = p + 2 := ⟨g.precision - 2, by omega⟩
    have hcarry : g.EvenNumber ((2 ^ g.precision : ℕ) * 2 ^ q) := by
      refine ⟨2 ^ (p + 1), q + 1, ?_, hq.mono (by omega), (even_two).pow_of_ne_zero (by omega), ?_⟩
      · exact Nat.pow_lt_pow_right (by decide) (by omega)
      · push_cast
        rw [two_pow_mul_zpow, two_pow_mul_zpow, hp']
        congr 1
        push_cast
        ring
    exact ⟨hcarry.number, fun _ => hcarry⟩

/-- Seen from some place, a number is a multiple of it, or it has a smaller place and is too small
to use all bits there. -/
theorem multiple_or_lt (hm : m < 2 ^ g.precision) (he : g.Allows e) (q : ℤ) :
    (∃ j : ℕ, (m : ℚ) * 2 ^ e = j * 2 ^ q ∧ (Even m → Even j)) ∨
      (∃ e, g.Allows e ∧ e < q) ∧ 2 * ((m : ℚ) * 2 ^ e) < 2 ^ g.precision * 2 ^ q := by
  rcases le_or_gt q e with hle | hlt
  · exact .inl ⟨_, mul_two_zpow_of_le m hle, fun heven => heven.mul_right _⟩
  · refine .inr ⟨⟨e, he, hlt⟩, ?_⟩
    have hcast : (m : ℚ) < 2 ^ g.precision := by exact_mod_cast hm
    have hplace : (2 : ℚ) * 2 ^ e ≤ 2 ^ q := by
      rw [mul_comm, ← zpow_add_one₀ two_ne_zero]
      exact zpow_le_zpow_right₀ one_le_two (by omega)
    calc 2 * ((m : ℚ) * 2 ^ e) = m * (2 * 2 ^ e) := by ring
      _ < 2 ^ g.precision * (2 * 2 ^ e) := by
        have hpos := two_zpow_pos e
        exact mul_lt_mul_of_pos_right hcast (by linarith)
      _ ≤ 2 ^ g.precision * 2 ^ q := mul_le_mul_of_nonneg_left hplace (by positivity)

/-- A number that is no multiple of the last place of `x` is not nearest to `x`. -/
theorem LastPlace.multiple_or_farther (hp : 2 ≤ g.precision) (hq : g.LastPlace x q)
    (hnear : NearestMultiple x q m) {n : ℕ} (hn : n < 2 ^ g.precision) (he : g.Allows e) :
    (∃ j : ℕ, (n : ℚ) * 2 ^ e = j * 2 ^ q ∧ (Even n → Even j)) ∨
      |x - m * 2 ^ q| < |x - n * 2 ^ e| := by
  rcases multiple_or_lt hn he q with hj | ⟨⟨e', he', hlt⟩, hsmall⟩
  · exact .inl hj
  · rcases hq.least_or_le with hleast | hle
    · exact absurd (hleast e' he') (not_le.2 hlt)
    · rw [← mul_pow_sub_one (by omega : g.precision ≠ 0)] at hle hsmall
      refine .inr (hnear.lt_of_lt_multiple (j := 2 ^ (g.precision - 1)) ?_ ?_)
      · push_cast
        linarith
      · push_cast
        linarith

theorem roundsTo_of_nearest (hp : 2 ≤ g.precision) (hq : g.LastPlace x q)
    (hnear : NearestMultiple x q m) : g.RoundsTo x (m * 2 ^ q) := by
  have hm : m ≤ 2 ^ g.precision := hnear.le_of_ge (by push_cast; exact hq.lt.le)
  obtain ⟨hnumber, heven⟩ := number_of_le hp hq.allows hm
  refine ⟨hnumber, ?_, ?_⟩
  · rintro _ ⟨n, e, hn, he, rfl⟩
    rcases hq.multiple_or_farther hp hnear hn he with ⟨j, hj, -⟩ | hfar
    · exact hj ▸ hnear.le_multiple j
    · exact hfar.le
  · rintro _ ⟨n, e, hn, he, rfl⟩ hne htie
    rcases hq.multiple_or_farther hp hnear hn he with ⟨j, hj, -⟩ | hfar
    · rw [hj] at hne htie
      exact heven (hnear.even_of_eq (fun h => hne (by rw [h])) htie)
    · exact absurd htie hfar.ne'

/-- What a number is rounded to is the nearest multiple of its last place. -/
theorem roundsTo_iff (hp : 2 ≤ g.precision) (hq : g.LastPlace x q)
    (hnear : NearestMultiple x q m) : g.RoundsTo x y ↔ y = m * 2 ^ q := by
  refine ⟨fun h => ?_, fun h => h ▸ roundsTo_of_nearest hp hq hnear⟩
  have hself := roundsTo_of_nearest hp hq hnear
  have heq : |x - y| = |x - m * 2 ^ q| :=
    le_antisymm (h.nearest _ hself.number) (hself.nearest _ h.number)
  by_contra hne
  -- Both are as near, so both are even: two neighbours among the multiples of one place.
  obtain ⟨n, e, hn, he, hevenn, rfl⟩ :=
    h.even_of_tie _ hself.number (Ne.symm hne) heq.symm
  rcases hq.multiple_or_farther hp hnear hn he with ⟨j, hj, hevenj⟩ | hfar
  · rw [hj] at hne heq
    have hjm : j ≠ m := fun h => hne (by rw [h])
    exact hjm (hnear.eq_of_even (hevenj hevenn) (hnear.even_of_eq hjm heq) heq)
  · exact absurd heq hfar.ne'

/-- Rounding does not pass a number of the grid. -/
theorem RoundsTo.le_of_le (h : g.RoundsTo x y) (hz : g.Number z) (hle : z ≤ x) : z ≤ y := by
  by_contra hlt
  have hnear := h.nearest z hz
  rw [abs_of_nonneg (by linarith : 0 ≤ x - z), abs_of_nonneg (by linarith : 0 ≤ x - y)] at hnear
  linarith

end Grid
end NestedMatch
