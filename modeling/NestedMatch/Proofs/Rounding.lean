import Mathlib.Tactic.FieldSimp
import NestedMatch.Proofs.Grid
import NestedMatch.Scalar

/-! Rounding a quotient of natural numbers to a format, by integer arithmetic alone. The place of
the last bit comes from the binade of the quotient and the mantissa from one division, and that is
the nearest number of the grid, ties to even. It is read if it is neither zero nor beyond the
format; a decimal number far off in size is not even rounded. -/

namespace NestedMatch

namespace FloatFormat

/-- The numbers of the format and all greater ones of its precision. -/
def grid (f : FloatFormat) : Grid := ⟨f.precision, some f.leastExponent⟩

/-- The numbers of its precision, whatever the exponent. -/
def freeGrid (f : FloatFormat) : Grid := ⟨f.precision, none⟩

/-- A finite number of the format. -/
def Holds (f : FloatFormat) (y : ℚ) : Prop :=
  ∃ (m : ℕ) (e : ℤ), m < 2 ^ f.precision ∧ f.leastExponent ≤ e ∧ e ≤ f.greatestExponent ∧
    y = m * 2 ^ e

/-- Below the least normal number also when rounded to the precision alone. -/
def Tiny (f : FloatFormat) (x : ℚ) : Prop :=
  ∃ y, f.freeGrid.RoundsTo x y ∧ y < 2 ^ (f.leastExponent + f.precision - 1)

/-- The number of the format, other than zero, that `x` is read as. -/
structure Reads (f : FloatFormat) (x y : ℚ) : Prop where
  pos : 0 < y
  rounds : f.grid.RoundsTo x y
  holds : f.Holds y
  exact_of_tiny : f.roundsTiny = false → f.Tiny x → x = y

variable {f : FloatFormat} {x y : ℚ}

theorem grid_allows {e : ℤ} : f.grid.Allows e ↔ f.leastExponent ≤ e := by
  simp [Grid.Allows, grid]

theorem freeGrid_allows (e : ℤ) : f.freeGrid.Allows e := by
  simp [Grid.Allows, freeGrid]

theorem zero_number : f.grid.Number 0 :=
  ⟨0, f.leastExponent, by positivity, grid_allows.2 le_rfl, by simp⟩

/-- The least number other than zero. -/
theorem le_of_number (hy : f.grid.Number y) (hpos : 0 < y) : (2 : ℚ) ^ f.leastExponent ≤ y := by
  obtain ⟨m, e, -, he, rfl⟩ := hy
  have hm : (1 : ℚ) ≤ m := by
    have hne : m ≠ 0 := by
      rintro rfl
      simp at hpos
    exact_mod_cast Nat.one_le_iff_ne_zero.2 hne
  calc (2 : ℚ) ^ f.leastExponent ≤ 2 ^ e :=
        zpow_le_zpow_right₀ one_le_two (grid_allows.1 he)
    _ ≤ m * 2 ^ e := le_mul_of_one_le_left (two_zpow_pos e).le hm

theorem holds_iff (hrange : f.leastExponent ≤ f.greatestExponent) (hy : f.grid.Number y) :
    f.Holds y ↔ y < 2 ^ f.precision * 2 ^ f.greatestExponent := by
  constructor
  · rintro ⟨m, e, hm, -, hle, rfl⟩
    have hcast : (m : ℚ) < 2 ^ f.precision := by exact_mod_cast hm
    calc (m : ℚ) * 2 ^ e < 2 ^ f.precision * 2 ^ e :=
          mul_lt_mul_of_pos_right hcast (two_zpow_pos e)
      _ ≤ 2 ^ f.precision * 2 ^ f.greatestExponent := by
          gcongr
          exact one_le_two
  · intro hlt
    obtain ⟨m, e, hm, he, rfl⟩ := hy
    rcases le_total e f.greatestExponent with hle | hge
    · exact ⟨m, e, hm, grid_allows.1 he, hle, rfl⟩
    · rw [mul_two_zpow_of_le m hge] at hlt ⊢
      refine ⟨_, f.greatestExponent, ?_, hrange, le_rfl, rfl⟩
      exact_mod_cast lt_of_mul_lt_mul_right hlt (two_zpow_pos _).le

/-- The first number beyond the format is on the grid, and rounding does not pass it. -/
theorem Reads.lt (hp : 2 ≤ f.precision) (hrange : f.leastExponent ≤ f.greatestExponent)
    (h : f.Reads x y) : x < 2 ^ f.precision * 2 ^ f.greatestExponent := by
  have hnumber : f.grid.Number ((2 ^ f.precision : ℕ) * 2 ^ f.greatestExponent) :=
    (Grid.number_of_le hp (grid_allows.2 hrange) le_rfl).1
  push_cast at hnumber
  have hy := (holds_iff hrange h.rounds.number).1 h.holds
  exact lt_of_not_ge fun hge => not_le.2 hy (h.rounds.le_of_le hnumber hge)

/-- Zero is no nearer than the number read, which is not below the least of the format. -/
theorem Reads.least_le (hx : 0 ≤ x) (h : f.Reads x y) : (2 : ℚ) ^ f.leastExponent ≤ x * 2 := by
  have hy := le_of_number h.rounds.number h.pos
  have hzero := h.rounds.nearest 0 zero_number
  rw [sub_zero, abs_of_nonneg hx] at hzero
  have hdist := (abs_le.1 hzero).1
  linarith

theorem Reads.ne_zero (h : f.Reads x y) : x ≠ 0 := by
  rintro rfl
  have hpos := h.least_le le_rfl
  rw [zero_mul] at hpos
  exact not_lt.2 hpos (two_zpow_pos _)

end FloatFormat

namespace Rounding

variable {f : FloatFormat} {n d : ℕ} {q : ℤ}

theorem zpow_eq_div {b : ℚ} (hb : b ≠ 0) (k : ℤ) : b ^ k = b ^ k.toNat / b ^ (-k).toNat := by
  rw [eq_div_iff (pow_ne_zero _ hb), ← zpow_natCast, ← zpow_natCast, ← zpow_add₀ hb]
  congr 1
  omega

/-- The quotient is rounded in units of the place. -/
theorem div_eq_scaled (n d : ℕ) (q : ℤ) :
    (n : ℚ) / d = (n * Nat.pow 2 (-q).toNat : ℕ) / (d * Nat.pow 2 q.toNat : ℕ) * 2 ^ q := by
  rw [zpow_eq_div two_ne_zero, Nat.pow_eq, Nat.pow_eq]
  push_cast
  rcases eq_or_ne (d : ℚ) 0 with hd | hd
  · simp [hd]
  · field_simp

theorem nearest_roundDiv (n : ℕ) (hd : 0 < d) :
    NearestMultiple ((n : ℚ) / d) 0 (roundDiv n d) := by
  have hpos : (0 : ℚ) < d := by exact_mod_cast hd
  have hval : (n : ℚ) / d = (n / d : ℕ) + ((n % d : ℕ) : ℚ) / d := by
    rw [eq_comm, eq_div_iff hpos.ne', add_mul, div_mul_cancel₀ _ hpos.ne']
    exact_mod_cast Nat.div_add_mod' n d
  have hhalf : ((n % d : ℕ) : ℚ) / d = 1 / 2 ↔ 2 * (n % d) = d := by
    rw [div_eq_div_iff hpos.ne' two_ne_zero, one_mul, mul_comm]
    exact_mod_cast Iff.rfl
  rw [hval, roundDiv]
  split
  · rename_i hdown
    refine .lower (by positivity) ?_ fun htie => ?_
    · rw [div_le_div_iff₀ hpos two_pos, one_mul, mul_comm]
      exact_mod_cast hdown.elim le_of_lt fun h => h.1.le
    · have heq := hhalf.1 htie
      exact Nat.even_iff.2 (by omega)
  · rename_i hup
    refine .upper ?_ ?_ fun htie => ?_
    · rw [div_le_div_iff₀ two_pos hpos, one_mul, mul_comm _ 2]
      exact_mod_cast (by omega : d ≤ 2 * (n % d))
    · rw [div_le_one hpos]
      exact_mod_cast (Nat.mod_lt n hd).le
    · have heq := hhalf.1 htie
      exact Nat.even_iff.2 (by omega)

theorem nearest_mantissa (n : ℕ) (hd : 0 < d) (q : ℤ) :
    NearestMultiple ((n : ℚ) / d) q (mantissa n d q) := by
  have hpow : 0 < d * Nat.pow 2 q.toNat := Nat.mul_pos hd (Nat.pow_pos two_pos)
  rw [div_eq_scaled n d q]
  simpa [mantissa] using (nearest_roundDiv (n * Nat.pow 2 (-q).toNat) hpow).scale q

theorem isMultiple_iff (n : ℕ) (hd : 0 < d) (q : ℤ) :
    isMultiple n d q = true ↔ (n : ℚ) / d = mantissa n d q * 2 ^ q := by
  have hpow : 0 < d * Nat.pow 2 q.toNat := Nat.mul_pos hd (Nat.pow_pos two_pos)
  have hcast : ((d * Nat.pow 2 q.toNat : ℕ) : ℚ) ≠ 0 := by exact_mod_cast hpow.ne'
  rw [div_eq_scaled n d q, mul_left_inj' (two_zpow_pos q).ne', div_eq_iff hcast, isMultiple,
    mantissa, decide_eq_true_eq]
  generalize n * Nat.pow 2 (-q).toNat = a at *
  generalize d * Nat.pow 2 q.toNat = b at *
  norm_cast
  constructor
  · intro hmod
    rw [roundDiv, if_pos (.inl (by omega)), Nat.div_mul_cancel (Nat.dvd_of_mod_eq_zero hmod)]
  · intro heq
    rw [heq, Nat.mul_mod_left]

theorem mul_pow_le_iff (hd : 0 < d) (k : ℤ) :
    d * Nat.pow 2 k.toNat ≤ n * Nat.pow 2 (-k).toNat ↔ (2 : ℚ) ^ k ≤ n / d := by
  have hpos : (0 : ℚ) < d := by exact_mod_cast hd
  rw [zpow_eq_div two_ne_zero, div_le_div_iff₀ (by positivity) hpos, mul_comm _ (d : ℚ), Nat.pow_eq,
    Nat.pow_eq]
  exact_mod_cast Iff.rfl

theorem log2_spec (hn : n ≠ 0) : (2 : ℚ) ^ (n.log2 : ℤ) ≤ n ∧ (n : ℚ) < 2 ^ ((n.log2 : ℤ) + 1) :=
  ⟨by exact_mod_cast Nat.log2_self_le hn, by exact_mod_cast Nat.lt_log2_self⟩

/-- The numbers of bits of both parts leave two binades for the quotient. -/
theorem div_bounds (hn : 0 < n) (hd : 0 < d) :
    (2 : ℚ) ^ ((n.log2 : ℤ) - d.log2 - 1) ≤ n / d ∧
      (n : ℚ) / d < 2 ^ ((n.log2 : ℤ) - d.log2 + 1) := by
  have hpos : (0 : ℚ) < d := by exact_mod_cast hd
  obtain ⟨hn₁, hn₂⟩ := log2_spec hn.ne'
  obtain ⟨hd₁, hd₂⟩ := log2_spec hd.ne'
  constructor
  · rw [le_div_iff₀ hpos]
    calc (2 : ℚ) ^ ((n.log2 : ℤ) - d.log2 - 1) * d
        ≤ 2 ^ ((n.log2 : ℤ) - d.log2 - 1) * 2 ^ ((d.log2 : ℤ) + 1) := by gcongr
      _ = 2 ^ (n.log2 : ℤ) := by
          rw [← zpow_add₀ two_ne_zero]
          congr 1
          ring
      _ ≤ n := hn₁
  · rw [div_lt_iff₀ hpos]
    calc (n : ℚ) < 2 ^ ((n.log2 : ℤ) + 1) := hn₂
      _ = 2 ^ ((n.log2 : ℤ) - d.log2 + 1) * 2 ^ (d.log2 : ℤ) := by
          rw [← zpow_add₀ two_ne_zero]
          congr 1
          ring
      _ ≤ 2 ^ ((n.log2 : ℤ) - d.log2 + 1) * d := by gcongr

theorem binade_spec (hn : 0 < n) (hd : 0 < d) :
    (2 : ℚ) ^ binade n d ≤ n / d ∧ (n : ℚ) / d < 2 ^ (binade n d + 1) := by
  obtain ⟨hlow, hhigh⟩ := div_bounds hn hd
  simp only [binade, mul_pow_le_iff hd]
  split
  · rename_i hle
    exact ⟨hle, hhigh⟩
  · rename_i hlt
    exact ⟨hlow, by simpa using hlt⟩

/-- Where nothing bounds the exponent, the place is the one that uses all bits. -/
theorem lastPlace_free (f : FloatFormat) (hn : 0 < n) (hd : 0 < d) :
    (n : ℚ) / d < 2 ^ f.precision * 2 ^ (binade n d - f.precision + 1) ∧
      2 ^ f.precision * 2 ^ (binade n d - f.precision + 1) ≤ 2 * ((n : ℚ) / d) := by
  obtain ⟨hle, hlt⟩ := binade_spec hn hd
  have hplace : (2 : ℚ) ^ f.precision * 2 ^ (binade n d - f.precision + 1) =
      2 ^ binade n d * 2 := by
    rw [two_pow_mul_zpow, ← zpow_add_one₀ two_ne_zero]
    congr 1
    ring
  rw [hplace]
  rw [zpow_add_one₀ two_ne_zero] at hlt
  exact ⟨hlt, by linarith⟩

theorem lastPlace_quantum (f : FloatFormat) (hn : 0 < n) (hd : 0 < d) :
    f.grid.LastPlace (n / d) (quantum f n d) := by
  obtain ⟨hlt, hle⟩ := lastPlace_free f hn hd
  refine ⟨FloatFormat.grid_allows.2 (le_max_left _ _), hlt.trans_le ?_, ?_⟩
  · have hplace : (2 : ℚ) ^ (binade n d - f.precision + 1) ≤ 2 ^ quantum f n d :=
      zpow_le_zpow_right₀ one_le_two (le_max_right _ _)
    exact mul_le_mul_of_nonneg_left hplace (by positivity)
  · rcases max_choice f.leastExponent (binade n d - f.precision + 1) with hleast | hfree
    · exact .inl fun e he => hleast.le.trans (FloatFormat.grid_allows.1 he)
    · refine .inr ?_
      rw [quantum, hfree]
      exact hle

/-- Rounding a quotient to the grid of a format. -/
theorem roundsTo_iff (hp : 2 ≤ f.precision) (hn : 0 < n) (hd : 0 < d) {y : ℚ} :
    f.grid.RoundsTo (n / d) y ↔ y = mantissa n d (quantum f n d) * 2 ^ quantum f n d :=
  Grid.roundsTo_iff hp (lastPlace_quantum f hn hd) (nearest_mantissa n hd _)

theorem isTiny_iff (hp : 2 ≤ f.precision) (hn : 0 < n) (hd : 0 < d) :
    isTiny f n d = true ↔ f.Tiny (n / d) := by
  obtain ⟨hlt, hle⟩ := lastPlace_free f hn hd
  have hnear := nearest_mantissa n hd (binade n d - f.precision + 1)
  have hrounds : ∀ y, f.freeGrid.RoundsTo (n / d) y ↔ _ := fun y =>
    Grid.roundsTo_iff hp ⟨FloatFormat.freeGrid_allows _, hlt, .inr hle⟩ hnear
  simp only [isTiny, FloatFormat.Tiny, hrounds, exists_eq_left, Bool.and_eq_true, decide_eq_true_eq]
  generalize binade n d - f.precision + 1 = q at *
  by_cases hq : q < f.leastExponent
  · have hpow : (2 : ℚ) ^ (f.leastExponent + f.precision - 1) =
        (2 ^ (f.leastExponent + f.precision - 1 - q).toNat : ℕ) * 2 ^ q := by
      push_cast
      rw [two_pow_mul_zpow]
      congr 1
      omega
    rw [hpow, mul_lt_mul_iff_left₀ (two_zpow_pos q), Nat.cast_lt, Nat.pow_eq]
    exact and_iff_right hq
  · -- All bits are used at a place that the format has, so the number is normal.
    refine iff_of_false (fun h => hq h.1) (not_lt.2 ?_)
    have hm := hnear.all_bits (by omega) hle
    calc (2 : ℚ) ^ (f.leastExponent + f.precision - 1)
        = (2 ^ (f.precision - 1) : ℕ) * 2 ^ f.leastExponent := by
          push_cast
          rw [two_pow_mul_zpow]
          congr 1
          omega
      _ ≤ mantissa n d q * 2 ^ q := by
          gcongr
          · exact one_le_two
          · exact not_lt.1 hq

theorem beyond_iff {m : ℕ} (hq : f.leastExponent ≤ q)
    (hrange : f.leastExponent ≤ f.greatestExponent) :
    Nat.pow 2 (f.precision + (f.greatestExponent - f.leastExponent).toNat) ≤
        m * Nat.pow 2 (q - f.leastExponent).toNat ↔
      (2 : ℚ) ^ f.precision * 2 ^ f.greatestExponent ≤ m * 2 ^ q := by
  have hgreatest := mul_two_zpow_of_le (2 ^ f.precision) hrange
  push_cast at hgreatest
  rw [hgreatest, mul_two_zpow_of_le m hq, mul_le_mul_iff_left₀ (two_zpow_pos _), Nat.pow_eq,
    Nat.pow_eq, pow_add]
  exact_mod_cast Iff.rfl

/-- The number that a quotient is rounded to, where the format reads it at all. -/
theorem nearest?_iff (hp : 2 ≤ f.precision) (hrange : f.leastExponent ≤ f.greatestExponent)
    (hn : 0 < n) (hd : 0 < d) {y : ℚ} :
    (∃ m q, nearest? f n d = some (m, q) ∧ y = m * 2 ^ q) ↔ f.Reads (n / d) y := by
  have hleast := FloatFormat.grid_allows.1 (lastPlace_quantum f hn hd).allows
  have hexact := isMultiple_iff n hd (quantum f n d)
  have hrounds : ∀ y, f.grid.RoundsTo (n / d) y ↔ _ := fun y => roundsTo_iff hp hn hd
  simp only [nearest?]
  generalize quantum f n d = q at *
  generalize mantissa n d q = m at *
  have hholds := FloatFormat.holds_iff hrange ((hrounds _).2 rfl).number
  rw [← not_le, ← beyond_iff hleast hrange] at hholds
  constructor
  · rintro ⟨m', q', h, rfl⟩
    split at h
    · cases h
    · rename_i hm
      split at h
      · cases h
      · rename_i htiny
        split at h
        · cases h
        · rename_i hfits
          cases h
          refine ⟨?_, (hrounds _).2 rfl, hholds.2 hfits, fun hexactly ht => ?_⟩
          · have hcast : (0 : ℚ) < m := by exact_mod_cast Nat.pos_of_ne_zero hm
            exact mul_pos hcast (two_zpow_pos q)
          · simpa [hexactly, (isTiny_iff hp hn hd).2 ht, hexact] using htiny
  · rintro ⟨hpos, hy, hfits, htiny⟩
    obtain rfl := (hrounds y).1 hy
    refine ⟨m, q, ?_, rfl⟩
    have hm : m ≠ 0 := by
      rintro rfl
      simp at hpos
    rw [if_neg hm, if_neg, if_neg (hholds.1 hfits)]
    intro h
    simp only [Bool.and_eq_true, Bool.not_eq_true', isTiny_iff hp hn hd] at h
    rw [hexact.2 (htiny h.1.1 h.1.2)] at h
    exact absurd h.2 (by decide)

/-- Ten lies between eight and sixteen, so a power of ten is known in powers of two from the side
that counts. -/
theorem two_zpow_le_ten {e : ℤ} (h : 0 ≤ e) : (2 : ℚ) ^ (3 * e) ≤ 10 ^ e := by
  obtain ⟨k, rfl⟩ := Int.eq_ofNat_of_zero_le h
  rw [zpow_mul, zpow_natCast, zpow_natCast]
  gcongr
  norm_num

theorem ten_le_two_zpow {e : ℤ} (h : e < 0) : (10 : ℚ) ^ e ≤ 2 ^ (3 * e) := by
  have hinv := inv_anti₀ (two_zpow_pos _) (two_zpow_le_ten (Int.neg_nonneg.2 h.le))
  rw [← zpow_neg, ← zpow_neg] at hinv
  simpa using hinv

/-- A number beyond the format in size is not read. -/
theorem isFar_eq_false (hp : 2 ≤ f.precision) (hrange : f.leastExponent ≤ f.greatestExponent)
    {c : ℕ} {e : ℤ} {y : ℚ} (hc : c ≠ 0) (h : f.Reads (c * 10 ^ e) y) : isFar f c e = false := by
  obtain ⟨hlow, hhigh⟩ := log2_spec hc
  rw [isFar]
  split
  · rename_i he
    have hlt : (2 : ℚ) ^ ((c.log2 : ℤ) + 3 * e) < 2 ^ (f.greatestExponent + f.precision) := by
      calc (2 : ℚ) ^ ((c.log2 : ℤ) + 3 * e) = 2 ^ (c.log2 : ℤ) * 2 ^ (3 * e) :=
            zpow_add₀ two_ne_zero _ _
        _ ≤ c * 10 ^ e := mul_le_mul hlow (two_zpow_le_ten he) (by positivity) (by positivity)
        _ < 2 ^ (f.greatestExponent + f.precision) := two_pow_mul_zpow _ _ ▸ h.lt hp hrange
    rw [zpow_lt_zpow_iff_right₀ one_lt_two] at hlt
    exact decide_eq_false (by omega)
  · rename_i he
    have hpos : (0 : ℚ) < 10 ^ e := by positivity
    have hlt : (2 : ℚ) ^ f.leastExponent < 2 ^ ((c.log2 : ℤ) + 1 + 3 * e + 1) := by
      calc (2 : ℚ) ^ f.leastExponent ≤ c * 10 ^ e * 2 := h.least_le (by positivity)
        _ < 2 ^ ((c.log2 : ℤ) + 1) * 2 ^ (3 * e) * 2 :=
            mul_lt_mul_of_pos_right
              (mul_lt_mul hhigh (ten_le_two_zpow (not_le.1 he)) hpos (by positivity)) two_pos
        _ = 2 ^ ((c.log2 : ℤ) + 1 + 3 * e + 1) := by
            rw [← zpow_add₀ two_ne_zero, ← zpow_add_one₀ two_ne_zero]
    rw [zpow_lt_zpow_iff_right₀ one_lt_two] at hlt
    exact decide_eq_false (by omega)

theorem nearestDecimal?_iff (hp : 2 ≤ f.precision)
    (hrange : f.leastExponent ≤ f.greatestExponent) {c : ℕ} (hc : c ≠ 0) (e : ℤ) {y : ℚ} :
    (∃ m q, nearestDecimal? f c e = some (m, q) ∧ y = m * 2 ^ q) ↔ f.Reads (c * 10 ^ e) y := by
  have hval : (c : ℚ) * 10 ^ e =
      (c * Nat.pow 10 e.toNat : ℕ) / (Nat.pow 10 (-e).toNat : ℕ) := by
    rw [zpow_eq_div (by norm_num : (10 : ℚ) ≠ 0), Nat.pow_eq, Nat.pow_eq, ← mul_div_assoc]
    push_cast
    rfl
  have hiff := @nearest?_iff f (c * Nat.pow 10 e.toNat) (Nat.pow 10 (-e).toNat) hp hrange
    (Nat.mul_pos (Nat.pos_of_ne_zero hc) (Nat.pow_pos (by decide))) (Nat.pow_pos (by decide)) y
  rw [← hval] at hiff
  rw [nearestDecimal?]
  constructor
  · rintro ⟨m, q, h, hy⟩
    split at h
    · cases h
    · exact hiff.1 ⟨m, q, h, hy⟩
  · intro h
    rw [if_neg (by simp [isFar_eq_false hp hrange hc h])]
    exact hiff.2 h

/-- The same number, with an odd mantissa. -/
theorem oddMantissa_spec {m : ℕ} (hm : m ≠ 0) (e : ℤ) :
    Odd (oddMantissa m e).1 ∧ ((oddMantissa m e).1 : ℚ) * 2 ^ (oddMantissa m e).2 = m * 2 ^ e := by
  induction m, e using oddMantissa.induct with
  | case1 m e h ih =>
    rw [oddMantissa, dif_pos h]
    refine ⟨(ih (by omega)).1, (ih (by omega)).2.trans ?_⟩
    have hhalf : (m : ℚ) = (m / 2 : ℕ) * 2 := by exact_mod_cast (by omega : m = m / 2 * 2)
    rw [zpow_add_one₀ two_ne_zero, hhalf]
    ring
  | case2 m e h =>
    rw [oddMantissa, dif_neg h]
    exact ⟨Nat.odd_iff.2 (by omega), rfl⟩

/-- A number has one odd mantissa. -/
theorem odd_mul_two_zpow_inj {m k : ℕ} {e i : ℤ} (hm : Odd m) (hk : Odd k)
    (h : (m : ℚ) * 2 ^ e = k * 2 ^ i) : m = k ∧ e = i := by
  wlog hle : e ≤ i generalizing m k e i
  · obtain ⟨hkm, hie⟩ := this hk hm h.symm (by omega)
    exact ⟨hkm.symm, hie.symm⟩
  rw [mul_two_zpow_of_le k hle, mul_left_inj' (two_zpow_pos e).ne', Nat.cast_inj] at h
  subst h
  have hpow : (i - e).toNat = 0 := by
    by_contra hne
    exact Nat.not_odd_iff_even.2 ((even_two.pow_of_ne_zero hne).mul_left k) hm
  exact ⟨by rw [hpow, pow_zero, mul_one], by omega⟩

end Rounding

variable {f : FloatFormat} {x : ℚ}

/-- Every positive number is rounded to exactly one of the grid. -/
theorem FloatFormat.existsUnique_roundsTo (hp : 2 ≤ f.precision) (hx : 0 < x) :
    ∃! y, f.grid.RoundsTo x y := by
  have hnum := Rat.num_pos.2 hx
  have hn : 0 < x.num.natAbs := Int.natAbs_pos.2 hnum.ne'
  have hval : x = (x.num.natAbs : ℚ) / x.den := by
    rw [Nat.cast_natAbs, abs_of_pos hnum, Rat.num_div_den]
  rw [hval]
  exact ⟨_, (Rounding.roundsTo_iff hp hn x.pos).2 rfl, fun y hy =>
    (Rounding.roundsTo_iff hp hn x.pos).1 hy⟩

end NestedMatch
