import Mathlib.Data.Rat.Cast.Order
import Mathlib.Tactic.IntervalCases
import Mathlib.Tactic.NormNum
import Mathlib.Tactic.Ring
import NestedMatch.Proofs.Numerals
import NestedMatch.Scalar

/-! The texts that a floating-point number is written as: digits with a point and a power of ten,
which denote a rational exactly, and the names of the special values. No text is both, and none
begins with a sign. -/

namespace NestedMatch.FloatNumeral

open Decimal (Denotes isDigit)
open Sign (Signed Unsigned)

/-- Digits, with a point among them or at either end. -/
inductive Coefficient : Bytes → ℚ → Prop
  | whole {ds : Bytes} {n : ℕ} : Denotes ds n → Coefficient ds n
  | point {ds fs : Bytes} {n : ℕ} : Denotes (ds ++ fs) n →
      Coefficient (ds ++ 46 :: fs) (n / 10 ^ fs.length)

/-- A power of ten: nothing, or an `e` and digits with at most one sign in front. -/
inductive Power : Bytes → ℤ → Prop
  | absent : Power [] 0
  | marked {b : UInt8} {t ds : Bytes} {negative : Bool} {n : ℕ} : b = 101 ∨ b = 69 →
      Signed t negative ds → Denotes ds n → Power (b :: t) (if negative then -n else n)

/-- A numeral without sign, and the number it denotes. -/
inductive Written : Bytes → ℚ → Prop
  | intro {t ps : Bytes} {x : ℚ} {i : ℤ} : Coefficient t x → Power ps i →
      Written (t ++ ps) (x * 10 ^ i)

/-- The names of the special values, in any case. -/
inductive Named : Bytes → FloatNumeral → Prop
  | inf {t : Bytes} : t.lower = Bytes.ofString "inf" → Named t .infinity
  | infinity {t : Bytes} : t.lower = Bytes.ofString "infinity" → Named t .infinity
  | nan {t : Bytes} : t.lower = Bytes.ofString "nan" → Named t .nan
  | payload {t inside : Bytes} : t.lower = Bytes.ofString "nan(" ++ inside ++ Bytes.ofString ")" →
      (∀ b ∈ inside, isWordByte b = true) → Named t .nan

variable {text : Bytes}

theorem signedDigits_iff {i : ℤ} : signedDigits text = some i ↔
    ∃ negative ds n, Signed text negative ds ∧ Denotes ds n ∧
      i = if negative = true then -(n : ℤ) else n := by
  simp only [signedDigits, Option.ite_none_right_eq_some, Option.some_inj]
  constructor
  · rintro ⟨⟨hne, hall⟩, rfl⟩
    refine ⟨decide (text.head? = some 45), _, _, ?_, Decimal.denotes_iff.2 ⟨hne, hall, rfl⟩,
      by simp⟩
    by_cases hplus : text.head? = some 43
    · obtain ⟨rest, rfl⟩ := List.head?_eq_some_iff.1 hplus
      exact .plus
    · by_cases hminus : text.head? = some 45
      · obtain ⟨rest, rfl⟩ := List.head?_eq_some_iff.1 hminus
        exact .minus
      · simpa [hplus, hminus] using Signed.plain
  · rintro ⟨negative, ds, n, hsign, h, rfl⟩
    obtain ⟨hne, hall, rfl⟩ := Decimal.denotes_iff.1 h
    cases hsign with
    | plain =>
      have hno := Unsigned.of_denotes h
      simp [hno.ne_plus, hno.ne_minus, hne, hall]
    | plus => simp [hne, hall]
    | minus => simp [hne, hall]

theorem power_iff {i : ℤ} : power text = some i ↔ Power text i := by
  constructor
  · intro h
    cases text with
    | nil =>
      cases h
      exact .absent
    | cons b rest =>
      rw [power, Option.ite_none_right_eq_some, signedDigits_iff] at h
      obtain ⟨hb, negative, ds, n, hsign, hdigits, rfl⟩ := h
      exact .marked hb hsign hdigits
  · rintro (_ | ⟨hb, hsign, h⟩)
    · rfl
    · rw [power, if_pos hb, signedDigits_iff]
      exact ⟨_, _, _, hsign, h, rfl⟩

/-- What follows the digits is neither a digit nor a point. -/
theorem Power.stops {i : ℤ} (h : Power text i) : text.Stops isDigit ∧ text.head? ≠ some 46 := by
  cases h with
  | absent =>
    refine ⟨fun b hb => ?_, fun hpoint => ?_⟩
    · cases hb
    · cases hpoint
  | marked hb =>
    rcases hb with rfl | rfl
    · exact ⟨Bytes.stops_cons rfl, by simp⟩
    · exact ⟨Bytes.stops_cons rfl, by simp⟩

theorem fraction_of_ne (h : text.head? ≠ some 46) : fraction text = ([], text) := by
  cases text with
  | nil => rfl
  | cons b rest => exact if_neg (by simpa using h)

/-- Any text is a run of digits and what stops it. -/
theorem exists_run (text : Bytes) :
    ∃ ds rest, text = ds ++ rest ∧ (∀ b ∈ ds, isDigit b = true) ∧ rest.Stops isDigit := by
  refine ⟨text.takeWhile isDigit, text.dropWhile isDigit, List.takeWhile_append_dropWhile.symm,
    List.all_eq_true.1 List.all_takeWhile, fun b hb => ?_⟩
  have hstop := List.head?_dropWhile_not isDigit text
  rw [Option.mem_def.1 hb] at hstop
  simpa using hstop

variable {ds fs ps : Bytes}

theorem scientific_whole (hds : ∀ b ∈ ds, isDigit b = true) (hps : ps.Stops isDigit)
    (hpoint : ps.head? ≠ some 46) : scientific (ds ++ ps) =
      if ds = [] then none else (power ps).map fun i => ⟨Decimal.value ds, i⟩ := by
  simp [scientific, takeWhile_run hds hps, dropWhile_run hds hps, fraction_of_ne hpoint]

theorem scientific_point (hds : ∀ b ∈ ds, isDigit b = true) (hfs : ∀ b ∈ fs, isDigit b = true)
    (hps : ps.Stops isDigit) : scientific (ds ++ 46 :: (fs ++ ps)) =
      if ds ++ fs = [] then none
      else (power ps).map fun i => ⟨Decimal.value (ds ++ fs), i - fs.length⟩ := by
  have hrest : Bytes.Stops isDigit (46 :: (fs ++ ps)) := Bytes.stops_cons rfl
  simp [scientific, takeWhile_run hds hrest, dropWhile_run hds hrest, fraction,
    takeWhile_run hfs hps, dropWhile_run hfs hps]

theorem scale_point (n k : ℕ) (i : ℤ) : (n : ℚ) / 10 ^ k * 10 ^ i = n * 10 ^ (i - k) := by
  rw [zpow_sub₀ (by norm_num), zpow_natCast]
  ring

theorem scientific_iff {x : ℚ} :
    (∃ s, scientific text = some s ∧ x = s.coefficient * 10 ^ s.exponent) ↔ Written text x := by
  constructor
  · rintro ⟨s, h, rfl⟩
    obtain ⟨ds, rest, rfl, hds, hrest⟩ := exists_run text
    by_cases hpoint : rest.head? = some 46
    · obtain ⟨rest, rfl⟩ := List.head?_eq_some_iff.1 hpoint
      obtain ⟨fs, ps, rfl, hfs, hps⟩ := exists_run rest
      rw [scientific_point hds hfs hps, Option.ite_none_left_eq_some, Option.map_eq_some_iff] at h
      obtain ⟨hne, i, hi, rfl⟩ := h
      have hall : (ds ++ fs).all isDigit = true := by
        rw [List.all_append, List.all_eq_true.2 hds, List.all_eq_true.2 hfs, Bool.and_true]
      have hdigits : Denotes (ds ++ fs) _ := Decimal.denotes_iff.2 ⟨hne, hall, rfl⟩
      have hwritten := Written.intro (.point hdigits) (power_iff.1 hi)
      rwa [scale_point, List.append_assoc, List.cons_append] at hwritten
    · rw [scientific_whole hds hrest hpoint, Option.ite_none_left_eq_some,
        Option.map_eq_some_iff] at h
      obtain ⟨hne, i, hi, rfl⟩ := h
      have hdigits : Denotes ds _ := Decimal.denotes_iff.2 ⟨hne, List.all_eq_true.2 hds, rfl⟩
      exact .intro (.whole hdigits) (power_iff.1 hi)
  · rintro ⟨hc, hps⟩
    obtain ⟨hstops, hpoint⟩ := hps.stops
    cases hc with
    | whole h =>
      obtain ⟨hne, hall, rfl⟩ := Decimal.denotes_iff.1 h
      rw [scientific_whole (List.all_eq_true.1 hall) hstops hpoint, if_neg hne, power_iff.2 hps]
      exact ⟨_, rfl, rfl⟩
    | @point ds fs n h =>
      obtain ⟨hne, hall, rfl⟩ := Decimal.denotes_iff.1 h
      rw [List.all_append, Bool.and_eq_true, List.all_eq_true, List.all_eq_true] at hall
      rw [List.append_assoc, List.cons_append, scientific_point hall.1 hall.2 hstops, if_neg hne,
        power_iff.2 hps]
      exact ⟨_, rfl, scale_point _ _ _⟩

theorem isNan_iff {t : Bytes} : isNan t = true ↔ t = Bytes.ofString "nan" ∨
    ∃ inside, t = Bytes.ofString "nan(" ++ inside ++ Bytes.ofString ")" ∧
      ∀ b ∈ inside, isWordByte b = true := by
  have hopen : Bytes.ofString "nan(" = [110, 97, 110, 40] := by decide
  have hclose : Bytes.ofString ")" = [41] := by decide
  simp only [isNan, hopen, hclose, Bool.or_eq_true, Bool.and_eq_true, beq_iff_eq]
  refine or_congr Iff.rfl ⟨?_, ?_⟩
  · rintro ⟨⟨htake, hlast⟩, hall⟩
    have ht := List.take_append_drop 4 t
    rw [htake] at ht
    rcases List.eq_nil_or_concat (t.drop 4) with hnil | ⟨inside, b, hinside⟩
    · rw [hnil] at ht
      subst ht
      cases hlast
    · rw [hinside, List.concat_eq_append] at ht hall
      subst ht
      rw [← List.append_assoc, List.getLast?_concat, Option.some_inj] at hlast
      subst hlast
      exact ⟨inside, by simp, by simpa using hall⟩
  · rintro ⟨inside, rfl, hall⟩
    refine ⟨⟨rfl, ?_⟩, ?_⟩
    · rw [List.getLast?_append]
      rfl
    · rw [List.append_assoc]
      change (inside ++ [41]).dropLast.all isWordByte = true
      rw [List.dropLast_concat]
      exact List.all_eq_true.2 hall

theorem special_iff {w : FloatNumeral} : special text = some w ↔ Named text w := by
  constructor
  · intro h
    rw [special] at h
    split at h
    · rename_i hinf
      cases h
      exact hinf.elim .inf .infinity
    · split at h
      · rename_i hnan
        cases h
        rcases isNan_iff.1 hnan with hname | ⟨inside, hname, hinside⟩
        · exact .nan hname
        · exact .payload hname hinside
      · cases h
  · intro h
    cases h with
    | inf h => rw [special, if_pos (.inl h)]
    | infinity h => rw [special, if_pos (.inr h)]
    | nan h =>
      rw [special, h, if_neg (by decide), if_pos (by decide)]
    | @payload inside h hinside =>
      have hnan : isNan text.lower = true := isNan_iff.2 (.inr ⟨inside, h, hinside⟩)
      rw [special, if_neg, if_pos hnan]
      rw [h]
      rintro (h | h)
      · cases h
      · cases h

/-- The first byte tells a numeral from a name. -/
theorem Written.head {x : ℚ} (h : Written text x) :
    ∃ b rest, text = b :: rest ∧ (isDigit b = true ∨ b = 46) := by
  obtain ⟨hc, hps⟩ := h
  cases hc with
  | whole h =>
    obtain ⟨b, rest, rfl, hb⟩ := h.exists_cons
    exact ⟨b, _, rfl, .inl hb⟩
  | @point ds fs n h =>
    cases ds with
    | nil => exact ⟨46, _, rfl, .inr rfl⟩
    | cons b ds =>
      obtain ⟨-, hall, -⟩ := Decimal.denotes_iff.1 h
      exact ⟨b, _, rfl, .inl (List.all_eq_true.1 hall b List.mem_cons_self)⟩

theorem Named.head {w : FloatNumeral} (h : Named text w) :
    ∃ b rest, text = b :: rest ∧ (Bytes.lowerByte b = 105 ∨ Bytes.lowerByte b = 110) := by
  have hlower : text.lower.head? = some 105 ∨ text.lower.head? = some 110 := by
    cases h with
    | inf h => exact .inl (h ▸ rfl)
    | infinity h => exact .inl (h ▸ rfl)
    | nan h => exact .inr (h ▸ rfl)
    | payload h => exact .inr (h ▸ rfl)
  cases text with
  | nil => simp [Bytes.lower] at hlower
  | cons b rest => exact ⟨b, rest, rfl, by simpa [Bytes.lower] using hlower⟩

theorem Written.unsigned {x : ℚ} (h : Written text x) : Unsigned text := by
  obtain ⟨b, rest, rfl, hb⟩ := h.head
  refine .cons ?_ ?_
  · rintro rfl
    exact absurd hb (by decide)
  · rintro rfl
    exact absurd hb (by decide)

theorem Named.unsigned {w : FloatNumeral} (h : Named text w) : Unsigned text := by
  obtain ⟨b, rest, rfl, hb⟩ := h.head
  refine .cons ?_ ?_
  · rintro rfl
    exact absurd hb (by decide)
  · rintro rfl
    exact absurd hb (by decide)

theorem Named.not_written {w : FloatNumeral} {x : ℚ} (h : Named text w) : ¬ Written text x := by
  intro hx
  obtain ⟨b, rest, rfl, hb⟩ := h.head
  obtain ⟨c, rest', heq, hc⟩ := hx.head
  obtain rfl := (List.cons.inj heq).1
  rcases hc with hc | rfl
  · obtain ⟨d, hd, rfl⟩ := Decimal.exists_digit hc
    interval_cases d <;> exact absurd hb (by decide)
  · exact absurd hb (by decide)

theorem parse_iff {w : FloatNumeral} : parse text = some w ↔
    Named text w ∨ ∃ s, scientific text = some s ∧ w = .finite s := by
  rw [parse, Option.or_eq_some_iff, Option.map_eq_some_iff, special_iff]
  refine or_congr Iff.rfl ⟨?_, ?_⟩
  · rintro ⟨-, s, hs, rfl⟩
    exact ⟨s, hs, rfl⟩
  · rintro ⟨s, hs, rfl⟩
    refine ⟨?_, s, hs, rfl⟩
    rw [Option.eq_none_iff_forall_ne_some]
    intro w hw
    exact (special_iff.1 hw).not_written (scientific_iff.1 ⟨s, hs, rfl⟩)

end NestedMatch.FloatNumeral
