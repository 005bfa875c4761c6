import Mathlib.Data.Nat.Basic
import NestedMatch.Proofs.Numerals
import NestedMatch.Scalar.Integer

/-! Which texts are read as an integer of a fixed width: the numerals of the type, of any length,
whose number is in its range. Nothing else decides, so what is written in decimal is read back, and
a narrower type of the same signedness reads what a wider one does, within its own range. -/

namespace NestedMatch.IntegerType

open Decimal (Denotes)

/-- Digits with at most one sign in front, a minus only where the type is signed. -/
inductive Spells (t : IntegerType) : Bytes → Int → Prop
  | plain {ds : Bytes} {n : Nat} : Denotes ds n → Spells t ds n
  | plus {ds : Bytes} {n : Nat} : Denotes ds n → Spells t (43 :: ds) n
  | minus {ds : Bytes} {n : Nat} : t.signed = true → Denotes ds n → Spells t (45 :: ds) (-n)

variable {t u : IntegerType} {text : Bytes} {v : Int}

theorem magnitude_eq_some_iff {n : Nat} : magnitude text = some n ↔ Denotes text n := by
  rw [Decimal.denotes_iff, magnitude, Option.ite_none_right_eq_some, Option.some_inj, and_assoc]

theorem numeral_minus (h : t.signed = true) (ds : Bytes) :
    t.numeral (45 :: ds) = (magnitude ds).map fun n : Nat => -(n : Int) := by
  rw [numeral, if_pos ⟨h, rfl⟩, show (Sign.splitMinus (45 :: ds)).2 = ds from rfl]
  cases magnitude ds <;> rfl

theorem numeral_of_not_minus (h : ¬ (t.signed = true ∧ text.head? = some 45)) :
    t.numeral text = (magnitude text).map fun n : Nat => (n : Int) := by
  have hno : ¬ (t.signed = true ∧ (Sign.splitMinus text).1 = true) := by
    rintro ⟨hsigned, hminus⟩
    cases text with
    | nil => cases hminus
    | cons b rest =>
      by_cases hb : b = 45
      · exact h ⟨hsigned, congrArg some hb⟩
      · simp [Sign.splitMinus, hb] at hminus
  rw [numeral, if_neg hno]
  cases magnitude text <;> rfl

/-- What the plus is dropped from, and the number read from the rest. -/
theorem spells_iff : t.Spells text v ↔
    ∃ body, Sign.dropPlus text = some body ∧ t.numeral body = some v := by
  simp only [Sign.dropPlus_eq_some_iff]
  constructor
  · intro h
    cases h with
    | @plain ds n h =>
      obtain ⟨hne, hplus, hminus⟩ := Sign.Unsigned.of_denotes h
      refine ⟨text, ⟨hne, hplus, .inl rfl⟩, ?_⟩
      rw [numeral_of_not_minus fun hm => hminus hm.2, magnitude_eq_some_iff.2 h, Option.map_some]
    | @plus ds n h =>
      obtain ⟨hne, hplus, hminus⟩ := Sign.Unsigned.of_denotes h
      refine ⟨ds, ⟨hne, hplus, .inr ⟨rfl, hminus⟩⟩, ?_⟩
      rw [numeral_of_not_minus fun hm => hminus hm.2, magnitude_eq_some_iff.2 h, Option.map_some]
    | @minus ds n hsigned h =>
      refine ⟨45 :: ds, ⟨List.cons_ne_nil 45 ds, by simp, .inl rfl⟩, ?_⟩
      rw [numeral_minus hsigned, magnitude_eq_some_iff.2 h, Option.map_some]
  · rintro ⟨body, ⟨hne, hplus, htext⟩, hv⟩
    by_cases hminus : t.signed = true ∧ body.head? = some 45
    · obtain ⟨ds, rfl⟩ := List.head?_eq_some_iff.1 hminus.2
      rw [numeral_minus hminus.1, Option.map_eq_some_iff] at hv
      obtain ⟨n, hn, rfl⟩ := hv
      rcases htext with rfl | ⟨rfl, hno⟩
      · exact .minus hminus.1 (magnitude_eq_some_iff.1 hn)
      · exact absurd rfl hno
    · rw [numeral_of_not_minus hminus, Option.map_eq_some_iff] at hv
      obtain ⟨n, hn, rfl⟩ := hv
      rcases htext with rfl | ⟨rfl, -⟩
      · exact .plain (magnitude_eq_some_iff.1 hn)
      · exact .plus (magnitude_eq_some_iff.1 hn)

/-- The grammar of a type depends on whether it is signed and on nothing else. -/
theorem Spells.of_signed_eq (hsigned : u.signed = t.signed) (h : u.Spells text v) :
    t.Spells text v := by
  cases h with
  | plain h => exact .plain h
  | plus h => exact .plus h
  | minus hu h => exact .minus (hsigned ▸ hu) h

theorem parse_eq_some_iff : t.parse text = some v ↔ t.Spells text v ∧ t.Holds v := by
  rw [spells_iff, parse]
  simp only [Option.bind_eq_some_iff, Option.filter_eq_some_iff, decide_eq_true_eq]
  constructor
  · rintro ⟨body, hbody, hv, hrange⟩
    exact ⟨⟨body, hbody, hv⟩, hrange⟩
  · rintro ⟨⟨body, hbody, hv⟩, hrange⟩
    exact ⟨body, hbody, hv, hrange⟩

theorem spells_ofInt (h : t.Holds v) : t.Spells (Decimal.ofInt v) v := by
  cases v with
  | ofNat n => exact .plain (Decimal.denotes_ofNat n)
  | negSucc n =>
    have hsigned : t.signed = true := by
      by_contra hunsigned
      have hleast : t.least = 0 := if_neg hunsigned
      have hle := h.1
      omega
    exact .minus hsigned (Decimal.denotes_ofNat (n + 1))

theorem Holds.of_bits_le (hsigned : u.signed = t.signed) (hbits : u.width.bits ≤ t.width.bits)
    (h : u.Holds v) : t.Holds v := by
  have hpow {i j : Nat} (hij : i ≤ j) : (Nat.pow 2 i : Int) ≤ Nat.pow 2 j :=
    Int.ofNat_le.2 (Nat.pow_le_pow_right (by decide) hij)
  have hwhole := hpow hbits
  have hhalf := hpow (Nat.sub_le_sub_right hbits 1)
  obtain ⟨hleast, hgreatest⟩ := h
  unfold Holds
  unfold least at hleast ⊢
  unfold greatest at hgreatest ⊢
  rw [hsigned] at hleast hgreatest
  split at hleast
  · rename_i hs
    rw [if_pos hs] at hgreatest
    rw [if_pos hs, if_pos hs]
    omega
  · rename_i hs
    rw [if_neg hs] at hgreatest
    rw [if_neg hs, if_neg hs]
    omega

end NestedMatch.IntegerType

namespace NestedMatch

/-- Reading an integer gives the number of a numeral that is in range, and nothing for any other
text. So every number of a type is read from its decimal numeral, and a narrower type is the wider
one kept to its range. -/
theorem integers_read_exactly (t : IntegerType) :
    (∀ text v, t.parse text = some v ↔ t.Spells text v ∧ t.Holds v) ∧
      (∀ v, t.Holds v → t.parse (Decimal.ofInt v) = some v) ∧
      ∀ u : IntegerType, u.signed = t.signed → u.width.bits ≤ t.width.bits →
        ∀ text, u.parse text = (t.parse text).filter fun v => decide (u.Holds v) := by
  refine ⟨fun text v => IntegerType.parse_eq_some_iff, fun v h => ?_,
    fun u hsigned hbits text => ?_⟩
  · exact IntegerType.parse_eq_some_iff.2 ⟨IntegerType.spells_ofInt h, h⟩
  · ext v
    simp only [Option.filter_eq_some_iff, IntegerType.parse_eq_some_iff, decide_eq_true_eq]
    constructor
    · rintro ⟨htext, hv⟩
      exact ⟨⟨htext.of_signed_eq hsigned, hv.of_bits_le hsigned hbits⟩, hv⟩
    · rintro ⟨⟨htext, -⟩, hv⟩
      exact ⟨htext.of_signed_eq hsigned.symm, hv⟩

/-- The least number of a type has no positive counterpart in it. -/
example : (⟨true, .w8⟩ : IntegerType).parse (Bytes.ofString "-00128") = some (-128) ∧
    (⟨true, .w8⟩ : IntegerType).parse (Bytes.ofString "+128") = none := by decide

end NestedMatch
