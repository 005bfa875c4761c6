import Mathlib.Data.List.Induction
import NestedMatch.Decimal

/-! Runs of digits with the number they denote, and the sign in front of a numeral. A run of any
length denotes a number, leading zeros count for nothing, and no run begins like a sign. -/

namespace NestedMatch

namespace Decimal

/-- One digit denotes itself, and one more digit adds to ten times the number before it. -/
inductive Denotes : Bytes → Nat → Prop
  | one {d : Nat} : d < 10 → Denotes [digit d] d
  | more {ds : Bytes} {n d : Nat} : Denotes ds n → d < 10 → Denotes (ds ++ [digit d]) (10 * n + d)

theorem exists_digit {b : UInt8} (h : isDigit b = true) : ∃ d < 10, b = digit d := by
  simp only [isDigit, Bool.and_eq_true, decide_eq_true_eq] at h
  refine ⟨b.toNat - 48, by omega, ?_⟩
  rw [digit, show 48 + (b.toNat - 48) = b.toNat by omega, UInt8.ofNat_toNat]

theorem denotes_iff {ds : Bytes} {n : Nat} :
    Denotes ds n ↔ ds ≠ [] ∧ ds.all isDigit = true ∧ value ds = n := by
  constructor
  · intro h
    induction h with
    | @one d hd =>
      refine ⟨List.cons_ne_nil _ _, by simp [isDigit_digit hd], ?_⟩
      rw [← List.nil_append [digit d], value_append_singleton, value_nil, toNat_digit hd]
      omega
    | @more ds n d _ hd ih =>
      obtain ⟨-, hall, rfl⟩ := ih
      refine ⟨by simp, by simp [hall, isDigit_digit hd], ?_⟩
      rw [value_append_singleton, toNat_digit hd]
      omega
  · rintro ⟨hne, hall, rfl⟩
    -- On the last digit: a run denotes what the run before it does, and one digit more.
    induction ds using List.reverseRecOn with
    | nil => exact absurd rfl hne
    | append_singleton ds b ih =>
      rw [List.all_append, Bool.and_eq_true] at hall
      obtain ⟨d, hd, rfl⟩ := exists_digit (List.all_eq_true.1 hall.2 b (List.mem_singleton_self b))
      rw [value_append_singleton, toNat_digit hd, Nat.add_sub_cancel_left]
      rcases List.eq_nil_or_concat ds with rfl | ⟨front, c, rfl⟩
      · simpa using Denotes.one hd
      · exact .more (ih (by simp) hall.1) hd

theorem denotes_ofNat (n : Nat) : Denotes (ofNat n) n :=
  denotes_iff.2 ⟨ofNat_ne_nil n, List.all_eq_true.2 fun _ => isDigit_of_mem_ofNat, value_ofNat n⟩

theorem Denotes.exists_cons {ds : Bytes} {n : Nat} (h : Denotes ds n) :
    ∃ b rest, ds = b :: rest ∧ isDigit b = true := by
  obtain ⟨hne, hall, -⟩ := denotes_iff.1 h
  obtain ⟨b, rest, rfl⟩ := List.exists_cons_of_ne_nil hne
  exact ⟨b, rest, rfl, by simp_all⟩

end Decimal

namespace Sign

/-- Not empty, and the first byte is no sign. -/
structure Unsigned (text : Bytes) : Prop where
  ne_nil : text ≠ []
  ne_plus : text.head? ≠ some 43
  ne_minus : text.head? ≠ some 45

theorem Unsigned.cons {b : UInt8} {rest : Bytes} (hplus : b ≠ 43) (hminus : b ≠ 45) :
    Unsigned (b :: rest) :=
  ⟨List.cons_ne_nil b rest, by simpa using hplus, by simpa using hminus⟩

theorem Unsigned.of_denotes {ds : Bytes} {n : Nat} (h : Decimal.Denotes ds n) : Unsigned ds := by
  obtain ⟨b, rest, rfl, hb⟩ := h.exists_cons
  refine .cons ?_ ?_
  · rintro rfl
    cases hb
  · rintro rfl
    cases hb

/-- What is left when a plus is dropped begins with no plus, and behind a plus with no minus. -/
theorem dropPlus_eq_some_iff {text body : Bytes} :
    dropPlus text = some body ↔ body ≠ [] ∧ body.head? ≠ some 43 ∧
      (text = body ∨ text = 43 :: body ∧ body.head? ≠ some 45) := by
  constructor
  · intro h
    cases text with
    | nil => cases h
    | cons b rest =>
      rw [dropPlus] at h
      split at h
      · rename_i hplus
        split at h
        · cases h
        · rename_i hrest
          obtain rfl := Option.some_inj.1 h
          rw [not_or, not_or] at hrest
          exact ⟨hrest.1, hrest.2.1, .inr ⟨by rw [hplus], hrest.2.2⟩⟩
      · rename_i hplus
        obtain rfl := Option.some_inj.1 h
        exact ⟨List.cons_ne_nil b rest, by simpa using hplus, .inl rfl⟩
  · rintro ⟨hne, hplus, rfl | ⟨rfl, hminus⟩⟩
    · obtain ⟨b, rest, rfl⟩ := List.exists_cons_of_ne_nil hne
      exact if_neg (by simpa using hplus)
    · rw [dropPlus, if_pos rfl, if_neg (by simp [hne, hplus, hminus])]

/-- A text with at most one sign in front, and whether that is a minus. -/
inductive Signed : Bytes → Bool → Bytes → Prop
  | plain {t : Bytes} : Signed t false t
  | plus {t : Bytes} : Signed (43 :: t) false t
  | minus {t : Bytes} : Signed (45 :: t) true t

variable {text body t : Bytes} {negative : Bool}

theorem signed_of_dropPlus (h : dropPlus text = some body) :
    Signed text (splitMinus body).1 (splitMinus body).2 := by
  obtain ⟨hne, -, htext⟩ := dropPlus_eq_some_iff.1 h
  obtain ⟨b, rest, rfl⟩ := List.exists_cons_of_ne_nil hne
  by_cases hminus : b = 45
  · subst hminus
    rcases htext with rfl | ⟨-, hno⟩
    · exact .minus
    · exact absurd rfl hno
  · rw [splitMinus, if_neg hminus]
    rcases htext with rfl | ⟨rfl, -⟩
    · exact .plain
    · exact .plus

/-- Both signs are taken off, where no third sign follows. -/
theorem Signed.exists_body (h : Signed text negative t) (ht : Unsigned t) :
    ∃ body, dropPlus text = some body ∧ splitMinus body = (negative, t) := by
  obtain ⟨hne, hplus, hminus⟩ := ht
  have hsplit : splitMinus t = (false, t) := by
    obtain ⟨b, rest, rfl⟩ := List.exists_cons_of_ne_nil hne
    exact if_neg (by simpa using hminus)
  cases h with
  | plain => exact ⟨text, dropPlus_eq_some_iff.2 ⟨hne, hplus, .inl rfl⟩, hsplit⟩
  | plus => exact ⟨t, dropPlus_eq_some_iff.2 ⟨hne, hplus, .inr ⟨rfl, hminus⟩⟩, hsplit⟩
  | minus => exact ⟨45 :: t, rfl, rfl⟩

end Sign
end NestedMatch
