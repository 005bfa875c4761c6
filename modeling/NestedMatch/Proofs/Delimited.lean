import Mathlib.Tactic.SplitIfs
import NestedMatch.Dump

/-! Where a piece of a dump ends. A run of bytes of one class ends at the first byte outside the
class, so a numeral ends at its separator and an indent at the first byte that is no blank; a quoted
text ends at the first quote that no backslash precedes. Each law is stated with what follows the
piece, on both sides of an equation, so that a line can be taken apart from left to right. -/

namespace NestedMatch

theorem Decimal.ofNat_append_inj {m n : Nat} {r s : Bytes} (hr : r.Stops isDigit)
    (hs : s.Stops isDigit) (h : ofNat m ++ r = ofNat n ++ s) : m = n ∧ r = s := by
  obtain ⟨hmn, hrs⟩ := Bytes.append_inj_of_stops (fun _ => isDigit_of_mem_ofNat)
    (fun _ => isDigit_of_mem_ofNat) hr hs h
  exact ⟨ofNat_injective hmn, hrs⟩

namespace Dump

/-- The byte that a letter after a backslash stands for. -/
def meant (letter : UInt8) : UInt8 :=
  if letter = 110 then 10 else if letter = 114 then 13 else if letter = 116 then 9 else letter

/-- A byte stands for itself, and is then neither a quote nor a backslash, or as a letter after a
backslash. -/
theorem escapeByte_cases (b : UInt8) :
    (escapeByte b = [b] ∧ b ≠ 34 ∧ b ≠ 92) ∨ ∃ letter, escapeByte b = [92, letter] ∧
      meant letter = b := by
  unfold escapeByte
  split_ifs with h₁ h₂ h₃ h₄ h₅
  · exact .inr ⟨110, rfl, h₁.symm⟩
  · exact .inr ⟨114, rfl, h₂.symm⟩
  · exact .inr ⟨116, rfl, h₃.symm⟩
  · exact .inr ⟨34, rfl, h₄.symm⟩
  · exact .inr ⟨92, rfl, h₅.symm⟩
  · exact .inl ⟨rfl, h₄, h₅⟩

theorem escapeByte_append_inj {b c : UInt8} {r s : Bytes}
    (h : escapeByte b ++ r = escapeByte c ++ s) : b = c ∧ r = s := by
  rcases escapeByte_cases b with ⟨hb, -, hb'⟩ | ⟨l, hb, rfl⟩ <;>
    rcases escapeByte_cases c with ⟨hc, -, hc'⟩ | ⟨l', hc, rfl⟩ <;>
    rw [hb, hc] at h
  · exact List.cons.inj h
  · exact absurd (List.cons.inj h).1 hb'
  · exact absurd (List.cons.inj h).1.symm hc'
  · obtain ⟨hl, hrs⟩ := List.cons.inj (List.cons.inj h).2
    exact ⟨by rw [hl], hrs⟩

theorem escapeByte_append_ne_quote (b : UInt8) (r s : Bytes) : escapeByte b ++ r ≠ 34 :: s := by
  intro h
  rcases escapeByte_cases b with ⟨hb, hne, -⟩ | ⟨l, hb, -⟩ <;> rw [hb] at h
  · exact hne (List.cons.inj h).1
  · exact absurd (List.cons.inj h).1 (by decide)

theorem quoted_append_inj {t u r s : Bytes} (h : quoted t ++ r = quoted u ++ s) :
    t = u ∧ r = s := by
  have hbody : t.flatMap escapeByte ++ 34 :: r = u.flatMap escapeByte ++ 34 :: s := by
    simpa [quoted] using h
  clear h
  induction t generalizing u with
  | nil =>
    cases u with
    | nil => exact ⟨rfl, (List.cons.inj hbody).2⟩
    | cons c u =>
      rw [List.flatMap_cons, List.append_assoc] at hbody
      exact absurd hbody.symm (escapeByte_append_ne_quote c _ _)
  | cons b t ih =>
    rw [List.flatMap_cons, List.append_assoc] at hbody
    cases u with
    | nil => exact absurd hbody (escapeByte_append_ne_quote b _ _)
    | cons c u =>
      rw [List.flatMap_cons, List.append_assoc] at hbody
      obtain ⟨hbc, hrest⟩ := escapeByte_append_inj hbody
      obtain ⟨htu, hrs⟩ := ih hrest
      exact ⟨by rw [hbc, htu], hrs⟩

theorem capture_append_inj {c d : Capture} {r s : Bytes} (h : capture c ++ r = capture d ++ s) :
    c = d ∧ r = s := by
  obtain ⟨⟨i, j⟩, t⟩ := c
  obtain ⟨⟨i', j'⟩, t'⟩ := d
  simp only [capture, List.append_assoc, List.cons_append] at h
  obtain ⟨hi, h₁⟩ := Decimal.ofNat_append_inj (Bytes.stops_cons rfl) (Bytes.stops_cons rfl) h
  obtain ⟨hj, h₂⟩ := Decimal.ofNat_append_inj (Bytes.stops_cons rfl) (Bytes.stops_cons rfl)
    (List.cons.inj h₁).2
  obtain ⟨ht, hrs⟩ := quoted_append_inj (List.cons.inj h₂).2
  exact ⟨by rw [hi, hj, ht], hrs⟩

/-- A capture begins with a digit, so no group that took part is taken for an absent one. -/
theorem capture_append_ne_absent (c : Capture) (r s : Bytes) :
    capture c ++ r ≠ Bytes.ofString "absent\n" ++ s := by
  intro h
  obtain ⟨b, t, hb⟩ := List.exists_cons_of_ne_nil (Decimal.ofNat_ne_nil c.span.start)
  have hdigit : Decimal.isDigit b = true :=
    Decimal.isDigit_of_mem_ofNat (hb ▸ List.mem_cons_self)
  rw [capture, hb] at h
  obtain rfl : b = 97 := (List.cons.inj h).1
  exact absurd hdigit (by decide)

/-- The number of blanks that the text begins with. -/
def column (t : Bytes) : Nat := (t.takeWhile (· == 32)).length

theorem column_indent {t : Bytes} (h : t.Stops (· == 32)) (depth : Nat) :
    column (indent depth ++ t) = 2 * depth := by
  have hblanks : ∀ b ∈ indent depth, (b == 32) = true := by simp [indent]
  rw [column, takeWhile_run hblanks h, indent, List.length_replicate]

/-- The text is over, or its first line starts before the column. -/
def Outdented (n : Nat) (t : Bytes) : Prop := t = [] ∨ column t < n

theorem Outdented.mono {m n : Nat} {t : Bytes} (h : Outdented m t) (hmn : m ≤ n) :
    Outdented n t := h.imp id fun hlt => Nat.lt_of_lt_of_le hlt hmn

end Dump
end NestedMatch
