/-! Text as byte strings. Texts, patterns, names and messages need not be valid in any encoding. Main
statement: a run of bytes of one class ends at the first byte outside the class. -/

namespace NestedMatch

abbrev Bytes := List UInt8

section Runs

variable {α : Type} {p : α → Bool} {t r : List α}

theorem takeWhile_run (ht : ∀ b ∈ t, p b = true) (hr : ∀ b ∈ r.head?, p b = false) :
    (t ++ r).takeWhile p = t := by
  have hstop : r.takeWhile p = [] := by
    cases r with
    | nil => rfl
    | cons b r => exact List.takeWhile_cons_of_neg (by simp [hr b rfl])
  rw [List.takeWhile_append_of_pos ht, hstop, List.append_nil]

theorem dropWhile_run (ht : ∀ b ∈ t, p b = true) (hr : ∀ b ∈ r.head?, p b = false) :
    (t ++ r).dropWhile p = r := by
  have hsplit := List.takeWhile_append_dropWhile (p := p) (l := t ++ r)
  rw [takeWhile_run ht hr] at hsplit
  exact List.append_cancel_left hsplit

end Runs

namespace Bytes

/-- The UTF-8 bytes of a literal. -/
def ofString (s : String) : Bytes := s.toUTF8.data.toList

/-- Lower case for ASCII letters, any other byte as it is. -/
def lowerByte (b : UInt8) : UInt8 := if 65 ≤ b && b ≤ 90 then b + 32 else b

def lower (t : Bytes) : Bytes := t.map lowerByte

/-- The text with `sep` between neighbours. -/
def join (sep : Bytes) : List Bytes → Bytes
  | [] => []
  | [t] => t
  | t :: u :: rest => t ++ sep ++ join sep (u :: rest)

/-- The text before its first zero byte. -/
def untilZero (t : Bytes) : Bytes := t.takeWhile (· != 0)

/-- The text is over, or goes on with a byte outside the class. -/
def Stops (p : UInt8 → Bool) (t : Bytes) : Prop := ∀ b ∈ t.head?, p b = false

theorem stops_cons {p : UInt8 → Bool} {b : UInt8} {t : Bytes} (h : p b = false) :
    Stops p (b :: t) := by
  intro c hc
  obtain rfl : b = c := Option.some_inj.1 hc
  exact h

/-- Two runs of a class with the same text are one run, where the class ends behind both. -/
theorem append_inj_of_stops {p : UInt8 → Bool} {t u r s : Bytes} (ht : ∀ b ∈ t, p b = true)
    (hu : ∀ b ∈ u, p b = true) (hr : Stops p r) (hs : Stops p s) (h : t ++ r = u ++ s) :
    t = u ∧ r = s := by
  have hrun : t = u := by
    rw [← takeWhile_run ht hr, h, takeWhile_run hu hs]
  subst hrun
  exact ⟨rfl, List.append_cancel_left h⟩

end Bytes
end NestedMatch
