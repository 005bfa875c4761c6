import NestedMatch.Scan

/-! The residue of a text: the stretches between the top-level matches of a pattern. `Residue.next`
takes one at a time, `Residue.spans` all of them. Main statement: what is left to take are the gaps
of the matches that remain. -/

namespace NestedMatch

/-- How far a text is taken apart: the cursor of the matches, and where the last one stopped. -/
structure Residue where
  cursor : Cursor
  position : Nat
deriving DecidableEq, Repr

namespace Residue

def first : Residue := ⟨Cursor.first, 0⟩

/-- Nothing is left after this. -/
def done (text : Bytes) (r : Residue) : Residue := ⟨r.cursor.past text, text.length⟩

/-- The next stretch, and how far the text has been taken apart then. -/
def next (p : Pattern) (text : Bytes) (r : Residue) : Option Span × Residue :=
  match _h : r.cursor.next p text with
  | (none, _) =>
    (if r.position < text.length then some ⟨r.position, text.length⟩ else none, r.done text)
  | (some m, c) =>
    if r.position = m.whole.start then next p text ⟨c, m.whole.stop⟩
    else (some ⟨r.position, m.whole.start⟩, ⟨c, m.whole.stop⟩)
termination_by text.length + 1 - r.cursor.position
decreasing_by
  have := Cursor.position_lt_of_next _h
  omega

theorem next_advances {p : Pattern} {text : Bytes} {r r' : Residue} {s : Span}
    (h : r.next p text = (some s, r')) :
    (r.cursor.position < r'.cursor.position ∧ r.cursor.position ≤ text.length) ∨
      (r.position < text.length ∧ r' = r.done text) := by
  fun_induction next p text r with
  | case1 r c hc =>
    split at h
    · cases h
      exact .inr ⟨‹_›, rfl⟩
    · cases h
  | case2 r m c hc hs ih =>
    have hlt := Cursor.position_lt_of_next hc
    rcases ih h with ⟨h₁, -⟩ | ⟨-, rfl⟩
    · have : c.position < r'.cursor.position := h₁
      exact .inl ⟨by omega, hlt.2⟩
    · refine .inl ⟨?_, hlt.2⟩
      have : ((⟨c, m.whole.stop⟩ : Residue).done text).cursor.position = text.length + 1 := rfl
      omega
  | case3 r m c hc hs =>
    cases h
    exact .inl (Cursor.position_lt_of_next hc)

/-- The stretches still to be taken, one after the other. -/
def remaining (p : Pattern) (text : Bytes) (r : Residue) : List Span :=
  match _h : r.next p text with
  | (none, _) => []
  | (some s, r') => s :: r'.remaining p text
termination_by (text.length + 1 - r.cursor.position, text.length - r.position)
decreasing_by
  rcases next_advances _h with h | ⟨h, rfl⟩
  · exact Prod.Lex.left _ _ (by omega)
  · rw [Prod.lex_def]
    simp only [done, Cursor.past]
    omega

/-- All stretches of the text that no top-level match covers. -/
def spans (p : Pattern) (text : Bytes) : List Span := first.remaining p text

/-- The stretches between position `i`, the matches and the end of the text, the empty ones left
out. -/
def gaps (text : Bytes) (i : Nat) : List RawMatch → List Span
  | [] => if i < text.length then [⟨i, text.length⟩] else []
  | m :: rest =>
    if i = m.whole.start then gaps text m.whole.stop rest
    else ⟨i, m.whole.start⟩ :: gaps text m.whole.stop rest

theorem gaps_nil (text : Bytes) (i : Nat) :
    gaps text i [] = if i < text.length then [⟨i, text.length⟩] else [] := rfl

theorem gaps_cons (text : Bytes) (i : Nat) (m : RawMatch) (rest : List RawMatch) :
    gaps text i (m :: rest) =
      if i = m.whole.start then gaps text m.whole.stop rest
      else ⟨i, m.whole.start⟩ :: gaps text m.whole.stop rest := rfl

theorem next_done (p : Pattern) (text : Bytes) (r : Residue) :
    (r.done text).next p text = (none, r.done text) := by
  rw [next]
  split
  · simp [done, Cursor.past]
  · rename_i m c h
    rw [done, Cursor.next_past] at h
    cases h

theorem remaining_of_none {p : Pattern} {text : Bytes} {r r' : Residue}
    (h : r.next p text = (none, r')) : r.remaining p text = [] := by
  rw [remaining]
  split <;> simp_all

theorem remaining_of_some {p : Pattern} {text : Bytes} {r r' : Residue} {s : Span}
    (h : r.next p text = (some s, r')) : r.remaining p text = s :: r'.remaining p text := by
  rw [remaining]
  split <;> simp_all

theorem remaining_done (p : Pattern) (text : Bytes) (r : Residue) :
    (r.done text).remaining p text = [] := remaining_of_none (next_done p text r)

/-- What the matches that remain leave over, seen from one call of `next`. -/
theorem gaps_eq_next (p : Pattern) (text : Bytes) (r : Residue) :
    gaps text r.position (r.cursor.remaining p text) =
      match r.next p text with
      | (none, _) => []
      | (some s, r') => s :: gaps text r'.position (r'.cursor.remaining p text) := by
  fun_induction next p text r with
  | case1 r c h =>
    rw [Cursor.remaining_eq_next, h]
    dsimp only [gaps]
    split
    · simp [done, gaps]
    · rfl
  | case2 r m c h hs ih =>
    rw [← ih, Cursor.remaining_eq_next, h]
    exact if_pos hs
  | case3 r m c h hs =>
    rw [Cursor.remaining_eq_next, h]
    exact if_neg hs

theorem remaining_eq_gaps (p : Pattern) (text : Bytes) (r : Residue) :
    r.remaining p text = gaps text r.position (r.cursor.remaining p text) := by
  fun_induction remaining p text r with
  | case1 r r' h => rw [gaps_eq_next, h]
  | case2 r s r' h ih => rw [gaps_eq_next, h, ih]

end Residue
end NestedMatch
