import NestedMatch.Pattern
import NestedMatch.Utf8

/-! The run of a pattern over a text, leftmost matches first and never overlapping. Each search
moves the cursor forward, so a run ends whatever the engine answers. -/

namespace NestedMatch

/-- Where the next search starts, and where the last match reported stopped. -/
structure Cursor where
  position : Nat
  lastStop : Option Nat
deriving DecidableEq, Repr

/-- What one search comes to. -/
inductive Search where
  | finished
  /-- An empty match right after the last match is passed over. -/
  | skipped (c : Cursor)
  | found (m : RawMatch) (c : Cursor)
deriving DecidableEq, Repr

namespace Cursor

def first : Cursor := ⟨0, none⟩

/-- The cursor after a match: at its stop, or past the next character where the match is empty. -/
def after (text : Bytes) (m : RawMatch) : Cursor :=
  ⟨if m.whole.isEmpty then Utf8.next text m.whole.stop else m.whole.stop, some m.whole.stop⟩

/-- The cursor past every position of the text. -/
def past (text : Bytes) (c : Cursor) : Cursor := ⟨text.length + 1, c.lastStop⟩

/-- One search of the engine, none from past the end of the text. -/
def search (p : Pattern) (text : Bytes) (c : Cursor) : Search :=
  if text.length < c.position then .finished
  else match p.find? text c.position with
    | none => .finished
    | some m =>
      if m.whole.isEmpty ∧ c.lastStop = some m.whole.stop then .skipped (after text m)
      else .found m (after text m)

theorem position_lt_after {text : Bytes} {i : Nat} {m : RawMatch} (h : m.Within text i) :
    i < (after text m).position := by
  obtain ⟨h₁, h₂, h₃⟩ := h
  unfold after
  by_cases he : m.whole.isEmpty = true
  · have := Utf8.lt_next h₃
    simp only [he, if_true]; omega
  · have : m.whole.start ≠ m.whole.stop := fun heq => he (Span.isEmpty_iff.2 heq)
    simp only [he, if_false, Bool.false_eq_true]; omega

theorem search_of_lt {p : Pattern} {text : Bytes} {c : Cursor} (h : text.length < c.position) :
    c.search p text = .finished := if_pos h

theorem search_of_none {p : Pattern} {text : Bytes} {c : Cursor}
    (h : p.find? text c.position = none) : c.search p text = .finished := by
  simp [search, h]

theorem search_of_skip {p : Pattern} {text : Bytes} {c : Cursor} {m : RawMatch}
    (hc : c.position ≤ text.length) (hm : p.find? text c.position = some m)
    (h : m.whole.isEmpty ∧ c.lastStop = some m.whole.stop) :
    c.search p text = .skipped (after text m) := by
  simp only [search, Nat.not_lt.2 hc, hm, h, if_false, if_true, and_self]

theorem search_of_report {p : Pattern} {text : Bytes} {c : Cursor} {m : RawMatch}
    (hc : c.position ≤ text.length) (hm : p.find? text c.position = some m)
    (h : ¬ (m.whole.isEmpty ∧ c.lastStop = some m.whole.stop)) :
    c.search p text = .found m (after text m) := by
  simp only [search, Nat.not_lt.2 hc, hm, h, if_false]

theorem of_search_finished {p : Pattern} {text : Bytes} {c : Cursor}
    (h : c.search p text = .finished) :
    text.length < c.position ∨ p.find? text c.position = none := by
  unfold search at h
  split at h
  · exact .inl ‹_›
  · split at h
    · exact .inr ‹_›
    · split at h <;> cases h

theorem of_search_skipped {p : Pattern} {text : Bytes} {c d : Cursor}
    (h : c.search p text = .skipped d) :
    ∃ m, p.find? text c.position = some m ∧ d = after text m ∧ m.whole.isEmpty ∧
      c.lastStop = some m.whole.stop := by
  unfold search at h
  split at h
  · cases h
  · split at h
    · cases h
    · rename_i m hm
      split at h
      · cases h
        exact ⟨m, hm, rfl, ‹_›⟩
      · cases h

theorem of_search_found {p : Pattern} {text : Bytes} {c d : Cursor} {m : RawMatch}
    (h : c.search p text = .found m d) :
    p.find? text c.position = some m ∧ d = after text m ∧
      ¬ (m.whole.isEmpty ∧ c.lastStop = some m.whole.stop) := by
  unfold search at h
  split at h
  · cases h
  · split at h
    · cases h
    · split at h
      · cases h
      · cases h
        exact ⟨‹_›, rfl, ‹_›⟩

theorem position_lt_of_find? {p : Pattern} {text : Bytes} {c : Cursor} {m : RawMatch}
    (h : p.find? text c.position = some m) :
    c.position < (after text m).position ∧ c.position ≤ text.length := by
  have hm := Pattern.within_of_find? h
  refine ⟨position_lt_after hm, ?_⟩
  obtain ⟨h₁, h₂, h₃⟩ := hm
  omega

theorem position_lt_of_skipped {p : Pattern} {text : Bytes} {c d : Cursor}
    (h : c.search p text = .skipped d) : c.position < d.position ∧ c.position ≤ text.length := by
  obtain ⟨m, hm, rfl, -⟩ := of_search_skipped h
  exact position_lt_of_find? hm

theorem position_lt_of_found {p : Pattern} {text : Bytes} {c d : Cursor} {m : RawMatch}
    (h : c.search p text = .found m d) : c.position < d.position ∧ c.position ≤ text.length := by
  obtain ⟨hm, rfl, -⟩ := of_search_found h
  exact position_lt_of_find? hm

/-- The next match and the cursor after it. Where there is none, the cursor stays past the end. -/
def next (p : Pattern) (text : Bytes) (c : Cursor) : Option RawMatch × Cursor :=
  match _h : c.search p text with
  | .finished => (none, c.past text)
  | .skipped d => d.next p text
  | .found m d => (some m, d)
termination_by text.length + 1 - c.position
decreasing_by
  have := position_lt_of_skipped _h
  omega

/-- All matches from here on. -/
def remaining (p : Pattern) (text : Bytes) (c : Cursor) : List RawMatch :=
  match _h : c.search p text with
  | .finished => []
  | .skipped d => d.remaining p text
  | .found m d => m :: d.remaining p text
termination_by text.length + 1 - c.position
decreasing_by
  · have := position_lt_of_skipped _h
    omega
  · have := position_lt_of_found _h
    omega

/-- The answers to `n` calls of `next`, one after the other. -/
def answers (p : Pattern) (text : Bytes) : Nat → Cursor → List (Option RawMatch)
  | 0, _ => []
  | n + 1, c => (c.next p text).1 :: answers p text n (c.next p text).2

theorem next_of_finished {p : Pattern} {text : Bytes} {c : Cursor}
    (h : c.search p text = .finished) : c.next p text = (none, c.past text) := by
  rw [next]; split <;> simp_all

theorem next_of_skipped {p : Pattern} {text : Bytes} {c d : Cursor}
    (h : c.search p text = .skipped d) : c.next p text = d.next p text := by
  rw [next]; split <;> simp_all

theorem next_of_found {p : Pattern} {text : Bytes} {c d : Cursor} {m : RawMatch}
    (h : c.search p text = .found m d) : c.next p text = (some m, d) := by
  rw [next]; split <;> simp_all

theorem remaining_of_finished {p : Pattern} {text : Bytes} {c : Cursor}
    (h : c.search p text = .finished) : c.remaining p text = [] := by
  rw [remaining]; split <;> simp_all

theorem remaining_of_skipped {p : Pattern} {text : Bytes} {c d : Cursor}
    (h : c.search p text = .skipped d) : c.remaining p text = d.remaining p text := by
  rw [remaining]; split <;> simp_all

theorem remaining_of_found {p : Pattern} {text : Bytes} {c d : Cursor} {m : RawMatch}
    (h : c.search p text = .found m d) : c.remaining p text = m :: d.remaining p text := by
  rw [remaining]; split <;> simp_all

theorem position_lt_of_next {p : Pattern} {text : Bytes} {c d : Cursor} {m : RawMatch}
    (h : c.next p text = (some m, d)) : c.position < d.position ∧ c.position ≤ text.length := by
  fun_induction next p text c with
  | case1 c hs => simp at h
  | case2 c e hs ih =>
    have := position_lt_of_skipped hs
    have := ih h
    omega
  | case3 c m' e hs =>
    cases h
    exact position_lt_of_found hs

theorem search_past (p : Pattern) (text : Bytes) (c : Cursor) :
    (c.past text).search p text = .finished := by
  simp [search, past]

@[simp] theorem next_past (p : Pattern) (text : Bytes) (c : Cursor) :
    (c.past text).next p text = (none, c.past text) := next_of_finished (search_past p text c)

@[simp] theorem remaining_past (p : Pattern) (text : Bytes) (c : Cursor) :
    (c.past text).remaining p text = [] := remaining_of_finished (search_past p text c)

/-- Taking one match takes the first one that remains. -/
theorem remaining_eq_next (p : Pattern) (text : Bytes) (c : Cursor) :
    c.remaining p text =
      match c.next p text with
      | (none, _) => []
      | (some m, d) => m :: d.remaining p text := by
  fun_induction next p text c with
  | case1 c h => exact remaining_of_finished h
  | case2 c d h ih => rw [remaining_of_skipped h, ih]
  | case3 c m d h => exact remaining_of_found h

end Cursor

/-- All matches of the pattern in the text. -/
def Pattern.findAll (p : Pattern) (text : Bytes) : List RawMatch := Cursor.first.remaining p text

/-- All matches of the pattern in a text that begins at position `k` of a document. -/
def Pattern.findAllAt (p : Pattern) (text : Bytes) (k : Nat) : List RawMatch :=
  (p.findAll text).map (RawMatch.shift k)

/-- The answers to `n` calls of `next` on such a text, from its beginning. -/
def Pattern.answersAt (p : Pattern) (text : Bytes) (k n : Nat) : List (Option RawMatch) :=
  (Cursor.first.answers p text n).map (Option.map (RawMatch.shift k))

end NestedMatch
