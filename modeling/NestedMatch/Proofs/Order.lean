import Mathlib.Data.List.Pairwise
import NestedMatch.Scan

/-! The matches of a run stand in the text one after the other, and of two that touch neither is
empty. A run is followed from any cursor, so the invariant carries the position that everything
before the cursor ends at. Main statement: the answers of an iterator are the matches in order, and
nothing from there on. -/

namespace NestedMatch

/-- The matches lie in the text from position `i` on, each at or after the stop of the one before. -/
def InOrder (text : Bytes) : Nat → List RawMatch → Prop
  | i, [] => i ≤ text.length
  | i, m :: rest => m.Within text i ∧ InOrder text m.whole.stop rest

theorem InOrder.le {text : Bytes} {i : Nat} {ms : List RawMatch} (h : InOrder text i ms) :
    i ≤ text.length := by
  cases ms with
  | nil => exact h
  | cons m rest =>
    obtain ⟨⟨h₁, h₂, h₃⟩, -⟩ := h
    omega

theorem InOrder.within_of_mem {text : Bytes} {i : Nat} {ms : List RawMatch} {m : RawMatch}
    (h : InOrder text i ms) (hm : m ∈ ms) : m.Within text i := by
  induction ms generalizing i with
  | nil => simp at hm
  | cons first rest ih =>
    obtain ⟨hfirst, hrest⟩ := h
    rcases List.mem_cons.1 hm with rfl | hm
    · exact hfirst
    · have hw := ih hrest hm
      obtain ⟨h₁, h₂, -⟩ := hfirst
      exact ⟨by have := hw.1; omega, hw.2⟩

/-- `m` stops before `o` starts. They may touch where neither of the two is empty. -/
def RawMatch.Precedes (m o : RawMatch) : Prop :=
  m.whole.stop ≤ o.whole.start ∧
    (m.whole.stop = o.whole.start → m.whole.isEmpty = false ∧ o.whole.isEmpty = false)

theorem RawMatch.Precedes.start_lt {m o : RawMatch} (h : m.Precedes o)
    (hm : m.whole.start ≤ m.whole.stop) : m.whole.start < o.whole.start := by
  obtain ⟨hle, htouch⟩ := h
  rcases Nat.lt_or_ge m.whole.stop o.whole.start with hlt | hge
  · omega
  · have hne := (htouch (by omega)).1
    have hneq : m.whole.start ≠ m.whole.stop := fun he => by simp [Span.isEmpty_iff.2 he] at hne
    omega

namespace Cursor

theorem stop_le_position_after (text : Bytes) (m : RawMatch) (h : m.whole.stop ≤ text.length) :
    m.whole.stop ≤ (after text m).position := by
  unfold after
  split
  · exact Nat.le_of_lt (Utf8.lt_next h)
  · exact Nat.le_refl _

theorem inOrder_remaining {p : Pattern} {text : Bytes} {c : Cursor} {i : Nat}
    (hi : i ≤ text.length) (hc : i ≤ c.position) : InOrder text i (c.remaining p text) := by
  fun_induction remaining p text c generalizing i with
  | case1 c h => exact hi
  | case2 c d h ih =>
    have := position_lt_of_skipped h
    exact ih hi (by omega)
  | case3 c m d h ih =>
    obtain ⟨hm, rfl, -⟩ := of_search_found h
    obtain ⟨h₁, h₂, h₃⟩ := Pattern.within_of_find? hm
    exact ⟨⟨by omega, h₂, h₃⟩, ih h₃ (stop_le_position_after text m h₃)⟩

/-- Every match of a run is an answer of the engine. -/
theorem exists_find?_of_mem_remaining {p : Pattern} {text : Bytes} {c : Cursor} {m : RawMatch}
    (hm : m ∈ c.remaining p text) : ∃ i, p.find? text i = some m := by
  fun_induction remaining p text c with
  | case1 c h => simp at hm
  | case2 c d h ih => exact ih hm
  | case3 c first d h ih =>
    rcases List.mem_cons.1 hm with rfl | hm
    · exact ⟨c.position, (of_search_found h).1⟩
    · exact ih hm

theorem position_le_start_of_mem_remaining {p : Pattern} {text : Bytes} {c : Cursor} {m : RawMatch}
    (hm : m ∈ c.remaining p text) : c.position ≤ m.whole.start := by
  fun_induction remaining p text c with
  | case1 c h => simp at hm
  | case2 c d h ih =>
    have := position_lt_of_skipped h
    have := ih hm
    omega
  | case3 c first d h ih =>
    rcases List.mem_cons.1 hm with rfl | hm
    · exact (Pattern.within_of_find? (of_search_found h).1).1
    · have := position_lt_of_found h
      have := ih hm
      omega

/-- An empty match at the cursor is not reported where the last match stopped. -/
theorem not_isEmpty_of_mem_remaining {p : Pattern} {text : Bytes} {c : Cursor} {m : RawMatch}
    (hm : m ∈ c.remaining p text) (hstart : m.whole.start = c.position)
    (hlast : c.lastStop = some c.position) : m.whole.isEmpty = false := by
  cases hs : c.search p text with
  | finished => simp [remaining_of_finished hs] at hm
  | skipped d =>
    rw [remaining_of_skipped hs] at hm
    have := position_lt_of_skipped hs
    have := position_le_start_of_mem_remaining hm
    omega
  | found first d =>
    rw [remaining_of_found hs] at hm
    rcases List.mem_cons.1 hm with rfl | hm
    · apply Bool.eq_false_iff.2
      intro he
      apply (of_search_found hs).2.2
      refine ⟨he, ?_⟩
      rw [hlast, ← hstart, Span.isEmpty_iff.1 he]
    · have := position_lt_of_found hs
      have := position_le_start_of_mem_remaining hm
      omega

theorem precedes_of_mem_remaining_after {p : Pattern} {text : Bytes} {m o : RawMatch}
    (hm : m.whole.stop ≤ text.length) (ho : o ∈ (after text m).remaining p text) :
    m.Precedes o := by
  have hle := position_le_start_of_mem_remaining ho
  refine ⟨Nat.le_trans (stop_le_position_after text m hm) hle, ?_⟩
  intro htouch
  have hempty : m.whole.isEmpty = false := by
    apply Bool.eq_false_iff.2
    intro he
    have := Utf8.lt_next hm
    simp only [after, he, if_true] at hle
    omega
  have hpos : (after text m).position = m.whole.stop := by simp [after, hempty]
  exact ⟨hempty, not_isEmpty_of_mem_remaining ho (by omega) (by rw [hpos]; rfl)⟩

theorem pairwise_remaining (p : Pattern) (text : Bytes) (c : Cursor) :
    (c.remaining p text).Pairwise RawMatch.Precedes := by
  fun_induction remaining p text c with
  | case1 c h => exact List.Pairwise.nil
  | case2 c d h ih => exact ih
  | case3 c m d h ih =>
    obtain ⟨hm, rfl, -⟩ := of_search_found h
    obtain ⟨-, -, hstop⟩ := Pattern.within_of_find? hm
    apply List.Pairwise.cons
    · intro o ho
      exact precedes_of_mem_remaining_after hstop ho
    · exact ih

theorem precedes_or_precedes {p : Pattern} {text : Bytes} {c : Cursor} {m o : RawMatch}
    (hm : m ∈ c.remaining p text) (ho : o ∈ c.remaining p text) (hne : m ≠ o) :
    m.Precedes o ∨ o.Precedes m := by
  have : Std.Symm fun a b : RawMatch => a.Precedes b ∨ b.Precedes a := ⟨fun _ _ h => h.symm⟩
  have hboth : (c.remaining p text).Pairwise fun a b => a.Precedes b ∨ b.Precedes a :=
    (pairwise_remaining p text c).imp .inl
  exact hboth.forall hm ho hne

theorem exists_past_of_next_none {p : Pattern} {text : Bytes} {c d : Cursor}
    (h : c.next p text = (none, d)) : ∃ e, d = past text e := by
  fun_induction next p text c with
  | case1 c hs =>
    cases h
    exact ⟨c, rfl⟩
  | case2 c e hs ih => exact ih h
  | case3 c m e hs => cases h

/-- Calls of `next` give the matches that remain, and from then on nothing. -/
theorem answers_eq (p : Pattern) (text : Bytes) (n : Nat) (c : Cursor) :
    answers p text n c = ((c.remaining p text).map some ++ List.replicate n none).take n := by
  induction n generalizing c with
  | zero => rfl
  | succ n ih =>
    rw [answers, ih, remaining_eq_next p text c]
    cases hc : c.next p text with
    | mk first d =>
      cases first with
      | none =>
        obtain ⟨e, rfl⟩ := exists_past_of_next_none hc
        simp [List.replicate_succ]
      | some m =>
        have h : n ≤ ((d.remaining p text).map some ++ List.replicate n none).length := by simp
        rw [List.map_cons, List.cons_append, List.take_succ_cons, List.replicate_succ',
          ← List.append_assoc, List.take_append_of_le_length h]

end Cursor

theorem Pattern.inOrder_findAll (p : Pattern) (text : Bytes) : InOrder text 0 (p.findAll text) :=
  Cursor.inOrder_remaining (Nat.zero_le _) (Nat.zero_le _)

theorem RawMatch.Precedes.shift {m o : RawMatch} (h : m.Precedes o) (k : Nat) :
    (m.shift k).Precedes (o.shift k) := by
  obtain ⟨hle, htouch⟩ := h
  refine ⟨Nat.add_le_add_right hle k, fun heq => ?_⟩
  obtain ⟨hm, ho⟩ := htouch (Nat.add_right_cancel heq)
  exact ⟨(Span.isEmpty_shift k _).trans hm, (Span.isEmpty_shift k _).trans ho⟩

namespace Pattern

variable {p : Pattern} {text : Bytes} {k n : Nat}

theorem pairwise_findAllAt (p : Pattern) (text : Bytes) (k : Nat) :
    (p.findAllAt text k).Pairwise RawMatch.Precedes :=
  List.pairwise_map.2 ((Cursor.pairwise_remaining p text .first).imp fun h => h.shift k)

theorem within_of_mem_findAllAt {m : RawMatch} (h : m ∈ p.findAllAt text k) :
    k ≤ m.whole.start ∧ m.whole.start ≤ m.whole.stop ∧ m.whole.stop ≤ k + text.length := by
  obtain ⟨m, hm, rfl⟩ := List.mem_map.1 h
  obtain ⟨-, h₂, h₃⟩ := (p.inOrder_findAll text).within_of_mem hm
  refine ⟨Nat.le_add_left _ _, Nat.add_le_add_right h₂ k, ?_⟩
  simp only [RawMatch.shift, Span.shift]
  omega

@[simp] theorem length_answersAt : (p.answersAt text k n).length = n := by
  simp [answersAt, Cursor.answers_eq]

/-- The calls give the matches one by one, and nothing once these are used up. -/
theorem getElem?_answersAt {i : Nat} (h : i < n) :
    (p.answersAt text k n)[i]? = some (p.findAllAt text k)[i]? := by
  rw [answersAt, Cursor.answers_eq, ← findAll, List.getElem?_map, List.getElem?_take_of_lt h,
    findAllAt, List.getElem?_map]
  rcases Nat.lt_or_ge i (p.findAll text).length with hi | hi
  · rw [List.getElem?_append_left (by simpa using hi), List.getElem?_map,
      List.getElem?_eq_getElem hi]
    rfl
  · have hn : i - (p.findAll text).length < n := by omega
    rw [List.getElem?_append_right (by simpa using hi), List.length_map,
      List.getElem?_replicate_of_lt hn, List.getElem?_eq_none hi]
    rfl

theorem getElem?_findAllAt_of_answersAt {i : Nat} {a : Option RawMatch}
    (h : (p.answersAt text k n)[i]? = some a) : (p.findAllAt text k)[i]? = a := by
  have hi : i < n := by simpa using (List.getElem?_eq_some_iff.1 h).1
  rw [getElem?_answersAt hi] at h
  exact Option.some_inj.1 h

end Pattern

/-- The answers of a run over a text that begins at position `k`: matches inside the text, each
before the later ones, and from the first call that gives none on nothing. -/
structure OrderedAnswers (text : Bytes) (k : Nat) (answers : List (Option RawMatch)) : Prop where
  within : ∀ m : RawMatch, some m ∈ answers →
    k ≤ m.whole.start ∧ m.whole.start ≤ m.whole.stop ∧ m.whole.stop ≤ k + text.length
  precedes : ∀ (i j : Nat) (m o : RawMatch), i < j → answers[i]? = some (some m) →
    answers[j]? = some (some o) → m.Precedes o
  exhausted : ∀ i j : Nat, i ≤ j → j < answers.length → answers[i]? = some none →
    answers[j]? = some none

/-- Whatever the engine answers, and whatever the bytes of the text, a run is in order. A run
searches from a position at most once, so that a position has one answer is no restriction. -/
theorem answersAt_ordered (p : Pattern) (text : Bytes) (k n : Nat) :
    OrderedAnswers text k (p.answersAt text k n) where
  within m hm := by
    obtain ⟨i, hi⟩ := List.mem_iff_getElem?.1 hm
    have hfound := Pattern.getElem?_findAllAt_of_answersAt hi
    exact Pattern.within_of_mem_findAllAt (List.mem_of_getElem? hfound)
  precedes i j m o hij hm ho := by
    obtain ⟨hi, rfl⟩ := List.getElem?_eq_some_iff.1 (Pattern.getElem?_findAllAt_of_answersAt hm)
    obtain ⟨hj, rfl⟩ := List.getElem?_eq_some_iff.1 (Pattern.getElem?_findAllAt_of_answersAt ho)
    exact List.pairwise_iff_getElem.1 (p.pairwise_findAllAt text k) i j hi hj hij
  exhausted i j hij hj hi := by
    have hlen := List.getElem?_eq_none_iff.1 (Pattern.getElem?_findAllAt_of_answersAt hi)
    rw [Pattern.getElem?_answersAt (by simpa using hj), List.getElem?_eq_none (by omega)]

end NestedMatch
