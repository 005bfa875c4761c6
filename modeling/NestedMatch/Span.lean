import NestedMatch.Bytes

/-! Stretches of a text by byte position, and the text found in one. -/

namespace NestedMatch

/-- The bytes from `start` up to, not including, `stop`. -/
structure Span where
  start : Nat
  stop : Nat
deriving DecidableEq, Repr

namespace Span

def size (s : Span) : Nat := s.stop - s.start

def isEmpty (s : Span) : Bool := s.start == s.stop

/-- The same stretch in a text that has `k` more bytes in front. -/
def shift (k : Nat) (s : Span) : Span := ⟨s.start + k, s.stop + k⟩

def Covers (s : Span) (i : Nat) : Prop := s.start ≤ i ∧ i < s.stop

instance (s : Span) (i : Nat) : Decidable (s.Covers i) := inferInstanceAs (Decidable (_ ∧ _))

/-- The bytes of the stretch. -/
def cut (s : Span) (text : Bytes) : Bytes := (text.drop s.start).take s.size

theorem isEmpty_iff {s : Span} : s.isEmpty = true ↔ s.start = s.stop := by simp [isEmpty]

@[simp] theorem size_shift (k : Nat) (s : Span) : (s.shift k).size = s.size := by
  simp only [size, shift]; omega

@[simp] theorem isEmpty_shift (k : Nat) (s : Span) : (s.shift k).isEmpty = s.isEmpty := by
  rw [Bool.eq_iff_iff, isEmpty_iff, isEmpty_iff]
  simp only [shift]
  omega

theorem shift_shift (j k : Nat) (s : Span) : (s.shift j).shift k = s.shift (j + k) := by
  simp [shift, Nat.add_assoc]

theorem length_cut {s : Span} {text : Bytes} (h : s.stop ≤ text.length) :
    (s.cut text).length = s.size := by
  simp only [cut, size, List.length_take, List.length_drop]; omega

theorem cut_cut {s t : Span} {text : Bytes} (h : s.start + t.stop ≤ s.stop) :
    t.cut (s.cut text) = (t.shift s.start).cut text := by
  simp only [cut, size, shift, List.drop_take, List.take_take, List.drop_drop]
  congr 1
  · omega
  · congr 1; omega

end Span

/-- A stretch together with the bytes found there. -/
structure Capture where
  span : Span
  text : Bytes
deriving DecidableEq, Repr

/-- The same capture in a text that has `k` more bytes in front. -/
def Capture.shift (k : Nat) (c : Capture) : Capture := ⟨c.span.shift k, c.text⟩

/-- What a stretch of a document captures, read in the part `text` that begins at position `k`. -/
def Span.capture (s : Span) (text : Bytes) (k : Nat) : Capture :=
  ⟨s, (text.drop (s.start - k)).take s.size⟩

theorem Span.capture_shift (s : Span) (text : Bytes) (k : Nat) :
    (s.shift k).capture text k = ⟨s.shift k, s.cut text⟩ := by
  simp only [capture, size_shift, cut]
  simp [shift]

theorem Span.capture_shift_add (s : Span) (text : Bytes) (j k : Nat) :
    (s.shift k).capture text (j + k) = (s.capture text j).shift k := by
  simp only [capture, Capture.shift, size_shift]
  simp [shift, Nat.add_sub_add_right]

end NestedMatch
