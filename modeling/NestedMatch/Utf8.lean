import NestedMatch.Bytes

/-! UTF-8: the step to the next character, which never fails, and strict reading and writing.
Main statement: reading what was written gives the characters back. -/

namespace NestedMatch.Utf8

/-- The number of bytes that the leading ones of this byte claim: two to four for as many of them,
one for any other byte. The bytes `0xC0`, `0xC1` and `0xF5` to `0xF7` start no sequence, but are
counted like the others of their range. -/
def sequenceLength (lead : UInt8) : Nat :=
  if lead < 0xC0 then 1
  else if lead < 0xE0 then 2
  else if lead < 0xF0 then 3
  else if lead < 0xF8 then 4
  else 1

/-- The position after the character at `i`, never past the end of the text. From the end on, the
next position is one past the end. -/
def next (text : Bytes) (i : Nat) : Nat :=
  match text[i]? with
  | none => text.length + 1
  | some lead => min (i + sequenceLength lead) text.length

/-- All characters of a text, or `none` where it is not UTF-8: overlong forms, surrogates and
code points above U+10FFFF are refused. -/
def decode? (text : Bytes) : Option (List Char) :=
  text.toByteArray.utf8Decode?.map Array.toList

def encode (cs : List Char) : Bytes := cs.flatMap String.utf8EncodeChar

theorem sequenceLength_pos (lead : UInt8) : 0 < sequenceLength lead := by
  unfold sequenceLength; repeat' split
  all_goals decide

theorem next_of_length_le {text : Bytes} {i : Nat} (h : text.length ≤ i) :
    next text i = text.length + 1 := by
  simp [next, List.getElem?_eq_none h]

theorem next_of_lt {text : Bytes} {i : Nat} (h : i < text.length) :
    next text i = min (i + sequenceLength text[i]) text.length := by
  simp [next, List.getElem?_eq_getElem h]

theorem lt_next {text : Bytes} {i : Nat} (h : i ≤ text.length) : i < next text i := by
  rcases Nat.lt_or_ge i text.length with hi | hi
  · rw [next_of_lt hi]
    have := sequenceLength_pos text[i]
    omega
  · rw [next_of_length_le hi]; omega

theorem next_le (text : Bytes) (i : Nat) : next text i ≤ text.length + 1 := by
  rcases Nat.lt_or_ge i text.length with hi | hi
  · rw [next_of_lt hi]; omega
  · exact Nat.le_of_eq (next_of_length_le hi)

theorem decode?_encode (cs : List Char) : decode? (encode cs) = some cs := by
  have h : (encode cs).toByteArray = cs.utf8Encode := rfl
  simp [decode?, h]

end NestedMatch.Utf8
