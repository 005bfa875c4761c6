import NestedMatch.Utf8

/-! Character boundaries of a text written in UTF-8. Main statement: from a boundary, the step to
the next character passes over no other boundary. -/

namespace NestedMatch.Utf8

variable {cs pre post : List Char} {i j : Nat}

/-- A prefix of the characters ends at byte `i`. -/
def Boundary (cs : List Char) (i : Nat) : Prop := ∃ pre, pre <+: cs ∧ (encode pre).length = i

theorem decode?_eq_some_iff {text : Bytes} : decode? text = some cs ↔ encode cs = text := by
  constructor
  · intro h
    obtain ⟨chars, hchars, rfl⟩ := Option.map_eq_some_iff.1 h
    have hback : chars.toList.utf8Encode = text.toByteArray := by
      have := ByteArray.utf8Encode_get_utf8Decode? (b := text.toByteArray) (h := by simp [hchars])
      simpa [hchars] using this
    exact List.toByteArray_inj.1 hback
  · rintro rfl
    exact decode?_encode cs

theorem encode_append (cs ds : List Char) : encode (cs ++ ds) = encode cs ++ encode ds :=
  List.flatMap_append

theorem encode_cons (c : Char) (cs : List Char) :
    encode (c :: cs) = String.utf8EncodeChar c ++ encode cs := rfl

theorem sequenceLength_ofNat {n : Nat} (h : n < 256) :
    sequenceLength (UInt8.ofNat n) =
      if n < 0xC0 then 1 else if n < 0xE0 then 2 else if n < 0xF0 then 3 else
        if n < 0xF8 then 4 else 1 := by
  have hn : (UInt8.ofNat n).toNat = n := UInt8.toNat_ofNat_of_lt' h
  simp only [sequenceLength, UInt8.lt_iff_toNat_lt, hn]
  rfl

/-- The first byte of a character tells how many bytes it has. -/
theorem sequenceLength_encodeChar (c : Char) :
    ∃ lead rest, String.utf8EncodeChar c = lead :: rest ∧
      sequenceLength lead = (String.utf8EncodeChar c).length := by
  fun_cases String.utf8EncodeChar c with
  | case1 n h =>
    refine ⟨_, _, rfl, ?_⟩
    rw [sequenceLength_ofNat (by omega), if_pos (by omega)]
    rfl
  | case2 n h₁ h₂ =>
    refine ⟨_, _, rfl, ?_⟩
    rw [sequenceLength_ofNat (by omega), if_neg (by omega), if_pos (by omega)]
    rfl
  | case3 n h₁ h₂ h₃ =>
    refine ⟨_, _, rfl, ?_⟩
    rw [sequenceLength_ofNat (by omega), if_neg (by omega), if_neg (by omega), if_pos (by omega)]
    rfl
  | case4 n h₁ h₂ h₃ =>
    refine ⟨_, _, rfl, ?_⟩
    rw [sequenceLength_ofNat (by omega), if_neg (by omega), if_neg (by omega), if_neg (by omega),
      if_pos (by omega)]
    rfl

theorem next_encode (pre : List Char) (c : Char) (post : List Char) :
    next (encode (pre ++ c :: post)) (encode pre).length = (encode (pre ++ [c])).length := by
  obtain ⟨lead, rest, hc, hlead⟩ := sequenceLength_encodeChar c
  have hget : (encode (pre ++ c :: post))[(encode pre).length]? = some lead := by
    simp [encode_append, encode_cons, hc]
  have hnil : (encode []).length = 0 := rfl
  rw [next, hget]
  simp only [encode_append, encode_cons, List.length_append, hlead, hnil]
  omega

theorem length_encode_le_of_prefix (h : pre <+: cs) : (encode pre).length ≤ (encode cs).length := by
  obtain ⟨post, rfl⟩ := h
  simp [encode_append]

theorem Boundary.le (h : Boundary cs i) : i ≤ (encode cs).length := by
  obtain ⟨pre, hpre, rfl⟩ := h
  exact length_encode_le_of_prefix hpre

/-- The step from one boundary does not go beyond the one after it. -/
theorem Boundary.next_le (hi : Boundary cs i) (hj : Boundary cs j) (h : i < j) :
    next (encode cs) i ≤ j := by
  obtain ⟨pre, hpre, rfl⟩ := hi
  obtain ⟨pre', hpre', rfl⟩ := hj
  rcases List.prefix_or_prefix_of_prefix hpre hpre' with hp | hp
  · obtain ⟨mid, rfl⟩ := hp
    obtain ⟨post, rfl⟩ := hpre'
    cases mid with
    | nil => simp at h
    | cons c mid =>
      rw [List.append_assoc, List.cons_append, next_encode]
      exact length_encode_le_of_prefix ⟨mid, by simp⟩
  · have := length_encode_le_of_prefix hp
    omega

end NestedMatch.Utf8
