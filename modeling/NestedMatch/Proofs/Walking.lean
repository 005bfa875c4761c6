import Mathlib.Data.List.Iterate
import NestedMatch.Proofs.Boundary

/-! Walking through a text written in UTF-8, from its first byte by steps to the next character.
Main statement: the walk stands where each character begins, one after the other, then at the end of
the text, and from then on one past the end. -/

namespace NestedMatch.Utf8

variable {cs : List Char} {n i : Nat}

/-- Where the encodings of the characters begin, in order. -/
def starts (cs : List Char) : List Nat :=
  (List.range cs.length).map fun n => (encode (cs.take n)).length

theorem encode_eq_append (h : n < cs.length) :
    encode cs =
      encode (cs.take n) ++ (String.utf8EncodeChar cs[n] ++ encode (cs.drop (n + 1))) := by
  rw [← encode_cons, ← encode_append, ← List.drop_eq_getElem_cons h, List.take_append_drop]

theorem next_start (h : n < cs.length) :
    next (encode cs) (encode (cs.take n)).length = (encode (cs.take (n + 1))).length := by
  have hnext := next_encode (cs.take n) cs[n] (cs.drop (n + 1))
  rwa [← List.drop_eq_getElem_cons h, List.take_append_drop,
    ← List.take_succ_eq_append_getElem h] at hnext

theorem iterate_next_of_le (h : n ≤ cs.length) :
    (next (encode cs))^[n] 0 = (encode (cs.take n)).length := by
  induction n with
  | zero => rfl
  | succ n ih => rw [Function.iterate_succ_apply', ih (Nat.le_of_lt h), next_start h]

theorem iterate_next_length (cs : List Char) :
    (next (encode cs))^[cs.length] 0 = (encode cs).length := by
  rw [iterate_next_of_le (Nat.le_refl _), List.take_length]

theorem iterate_next_past (cs : List Char) (n : Nat) :
    (next (encode cs))^[cs.length + 1 + n] 0 = (encode cs).length + 1 := by
  induction n with
  | zero =>
    rw [Nat.add_zero, Function.iterate_succ_apply', iterate_next_length]
    exact next_of_length_le (Nat.le_refl _)
  | succ n ih =>
    rw [← Nat.add_assoc, Function.iterate_succ_apply', ih]
    exact next_of_length_le (Nat.le_succ _)

theorem boundary_iff : Boundary cs i ↔ ∃ n ≤ cs.length, (encode (cs.take n)).length = i := by
  constructor
  · rintro ⟨pre, hpre, rfl⟩
    exact ⟨pre.length, hpre.length_le, by rw [← List.prefix_iff_eq_take.1 hpre]⟩
  · rintro ⟨n, -, rfl⟩
    exact ⟨cs.take n, List.take_prefix n cs, rfl⟩

/-- The walk through the text of these characters. -/
structure WalkedThrough (cs : List Char) : Prop where
  /-- It visits where the characters begin, then the end, then one past the end any number of
  times. -/
  visits : ∀ past, List.iterate (next (encode cs)) 0 (cs.length + 1 + past) =
    starts cs ++ (encode cs).length :: List.replicate past ((encode cs).length + 1)
  /-- After as many steps as there are characters before it, a character's encoding follows. -/
  follows : ∀ n c, cs[n]? = some c →
    String.utf8EncodeChar c <+: (encode cs).drop ((next (encode cs))^[n] 0)
  /-- It visits every boundary, and else only one past the end. -/
  boundaries : ∀ i, (∃ n, (next (encode cs))^[n] 0 = i) ↔
    Boundary cs i ∨ i = (encode cs).length + 1

/-- The walk visits exactly the boundaries of the characters, in order. -/
theorem walkedThrough (cs : List Char) : WalkedThrough cs where
  visits past := by
    have hstarts : (List.range cs.length).map (fun n => (next (encode cs))^[n] 0) = starts cs :=
      List.map_congr_left fun n hn => iterate_next_of_le (Nat.le_of_lt (List.mem_range.1 hn))
    rw [← List.range_map_iterate, List.range_add, List.range_succ]
    simp only [List.append_assoc, List.singleton_append, List.map_append, List.map_cons,
      List.map_map, Function.comp_def, hstarts, iterate_next_length, iterate_next_past,
      List.map_const', List.length_range]
  follows n c hc := by
    obtain ⟨hn, rfl⟩ := List.getElem?_eq_some_iff.1 hc
    rw [iterate_next_of_le (Nat.le_of_lt hn), encode_eq_append hn, List.drop_left]
    exact List.prefix_append _ _
  boundaries i := by
    rw [boundary_iff]
    constructor
    · rintro ⟨n, rfl⟩
      rcases Nat.lt_or_ge cs.length n with hn | hn
      · obtain ⟨past, rfl⟩ := Nat.exists_eq_add_of_le hn
        exact .inr (iterate_next_past cs past)
      · exact .inl ⟨n, hn, (iterate_next_of_le hn).symm⟩
    · rintro (⟨n, hn, rfl⟩ | rfl)
      · exact ⟨n, iterate_next_of_le hn⟩
      · exact ⟨cs.length + 1, iterate_next_past cs 0⟩

end NestedMatch.Utf8
