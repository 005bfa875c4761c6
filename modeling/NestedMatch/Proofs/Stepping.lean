import NestedMatch.Engine.Table
import NestedMatch.Scan
import NestedMatch.Proofs.Boundary

/-! What the step to the next character passes over, on any bytes. How far it goes depends on the
first byte alone. Where the text goes on as that byte says, only continuation bytes are passed over,
and no place where a match could start is missed. A byte that comes too early is passed over. -/

namespace NestedMatch

namespace Utf8

/-- A byte that continues a character. -/
def Continues (b : UInt8) : Prop := 0x80 ≤ b ∧ b ≤ 0xBF

instance (b : UInt8) : Decidable (Continues b) := inferInstanceAs (Decidable (_ ∧ _))

/-- Among the bytes that the first byte of a sequence claims stands one that continues nothing. -/
def CutShort (text : Bytes) (i : Nat) : Prop :=
  ∃ lead j b, text[i]? = some lead ∧ i < j ∧ j < i + sequenceLength lead ∧ text[j]? = some b ∧
    ¬ Continues b

theorem continues_ofNat (n : Nat) : Continues (UInt8.ofNat (n % 64 + 128)) := by
  have hn : (UInt8.ofNat (n % 64 + 128)).toNat = n % 64 + 128 :=
    UInt8.toNat_ofNat_of_lt' (by simp only [UInt8.size]; omega)
  have h80 : (0x80 : UInt8).toNat = 128 := rfl
  have hBF : (0xBF : UInt8).toNat = 191 := rfl
  simp only [Continues, UInt8.le_iff_toNat_le, hn, h80, hBF]
  omega

theorem Continues.sequenceLength_eq {b : UInt8} (h : Continues b) : sequenceLength b = 1 := by
  refine if_pos ?_
  have hC0 : (0xC0 : UInt8).toNat = 192 := rfl
  have hBF : (0xBF : UInt8).toNat = 191 := rfl
  have hb := h.2
  simp only [UInt8.le_iff_toNat_le, UInt8.lt_iff_toNat_lt, hC0, hBF] at hb ⊢
  omega

/-- A character goes on with continuation bytes. -/
theorem continues_of_mem_tail (c : Char) : ∀ b ∈ (String.utf8EncodeChar c).tail, Continues b := by
  fun_cases String.utf8EncodeChar c with
  | case1 => simp
  | case2 | case3 | case4 =>
    simp only [List.tail_cons, List.forall_mem_cons, continues_ofNat, List.not_mem_nil,
      false_implies, implies_true, and_self]

theorem continues_of_getElem? {c : Char} {j : Nat} {b : UInt8}
    (h : (String.utf8EncodeChar c)[j]? = some b) (hj : 0 < j) : Continues b := by
  obtain ⟨j, rfl⟩ := Nat.exists_eq_succ_of_ne_zero (Nat.ne_of_gt hj)
  rw [← List.getElem?_tail] at h
  exact continues_of_mem_tail c b (List.mem_of_getElem? h)

theorem not_cutShort_encode (cs : List Char) (i : Nat) : ¬ CutShort (encode cs) i := by
  rintro ⟨lead, j, b, hlead, hij, hj, hb, hcontinues⟩
  induction cs generalizing i j with
  | nil => simp [encode] at hlead
  | cons c cs ih =>
    rw [encode_cons] at hlead hb
    rcases Nat.lt_or_ge i (String.utf8EncodeChar c).length with hi | hi
    · rw [List.getElem?_append_left hi] at hlead
      rcases Nat.eq_zero_or_pos i with rfl | hpos
      · obtain ⟨first, rest, hc, hfirst⟩ := sequenceLength_encodeChar c
        have hlead' : lead = first := by simpa [hc] using hlead.symm
        rw [hlead', hfirst] at hj
        rw [List.getElem?_append_left (by omega)] at hb
        exact hcontinues (continues_of_getElem? hb hij)
      · rw [(continues_of_getElem? hlead hpos).sequenceLength_eq] at hj
        omega
    · rw [List.getElem?_append_right hi] at hlead
      rw [List.getElem?_append_right (by omega)] at hb
      exact ih _ _ hlead (by omega) (by omega) hb

theorem passes_continuations_iff {text : Bytes} {i : Nat} (h : i < text.length) :
    (∀ j b, i < j → j < next text i → text[j]? = some b → Continues b) ↔ ¬ CutShort text i := by
  rw [next_of_lt h]
  constructor
  · rintro hall ⟨lead, j, b, hlead, hij, hj, hb, hcontinues⟩
    obtain ⟨_, rfl⟩ := List.getElem?_eq_some_iff.1 hlead
    obtain ⟨hjlen, -⟩ := List.getElem?_eq_some_iff.1 hb
    exact hcontinues (hall j b hij (by omega) hb)
  · intro hcut j b hij hj hb
    refine Decidable.byContradiction fun hcontinues => hcut ?_
    exact ⟨text[i], j, b, List.getElem?_eq_getElem h, hij, by omega, hb, hcontinues⟩

end Utf8

/-- Steps through a text, and the searches that they lead to. -/
structure StepsAlong (text : Bytes) : Prop where
  moves : ∀ i < text.length, i < Utf8.next text i ∧ Utf8.next text i ≤ text.length
  passes : ∀ i < text.length,
    (∀ j b, i < j → j < Utf8.next text i → text[j]? = some b → Utf8.Continues b) ↔
      ¬ Utf8.CutShort text i
  /-- In a text that is UTF-8 no sequence is cut short. -/
  unbroken : (Utf8.decode? text).isSome → ∀ i, ¬ Utf8.CutShort text i
  /-- The search after an empty match misses no place where another character starts. -/
  reaches : ∀ m : RawMatch, m.whole.isEmpty → ¬ Utf8.CutShort text m.whole.stop →
    ∀ j b, m.whole.stop < j → text[j]? = some b → ¬ Utf8.Continues b →
      (Cursor.after text m).position ≤ j

theorem stepsAlong (text : Bytes) : StepsAlong text where
  moves i hi := by
    refine ⟨Utf8.lt_next (Nat.le_of_lt hi), ?_⟩
    rw [Utf8.next_of_lt hi]
    exact Nat.min_le_right _ _
  passes i hi := Utf8.passes_continuations_iff hi
  unbroken htext i := by
    obtain ⟨cs, hcs⟩ := Option.isSome_iff_exists.1 htext
    rw [← Utf8.decode?_eq_some_iff.1 hcs]
    exact Utf8.not_cutShort_encode cs i
  reaches m he hcut j b hj hb hcontinues := by
    obtain ⟨hjlen, -⟩ := List.getElem?_eq_some_iff.1 hb
    have hpasses := (Utf8.passes_continuations_iff (Nat.lt_trans hj hjlen)).2 hcut
    rw [Cursor.after, if_pos he]
    exact Nat.le_of_not_lt fun hlt => hcontinues (hpasses j b hj hlt hb)

/-- The first byte of a three-byte character, and then two letters. -/
def brokenOff : Bytes := [0xE2, 0x61, 0x62]

/-- An `a` or nothing. -/
def optionalLetter : Pattern :=
  ⟨Bytes.ofString "a?", Engine.tableMatcher []
    [(brokenOff, [⟨⟨0, 0⟩, []⟩, ⟨⟨1, 2⟩, []⟩, ⟨⟨2, 2⟩, []⟩, ⟨⟨3, 3⟩, []⟩])]⟩

/-- The step from the broken character passes over both letters, and the match at the first one is
lost. -/
theorem letter_passed_over :
    (¬ ∀ (text : Bytes) (i : Nat), i < text.length → ∀ j b, i < j → j < Utf8.next text i →
      text[j]? = some b → Utf8.Continues b) ∧
      optionalLetter.find? brokenOff 1 = some ⟨⟨1, 2⟩, []⟩ ∧
      optionalLetter.findAll brokenOff = [⟨⟨0, 0⟩, []⟩, ⟨⟨3, 3⟩, []⟩] := by
  refine ⟨fun h => ?_, by decide +kernel, by with_unfolding_all rfl⟩
  exact absurd (h brokenOff 0 (by decide) 1 0x61 (by decide) (by decide) rfl) (by decide)

end NestedMatch
