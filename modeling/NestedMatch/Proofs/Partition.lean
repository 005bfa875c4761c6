import NestedMatch.MatchTree
import NestedMatch.Residue
import NestedMatch.Proofs.Order

/-! The top-level matches of a text and its residue take the text apart: merged in document order
they stand end to end, so that every byte lies in exactly one of them and none is lost. -/

namespace NestedMatch

namespace Span

/-- Document order: by start, and of two stretches that start together the shorter one first. -/
def before (s t : Span) : Bool := s.start < t.start || (s.start == t.start && s.stop ≤ t.stop)

/-- The stretches stand end to end from `lo` to `hi`. -/
def Tiles (lo hi : Nat) : List Span → Prop
  | [] => lo = hi
  | s :: rest => s.start = lo ∧ s.start ≤ s.stop ∧ Tiles s.stop hi rest

theorem before_iff {s t : Span} :
    s.before t = true ↔ s.start < t.start ∨ (s.start = t.start ∧ s.stop ≤ t.stop) := by
  simp [before]

theorem before_of_stop_le {s t : Span} (hs : s.start ≤ s.stop) (ht : t.start ≤ t.stop)
    (h : s.stop ≤ t.start) : s.before t = true := by
  rw [before_iff]
  omega

theorem le_of_tiles {lo hi : Nat} {spans : List Span} (h : Tiles lo hi spans) : lo ≤ hi := by
  induction spans generalizing lo with
  | nil => exact Nat.le_of_eq h
  | cons s rest ih =>
    obtain ⟨h₁, h₂, h₃⟩ := h
    have := ih h₃
    omega

theorem bounds_of_tiles {lo hi : Nat} {spans : List Span} (h : Tiles lo hi spans) {t : Span}
    (ht : t ∈ spans) : lo ≤ t.start ∧ t.start ≤ t.stop ∧ t.stop ≤ hi := by
  induction spans generalizing lo with
  | nil => simp at ht
  | cons s rest ih =>
    obtain ⟨h₁, h₂, h₃⟩ := h
    rcases List.mem_cons.1 ht with rfl | ht
    · have := le_of_tiles h₃
      omega
    · have := ih h₃ ht
      omega

theorem pairwise_before_of_tiles {lo hi : Nat} {spans : List Span} (h : Tiles lo hi spans) :
    spans.Pairwise fun s t => s.before t = true := by
  induction spans generalizing lo with
  | nil => exact List.Pairwise.nil
  | cons s rest ih =>
    obtain ⟨-, h₂, h₃⟩ := h
    refine List.pairwise_cons.2 ⟨fun t ht => ?_, ih h₃⟩
    obtain ⟨h₄, h₅, -⟩ := bounds_of_tiles h₃ ht
    exact before_of_stop_le h₂ h₅ h₄

theorem countP_covers_of_tiles {lo hi i : Nat} {spans : List Span} (h : Tiles lo hi spans)
    (hlo : lo ≤ i) (hhi : i < hi) : spans.countP (fun s => s.Covers i) = 1 := by
  induction spans generalizing lo with
  | nil =>
    have : lo = hi := h
    omega
  | cons s rest ih =>
    obtain ⟨h₁, h₂, h₃⟩ := h
    rcases Nat.lt_or_ge i s.stop with hi' | hi'
    · have hs : s.Covers i := ⟨by omega, hi'⟩
      have hrest : rest.countP (fun t => t.Covers i) = 0 := by
        rw [List.countP_eq_zero]
        intro t ht hc
        obtain ⟨hc, -⟩ : t.Covers i := by simpa using hc
        have := bounds_of_tiles h₃ ht
        omega
      simp [hs, hrest]
    · have hs : ¬ s.Covers i := fun hc => by have := hc.2; omega
      simpa [hs] using ih h₃ hi'

theorem flatMap_cut_of_tiles {text : Bytes} {lo : Nat} {spans : List Span}
    (h : Tiles lo text.length spans) : (spans.flatMap fun s => s.cut text) = text.drop lo := by
  induction spans generalizing lo with
  | nil =>
    have : lo = text.length := h
    simp [this]
  | cons s rest ih =>
    obtain ⟨rfl, h₂, h₃⟩ := h
    have hdrop : text.drop s.stop = (text.drop s.start).drop s.size := by
      rw [List.drop_drop, size, Nat.add_sub_cancel' h₂]
    rw [List.flatMap_cons, ih h₃, hdrop, cut, List.take_append_drop]

end Span

/-- Matches and residue in document order. -/
def pieces (found residue : List Span) : List Span := found.merge residue Span.before

theorem pieces_nil (residue : List Span) : pieces [] residue = residue := by simp [pieces]

/-- Matches and residue together take the text apart. -/
structure Partition (text : Bytes) (found residue : List Span) : Prop where
  ordered : (pieces found residue).Pairwise fun s t => s.before t = true
  covered : ∀ i < text.length, (pieces found residue).countP (fun s => s.Covers i) = 1
  rebuilt : ((pieces found residue).flatMap fun s => s.cut text) = text
  nonempty : ∀ s ∈ residue, s.start < s.stop
  inside : ∀ s ∈ residue, s.stop ≤ text.length
  ascending : residue.Pairwise fun s t => s.start < t.start
  /-- Not even an empty match stands inside a stretch of the residue. -/
  apart : ∀ s ∈ residue, ∀ t ∈ found, t.stop ≤ s.start ∨ s.stop ≤ t.start
  touching : ∀ s ∈ residue, ∀ t ∈ residue, s.stop = t.start → ⟨s.stop, s.stop⟩ ∈ found

namespace Residue

theorem mem_gaps_nil {text : Bytes} {i : Nat} {s : Span} :
    s ∈ gaps text i [] ↔ i < text.length ∧ s = ⟨i, text.length⟩ := by
  rw [gaps_nil]
  by_cases hi : i < text.length <;> simp [hi]

theorem mem_gaps_cons {text : Bytes} {i : Nat} {m : RawMatch} {rest : List RawMatch} {s : Span} :
    s ∈ gaps text i (m :: rest) ↔
      (i ≠ m.whole.start ∧ s = ⟨i, m.whole.start⟩) ∨ s ∈ gaps text m.whole.stop rest := by
  rw [gaps_cons]
  by_cases hi : i = m.whole.start <;> simp [hi]

theorem mem_gaps {text : Bytes} {i : Nat} {ms : List RawMatch} (h : InOrder text i ms) {s : Span}
    (hs : s ∈ gaps text i ms) : i ≤ s.start ∧ s.start < s.stop ∧ s.stop ≤ text.length := by
  induction ms generalizing i with
  | nil =>
    obtain ⟨hi, rfl⟩ := mem_gaps_nil.1 hs
    exact ⟨Nat.le_refl _, hi, Nat.le_refl _⟩
  | cons m rest ih =>
    obtain ⟨⟨h₁, h₂, h₃⟩, hrest⟩ := h
    rcases mem_gaps_cons.1 hs with ⟨hne, rfl⟩ | hs
    · dsimp only
      omega
    · have := ih hrest hs
      omega

theorem pairwise_gaps {text : Bytes} {i : Nat} {ms : List RawMatch} (h : InOrder text i ms) :
    (gaps text i ms).Pairwise fun s t => s.start < t.start := by
  induction ms generalizing i with
  | nil =>
    rw [gaps_nil]
    split <;> simp
  | cons m rest ih =>
    obtain ⟨⟨h₁, h₂, -⟩, hrest⟩ := h
    rw [gaps_cons]
    split
    · exact ih hrest
    · refine List.pairwise_cons.2 ⟨fun t ht => ?_, ih hrest⟩
      have := mem_gaps hrest ht
      dsimp only
      omega

theorem gaps_apart {text : Bytes} {i : Nat} {ms : List RawMatch} (h : InOrder text i ms) {s : Span}
    (hs : s ∈ gaps text i ms) {m : RawMatch} (hm : m ∈ ms) :
    m.whole.stop ≤ s.start ∨ s.stop ≤ m.whole.start := by
  induction ms generalizing i with
  | nil => simp at hm
  | cons first rest ih =>
    obtain ⟨⟨-, h₂, -⟩, hrest⟩ := h
    rcases mem_gaps_cons.1 hs with ⟨-, rfl⟩ | hs
    · right
      rcases List.mem_cons.1 hm with rfl | hm
      · exact Nat.le_refl _
      · exact Nat.le_trans h₂ (hrest.within_of_mem hm).1
    · rcases List.mem_cons.1 hm with rfl | hm
      · exact .inl (mem_gaps hrest hs).1
      · exact ih hrest hs hm

/-- Only an empty match comes between two stretches of residue that touch. -/
theorem gaps_touching {text : Bytes} {i : Nat} {ms : List RawMatch} (h : InOrder text i ms)
    {s t : Span} (hs : s ∈ gaps text i ms) (ht : t ∈ gaps text i ms) (hst : s.stop = t.start) :
    ⟨s.stop, s.stop⟩ ∈ ms.map RawMatch.whole := by
  have hs' := mem_gaps h hs
  have ht' := mem_gaps h ht
  induction ms generalizing i with
  | nil =>
    obtain ⟨-, rfl⟩ := mem_gaps_nil.1 ht
    dsimp only at hst
    omega
  | cons m rest ih =>
    obtain ⟨⟨h₁, h₂, -⟩, hrest⟩ := h
    rcases mem_gaps_cons.1 hs with ⟨-, rfl⟩ | hs
    · rcases mem_gaps_cons.1 ht with ⟨-, rfl⟩ | ht
      · dsimp only at hst hs'
        omega
      · -- the match after the first gap starts where the gap stops and stops before `t` starts
        have := mem_gaps hrest ht
        dsimp only at hst ⊢
        have he : m.whole.stop = m.whole.start := by omega
        have hm : m.whole = ⟨m.whole.start, m.whole.start⟩ :=
          congrArg (Span.mk m.whole.start) he
        exact hm ▸ List.mem_cons_self
    · have hs' := mem_gaps hrest hs
      rcases mem_gaps_cons.1 ht with ⟨-, rfl⟩ | ht
      · dsimp only at hst
        omega
      · exact List.mem_cons_of_mem _ (ih hrest hs ht hs' (mem_gaps hrest ht))

theorem pieces_cons {s : Span} {found residue : List Span}
    (h : ∀ t ∈ residue, s.before t = true) :
    pieces (s :: found) residue = s :: pieces found residue := by
  cases residue with
  | nil => simp [pieces]
  | cons t rest => rw [pieces, List.cons_merge_cons, if_pos (h t List.mem_cons_self), pieces]

theorem pieces_gaps_cons {text : Bytes} {i : Nat} {m : RawMatch} {rest : List RawMatch}
    (h : InOrder text i (m :: rest)) :
    pieces ((m :: rest).map RawMatch.whole) (gaps text i (m :: rest)) =
      (if i = m.whole.start then [] else [⟨i, m.whole.start⟩]) ++
        m.whole :: pieces (rest.map RawMatch.whole) (gaps text m.whole.stop rest) := by
  obtain ⟨⟨h₁, h₂, -⟩, hrest⟩ := h
  have later : pieces ((m :: rest).map RawMatch.whole) (gaps text m.whole.stop rest) =
      m.whole :: pieces (rest.map RawMatch.whole) (gaps text m.whole.stop rest) := by
    refine pieces_cons fun t ht => ?_
    obtain ⟨h₃, h₄, -⟩ := mem_gaps hrest ht
    exact Span.before_of_stop_le h₂ (Nat.le_of_lt h₄) h₃
  rw [gaps_cons]
  split
  · exact later
  · have hgap : ¬ m.whole.before ⟨i, m.whole.start⟩ = true := by
      rw [Span.before_iff]
      dsimp only
      omega
    rw [← later, pieces, List.map_cons, List.cons_merge_cons, if_neg hgap]
    rfl

theorem tiles_pieces_gaps {text : Bytes} {i : Nat} {ms : List RawMatch} (h : InOrder text i ms) :
    Span.Tiles i text.length (pieces (ms.map RawMatch.whole) (gaps text i ms)) := by
  induction ms generalizing i with
  | nil =>
    have hi := h.le
    rw [List.map_nil, pieces_nil, gaps_nil]
    split
    · exact ⟨rfl, hi, rfl⟩
    · exact Nat.le_antisymm hi (Nat.le_of_not_lt ‹_›)
  | cons m rest ih =>
    rw [pieces_gaps_cons h]
    obtain ⟨⟨h₁, h₂, -⟩, hrest⟩ := h
    split
    · exact ⟨Eq.symm ‹_›, h₂, ih hrest⟩
    · exact ⟨rfl, h₁, rfl, h₂, ih hrest⟩

theorem partition_gaps {text : Bytes} {ms : List RawMatch} (h : InOrder text 0 ms) :
    Partition text (ms.map RawMatch.whole) (gaps text 0 ms) := by
  have htiles := tiles_pieces_gaps h
  exact
    { ordered := Span.pairwise_before_of_tiles htiles
      covered := fun i hi => Span.countP_covers_of_tiles htiles (Nat.zero_le i) hi
      rebuilt := by rw [Span.flatMap_cut_of_tiles htiles, List.drop_zero]
      nonempty := fun s hs => (mem_gaps h hs).2.1
      inside := fun s hs => (mem_gaps h hs).2.2
      ascending := pairwise_gaps h
      apart := by
        intro s hs t ht
        obtain ⟨m, hm, rfl⟩ := List.mem_map.1 ht
        exact gaps_apart h hs hm
      touching := fun s hs t ht hst => gaps_touching h hs ht hst }

end Residue

theorem PatternTree.spans_occurrences (tree : PatternTree) (text : Bytes) (k : Nat) :
    (tree.occurrences text k).map (fun o => o.whole.span) =
      (tree.pattern.findAll text).map fun m => m.whole.shift k := by
  obtain ⟨p, branches⟩ := tree
  simp [occurrences, Pattern.findAllAt, RawMatch.shift, Span.capture]

/-- Whatever the engine answers, the top-level matches of a text and its residue take the text
apart: answers that do not lie in the text after the start of the search count as none. -/
theorem matches_and_residue_partition (tree : PatternTree) (text : Bytes) :
    Partition text ((tree.occurrences text 0).map fun o => o.whole.span)
      (Residue.spans tree.pattern text) := by
  have h := Residue.partition_gaps (tree.pattern.inOrder_findAll text)
  rw [tree.spans_occurrences text 0, Residue.spans, Residue.remaining_eq_gaps]
  exact h

end NestedMatch
