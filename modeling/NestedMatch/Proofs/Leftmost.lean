import Mathlib.Data.Nat.Find
import NestedMatch.Engine.Table
import NestedMatch.Proofs.Boundary
import NestedMatch.Proofs.Order

/-! A run of an engine that always answers the leftmost candidate reports every candidate that no
earlier match keeps out, and nothing else. What carries the proof along a run: a candidate at or
after the cursor is still to be reported, or kept out by a match still to be reported, or it is
empty and stands where the last match stopped. -/

namespace NestedMatch

/-- `table` has one candidate at each start at most, all of them on character boundaries, and a
search answers the candidate with the least start. -/
structure Leftmost (p : Pattern) (text : Bytes) (cs : List Char)
    (table : Nat → Option RawMatch) : Prop where
  start_eq : ∀ {i m}, table i = some m → m.whole.start = i
  start_le_stop : ∀ {i m}, table i = some m → m.whole.start ≤ m.whole.stop
  boundary_start : ∀ {i m}, table i = some m → Utf8.Boundary cs m.whole.start
  boundary_stop : ∀ {i m}, table i = some m → Utf8.Boundary cs m.whole.stop
  search_eq_some_iff : ∀ {i m}, i ≤ text.length →
    (p.matcher.search text i = some m ↔
      table m.whole.start = some m ∧ i ≤ m.whole.start ∧
        ∀ j, i ≤ j → j < m.whole.start → table j = none)

/-- `o` keeps `m` out: it covers the start of `m`, or `m` is empty and stands at the stop of `o`. -/
def RawMatch.Blocks (o m : RawMatch) : Prop :=
  o.whole.Covers m.whole.start ∨ (m.whole.isEmpty ∧ o.whole.stop = m.whole.start)

/-- The matches are the candidates that no other match keeps out, in the order of their starts. -/
structure Lossless (table : Nat → Option RawMatch) (ms : List RawMatch) : Prop where
  ordered : ms.Pairwise fun m o => m.whole.start < o.whole.start ∧ m.whole.stop ≤ o.whole.start
  mem_iff : ∀ m, m ∈ ms ↔
    table m.whole.start = some m ∧ ¬ ∃ o ∈ ms, o ≠ m ∧ o.Blocks m
  dropped : ∀ m, table m.whole.start = some m → m ∉ ms →
    ∃ o ∈ ms, o.whole.start < m.whole.start ∧ o.Blocks m

namespace Leftmost

variable {p : Pattern} {text : Bytes} {cs : List Char} {table : Nat → Option RawMatch}
variable {m f : RawMatch} {i : Nat}

theorem within (hvalid : Utf8.decode? text = some cs) (h : Leftmost p text cs table)
    (hm : table m.whole.start = some m) (hi : i ≤ m.whole.start) : m.Within text i := by
  have hstop := (h.boundary_stop hm).le
  rw [Utf8.decode?_eq_some_iff.1 hvalid] at hstop
  exact ⟨hi, h.start_le_stop hm, hstop⟩

/-- From any position up to a candidate the engine finds that candidate or one before it. -/
theorem exists_find? (hvalid : Utf8.decode? text = some cs) (h : Leftmost p text cs table)
    (hm : table m.whole.start = some m) (hi : i ≤ m.whole.start) :
    ∃ f, p.find? text i = some f ∧ f.whole.start ≤ m.whole.start := by
  have hex : ∃ j, i ≤ j ∧ (table j).isSome := ⟨m.whole.start, hi, by rw [hm]; rfl⟩
  obtain ⟨hle, hsome⟩ := Nat.find_spec hex
  obtain ⟨f, hf⟩ := Option.isSome_iff_exists.1 hsome
  have hstart := h.start_eq hf
  rw [← hstart] at hf hle
  have hwithin := h.within hvalid hf hle
  obtain ⟨-, h₁, h₂⟩ := h.within hvalid hm hi
  refine ⟨f, ?_, ?_⟩
  · have hsearch : p.matcher.search text i = some f := by
      apply (h.search_eq_some_iff (by omega)).2
      refine ⟨hf, hle, ?_⟩
      intro j hj hlt
      have := Nat.find_min hex (hstart ▸ hlt)
      simpa [hj] using this
    unfold Pattern.find?
    rw [hsearch]
    simpa using hwithin
  · rw [hstart]
    exact Nat.find_min' hex ⟨hi, by rw [hm]; rfl⟩

theorem candidate_of_find? (h : Leftmost p text cs table) (hf : p.find? text i = some f) :
    table f.whole.start = some f := by
  obtain ⟨h₁, h₂, h₃⟩ := Pattern.within_of_find? hf
  have hsearch := (Option.filter_eq_some_iff.1 hf).1
  exact ((h.search_eq_some_iff (by omega)).1 hsearch).1

/-- The step past a match does not go beyond a candidate that the match does not cover. -/
theorem position_after_le (hvalid : Utf8.decode? text = some cs) (h : Leftmost p text cs table)
    (hf : table f.whole.start = some f) (hm : table m.whole.start = some m)
    (hlt : f.whole.start < m.whole.start) (hcovers : ¬ f.whole.Covers m.whole.start) :
    (Cursor.after text f).position ≤ m.whole.start := by
  unfold Cursor.after
  cases he : f.whole.isEmpty with
  | true =>
    have hstop := Span.isEmpty_iff.1 he
    have := (h.boundary_stop hf).next_le (h.boundary_start hm) (by omega)
    rw [Utf8.decode?_eq_some_iff.1 hvalid] at this
    exact this
  | false =>
    apply Nat.le_of_not_lt
    intro hstop
    exact hcovers ⟨Nat.le_of_lt hlt, hstop⟩

theorem eq_or_start_lt (hvalid : Utf8.decode? text = some cs) (h : Leftmost p text cs table)
    (hf : p.find? text i = some f) (hm : table m.whole.start = some m) (hi : i ≤ m.whole.start) :
    f = m ∨ f.whole.start < m.whole.start := by
  obtain ⟨g, hg, hle⟩ := h.exists_find? hvalid hm hi
  obtain rfl : f = g := Option.some_inj.1 (hf.symm.trans hg)
  rcases Nat.eq_or_lt_of_le hle with heq | hlt
  · have hcand := h.candidate_of_find? hf
    rw [heq, hm] at hcand
    exact .inl (Option.some_inj.1 hcand).symm
  · exact .inr hlt

/-- A candidate from the cursor on is reported, or kept out by a match reported before it, or it
is empty where the last match stopped. -/
theorem mem_or_blocked (hvalid : Utf8.decode? text = some cs) (h : Leftmost p text cs table)
    {c : Cursor} (hm : table m.whole.start = some m) (hc : c.position ≤ m.whole.start) :
    m ∈ c.remaining p text ∨
      (∃ o ∈ c.remaining p text, o.whole.start < m.whole.start ∧ o.Blocks m) ∨
      (m.whole.isEmpty ∧ c.lastStop = some m.whole.start) := by
  fun_induction Cursor.remaining p text c with
  | case1 c hs =>
    obtain ⟨f, hf, -⟩ := h.exists_find? hvalid hm hc
    rcases Cursor.of_search_finished hs with hpos | hnone
    · obtain ⟨-, h₁, h₂⟩ := h.within hvalid hm hc
      omega
    · rw [hf] at hnone
      cases hnone
  | case2 c d hs ih =>
    obtain ⟨f, hf, rfl, he, hlast⟩ := Cursor.of_search_skipped hs
    have hstop := Span.isEmpty_iff.1 he
    rcases h.eq_or_start_lt hvalid hf hm hc with rfl | hlt
    · exact .inr (.inr ⟨he, by rw [hlast, hstop]⟩)
    · have hcovers : ¬ f.whole.Covers m.whole.start := by
        intro hcovers
        have := hcovers.2
        omega
      have hnext := h.position_after_le hvalid (h.candidate_of_find? hf) hm hlt hcovers
      rcases ih hnext with hmem | hblocked | ⟨-, hend⟩
      · exact .inl hmem
      · exact .inr (.inl hblocked)
      · have : f.whole.stop = m.whole.start := Option.some_inj.1 hend
        omega
  | case3 c f d hs ih =>
    obtain ⟨hf, rfl, -⟩ := Cursor.of_search_found hs
    rcases h.eq_or_start_lt hvalid hf hm hc with rfl | hlt
    · exact .inl List.mem_cons_self
    · by_cases hcovers : f.whole.Covers m.whole.start
      · exact .inr (.inl ⟨f, List.mem_cons_self, hlt, .inl hcovers⟩)
      · have hnext := h.position_after_le hvalid (h.candidate_of_find? hf) hm hlt hcovers
        rcases ih hnext with hmem | ⟨o, ho, hblocks⟩ | ⟨he, hend⟩
        · exact .inl (List.mem_cons_of_mem _ hmem)
        · exact .inr (.inl ⟨o, List.mem_cons_of_mem _ ho, hblocks⟩)
        · exact .inr (.inl ⟨f, List.mem_cons_self, hlt, .inr ⟨he, Option.some_inj.1 hend⟩⟩)

theorem dropped (hvalid : Utf8.decode? text = some cs) (h : Leftmost p text cs table)
    (hm : table m.whole.start = some m) (hnot : m ∉ p.findAll text) :
    ∃ o ∈ p.findAll text, o.whole.start < m.whole.start ∧ o.Blocks m := by
  rcases h.mem_or_blocked hvalid (c := Cursor.first) hm (Nat.zero_le _) with hmem | hblocked | hend
  · exact absurd hmem hnot
  · exact hblocked
  · have hend := hend.2
    cases hend

end Leftmost

theorem RawMatch.Precedes.not_blocks {m o : RawMatch} (h : m.Precedes o) : ¬ m.Blocks o := by
  intro hb
  rcases hb with hcovers | ⟨he, htouch⟩
  · have := hcovers.2
    have := h.1
    omega
  · rw [(h.2 htouch).2] at he
    cases he

theorem RawMatch.Precedes.not_blocked {m o : RawMatch} (h : m.Precedes o)
    (hm : m.whole.start ≤ m.whole.stop) (ho : o.whole.start ≤ o.whole.stop) : ¬ o.Blocks m := by
  have hlt := h.start_lt hm
  intro hb
  rcases hb with hcovers | ⟨-, htouch⟩
  · have := hcovers.1
    omega
  · omega

theorem Leftmost.lossless {p : Pattern} {text : Bytes} {cs : List Char}
    {table : Nat → Option RawMatch} (hvalid : Utf8.decode? text = some cs)
    (h : Leftmost p text cs table) : Lossless table (p.findAll text) := by
  have hin : ∀ m ∈ p.findAll text, m.Within text 0 := fun m hm =>
    (p.inOrder_findAll text).within_of_mem hm
  refine { ordered := ?_, mem_iff := ?_, dropped := fun m hm hnot => h.dropped hvalid hm hnot }
  · apply (Cursor.pairwise_remaining p text Cursor.first).imp_of_mem
    intro m o hm ho hmo
    exact ⟨hmo.start_lt (hin m hm).2.1, hmo.1⟩
  · intro m
    constructor
    · intro hm
      obtain ⟨i, hi⟩ := Cursor.exists_find?_of_mem_remaining hm
      refine ⟨h.candidate_of_find? hi, ?_⟩
      rintro ⟨o, ho, hne, hb⟩
      rcases Cursor.precedes_or_precedes ho hm hne with hom | hmo
      · exact hom.not_blocks hb
      · exact hmo.not_blocked (hin m hm).2.1 (hin o ho).2.1 hb
    · rintro ⟨hm, hfree⟩
      by_contra hnot
      obtain ⟨o, ho, hlt, hb⟩ := h.dropped hvalid hm hnot
      exact hfree ⟨o, ho, fun heq => by rw [heq] at hlt; omega, hb⟩

/-- Over a leftmost engine and valid UTF-8, the calls of an iterator report the candidates that no
other reported match keeps out, one after the other, and from then on nothing. -/
theorem findAll_lossless (p : Pattern) (text : Bytes) (cs : List Char)
    (table : Nat → Option RawMatch) (hvalid : Utf8.decode? text = some cs)
    (h : Leftmost p text cs table) :
    (∀ n, Cursor.first.answers p text n =
      ((p.findAll text).map some ++ List.replicate n none).take n) ∧
      Lossless table (p.findAll text) :=
  ⟨fun n => Cursor.answers_eq p text n Cursor.first, h.lossless hvalid⟩

theorem leftmost_tableMatcher {source text : Bytes} {cs : List Char} {names : List (Option Bytes)}
    {rows : List RawMatch} (hsorted : rows.Pairwise fun a b => a.whole.start < b.whole.start)
    (hle : ∀ row ∈ rows, row.whole.start ≤ row.whole.stop)
    (hboundary : ∀ row ∈ rows, Utf8.Boundary cs row.whole.start ∧ Utf8.Boundary cs row.whole.stop) :
    Leftmost ⟨source, Engine.tableMatcher names [(text, rows)]⟩ text cs (Engine.rowAt rows) where
  start_eq := Engine.start_of_rowAt
  start_le_stop hm := hle _ (List.mem_of_find?_eq_some hm)
  boundary_start hm := (hboundary _ (List.mem_of_find?_eq_some hm)).1
  boundary_stop hm := (hboundary _ (List.mem_of_find?_eq_some hm)).2
  search_eq_some_iff _ := by
    simpa [Engine.tableMatcher] using Engine.firstFrom_eq_some_iff hsorted

/-- An empty match is passed over after the letter, and one at the end of the text is reported. -/
def accentedRows : List RawMatch := [⟨⟨0, 1⟩, []⟩, ⟨⟨1, 1⟩, []⟩, ⟨⟨3, 3⟩, []⟩]

def accentedText : Bytes := Bytes.ofString "aé"

def accented : Pattern :=
  ⟨Bytes.ofString "a?", Engine.tableMatcher [] [(accentedText, accentedRows)]⟩

theorem boundary_accented {i : Nat} (h : i = 0 ∨ i = 1 ∨ i = 3) : Utf8.Boundary ['a', 'é'] i := by
  rcases h with rfl | rfl | rfl
  · exact ⟨[], by simp, rfl⟩
  · exact ⟨['a'], by simp, rfl⟩
  · exact ⟨['a', 'é'], by simp, rfl⟩

theorem leftmost_accented :
    Leftmost accented accentedText ['a', 'é'] (Engine.rowAt accentedRows) := by
  have hends : ∀ row ∈ accentedRows,
      (row.whole.start = 0 ∨ row.whole.start = 1 ∨ row.whole.start = 3) ∧
        (row.whole.stop = 0 ∨ row.whole.stop = 1 ∨ row.whole.stop = 3) := by decide
  apply leftmost_tableMatcher
  · decide
  · decide
  · intro row hrow
    obtain ⟨hstart, hstop⟩ := hends row hrow
    exact ⟨boundary_accented hstart, boundary_accented hstop⟩

theorem accented_lossless :
    Utf8.decode? accentedText = some ['a', 'é'] ∧
      Leftmost accented accentedText ['a', 'é'] (Engine.rowAt accentedRows) ∧
      Lossless (Engine.rowAt accentedRows) [⟨⟨0, 1⟩, []⟩, ⟨⟨3, 3⟩, []⟩] := by
  have hvalid : Utf8.decode? accentedText = some ['a', 'é'] := Utf8.decode?_eq_some_iff.2 rfl
  have hrun : accented.findAll accentedText = [⟨⟨0, 1⟩, []⟩, ⟨⟨3, 3⟩, []⟩] := by
    with_unfolding_all rfl
  refine ⟨hvalid, leftmost_accented, ?_⟩
  rw [← hrun]
  exact (findAll_lossless accented accentedText _ _ hvalid leftmost_accented).2

end NestedMatch
