import NestedMatch.MatchTree
import NestedMatch.Residue
import NestedMatch.Proofs.Order

/-! Matching ends, and soon. Calls are described as executions of their loops, each with the
positions where the engine was asked on the way: an execution is finite, so a call that has one
returns. The positions of one iterator ascend from its first search to the end of the text, whatever
the engine answers, which bounds the number of searches over its whole life. -/

namespace NestedMatch

/-- Positions at or after `lo` and below `hi`, each greater than the one before. -/
def Ascends (lo hi : Nat) : List Nat → Prop
  | [] => lo ≤ hi
  | i :: rest => lo ≤ i ∧ Ascends (i + 1) hi rest

namespace Ascends

variable {lo lo' hi hi' mid : Nat} {is js : List Nat}

theorem mono (h : Ascends lo hi is) (hlo : lo' ≤ lo) (hhi : hi ≤ hi') : Ascends lo' hi' is := by
  induction is generalizing lo lo' with
  | nil => exact Nat.le_trans hlo (Nat.le_trans h hhi)
  | cons i rest ih => exact ⟨Nat.le_trans hlo h.1, ih h.2 (Nat.le_refl _)⟩

theorem append (h : Ascends lo mid is) (h' : Ascends mid hi js) : Ascends lo hi (is ++ js) := by
  induction is generalizing lo with
  | nil => exact h'.mono h (Nat.le_refl _)
  | cons i rest ih => exact ⟨h.1, ih h.2⟩

theorem length_add_le (h : Ascends lo hi is) : is.length + lo ≤ hi := by
  induction is generalizing lo with
  | nil =>
    have : lo ≤ hi := h
    simpa using this
  | cons i rest ih =>
    obtain ⟨hlo, hrest⟩ := h
    have := ih hrest
    rw [List.length_cons]
    omega

theorem bounds_of_mem (h : Ascends lo hi is) {i : Nat} (hmem : i ∈ is) : lo ≤ i ∧ i < hi := by
  induction is generalizing lo with
  | nil => simp at hmem
  | cons j rest ih =>
    obtain ⟨hj, hrest⟩ := h
    rcases List.mem_cons.1 hmem with rfl | hmem
    · have := hrest.length_add_le
      omega
    · have := ih hrest hmem
      omega

theorem pairwise_lt (h : Ascends lo hi is) : is.Pairwise (· < ·) := by
  induction is generalizing lo with
  | nil => exact List.Pairwise.nil
  | cons i rest ih =>
    refine List.pairwise_cons.2 ⟨fun j hj => ?_, ih h.2⟩
    exact (h.2.bounds_of_mem hj).1

end Ascends

namespace Cursor

variable {p : Pattern} {text : Bytes} {c d : Cursor} {asked : List Nat} {a : Option RawMatch}

/-- A call of `next` from a cursor: where the engine was asked, the answer and the cursor left. -/
inductive Call (p : Pattern) (text : Bytes) :
    Cursor → List Nat → Option RawMatch → Cursor → Prop
  | ended {c : Cursor} : text.length < c.position → Call p text c [] none (c.past text)
  | nothing {c : Cursor} : c.position ≤ text.length → p.find? text c.position = none →
    Call p text c [c.position] none (c.past text)
  /-- An empty match where the last one stopped is passed over, and the loop goes on. -/
  | passed {c d : Cursor} {m : RawMatch} {asked : List Nat} {a : Option RawMatch} :
    c.position ≤ text.length → p.find? text c.position = some m → m.whole.isEmpty →
      c.lastStop = some m.whole.stop → Call p text (after text m) asked a d →
        Call p text c (c.position :: asked) a d
  | reported {c : Cursor} {m : RawMatch} : c.position ≤ text.length →
    p.find? text c.position = some m → ¬ (m.whole.isEmpty ∧ c.lastStop = some m.whole.stop) →
      Call p text c [c.position] (some m) (after text m)

/-- Calls of `next`, one after the other: where the engine was asked in all of them. -/
inductive Calls (p : Pattern) (text : Bytes) :
    Cursor → List Nat → List (Option RawMatch) → Cursor → Prop
  | nil (c : Cursor) : Calls p text c [] [] c
  | cons {c d e : Cursor} {asked rest : List Nat} {a : Option RawMatch}
    {answers : List (Option RawMatch)} : Call p text c asked a d →
      Calls p text d rest answers e → Calls p text c (asked ++ rest) (a :: answers) e

/-- Calls of `next` until one gives nothing. -/
inductive Drains (p : Pattern) (text : Bytes) : Cursor → List Nat → List RawMatch → Prop
  | nil {c d : Cursor} {asked : List Nat} : Call p text c asked none d → Drains p text c asked []
  | cons {c d : Cursor} {asked rest : List Nat} {m : RawMatch} {ms : List RawMatch} :
    Call p text c asked (some m) d → Drains p text d rest ms →
      Drains p text c (asked ++ rest) (m :: ms)

theorem Call.next_eq (h : Call p text c asked a d) : c.next p text = (a, d) := by
  induction h with
  | ended hc => exact next_of_finished (search_of_lt hc)
  | nothing _ hm => exact next_of_finished (search_of_none hm)
  | passed hc hm he hlast _ ih => rw [next_of_skipped (search_of_skip hc hm ⟨he, hlast⟩), ih]
  | reported hc hm h => exact next_of_found (search_of_report hc hm h)

/-- Each pass of the loop leaves less of the text to search. -/
theorem exists_call (p : Pattern) (text : Bytes) (c : Cursor) :
    ∃ asked, Call p text c asked (c.next p text).1 (c.next p text).2 := by
  fun_induction next p text c with
  | case1 c h =>
    rcases Nat.lt_or_ge text.length c.position with hc | hc
    · exact ⟨[], .ended hc⟩
    · exact ⟨_, .nothing hc ((of_search_finished h).resolve_left (Nat.not_lt.2 hc))⟩
  | case2 c d h ih =>
    obtain ⟨asked, hcall⟩ := ih
    obtain ⟨m, hm, rfl, he, hlast⟩ := of_search_skipped h
    exact ⟨_, .passed (position_lt_of_skipped h).2 hm he hlast hcall⟩
  | case3 c m d h =>
    obtain ⟨hm, rfl, hne⟩ := of_search_found h
    exact ⟨_, .reported (position_lt_of_found h).2 hm hne⟩

theorem exists_call_iff : (∃ asked, Call p text c asked a d) ↔ c.next p text = (a, d) := by
  constructor
  · rintro ⟨asked, h⟩
    exact h.next_eq
  · intro h
    have hcall := exists_call p text c
    rwa [h] at hcall

theorem position_after_le_of_find? {m : RawMatch} {i : Nat} (h : p.find? text i = some m) :
    (after text m).position ≤ text.length + 1 := by
  obtain ⟨-, -, hstop⟩ := Pattern.within_of_find? h
  unfold after
  split
  · exact Utf8.next_le text m.whole.stop
  · exact Nat.le_succ_of_le hstop

theorem Call.ascends (h : Call p text c asked a d) (hc : c.position ≤ text.length + 1) :
    Ascends c.position d.position asked ∧ d.position ≤ text.length + 1 := by
  induction h with
  | ended => exact ⟨hc, Nat.le_refl _⟩
  | nothing hle => exact ⟨⟨Nat.le_refl _, Nat.succ_le_succ hle⟩, Nat.le_refl _⟩
  | passed hle hm _ _ _ ih =>
    obtain ⟨hasked, hd⟩ := ih (position_after_le_of_find? hm)
    have hlt := (position_lt_of_find? hm).1
    exact ⟨⟨Nat.le_refl _, hasked.mono hlt (Nat.le_refl _)⟩, hd⟩
  | reported hle hm =>
    exact ⟨⟨Nat.le_refl _, (position_lt_of_find? hm).1⟩, position_after_le_of_find? hm⟩

/-- A match is the answer to a search. -/
theorem Call.length_toList_le (h : Call p text c asked a d) : a.toList.length ≤ asked.length := by
  induction h with
  | ended | nothing | reported => simp
  | passed _ _ _ _ _ ih => exact Nat.le_succ_of_le ih

theorem Calls.ascends {answers : List (Option RawMatch)} (h : Calls p text c asked answers d)
    (hc : c.position ≤ text.length + 1) :
    Ascends c.position d.position asked ∧ d.position ≤ text.length + 1 := by
  induction h with
  | nil => exact ⟨Nat.le_refl _, hc⟩
  | cons hcall _ ih =>
    obtain ⟨hasked, hd⟩ := hcall.ascends hc
    obtain ⟨hrest, he⟩ := ih hd
    exact ⟨hasked.append hrest, he⟩

theorem Calls.length_found_le {answers : List (Option RawMatch)}
    (h : Calls p text c asked answers d) : (answers.filterMap id).length ≤ asked.length := by
  induction h with
  | nil => exact Nat.le_refl _
  | @cons _ _ _ asked _ a answers hcall _ ih =>
    have hsplit : (a :: answers).filterMap id = a.toList ++ answers.filterMap id := by
      cases a <;> rfl
    rw [hsplit, List.length_append, List.length_append]
    exact Nat.add_le_add hcall.length_toList_le ih

theorem exists_calls (p : Pattern) (text : Bytes) (n : Nat) (c : Cursor) :
    ∃ asked d, Calls p text c asked (answers p text n c) d := by
  induction n generalizing c with
  | zero => exact ⟨[], c, .nil c⟩
  | succ n ih =>
    obtain ⟨asked, hcall⟩ := exists_call p text c
    obtain ⟨rest, d, hrest⟩ := ih (c.next p text).2
    exact ⟨_, d, .cons hcall hrest⟩

theorem exists_drains (p : Pattern) (text : Bytes) (c : Cursor) :
    ∃ asked, Drains p text c asked (c.remaining p text) := by
  induction hn : text.length + 1 - c.position using Nat.strongRecOn generalizing c with
  | _ n ih =>
    obtain ⟨asked, hcall⟩ := exists_call p text c
    rw [remaining_eq_next]
    cases hnext : c.next p text with
    | mk a d =>
      rw [hnext] at hcall
      cases a with
      | none => exact ⟨asked, .nil hcall⟩
      | some m =>
        have hlt := position_lt_of_next hnext
        obtain ⟨rest, hrest⟩ := ih _ (by omega) d rfl
        exact ⟨_, .cons hcall hrest⟩

theorem Drains.remaining_eq {ms : List RawMatch} (h : Drains p text c asked ms) :
    c.remaining p text = ms := by
  induction h with
  | nil hcall => rw [remaining_eq_next, hcall.next_eq]
  | cons hcall _ ih => rw [remaining_eq_next, hcall.next_eq, ← ih]

end Cursor

namespace Residue

/-- A call of `next` on a residue: where the engine was asked, the stretch and the residue left. -/
inductive Call (p : Pattern) (text : Bytes) : Residue → List Nat → Option Span → Residue → Prop
  | tail {r : Residue} {d : Cursor} {asked : List Nat} : r.cursor.Call p text asked none d →
    r.position < text.length → Call p text r asked (some ⟨r.position, text.length⟩) (r.done text)
  | ended {r : Residue} {d : Cursor} {asked : List Nat} : r.cursor.Call p text asked none d →
    ¬ r.position < text.length → Call p text r asked none (r.done text)
  /-- Nothing lies in front of the match, and the loop goes on. -/
  | touching {r r' : Residue} {d : Cursor} {m : RawMatch} {asked rest : List Nat}
    {s : Option Span} : r.cursor.Call p text asked (some m) d → r.position = m.whole.start →
      Call p text ⟨d, m.whole.stop⟩ rest s r' → Call p text r (asked ++ rest) s r'
  | gap {r : Residue} {d : Cursor} {m : RawMatch} {asked : List Nat} :
    r.cursor.Call p text asked (some m) d → r.position ≠ m.whole.start →
      Call p text r asked (some ⟨r.position, m.whole.start⟩) ⟨d, m.whole.stop⟩

/-- Calls of `next` until one gives nothing. -/
inductive Drains (p : Pattern) (text : Bytes) : Residue → List Nat → List Span → Prop
  | nil {r r' : Residue} {asked : List Nat} : Call p text r asked none r' → Drains p text r asked []
  | cons {r r' : Residue} {asked rest : List Nat} {s : Span} {spans : List Span} :
    Call p text r asked (some s) r' → Drains p text r' rest spans →
      Drains p text r (asked ++ rest) (s :: spans)

variable {p : Pattern} {text : Bytes} {r r' : Residue} {asked : List Nat}

theorem next_of_none {d : Cursor} (h : r.cursor.next p text = (none, d)) :
    r.next p text =
      (if r.position < text.length then some ⟨r.position, text.length⟩ else none, r.done text) := by
  rw [next]
  split <;> simp_all

theorem next_of_touching {d : Cursor} {m : RawMatch} (h : r.cursor.next p text = (some m, d))
    (hm : r.position = m.whole.start) : r.next p text = next p text ⟨d, m.whole.stop⟩ := by
  rw [next]
  split <;> simp_all

theorem next_of_gap {d : Cursor} {m : RawMatch} (h : r.cursor.next p text = (some m, d))
    (hm : r.position ≠ m.whole.start) :
    r.next p text = (some ⟨r.position, m.whole.start⟩, ⟨d, m.whole.stop⟩) := by
  rw [next]
  split <;> simp_all

theorem Call.next_eq {s : Option Span} (h : Call p text r asked s r') :
    r.next p text = (s, r') := by
  induction h with
  | tail hcall hlt => rw [next_of_none hcall.next_eq, if_pos hlt]
  | ended hcall hge => rw [next_of_none hcall.next_eq, if_neg hge]
  | touching hcall hm _ ih => rw [next_of_touching hcall.next_eq hm, ih]
  | gap hcall hm => exact next_of_gap hcall.next_eq hm

theorem exists_call (p : Pattern) (text : Bytes) (r : Residue) :
    ∃ asked, Call p text r asked (r.next p text).1 (r.next p text).2 := by
  fun_induction next p text r with
  | case1 r d h =>
    obtain ⟨asked, hcall⟩ := Cursor.exists_call_iff.2 h
    split
    · exact ⟨asked, .tail hcall ‹_›⟩
    · exact ⟨asked, .ended hcall ‹_›⟩
  | case2 r m d h hm ih =>
    obtain ⟨asked, hcall⟩ := Cursor.exists_call_iff.2 h
    obtain ⟨rest, hrest⟩ := ih
    exact ⟨_, .touching hcall hm hrest⟩
  | case3 r m d h hm =>
    obtain ⟨asked, hcall⟩ := Cursor.exists_call_iff.2 h
    exact ⟨asked, .gap hcall hm⟩

theorem exists_drains (p : Pattern) (text : Bytes) (r : Residue) :
    ∃ asked, Drains p text r asked (r.remaining p text) := by
  fun_induction remaining p text r with
  | case1 r r' h =>
    obtain ⟨asked, hcall⟩ := exists_call p text r
    rw [h] at hcall
    exact ⟨asked, .nil hcall⟩
  | case2 r s r' h ih =>
    obtain ⟨asked, hcall⟩ := exists_call p text r
    rw [h] at hcall
    obtain ⟨rest, hrest⟩ := ih
    exact ⟨_, .cons hcall hrest⟩

theorem Drains.remaining_eq {spans : List Span} (h : Drains p text r asked spans) :
    r.remaining p text = spans := by
  induction h with
  | nil hcall => exact remaining_of_none hcall.next_eq
  | cons hcall _ ih => rw [remaining_of_some hcall.next_eq, ih]

theorem Call.ascends {s : Option Span} (h : Call p text r asked s r')
    (hr : r.cursor.position ≤ text.length + 1) :
    Ascends r.cursor.position r'.cursor.position asked ∧
      r'.cursor.position ≤ text.length + 1 := by
  induction h with
  | tail hcall | ended hcall =>
    obtain ⟨hasked, hd⟩ := hcall.ascends hr
    exact ⟨hasked.mono (Nat.le_refl _) hd, Nat.le_refl _⟩
  | touching hcall _ _ ih =>
    obtain ⟨hasked, hd⟩ := hcall.ascends hr
    obtain ⟨hrest, hr'⟩ := ih hd
    exact ⟨hasked.append hrest, hr'⟩
  | gap hcall => exact hcall.ascends hr

theorem Drains.ascends {spans : List Span} (h : Drains p text r asked spans)
    (hr : r.cursor.position ≤ text.length + 1) :
    Ascends r.cursor.position (text.length + 1) asked := by
  induction h with
  | nil hcall =>
    obtain ⟨hasked, hr'⟩ := hcall.ascends hr
    exact hasked.mono (Nat.le_refl _) hr'
  | cons hcall _ ih =>
    obtain ⟨hasked, hr'⟩ := hcall.ascends hr
    exact hasked.append (ih hr')

end Residue

namespace PatternTree

/-- Matching a text that begins at position `k`: the run of the tree's pattern comes to its end,
and so does below each match the matching of every child in what its group captured. -/
inductive Finds : PatternTree → Bytes → Nat → MatchTree → Prop
  | node {p : Pattern} {bs : List (Bytes × PatternTree)} {text : Bytes} {k : Nat}
    {asked : List Nat} {ms : List RawMatch} {below : RawMatch → Bytes × PatternTree → MatchTree} :
    Cursor.first.Drains p text asked ms →
      (∀ m ∈ ms.map (RawMatch.shift k), ∀ b ∈ bs, ∀ c, capturedBy p m text k b.1 = some c →
        Finds b.2 c.text c.span.start (below m b)) →
      Finds (.node p bs) text k ((ms.map (RawMatch.shift k)).map fun m =>
        ⟨m.whole.capture text k, captures p m text k,
          bs.map fun b => (b.1, (capturedBy p m text k b.1).map fun _ => below m b)⟩)

theorem Finds.occurrences_eq {t : PatternTree} {text : Bytes} {k : Nat} {tree : MatchTree}
    (h : Finds t text k tree) : t.occurrences text k = tree := by
  induction h with
  | @node p bs text k asked ms below hdrains _ ih =>
    rw [occurrences, Pattern.findAllAt, Pattern.findAll, hdrains.remaining_eq]
    refine List.map_congr_left fun m hm => ?_
    rw [branchOccurrences_eq]
    congr 1
    refine List.map_congr_left fun b hb => ?_
    cases hc : capturedBy p m text k b.1 with
    | none => rfl
    | some c => rw [Option.map_some, Option.map_some, ih m hm b hb c hc]

/-- What a match gives for a child; nothing where its group took no part. -/
def foundBelow (p : Pattern) (text : Bytes) (k : Nat) (m : RawMatch) (b : Bytes × PatternTree) :
    MatchTree :=
  ((capturedBy p m text k b.1).map fun c => occurrences b.2 c.text c.span.start).getD []

theorem finds_occurrences (t : PatternTree) (text : Bytes) (k : Nat) :
    Finds t text k (t.occurrences text k) := by
  induction t using NamedTree.induct generalizing text k with
  | node p bs ih =>
    obtain ⟨asked, hdrains⟩ := Cursor.exists_drains p text .first
    have hbelow : ∀ m ∈ (p.findAll text).map (RawMatch.shift k), ∀ b ∈ bs, ∀ c,
        capturedBy p m text k b.1 = some c →
          Finds b.2 c.text c.span.start (foundBelow p text k m b) := by
      intro m _ b hb c hc
      rw [foundBelow, hc]
      exact ih b hb c.text c.span.start
    have hfinds := Finds.node hdrains hbelow
    rwa [← hfinds.occurrences_eq] at hfinds

end PatternTree

/-- Matching a text comes to its end within as many searches as the text has positions. -/
structure EndsSoon (t : PatternTree) (text : Bytes) (k : Nat) : Prop where
  returns : ∀ c a d,
    (∃ asked, Cursor.Call t.pattern text c asked a d) ↔ c.next t.pattern text = (a, d)
  advances : ∀ c d : Cursor, (c.search t.pattern text = .skipped d ∨
    ∃ m, c.search t.pattern text = .found m d) → c.position < d.position
  /-- Any number of calls, one after the other, is an execution. -/
  lives : ∀ n, ∃ asked d,
    Cursor.first.Calls t.pattern text asked (Cursor.first.answers t.pattern text n) d
  ascending : ∀ asked answers d, Cursor.first.Calls t.pattern text asked answers d →
    asked.Pairwise (· < ·) ∧ ∀ i ∈ asked, i ≤ text.length
  searches_le : ∀ asked answers d, Cursor.first.Calls t.pattern text asked answers d →
    asked.length ≤ text.length + 1
  found_le : ∀ asked answers d, Cursor.first.Calls t.pattern text asked answers d →
    (answers.filterMap id).length ≤ text.length + 1
  /-- Matching the whole tree is an execution of nested loops, and has no other result. -/
  matches_end : ∀ tree, PatternTree.Finds t text k tree ↔ t.occurrences text k = tree
  residue_ends : ∀ spans, (∃ asked, Residue.first.Drains t.pattern text asked spans ∧
    asked.length ≤ text.length + 1) ↔ Residue.spans t.pattern text = spans

/-- Whatever the bytes of the text and whatever the engine answers. One iterator asks at no position
twice, so an engine that changes its mind between searches is no further case. -/
theorem matching_endsSoon (t : PatternTree) (text : Bytes) (k : Nat) : EndsSoon t text k := by
  have ascends {asked answers d} (h : Cursor.first.Calls t.pattern text asked answers d) :
      Ascends 0 (text.length + 1) asked := by
    obtain ⟨hasked, hd⟩ := h.ascends (Nat.zero_le _)
    exact hasked.mono (Nat.le_refl _) hd
  exact
    { returns := fun c a d => Cursor.exists_call_iff
      advances := by
        rintro c d (h | ⟨m, h⟩)
        · exact (Cursor.position_lt_of_skipped h).1
        · exact (Cursor.position_lt_of_found h).1
      lives := fun n => Cursor.exists_calls t.pattern text n .first
      ascending := fun asked answers d h =>
        ⟨(ascends h).pairwise_lt, fun i hi => Nat.le_of_lt_succ ((ascends h).bounds_of_mem hi).2⟩
      searches_le := fun asked answers d h => (ascends h).length_add_le
      found_le := fun asked answers d h =>
        Nat.le_trans h.length_found_le (ascends h).length_add_le
      matches_end := fun tree =>
        ⟨fun h => h.occurrences_eq, fun h => h ▸ PatternTree.finds_occurrences t text k⟩
      residue_ends := by
        intro spans
        constructor
        · rintro ⟨asked, h, -⟩
          exact h.remaining_eq
        · rintro rfl
          obtain ⟨asked, h⟩ := Residue.exists_drains t.pattern text .first
          exact ⟨asked, h, (h.ascends (Nat.zero_le _)).length_add_le⟩ }

end NestedMatch
