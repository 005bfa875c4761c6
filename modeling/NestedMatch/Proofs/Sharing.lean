import NestedMatch.Residue.Stream

/-! Consumers of one residue get its stretches between them: each stretch goes to one of them, in
order, and nobody gets anything once one has been told that nothing is left. A run is followed from
any stream, so what is carried is the list of stretches that remain. -/

namespace NestedMatch.Residue

theorem exists_done_of_next_none {p : Pattern} {text : Bytes} {r r' : Residue}
    (h : r.next p text = (none, r')) : ∃ q : Residue, r' = q.done text := by
  fun_induction next p text r with
  | case1 r c hc => exact ⟨r, (congrArg Prod.snd h).symm⟩
  | case2 r m c hc hs ih => exact ih h
  | case3 r m c hc hs => cases h

/-- Taking one stretch takes the first one that remains, and leaves the others. -/
theorem next_eq_head? (p : Pattern) (text : Bytes) (r : Residue) :
    (r.next p text).1 = (r.remaining p text).head? ∧
      (r.next p text).2.remaining p text = (r.remaining p text).tail := by
  cases hr : r.next p text with
  | mk taken r' =>
    cases taken with
    | none =>
      obtain ⟨q, rfl⟩ := exists_done_of_next_none hr
      rw [remaining_of_none hr, remaining_done]
      exact ⟨rfl, rfl⟩
    | some s =>
      rw [remaining_of_some hr]
      exact ⟨rfl, rfl⟩

/-- The request gives the consumer a piece to hold, in place of the one it held. -/
def Request.Assigns (consumer : Bytes) : Request → Prop
  | .take c => c = consumer
  | .copy c _ => c = consumer
  | _ => False

namespace Stream

/-- The stream after all requests. -/
def run (p : Pattern) (text : Bytes) : Stream → List Request → Stream
  | s, [] => s
  | s, r :: rest => run p text (s.answer p text r).2 rest

/-- What a request takes from the residue, piece by piece; none where nothing was left. Who asks for
everything goes on until nothing is left. -/
def takings (p : Pattern) (text : Bytes) (s : Stream) : Request → List (Option Span)
  | .next => [(s.residue.next p text).1]
  | .nextSpan => [(s.residue.next p text).1]
  | .rest => (s.residue.remaining p text).map some ++ [none]
  | .take _ => [(s.residue.next p text).1]
  | .copy _ _ => []
  | .look _ => []

/-- The takings of all requests, one after the other. -/
def taken (p : Pattern) (text : Bytes) : Stream → List Request → List (Option Span)
  | _, [] => []
  | s, r :: rest => s.takings p text r ++ taken p text (s.answer p text r).2 rest

/-- The answer says what the request took: a piece is told by its text, and everything by the pieces
before the end. Where nothing is taken it says what a consumer holds. -/
inductive Told (text : Bytes) (s : Stream) : Request → List (Option Span) → Answer → Prop
  | next (span : Option Span) : Told text s .next [span] (piece text span)
  | nextSpan (span : Option Span) : Told text s .nextSpan [span] (.span span)
  | rest (spans : List Span) :
    Told text s .rest (spans.map some ++ [none]) (.pieces (spans.map fun span => span.cut text))
  | take (consumer : Bytes) (span : Option Span) :
    Told text s (.take consumer) [span] (piece text span)
  | copy (consumer other : Bytes) :
    Told text s (.copy consumer other) [] (piece text (s.holds other))
  | look (consumer : Bytes) : Told text s (.look consumer) [] (piece text (s.holds consumer))

variable {p : Pattern} {text : Bytes}

theorem run_append (s : Stream) (before after : List Request) :
    run p text s (before ++ after) = run p text (run p text s before) after := by
  induction before generalizing s with
  | nil => rfl
  | cons r rest ih => exact ih (s.answer p text r).2

theorem answers_append (s : Stream) (before after : List Request) :
    answers p text s (before ++ after) =
      answers p text s before ++ answers p text (run p text s before) after := by
  induction before generalizing s with
  | nil => rfl
  | cons r rest ih => exact congrArg _ (ih (s.answer p text r).2)

theorem taken_append (s : Stream) (before after : List Request) :
    taken p text s (before ++ after) =
      taken p text s before ++ taken p text (run p text s before) after := by
  induction before generalizing s with
  | nil => rfl
  | cons r rest ih =>
    rw [List.cons_append, taken, taken, run, ih, List.append_assoc]

theorem told (s : Stream) (r : Request) :
    Told text s r (s.takings p text r) (s.answer p text r).1 := by
  cases r with
  | next => exact .next _
  | nextSpan => exact .nextSpan _
  | rest => exact .rest _
  | take consumer => exact .take _ _
  | copy consumer other => exact .copy _ _
  | look consumer => exact .look _

theorem getElem?_map_some_append_none {spans : List Span} {i : Nat} (h : i ≤ spans.length) :
    (spans.map some ++ [none])[i]? = some spans[i]? := by
  rcases Nat.lt_or_eq_of_le h with hi | rfl
  · rw [List.getElem?_append_left (by simpa using hi), List.getElem?_map,
      List.getElem?_eq_getElem hi, Option.map_some]
  · simp

/-- A request takes from the front of what remains, and leaves the rest of it. -/
theorem takings_spec (s : Stream) (r : Request) :
    (∀ i < (s.takings p text r).length,
      (s.takings p text r)[i]? = some (s.residue.remaining p text)[i]?) ∧
      (s.answer p text r).2.residue.remaining p text =
        (s.residue.remaining p text).drop (s.takings p text r).length := by
  have one : (∀ i < 1, [(s.residue.next p text).1][i]? = some (s.residue.remaining p text)[i]?) ∧
      (s.residue.next p text).2.remaining p text = (s.residue.remaining p text).drop 1 := by
    obtain ⟨hhead, htail⟩ := next_eq_head? p text s.residue
    refine ⟨fun i hi => ?_, ?_⟩
    · obtain rfl : i = 0 := by omega
      rw [List.getElem?_cons_zero, hhead, List.head?_eq_getElem?]
    · rw [htail, List.drop_one]
  cases r with
  | next => exact one
  | nextSpan => exact one
  | take consumer => exact one
  | rest =>
    have hlen : (s.takings p text .rest).length = (s.residue.remaining p text).length + 1 := by
      simp [takings]
    refine ⟨fun i hi => getElem?_map_some_append_none (by omega), ?_⟩
    rw [hlen, List.drop_eq_nil_of_le (Nat.le_succ _)]
    exact remaining_done p text s.residue
  | copy consumer other => exact ⟨by simp [takings], rfl⟩
  | look consumer => exact ⟨by simp [takings], rfl⟩

/-- By induction on the requests, over every stream: the `i`-th taking of a run gives the `i`-th
stretch that remained, or nothing past the last one. -/
theorem getElem?_taken (s : Stream) (requests : List Request) {i : Nat}
    (h : i < (taken p text s requests).length) :
    (taken p text s requests)[i]? = some (s.residue.remaining p text)[i]? := by
  induction requests generalizing s i with
  | nil => simp [taken] at h
  | cons r rest ih =>
    obtain ⟨hnow, hleft⟩ := takings_spec s r
    rw [taken] at h ⊢
    rcases Nat.lt_or_ge i (s.takings p text r).length with hi | hi
    · rw [List.getElem?_append_left hi, hnow i hi]
    · rw [List.getElem?_append_right hi, ih _ (by rw [List.length_append] at h; omega), hleft,
        List.getElem?_drop, Nat.add_sub_cancel' hi]

theorem filterMap_getElem?_range {α : Type} (as : List α) (n : Nat) :
    (List.range n).filterMap (fun i => as[i]?) = as.take n := by
  induction n with
  | zero => rfl
  | succ n ih =>
    rw [List.range_succ, List.filterMap_append, ih, List.take_add_one]
    cases h : as[n]? with
    | none => simp [h]
    | some a => simp [h]

theorem taken_eq_map_range (s : Stream) (requests : List Request) :
    taken p text s requests =
      (List.range (taken p text s requests).length).map fun i => (s.residue.remaining p text)[i]? := by
  apply List.ext_getElem?
  intro i
  rcases Nat.lt_or_ge i (taken p text s requests).length with hi | hi
  · rw [getElem?_taken s requests hi, List.getElem?_map, List.getElem?_range hi, Option.map_some]
  · rw [List.getElem?_eq_none hi, List.getElem?_eq_none (by simpa using hi)]

/-- The pieces taken are the first ones that remained. -/
theorem filterMap_taken (s : Stream) (requests : List Request) :
    (taken p text s requests).filterMap id =
      (s.residue.remaining p text).take (taken p text s requests).length :=
  calc (taken p text s requests).filterMap id
      = ((List.range (taken p text s requests).length).map fun i =>
          (s.residue.remaining p text)[i]?).filterMap id :=
        congrArg _ (taken_eq_map_range s requests)
    _ = (List.range (taken p text s requests).length).filterMap fun i =>
          (s.residue.remaining p text)[i]? := List.filterMap_map
    _ = (s.residue.remaining p text).take (taken p text s requests).length :=
        filterMap_getElem?_range _ _

theorem holds_answer_of_not_assigns {consumer : Bytes} {s : Stream} {r : Request}
    (h : ¬ r.Assigns consumer) : (s.answer p text r).2.holds consumer = s.holds consumer := by
  cases r with
  | take c =>
    have hne : consumer ≠ c := fun he => h he.symm
    rw [answer, holds, Dict.lookup_insert_of_ne hne, holds]
  | copy c other =>
    have hne : consumer ≠ c := fun he => h he.symm
    rw [answer, holds, Dict.lookup_insert_of_ne hne, holds]
  | next => rfl
  | nextSpan => rfl
  | rest => rfl
  | look c => rfl

theorem holds_run_of_not_assigns {consumer : Bytes} (s : Stream) (requests : List Request)
    (h : ∀ r ∈ requests, ¬ r.Assigns consumer) :
    (run p text s requests).holds consumer = s.holds consumer := by
  induction requests generalizing s with
  | nil => rfl
  | cons r rest ih =>
    obtain ⟨hr, hrest⟩ := List.forall_mem_cons.1 h
    rw [run, ih _ hrest, holds_answer_of_not_assigns hr]

theorem takings_take (s : Stream) (consumer : Bytes) :
    s.takings p text (.take consumer) = [(s.answer p text (.take consumer)).2.holds consumer] := by
  rw [takings, answer, holds, Dict.lookup_insert_self, Option.join_some]

theorem holds_answer_copy (s : Stream) (consumer other : Bytes) :
    (s.answer p text (.copy consumer other)).2.holds consumer = s.holds other := by
  rw [answer, holds, Dict.lookup_insert_self, Option.join_some]

end Stream

/-- What holds of one residue after any requests of any consumers, and of the request made next. -/
structure Shared (p : Pattern) (text : Bytes) (requests : List Request) : Prop where
  /-- Each stretch is taken once, in order, and none is passed over. -/
  taken_prefix : (Stream.taken p text .first requests).filterMap id <+: spans p text
  /-- Once a taking has found nothing, all stretches have been taken. -/
  complete : none ∈ Stream.taken p text .first requests →
    (Stream.taken p text .first requests).filterMap id = spans p text
  /-- From the first taking that finds nothing on, none finds anything. -/
  exhausted : ∀ i j : Nat, i ≤ j → j < (Stream.taken p text .first requests).length →
    (Stream.taken p text .first requests)[i]? = some none →
    (Stream.taken p text .first requests)[j]? = some none
  /-- The next request is answered last, its takings come last, and the answer tells them. -/
  told : ∀ r, ∃ taken answer,
    Stream.taken p text .first (requests ++ [r]) =
      Stream.taken p text .first requests ++ taken ∧
    Stream.answers p text .first (requests ++ [r]) =
      Stream.answers p text .first requests ++ [answer] ∧
    Stream.Told text (Stream.run p text .first requests) r taken answer
  /-- A consumer holds what it took last, or what it was given of another. -/
  holds_taken : ∀ consumer, Stream.taken p text .first (requests ++ [.take consumer]) =
    Stream.taken p text .first requests ++
      [(Stream.run p text .first (requests ++ [.take consumer])).holds consumer]
  holds_copied : ∀ consumer other,
    (Stream.run p text .first (requests ++ [.copy consumer other])).holds consumer =
      (Stream.run p text .first requests).holds other
  /-- Whatever others do, a consumer goes on holding its piece. -/
  holds_kept : ∀ consumer more, (∀ r ∈ more, ¬ Request.Assigns consumer r) →
    (Stream.run p text .first (requests ++ more)).holds consumer =
      (Stream.run p text .first requests).holds consumer

/-- However many consumers share a residue and in whatever order they ask, they get all its
stretches between them, each once and in order. -/
theorem shared_lossless (p : Pattern) (text : Bytes) (requests : List Request) :
    Shared p text requests where
  taken_prefix := by
    rw [Stream.filterMap_taken]
    exact List.take_prefix _ _
  complete h := by
    obtain ⟨i, hi⟩ := List.mem_iff_getElem?.1 h
    have hlt := (List.getElem?_eq_some_iff.1 hi).1
    rw [Stream.getElem?_taken _ _ hlt] at hi
    have hlen := List.getElem?_eq_none_iff.1 (Option.some_inj.1 hi)
    rw [Stream.filterMap_taken]
    exact List.take_of_length_le (by omega)
  exhausted i j hij hj hi := by
    rw [Stream.getElem?_taken _ _ (by omega)] at hi
    have hlen := List.getElem?_eq_none_iff.1 (Option.some_inj.1 hi)
    rw [Stream.getElem?_taken _ _ hj, List.getElem?_eq_none (by omega)]
  told r := by
    refine ⟨(Stream.run p text .first requests).takings p text r,
      ((Stream.run p text .first requests).answer p text r).1, ?_, ?_, Stream.told _ r⟩
    · rw [Stream.taken_append]
      exact congrArg _ (List.append_nil _)
    · rw [Stream.answers_append]
      rfl
  holds_taken consumer := by
    rw [Stream.taken_append, Stream.run_append, Stream.taken, Stream.taken, List.append_nil,
      Stream.takings_take]
    rfl
  holds_copied consumer other := by
    rw [Stream.run_append]
    exact Stream.holds_answer_copy _ consumer other
  holds_kept consumer more hmore := by
    rw [Stream.run_append, Stream.holds_run_of_not_assigns _ _ hmore]

end NestedMatch.Residue
