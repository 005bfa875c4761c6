import Mathlib.Logic.Function.Basic
import NestedMatch.Bench

/-! Builders seen from outside. A book is kept of the calls made to the builder in every place: the
label it was made with, every child it was given and every child it took. Main statement: after any
steps a live builder holds the children it took, which under each name is the one given first, and a
spent builder refuses everything and keeps nothing. -/

namespace NestedMatch.Bench

variable {α : Type} {make : Nat → Bytes → Except (BuildError α) α} {b : Bench α}

/-- The calls to a live builder, the first one first. -/
structure Calls (α : Type) where
  label : α
  given : List (Bytes × NamedTree α)
  taken : List (Bytes × NamedTree α)

/-- The calls to the live builder in each place. -/
abbrev Book (α : Type) := Bytes → Option (Calls α)

namespace Calls

/-- A builder just made has been given nothing. -/
def made (a : α) : Calls α := ⟨a, [], []⟩

/-- One more child is given, and taken if the answer says so. -/
def give (calls : Calls α) (name : Bytes) (child : NamedTree α)
    (answer : Except (Fault α) Unit) : Calls α :=
  { calls with
    given := calls.given ++ [(name, child)]
    taken := match answer with
      | .ok () => calls.taken ++ [(name, child)]
      | .error _ => calls.taken }

/-- The children are those that were taken, each under its name, and under every name stands the
child that was given first. -/
structure Leave (calls : Calls α) (children : List (Bytes × NamedTree α)) : Prop where
  taken : children.Perm calls.taken
  first : ∀ name, children.lookup name = calls.given.lookup name

theorem leave_made (a : α) : (made a).Leave [] := ⟨.refl _, fun _ => rfl⟩

variable {calls : Calls α} {children : List (Bytes × NamedTree α)} {name : Bytes}

theorem lookup_given_give (calls : Calls α) (name : Bytes) (child : NamedTree α)
    (answer : Except (Fault α) Unit) (other : Bytes) :
    (calls.give name child answer).given.lookup other =
      (calls.given.lookup other).or (if other = name then some child else none) := by
  have hone : [(name, child)].lookup other = if other = name then some child else none := by
    by_cases h : other = name
    · subst h; simp
    · rw [Dict.lookup_cons_of_ne h, if_neg h, List.lookup_nil]
  have hgiven : (calls.give name child answer).given = calls.given ++ [(name, child)] := rfl
  rw [hgiven, List.lookup_append, hone]

/-- A child refused because of an earlier one under its name changes nothing: the earlier one was
given first. -/
theorem Leave.refuse (h : calls.Leave children) {old : NamedTree α}
    (hname : children.lookup name = some old) (child : NamedTree α) (e : Fault α) :
    (calls.give name child (.error e)).Leave children := by
  refine ⟨h.taken, fun other => ?_⟩
  rw [lookup_given_give, ← h.first]
  by_cases hother : other = name
  · subst hother; rw [hname, Option.some_or]
  · rw [if_neg hother, Option.or_none]

/-- A child under a new name is the first one given under it. -/
theorem Leave.take (h : calls.Leave children) (hname : children.lookup name = none)
    (child : NamedTree α) :
    (calls.give name child (.ok ())).Leave (Dict.insert name child children) := by
  constructor
  case taken =>
    have hcons : (Dict.insert name child children).Perm ((name, child) :: children) :=
      Dict.perm_insert hname child
    exact hcons.trans ((h.taken.cons _).trans (List.perm_append_singleton _ _).symm)
  case first =>
    intro other
    rw [lookup_given_give, ← h.first]
    by_cases hother : other = name
    · subst hother; rw [hname, Dict.lookup_insert_self, Option.none_or, if_pos rfl]
    · rw [Dict.lookup_insert_of_ne hother, if_neg hother, Option.or_none]

end Calls

/-- The book after one more step. -/
def note (make : Nat → Bytes → Except (BuildError α) α) (b : Bench α) (book : Book α)
    (s : Step) : Book α :=
  match s with
  | .leaf _ _ => book
  | .root into source =>
    match make b.made source with
    | .ok a => Function.update book into (some (.made a))
    | .error _ => book
  | .child place name tree =>
    match book place, b.trees.lookup tree with
    | some calls, some t =>
      Function.update book place (some (calls.give name t (b.step make s).1))
    | _, _ => book
  | .build place _ => Function.update book place none
  | .moveBuilder place into =>
    match b.builders.lookup place with
    | some _ => Function.update (Function.update book place none) into (book place)
    | none => book
  | .moveTree _ _ => book

/-- The book after all steps, those included that failed. -/
def history (make : Nat → Bytes → Except (BuildError α) α) : Bench α → Book α → List Step → Book α
  | _, book, [] => book
  | b, book, s :: rest => history make (b.step make s).2 (note make b book s) rest

/-- What the book says about a place, and the builder in it. -/
inductive Told : Option (Builder α) → Option (Calls α) → Prop where
  | nothing : Told none none
  | spent : Told (some .spent) none
  | live {calls : Calls α} {children : List (Bytes × NamedTree α)} (h : calls.Leave children) :
      Told (some (.live calls.label children)) (some calls)

/-- The book is right about every place. -/
def Agrees (b : Bench α) (book : Book α) : Prop :=
  ∀ place, Told (b.builders.lookup place) (book place)

variable {book : Book α} {place into name tree : Bytes} {s : Step}

theorem agrees_empty : Agrees (empty : Bench α) fun _ => none := fun _ => .nothing

theorem Agrees.of_builders_eq {b' : Bench α} (h : b.Agrees book) (hb : b'.builders = b.builders) :
    b'.Agrees book := fun place => hb ▸ h place

/-- What can stand in a place, and what the book says of it then. -/
theorem Agrees.place_cases (h : b.Agrees book) (place : Bytes) :
    (b.builders.lookup place = none ∧ book place = none) ∨
      (b.builders.lookup place = some .spent ∧ book place = none) ∨
      ∃ calls children, b.builders.lookup place = some (.live calls.label children) ∧
        book place = some calls ∧ calls.Leave children := by
  have hplace := h place
  generalize b.builders.lookup place = builder? at hplace
  generalize book place = calls? at hplace
  cases hplace with
  | nothing => exact .inl ⟨rfl, rfl⟩
  | spent => exact .inr (.inl ⟨rfl, rfl⟩)
  | live hleave => exact .inr (.inr ⟨_, _, rfl, rfl, hleave⟩)

theorem Agrees.update {b' : Bench α} {calls : Option (Calls α)} (h : b.Agrees book)
    (hother : ∀ other, other ≠ place → b'.builders.lookup other = b.builders.lookup other)
    (hplace : Told (b'.builders.lookup place) calls) :
    b'.Agrees (Function.update book place calls) := by
  intro other
  by_cases ho : other = place
  · subst ho
    rw [Function.update_self]
    exact hplace
  · rw [Function.update_of_ne ho, hother other ho]
    exact h other

theorem Agrees.put {builder : Builder α} {calls : Option (Calls α)} (h : b.Agrees book)
    (ht : Told (some builder) calls) (place : Bytes) :
    (b.putBuilder place builder).Agrees (Function.update book place calls) := by
  refine h.update (fun other ho => Dict.lookup_insert_of_ne ho builder b.builders) ?_
  rw [putBuilder, Dict.lookup_insert_self]
  exact ht

/-- The answer to a child given to a live builder, and the bench after it. -/
theorem step_child_live (make : Nat → Bytes → Except (BuildError α) α) (name : Bytes) {a : α}
    {children : List (Bytes × NamedTree α)} {t : NamedTree α}
    (hb : b.builders.lookup place = some (.live a children)) (ht : b.trees.lookup tree = some t) :
    (∃ old, children.lookup name = some old ∧
      b.step make (.child place name tree) =
        (.error (.build (.duplicateChild name a)), b.dropTree tree)) ∨
    (children.lookup name = none ∧
      b.step make (.child place name tree) =
        (.ok (), (b.dropTree tree).putBuilder place (.live a (Dict.insert name t children)))) := by
  cases hname : children.lookup name with
  | some old =>
    refine .inl ⟨old, rfl, ?_⟩
    simp only [step, hb, ht, Builder.withChild_of_lookup_some hname]
  | none =>
    refine .inr ⟨rfl, ?_⟩
    simp only [step, hb, ht, Builder.withChild_of_lookup_none hname]

theorem step_child_spent {t : NamedTree α} (hb : b.builders.lookup place = some .spent)
    (ht : b.trees.lookup tree = some t) :
    b.step make (.child place name tree) = (.error (.build .spent), b.dropTree tree) := by
  simp only [step, hb, ht, Builder.withChild_spent]

/-- What a step can do to a bench. -/
inductive Effect (make : Nat → Bytes → Except (BuildError α) α) (b : Bench α) :
    Step → Bench α → Prop
  /-- A step that fails before it takes anything changes nothing. -/
  | nothing {s : Step} : Effect make b s b
  | leaf {into source : Bytes} {a : α} (hm : make b.made source = .ok a) :
    Effect make b (.leaf into source) ({ b with made := b.made + 1 }.putTree into (.leaf a))
  | root {into source : Bytes} {a : α} (hm : make b.made source = .ok a) :
    Effect make b (.root into source) ({ b with made := b.made + 1 }.putBuilder into (.ofLabel a))
  /-- A builder refuses a tree, which is gone then. -/
  | refused {place name tree : Bytes} : Effect make b (.child place name tree) (b.dropTree tree)
  | taken {place name tree : Bytes} {a : α} {children : List (Bytes × NamedTree α)}
    {t : NamedTree α} (hb : b.builders.lookup place = some (.live a children))
    (ht : b.trees.lookup tree = some t) (hnew : children.lookup name = none) :
    Effect make b (.child place name tree)
      ((b.dropTree tree).putBuilder place (.live a (Dict.insert name t children)))
  | built {place into : Bytes} {a : α} {children : List (Bytes × NamedTree α)}
    (hb : b.builders.lookup place = some (.live a children)) :
    Effect make b (.build place into)
      ((b.putBuilder place .spent).putTree into (.node a children))
  | movedBuilder {place into : Bytes} {builder : Builder α}
    (hb : b.builders.lookup place = some builder) :
    Effect make b (.moveBuilder place into) ((b.putBuilder place .spent).putBuilder into builder)
  | movedTree {tree into : Bytes} {t : NamedTree α} (ht : b.trees.lookup tree = some t) :
    Effect make b (.moveTree tree into) ((b.dropTree tree).putTree into t)

theorem effect_step (make : Nat → Bytes → Except (BuildError α) α) (b : Bench α) (s : Step) :
    Effect make b s (b.step make s).2 := by
  cases s with
  | leaf into source =>
    cases hm : make b.made source with
    | error e => simpa only [step, hm] using .nothing
    | ok a => simpa only [step, hm] using .leaf hm
  | root into source =>
    cases hm : make b.made source with
    | error e => simpa only [step, hm] using .nothing
    | ok a => simpa only [step, hm] using .root hm
  | child place name tree =>
    cases hb : b.builders.lookup place with
    | none => simpa only [step, hb] using .nothing
    | some builder =>
      cases ht : b.trees.lookup tree with
      | none => simpa only [step, hb, ht] using .nothing
      | some t =>
        cases builder with
        | spent =>
          rw [step_child_spent hb ht]
          exact .refused
        | live a children =>
          rcases step_child_live make name hb ht with ⟨_, _, hstep⟩ | ⟨hnew, hstep⟩
          · rw [hstep]
            exact .refused
          · rw [hstep]
            exact .taken hb ht hnew
  | build place into =>
    cases hb : b.builders.lookup place with
    | none => simpa only [step, hb] using .nothing
    | some builder =>
      cases builder with
      | spent => simpa only [step, hb, Builder.build_spent] using .nothing
      | live a children => simpa only [step, hb, Builder.build_live] using .built hb
  | moveBuilder place into =>
    cases hb : b.builders.lookup place with
    | none => simpa only [step, hb] using .nothing
    | some builder => simpa only [step, hb] using .movedBuilder hb
  | moveTree tree into =>
    cases ht : b.trees.lookup tree with
    | none => simpa only [step, ht] using .nothing
    | some t => simpa only [step, ht] using .movedTree ht

/-- Without a live builder and a tree for it no builder changes. -/
theorem builders_step_child (h : b.builders.lookup place = none ∨
    b.builders.lookup place = some .spent ∨ b.trees.lookup tree = none) :
    (b.step make (.child place name tree)).2.builders = b.builders := by
  rcases h with hb | hb | ht
  · simp only [step, hb]
  · cases ht : b.trees.lookup tree with
    | none => simp only [step, hb, ht]
    | some t => rw [step_child_spent hb ht]; rfl
  · cases hb : b.builders.lookup place with
    | none => simp only [step, hb]
    | some builder => simp only [step, hb, ht]

theorem Agrees.child (h : b.Agrees book) (place name tree : Bytes) :
    (b.step make (.child place name tree)).2.Agrees
      (note make b book (.child place name tree)) := by
  rcases h.place_cases place with ⟨hb, hk⟩ | ⟨hb, hk⟩ | ⟨calls, children, hb, hk, hleave⟩
  · simp only [note, hk]
    exact h.of_builders_eq (builders_step_child (.inl hb))
  · simp only [note, hk]
    exact h.of_builders_eq (builders_step_child (.inr (.inl hb)))
  · cases ht : b.trees.lookup tree with
    | none =>
      simp only [note, hk, ht]
      exact h.of_builders_eq (builders_step_child (.inr (.inr ht)))
    | some t =>
      simp only [note, hk, ht]
      rcases step_child_live make name hb ht with ⟨old, hold, hstep⟩ | ⟨hnew, hstep⟩
      · rw [hstep]
        refine h.update (fun _ _ => rfl) ?_
        rw [dropTree, hb]
        exact .live (hleave.refuse hold t _)
      · rw [hstep]
        exact Agrees.put (h.of_builders_eq rfl) (.live (hleave.take hnew t)) place

theorem Agrees.build (h : b.Agrees book) (place into : Bytes) :
    (b.step make (.build place into)).2.Agrees (note make b book (.build place into)) := by
  -- Where there is no live builder the book has nothing to forget.
  have hsame (hk : book place = none) : Function.update book place none = book := by
    rw [← hk, Function.update_eq_self]
  rcases h.place_cases place with ⟨hb, hk⟩ | ⟨hb, hk⟩ | ⟨calls, children, hb, hk, hleave⟩
  · simpa only [Bench.step, note, hb, hsame hk] using h
  · simpa only [Bench.step, note, hb, hsame hk, Builder.build_spent] using h
  · simp only [Bench.step, note, hb, Builder.build_live]
    exact (h.put .spent place).of_builders_eq rfl

/-- The book stays right in every step. -/
theorem Agrees.step (h : b.Agrees book) (s : Step) :
    (b.step make s).2.Agrees (note make b book s) := by
  cases s with
  | leaf into source =>
    cases hm : make b.made source with
    | error e => simpa only [Bench.step, note, hm] using h
    | ok a => exact h.of_builders_eq (by simp only [Bench.step, hm]; rfl)
  | root into source =>
    cases hm : make b.made source with
    | error e => simpa only [Bench.step, note, hm] using h
    | ok a =>
      simp only [Bench.step, note, hm]
      exact Agrees.put (h.of_builders_eq rfl) (.live (Calls.leave_made a)) into
  | child place name tree => exact h.child place name tree
  | build place into => exact h.build place into
  | moveBuilder place into =>
    cases hb : b.builders.lookup place with
    | none => simpa only [Bench.step, note, hb] using h
    | some builder =>
      have htold : Told (some builder) (book place) := hb ▸ h place
      simp only [Bench.step, note, hb]
      exact (h.put .spent place).put htold into
  | moveTree tree into =>
    cases ht : b.trees.lookup tree with
    | none => simpa only [Bench.step, note, ht] using h
    | some t => exact h.of_builders_eq (by simp only [Bench.step, ht]; rfl)

theorem Agrees.run (h : b.Agrees book) (steps : List Step) :
    (b.run make steps).Agrees (history make b book steps) := by
  induction steps generalizing b book with
  | nil => exact h
  | cons s rest ih => exact ih (h.step s)

theorem Agrees.live {a : α} {children : List (Bytes × NamedTree α)} (h : b.Agrees book)
    (hb : b.builders.lookup place = some (.live a children)) :
    ∃ calls, book place = some calls ∧ calls.label = a ∧ calls.Leave children := by
  rcases h.place_cases place with ⟨hb', -⟩ | ⟨hb', -⟩ | ⟨calls, children', hb', hk, hleave⟩
  · cases hb.symm.trans hb'
  · cases hb.symm.trans hb'
  · cases hb.symm.trans hb'
    exact ⟨calls, hk, rfl, hleave⟩

theorem Agrees.kept {calls : Calls α} (h : b.Agrees book) (hk : book place = some calls) :
    ∃ children, b.builders.lookup place = some (.live calls.label children) ∧
      calls.Leave children := by
  rcases h.place_cases place with ⟨-, hk'⟩ | ⟨-, hk'⟩ | ⟨calls', children, hb, hk', hleave⟩
  · cases hk.symm.trans hk'
  · cases hk.symm.trans hk'
  · cases hk.symm.trans hk'
    exact ⟨children, hb, hleave⟩

/-- What the builders at a bench hold, and what they answer. -/
structure FirstWins (make : Nat → Bytes → Except (BuildError α) α) (b : Bench α)
    (book : Book α) : Prop where
  /-- A live builder has the label it was made with and the children it took, under each name the
  first one given. -/
  live : ∀ {place a children}, b.builders.lookup place = some (.live a children) →
    ∃ calls, book place = some calls ∧ calls.label = a ∧ calls.Leave children
  /-- A builder stays live until its tree is taken or it is moved or replaced. -/
  kept : ∀ {place calls}, book place = some calls →
    ∃ children, b.builders.lookup place = some (.live calls.label children) ∧ calls.Leave children
  /-- It refuses a child exactly under a name that it has, and stays as it is then. -/
  child : ∀ {place a children tree t}, b.builders.lookup place = some (.live a children) →
    b.trees.lookup tree = some t → ∀ name,
      ((b.step make (.child place name tree)).1 = .error (.build (.duplicateChild name a)) ↔
        ∃ old, children.lookup name = some old) ∧
      ∀ fault, (b.step make (.child place name tree)).1 = .error fault →
        b.step make (.child place name tree) =
          (.error (.build (.duplicateChild name a)), b.dropTree tree)
  /-- The tree built has the label and the children the builder had, and the builder is spent. -/
  build : ∀ {place a children}, b.builders.lookup place = some (.live a children) → ∀ into,
    b.step make (.build place into) =
      (.ok (), (b.putBuilder place .spent).putTree into (.node a children))
  /-- A spent builder refuses everything. What it is given is lost, nothing else changes. -/
  spent : ∀ {place}, b.builders.lookup place = some .spent →
    (∀ {tree t}, b.trees.lookup tree = some t → ∀ name,
      b.step make (.child place name tree) = (.error (.build .spent), b.dropTree tree)) ∧
    ∀ into, b.step make (.build place into) = (.error (.build .spent), b)
  /-- A builder moved to another place leaves a spent one behind. -/
  move : ∀ {place into builder}, b.builders.lookup place = some builder → place ≠ into →
    ((b.step make (.moveBuilder place into)).2.builders.lookup place = some .spent ∧
      (b.step make (.moveBuilder place into)).2.builders.lookup into = some builder)
  /-- A label that cannot be made makes neither a tree nor a builder. -/
  unmade : ∀ {source e}, make b.made source = .error e → ∀ into,
    b.step make (.leaf into source) = (.error (.build e), b) ∧
      b.step make (.root into source) = (.error (.build e), b)

theorem Agrees.firstWins (h : b.Agrees book) : FirstWins make b book where
  live hb := h.live hb
  kept hk := h.kept hk
  child {place a children tree t} hb ht name := by
    rcases step_child_live make name hb ht with
      ⟨old, hold, hstep⟩ | ⟨hnew, hstep⟩
    · rw [hstep]
      exact ⟨⟨fun _ => ⟨old, hold⟩, fun _ => rfl⟩, fun _ _ => rfl⟩
    · rw [hstep]
      refine ⟨⟨nofun, ?_⟩, nofun⟩
      rintro ⟨old, hold⟩
      rw [hnew] at hold
      cases hold
  build {place a children} hb into := by simp only [Bench.step, hb, Builder.build_live]
  spent {place} hb :=
    ⟨fun ht _ => step_child_spent hb ht,
      fun into => by simp only [Bench.step, hb, Builder.build_spent]⟩
  move {place into builder} hb hne := by
    simp only [Bench.step, hb, putBuilder]
    refine ⟨?_, Dict.lookup_insert_self ..⟩
    rw [Dict.lookup_insert_of_ne hne, Dict.lookup_insert_self]
  unmade {source e} hm into := by simp only [Bench.step, hm, and_self]

/-- After any steps at an empty bench every builder keeps, under each name, the first child given,
and is spent once its tree is out or it has been moved. -/
theorem first_given_wins (make : Nat → Bytes → Except (BuildError α) α) (steps : List Step) :
    FirstWins make (empty.run make steps) (history make empty (fun _ => none) steps) :=
  Agrees.firstWins (agrees_empty.run steps)

end NestedMatch.Bench
