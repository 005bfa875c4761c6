import NestedMatch.Proofs.Building

/-! What is true of every tree that builders can build: what is true of a single node, whatever its
label, and stays true when a node is given one more child. -/

namespace NestedMatch.Bench

variable {α : Type} {make : Nat → Bytes → Except (BuildError α) α} {P : NamedTree α → Prop}
  {b : Bench α} {place : Bytes}

/-- Single nodes have the property, and one more child keeps it. -/
structure Grows (make : Nat → Bytes → Except (BuildError α) α) (P : NamedTree α → Prop) : Prop where
  leaf : ∀ {count source a}, make count source = .ok a → P (.leaf a)
  child : ∀ {a children name t}, P (.node a children) → P t → children.lookup name = none →
    P (.node a (Dict.insert name t children))

/-- All trees have the property, those under construction too. -/
structure Everywhere (P : NamedTree α → Prop) (b : Bench α) : Prop where
  trees : ∀ {place t}, b.trees.lookup place = some t → P t
  builders : ∀ {place a children}, b.builders.lookup place = some (.live a children) →
    P (.node a children)

theorem everywhere_empty : Everywhere P (empty : Bench α) := ⟨nofun, nofun⟩

theorem Everywhere.count (h : b.Everywhere P) (made : Nat) : { b with made }.Everywhere P :=
  ⟨h.trees, h.builders⟩

theorem Everywhere.putTree (h : b.Everywhere P) {t : NamedTree α} (ht : P t) (place : Bytes) :
    (b.putTree place t).Everywhere P where
  builders hb := h.builders hb
  trees {other u} hu := by
    by_cases he : other = place
    · subst he
      rw [Bench.putTree, Dict.lookup_insert_self] at hu
      exact Option.some.inj hu ▸ ht
    · rw [Bench.putTree, Dict.lookup_insert_of_ne he] at hu
      exact h.trees hu

theorem Everywhere.dropTree (h : b.Everywhere P) (place : Bytes) :
    (b.dropTree place).Everywhere P where
  builders hb := h.builders hb
  trees {other u} hu := by
    by_cases he : other = place
    · subst he
      rw [Bench.dropTree, Dict.lookup_erase_self] at hu
      cases hu
    · rw [Bench.dropTree, Dict.lookup_erase_of_ne he] at hu
      exact h.trees hu

theorem Everywhere.putBuilder (h : b.Everywhere P) {builder : Builder α}
    (hbuilder : ∀ {a children}, builder = .live a children → P (.node a children))
    (place : Bytes) : (b.putBuilder place builder).Everywhere P where
  trees ht := h.trees ht
  builders {other a children} hb := by
    by_cases he : other = place
    · subst he
      rw [Bench.putBuilder, Dict.lookup_insert_self] at hb
      exact hbuilder (Option.some.inj hb)
    · rw [Bench.putBuilder, Dict.lookup_insert_of_ne he] at hb
      exact h.builders hb

theorem Everywhere.putSpent (h : b.Everywhere P) (place : Bytes) :
    (b.putBuilder place .spent).Everywhere P := by
  refine h.putBuilder ?_ place
  rintro a children ⟨⟩

theorem Effect.everywhere {b' : Bench α} {s : Step} (he : Effect make b s b') (hP : Grows make P)
    (h : b.Everywhere P) : b'.Everywhere P := by
  cases he with
  | nothing => exact h
  | leaf hm => exact (h.count _).putTree (hP.leaf hm) _
  | root hm =>
    refine (h.count _).putBuilder ?_ _
    rintro a children ⟨⟩
    exact hP.leaf hm
  | refused => exact h.dropTree _
  | taken hb ht hnew =>
    refine (h.dropTree _).putBuilder ?_ _
    rintro a children ⟨⟩
    exact hP.child (h.builders hb) (h.trees ht) hnew
  | built hb => exact (h.putSpent _).putTree (h.builders hb) _
  | movedBuilder hb =>
    refine (h.putSpent _).putBuilder ?_ _
    rintro a children rfl
    exact h.builders hb
  | movedTree ht => exact (h.dropTree _).putTree (h.trees ht) _

theorem Everywhere.step (hP : Grows make P) (h : b.Everywhere P) (s : Step) :
    (b.step make s).2.Everywhere P :=
  (effect_step make b s).everywhere hP h

theorem Everywhere.run (hP : Grows make P) (h : b.Everywhere P) (steps : List Step) :
    (b.run make steps).Everywhere P := by
  induction steps generalizing b with
  | nil => exact h
  | cons s rest ih => exact ih (h.step hP s)

/-- Every tree built has a property that single nodes have and one more child keeps. -/
theorem of_built (hP : Grows make P) {steps : List Step} {t : NamedTree α}
    (ht : (empty.run make steps).trees.lookup place = some t) : P t :=
  (everywhere_empty.run hP steps).trees ht

end NestedMatch.Bench
