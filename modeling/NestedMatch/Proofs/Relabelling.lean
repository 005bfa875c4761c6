import NestedMatch.Bench

/-! Nothing done at a bench looks at a label: labels are made, handed on and named in errors. Main
statement: the same steps with other labels lead to the same bench and the same answers, relabelled.
So labels may carry more than the steps need, such as a number for every node made. -/

namespace NestedMatch

variable {α β : Type}

namespace Dict

theorem erase_map (f : α → β) (name : Bytes) (d : Dict α) :
    erase name (d.map fun entry => (entry.1, f entry.2)) =
      (erase name d).map fun entry => (entry.1, f entry.2) := by
  rw [erase, List.filter_map]
  rfl

end Dict

def BuildError.map (f : α → β) : BuildError α → BuildError β
  | .rejected source reason => .rejected source reason
  | .duplicateChild name parent => .duplicateChild name (f parent)
  | .spent => .spent

namespace Builder

def map (f : α → β) : Builder α → Builder β
  | .live a children => .live (f a) (NamedTree.mapBranches f children)
  | .spent => .spent

theorem withChild_map (f : α → β) (name : Bytes) (child : NamedTree α) (builder : Builder α) :
    (builder.map f).withChild name (child.map f) =
      ((builder.withChild name child).map (map f)).mapError (BuildError.map f) := by
  cases builder with
  | spent => rfl
  | live a children =>
    have hlookup : (NamedTree.mapBranches f children).lookup name =
        (children.lookup name).map (NamedTree.map f) := by
      rw [NamedTree.mapBranches_eq]
      exact Dict.lookup_map (fun _ => NamedTree.map f) name children
    cases hname : children.lookup name with
    | some old =>
      rw [hname] at hlookup
      rw [map, withChild_of_lookup_some hlookup, withChild_of_lookup_some hname]
      rfl
    | none =>
      rw [hname] at hlookup
      rw [map, withChild_of_lookup_none hlookup, withChild_of_lookup_none hname,
        NamedTree.mapBranches_eq, Dict.insert_map, ← NamedTree.mapBranches_eq]
      rfl

theorem build_map (f : α → β) (builder : Builder α) :
    (builder.map f).build = (builder.build.map (NamedTree.map f)).mapError (BuildError.map f) := by
  cases builder <;> rfl

end Builder

namespace Bench

def Fault.map (f : α → β) : Fault α → Fault β
  | .noTree place => .noTree place
  | .noBuilder place => .noBuilder place
  | .build error => .build (error.map f)

/-- The same bench with other labels. -/
def map (f : α → β) (b : Bench α) : Bench β :=
  ⟨b.trees.map fun entry => (entry.1, entry.2.map f),
    b.builders.map fun entry => (entry.1, entry.2.map f), b.made⟩

variable (f : α → β) (b : Bench α)

theorem lookup_trees_map (place : Bytes) :
    (b.map f).trees.lookup place = (b.trees.lookup place).map (NamedTree.map f) :=
  Dict.lookup_map (fun _ => NamedTree.map f) place b.trees

theorem lookup_builders_map (place : Bytes) :
    (b.map f).builders.lookup place = (b.builders.lookup place).map (Builder.map f) :=
  Dict.lookup_map (fun _ => Builder.map f) place b.builders

theorem putTree_map (place : Bytes) (t : NamedTree α) :
    (b.map f).putTree place (t.map f) = (b.putTree place t).map f := by
  simp only [putTree, map, Dict.insert_map]

theorem dropTree_map (place : Bytes) : (b.map f).dropTree place = (b.dropTree place).map f := by
  simp only [dropTree, map, Dict.erase_map]

theorem putBuilder_map (place : Bytes) (builder : Builder α) :
    (b.map f).putBuilder place (builder.map f) = (b.putBuilder place builder).map f := by
  simp only [putBuilder, map, Dict.insert_map]

theorem putSpent_map (place : Bytes) :
    (b.map f).putBuilder place .spent = (b.putBuilder place .spent).map f :=
  putBuilder_map f b place .spent

variable {f b} {make : Nat → Bytes → Except (BuildError α) α}
  {make' : Nat → Bytes → Except (BuildError β) β}

/-- One way of making labels gives the labels of another, relabelled. -/
def Relabels (f : α → β) (make : Nat → Bytes → Except (BuildError α) α)
    (make' : Nat → Bytes → Except (BuildError β) β) : Prop :=
  ∀ count source, make' count source = ((make count source).map f).mapError (BuildError.map f)

theorem Relabels.ok (hmake : Relabels f make make') {source : Bytes} {a : α}
    (hm : make b.made source = .ok a) : make' (b.map f).made source = .ok (f a) := by
  rw [map, hmake, hm]
  rfl

theorem Relabels.error (hmake : Relabels f make make') {source : Bytes} {e : BuildError α}
    (hm : make b.made source = .error e) :
    make' (b.map f).made source = .error (e.map f) := by
  rw [map, hmake, hm]
  rfl

theorem step_child_map (place name tree : Bytes) :
    (b.map f).step make' (.child place name tree) =
      ((b.step make (.child place name tree)).1.mapError (Fault.map f),
        (b.step make (.child place name tree)).2.map f) := by
  have hbuilder := lookup_builders_map f b place
  have htree := lookup_trees_map f b tree
  cases hb : b.builders.lookup place with
  | none =>
    rw [hb] at hbuilder
    simp only [step, hb, hbuilder, Option.map_none]
    rfl
  | some builder =>
    rw [hb] at hbuilder
    cases ht : b.trees.lookup tree with
    | none =>
      rw [ht] at htree
      simp only [step, hb, ht, hbuilder, htree, Option.map_none, Option.map_some]
      rfl
    | some t =>
      rw [ht] at htree
      have hchild := Builder.withChild_map f name t builder
      cases hc : builder.withChild name t with
      | error e =>
        rw [hc] at hchild
        simp only [step, hb, ht, hc, hbuilder, htree, hchild, Option.map_some, dropTree_map]
        rfl
      | ok builder' =>
        rw [hc] at hchild
        simp only [step, hb, ht, hc, hbuilder, htree, hchild, Option.map_some, dropTree_map]
        exact congrArg _ (putBuilder_map ..)

/-- A step takes the same way with other labels. -/
theorem step_map (hmake : Relabels f make make') (s : Step) :
    (b.map f).step make' s =
      ((b.step make s).1.mapError (Fault.map f), (b.step make s).2.map f) := by
  cases s with
  | leaf into source =>
    cases hm : make b.made source with
    | error e =>
      simp only [step, hm, hmake.error hm]
      rfl
    | ok a =>
      simp only [step, hm, hmake.ok hm]
      exact congrArg _ (putTree_map f { b with made := b.made + 1 } into (.leaf a))
  | root into source =>
    cases hm : make b.made source with
    | error e =>
      simp only [step, hm, hmake.error hm]
      rfl
    | ok a =>
      simp only [step, hm, hmake.ok hm]
      exact congrArg _ (putBuilder_map f { b with made := b.made + 1 } into (.ofLabel a))
  | child place name tree => exact step_child_map place name tree
  | build place into =>
    have hbuilder := lookup_builders_map f b place
    cases hb : b.builders.lookup place with
    | none =>
      rw [hb] at hbuilder
      simp only [step, hb, hbuilder, Option.map_none]
      rfl
    | some builder =>
      rw [hb] at hbuilder
      cases builder with
      | spent =>
        simp only [step, hb, hbuilder, Option.map_some, Builder.map, Builder.build_spent]
        rfl
      | live a children =>
        simp only [step, hb, hbuilder, Option.map_some, Builder.build_map, Builder.build_live,
          putSpent_map]
        exact congrArg _ (putTree_map f (b.putBuilder place .spent) into (.node a children))
  | moveBuilder place into =>
    have hbuilder := lookup_builders_map f b place
    cases hb : b.builders.lookup place with
    | none =>
      rw [hb] at hbuilder
      simp only [step, hb, hbuilder, Option.map_none]
      rfl
    | some builder =>
      rw [hb] at hbuilder
      simp only [step, hb, hbuilder, Option.map_some, putSpent_map, putBuilder_map]
      rfl
  | moveTree tree into =>
    have htree := lookup_trees_map f b tree
    cases ht : b.trees.lookup tree with
    | none =>
      rw [ht] at htree
      simp only [step, ht, htree, Option.map_none]
      rfl
    | some t =>
      rw [ht] at htree
      simp only [step, ht, htree, Option.map_some, dropTree_map, putTree_map]
      rfl

theorem run_map (hmake : Relabels f make make') (steps : List Step) :
    (b.map f).run make' steps = (b.run make steps).map f := by
  induction steps generalizing b with
  | nil => rfl
  | cons s rest ih => rw [run_cons, run_cons, step_map hmake, ih]

end Bench
end NestedMatch
