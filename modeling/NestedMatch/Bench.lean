import NestedMatch.Builder

/-! A bench with places for trees and places for builders, each place under a name. Trees and
builders are moved, never copied: what is handed on is no longer where it was. -/

namespace NestedMatch

structure Bench (α : Type) where
  trees : List (Bytes × NamedTree α)
  builders : List (Bytes × Builder α)
  /-- How many labels have been made so far. -/
  made : Nat

namespace Bench

/-- What can be done at a bench. Putting something into a place replaces what was there. -/
inductive Step where
  | leaf (into source : Bytes)
  | root (into source : Bytes)
  /-- Hands the tree in a place to a builder. The place is empty then, even where the builder
  refuses the tree. -/
  | child (builder name tree : Bytes)
  /-- Takes the tree out of a builder, which stays in its place, spent. -/
  | build (builder into : Bytes)
  /-- Leaves a spent builder behind. -/
  | moveBuilder (builder into : Bytes)
  | moveTree (tree into : Bytes)
deriving DecidableEq, Repr

inductive Fault (α : Type) where
  | noTree (place : Bytes)
  | noBuilder (place : Bytes)
  | build (error : BuildError α)

variable {α : Type}

def empty : Bench α := ⟨[], [], 0⟩

def putTree (b : Bench α) (place : Bytes) (t : NamedTree α) : Bench α :=
  { b with trees := Dict.insert place t b.trees }

def dropTree (b : Bench α) (place : Bytes) : Bench α :=
  { b with trees := Dict.erase place b.trees }

def putBuilder (b : Bench α) (place : Bytes) (builder : Builder α) : Bench α :=
  { b with builders := Dict.insert place builder b.builders }

/-- One step, with the label that `make` gives for a count and the text of a pattern. A failed
step leaves the bench as it was, but for the place of a tree handed to a builder. -/
def step (make : Nat → Bytes → Except (BuildError α) α) (b : Bench α) :
    Step → Except (Fault α) Unit × Bench α
  | .leaf into source =>
    match make b.made source with
    | .error e => (.error (.build e), b)
    | .ok a => (.ok (), { b with made := b.made + 1 }.putTree into (.leaf a))
  | .root into source =>
    match make b.made source with
    | .error e => (.error (.build e), b)
    | .ok a => (.ok (), { b with made := b.made + 1 }.putBuilder into (.ofLabel a))
  | .child place name tree =>
    match b.builders.lookup place, b.trees.lookup tree with
    | none, _ => (.error (.noBuilder place), b)
    | some _, none => (.error (.noTree tree), b)
    | some builder, some t =>
      match builder.withChild name t with
      | .error e => (.error (.build e), b.dropTree tree)
      | .ok builder' => (.ok (), (b.dropTree tree).putBuilder place builder')
  | .build place into =>
    match b.builders.lookup place with
    | none => (.error (.noBuilder place), b)
    | some builder =>
      match builder.build with
      | .error e => (.error (.build e), b)
      | .ok t => (.ok (), (b.putBuilder place .spent).putTree into t)
  | .moveBuilder place into =>
    match b.builders.lookup place with
    | none => (.error (.noBuilder place), b)
    | some builder => (.ok (), (b.putBuilder place .spent).putBuilder into builder)
  | .moveTree tree into =>
    match b.trees.lookup tree with
    | none => (.error (.noTree tree), b)
    | some t => (.ok (), (b.dropTree tree).putTree into t)

/-- The bench after all steps, the failed ones included. -/
def run (make : Nat → Bytes → Except (BuildError α) α) (b : Bench α) (steps : List Step) :
    Bench α :=
  steps.foldl (fun b s => (b.step make s).2) b

theorem run_cons (make : Nat → Bytes → Except (BuildError α) α) (b : Bench α) (s : Step)
    (rest : List Step) : b.run make (s :: rest) = (b.step make s).2.run make rest := rfl

end Bench
end NestedMatch
