import NestedMatch.Pattern

/-! Builders: a pattern tree under construction. Building hands the tree out and leaves the builder
spent. Labels are any type, so that a label can carry more than a pattern. -/

namespace NestedMatch

inductive BuildError (α : Type) where
  /-- The engine does not compile the pattern, for this reason. -/
  | rejected (source reason : Bytes)
  /-- The name has a child already. -/
  | duplicateChild (name : Bytes) (parent : α)
  /-- The tree has been handed out. -/
  | spent
deriving DecidableEq, Repr

inductive Builder (α : Type) where
  | live (label : α) (children : List (Bytes × NamedTree α))
  | spent

def BuildError.wording : BuildError Pattern → Bytes
  | .rejected source reason =>
    Bytes.ofString "Failed to compile pattern '" ++ source ++ Bytes.ofString "': " ++ reason
  | .duplicateChild name parent =>
    Bytes.ofString "Child '" ++ name ++ Bytes.ofString "' registered twice on pattern '" ++
      parent.source ++ Bytes.ofString "'"
  | .spent => Bytes.ofString "Pattern node builder used after build()"

/-- A message ends before the first zero byte of its wording. -/
def BuildError.message (e : BuildError Pattern) : Bytes := e.wording.untilZero

/-- Compiles a pattern. -/
def Engine.compile (engine : Engine) (source : Bytes) : Except (BuildError Pattern) Pattern :=
  match engine source with
  | .ok matcher => .ok ⟨source, matcher⟩
  | .error reason => .error (.rejected source reason)

namespace Builder

variable {α : Type}

def ofLabel (a : α) : Builder α := .live a []

/-- Puts a child under a name that has none yet. The name need not be a group of the pattern. -/
def withChild (name : Bytes) (child : NamedTree α) : Builder α → Except (BuildError α) (Builder α)
  | .live a children =>
    match children.lookup name with
    | some _ => .error (.duplicateChild name a)
    | none => .ok (.live a (Dict.insert name child children))
  | .spent => .error .spent

/-- The tree built. -/
def build : Builder α → Except (BuildError α) (NamedTree α)
  | .live a children => .ok (.node a children)
  | .spent => .error .spent

@[simp] theorem build_live (a : α) (children : List (Bytes × NamedTree α)) :
    build (.live a children) = .ok (.node a children) := rfl

@[simp] theorem build_spent : build (.spent : Builder α) = .error .spent := rfl

@[simp] theorem withChild_spent (name : Bytes) (child : NamedTree α) :
    withChild name child .spent = .error .spent := rfl

theorem withChild_of_lookup_none {name : Bytes} {a : α} {children : List (Bytes × NamedTree α)}
    (h : children.lookup name = none) (child : NamedTree α) :
    withChild name child (.live a children) = .ok (.live a (Dict.insert name child children)) := by
  simp [withChild, h]

theorem withChild_of_lookup_some {name : Bytes} {a : α} {children : List (Bytes × NamedTree α)}
    {old : NamedTree α} (h : children.lookup name = some old) (child : NamedTree α) :
    withChild name child (.live a children) = .error (.duplicateChild name a) := by
  simp [withChild, h]

end Builder
end NestedMatch
