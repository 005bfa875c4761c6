import NestedMatch.Decimal

/-! Places below a root: `$`, then `.name` for a member and `[i]` for an element. -/

namespace NestedMatch

inductive Path.Step where
  | member (name : Bytes)
  | element (index : Nat)
deriving DecidableEq, Repr

/-- The steps from the root, the first one first. -/
abbrev Path := List Path.Step

namespace Path

def Step.render : Step → Bytes
  | .member name => 46 :: name
  | .element index => 91 :: Decimal.ofNat index ++ [93]

def root : Path := []

def member (path : Path) (name : Bytes) : Path := path ++ [.member name]

def element (path : Path) (index : Nat) : Path := path ++ [.element index]

def render (path : Path) : Bytes := 36 :: path.flatMap Step.render

@[simp] theorem append_root (path : Path) : path ++ root = path := List.append_nil path

@[simp] theorem render_root : render root = [36] := rfl

theorem render_member (path : Path) (name : Bytes) :
    render (member path name) = render path ++ 46 :: name := by
  simp [render, member, Step.render]

theorem render_element (path : Path) (index : Nat) :
    render (element path index) = render path ++ 91 :: (Decimal.ofNat index ++ [93]) := by
  simp [render, element, Step.render]

end Path
end NestedMatch
