import NestedMatch.Decimal
import NestedMatch.MatchTree

/-! The indented text of a match tree: a line for every occurrence, below it a line for every named
group, and below a group what its child pattern found. -/

namespace NestedMatch.Dump

/-- Line breaks, tabs, quotes and backslashes are written with a backslash, all else as it is. -/
def escapeByte (b : UInt8) : Bytes :=
  if b = 10 then [92, 110]
  else if b = 13 then [92, 114]
  else if b = 9 then [92, 116]
  else if b = 34 then [92, 34]
  else if b = 92 then [92, 92]
  else [b]

def quoted (text : Bytes) : Bytes := 34 :: text.flatMap escapeByte ++ [34]

def capture (c : Capture) : Bytes :=
  Decimal.ofNat c.span.start ++ 45 :: Decimal.ofNat c.span.stop ++ 32 :: quoted c.text

def indent (depth : Nat) : Bytes := List.replicate (2 * depth) 32

/-- The line of a group, and below it the dump of its child if that took part. -/
def group (depth : Nat) (name : Bytes) (captured : Option Capture) (child : Option Bytes) : Bytes :=
  match captured with
  | none => indent depth ++ Bytes.ofString "  " ++ name ++ Bytes.ofString ": absent\n"
  | some c => indent depth ++ Bytes.ofString "  " ++ name ++ Bytes.ofString ": " ++ capture c ++
      10 :: child.getD []

mutual

/-- The dump of a tree at a depth. -/
def tree (depth : Nat) : List Occurrence → Bytes
  | [] => indent depth ++ Bytes.ofString "(no matches)\n"
  | o :: rest => occurrence depth 0 o ++ occurrences depth 1 rest

def occurrences (depth index : Nat) : List Occurrence → Bytes
  | [] => []
  | o :: rest => occurrence depth index o ++ occurrences depth (index + 1) rest

def occurrence (depth index : Nat) : Occurrence → Bytes
  | ⟨whole, groups, children⟩ =>
    let below := childDumps (depth + 2) children
    indent depth ++ 91 :: Decimal.ofNat index ++ Bytes.ofString "] " ++ capture whole ++ 10 ::
      groups.flatMap fun (name, captured) => group depth name captured (below.lookup name).join

/-- The dumps of the children that took part, under their names. -/
def childDumps (depth : Nat) :
    List (Bytes × Option (List Occurrence)) → List (Bytes × Option Bytes)
  | [] => []
  | (name, none) :: rest => (name, none) :: childDumps depth rest
  | (name, some t) :: rest => (name, some (tree depth t)) :: childDumps depth rest

end

end NestedMatch.Dump

namespace NestedMatch

def MatchTree.dump (t : MatchTree) : Bytes := Dump.tree 0 t

end NestedMatch
