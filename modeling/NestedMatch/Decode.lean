import NestedMatch.MatchTree
import NestedMatch.Path
import NestedMatch.Shape

/-! Decoding: a match tree read as a value of a shape. First the shape is checked against the
pattern tree alone, then the occurrences are read. Both passes stop at the first fault. -/

namespace NestedMatch

/-- How many occurrences a shape asks for. -/
inductive Arity where
  | exactlyOne
  | atMostOne
  | exactly (n : Nat)
deriving DecidableEq, Repr

inductive DecodeError where
  /-- A field was asked of text that a group without a child pattern captured. -/
  | withoutPattern (path : Path) (field : Bytes)
  /-- The pattern has no group of the field's name. -/
  | unknownGroup (path : Path) (field pattern : Bytes)
  /-- The wrong number of occurrences: of a pattern, or of a captured group. -/
  | arity (path : Path) (target : Bytes) (expected : Arity) (pattern : Option Bytes) (found : Nat)
  /-- The text is no numeral, or no other spelling, of the type. -/
  | unreadable (path : Path) (text : Bytes) (type : Scalar)
  /-- The match tree says nothing about a group or child that the pattern tree has. -/
  | nonconforming (path : Path) (field : Bytes)

def Arity.words : Arity → Bytes
  | .exactlyOne => Bytes.ofString "exactly one"
  | .atMostOne => Bytes.ofString "at most one"
  | .exactly n => Bytes.ofString "exactly " ++ Decimal.ofNat n

namespace DecodeError

/-- The text between single quotes. -/
def quote (text : Bytes) : Bytes := 39 :: text ++ [39]

def source : Option Bytes → Bytes
  | none => Bytes.ofString "captured group"
  | some pattern => Bytes.ofString "pattern " ++ quote pattern

def wording : DecodeError → Bytes
  | .withoutPattern path field =>
    path.render ++ Bytes.ofString ": field " ++ quote field ++ Bytes.ofString
      " requested from text captured by a group without a child pattern"
  | .unknownGroup path field pattern =>
    path.render ++ Bytes.ofString ": field " ++ quote field ++
      Bytes.ofString " has no named group in pattern " ++ quote pattern
  | .arity path target expected pattern found =>
    path.render ++ Bytes.ofString ": " ++ target ++ Bytes.ofString " requires " ++
      expected.words ++ Bytes.ofString " match of " ++ source pattern ++
      Bytes.ofString ", found " ++ Decimal.ofNat found
  | .unreadable path text type =>
    path.render ++ Bytes.ofString ": cannot parse " ++ quote text ++ Bytes.ofString " as " ++
      type.name
  | .nonconforming path field =>
    path.render ++ Bytes.ofString ": no entry for " ++ quote field

/-- A message ends before the first zero byte of its wording. -/
def message (e : DecodeError) : Bytes := e.wording.untilZero

end DecodeError

/-- An occurrence of what a group captured, as if a pattern without groups had matched all of it. -/
def Occurrence.ofCapture (c : Capture) : Occurrence := ⟨c, [], []⟩

namespace Shape

mutual

/-- Whether every field that the shape asks for is a group of the pattern it is taken from. The
scope is the pattern tree, or none for text that a group without a child pattern captured. -/
def check : Shape → Option PatternTree → Path → Except DecodeError Unit
  | .scalar _, _, _ => .ok ()
  | .optional inner, scope, path => inner.check scope path
  | .sequence inner, scope, path => inner.check scope path
  | .spanned inner, scope, path => inner.check scope path
  | .tuple components, scope, path => checkComponents components scope path 0
  | .record fields, scope, path => checkFields fields scope path

def checkComponents :
    List Shape → Option PatternTree → Path → Nat → Except DecodeError Unit
  | [], _, _, _ => .ok ()
  | s :: rest, scope, path, i => do
    s.check scope (path.element i)
    checkComponents rest scope path (i + 1)

def checkFields :
    List (Bytes × Shape) → Option PatternTree → Path → Except DecodeError Unit
  | [], _, _ => .ok ()
  | (name, _) :: _, none, path => .error (.withoutPattern path name)
  | (name, s) :: rest, some tree, path =>
    if tree.hasGroup name then do
      s.check (tree.child? name) (path.member name)
      checkFields rest (some tree) path
    else .error (.unknownGroup path name tree.source)

end

/-- The occurrences a field is read from: those of the child pattern, or without a child one of
what the group captured. -/
def fieldOccurrences (scope : Option PatternTree) (path : Path) (name : Bytes) (o : Occurrence) :
    Except DecodeError (List Occurrence) :=
  match scope with
  | none => .error (.withoutPattern path name)
  | some tree =>
    match tree.child? name with
    | some _ =>
      match o.children.lookup name with
      | some found => .ok (found.getD [])
      | none => .error (.nonconforming path name)
    | none =>
      match o.groups.lookup name with
      | some captured => .ok (captured.map Occurrence.ofCapture).toList
      | none => .error (.nonconforming path name)

def miscount (s : Shape) (expected : Arity) (scope : Option PatternTree) (path : Path)
    (found : List Occurrence) : DecodeError :=
  .arity path s.name expected (scope.map PatternTree.source) found.length

/-- Reads each occurrence in turn, with its index. -/
def readEach (read : Nat → Occurrence → Except DecodeError Value) :
    Nat → List Occurrence → Except DecodeError (List Value)
  | _, [] => .ok []
  | i, o :: rest => do
    let v ← read i o
    let vs ← readEach read (i + 1) rest
    return v :: vs

mutual

/-- Reads occurrences as a value of the shape. -/
def read : Shape → Option PatternTree → Path → List Occurrence → Except DecodeError Value
  | .scalar type, scope, path, found =>
    match found with
    | [o] =>
      match type.parse o.whole.text with
      | some v => .ok (.scalar v)
      | none => .error (.unreadable path o.whole.text type)
    | _ => .error (miscount (.scalar type) .exactlyOne scope path found)
  | .optional inner, scope, path, found =>
    match found with
    | [] => .ok .absent
    | [o] => (inner.read scope path [o]).map .present
    | _ => .error (miscount (.optional inner) .atMostOne scope path found)
  | .sequence inner, scope, path, found =>
    (readEach (fun i o => inner.read scope (path.element i) [o]) 0 found).map .sequence
  | .spanned inner, scope, path, found =>
    match found with
    | [o] => (inner.read scope path [o]).map (.spanned o.whole.span)
    | _ => .error (miscount (.spanned inner) .exactlyOne scope path found)
  | .tuple components, scope, path, found =>
    if found.length = components.length then
      (readComponents components scope path 0 found).map .tuple
    else .error (miscount (.tuple components) (.exactly components.length) scope path found)
  | .record fields, scope, path, found =>
    match found with
    | [o] => (readFields fields scope path o).map .record
    | _ => .error (miscount (.record fields) .exactlyOne scope path found)

def readComponents : List Shape → Option PatternTree → Path → Nat → List Occurrence →
    Except DecodeError (List Value)
  | [], _, _, _, _ => .ok []
  | s :: rest, scope, path, i, found => do
    let v ← s.read scope (path.element i) (found.take 1)
    let vs ← readComponents rest scope path (i + 1) (found.drop 1)
    return v :: vs

def readFields : List (Bytes × Shape) → Option PatternTree → Path → Occurrence →
    Except DecodeError (List (Bytes × Value))
  | [], _, _, _ => .ok []
  | (name, s) :: rest, scope, path, o => do
    let found ← fieldOccurrences scope path name o
    let v ← s.read (scope.bind fun tree => tree.child? name) (path.member name) found
    let vs ← readFields rest scope path o
    return (name, v) :: vs

end

/-- Decodes a match tree of the pattern tree. -/
def decode (s : Shape) (tree : PatternTree) (found : MatchTree) : Except DecodeError Value := do
  s.check (some tree) Path.root
  s.read (some tree) Path.root found

/-- Matches a text and decodes what was found. -/
def decodeText (s : Shape) (tree : PatternTree) (text : Bytes) : Except DecodeError Value :=
  s.decode tree (tree.occurrences text 0)

end Shape
end NestedMatch
