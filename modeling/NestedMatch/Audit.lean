import NestedMatch.Description
import NestedMatch.Dump
import NestedMatch.Residue

/-! The audit of a text against a pattern tree: the dump of all matches, and a report of the bytes
that no top-level match covers. -/

namespace NestedMatch.Audit

inductive Failure where
  | usage
  | load (error : LoadError)
  | cannotOpenInput (file : Bytes)

/-- What a run leaves behind. -/
structure Outcome where
  status : Nat
  output : Bytes
  report : Bytes
deriving DecidableEq, Repr

/-- What is said of a failure, up to the first zero byte. -/
def Failure.message : Failure → Bytes
  | .usage => Bytes.ofString "Usage: retree-audit <tree.json> <input-file>"
  | .load error => Bytes.ofString "Error: " ++ error.message
  | .cannotOpenInput file =>
    Bytes.untilZero (Bytes.ofString "Error: Cannot open input file '" ++ file ++
      Bytes.ofString "'")

/-- The pattern tree and the text that the arguments name, the tree looked at first. -/
def open? (engine : Engine) (files : Files) : List Bytes → Except Failure (PatternTree × Bytes)
  | [treeFile, inputFile] => do
    let tree ← (PatternTree.ofFile engine files treeFile).mapError .load
    match files inputFile with
    | none => .error (.cannotOpenInput inputFile)
    | some text => return (tree, text)
  | _ => .error .usage

/-- The line for one stretch that is not covered. -/
def spanLine (text : Bytes) (s : Span) : Bytes :=
  Bytes.ofString "  Uncaptured[" ++ Decimal.ofNat s.start ++ 45 :: Decimal.ofNat s.stop ++
    Bytes.ofString "]: '" ++ s.cut text ++ Bytes.ofString "'\n"

/-- The number of bytes in all stretches. -/
def total : List Span → Nat
  | [] => 0
  | s :: rest => s.size + total rest

def verdict (uncaptured size : Nat) : Bytes :=
  if uncaptured = 0 then
    Bytes.ofString "All " ++ Decimal.ofNat size ++ Bytes.ofString " bytes captured\n"
  else
    Decimal.ofNat uncaptured ++ Bytes.ofString " of " ++ Decimal.ofNat size ++
      Bytes.ofString " bytes uncaptured\n"

/-- The outcome for a text: status 0 where every byte is covered, else 1. -/
def examine (tree : PatternTree) (text : Bytes) : Outcome :=
  let spans := Residue.spans tree.pattern text
  ⟨if total spans = 0 then 0 else 1, (tree.occurrences text 0).dump,
    spans.flatMap (spanLine text) ++ verdict (total spans) text.length⟩

/-- The whole program, for its arguments. -/
def run (engine : Engine) (files : Files) (arguments : List Bytes) : Outcome :=
  match open? engine files arguments with
  | .ok (tree, text) => examine tree text
  | .error failure => ⟨1, [], failure.message ++ [10]⟩

end NestedMatch.Audit
