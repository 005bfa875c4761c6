import NestedMatch.Builder
import NestedMatch.Json.Reader
import NestedMatch.Path

/-! Pattern trees described in JSON: an object with the text of the pattern under `regex` and, if
there are any, the descriptions of the children under `children`. Other members are free. The first
fault ends the reading, a description before its children and these in the order of their names. -/

namespace NestedMatch

inductive LoadError where
  | notObject (path : Path) (found : Bytes)
  | missingRegex (path : Path)
  | regexNotString (path : Path) (found : Bytes)
  | childrenNotObject (path : Path) (found : Bytes)
  | build (error : BuildError Pattern)
  | notJson
  | fileNotJson (file : Bytes)
  | cannotOpen (file : Bytes)

def LoadError.wording : LoadError → Bytes
  | .notObject path found =>
    path.render ++ Bytes.ofString ": expected an object, got " ++ found
  | .missingRegex path => path.render ++ Bytes.ofString ": missing \"regex\""
  | .regexNotString path found =>
    path.render ++ Bytes.ofString ": \"regex\" must be a string, got " ++ found
  | .childrenNotObject path found =>
    path.render ++ Bytes.ofString ": \"children\" must be an object, got " ++ found
  | .build error => error.wording
  | .notJson => Bytes.ofString "Invalid pattern tree JSON: syntax error"
  | .fileNotJson file =>
    Bytes.ofString "Invalid pattern tree JSON in '" ++ file ++ Bytes.ofString "': syntax error"
  | .cannotOpen file =>
    Bytes.ofString "Cannot open pattern tree file '" ++ file ++ Bytes.ofString "'"

/-- A message ends before the first zero byte of its wording. -/
def LoadError.message (e : LoadError) : Bytes := e.wording.untilZero

/-- Where files are read: the content of a file, if it can be opened. -/
abbrev Files := Bytes → Option Bytes

/-- The files of a list. An empty name opens nothing. -/
def Files.ofList (entries : List (Bytes × Bytes)) : Files := fun name =>
  if name = [] then none else entries.lookup name

namespace Description

/-- The text of the pattern. -/
def regex (members : List (Bytes × Json)) (path : Path) : Except LoadError Bytes :=
  match members.lookup (Bytes.ofString "regex") with
  | none => .error (.missingRegex path)
  | some (.string source) => .ok source
  | some other => .error (.regexNotString path other.kind)

/-- A builder's error is one of loading. -/
def lift {β : Type} : Except (BuildError Pattern) β → Except LoadError β := Except.mapError .build

mutual

/-- The pattern tree that a description gives. -/
def load (engine : Engine) : Json → Path → Except LoadError PatternTree
  | .object members, path => do
    let source ← regex members path
    let pattern ← lift (engine.compile source)
    let builder ← addDescribed engine members path (.ofLabel pattern)
    lift builder.build
  | other, path => .error (.notObject path other.kind)

/-- Gives the builder the children that the member `children` describes, if there is one. -/
def addDescribed (engine : Engine) :
    List (Bytes × Json) → Path → Builder Pattern → Except LoadError (Builder Pattern)
  | [], _, builder => .ok builder
  | (name, description) :: rest, path, builder =>
    if name = Bytes.ofString "children" then
      match description with
      | .object children => addChildren engine children path builder
      | other => .error (.childrenNotObject path other.kind)
    else addDescribed engine rest path builder

def addChildren (engine : Engine) :
    List (Bytes × Json) → Path → Builder Pattern → Except LoadError (Builder Pattern)
  | [], _, builder => .ok builder
  | (name, description) :: rest, path, builder => do
    let child ← load engine description (path.member name)
    let builder ← lift (builder.withChild name child)
    addChildren engine rest path builder

end

end Description

namespace PatternTree

/-- The pattern tree that a JSON value describes. -/
def ofDescription (engine : Engine) (description : Json) : Except LoadError PatternTree :=
  Description.load engine description Path.root

/-- The pattern tree that a JSON text describes. -/
def ofText (engine : Engine) (text : Bytes) : Except LoadError PatternTree :=
  match Json.ofText? text with
  | none => .error .notJson
  | some description => ofDescription engine description

/-- The pattern tree that a file describes. -/
def ofFile (engine : Engine) (files : Files) (name : Bytes) : Except LoadError PatternTree :=
  match files name with
  | none => .error (.cannotOpen name)
  | some text =>
    match Json.ofText? text with
    | none => .error (.fileNotJson name)
    | some description => ofDescription engine description

end PatternTree
end NestedMatch
