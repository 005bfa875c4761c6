import Mathlib.Data.List.Forall2
import NestedMatch.Description
import NestedMatch.Proofs.FirstFault

/-! Descriptions of pattern trees, said without loading them: which ones are well-formed, which
pattern tree one describes, and all faults of one in the order in which it is walked, a description
before its children and these in the order of their names, each with all that is below it before
the next. -/

namespace NestedMatch

namespace Json

/-- The members of every object stand in the order of their names, each name once. -/
inductive Ordered : Json → Prop
  | null : Ordered .null
  | boolean {b : Bool} : Ordered (.boolean b)
  | number {lexeme : Bytes} : Ordered (.number lexeme)
  | string {text : Bytes} : Ordered (.string text)
  | array {elements : List Json} : (∀ v ∈ elements, Ordered v) → Ordered (.array elements)
  | object {members : List (Bytes × Json)} :
    Dict.Sorted members → (∀ m ∈ members, Ordered m.2) → Ordered (.object members)

/-- The members of an object; other values have none. -/
def entries : Json → List (Bytes × Json)
  | .object members => members
  | _ => []

theorem Ordered.of_object {members : List (Bytes × Json)} (h : Ordered (.object members)) :
    Dict.Sorted members ∧ ∀ m ∈ members, Ordered m.2 := by
  cases h
  exact ⟨‹_›, ‹_›⟩

end Json

/-- The place of the description at fault, where the error is about one. -/
def LoadError.path? : LoadError → Option Path
  | .notObject path _ => some path
  | .missingRegex path => some path
  | .regexNotString path _ => some path
  | .childrenNotObject path _ => some path
  | _ => none

namespace Description

/-- The descriptions of the children: the members of `children`, where that is an object. -/
def children : Json → List (Bytes × Json)
  | .object members =>
    match members.lookup (Bytes.ofString "children") with
    | some (.object children) => children
    | _ => []
  | _ => []

/-- An object with a text under `regex` and, if there is anything under `children`, an object of
well-formed descriptions. Other members are free. -/
inductive WellFormed : Json → Prop
  | object {members : List (Bytes × Json)} {source : Bytes} :
    members.lookup (Bytes.ofString "regex") = some (.string source) →
    (∀ v, members.lookup (Bytes.ofString "children") = some v → ∃ children, v = .object children) →
    (∀ c ∈ children (.object members), WellFormed c.2) → WellFormed (.object members)

/-- At every depth the node has the pattern under `regex`, compiled, and under each name in
`children` what is described there. -/
inductive Describes (engine : Engine) : Json → PatternTree → Prop
  | object {members : List (Bytes × Json)} {source : Bytes} {matcher : Matcher}
    {branches : List (Bytes × PatternTree)} :
    members.lookup (Bytes.ofString "regex") = some (.string source) →
    engine source = .ok matcher →
    (∀ v, members.lookup (Bytes.ofString "children") = some v → ∃ children, v = .object children) →
    Dict.names branches = Dict.names (children (.object members)) →
    (∀ c b, (c, b) ∈ (children (.object members)).zip branches → Describes engine c.2 b.2) →
    Describes engine (.object members) (.node ⟨source, matcher⟩ branches)

mutual

/-- A description and all that are reached from it through `children`, each with the names on the
way to it. -/
def places : Json → List (List Bytes × Json)
  | .object members => ([], .object members) :: placesInMembers members
  | other => [([], other)]

def placesInMembers : List (Bytes × Json) → List (List Bytes × Json)
  | [] => []
  | (name, d) :: rest =>
    if name = Bytes.ofString "children" then
      match d with
      | .object children => placesInChildren children
      | _ => []
    else placesInMembers rest

def placesInChildren : List (Bytes × Json) → List (List Bytes × Json)
  | [] => []
  | (name, d) :: rest =>
    (places d).map (fun place => (name :: place.1, place.2)) ++ placesInChildren rest

end

/-- Every pattern that is reached through `children` compiles. -/
def Compiles (engine : Engine) (d : Json) : Prop :=
  ∀ names members source, (names, .object members) ∈ places d →
    members.lookup (Bytes.ofString "regex") = some (.string source) →
    ∃ matcher, engine source = .ok matcher

/-- The error is that the engine does not compile the pattern of the description. -/
def Refused (engine : Engine) (d : Json) (e : LoadError) : Prop :=
  ∃ members source reason, d = .object members ∧
    members.lookup (Bytes.ofString "regex") = some (.string source) ∧
    engine source = .error reason ∧ e = .build (.rejected source reason)

def regexFaults (engine : Engine) (path : Path) : Option Json → List LoadError
  | none => [.missingRegex path]
  | some (.string source) =>
    match engine source with
    | .ok _ => []
    | .error reason => [.build (.rejected source reason)]
  | some other => [.regexNotString path other.kind]

def childrenFaults (path : Path) : Option Json → List LoadError
  | none => []
  | some (.object _) => []
  | some other => [.childrenNotObject path other.kind]

/-- The faults of a description by itself. -/
def faultsHere (engine : Engine) (path : Path) : Json → List LoadError
  | .object members =>
    regexFaults engine path (members.lookup (Bytes.ofString "regex")) ++
      childrenFaults path (members.lookup (Bytes.ofString "children"))
  | other => [.notObject path other.kind]

/-- All faults of a description that stands at a path. -/
def faults (engine : Engine) (path : Path) (d : Json) : List LoadError :=
  (places d).flatMap fun place => faultsHere engine (path ++ place.1.map .member) place.2

theorem exists_of_mem_children {d : Json} {c : Bytes × Json} (h : c ∈ children d) :
    ∃ m ∈ d.entries, c ∈ m.2.entries := by
  unfold children at h
  split at h
  · rename_i members
    split at h
    · rename_i hlookup
      exact ⟨_, Dict.mem_of_lookup hlookup, h⟩
    · cases h
  · cases h

/-- Induction over a description, with the hypothesis for every child. -/
@[elab_as_elim]
theorem induct {motive : Json → Prop} (step : ∀ d, (∀ c ∈ children d, motive c.2) → motive d)
    (d : Json) : motive d := by
  -- a child is a member of a member
  suffices h : motive d ∧ ∀ m ∈ d.entries, motive m.2 from h.1
  have plain {d : Json} (hd : d.entries = []) : motive d ∧ ∀ m ∈ d.entries, motive m.2 := by
    refine ⟨step d fun c hc => ?_, by simp [hd]⟩
    obtain ⟨m, hm, -⟩ := exists_of_mem_children hc
    simp [hd] at hm
  induction d with
  | null => exact plain rfl
  | boolean b => exact plain rfl
  | number lexeme => exact plain rfl
  | string text => exact plain rfl
  | array elements _ => exact plain rfl
  | object members ih =>
    refine ⟨step _ fun c hc => ?_, fun m hm => (ih m hm).1⟩
    obtain ⟨m, hm, hc⟩ := exists_of_mem_children hc
    exact (ih m hm).2 c hc

theorem ordered_children {d : Json} (h : d.Ordered) :
    Dict.Sorted (children d) ∧ ∀ c ∈ children d, c.2.Ordered := by
  unfold children
  split
  · rename_i members
    split
    · rename_i hlookup
      exact (h.of_object.2 _ (Dict.mem_of_lookup hlookup)).of_object
    · exact ⟨.nil, by simp⟩
  · exact ⟨.nil, by simp⟩

theorem placesInChildren_eq (cs : List (Bytes × Json)) :
    placesInChildren cs = cs.flatMap fun c =>
      (places c.2).map fun place => (c.1 :: place.1, place.2) := by
  induction cs with
  | nil => rfl
  | cons c rest ih => rw [placesInChildren, List.flatMap_cons, ih]

theorem placesInMembers_eq (members : List (Bytes × Json)) :
    placesInMembers members = placesInChildren (children (.object members)) := by
  induction members with
  | nil => rfl
  | cons m rest ih =>
    obtain ⟨name, d⟩ := m
    unfold placesInMembers
    by_cases h : name = Bytes.ofString "children"
    · subst h
      rw [if_pos rfl, children, List.lookup_cons_self]
      cases d with
      | object cs => rfl
      | _ => rfl
    · rw [if_neg h, ih, children, children, Dict.lookup_cons_of_ne (Ne.symm h)]

theorem places_eq (d : Json) :
    places d = ([], d) :: (children d).flatMap fun c =>
      (places c.2).map fun place => (c.1 :: place.1, place.2) := by
  rw [← placesInChildren_eq]
  cases d with
  | object members => rw [places, placesInMembers_eq]
  | _ => rfl

theorem faults_eq (engine : Engine) (path : Path) (d : Json) :
    faults engine path d = faultsHere engine path d ++
      (children d).flatMap fun c => faults engine (path.member c.1) c.2 := by
  rw [faults, places_eq, List.flatMap_cons, List.map_nil, List.append_nil, List.flatMap_assoc]
  congr 2
  funext c
  rw [List.flatMap_map, faults]
  simp [Path.member]

end Description
end NestedMatch
