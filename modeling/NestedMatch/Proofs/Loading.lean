import NestedMatch.Engine.Table
import NestedMatch.Proofs.Descriptions

/-! Loading a description. Children come in the order of their names, so the builder refuses none of
them and loading is seen without it: the pattern, what is wrong with `children`, and the children in
turn. Main statement: loading gives the pattern tree described where the description is well-formed
and every pattern in it compiles, and otherwise fails with the first fault. -/

namespace NestedMatch

namespace Description

variable {engine : Engine} {path : Path}

/-- The descriptions of the children, or what is wrong with `children`. -/
def describedChildren (members : List (Bytes × Json)) (path : Path) :
    Except LoadError (List (Bytes × Json)) :=
  match members.lookup (Bytes.ofString "children") with
  | none => .ok []
  | some (.object children) => .ok children
  | some other => .error (.childrenNotObject path other.kind)

/-- The children of a description, loaded in turn. -/
def loadEach (engine : Engine) (path : Path) :
    List (Bytes × Json) → Except LoadError (List (Bytes × PatternTree))
  | [] => .ok []
  | (name, d) :: rest => do
    let child ← load engine d (path.member name)
    let children ← loadEach engine path rest
    return (name, child) :: children

/-- A child whose name comes after all others is taken, and stands at the end. -/
theorem withChild_of_forall_lt {α : Type} {name : Bytes} {a : α}
    {done : List (Bytes × NamedTree α)} (h : ∀ b ∈ done, b.1 < name) (child : NamedTree α) :
    Builder.withChild name child (.live a done) = .ok (.live a (done ++ [(name, child)])) := by
  have hnone : done.lookup name = none := by
    refine List.lookup_eq_none_iff.2 fun b hb => ?_
    have : name ≠ b.1 := fun he => List.lt_irrefl name (by simpa [← he] using h b hb)
    simpa using this
  rw [Builder.withChild_of_lookup_none hnone, Dict.insert_of_forall_lt h]

/-- Children in the order of their names never meet a name that is taken. -/
theorem addChildren_eq {cs : List (Bytes × Json)} (hcs : Dict.Sorted cs) {p : Pattern}
    {done : List (Bytes × PatternTree)} (hdone : ∀ b ∈ done, ∀ c ∈ cs, b.1 < c.1) :
    addChildren engine cs path (.live p done) =
      (loadEach engine path cs).map fun bs => .live p (done ++ bs) := by
  induction cs generalizing done with
  | nil => simp [addChildren, loadEach, Except.map]
  | cons c rest ih =>
    obtain ⟨name, d⟩ := c
    obtain ⟨hfirst, hrest⟩ := List.pairwise_cons.1 hcs
    rw [addChildren, loadEach]
    cases load engine d (path.member name) with
    | error e => rfl
    | ok child =>
      have hlt : ∀ b ∈ done, b.1 < name := fun b hb => hdone b hb (name, d) List.mem_cons_self
      have hnext : ∀ b ∈ done ++ [(name, child)], ∀ c ∈ rest, b.1 < c.1 := by
        intro b hb c hc
        rcases List.mem_append.1 hb with hb | hb
        · exact hdone b hb c (List.mem_cons_of_mem _ hc)
        · obtain rfl := List.mem_singleton.1 hb
          exact hfirst c hc
      change lift (Builder.withChild name child (.live p done)) >>= _ = _
      rw [withChild_of_forall_lt hlt]
      change addChildren engine rest path (.live p (done ++ [(name, child)])) = _
      rw [ih hrest hnext]
      cases hload : loadEach engine path rest with
      | error e => rfl
      | ok bs => simp [bind, Except.bind, Except.map, pure, Except.pure]

theorem addDescribed_eq (members : List (Bytes × Json)) (builder : Builder Pattern) :
    addDescribed engine members path builder =
      describedChildren members path >>= fun cs => addChildren engine cs path builder := by
  induction members with
  | nil => rfl
  | cons m rest ih =>
    obtain ⟨name, d⟩ := m
    unfold addDescribed
    by_cases h : name = Bytes.ofString "children"
    · subst h
      rw [if_pos rfl, describedChildren, List.lookup_cons_self]
      cases d <;> rfl
    · rw [if_neg h, ih, describedChildren, describedChildren,
        Dict.lookup_cons_of_ne (Ne.symm h)]

theorem describedChildren_eq_ok {members cs : List (Bytes × Json)} :
    describedChildren members path = .ok cs ↔
      (∀ v, members.lookup (Bytes.ofString "children") = some v → ∃ cs, v = .object cs) ∧
        cs = children (.object members) := by
  unfold describedChildren
  cases h : members.lookup (Bytes.ofString "children") with
  | none => simp [children, h, eq_comm]
  | some v => cases v <;> simp [children, h, eq_comm]

/-- Loading without the builder, which refuses nothing and is never spent. -/
theorem load_object {members : List (Bytes × Json)} (h : Json.Ordered (.object members)) :
    load engine (.object members) path = (do
      let source ← regex members path
      let p ← lift (engine.compile source)
      let cs ← describedChildren members path
      let bs ← loadEach engine path cs
      return .node p bs) := by
  rw [load]
  congr 1
  funext source
  congr 1
  funext p
  rw [addDescribed_eq]
  cases hcs : describedChildren members path with
  | error e => rfl
  | ok cs =>
    have hsorted : Dict.Sorted cs :=
      (describedChildren_eq_ok.1 hcs).2 ▸ (ordered_children h).1
    change addChildren engine cs path (.live p []) >>= _ = _
    rw [addChildren_eq hsorted (by simp)]
    change _ = loadEach engine path cs >>= _
    cases loadEach engine path cs <;> rfl

theorem lift_eq_ok {β : Type} {x : Except (BuildError Pattern) β} {b : β} :
    lift x = .ok b ↔ x = .ok b := by
  cases x <;> simp [lift, Except.mapError]

theorem compile_eq_ok {source : Bytes} {p : Pattern} :
    engine.compile source = .ok p ↔ p.source = source ∧ engine source = .ok p.matcher := by
  unfold Engine.compile
  obtain ⟨s, m⟩ := p
  cases engine source with
  | error reason => simp
  | ok matcher => simp [eq_comm]

theorem regex_eq_ok {members : List (Bytes × Json)} {source : Bytes} :
    regex members path = .ok source ↔
      members.lookup (Bytes.ofString "regex") = some (.string source) := by
  unfold regex
  cases members.lookup (Bytes.ofString "regex") with
  | none => simp
  | some v => cases v <;> simp

theorem loadEach_eq_ok {cs : List (Bytes × Json)} {bs : List (Bytes × PatternTree)} :
    loadEach engine path cs = .ok bs ↔
      List.Forall₂ (fun c b => b.1 = c.1 ∧ load engine c.2 (path.member c.1) = .ok b.2) cs bs := by
  induction cs generalizing bs with
  | nil => simp [loadEach, eq_comm]
  | cons c rest ih =>
    obtain ⟨name, d⟩ := c
    simp only [loadEach, bind_eq_ok, pure_eq_ok, ih, List.forall₂_cons_left_iff]
    constructor
    · rintro ⟨child, hchild, children, hchildren, rfl⟩
      exact ⟨(name, child), children, ⟨rfl, hchild⟩, hchildren, rfl⟩
    · rintro ⟨⟨n, child⟩, children, ⟨rfl, hchild⟩, hchildren, rfl⟩
      exact ⟨child, hchild, children, hchildren, rfl⟩

/-- Two dictionaries with the same names, related entry by entry. -/
theorem forall₂_entries_iff {α β : Type} {R : Bytes × α → Bytes × β → Prop} {d : Dict α}
    {e : Dict β} :
    List.Forall₂ (fun a b => b.1 = a.1 ∧ R a b) d e ↔
      e.names = d.names ∧ ∀ a b, (a, b) ∈ d.zip e → R a b := by
  induction d generalizing e with
  | nil => cases e <;> simp [Dict.names]
  | cons a d ih =>
    cases e with
    | nil => simp [Dict.names]
    | cons b e =>
      rw [List.forall₂_cons, ih, List.zip_cons_cons]
      simp only [Dict.names, List.map_cons, List.cons.injEq, List.mem_cons, Prod.mk.injEq]
      grind

theorem describes_object_iff {members : List (Bytes × Json)} {tree : PatternTree} :
    Describes engine (.object members) tree ↔
      ∃ p bs, (members.lookup (Bytes.ofString "regex") = some (.string p.source) ∧
        engine p.source = .ok p.matcher) ∧
        (∀ v, members.lookup (Bytes.ofString "children") = some v → ∃ cs, v = .object cs) ∧
        List.Forall₂ (fun c b => b.1 = c.1 ∧ Describes engine c.2 b.2)
          (children (.object members)) bs ∧ tree = .node p bs := by
  constructor
  · intro h
    cases h with
    | @object _ source matcher bs hsource hmatcher hcs hnames hbs =>
      exact ⟨⟨source, matcher⟩, bs, ⟨hsource, hmatcher⟩, hcs,
        forall₂_entries_iff.2 ⟨hnames, hbs⟩, rfl⟩
  · rintro ⟨p, bs, ⟨hsource, hmatcher⟩, hcs, hbs, rfl⟩
    obtain ⟨hnames, hbs⟩ := forall₂_entries_iff.1 hbs
    exact .object hsource hmatcher hcs hnames hbs

theorem load_eq_ok_iff {d : Json} (h : d.Ordered) (path : Path) {tree : PatternTree} :
    load engine d path = .ok tree ↔ Describes engine d tree := by
  induction d using induct generalizing path tree with
  | step d ih =>
    cases d with
    | object members =>
      have hbelow (bs : List (Bytes × PatternTree)) :
          loadEach engine path (children (.object members)) = .ok bs ↔
            List.Forall₂ (fun c b => b.1 = c.1 ∧ Describes engine c.2 b.2)
              (children (.object members)) bs := by
        rw [loadEach_eq_ok, forall₂_entries_iff, forall₂_entries_iff]
        refine and_congr_right fun _ => forall₂_congr fun c b => imp_congr_right fun hmem => ?_
        have hc := (List.of_mem_zip hmem).1
        exact ih c hc ((ordered_children h).2 c hc) _
      rw [load_object h, describes_object_iff]
      simp only [bind_eq_ok, pure_eq_ok, regex_eq_ok, lift_eq_ok, compile_eq_ok,
        describedChildren_eq_ok]
      constructor
      · rintro ⟨_, hsource, p, ⟨rfl, hmatcher⟩, _, ⟨hcs, rfl⟩, bs, hbs, rfl⟩
        exact ⟨p, bs, ⟨hsource, hmatcher⟩, hcs, (hbelow bs).1 hbs, rfl⟩
      · rintro ⟨p, bs, ⟨hsource, hmatcher⟩, hcs, hbs, rfl⟩
        exact ⟨_, hsource, p, ⟨rfl, hmatcher⟩, _, ⟨hcs, rfl⟩, bs, (hbelow bs).2 hbs, rfl⟩
    | _ => exact iff_of_false (by simp [load]) (by rintro ⟨⟩)

theorem compile_reports (engine : Engine) (source : Bytes) :
    Reports (lift (engine.compile source))
      (match engine source with
        | .ok _ => []
        | .error reason => [.build (.rejected source reason)]) := by
  unfold Engine.compile
  cases engine source with
  | ok matcher => exact .ok _
  | error reason => exact .error _ _

/-- What comes before the children: the text of the pattern, then the pattern. -/
theorem pattern_reports (engine : Engine) (members : List (Bytes × Json)) (path : Path) :
    Reports (regex members path >>= fun source => lift (engine.compile source))
      (regexFaults engine path (members.lookup (Bytes.ofString "regex"))) := by
  unfold regex
  cases members.lookup (Bytes.ofString "regex") with
  | none => exact .error _ _
  | some v =>
    cases v with
    | string source => exact compile_reports engine source
    | _ => exact .error _ _

theorem describedChildren_reports (members : List (Bytes × Json)) (path : Path) :
    Reports (describedChildren members path)
      (childrenFaults path (members.lookup (Bytes.ofString "children"))) := by
  unfold describedChildren
  cases members.lookup (Bytes.ofString "children") with
  | none => exact .ok _
  | some v =>
    cases v with
    | object cs => exact .ok _
    | _ => exact .error _ _

theorem loadEach_reports {cs : List (Bytes × Json)} {es : Bytes × Json → List LoadError}
    (h : ∀ c ∈ cs, Reports (load engine c.2 (path.member c.1)) (es c)) :
    Reports (loadEach engine path cs) (cs.flatMap es) := by
  induction cs with
  | nil => exact .ok []
  | cons c rest ih =>
    obtain ⟨name, d⟩ := c
    obtain ⟨hfirst, hrest⟩ := List.forall_mem_cons.1 h
    rw [loadEach, List.flatMap_cons]
    exact hfirst.both (fun child children => (name, child) :: children) (ih hrest)

theorem load_reports {d : Json} (h : d.Ordered) (path : Path) :
    Reports (load engine d path) (faults engine path d) := by
  induction d using induct generalizing path with
  | step d ih =>
    rw [faults_eq]
    cases d with
    | object members =>
      rw [load_object h, faultsHere, List.append_assoc, ← bind_assoc]
      refine (pattern_reports engine members path).bind fun p _ => ?_
      refine (describedChildren_reports members path).bind fun cs hcs => ?_
      obtain ⟨-, rfl⟩ := describedChildren_eq_ok.1 hcs
      refine (loadEach_reports fun c hc => ?_).map (NamedTree.node p)
      exact ih c hc ((ordered_children h).2 c hc) (path.member c.1)
    | _ => exact .error _ _

theorem faultsHere_object_eq_nil_iff {members : List (Bytes × Json)} :
    faultsHere engine path (.object members) = [] ↔
      (∃ source, members.lookup (Bytes.ofString "regex") = some (.string source) ∧
        ∃ matcher, engine source = .ok matcher) ∧
      ∀ v, members.lookup (Bytes.ofString "children") = some v → ∃ cs, v = .object cs := by
  rw [faultsHere, List.append_eq_nil_iff]
  refine and_congr ?_ ?_
  · cases members.lookup (Bytes.ofString "regex") with
    | none => simp [regexFaults]
    | some v =>
      cases v with
      | string source => cases h : engine source <;> simp [regexFaults, h]
      | _ => simp [regexFaults]
  · cases members.lookup (Bytes.ofString "children") with
    | none => simp [childrenFaults]
    | some v => cases v <;> simp [childrenFaults]

theorem compiles_object_iff {members : List (Bytes × Json)} :
    Compiles engine (.object members) ↔
      (∀ source, members.lookup (Bytes.ofString "regex") = some (.string source) →
        ∃ matcher, engine source = .ok matcher) ∧
      ∀ c ∈ children (.object members), Compiles engine c.2 := by
  unfold Compiles
  rw [places_eq]
  constructor
  · intro h
    refine ⟨fun source => h [] members source List.mem_cons_self, ?_⟩
    intro c hc names ms source hplace
    refine h (c.1 :: names) ms source (List.mem_cons_of_mem _ ?_)
    exact List.mem_flatMap.2 ⟨c, hc, List.mem_map_of_mem hplace⟩
  · rintro ⟨hhere, hbelow⟩ names ms source hplace
    rcases List.mem_cons.1 hplace with he | hplace
    · cases he
      exact hhere source
    · obtain ⟨c, hc, hmem⟩ := List.mem_flatMap.1 hplace
      obtain ⟨⟨names', d⟩, hplace', he⟩ := List.mem_map.1 hmem
      cases he
      exact hbelow c hc names' ms source hplace'

theorem faults_eq_nil_iff {d : Json} (path : Path) :
    faults engine path d = [] ↔ WellFormed d ∧ Compiles engine d := by
  induction d using induct generalizing path with
  | step d ih =>
    rw [faults_eq, List.append_eq_nil_iff, List.flatMap_eq_nil_iff]
    cases d with
    | object members =>
      rw [faultsHere_object_eq_nil_iff, compiles_object_iff]
      constructor
      · rintro ⟨⟨⟨source, hsource, hmatcher⟩, hfit⟩, hbelow⟩
        have hbelow (c : Bytes × Json) (hc : c ∈ children (.object members)) :=
          (ih c hc _).1 (hbelow c hc)
        refine ⟨.object hsource hfit fun c hc => (hbelow c hc).1, ?_, fun c hc => (hbelow c hc).2⟩
        intro source' hsource'
        rw [hsource] at hsource'
        cases hsource'
        exact hmatcher
      · rintro ⟨hwell, hhere, hbelow⟩
        cases hwell with
        | object hsource hfit hchildren =>
          exact ⟨⟨⟨_, hsource, hhere _ hsource⟩, hfit⟩,
            fun c hc => (ih c hc _).2 ⟨hchildren c hc, hbelow c hc⟩⟩
    | _ => exact iff_of_false (by simp [faultsHere]) (by rintro ⟨⟨⟩, -⟩)

/-- A fault of a description is that its pattern is refused, or it is told with its place. -/
theorem of_mem_faultsHere {d : Json} {e : LoadError} (h : e ∈ faultsHere engine path d) :
    Refused engine d e ∨ e.path? = some path := by
  have told {e' : LoadError} (h : e ∈ [e']) (he' : e'.path? = some path) : e.path? = some path :=
    List.mem_singleton.1 h ▸ he'
  cases d with
  | object members =>
    rcases List.mem_append.1 h with h | h
    · cases hregex : members.lookup (Bytes.ofString "regex") with
      | none =>
        rw [hregex] at h
        exact .inr (told h rfl)
      | some v =>
        rw [hregex] at h
        cases v with
        | string source =>
          cases hsource : engine source with
          | ok matcher => simp [regexFaults, hsource] at h
          | error reason =>
            simp only [regexFaults, hsource, List.mem_singleton] at h
            exact .inl ⟨members, source, reason, rfl, hregex, hsource, h⟩
        | _ => exact .inr (told h rfl)
    · cases hchildren : members.lookup (Bytes.ofString "children") with
      | none => simp [childrenFaults, hchildren] at h
      | some v =>
        rw [hchildren] at h
        cases v with
        | object cs => cases h
        | _ => exact .inr (told h rfl)
  | _ => exact .inr (told h rfl)

end Description

/-- The wording of an error with a place opens with it. -/
theorem LoadError.wording_of_path? {e : LoadError} {path : Path} (h : e.path? = some path) :
    ∃ rest, e.wording = path.render ++ (Bytes.ofString ": " ++ rest) := by
  cases e with
  | notObject path' found =>
    cases h
    refine ⟨Bytes.ofString "expected an object, got " ++ found, ?_⟩
    rw [wording, List.append_assoc]
    rfl
  | missingRegex path' =>
    cases h
    exact ⟨Bytes.ofString "missing \"regex\"", rfl⟩
  | regexNotString path' found =>
    cases h
    refine ⟨Bytes.ofString "\"regex\" must be a string, got " ++ found, ?_⟩
    rw [wording, List.append_assoc]
    rfl
  | childrenNotObject path' found =>
    cases h
    refine ⟨Bytes.ofString "\"children\" must be an object, got " ++ found, ?_⟩
    rw [wording, List.append_assoc]
    rfl
  | _ => cases h

theorem render_map_member (names : List Bytes) :
    Path.render (names.map .member) = 36 :: names.flatMap fun name => 46 :: name := by
  rw [Path.render, List.flatMap_map]
  rfl

/-- Loading gives the pattern tree that the description describes, if it is well-formed and all its
patterns compile. Otherwise it fails with the first fault: a pattern refused, or an error whose
wording opens with the names on the way to the place at fault. -/
theorem loads_or_first_fault (engine : Engine) (d : Json) (h : d.Ordered) :
    ((∃ tree, PatternTree.ofDescription engine d = .ok tree) ↔
        Description.WellFormed d ∧ Description.Compiles engine d) ∧
      (∀ tree, PatternTree.ofDescription engine d = .ok tree ↔
        Description.Describes engine d tree) ∧
      (∀ e, PatternTree.ofDescription engine d = .error e ↔
        (Description.faults engine Path.root d).head? = some e) ∧
      ∀ e, PatternTree.ofDescription engine d = .error e →
        ∃ place ∈ Description.places d, Description.Refused engine place.2 e ∨
          ∃ rest, e.wording =
            36 :: place.1.flatMap (fun name => 46 :: name) ++ (Bytes.ofString ": " ++ rest) := by
  have hreports : Reports (PatternTree.ofDescription engine d)
      (Description.faults engine Path.root d) := Description.load_reports h Path.root
  refine ⟨?_, fun tree => Description.load_eq_ok_iff h Path.root, hreports, fun e he => ?_⟩
  · rw [← Description.faults_eq_nil_iff Path.root]
    exact hreports.eq_nil_iff.symm
  · obtain ⟨place, hplace, hmem⟩ :=
      List.mem_flatMap.1 (List.mem_of_head? ((hreports e).1 he))
    refine ⟨place, hplace, (Description.of_mem_faultsHere hmem).imp id fun hpath => ?_⟩
    rw [← render_map_member]
    exact LoadError.wording_of_path? hpath

/-- A pattern for the root, a number for the pattern of one child and a number for the other. -/
def misdescribed : Json :=
  .object [(Bytes.ofString "children", .object [
      (Bytes.ofString "a", .object [(Bytes.ofString "regex", .number (Bytes.ofString "5"))]),
      (Bytes.ofString "b", .number (Bytes.ofString "7"))]),
    (Bytes.ofString "regex", .string (Bytes.ofString "x"))]

theorem ordered_misdescribed : misdescribed.Ordered := by
  have hnames : Bytes.ofString "children" < Bytes.ofString "regex" := by decide +kernel
  have hchildren : Bytes.ofString "a" < Bytes.ofString "b" := by decide +kernel
  refine .object (by simpa [Dict.Sorted] using hnames) (List.forall_mem_cons.2 ⟨?_, ?_⟩)
  · refine .object (by simpa [Dict.Sorted] using hchildren) (List.forall_mem_cons.2 ⟨?_, ?_⟩)
    · exact .object (List.pairwise_singleton _ _) (by simpa using .number)
    · simpa using .number
  · simpa using .string

def numberForPattern : LoadError :=
  .regexNotString [.member (Bytes.ofString "a")] (Bytes.ofString "number")

def numberForChild : LoadError :=
  .notObject [.member (Bytes.ofString "b")] (Bytes.ofString "number")

/-- Of the faults of two children, the one of the child whose name comes first. -/
theorem misdescribed_first_fault :
    misdescribed.Ordered ∧
      Description.faults Engine.literal Path.root misdescribed =
        [numberForPattern, numberForChild] ∧
      PatternTree.ofDescription Engine.literal misdescribed = .error numberForPattern ∧
      numberForPattern.message =
        Bytes.ofString "$.a: \"regex\" must be a string, got number" := by
  have hfaults : Description.faults Engine.literal Path.root misdescribed =
      [numberForPattern, numberForChild] := by
    with_unfolding_all rfl
  have hfirst := (loads_or_first_fault Engine.literal misdescribed ordered_misdescribed).2.2.1
  exact ⟨ordered_misdescribed, hfaults, (hfirst numberForPattern).2 (by rw [hfaults]; rfl),
    by decide +kernel⟩

end NestedMatch
