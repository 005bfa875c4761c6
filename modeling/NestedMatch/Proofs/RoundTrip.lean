import NestedMatch.Proofs.Built
import NestedMatch.Proofs.Exact
import NestedMatch.Proofs.JsonReading
import NestedMatch.Proofs.Loading

/-! Writing a pattern tree and reading it again. Main statement: every tree that builders build is
what is loaded from any JSON text of its description, and if its patterns and names are UTF-8 it has
such a text. -/

namespace NestedMatch

namespace Dict

theorem exists_mem_zip {α β : Type} {d : Dict α} {e : Dict β} (h : d.names = e.names)
    {a : Bytes × α} (ha : a ∈ d) : ∃ b, (a, b) ∈ d.zip e := by
  have hlength : d.length = e.length := by simpa [names] using congrArg List.length h
  obtain ⟨i, hi, rfl⟩ := List.mem_iff_getElem.1 ha
  refine ⟨e[i], List.mem_iff_getElem.2 ⟨i, ?_, List.getElem_zip⟩⟩
  rw [List.length_zip]
  omega

theorem sorted_of_names_eq {α β : Type} {d : Dict α} {e : Dict β} (h : d.names = e.names)
    (he : e.Sorted) : d.Sorted := by
  rw [sorted_iff_names, h]
  exact sorted_iff_names.1 he

end Dict

namespace PatternTree

/-- The value describes the tree: the text of the pattern and under their names the descriptions of
the children. Without children `children` may be left out. -/
inductive DescribedBy : PatternTree → Json → Prop
  | leaf {p : Pattern} :
    DescribedBy (.node p []) (.object [(Bytes.ofString "regex", .string p.source)])
  | node {p : Pattern} {branches : List (Bytes × PatternTree)} {ds : List (Bytes × Json)} :
    Dict.names ds = Dict.names branches →
    (∀ d b, (d, b) ∈ ds.zip branches → DescribedBy b.2 d.2) →
    DescribedBy (.node p branches) (.object [(Bytes.ofString "children", .object ds),
      (Bytes.ofString "regex", .string p.source)])

/-- Every pattern of the tree is what the engine makes of its text. -/
def Compiled (engine : Engine) (t : PatternTree) : Prop :=
  ∀ p ∈ t.labels, engine p.source = .ok p.matcher

/-- All patterns and all names of the tree are UTF-8. -/
inductive Encodable : PatternTree → Prop
  | node {p : Pattern} {branches : List (Bytes × PatternTree)} {cs : List Char} :
    p.source = Utf8.encode cs →
    (∀ b ∈ branches, ∃ name, b.1 = Utf8.encode name) → (∀ b ∈ branches, Encodable b.2) →
    Encodable (.node p branches)

variable {engine : Engine}

theorem compiled_node_iff {p : Pattern} {bs : List (Bytes × PatternTree)} :
    Compiled engine (.node p bs) ↔
      engine p.source = .ok p.matcher ∧ ∀ b ∈ bs, Compiled engine b.2 := by
  simp only [Compiled, NamedTree.labels, NamedTree.labelsOfBranches_eq, List.forall_mem_cons,
    List.forall_mem_flatMap]

/-- What holds of every tree that is built with an engine. -/
theorem built_grows (engine : Engine) :
    Bench.Grows (fun _ source => engine.compile source)
      fun t => Compiled engine t ∧ NamedTree.Ordered t where
  leaf h := by
    obtain ⟨rfl, hmatcher⟩ := Description.compile_eq_ok.1 h
    exact ⟨compiled_node_iff.2 ⟨hmatcher, nofun⟩, NamedTree.ordered_leaf _⟩
  child {p children name t} hnode ht _ := by
    obtain ⟨hcompiled, hordered⟩ := hnode
    obtain ⟨hp, hchildren⟩ := compiled_node_iff.1 hcompiled
    refine ⟨compiled_node_iff.2 ⟨hp, fun b hb => ?_⟩, hordered.insert ht.2 name⟩
    rcases Dict.mem_insert hb with rfl | hb
    · exact ht.1
    · exact hchildren b hb

theorem children_lt_regex : Bytes.ofString "children" < Bytes.ofString "regex" := by
  decide +kernel

theorem sorted_members (v w : Json) :
    Dict.Sorted [(Bytes.ofString "children", v), (Bytes.ofString "regex", w)] := by
  simpa [Dict.Sorted] using children_lt_regex

theorem regex_ne_children : Bytes.ofString "regex" ≠ Bytes.ofString "children" := by
  decide +kernel

/-- The loader's view of a description with children. -/
theorem lookup_node (ds : List (Bytes × Json)) (source : Bytes) :
    let members : List (Bytes × Json) :=
      [(Bytes.ofString "children", .object ds), (Bytes.ofString "regex", .string source)]
    members.lookup (Bytes.ofString "regex") = some (.string source) ∧
      members.lookup (Bytes.ofString "children") = some (.object ds) :=
  ⟨by rw [Dict.lookup_cons_of_ne regex_ne_children, List.lookup_cons_self], List.lookup_cons_self⟩

theorem describes_of_describedBy {t : PatternTree} {d : Json} (hcompiled : Compiled engine t)
    (h : DescribedBy t d) : Description.Describes engine d t := by
  induction h with
  | @leaf p =>
    have hp := (compiled_node_iff.1 hcompiled).1
    have hchildren : List.lookup (Bytes.ofString "children")
        [(Bytes.ofString "regex", Json.string p.source)] = none := by
      rw [Dict.lookup_cons_of_ne regex_ne_children.symm, List.lookup_nil]
    have hnone :
        Description.children (.object [(Bytes.ofString "regex", .string p.source)]) = [] := by
      rw [Description.children, hchildren]
    refine .object List.lookup_cons_self hp (fun v hv => ?_) (by rw [hnone]; rfl) ?_
    · rw [hchildren] at hv
      cases hv
    · rw [hnone]
      intro c b hmem
      cases hmem
  | @node p branches ds hnames _ ih =>
    obtain ⟨hp, hbranches⟩ := compiled_node_iff.1 hcompiled
    obtain ⟨hregex, hchildren⟩ := lookup_node ds p.source
    have hds : Description.children (.object [(Bytes.ofString "children", .object ds),
        (Bytes.ofString "regex", .string p.source)]) = ds := by
      rw [Description.children, hchildren]
    refine .object hregex hp (fun v hv => ?_) (by rw [hds, hnames]) fun c b hmem => ?_
    · rw [hchildren] at hv
      exact ⟨ds, (Option.some.inj hv).symm⟩
    · rw [hds] at hmem
      exact ih c b hmem (hbranches b (List.of_mem_zip hmem).2)

theorem ordered_of_describedBy {t : PatternTree} {d : Json} (hordered : NamedTree.Ordered t)
    (h : DescribedBy t d) : d.Ordered := by
  induction h with
  | leaf => exact .object (List.pairwise_singleton _ _) (by simpa using .string)
  | @node p branches ds hnames _ ih =>
    cases hordered with
    | node hsorted hbelow =>
      have hds : Dict.Sorted ds := Dict.sorted_of_names_eq hnames hsorted
      have hchildren : Json.Ordered (.object ds) := by
        refine .object hds fun d hd => ?_
        obtain ⟨b, hb⟩ := Dict.exists_mem_zip hnames hd
        exact ih d b hb (hbelow b (List.of_mem_zip hb).2)
      refine .object (sorted_members _ _) ?_
      exact List.forall_mem_cons.2 ⟨hchildren, by simpa using .string⟩

/-- A description is loaded as the tree it describes. -/
theorem ofDescription_of_describedBy {t : PatternTree} {d : Json} (hcompiled : Compiled engine t)
    (hordered : NamedTree.Ordered t) (h : DescribedBy t d) : ofDescription engine d = .ok t :=
  (Description.load_eq_ok_iff (ordered_of_describedBy hordered h) Path.root).2
    (describes_of_describedBy hcompiled h)

/-- Descriptions and their texts for the children of a node. -/
theorem exists_members {branches : List (Bytes × PatternTree)} (hne : branches ≠ [])
    (hnames : ∀ b ∈ branches, ∃ name, b.1 = Utf8.encode name)
    (h : ∀ b ∈ branches, ∃ d cs, DescribedBy b.2 d ∧ Json.Written d cs) :
    ∃ ds text, Dict.names ds = Dict.names branches ∧
      (∀ d b, (d, b) ∈ ds.zip branches → DescribedBy b.2 d.2) ∧ Json.Members ds text := by
  induction branches with
  | nil => exact absurd rfl hne
  | cons b rest ih =>
    obtain ⟨⟨name, hname⟩, hnames⟩ := List.forall_mem_cons.1 hnames
    obtain ⟨⟨d, cs, hd, hcs⟩, h⟩ := List.forall_mem_cons.1 h
    obtain ⟨first, hfirst⟩ := Json.exists_member name hcs
    rw [← hname] at hfirst
    by_cases hrest : rest = []
    · subst hrest
      refine ⟨[(b.1, d)], _, rfl, ?_, .last hfirst Json.blank_nil⟩
      simpa using hd
    · obtain ⟨ds, text, hds, hbelow, htext⟩ := ih hrest hnames h
      refine ⟨(b.1, d) :: ds, _, congrArg (b.1 :: ·) hds, ?_,
        .more hfirst Json.blank_nil Json.blank_nil htext⟩
      intro d' b' hmem
      rcases List.mem_cons.1 hmem with he | hmem
      · cases he
        exact hd
      · exact hbelow d' b' hmem

theorem encode_regex : Utf8.encode "regex".toList = Bytes.ofString "regex" := by decide +kernel

theorem encode_children : Utf8.encode "children".toList = Bytes.ofString "children" := by
  decide +kernel

theorem exists_text {t : PatternTree} (hordered : NamedTree.Ordered t) (h : Encodable t) :
    ∃ d cs, DescribedBy t d ∧ Json.Written d cs := by
  induction h with
  | @node p branches cs hsource hnames _ ih =>
    cases hordered with
    | node hsorted hbelow =>
      have hpattern : ∃ text, Json.Member (Bytes.ofString "regex", .string p.source) text := by
        obtain ⟨quoted, hquoted⟩ := Json.exists_quoted cs
        rw [hsource, ← encode_regex]
        exact Json.exists_member _ (.string hquoted)
      obtain ⟨regex, hregex⟩ := hpattern
      by_cases hbranches : branches = []
      · subst hbranches
        exact ⟨_, _, .leaf, .object Json.blank_nil (.last hregex Json.blank_nil) (.refl _)
          (List.pairwise_singleton _ _)⟩
      · obtain ⟨ds, inside, hds, hdescribed, hinside⟩ :=
          exists_members hbranches hnames fun b hb => ih b hb (hbelow b hb)
        obtain ⟨children, hchildren⟩ := Json.exists_member "children".toList
          (.object Json.blank_nil hinside (.refl _) (Dict.sorted_of_names_eq hds hsorted))
        rw [encode_children] at hchildren
        have hmembers := Json.Members.more hchildren Json.blank_nil Json.blank_nil
          (.last hregex Json.blank_nil)
        exact ⟨_, _, .node hds hdescribed,
          .object Json.blank_nil hmembers (.refl _) (sorted_members _ _)⟩

end PatternTree

/-- A tree built from builders is what is loaded from every JSON text of its description, and there
is such a text if its patterns and names are UTF-8. -/
theorem loads_what_was_built (engine : Engine) (steps : List Bench.Step) {place : Bytes}
    {t : PatternTree}
    (h : (Bench.empty.run (fun _ source => engine.compile source) steps).trees.lookup place =
      some t) :
    (∀ d text, PatternTree.DescribedBy t d → Json.TextOf d text →
      PatternTree.ofText engine text = .ok t ∧
        ∀ files name, files name = some text → PatternTree.ofFile engine files name = .ok t) ∧
      (PatternTree.Encodable t →
        ∃ d text, PatternTree.DescribedBy t d ∧ Json.TextOf d text) := by
  obtain ⟨hcompiled, hordered⟩ := Bench.of_built (PatternTree.built_grows engine) h
  constructor
  · intro d text hd htext
    have hload := PatternTree.ofDescription_of_describedBy hcompiled hordered hd
    have hread := Json.ofText?_of_textOf htext
    refine ⟨?_, fun files name hfile => ?_⟩
    · simp only [PatternTree.ofText, hread, hload]
    · simp only [PatternTree.ofFile, hfile, hread, hload]
  · intro hencodable
    obtain ⟨d, cs, hd, hcs⟩ := PatternTree.exists_text hordered hencodable
    exact ⟨d, _, hd, [], cs, [], Json.blank_nil, hcs, Json.blank_nil, rfl⟩

/-- Builds a pattern for a quotation mark and a clef, with a child for an accented letter. -/
def clefSteps : List Bench.Step :=
  [.root (Bytes.ofString "b") (Bytes.ofString "\"𝄞"),
    .leaf (Bytes.ofString "n") (Bytes.ofString "é"),
    .child (Bytes.ofString "b") (Bytes.ofString "k") (Bytes.ofString "n"),
    .build (Bytes.ofString "b") (Bytes.ofString "t")]

/-- The members in another order, with blanks, and the clef as a surrogate pair. -/
def clefText : Bytes :=
  Bytes.ofString "\x7b\"regex\" : \"\\\"\\ud834\\uDD1E\", " ++
    Bytes.ofString "\"children\":\x7b\"k\":\x7b\"regex\":\"é\"\x7d\x7d\x7d\n"

theorem clef_built : ∃ p q : Pattern,
    (Bench.empty.run (fun _ source => Engine.literal.compile source) clefSteps).trees.lookup
        (Bytes.ofString "t") = some (.node p [(Bytes.ofString "k", .leaf q)]) ∧
      p.source = Bytes.ofString "\"𝄞" ∧ q.source = Bytes.ofString "é" := by
  with_unfolding_all exact ⟨_, _, rfl, rfl, rfl⟩

open Json PatternTree in
theorem clef_textOf : TextOf
    (.object [(Bytes.ofString "children", .object [(Bytes.ofString "k",
        .object [(Bytes.ofString "regex", .string (Bytes.ofString "é"))])]),
      (Bytes.ofString "regex", .string (Bytes.ofString "\"𝄞"))]) clefText := by
  have hblank : Blank [' '] := by decide +kernel
  have hline : Blank ['\n'] := by decide +kernel
  have hquote : Spelling '"' ['\\', '"'] := .short (by decide +kernel)
  have hhigh : CodeUnit 0xD834 "d834".toList := .digits (.inl rfl) (.inl rfl) (.inl rfl) (.inl rfl)
  have hlow : CodeUnit 0xDD1E "DD1E".toList := .digits (.inr rfl) (.inr rfl) (.inl rfl) (.inr rfl)
  have hclef : Spelling '𝄞' ('\\' :: 'u' :: ("d834".toList ++ '\\' :: 'u' :: "DD1E".toList)) :=
    .pair (by decide +kernel) hhigh hlow
  have hregex : Quoted "regex".toList ("regex".toList ++ ['"']) :=
    quoted_raw (by decide +kernel)
  have hchildren : Quoted "children".toList ("children".toList ++ ['"']) :=
    quoted_raw (by decide +kernel)
  have hk : Quoted ['k'] ['k', '"'] := quoted_raw (by decide +kernel)
  have hletter : Quoted ['é'] ['é', '"'] := quoted_raw (by decide +kernel)
  have hinner : Written _ _ := .object blank_nil
    (.last (.pair hregex blank_nil blank_nil (.string hletter)) blank_nil) (.refl _)
    (List.pairwise_singleton _ _)
  have hmiddle : Written _ _ := .object blank_nil
    (.last (.pair hk blank_nil blank_nil hinner) blank_nil) (.refl _)
    (List.pairwise_singleton _ _)
  have hmembers : Members _ _ := .more
    (.pair hregex hblank hblank (.string (.next hquote (.next hclef .close)))) blank_nil hblank
    (.last (.pair hchildren blank_nil blank_nil hmiddle) blank_nil)
  have houter : Written _ _ := .object blank_nil hmembers (.swap _ _ _) (by
    rw [encode_regex, encode_children]
    exact sorted_members _ _)
  exact ⟨[], _, ['\n'], blank_nil, houter, hline, by decide +kernel⟩

/-- The tree is loaded from that text, escapes and all. -/
theorem clef_reloaded : ∃ t : PatternTree,
    (Bench.empty.run (fun _ source => Engine.literal.compile source) clefSteps).trees.lookup
        (Bytes.ofString "t") = some t ∧
      PatternTree.ofText Engine.literal clefText = .ok t := by
  obtain ⟨p, q, hbuilt, hp, hq⟩ := clef_built
  have hletter : PatternTree.DescribedBy (.leaf q)
      (.object [(Bytes.ofString "regex", .string q.source)]) := .leaf
  have hdescribed : PatternTree.DescribedBy (.node p [(Bytes.ofString "k", .leaf q)])
      (.object [(Bytes.ofString "children", .object [(Bytes.ofString "k",
          .object [(Bytes.ofString "regex", .string q.source)])]),
        (Bytes.ofString "regex", .string p.source)]) := .node rfl (by simpa using hletter)
  have htext := clef_textOf
  rw [← hp, ← hq] at htext
  have hload := (loads_what_was_built Engine.literal clefSteps hbuilt).1 _ _ hdescribed htext
  exact ⟨_, hbuilt, hload.1⟩

end NestedMatch
