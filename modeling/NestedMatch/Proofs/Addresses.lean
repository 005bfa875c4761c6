import Mathlib.Data.List.Perm.Subperm
import Mathlib.Logic.Function.Basic
import NestedMatch.Proofs.Built
import NestedMatch.Proofs.Exact

/-! Where the nodes at a bench are. A node has an address: the place that a tree or a builder stands
in, and the names of the branches that lead to the node from there. Main statement: where no two
labels at a bench have the same key, a key is found at one address only. -/

namespace NestedMatch

variable {α κ : Type}

namespace Dict

/-- Where the values under different names have nothing in common, a name is known from anything
that its value has. -/
theorem eq_of_mem_of_nodup {d : Dict α} {g : α → List κ} (h : (d.flatMap fun e => g e.2).Nodup)
    {m n : Bytes} {a b : α} {k : κ} (ha : d.lookup m = some a) (hb : d.lookup n = some b)
    (hka : k ∈ g a) (hkb : k ∈ g b) : m = n := by
  have : Std.Symm (Function.onFun List.Disjoint fun e : Bytes × α => g e.2) :=
    ⟨fun _ _ hdisjoint _ ha hb => hdisjoint hb ha⟩
  refine Decidable.byContradiction fun hne => ?_
  exact (List.nodup_flatMap.1 h).2.forall (mem_of_lookup ha) (mem_of_lookup hb)
    (fun he => hne (congrArg Prod.fst he)) hka hkb

theorem nodup_of_lookup {d : Dict α} {g : α → List κ} (h : (d.flatMap fun e => g e.2).Nodup)
    {name : Bytes} {a : α} (ha : d.lookup name = some a) : (g a).Nodup :=
  (List.nodup_flatMap.1 h).1 _ (mem_of_lookup ha)

end Dict

namespace NamedTree

/-- The node that these names lead to, from branch to branch. -/
def descend? (t : NamedTree α) : List Bytes → Option (NamedTree α)
  | [] => some t
  | name :: rest => (t.branch? name).bind fun u => u.descend? rest

variable {t u v : NamedTree α} {name : Bytes} {path other : List Bytes}

theorem descend?_cons_eq_some :
    t.descend? (name :: path) = some u ↔ ∃ w, t.branch? name = some w ∧ w.descend? path = some u :=
  Option.bind_eq_some_iff

theorem labels_node (a : α) (bs : List (Bytes × NamedTree α)) :
    (node a bs).labels = a :: bs.flatMap fun b => b.2.labels := by
  rw [labels, labelsOfBranches_eq]

theorem label_mem_labels_of_descend? (h : t.descend? path = some u) : u.label ∈ t.labels := by
  induction path generalizing t with
  | nil =>
    cases h
    exact label_mem_labels _
  | cons name path ih =>
    obtain ⟨w, hw, hu⟩ := descend?_cons_eq_some.1 h
    exact labels_subset_of_branch? hw (ih hu)

theorem key_mem_of_descend? (key : α → κ) (h : t.descend? path = some u) :
    key u.label ∈ t.labels.map key :=
  List.mem_map_of_mem (label_mem_labels_of_descend? h)

/-- Every label is the label of a node that names lead to. -/
theorem Ordered.exists_descend? {a : α} (ht : t.Ordered) (h : a ∈ t.labels) :
    ∃ path u, t.descend? path = some u ∧ u.label = a := by
  induction ht with
  | @node b branches hsorted _ ih =>
    rw [labels_node] at h
    rcases List.mem_cons.1 h with rfl | h
    · exact ⟨[], _, rfl, rfl⟩
    · obtain ⟨⟨name, w⟩, hw, ha⟩ := List.mem_flatMap.1 h
      obtain ⟨path, u, hu, rfl⟩ := ih _ hw ha
      exact ⟨name :: path, u,
        descend?_cons_eq_some.2 ⟨w, (Dict.mem_iff_lookup hsorted).1 hw, hu⟩, rfl⟩

/-- Where no key occurs twice, that of the root occurs in no branch. -/
theorem key_ne_of_branch? {key : α → κ} (ht : (t.labels.map key).Nodup)
    (hu : t.branch? name = some u) (hv : u.descend? path = some v) : key t.label ≠ key v.label := by
  obtain ⟨a, bs⟩ := t
  rw [labels_node, List.map_cons, List.nodup_cons] at ht
  intro he
  exact ht.1 (List.mem_map.2 ⟨v.label,
    List.mem_flatMap.2 ⟨_, Dict.mem_of_lookup hu, label_mem_labels_of_descend? hv⟩, he.symm⟩)

/-- Where no key occurs twice, one path leads to a key. -/
theorem path_unique {key : α → κ} (ht : (t.labels.map key).Nodup) (hu : t.descend? path = some u)
    (hv : t.descend? other = some v) (hkey : key u.label = key v.label) : path = other := by
  induction path generalizing t other with
  | nil =>
    cases hu
    cases other with
    | nil => rfl
    | cons n other =>
      obtain ⟨y, hy, hyv⟩ := descend?_cons_eq_some.1 hv
      exact absurd hkey (key_ne_of_branch? ht hy hyv)
  | cons m path ih =>
    obtain ⟨x, hx, hxu⟩ := descend?_cons_eq_some.1 hu
    cases other with
    | nil =>
      cases hv
      exact absurd hkey.symm (key_ne_of_branch? ht hx hxu)
    | cons n other =>
      obtain ⟨y, hy, hyv⟩ := descend?_cons_eq_some.1 hv
      have hbranches : (t.branches.flatMap fun b => b.2.labels.map key).Nodup := by
        obtain ⟨a, bs⟩ := t
        rw [labels_node, List.map_cons, List.map_flatMap] at ht
        exact ht.of_cons
      have hmn : m = n := by
        refine Dict.eq_of_mem_of_nodup (g := fun w => w.labels.map key) hbranches hx hy
          (key_mem_of_descend? key hxu) ?_
        rw [hkey]
        exact key_mem_of_descend? key hyv
      subst hmn
      cases hx.symm.trans hy
      rw [ih (Dict.nodup_of_lookup (g := fun w => w.labels.map key) hbranches hx) hxu hyv]

end NamedTree

namespace Builder

/-- The tree that building would give. -/
def tree? (builder : Builder α) : Option (NamedTree α) := builder.build.toOption

/-- The labels of all nodes of the tree that building would give. -/
def labels (builder : Builder α) : List α := builder.tree?.elim [] NamedTree.labels

theorem labels_live (a : α) (children : List (Bytes × NamedTree α)) :
    labels (.live a children) = a :: children.flatMap fun c => c.2.labels :=
  NamedTree.labels_node a children

theorem eq_live_of_tree? {builder : Builder α} {t : NamedTree α} (h : builder.tree? = some t) :
    ∃ a children, builder = .live a children ∧ t = .node a children := by
  cases builder with
  | spent => cases h
  | live a children => exact ⟨a, children, rfl, (Option.some.inj h).symm⟩

end Builder

namespace Bench

/-- A place for trees or a place for builders. -/
inductive Site where
  | tree (place : Bytes)
  | builder (place : Bytes)
deriving DecidableEq, Repr

/-- Where a node is: the site of a tree, and the branches to follow from there. -/
@[ext] structure Address where
  site : Site
  path : List Bytes
deriving DecidableEq, Repr

/-- The address of a branch of the node. -/
def Address.child (x : Address) (name : Bytes) : Address := ⟨x.site, x.path ++ [name]⟩

/-- The tree at every site, if there is one. -/
abbrev Ground (α : Type) := Site → Option (NamedTree α)

/-- The node at an address, with everything below it. -/
def Ground.node? (g : Ground α) (x : Address) : Option (NamedTree α) :=
  (g x.site).bind fun t => t.descend? x.path

/-- What stands at the sites of a bench. With a builder it is the tree under construction. -/
def ground (b : Bench α) : Ground α
  | .tree place => b.trees.lookup place
  | .builder place => (b.builders.lookup place).bind Builder.tree?

def node? (b : Bench α) (x : Address) : Option (NamedTree α) := b.ground.node? x

/-- The labels of all nodes at any depth, of all trees and builders. -/
def labels (b : Bench α) : List α :=
  (b.trees.flatMap fun e => e.2.labels) ++ b.builders.flatMap fun e => e.2.labels

variable {b : Bench α} {x y : Address} {site : Site} {t u : NamedTree α}

theorem Ground.node?_eq_some {g : Ground α} :
    g.node? x = some u ↔ ∃ t, g x.site = some t ∧ t.descend? x.path = some u :=
  Option.bind_eq_some_iff

theorem ground_builder_eq_some {place : Bytes} :
    b.ground (.builder place) = some t ↔
      ∃ a children, b.builders.lookup place = some (.live a children) ∧ t = .node a children := by
  constructor
  · intro h
    obtain ⟨builder, hb, ht⟩ := Option.bind_eq_some_iff.1 h
    obtain ⟨a, children, rfl, rfl⟩ := Builder.eq_live_of_tree? ht
    exact ⟨a, children, hb, rfl⟩
  · rintro ⟨a, children, hb, rfl⟩
    exact Option.bind_eq_some_iff.2 ⟨_, hb, rfl⟩

theorem ground_putTree (b : Bench α) (place : Bytes) (t : NamedTree α) :
    (b.putTree place t).ground = Function.update b.ground (.tree place) (some t) := by
  funext site
  cases site with
  | builder other => rw [Function.update_of_ne (by simp)]; rfl
  | tree other =>
    by_cases h : other = place
    · subst h
      rw [Function.update_self]
      exact Dict.lookup_insert_self ..
    · rw [Function.update_of_ne (by simpa using h)]
      exact Dict.lookup_insert_of_ne h ..

theorem ground_dropTree (b : Bench α) (place : Bytes) :
    (b.dropTree place).ground = Function.update b.ground (.tree place) none := by
  funext site
  cases site with
  | builder other => rw [Function.update_of_ne (by simp)]; rfl
  | tree other =>
    by_cases h : other = place
    · subst h
      rw [Function.update_self]
      exact Dict.lookup_erase_self ..
    · rw [Function.update_of_ne (by simpa using h)]
      exact Dict.lookup_erase_of_ne h ..

theorem ground_putBuilder (b : Bench α) (place : Bytes) (builder : Builder α) :
    (b.putBuilder place builder).ground =
      Function.update b.ground (.builder place) builder.tree? := by
  funext site
  cases site with
  | tree other => rw [Function.update_of_ne (by simp)]; rfl
  | builder other =>
    by_cases h : other = place
    · subst h
      rw [Function.update_self, ground, putBuilder, Dict.lookup_insert_self, Option.bind_some]
    · rw [Function.update_of_ne (by simpa using h), ground, putBuilder, Dict.lookup_insert_of_ne h]
      rfl

theorem ground_of_builder {builder : Builder α} (hb : b.builders.lookup place = some builder) :
    b.ground (.builder place) = builder.tree? := by
  rw [ground, hb, Option.bind_some]

theorem mem_labels_of_ground {a : α} (h : b.ground site = some t) (ha : a ∈ t.labels) :
    a ∈ b.labels := by
  cases site with
  | tree place =>
    exact List.mem_append_left _ (List.mem_flatMap.2 ⟨_, Dict.mem_of_lookup h, ha⟩)
  | builder place =>
    obtain ⟨c, children, hb, rfl⟩ := ground_builder_eq_some.1 h
    exact List.mem_append_right _ (List.mem_flatMap.2 ⟨_, Dict.mem_of_lookup hb, ha⟩)

section Keys

variable {key : α → κ} (hkeys : (b.labels.map key).Nodup)

include hkeys

/-- The keys of the trees, those of the builders, and that they have none in common. -/
theorem nodup_parts : (b.trees.flatMap fun e => e.2.labels.map key).Nodup ∧
    (b.builders.flatMap fun e => e.2.labels.map key).Nodup ∧
    List.Disjoint (b.trees.flatMap fun e => e.2.labels.map key)
      (b.builders.flatMap fun e => e.2.labels.map key) := by
  rw [labels, List.map_append, List.map_flatMap, List.map_flatMap] at hkeys
  exact List.nodup_append'.1 hkeys

theorem nodup_of_ground (h : b.ground site = some t) : (t.labels.map key).Nodup := by
  obtain ⟨htrees, hbuilders, -⟩ := nodup_parts hkeys
  cases site with
  | tree place => exact Dict.nodup_of_lookup (g := fun t => t.labels.map key) htrees h
  | builder place =>
    obtain ⟨a, children, hb, rfl⟩ := ground_builder_eq_some.1 h
    exact Dict.nodup_of_lookup (g := fun builder => builder.labels.map key) hbuilders hb

theorem site_unique {s s' : Site} {k : κ} (ht : b.ground s = some t) (hu : b.ground s' = some u)
    (hkt : k ∈ t.labels.map key) (hku : k ∈ u.labels.map key) : s = s' := by
  obtain ⟨htrees, hbuilders, hdisjoint⟩ := nodup_parts hkeys
  cases s with
  | tree place =>
    cases s' with
    | tree other =>
      rw [Dict.eq_of_mem_of_nodup (g := fun t => t.labels.map key) htrees ht hu hkt hku]
    | builder other =>
      obtain ⟨a, children, hb, rfl⟩ := ground_builder_eq_some.1 hu
      exact absurd (List.mem_flatMap.2 ⟨_, Dict.mem_of_lookup hb, hku⟩)
        (hdisjoint (List.mem_flatMap.2 ⟨_, Dict.mem_of_lookup ht, hkt⟩))
  | builder place =>
    obtain ⟨a, children, hb, rfl⟩ := ground_builder_eq_some.1 ht
    cases s' with
    | tree other =>
      exact absurd (List.mem_flatMap.2 ⟨_, Dict.mem_of_lookup hb, hkt⟩)
        (hdisjoint (List.mem_flatMap.2 ⟨_, Dict.mem_of_lookup hu, hku⟩))
    | builder other =>
      obtain ⟨a', children', hb', rfl⟩ := ground_builder_eq_some.1 hu
      rw [Dict.eq_of_mem_of_nodup (g := fun builder => builder.labels.map key) hbuilders hb hb'
        hkt hku]

/-- Where no key occurs twice, a key is found at one address only. -/
theorem address_unique (hx : b.node? x = some t) (hy : b.node? y = some u)
    (hkey : key t.label = key u.label) : x = y := by
  obtain ⟨v, hv, hvt⟩ := Ground.node?_eq_some.1 hx
  obtain ⟨w, hw, hwu⟩ := Ground.node?_eq_some.1 hy
  have hsite : x.site = y.site :=
    site_unique hkeys hv hw (NamedTree.key_mem_of_descend? key hvt)
      (hkey ▸ NamedTree.key_mem_of_descend? key hwu)
  rw [hsite] at hv
  cases hv.symm.trans hw
  exact Address.ext hsite (NamedTree.path_unique (nodup_of_ground hkeys hw) hvt hwu hkey)

end Keys

theorem ordered_grows (make : Nat → Bytes → Except (BuildError α) α) :
    Grows make NamedTree.Ordered where
  leaf _ := NamedTree.ordered_leaf _
  child hnode ht _ := hnode.insert ht _

/-- Every label is the label of a node that has an address. -/
theorem exists_node?_of_mem_labels (htrees : Dict.Sorted b.trees)
    (hbuilders : Dict.Sorted b.builders) (hordered : b.Everywhere NamedTree.Ordered) {a : α}
    (h : a ∈ b.labels) : ∃ x t, b.node? x = some t ∧ t.label = a := by
  have hground : ∃ site t, b.ground site = some t ∧ t.Ordered ∧ a ∈ t.labels := by
    rcases List.mem_append.1 h with h | h
    · obtain ⟨⟨place, t⟩, ht, ha⟩ := List.mem_flatMap.1 h
      have hlookup := (Dict.mem_iff_lookup htrees).1 ht
      exact ⟨.tree place, t, hlookup, hordered.trees hlookup, ha⟩
    · obtain ⟨⟨place, builder⟩, hb, ha⟩ := List.mem_flatMap.1 h
      have hlookup := (Dict.mem_iff_lookup hbuilders).1 hb
      cases builder with
      | spent => cases ha
      | live c children =>
        exact ⟨.builder place, .node c children,
          ground_builder_eq_some.2 ⟨c, children, hlookup, rfl⟩, hordered.builders hlookup, ha⟩
  obtain ⟨site, t, ht, htordered, ha⟩ := hground
  obtain ⟨path, u, hu, rfl⟩ := htordered.exists_descend? ha
  exact ⟨⟨site, path⟩, u, Ground.node?_eq_some.2 ⟨t, ht, hu⟩, rfl⟩

end Bench
end NestedMatch
