import NestedMatch.Proofs.Effects
import NestedMatch.Proofs.Relabelling

/-! Who owns the nodes at a bench. Every label made is given a number, so that any two nodes can be
told apart. Main statement: after any steps the nodes of all trees and builders are a forest: every
node has one address, so one owner at most, and is not below itself. A tree given to a builder is
below the builder's node or gone for good, and a node that is built stays as it is for as long as it
is anywhere. -/

namespace NestedMatch

variable {α : Type}

/-- The number of the node. -/
def NamedTree.identity (t : NamedTree (Nat × α)) : Nat := t.label.1

/-- The numbers of all nodes of the tree. -/
def NamedTree.identities (t : NamedTree (Nat × α)) : List Nat := t.labels.map Prod.fst

namespace Bench

/-- Makes labels with a number each: how many were made before. -/
def numbered (make : Nat → Bytes → Except (BuildError α) α) (count : Nat) (source : Bytes) :
    Except (BuildError (Nat × α)) (Nat × α) :=
  match make count source with
  | .ok a => .ok (count, a)
  | .error e => .error (e.map (count, ·))

/-- The numbers of all nodes at any depth, of all trees and builders. -/
def identities (b : Bench (Nat × α)) : List Nat := b.labels.map Prod.fst

/-- The node with this number is at this address. -/
def StandsAt (b : Bench (Nat × α)) (i : Nat) (x : Address) : Prop :=
  ∃ t, b.node? x = some t ∧ t.identity = i

/-- Any address but that of a builder's own node, which may be given children yet. -/
def Address.IsBuilt : Address → Prop
  | ⟨.builder _, []⟩ => False
  | _ => True

theorem Address.isBuilt_builder {place : Bytes} {path : List Bytes} :
    IsBuilt ⟨.builder place, path⟩ ↔ path ≠ [] := by
  cases path with
  | nil => exact iff_of_false id fun h => h rfl
  | cons name rest => exact iff_of_true trivial (List.cons_ne_nil _ _)

variable {make : Nat → Bytes → Except (BuildError α) α} {b b' : Bench (Nat × α)} {s : Step}
  {n : Nat}

theorem relabels_numbered (make : Nat → Bytes → Except (BuildError α) α) :
    Relabels Prod.snd (numbered make) make := by
  intro count source
  cases hm : make count source with
  | ok a =>
    rw [numbered, hm]
    rfl
  | error e =>
    rw [numbered, hm]
    cases e <;> rfl

theorem number_of_numbered {count : Nat} {source : Bytes} {a : Nat × α}
    (h : numbered make count source = .ok a) : a.1 = count := by
  unfold numbered at h
  cases hm : make count source with
  | ok c =>
    rw [hm] at h
    cases h
    rfl
  | error e =>
    rw [hm] at h
    cases h

section Origins

variable {g g' : Ground (Nat × α)} {site : Site} {o : Option (NamedTree (Nat × α))}

/-- The node found at this address was there before, with this label. If it was built it was the
same, and is built. -/
def ComesFrom (g : Ground (Nat × α)) (y : Address) (u : NamedTree (Nat × α)) : Prop :=
  ∃ x t, g.node? x = some t ∧ t.label = u.label ∧ (x.IsBuilt → y.IsBuilt ∧ t = u)

theorem ComesFrom.same {y : Address} {u : NamedTree (Nat × α)} (h : g.node? y = some u) :
    ComesFrom g y u :=
  ⟨y, u, h, rfl, fun hy => ⟨hy, rfl⟩⟩

/-- All nodes with a number below `n` were there before. -/
def Inherits (n : Nat) (g g' : Ground (Nat × α)) : Prop :=
  ∀ y u, g'.node? y = some u → u.identity < n → ComesFrom g y u

theorem Inherits.refl (n : Nat) (g : Ground (Nat × α)) : Inherits n g g := fun _ _ h _ => .same h

theorem Inherits.trans {g'' : Ground (Nat × α)} {n' : Nat} (hn : n ≤ n') (h : Inherits n g g')
    (h' : Inherits n' g' g'') : Inherits n g g'' := by
  intro z v hv hlt
  obtain ⟨y, u, hu, huv, hkept⟩ := h' z v hv (Nat.lt_of_lt_of_le hlt hn)
  have hult : u.identity < n := by
    rw [NamedTree.identity, huv]
    exact hlt
  obtain ⟨x, t, ht, htu, hkept'⟩ := h y u hu hult
  refine ⟨x, t, ht, htu.trans huv, fun hx => ?_⟩
  obtain ⟨hy, rfl⟩ := hkept' hx
  exact hkept hy

/-- Only what is put somewhere new has to be looked at. -/
theorem Inherits.update (h : Inherits n g g')
    (hsite : ∀ t, o = some t → ∀ path u, t.descend? path = some u → u.identity < n →
      ComesFrom g ⟨site, path⟩ u) :
    Inherits n g (Function.update g' site o) := by
  intro y u hu hlt
  obtain ⟨t, ht, hdescend⟩ := Ground.node?_eq_some.1 hu
  by_cases hy : y.site = site
  · subst hy
    rw [Function.update_self] at ht
    exact hsite t ht y.path u hdescend hlt
  · rw [Function.update_of_ne hy] at ht
    exact h y u (Ground.node?_eq_some.2 ⟨t, ht, hdescend⟩) hlt

theorem Inherits.drop (h : Inherits n g g') (site : Site) :
    Inherits n g (Function.update g' site none) := by
  refine h.update fun t ht => ?_
  cases ht

theorem Inherits.made (h : Inherits n g g') {a : Nat × α} (ha : n ≤ a.1) (site : Site) :
    Inherits n g (Function.update g' site (some (.leaf a))) := by
  refine h.update fun t ht path u hu hlt => ?_
  cases ht
  cases path with
  | nil =>
    cases hu
    exact absurd hlt (Nat.not_lt.2 ha)
  | cons name rest => cases hu

theorem Inherits.moved (h : Inherits n g g') {old new : Site} (hold : g old = o)
    (hbuilt : ∀ path, Address.IsBuilt ⟨old, path⟩ → Address.IsBuilt ⟨new, path⟩) :
    Inherits n g (Function.update g' new o) := by
  refine h.update fun t ht path u hu _ => ?_
  rw [← hold] at ht
  exact ⟨⟨old, path⟩, u, Ground.node?_eq_some.2 ⟨t, ht, hu⟩, rfl, fun hx => ⟨hbuilt path hx, rfl⟩⟩

/-- A builder takes a child. Its own node is not built, and all others stay as they were. -/
theorem Inherits.taken (h : Inherits n g g') {place name tree : Bytes} {a : Nat × α}
    {children : List (Bytes × NamedTree (Nat × α))} {t : NamedTree (Nat × α)}
    (hbuilder : g (.builder place) = some (.node a children)) (htree : g (.tree tree) = some t) :
    Inherits n g
      (Function.update g' (.builder place) (some (.node a (Dict.insert name t children)))) := by
  refine h.update fun t' ht' path u hu _ => ?_
  cases ht'
  cases path with
  | nil =>
    cases hu
    exact ⟨⟨.builder place, []⟩, .node a children, Ground.node?_eq_some.2 ⟨_, hbuilder, rfl⟩, rfl,
      False.elim⟩
  | cons m rest =>
    obtain ⟨w, hw, hwu⟩ := NamedTree.descend?_cons_eq_some.1 hu
    rw [NamedTree.branch?, NamedTree.branches_node] at hw
    by_cases hm : m = name
    · subst hm
      rw [Dict.lookup_insert_self] at hw
      cases hw
      exact ⟨⟨.tree tree, rest⟩, u, Ground.node?_eq_some.2 ⟨_, htree, hwu⟩, rfl,
        fun _ => ⟨trivial, rfl⟩⟩
    · rw [Dict.lookup_insert_of_ne hm] at hw
      exact .same (Ground.node?_eq_some.2
        ⟨_, hbuilder, NamedTree.descend?_cons_eq_some.2 ⟨w, hw, hwu⟩⟩)

theorem Effect.inherits (he : Effect (numbered make) b s b') :
    Inherits b.made b.ground b'.ground := by
  have hsame : Inherits b.made b.ground b.ground := .refl _ _
  cases he with
  | nothing => exact hsame
  | leaf hm =>
    rw [ground_putTree]
    exact hsame.made (Nat.le_of_eq (number_of_numbered hm).symm) _
  | root hm =>
    rw [ground_putBuilder]
    exact hsame.made (Nat.le_of_eq (number_of_numbered hm).symm) _
  | refused =>
    rw [ground_dropTree]
    exact hsame.drop _
  | taken hb ht _ =>
    rw [ground_putBuilder, ground_dropTree]
    exact (hsame.drop _).taken (ground_of_builder hb) ht
  | built hb =>
    rw [ground_putTree, ground_putBuilder]
    exact (hsame.drop _).moved (ground_of_builder hb) fun _ _ => trivial
  | movedBuilder hb =>
    rw [ground_putBuilder, ground_putBuilder]
    exact (hsame.drop _).moved (ground_of_builder hb) fun _ hx =>
      Address.isBuilt_builder.2 (Address.isBuilt_builder.1 hx)
  | @movedTree tree _ t ht =>
    have htree : b.ground (.tree tree) = some t := ht
    rw [ground_putTree, ground_dropTree]
    exact (hsame.drop _).moved htree fun _ _ => trivial

end Origins

section Numbers

/-- No number stands at two nodes, and all are below that of the next label. -/
structure WellNumbered (b : Bench (Nat × α)) : Prop where
  tidy : b.Tidy
  ordered : b.Everywhere NamedTree.Ordered
  nodup : b.identities.Nodup
  below : ∀ i ∈ b.identities, i < b.made

theorem wellNumbered_empty : WellNumbered (empty : Bench (Nat × α)) where
  tidy := ⟨List.Pairwise.nil, List.Pairwise.nil⟩
  ordered := everywhere_empty
  nodup := List.nodup_nil
  below _ h := absurd h List.not_mem_nil

/-- What is known of a later bench: numbers are those of before or new ones, and so are nodes. -/
structure Follows (b b' : Bench (Nat × α)) : Prop where
  made_le : b.made ≤ b'.made
  old_or_new : ∀ i ∈ b'.identities, i ∈ b.identities ∨ b.made ≤ i
  inherits : Inherits b.made b.ground b'.ground

theorem Follows.refl (b : Bench (Nat × α)) : Follows b b :=
  ⟨Nat.le_refl _, fun _ h => .inl h, .refl _ _⟩

theorem Follows.trans {b'' : Bench (Nat × α)} (h : Follows b b') (h' : Follows b' b'') :
    Follows b b'' where
  made_le := Nat.le_trans h.made_le h'.made_le
  old_or_new i hi := by
    rcases h'.old_or_new i hi with hi | hi
    · exact h.old_or_new i hi
    · exact .inr (Nat.le_trans h.made_le hi)
  inherits := h.inherits.trans h.made_le h'.inherits

/-- The numbers after a step are numbers from before, but for the next one. -/
theorem Effect.identities (he : Effect (numbered make) b s b') (h : WellNumbered b) :
    (b'.made = b.made ∧ b'.identities.Subperm b.identities) ∨
      (b'.made = b.made + 1 ∧ b'.identities.Subperm (b.made :: b.identities)) := by
  rcases he.labels h.tidy with ⟨hmade, hlabels⟩ | ⟨source, a, hm, hmade, hlabels⟩
  · exact .inl ⟨hmade, subperm_map hlabels Prod.fst⟩
  · exact .inr ⟨hmade, number_of_numbered hm ▸ subperm_map hlabels Prod.fst⟩

theorem Effect.wellNumbered (he : Effect (numbered make) b s b') (h : WellNumbered b) :
    WellNumbered b' ∧ Follows b b' := by
  have htidy := he.tidy h.tidy
  have hordered := he.everywhere (ordered_grows _) h.ordered
  rcases he.identities h with ⟨hmade, hsub⟩ | ⟨hmade, hsub⟩
  · refine ⟨⟨htidy, hordered, nodup_of_subperm hsub h.nodup, fun i hi => ?_⟩,
      ⟨Nat.le_of_eq hmade.symm, fun i hi => .inl (hsub.subset hi), he.inherits⟩⟩
    rw [hmade]
    exact h.below i (hsub.subset hi)
  · have hnew : b.made ∉ b.identities := fun hi => Nat.lt_irrefl _ (h.below _ hi)
    have hcases (i : Nat) (hi : i ∈ b'.identities) : i = b.made ∨ i ∈ b.identities :=
      List.mem_cons.1 (hsub.subset hi)
    refine ⟨⟨htidy, hordered, nodup_of_subperm hsub (List.nodup_cons.2 ⟨hnew, h.nodup⟩),
      fun i hi => ?_⟩, ⟨by omega, fun i hi => ?_, he.inherits⟩⟩
    · rcases hcases i hi with rfl | hi
      · omega
      · have := h.below i hi
        omega
    · rcases hcases i hi with rfl | hi
      · exact .inr (Nat.le_refl _)
      · exact .inl hi

theorem WellNumbered.step (h : WellNumbered b) (make : Nat → Bytes → Except (BuildError α) α)
    (s : Step) :
    WellNumbered (b.step (numbered make) s).2 ∧ Follows b (b.step (numbered make) s).2 :=
  (effect_step (numbered make) b s).wellNumbered h

theorem WellNumbered.run (h : WellNumbered b) (make : Nat → Bytes → Except (BuildError α) α)
    (steps : List Step) :
    WellNumbered (b.run (numbered make) steps) ∧ Follows b (b.run (numbered make) steps) := by
  induction steps generalizing b with
  | nil => exact ⟨h, .refl b⟩
  | cons s rest ih =>
    obtain ⟨hs, hfollows⟩ := h.step make s
    obtain ⟨hrest, hfollows'⟩ := ih hs
    exact ⟨hrest, hfollows.trans hfollows'⟩

variable {i : Nat} {x y : Address} {place name tree : Bytes} {t u : NamedTree (Nat × α)}

theorem StandsAt.mem_identities (h : b.StandsAt i x) : i ∈ b.identities := by
  obtain ⟨u, hu, rfl⟩ := h
  obtain ⟨t, ht, htu⟩ := Ground.node?_eq_some.1 hu
  exact List.mem_map_of_mem
    (mem_labels_of_ground ht (NamedTree.label_mem_labels_of_descend? htu))

theorem WellNumbered.mem_identities_iff (h : WellNumbered b) :
    i ∈ b.identities ↔ ∃ x, b.StandsAt i x := by
  constructor
  · intro hi
    obtain ⟨a, ha, rfl⟩ := List.mem_map.1 hi
    obtain ⟨x, t, ht, rfl⟩ :=
      exists_node?_of_mem_labels h.tidy.trees h.tidy.builders h.ordered ha
    exact ⟨x, t, ht, rfl⟩
  · rintro ⟨x, hx⟩
    exact hx.mem_identities

theorem WellNumbered.one_address (h : WellNumbered b) (hx : b.StandsAt i x) (hy : b.StandsAt i y) :
    x = y := by
  obtain ⟨t, ht, rfl⟩ := hx
  obtain ⟨u, hu, he⟩ := hy
  exact address_unique h.nodup ht hu he.symm

theorem Address.child_inj {m n : Bytes} : x.child m = y.child n ↔ x = y ∧ m = n := by
  constructor
  · intro h
    obtain ⟨hsite, hpath⟩ := Address.mk.inj h
    obtain ⟨hpath, hname⟩ := List.append_inj' hpath rfl
    exact ⟨Address.ext hsite hpath, List.head_eq_of_cons_eq hname⟩
  · rintro ⟨rfl, rfl⟩
    rfl

/-- What a builder takes is below its own node. -/
theorem node?_of_taken (ht : b.trees.lookup tree = some t)
    (hok : (b.step (numbered make) (.child place name tree)).1 = .ok ())
    {path : List Bytes} (hu : t.descend? path = some u) :
    (b.step (numbered make) (.child place name tree)).2.node? ⟨.builder place, name :: path⟩ =
      some u := by
  cases hb : b.builders.lookup place with
  | none =>
    simp only [Bench.step, hb] at hok
    cases hok
  | some builder =>
    cases builder with
    | spent =>
      rw [step_child_spent hb ht] at hok
      cases hok
    | live a children =>
      rcases step_child_live (numbered make) name hb ht with ⟨_, _, hstep⟩ | ⟨_, hstep⟩
      · rw [hstep] at hok
        cases hok
      · rw [hstep, node?, ground_putBuilder]
        refine Ground.node?_eq_some.2 ⟨_, Function.update_self .., ?_⟩
        exact NamedTree.descend?_cons_eq_some.2 ⟨t, Dict.lookup_insert_self .., hu⟩

/-- Why a builder refuses a tree, and that the tree is gone then. -/
theorem step_of_refused {builder : Builder (Nat × α)} {fault : Fault (Nat × α)}
    (hb : b.builders.lookup place = some builder) (ht : b.trees.lookup tree = some t)
    (herror : (b.step (numbered make) (.child place name tree)).1 = .error fault) :
    (fault = .build .spent ∨ ∃ parent, fault = .build (.duplicateChild name parent)) ∧
      (b.step (numbered make) (.child place name tree)).2 = b.dropTree tree := by
  cases builder with
  | spent =>
    rw [step_child_spent hb ht] at herror ⊢
    cases herror
    exact ⟨.inl rfl, rfl⟩
  | live a children =>
    rcases step_child_live (numbered make) name hb ht with ⟨_, _, hstep⟩ | ⟨_, hstep⟩
    · rw [hstep] at herror ⊢
      cases herror
      exact ⟨.inr ⟨a, rfl⟩, rfl⟩
    · rw [hstep] at herror
      cases herror

/-- The numbers of a tree are nowhere else. -/
theorem identities_dropTree (ht : b.trees.lookup tree = some t) :
    (t.identities ++ (b.dropTree tree).identities).Subperm b.identities := by
  rw [NamedTree.identities, identities, ← List.map_append]
  exact subperm_map (labels_dropTree ht) Prod.fst

theorem WellNumbered.gone (h : WellNumbered b) (ht : b.trees.lookup tree = some t)
    (hdrop : WellNumbered (b.dropTree tree)) (make : Nat → Bytes → Except (BuildError α) α)
    (later : List Step) (hi : i ∈ t.identities) :
    i ∉ ((b.dropTree tree).run (numbered make) later).identities := by
  have hsub := identities_dropTree ht
  obtain ⟨-, hlater⟩ := hdrop.run make later
  intro hmem
  rcases hlater.old_or_new i hmem with hold | hnew
  · exact (List.nodup_append'.1 (nodup_of_subperm hsub h.nodup)).2.2 hi hold
  · exact absurd (h.below i (hsub.subset (List.mem_append_left _ hi))) (Nat.not_lt.2 hnew)

theorem Follows.unchanged (h : WellNumbered b) (hfollows : Follows b b') (hx : x.IsBuilt)
    (ht : b.node? x = some t) (hu : b'.node? y = some u) (he : u.identity = t.identity) :
    y.IsBuilt ∧ u = t := by
  have hi : t.identity ∈ b.identities := StandsAt.mem_identities ⟨t, ht, rfl⟩
  obtain ⟨x', t', ht', hlabel, hkept⟩ := hfollows.inherits y u hu (he ▸ h.below _ hi)
  have hsame : x' = x := by
    refine h.one_address (i := t.identity) ⟨t', ht', ?_⟩ ⟨t, ht, rfl⟩
    rw [NamedTree.identity, hlabel]
    exact he
  subst hsame
  cases ht.symm.trans ht'
  obtain ⟨hy, rfl⟩ := hkept hx
  exact ⟨hy, rfl⟩

end Numbers

/-- The nodes of all trees and builders are a forest, now and with every step. -/
structure OwnershipForest (make : Nat → Bytes → Except (BuildError α) α)
    (b : Bench (Nat × α)) : Prop where
  /-- No number is at two nodes, counting those at any depth of all trees and builders. -/
  once : b.identities.Nodup
  /-- The nodes counted are those that have an address. -/
  listed : ∀ i, i ∈ b.identities ↔ ∃ x, b.StandsAt i x
  one_address : ∀ {i x y}, b.StandsAt i x → b.StandsAt i y → x = y
  one_owner : ∀ {i m n} {x y : Address}, b.StandsAt i (x.child m) → b.StandsAt i (y.child n) →
    x = y ∧ m = n
  not_below_itself : ∀ {i path} {x : Address}, b.StandsAt i x →
    b.StandsAt i ⟨x.site, x.path ++ path⟩ → path = []
  /-- No number is given again, whatever is done. -/
  never_again : ∀ later, ∀ i ∈ b.identities, i < (b.run (numbered make) later).made
  /-- All nodes of a tree that a builder takes are below the builder's node, and nowhere else. -/
  taken : ∀ {place name tree t}, b.trees.lookup tree = some t →
    (b.step (numbered make) (.child place name tree)).1 = .ok () →
    ∀ {path u}, t.descend? path = some u → ∀ x,
      (b.step (numbered make) (.child place name tree)).2.StandsAt u.identity x ↔
        x = ⟨.builder place, name :: path⟩
  /-- All nodes of a tree that a builder refuses are gone, and never come back. -/
  refused : ∀ {place name tree builder t fault}, b.builders.lookup place = some builder →
    b.trees.lookup tree = some t →
    (b.step (numbered make) (.child place name tree)).1 = .error fault →
    (fault = .build .spent ∨ ∃ parent, fault = .build (.duplicateChild name parent)) ∧
      ∀ later, ∀ i ∈ t.identities,
        i ∉ ((b.step (numbered make) (.child place name tree)).2.run (numbered make)
          later).identities
  /-- A node that is built stays as it is, children and all, wherever it is found later. -/
  unchanged : ∀ {x t}, x.IsBuilt → b.node? x = some t → ∀ later {y u},
    (b.run (numbered make) later).node? y = some u → u.identity = t.identity → y.IsBuilt ∧ u = t
  /-- A step leaves all sites alone but those it names. -/
  elsewhere : ∀ s site, site ∉ s.sites → (b.step (numbered make) s).2.ground site = b.ground site

theorem WellNumbered.forest (h : WellNumbered b) (make : Nat → Bytes → Except (BuildError α) α) :
    OwnershipForest make b where
  once := h.nodup
  listed _ := h.mem_identities_iff
  one_address hx hy := h.one_address hx hy
  one_owner hx hy := Address.child_inj.1 (h.one_address hx hy)
  not_below_itself {i path x} hx hy := by
    have hpath := congrArg Address.path (h.one_address hx hy)
    exact List.self_eq_append_right.1 hpath
  never_again later i hi := by
    obtain ⟨-, hlater⟩ := h.run make later
    exact Nat.lt_of_lt_of_le (h.below i hi) hlater.made_le
  taken {place name tree t} ht hok {path u} hu x := by
    obtain ⟨hnext, -⟩ := h.step make (.child place name tree)
    have hfound : StandsAt _ u.identity ⟨.builder place, name :: path⟩ :=
      ⟨u, node?_of_taken ht hok hu, rfl⟩
    constructor
    · intro hx
      exact hnext.one_address hx hfound
    · rintro rfl
      exact hfound
  refused {place name tree builder t fault} hb ht herror := by
    obtain ⟨hnext, -⟩ := h.step make (.child place name tree)
    obtain ⟨hfault, hdrop⟩ := step_of_refused hb ht herror
    rw [hdrop] at hnext ⊢
    exact ⟨hfault, fun later i hi => h.gone ht hnext make later hi⟩
  unchanged hx ht later _ _ hu he := by
    obtain ⟨-, hlater⟩ := h.run make later
    exact hlater.unchanged h hx ht hu he
  elsewhere s site hsite := (effect_step (numbered make) b s).ground_of_notMem hsite

/-- After any steps the nodes are a forest. The numbers that tell them apart change nothing: without
them it is the same bench, and it answers the same to every step. -/
theorem nodes_form_forest (make : Nat → Bytes → Except (BuildError α) α) (steps : List Step) :
    OwnershipForest make (empty.run (numbered make) steps) ∧
      (empty.run (numbered make) steps).map Prod.snd = empty.run make steps ∧
      ∀ s, ((empty.run (numbered make) steps).step (numbered make) s).1.mapError
        (Fault.map Prod.snd) = ((empty.run make steps).step make s).1 := by
  have hrun : (empty.run (numbered make) steps).map Prod.snd = empty.run make steps :=
    (run_map (b := empty) (relabels_numbered make) steps).symm
  refine ⟨(wellNumbered_empty.run make steps).1.forest make, hrun, fun s => ?_⟩
  rw [← hrun, step_map (relabels_numbered make)]

/-- A builder takes the first leaf and refuses the second one, which is gone then. -/
example :
    (empty.run (numbered fun _ source => .ok source)
      [.root [0] [], .leaf [0] [1], .child [0] [2] [0], .leaf [0] [1],
        .child [0] [2] [0]]).identities = [0, 1] := by
  decide

end Bench
end NestedMatch
