import Mathlib.Data.List.Flatten
import NestedMatch.Proofs.Addresses

/-! What a step does to a bench. It changes nothing at sites that it does not name. Labels are
counted, those of all nodes at any depth, of all trees and builders. Main statement: after a step no
label is there more often than before, but for the one label that the step made. -/

namespace NestedMatch

variable {α : Type}

namespace Dict

theorem lookup_eq_none_of_forall_lt {name : Bytes} {d : Dict α} (h : ∀ entry ∈ d, name < entry.1) :
    d.lookup name = none := by
  refine List.lookup_eq_none_iff.2 fun entry he => ?_
  simpa using fun hn => List.lt_irrefl name (by simpa [← hn] using h entry he)

/-- A value put under a name takes the place of the one that was there. -/
theorem perm_insert_of_lookup {name : Bytes} {d : Dict α} {old : α} (hd : d.Sorted)
    (h : d.lookup name = some old) (a : α) :
    ((name, old) :: insert name a d).Perm ((name, a) :: d) := by
  induction d with
  | nil => cases h
  | cons first rest ih =>
    obtain ⟨n, c⟩ := first
    obtain ⟨hfirst, hrest⟩ := List.pairwise_cons.1 hd
    unfold insert
    split
    · rename_i he
      subst he
      rw [List.lookup_cons_self] at h
      cases h
      exact .swap _ _ _
    · rename_i hne
      rw [lookup_cons_of_ne hne] at h
      split
      · rename_i hlt
        rw [lookup_eq_none_of_forall_lt fun entry he => List.lt_trans hlt (hfirst entry he)] at h
        cases h
      · exact (List.Perm.swap _ _ _).trans (((ih hrest h).cons _).trans (.swap _ _ _))

theorem subperm_insert {d : Dict α} (hd : d.Sorted) (name : Bytes) (a : α) :
    (insert name a d).Subperm ((name, a) :: d) := by
  cases h : d.lookup name with
  | none => exact (perm_insert h a).subperm
  | some old =>
    exact (List.sublist_cons_self _ _).subperm.trans (perm_insert_of_lookup hd h a).subperm

theorem subperm_erase {name : Bytes} {d : Dict α} {a : α} (h : d.lookup name = some a) :
    ((name, a) :: erase name d).Subperm d := by
  obtain ⟨before, after, rfl, -⟩ := List.lookup_eq_some_iff.1 h
  have herase : erase name (before ++ (name, a) :: after) =
      erase name before ++ erase name after := by
    simp [erase]
  rw [herase]
  refine List.perm_middle.symm.subperm.trans (List.Sublist.subperm ?_)
  exact List.filter_sublist.append (List.filter_sublist.cons_cons _)

theorem sorted_erase {d : Dict α} (h : d.Sorted) (name : Bytes) : Sorted (erase name d) :=
  h.sublist List.filter_sublist

end Dict

section Subperm

variable {β γ : Type} {l m : List β}

theorem subperm_flatMap (h : l.Subperm m) (g : β → List γ) :
    (l.flatMap g).Subperm (m.flatMap g) := by
  obtain ⟨l', hperm, hsublist⟩ := h
  exact ⟨l'.flatMap g, hperm.flatMap_right g, hsublist.flatMap g⟩

theorem subperm_map (h : l.Subperm m) (g : β → γ) : (l.map g).Subperm (m.map g) := by
  obtain ⟨l', hperm, hsublist⟩ := h
  exact ⟨l'.map g, hperm.map g, hsublist.map g⟩

theorem nodup_of_subperm (h : l.Subperm m) (hm : m.Nodup) : l.Nodup := by
  obtain ⟨l', hperm, hsublist⟩ := h
  exact hperm.nodup_iff.1 (hm.sublist hsublist)

end Subperm

namespace Bench

variable {make : Nat → Bytes → Except (BuildError α) α} {b b' : Bench α} {place : Bytes}
  {t : NamedTree α} {old : Builder α} {s : Step}

/-- The sites that a step names. -/
def Step.sites : Step → List Site
  | .leaf into _ => [.tree into]
  | .root into _ => [.builder into]
  | .child builder _ tree => [.builder builder, .tree tree]
  | .build builder into => [.builder builder, .tree into]
  | .moveBuilder builder into => [.builder builder, .builder into]
  | .moveTree tree into => [.tree tree, .tree into]

theorem Effect.ground_of_notMem (he : Effect make b s b') {site : Site} (h : site ∉ s.sites) :
    b'.ground site = b.ground site := by
  cases he with
  | nothing => rfl
  | leaf =>
    rw [Step.sites, List.mem_singleton] at h
    rw [ground_putTree, Function.update_of_ne h]
    rfl
  | root =>
    rw [Step.sites, List.mem_singleton] at h
    rw [ground_putBuilder, Function.update_of_ne h]
    rfl
  | refused =>
    simp only [Step.sites, List.mem_cons, List.not_mem_nil, or_false, not_or] at h
    rw [ground_dropTree, Function.update_of_ne h.2]
  | taken | built | movedBuilder | movedTree =>
    simp only [Step.sites, List.mem_cons, List.not_mem_nil, or_false, not_or] at h
    simp only [ground_putTree, ground_dropTree, ground_putBuilder, ne_eq, h, not_false_eq_true,
      Function.update_of_ne]

/-- The places stand in the order of their names. -/
structure Tidy (b : Bench α) : Prop where
  trees : Dict.Sorted b.trees
  builders : Dict.Sorted b.builders

theorem Tidy.putTree (h : b.Tidy) (place : Bytes) (t : NamedTree α) : (b.putTree place t).Tidy :=
  ⟨Dict.sorted_insert h.trees, h.builders⟩

theorem Tidy.dropTree (h : b.Tidy) (place : Bytes) : (b.dropTree place).Tidy :=
  ⟨Dict.sorted_erase h.trees place, h.builders⟩

theorem Tidy.putBuilder (h : b.Tidy) (place : Bytes) (builder : Builder α) :
    (b.putBuilder place builder).Tidy :=
  ⟨h.trees, Dict.sorted_insert h.builders⟩

theorem Effect.tidy (he : Effect make b s b') (h : b.Tidy) : b'.Tidy := by
  have hmade : { b with made := b.made + 1 }.Tidy := ⟨h.trees, h.builders⟩
  cases he with
  | nothing => exact h
  | leaf _ => exact hmade.putTree _ _
  | root _ => exact hmade.putBuilder _ _
  | refused => exact h.dropTree _
  | taken => exact (h.dropTree _).putBuilder _ _
  | built => exact (h.putBuilder _ _).putTree _ _
  | movedBuilder => exact (h.putBuilder _ _).putBuilder _ _
  | movedTree => exact (h.dropTree _).putTree _ _

theorem labels_putTree (h : b.Tidy) (place : Bytes) (t : NamedTree α) :
    (b.putTree place t).labels.Subperm (t.labels ++ b.labels) := by
  have hinsert := subperm_flatMap (Dict.subperm_insert h.trees place t) fun e => e.2.labels
  rw [labels, labels, ← List.append_assoc]
  exact (List.subperm_append_right _).2 hinsert

theorem labels_dropTree (ht : b.trees.lookup place = some t) :
    (t.labels ++ (b.dropTree place).labels).Subperm b.labels := by
  have herase := subperm_flatMap (Dict.subperm_erase ht) fun e => e.2.labels
  rw [labels, labels, ← List.append_assoc]
  exact (List.subperm_append_right _).2 herase

theorem labels_dropTree_sublist (b : Bench α) (place : Bytes) :
    (b.dropTree place).labels.Sublist b.labels :=
  List.Sublist.append (List.filter_sublist.flatMap _) (.refl _)

theorem labels_putBuilder (h : b.Tidy) (place : Bytes) (builder : Builder α) :
    (b.putBuilder place builder).labels.Subperm (builder.labels ++ b.labels) := by
  have hinsert := subperm_flatMap (Dict.subperm_insert h.builders place builder)
    fun e => e.2.labels
  exact ((List.subperm_append_left _).2 hinsert).trans (List.perm_append_comm_assoc _ _ _).subperm

/-- A builder put into a place takes the place of the one that was there. -/
theorem labels_putBuilder_of_lookup (h : b.Tidy) (hb : b.builders.lookup place = some old)
    (builder : Builder α) :
    (old.labels ++ (b.putBuilder place builder).labels).Perm (builder.labels ++ b.labels) := by
  have hinsert := (Dict.perm_insert_of_lookup h.builders hb builder).flatMap_right
    fun e => e.2.labels
  exact (List.perm_append_comm_assoc _ _ _).trans
    ((hinsert.append_left _).trans (List.perm_append_comm_assoc _ _ _).symm)

theorem labels_putSpent (h : b.Tidy) (hb : b.builders.lookup place = some old) :
    (old.labels ++ (b.putBuilder place .spent).labels).Perm b.labels :=
  labels_putBuilder_of_lookup h hb .spent

theorem labels_live_insert {a : α} {children : List (Bytes × NamedTree α)} {name : Bytes}
    (hnew : children.lookup name = none) (t : NamedTree α) :
    (Builder.live a (Dict.insert name t children)).labels.Perm
      (t.labels ++ (Builder.live a children).labels) := by
  have hchildren : ((Dict.insert name t children).flatMap fun c => c.2.labels).Perm
      (t.labels ++ children.flatMap fun c => c.2.labels) :=
    (Dict.perm_insert hnew t).flatMap_right _
  rw [Builder.labels_live, Builder.labels_live]
  exact (hchildren.cons a).trans List.perm_middle.symm

/-- A tree handed to a builder is counted there instead. -/
theorem labels_child {name tree : Bytes} {a : α} {children : List (Bytes × NamedTree α)}
    (h : b.Tidy) (hb : b.builders.lookup place = some (.live a children))
    (ht : b.trees.lookup tree = some t) (hnew : children.lookup name = none) :
    ((b.dropTree tree).putBuilder place
      (.live a (Dict.insert name t children))).labels.Subperm b.labels := by
  have hput := labels_putBuilder_of_lookup (h.dropTree tree) hb
    (.live a (Dict.insert name t children))
  have hnode : ((Builder.live a (Dict.insert name t children)).labels ++
        (b.dropTree tree).labels).Perm
      ((Builder.live a children).labels ++ (t.labels ++ (b.dropTree tree).labels)) := by
    refine ((labels_live_insert hnew t).append_right _).trans ?_
    rw [List.append_assoc]
    exact List.perm_append_comm_assoc _ _ _
  have hdrop := (List.subperm_append_left (Builder.live a children).labels).2 (labels_dropTree ht)
  exact (List.subperm_append_left _).1 ((hput.trans hnode).subperm.trans hdrop)

/-- A step makes one label at most, and may lose some. No other is there that was not there before,
and none more often. -/
theorem Effect.labels (he : Effect make b s b') (h : b.Tidy) :
    (b'.made = b.made ∧ b'.labels.Subperm b.labels) ∨
      ∃ source a, make b.made source = .ok a ∧ b'.made = b.made + 1 ∧
        b'.labels.Subperm (a :: b.labels) := by
  have hmade : { b with made := b.made + 1 }.Tidy := ⟨h.trees, h.builders⟩
  cases he with
  | nothing => exact .inl ⟨rfl, .refl _⟩
  | leaf hm => exact .inr ⟨_, _, hm, rfl, labels_putTree hmade _ _⟩
  | root hm => exact .inr ⟨_, _, hm, rfl, labels_putBuilder hmade _ _⟩
  | refused => exact .inl ⟨rfl, (labels_dropTree_sublist b _).subperm⟩
  | taken hb ht hnew => exact .inl ⟨rfl, labels_child h hb ht hnew⟩
  | built hb =>
    exact .inl ⟨rfl, (labels_putTree (h.putBuilder _ _) _ _).trans (labels_putSpent h hb).subperm⟩
  | movedBuilder hb =>
    exact .inl ⟨rfl,
      (labels_putBuilder (h.putBuilder _ _) _ _).trans (labels_putSpent h hb).subperm⟩
  | movedTree ht =>
    exact .inl ⟨rfl, (labels_putTree (h.dropTree _) _ _).trans (labels_dropTree ht)⟩

end Bench
end NestedMatch
