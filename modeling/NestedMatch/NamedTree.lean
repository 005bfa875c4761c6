import NestedMatch.Dict

/-! Trees with a label at every node and a name at every branch. -/

namespace NestedMatch

inductive NamedTree (α : Type) where
  | node (label : α) (branches : List (Bytes × NamedTree α))

namespace NamedTree

variable {α β : Type}

def label : NamedTree α → α
  | .node a _ => a

def branches : NamedTree α → Dict (NamedTree α)
  | .node _ bs => bs

def branch? (t : NamedTree α) (name : Bytes) : Option (NamedTree α) := t.branches.lookup name

/-- A tree of one node. -/
def leaf (a : α) : NamedTree α := .node a []

mutual

/-- The labels of all nodes, a node before its branches. -/
def labels : NamedTree α → List α
  | .node a bs => a :: labelsOfBranches bs

def labelsOfBranches : List (Bytes × NamedTree α) → List α
  | [] => []
  | (_, t) :: rest => t.labels ++ labelsOfBranches rest

end

mutual

def map (f : α → β) : NamedTree α → NamedTree β
  | .node a bs => .node (f a) (mapBranches f bs)

def mapBranches (f : α → β) : List (Bytes × NamedTree α) → List (Bytes × NamedTree β)
  | [] => []
  | (name, t) :: rest => (name, t.map f) :: mapBranches f rest

end

/-- Induction over a tree, with the hypothesis for every branch. -/
@[elab_as_elim]
theorem induct {motive : NamedTree α → Prop}
    (node : ∀ a bs, (∀ b ∈ bs, motive b.2) → motive (.node a bs)) (t : NamedTree α) :
    motive t := by
  refine @NamedTree.rec α motive (fun bs => ∀ b ∈ bs, motive b.2) (fun b => motive b.2)
    node ?_ ?_ ?_ t
  · simp
  · exact fun b rest hb hrest => List.forall_mem_cons.2 ⟨hb, hrest⟩
  · exact fun name t h => h

@[simp] theorem branches_node (a : α) (bs : List (Bytes × NamedTree α)) :
    (node a bs).branches = bs := rfl

theorem mapBranches_eq (f : α → β) (bs : List (Bytes × NamedTree α)) :
    mapBranches f bs = bs.map fun b => (b.1, b.2.map f) := by
  induction bs with
  | nil => rfl
  | cons b rest ih => simp [mapBranches, ih]

theorem labelsOfBranches_eq (bs : List (Bytes × NamedTree α)) :
    labelsOfBranches bs = bs.flatMap fun b => b.2.labels := by
  induction bs with
  | nil => rfl
  | cons b rest ih => simp [labelsOfBranches, ih]

theorem label_mem_labels (t : NamedTree α) : t.label ∈ t.labels := by
  cases t
  simp [labels, label]

theorem labels_subset_of_branch? {t u : NamedTree α} {name : Bytes} (h : t.branch? name = some u) :
    u.labels ⊆ t.labels := by
  obtain ⟨a, bs⟩ := t
  intro b hb
  rw [labels, labelsOfBranches_eq]
  exact List.mem_cons_of_mem _ (List.mem_flatMap.2 ⟨_, Dict.mem_of_lookup h, hb⟩)

end NamedTree
end NestedMatch
