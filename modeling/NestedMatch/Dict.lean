import NestedMatch.Bytes

/-! Values under names, kept as a list of pairs in ascending byte order of the names. -/

namespace NestedMatch

abbrev Dict (α : Type) := List (Bytes × α)

namespace Dict

variable {α β : Type}

def names (d : Dict α) : List Bytes := d.map Prod.fst

/-- Puts a value under a name, in place of the one that was there. -/
def insert (name : Bytes) (a : α) : Dict α → Dict α
  | [] => [(name, a)]
  | (n, b) :: rest =>
    if name = n then (name, a) :: rest
    else if name < n then (name, a) :: (n, b) :: rest
    else (n, b) :: insert name a rest

def erase (name : Bytes) (d : Dict α) : Dict α := d.filter fun entry => entry.1 != name

/-- The last value given for a name counts. -/
def ofList (entries : List (Bytes × α)) : Dict α :=
  entries.foldl (fun d entry => d.insert entry.1 entry.2) []

/-- The names ascend, so no name occurs twice. -/
def Sorted (d : Dict α) : Prop := d.Pairwise fun a b => a.1 < b.1

theorem lookup_cons_of_ne {name n : Bytes} (h : name ≠ n) (b : α) (d : Dict α) :
    List.lookup name ((n, b) :: d) = d.lookup name := by
  have : (name == n) = false := by simpa using h
  simp [List.lookup_cons, this]

@[simp] theorem lookup_insert_self (name : Bytes) (a : α) (d : Dict α) :
    List.lookup name (insert name a d) = some a := by
  induction d with
  | nil => simp [insert]
  | cons entry rest ih =>
    obtain ⟨n, b⟩ := entry
    unfold insert
    split
    · simp
    · rename_i hne
      split
      · simp
      · rw [lookup_cons_of_ne hne, ih]

theorem lookup_insert_of_ne {name other : Bytes} (h : other ≠ name) (a : α) (d : Dict α) :
    List.lookup other (insert name a d) = d.lookup other := by
  induction d with
  | nil => simp [insert, lookup_cons_of_ne h]
  | cons entry rest ih =>
    obtain ⟨n, b⟩ := entry
    unfold insert
    split
    · rename_i hn
      subst hn
      rw [lookup_cons_of_ne h, lookup_cons_of_ne h]
    · split
      · rw [lookup_cons_of_ne h]
      · by_cases ho : other = n
        · subst ho; simp
        · rw [lookup_cons_of_ne ho, lookup_cons_of_ne ho, ih]

@[simp] theorem lookup_erase_self (name : Bytes) (d : Dict α) :
    List.lookup name (erase name d) = none := by
  induction d with
  | nil => rfl
  | cons entry rest ih =>
    obtain ⟨n, b⟩ := entry
    by_cases h : n = name
    · subst h; simpa [erase] using ih
    · have : erase name ((n, b) :: rest) = (n, b) :: erase name rest := by simp [erase, h]
      rw [this, lookup_cons_of_ne (Ne.symm h), ih]

theorem lookup_erase_of_ne {name other : Bytes} (h : other ≠ name) (d : Dict α) :
    List.lookup other (erase name d) = d.lookup other := by
  induction d with
  | nil => rfl
  | cons entry rest ih =>
    obtain ⟨n, b⟩ := entry
    by_cases hn : n = name
    · subst hn
      have : erase n ((n, b) :: rest) = erase n rest := by simp [erase]
      rw [this, lookup_cons_of_ne h, ih]
    · have : erase name ((n, b) :: rest) = (n, b) :: erase name rest := by simp [erase, hn]
      rw [this]
      by_cases ho : other = n
      · subst ho; simp
      · rw [lookup_cons_of_ne ho, lookup_cons_of_ne ho, ih]

theorem lookup_map (f : Bytes → α → β) (name : Bytes) (d : Dict α) :
    List.lookup name (d.map fun entry => (entry.1, f entry.1 entry.2)) =
      (d.lookup name).map (f name) := by
  induction d with
  | nil => rfl
  | cons entry rest ih =>
    obtain ⟨n, a⟩ := entry
    by_cases h : name = n
    · subst h; simp
    · rw [List.map_cons, lookup_cons_of_ne h, lookup_cons_of_ne h, ih]

theorem insert_map (f : α → β) (name : Bytes) (a : α) (d : Dict α) :
    insert name (f a) (d.map fun entry => (entry.1, f entry.2)) =
      (insert name a d).map fun entry => (entry.1, f entry.2) := by
  induction d with
  | nil => rfl
  | cons entry rest ih =>
    obtain ⟨n, b⟩ := entry
    rw [List.map_cons]
    unfold insert
    split
    · rfl
    · split
      · rfl
      · rw [ih, List.map_cons]

theorem ofList_map (f : α → β) (entries : List (Bytes × α)) :
    ofList (entries.map fun entry => (entry.1, f entry.2)) =
      (ofList entries).map fun entry => (entry.1, f entry.2) := by
  have run (entries : List (Bytes × α)) (d : Dict α) :
      entries.foldl (fun d entry => insert entry.1 (f entry.2) d)
          (d.map fun entry => (entry.1, f entry.2)) =
        (entries.foldl (fun d entry => insert entry.1 entry.2 d) d).map
          fun entry => (entry.1, f entry.2) := by
    induction entries generalizing d with
    | nil => rfl
    | cons entry rest ih => rw [List.foldl_cons, List.foldl_cons, insert_map, ih]
  rw [ofList, List.foldl_map]
  exact run entries []

theorem mem_of_lookup {name : Bytes} {a : α} {d : Dict α} (h : d.lookup name = some a) :
    (name, a) ∈ d := by
  obtain ⟨before, after, rfl, -⟩ := List.lookup_eq_some_iff.1 h
  simp

theorem mem_names_iff {name : Bytes} {d : Dict α} :
    name ∈ d.names ↔ (d.lookup name).isSome = true := by
  simp only [List.lookup_isSome_iff, names, List.mem_map, beq_iff_eq, eq_comm (a := name)]

/-- Of the values given for a name in reverse order the first one counts. -/
theorem lookup_ofList_reverse (entries : List (Bytes × α)) (name : Bytes) :
    (ofList entries.reverse).lookup name = entries.lookup name := by
  rw [ofList, List.foldl_reverse]
  induction entries with
  | nil => rfl
  | cons entry rest ih =>
    obtain ⟨n, a⟩ := entry
    rw [List.foldr_cons]
    by_cases h : name = n
    · subst h; simp
    · rw [lookup_insert_of_ne h, ih, lookup_cons_of_ne h]

theorem mem_insert {name : Bytes} {a : α} {d : Dict α} {entry : Bytes × α}
    (h : entry ∈ insert name a d) : entry = (name, a) ∨ entry ∈ d := by
  induction d with
  | nil => exact .inl (by simpa [insert] using h)
  | cons first rest ih =>
    obtain ⟨n, b⟩ := first
    unfold insert at h
    split at h
    · rcases List.mem_cons.1 h with h | h
      · exact .inl h
      · exact .inr (List.mem_cons_of_mem _ h)
    · split at h
      · rcases List.mem_cons.1 h with h | h
        · exact .inl h
        · exact .inr h
      · rcases List.mem_cons.1 h with h | h
        · exact .inr (h ▸ List.mem_cons_self)
        · exact (ih h).imp id (List.mem_cons_of_mem _)

/-- A name after all others goes to the end. -/
theorem insert_of_forall_lt {name : Bytes} {d : Dict α} (h : ∀ entry ∈ d, entry.1 < name) (a : α) :
    insert name a d = d ++ [(name, a)] := by
  induction d with
  | nil => rfl
  | cons first rest ih =>
    obtain ⟨n, b⟩ := first
    obtain ⟨hfirst, hrest⟩ := List.forall_mem_cons.1 h
    have hne : name ≠ n := fun he => List.lt_irrefl name (by simpa [← he] using hfirst)
    have hnlt : ¬ name < n := fun hlt => List.lt_irrefl name (List.lt_trans hlt hfirst)
    rw [insert, if_neg hne, if_neg hnlt, ih hrest, List.cons_append]

/-- A new name adds its entry and leaves the others. -/
theorem perm_insert {name : Bytes} {d : Dict α} (h : d.lookup name = none) (a : α) :
    (insert name a d).Perm ((name, a) :: d) := by
  induction d with
  | nil => exact .refl _
  | cons first rest ih =>
    obtain ⟨n, b⟩ := first
    have hne : name ≠ n := by
      rintro rfl
      simp at h
    rw [lookup_cons_of_ne hne] at h
    unfold insert
    rw [if_neg hne]
    split
    · exact .refl _
    · exact ((ih h).cons _).trans (.swap _ _ _)

theorem lt_of_not_lt_of_ne {m n : Bytes} (h : ¬ m < n) (hne : m ≠ n) : n < m := by
  rcases List.le_iff_lt_or_eq.1 (List.not_lt.1 h) with h | h
  · exact h
  · exact absurd h.symm hne

theorem sorted_insert {name : Bytes} {a : α} {d : Dict α} (h : Sorted d) :
    Sorted (insert name a d) := by
  induction d with
  | nil => simp [insert, Sorted]
  | cons first rest ih =>
    obtain ⟨n, b⟩ := first
    obtain ⟨hfirst, hrest⟩ := List.pairwise_cons.1 h
    unfold insert
    split
    · rename_i he
      subst he
      exact List.pairwise_cons.2 ⟨hfirst, hrest⟩
    · rename_i hne
      split
      · rename_i hlt
        refine List.pairwise_cons.2 ⟨fun entry he => ?_, h⟩
        rcases List.mem_cons.1 he with rfl | he
        · exact hlt
        · exact List.lt_trans hlt (hfirst entry he)
      · rename_i hnlt
        refine List.pairwise_cons.2 ⟨fun entry he => ?_, ih hrest⟩
        rcases mem_insert he with rfl | he
        · exact lt_of_not_lt_of_ne hnlt hne
        · exact hfirst entry he

theorem sorted_ofList (entries : List (Bytes × α)) : Sorted (ofList entries) := by
  have run : ∀ (entries : List (Bytes × α)) (d : Dict α), Sorted d →
      Sorted (entries.foldl (fun d entry => d.insert entry.1 entry.2) d) := by
    intro entries
    induction entries with
    | nil => exact fun d h => h
    | cons entry rest ih => exact fun d h => ih _ (sorted_insert h)
  exact run entries [] List.Pairwise.nil

/-- Entries under different new names are all kept. -/
theorem perm_foldl_insert {entries : List (Bytes × α)} {d : Dict α}
    (hne : entries.Pairwise fun a b => a.1 ≠ b.1) (hnew : ∀ e ∈ entries, d.lookup e.1 = none) :
    (entries.foldl (fun d entry => d.insert entry.1 entry.2) d).Perm (entries ++ d) := by
  induction entries generalizing d with
  | nil => exact .refl _
  | cons e rest ih =>
    obtain ⟨hfirst, hrest⟩ := List.pairwise_cons.1 hne
    obtain ⟨he, hothers⟩ := List.forall_mem_cons.1 hnew
    have hnew' : ∀ other ∈ rest, (insert e.1 e.2 d).lookup other.1 = none := fun other ho => by
      rw [lookup_insert_of_ne (hfirst other ho).symm]
      exact hothers other ho
    calc rest.foldl (fun d entry => d.insert entry.1 entry.2) (insert e.1 e.2 d)
      _ |>.Perm (rest ++ insert e.1 e.2 d) := ih hrest hnew'
      _ |>.Perm (rest ++ e :: d) := (perm_insert he e.2).append_left rest
      _ |>.Perm (e :: rest ++ d) := List.perm_middle

/-- Entries under different names, put in order. -/
theorem ofList_eq_of_perm {entries : List (Bytes × α)} {d : Dict α} (h : entries.Perm d)
    (hd : Sorted d) : ofList entries = d := by
  have hne : d.Pairwise fun a b => a.1 ≠ b.1 := List.Pairwise.imp (fun hlt he => by
    rw [he] at hlt
    exact List.lt_irrefl _ hlt) hd
  have hperm : (ofList entries).Perm d := by
    have := perm_foldl_insert (d := []) ((h.pairwise_iff fun hab => hab.symm).2 hne) fun _ _ => rfl
    rw [List.append_nil] at this
    exact this.trans h
  exact hperm.eq_of_pairwise
    (fun _ _ _ _ hlt hgt => absurd (List.lt_trans hlt hgt) (List.lt_irrefl _))
    (sorted_ofList entries) hd

end Dict
end NestedMatch
