/-! Results that stop at the first fault: read backwards, and beside the list of all faults. -/

namespace NestedMatch

theorem bind_eq_ok {ε α β : Type} {x : Except ε α} {f : α → Except ε β} {b : β} :
    (x >>= f) = .ok b ↔ ∃ a, x = .ok a ∧ f a = .ok b := by
  cases x with
  | error e => simp [bind, Except.bind]
  | ok a => simp [bind, Except.bind]

theorem map_eq_ok {ε α β : Type} {x : Except ε α} {f : α → β} {b : β} :
    x.map f = .ok b ↔ ∃ a, x = .ok a ∧ b = f a := by
  cases x with
  | error e => simp [Except.map]
  | ok a => simp [Except.map, eq_comm]

theorem pure_eq_ok {ε α : Type} {a b : α} : (pure a : Except ε α) = .ok b ↔ a = b := by
  simp [pure, Except.pure]

theorem bind_eq_error {ε α β : Type} {x : Except ε α} {f : α → Except ε β} {e : ε} :
    (x >>= f) = .error e ↔ x = .error e ∨ ∃ a, x = .ok a ∧ f a = .error e := by
  cases x with
  | error e' => simp [bind, Except.bind]
  | ok a => simp [bind, Except.bind]

theorem map_eq_error {ε α β : Type} {x : Except ε α} {f : α → β} {e : ε} :
    x.map f = .error e ↔ x = .error e := by
  cases x with
  | error e' => simp [Except.map]
  | ok a => simp [Except.map]

theorem map_map {ε α β γ : Type} (f : α → β) (g : β → γ) (x : Except ε α) :
    (x.map f).map g = x.map (g ∘ f) := by
  cases x <;> rfl

theorem mapError_map {ε ε' α β : Type} (f : ε → ε') (g : α → β) (x : Except ε α) :
    (x.mapError f).map g = (x.map g).mapError f := by
  cases x <;> rfl

theorem mapError_ok {ε ε' α : Type} (f : ε → ε') (a : α) :
    (Except.ok a : Except ε α).mapError f = .ok a := rfl

theorem mapError_eq_ok {ε ε' α : Type} {f : ε → ε'} {x : Except ε α} {a : α} :
    x.mapError f = .ok a ↔ x = .ok a := by
  cases x with
  | error e => exact iff_of_false (fun h => by cases h) fun h => by cases h
  | ok b => rw [mapError_ok, Except.ok.injEq, Except.ok.injEq]

theorem pure_ne_error {ε α : Type} {a : α} {e : ε} : (pure a : Except ε α) ≠ .error e := by
  simp [pure, Except.pure]

/-- The result is the first of the faults, and a value where there is none. -/
def Reports {ε α : Type} (r : Except ε α) (es : List ε) : Prop :=
  ∀ e, r = .error e ↔ es.head? = some e

namespace Reports

variable {ε α β : Type} {x : Except ε α} {es es' : List ε}

theorem ok (a : α) : Reports (.ok a : Except ε α) [] := by simp [Reports]

theorem error (e : ε) (es : List ε) : Reports (.error e : Except ε α) (e :: es) := by
  simp [Reports]

theorem eq_nil_iff (h : Reports x es) : es = [] ↔ ∃ a, x = .ok a := by
  cases x with
  | error e =>
    have := (h e).1 rfl
    exact iff_of_false (fun he => by simp [he] at this) (by simp)
  | ok a =>
    refine iff_of_true (List.head?_eq_none_iff.1 ?_) ⟨a, rfl⟩
    exact Option.eq_none_iff_forall_ne_some.2 fun e he => by cases (h e).2 he

/-- What comes second reports where the first gives a value. -/
theorem bind {f : α → Except ε β} (h : Reports x es)
    (hf : ∀ a, x = .ok a → Reports (f a) es') : Reports (x >>= f) (es ++ es') := by
  cases x with
  | error e =>
    obtain ⟨rest, rfl⟩ := List.head?_eq_some_iff.1 ((h e).1 rfl)
    exact error e _
  | ok a =>
    obtain rfl := h.eq_nil_iff.2 ⟨a, rfl⟩
    exact hf a rfl

theorem map (f : α → β) (h : Reports x es) : Reports (x.map f) es := by
  cases x with
  | error e =>
    obtain ⟨rest, rfl⟩ := List.head?_eq_some_iff.1 ((h e).1 rfl)
    exact error e rest
  | ok a =>
    obtain rfl := h.eq_nil_iff.2 ⟨a, rfl⟩
    exact ok (f a)

/-- The results of two parts put together. -/
theorem both {γ : Type} {y : Except ε β} (f : α → β → γ) (hx : Reports x es)
    (hy : Reports y es') :
    Reports (x >>= fun a => y >>= fun b => pure (f a b)) (es ++ es') :=
  hx.bind fun a _ => hy.map (f a)

end Reports
end NestedMatch
