/-!
# Fallible computations

A computation reads and changes a state and may fail. What it has changed before it fails stays
changed, so a caller who wants it undone has to undo it. The lemmas say what each way to combine
computations does to a state, and which computations change nothing when they fail.
-/

namespace StatVars

/-- A computation on states in `σ` that may fail with an error in `ε`. -/
abbrev Fallible (ε σ α : Type) := ExceptT ε (StateM σ) α

namespace Fallible

variable {ε σ α β : Type}

@[simp] theorem pure_apply (a : α) (s : σ) : (pure a : Fallible ε σ α) s = (.ok a, s) := rfl

@[simp] theorem throw_apply (e : ε) (s : σ) :
    (throw e : Fallible ε σ α) s = (.error e, s) := rfl

@[simp] theorem get_apply (s : σ) : (get : Fallible ε σ σ) s = (.ok s, s) := rfl

@[simp] theorem set_apply (t s : σ) : (set t : Fallible ε σ PUnit) s = (.ok ⟨⟩, t) := rfl

@[simp] theorem modify_apply (f : σ → σ) (s : σ) :
    (modify f : Fallible ε σ Unit) s = (.ok (), f s) := rfl

@[simp] theorem liftM_apply (r : Except ε α) (s : σ) : (liftM r : Fallible ε σ α) s = (r, s) := rfl

theorem bind_apply (x : Fallible ε σ α) (f : α → Fallible ε σ β) (s : σ) :
    (x >>= f) s = match x s with
      | (.ok a, t) => f a t
      | (.error e, t) => (.error e, t) := by
  simp only [bind, ExceptT.bind, ExceptT.mk, StateT.bind]
  rcases x s with ⟨_ | _, t⟩ <;> rfl

theorem get_bind_apply (f : σ → Fallible ε σ α) (s : σ) : (get >>= f) s = f s s := rfl

theorem map_apply (f : α → β) (x : Fallible ε σ α) (s : σ) :
    (f <$> x) s = match x s with
      | (.ok a, t) => (.ok (f a), t)
      | (.error e, t) => (.error e, t) := by
  simp only [Functor.map, ExceptT.map, ExceptT.mk, StateT.bind, bind]
  rcases x s with ⟨_ | _, t⟩ <;> rfl

theorem tryCatch_apply (x : Fallible ε σ α) (f : ε → Fallible ε σ α) (s : σ) :
    (tryCatch x f) s = match x s with
      | (.ok a, t) => (.ok a, t)
      | (.error e, t) => f e t := by
  simp only [tryCatch, tryCatchThe, MonadExceptOf.tryCatch, ExceptT.tryCatch, ExceptT.mk, bind,
    StateT.bind]
  rcases x s with ⟨_ | _, t⟩ <;> rfl

/-- A computation in two parts succeeds only if both do. -/
theorem bind_ok {x : Fallible ε σ α} {f : α → Fallible ε σ β} {s t : σ} {b : β}
    (h : (x >>= f) s = (.ok b, t)) : ∃ a r, x s = (.ok a, r) ∧ f a r = (.ok b, t) := by
  rw [bind_apply] at h
  rcases hx : x s with ⟨e | a, r⟩ <;> rw [hx] at h
  · cases h
  · exact ⟨a, r, rfl, h⟩

/-- A computation in two parts fails in the first or in the second one. -/
theorem bind_error {x : Fallible ε σ α} {f : α → Fallible ε σ β} {s t : σ} {e : ε}
    (h : (x >>= f) s = (.error e, t)) :
    x s = (.error e, t) ∨ ∃ a r, x s = (.ok a, r) ∧ f a r = (.error e, t) := by
  rw [bind_apply] at h
  rcases hx : x s with ⟨e' | a, r⟩ <;> rw [hx] at h
  · cases h
    exact .inl rfl
  · exact .inr ⟨a, r, rfl, h⟩

theorem get_bind_ok {f : σ → Fallible ε σ β} {s t : σ} {b : β}
    (h : (get >>= f) s = (.ok b, t)) : f s s = (.ok b, t) := h

theorem liftM_bind_ok {r : Except ε α} {f : α → Fallible ε σ β} {s t : σ} {b : β}
    (h : ((liftM r : Fallible ε σ α) >>= f) s = (.ok b, t)) :
    ∃ a, r = .ok a ∧ f a s = (.ok b, t) := by
  obtain ⟨a, u, ha, h⟩ := bind_ok h
  rw [liftM_apply] at ha
  cases ha
  exact ⟨a, rfl, h⟩

/-! ## Results without a state -/

theorem exists_of_map_ok {r : Except ε α} {f : α → β} {b : β}
    (h : r.map f = .ok b) : ∃ a, r = .ok a ∧ f a = b := by
  cases r with
  | ok a =>
    cases h
    exact ⟨a, rfl, rfl⟩
  | error e => cases h

theorem ok_bind (a : α) (f : α → Except ε β) : (Except.ok a >>= f) = f a := rfl

theorem exists_of_bind_ok {r : Except ε α} {f : α → Except ε β} {b : β}
    (h : r >>= f = .ok b) : ∃ a, r = .ok a ∧ f a = .ok b := by
  cases r with
  | ok a => exact ⟨a, rfl, h⟩
  | error e => cases h

end Fallible

end StatVars
