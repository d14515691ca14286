import FixedPool.Error

/-!
How steps and checked computations are run, one constructor of the result at a time.
-/

namespace FixedPool
set_option autoImplicit true

theorem Op.bind_apply (x : Op σ α) (f : α → Op σ β) (s : σ) :
    (x >>= f) s = match x s with
      | .ok a s' => f a s'
      | .error cause s' => .error cause s' := by
  change EStateM.bind x f s = _
  unfold EStateM.bind
  cases x s <;> rfl

theorem Op.bind_ok {x : Op σ α} (f : α → Op σ β) (h : x s = .ok a s') :
    (x >>= f) s = f a s' := by
  rw [bind_apply, h]

theorem Op.bind_error {x : Op σ α} (f : α → Op σ β) (h : x s = .error cause s') :
    (x >>= f) s = .error cause s' := by
  rw [bind_apply, h]

theorem Op.map_apply (f : α → β) (x : Op σ α) (s : σ) :
    (f <$> x) s = match x s with
      | .ok a s' => .ok (f a) s'
      | .error cause s' => .error cause s' := by
  change EStateM.map f x s = _
  unfold EStateM.map
  cases x s <;> rfl

theorem Op.map_ok {x : Op σ α} (f : α → β) (h : x s = .ok a s') : (f <$> x) s = .ok (f a) s' := by
  rw [map_apply, h]

theorem Op.get_apply (s : σ) : (get : Op σ σ) s = .ok s s := rfl

theorem Op.modify_apply (f : σ → σ) (s : σ) : (modify f : Op σ PUnit) s = .ok () (f s) := rfl

theorem Op.pure_apply (a : α) (s : σ) : (pure a : Op σ α) s = .ok a s := rfl

theorem Op.throw_apply (cause : Fault) (s : σ) : (throw cause : Op σ α) s = .error cause s := rfl

theorem Op.lift_apply (x : Checked α) (s : σ) :
    (liftM x : Op σ α) s = match x with
      | .ok a => .ok a s
      | .error cause => .error cause s := rfl

theorem Op.get_bind (f : σ → Op σ α) (s : σ) : (get >>= f) s = f s s := rfl

theorem Op.modify_bind (g : σ → σ) (f : PUnit → Op σ α) (s : σ) :
    (modify g >>= f) s = f () (g s) := rfl

theorem Op.lift_bind {x : Checked α} (f : α → Op σ β) (h : x = .ok a) (s : σ) :
    ((liftM x : Op σ α) >>= f) s = f a s := by
  rw [bind_apply, lift_apply, h]

theorem Op.lift_bind_error {x : Checked α} (f : α → Op σ β) (h : x = .error cause) (s : σ) :
    ((liftM x : Op σ α) >>= f) s = .error cause s := by
  rw [bind_apply, lift_apply, h]

theorem Op.bind_eq_ok {x : Op σ α} {f : α → Op σ β} :
    (x >>= f) s = .ok b t ↔ ∃ a s', x s = .ok a s' ∧ f a s' = .ok b t := by
  rw [bind_apply]
  cases x s with
  | error cause s' => simp only [reduceCtorEq, false_and, exists_false]
  | ok a s' => simp only [EStateM.Result.ok.injEq, and_assoc, exists_and_left, exists_eq_left']

theorem Op.lift_eq_ok {x : Checked α} :
    (liftM x : Op σ α) s = .ok a t ↔ x = .ok a ∧ t = s := by
  rw [lift_apply]
  cases x with
  | error cause => simp only [reduceCtorEq, false_and]
  | ok b => simp only [EStateM.Result.ok.injEq, Except.ok.injEq, eq_comm]

/-- What a step answers that starts in a computed state, if there is one and it does. -/
def Op.answerFrom (x : Op σ α) (start : Except ε σ) : Option α :=
  match start with
  | .error _ => none
  | .ok s =>
    match x s with
    | .ok a _ => some a
    | .error _ _ => none

theorem Op.exists_of_answerFrom {x : Op σ α} {start : Except ε σ}
    (h : x.answerFrom start = some a) : ∃ s s', start = .ok s ∧ x s = .ok a s' := by
  unfold answerFrom at h
  split at h
  next => cases h
  next s =>
    split at h
    next b s' hx =>
      cases h
      exact ⟨s, s', rfl, hx⟩
    next => cases h

/-- What can only be one value, if it is any, is that value. -/
theorem Checked.eq_of_ok {P : Prop} {x : Except ε α} (h : x = .ok b ∨ P ∧ x = .error cause)
    (ha : x = .ok a) : a = b := by
  obtain h | ⟨-, h⟩ := h
  · rw [ha] at h
    exact Except.ok.inj h
  · rw [ha] at h
    cases h

theorem Checked.ok_bind (a : α) (f : α → Except ε β) : ((Except.ok a : Except ε α) >>= f) = f a :=
  rfl

theorem Checked.bind_eq_ok {x : Except ε α} {f : α → Except ε β} :
    (x >>= f) = .ok b ↔ ∃ a, x = .ok a ∧ f a = .ok b := by
  cases x with
  | error cause => simp [bind, Except.bind]
  | ok a => simp [bind, Except.bind]

theorem Checked.lift_bind {x : Checked α} (f : α → Except Error β) (h : x = .ok a) :
    ((liftM x : Except Error α) >>= f) = f a := by
  rw [h]
  rfl

end FixedPool
