/-
  RustExt4.Lib.StateExcept

  Programs that change a state and may stop with an error; what they changed
  before the error stays changed.  The rules run a program step by step, take a
  run that returned apart, and carry a relation between the states before and
  after through a sequence of steps.
-/
import Mathlib.Tactic.Common

/-- A program over the state `σ` with errors `ε`. -/
def StateExcept (σ ε α : Type) : Type := σ → Except ε α × σ

namespace StateExcept

variable {σ ε α β : Type}

instance : Monad (StateExcept σ ε) where
  pure a := fun s => (.ok a, s)
  bind x f := fun s =>
    match x s with
    | (.ok a, s') => f a s'
    | (.error e, s') => (.error e, s')

/-- The state. -/
def get : StateExcept σ ε σ := fun s => (.ok s, s)

/-- Change the state. -/
def modify (f : σ → σ) : StateExcept σ ε Unit := fun s => (.ok (), f s)

/-- Stop. -/
def throw (e : ε) : StateExcept σ ε α := fun s => (.error e, s)

/-- A pure computation that may fail. -/
def lift (x : Except ε α) : StateExcept σ ε α := fun s => (x, s)

/-- Change the error. -/
def mapError (f : ε → ε) (x : StateExcept σ ε α) : StateExcept σ ε α := fun s =>
  match x s with
  | (.ok a, s') => (.ok a, s')
  | (.error e, s') => (.error (f e), s')

/-! ## Running -/

@[simp] theorem pure_apply (a : α) (s : σ) : (pure a : StateExcept σ ε α) s = (.ok a, s) := rfl

@[simp] theorem get_apply (s : σ) : (get : StateExcept σ ε σ) s = (.ok s, s) := rfl

@[simp] theorem modify_apply (f : σ → σ) (s : σ) :
    (modify f : StateExcept σ ε Unit) s = (.ok (), f s) := rfl

@[simp] theorem throw_apply (e : ε) (s : σ) : (throw e : StateExcept σ ε α) s = (.error e, s) := rfl

@[simp] theorem lift_apply (x : Except ε α) (s : σ) : (lift x : StateExcept σ ε α) s = (x, s) := rfl

theorem bind_apply (x : StateExcept σ ε α) (f : α → StateExcept σ ε β) (s : σ) :
    (x >>= f) s =
      match x s with
      | (.ok a, s') => f a s'
      | (.error e, s') => (.error e, s') := rfl

theorem bind_of_ok {x : StateExcept σ ε α} {f : α → StateExcept σ ε β} {s s' : σ} {a : α}
    (h : x s = (.ok a, s')) : (x >>= f) s = f a s' := by
  rw [bind_apply, h]

theorem bind_of_error {x : StateExcept σ ε α} {f : α → StateExcept σ ε β} {s s' : σ} {e : ε}
    (h : x s = (.error e, s')) : (x >>= f) s = (.error e, s') := by
  rw [bind_apply, h]

/-- A sequence that returned has returned from its first step. -/
theorem bind_eq_ok {x : StateExcept σ ε α} {f : α → StateExcept σ ε β} {s s' : σ} {b : β}
    (h : (x >>= f) s = (.ok b, s')) : ∃ a s1, x s = (.ok a, s1) ∧ f a s1 = (.ok b, s') := by
  rw [bind_apply] at h
  split at h
  case h_1 a s1 hx => exact ⟨a, s1, hx, h⟩
  case h_2 => simp at h

theorem get_bind (f : σ → StateExcept σ ε β) (s : σ) : (get >>= f) s = f s s := rfl

theorem modify_bind (g : σ → σ) (f : Unit → StateExcept σ ε β) (s : σ) :
    (modify g >>= f) s = f () (g s) := rfl

theorem lift_bind_of_ok {x : Except ε α} {a : α} (h : x = .ok a) (f : α → StateExcept σ ε β)
    (s : σ) : (lift x >>= f) s = f a s := by
  rw [h]
  rfl

/-- So has a pure computation, which leaves the state alone. -/
theorem lift_bind_eq_ok {x : Except ε α} {f : α → StateExcept σ ε β} {s s' : σ} {b : β}
    (h : (lift x >>= f) s = (.ok b, s')) : ∃ a, x = .ok a ∧ f a s = (.ok b, s') := by
  obtain ⟨a, s1, hx, hf⟩ := bind_eq_ok h
  obtain ⟨rfl, rfl⟩ := Prod.mk.inj hx
  exact ⟨a, rfl, hf⟩

/-- A change of the error is none of a result. -/
theorem mapError_eq_ok {f : ε → ε} {x : StateExcept σ ε α} {s s' : σ} {a : α} :
    mapError f x s = (.ok a, s') ↔ x s = (.ok a, s') := by
  rw [mapError]
  cases x s with
  | mk r t => cases r <;> simp

instance : LawfulMonad (StateExcept σ ε) :=
  LawfulMonad.mk' (StateExcept σ ε)
    (fun x => by
      funext s
      show (match x s with
        | (.ok a, s') => (.ok (id a), s')
        | (.error e, s') => (.error e, s')) = x s
      rcases x s with ⟨_ | _, _⟩ <;> rfl)
    (fun _ _ => rfl)
    (fun x f g => by
      funext s
      simp only [bind_apply]
      rcases x s with ⟨_ | _, _⟩ <;> rfl)

/-! ## Programs over a part of the state -/

variable {τ : Type}

/-- A program over the second part. -/
def onSnd (x : StateExcept τ ε α) : StateExcept (σ × τ) ε α := fun s =>
  ((x s.2).1, (s.1, (x s.2).2))

/-- Run a program with a first part of its own, which is dropped at the end. -/
def withFst (s : σ) (x : StateExcept (σ × τ) ε α) : StateExcept τ ε α := fun t =>
  ((x (s, t)).1, (x (s, t)).2.2)

theorem withFst_bind_apply {s s' : σ} {t t' : τ} {x : StateExcept (σ × τ) ε α}
    {f : α → StateExcept (σ × τ) ε β} {a : α} (h : x (s, t) = (.ok a, (s', t'))) :
    withFst s (x >>= f) t = withFst s' (f a) t' := by
  simp only [withFst, bind_apply, h]

theorem withFst_bind_of_ok {s s' : σ} {x : StateExcept (σ × τ) ε α}
    {f : α → StateExcept (σ × τ) ε β} {a : α} (h : ∀ t, x (s, t) = (.ok a, (s', t))) :
    withFst s (x >>= f) = withFst s' (f a) :=
  funext fun t => withFst_bind_apply (h t)

theorem withFst_bind_pure {s : σ} {t t' : τ} {x : StateExcept (σ × τ) ε α} {a : α}
    (h : withFst s x t = (.ok a, t')) (f : α → β) :
    withFst s (x >>= fun a => pure (f a)) t = (.ok (f a), t') := by
  obtain ⟨hr, ht⟩ := Prod.mk.inj h
  cases hx : x (s, t) with
  | mk r st =>
      rw [hx] at hr ht
      obtain rfl : r = .ok a := hr
      exact (withFst_bind_apply hx).trans (Prod.ext rfl ht)

/-! ## Relations between the states before and after -/

/-- Every run goes from a state to a related one. -/
def Moves (R : σ → σ → Prop) (x : StateExcept σ ε α) : Prop := ∀ s, R s (x s).2

theorem Moves.of_fixed {R : σ → σ → Prop} {x : StateExcept σ ε α} (hrefl : ∀ s, R s s)
    (h : ∀ s, (x s).2 = s) : Moves R x := by
  intro s
  rw [h s]
  exact hrefl s

theorem Moves.bind {R : σ → σ → Prop} {x : StateExcept σ ε α} {f : α → StateExcept σ ε β}
    (htrans : ∀ s s' s'', R s s' → R s' s'' → R s s'') (hx : Moves R x)
    (hf : ∀ a, Moves R (f a)) : Moves R (x >>= f) := by
  intro s
  rw [bind_apply]
  have h := hx s
  split
  next a s' heq =>
    rw [heq] at h
    exact htrans _ _ _ h (hf a s')
  next e s' heq =>
    rw [heq] at h
    exact h

end StateExcept
