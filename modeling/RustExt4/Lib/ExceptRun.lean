/-
  RustExt4.Lib.ExceptRun

  Runs in the exception monad: what a bind that succeeds went through, and what
  holds after a fold whose steps may fail.
-/
import Mathlib.Tactic.Common

namespace ExceptRun

variable {ε α β σ : Type}

theorem bind_eq_ok {x : Except ε α} {f : α → Except ε β} {b : β} :
    (x >>= f) = .ok b ↔ ∃ a, x = .ok a ∧ f a = .ok b := by
  cases x with
  | error e => exact ⟨fun h => (nomatch h), fun ⟨_, h, _⟩ => (nomatch h)⟩
  | ok a => exact ⟨fun h => ⟨a, rfl, h⟩, fun ⟨_, h, hf⟩ => Except.ok.inj h ▸ hf⟩

theorem bind_of_ok {x : Except ε α} {a : α} (h : x = .ok a) (f : α → Except ε β) :
    (x >>= f) = f a := by
  rw [h]
  rfl

/-- A choice between two runs that go on in the same way. -/
theorem ite_bind {p : Prop} [Decidable p] (x y : Except ε α) (f : α → Except ε β) :
    (if p then x >>= f else y >>= f) = (if p then x else y) >>= f := by
  split <;> rfl

/-! ## Folds -/

/-- What each step of a fold keeps holds at its end. -/
theorem foldlM_invariant {f : σ → α → Except ε σ} {I : σ → Prop} {l : List α}
    (hstep : ∀ s a s', a ∈ l → I s → f s a = .ok s' → I s') {s s' : σ} (hs : I s)
    (h : l.foldlM f s = .ok s') : I s' := by
  induction l generalizing s with
  | nil => exact Except.ok.inj h ▸ hs
  | cons a l ih =>
      rw [List.foldlM_cons] at h
      obtain ⟨s1, h1, hrest⟩ := bind_eq_ok.mp h
      exact ih (fun s a s' ha => hstep s a s' (List.mem_cons_of_mem _ ha))
        (hstep s a s1 List.mem_cons_self hs h1) hrest

/-- The same for a fold over `0, …, n - 1`, whose invariant counts the steps. -/
theorem foldlM_range {f : σ → Nat → Except ε σ} {I : Nat → σ → Prop} {n : Nat}
    (hstep : ∀ i s s', i < n → I i s → f s i = .ok s' → I (i + 1) s') {s s' : σ} (hs : I 0 s)
    (h : (List.range n).foldlM f s = .ok s') : I n s' := by
  induction n generalizing s' with
  | zero => exact Except.ok.inj h ▸ hs
  | succ n ih =>
      rw [List.range_succ, List.foldlM_append] at h
      obtain ⟨s1, h1, hlast⟩ := bind_eq_ok.mp h
      obtain ⟨s2, h2, hok⟩ := bind_eq_ok.mp hlast
      cases hok
      exact hstep n s1 s' (Nat.lt_succ_self n)
        (ih (fun i s s' hi => hstep i s s' (Nat.lt_succ_of_lt hi)) h1) h2

/-! ## How a run ends

`Ends E Q x`: the run `x` ends with a result in `Q` or with an error in `E`.  With no error
in `E` it says that the run succeeds. -/

def Ends (E : ε → Prop) (Q : α → Prop) : Except ε α → Prop
  | .ok a => Q a
  | .error e => E e

section Ends
variable {E : ε → Prop} {Q : α → Prop} {R : β → Prop} {x : Except ε α}

theorem Ends.of_ok {a : α} (h : x = .ok a) (ha : Q a) : Ends E Q x := h ▸ ha

/-- A run that cannot end with an error has a result. -/
theorem Ends.exists_ok (h : Ends (fun _ => False) Q x) : ∃ a, x = .ok a ∧ Q a := by
  cases x with
  | error e => exact h.elim
  | ok a => exact ⟨a, rfl, h⟩

theorem Ends.bind {f : α → Except ε β} (h : Ends E Q x) (hf : ∀ a, Q a → Ends E R (f a)) :
    Ends E R (x >>= f) := by
  cases x with
  | error e => exact h
  | ok a => exact hf a h

theorem Ends.foldlM {f : σ → α → Except ε σ} {I : σ → Prop} {l : List α}
    (hstep : ∀ s a, a ∈ l → I s → Ends E I (f s a)) {s : σ} (hs : I s) :
    Ends E I (l.foldlM f s) := by
  induction l generalizing s with
  | nil => exact hs
  | cons a l ih =>
      rw [List.foldlM_cons]
      exact (hstep s a List.mem_cons_self hs).bind fun s1 hs1 =>
        ih (fun s a ha => hstep s a (List.mem_cons_of_mem _ ha)) hs1

theorem Ends.foldlM_range {f : σ → Nat → Except ε σ} {I : Nat → σ → Prop} {n : Nat}
    (hstep : ∀ i s, i < n → I i s → Ends E (I (i + 1)) (f s i)) {s : σ} (hs : I 0 s) :
    Ends E (I n) ((List.range n).foldlM f s) := by
  induction n with
  | zero => exact hs
  | succ n ih =>
      rw [List.range_succ, List.foldlM_append]
      refine (ih fun i s hi => hstep i s (Nat.lt_succ_of_lt hi)).bind fun s1 hs1 => ?_
      rw [List.foldlM_cons]
      exact (hstep n s1 (Nat.lt_succ_self n) hs1).bind fun s2 hs2 => hs2

end Ends

end ExceptRun
