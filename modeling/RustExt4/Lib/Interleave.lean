/-
  RustExt4.Lib.Interleave

  Threads over one shared state, interleaved one atomic step at a time, and the
  sum over the threads of a number that each of them keeps.
-/
import RustExt4.Lib.Runs
import Mathlib.Algebra.Order.BigOperators.Group.Finset
import Mathlib.Data.Fintype.Basic

namespace Interleave

/-- What the threads `T` share, and what each of them keeps to itself. -/
structure Sys (T σ τ : Type) where
  shared : σ
  threads : T → τ

variable {T σ τ α : Type} [DecidableEq T]

namespace Sys

/-- The state after thread `t` has left these two behind. -/
def set (s : Sys T σ τ) (t : T) (p : σ × τ) : Sys T σ τ :=
  ⟨p.1, Function.update s.threads t p.2⟩

/-- One step of the thread `x.1`; `act` says what it makes of the shared state and of its
    own. -/
def next (act : T → α → σ → τ → Option (σ × τ)) (s : Sys T σ τ) (x : T × α) :
    Option (Sys T σ τ) :=
  (act x.1 x.2 s.shared (s.threads x.1)).map (s.set x.1)

/-- The steps of all threads, in any order. -/
def Step (act : T → α → σ → τ → Option (σ × τ)) (s : Sys T σ τ) (x : T × α)
    (s' : Sys T σ τ) : Prop :=
  s.next act x = some s'

theorem Step.act {act : T → α → σ → τ → Option (σ × τ)} {s s' : Sys T σ τ} {x : T × α}
    (h : Step act s x s') :
    ∃ p, act x.1 x.2 s.shared (s.threads x.1) = some p ∧ s' = s.set x.1 p := by
  obtain ⟨p, hp, hs⟩ := Option.map_eq_some_iff.mp h
  exact ⟨p, hp, hs.symm⟩

/-- The state after the steps of a schedule, if each of them can be taken. -/
def exec (act : T → α → σ → τ → Option (σ × τ)) (s : Sys T σ τ) :
    List (T × α) → Option (Sys T σ τ)
  | [] => some s
  | x :: l => (s.next act x).bind fun s => s.exec act l

theorem exec_append {act : T → α → σ → τ → Option (σ × τ)} {s : Sys T σ τ}
    (l l' : List (T × α)) : s.exec act (l ++ l') = (s.exec act l).bind fun s => s.exec act l' := by
  induction l generalizing s with
  | nil => rfl
  | cons x l ih =>
      rw [List.cons_append, exec, exec]
      cases s.next act x with
      | none => rfl
      | some s => exact ih

/-- The last step of a schedule. -/
theorem exec_snoc {act : T → α → σ → τ → Option (σ × τ)} {s s' : Sys T σ τ}
    {l : List (T × α)} {x : T × α} :
    s.exec act (l ++ [x]) = some s' ↔ ∃ u, s.exec act l = some u ∧ Step act u x s' := by
  rw [exec_append, Option.bind_eq_some_iff]
  refine exists_congr fun u => and_congr_right fun _ => ?_
  rw [exec, Option.bind_eq_some_iff]
  exact ⟨fun ⟨v, hv, hs⟩ => Option.some.inj hs ▸ hv, fun h => ⟨s', h, rfl⟩⟩

/-- What every step keeps holds after every schedule. -/
theorem exec_invariant {act : T → α → σ → τ → Option (σ × τ)} {I : Sys T σ τ → Prop}
    {s s' : Sys T σ τ} {l : List (T × α)} (hexec : s.exec act l = some s')
    (hstep : ∀ s x s', I s → Step act s x s' → I s') (h0 : I s) : I s' := by
  induction l generalizing s with
  | nil => exact Option.some.inj hexec ▸ h0
  | cons x l ih =>
      obtain ⟨u, hu, hrest⟩ := Option.bind_eq_some_iff.mp hexec
      exact ih hrest (hstep s x u h0 hu)

@[simp] theorem set_shared (s : Sys T σ τ) (t : T) (p : σ × τ) : (s.set t p).shared = p.1 := rfl

@[simp] theorem set_threads_self (s : Sys T σ τ) (t : T) (p : σ × τ) :
    (s.set t p).threads t = p.2 := Function.update_self ..

theorem set_threads_of_ne (s : Sys T σ τ) {t u : T} (h : u ≠ t) (p : σ × τ) :
    (s.set t p).threads u = s.threads u := Function.update_of_ne h ..

/-- What holds of every thread still does when it holds of the one that has moved. -/
theorem forall_set {P : τ → Prop} {s : Sys T σ τ} (h : ∀ u, P (s.threads u)) {t : T}
    {p : σ × τ} (hp : P p.2) (u : T) : P ((s.set t p).threads u) := by
  by_cases hu : u = t
  · subst hu
    rw [set_threads_self]
    exact hp
  · rw [set_threads_of_ne s hu]
    exact h u

/-- What the moved thread has kept, every thread has. -/
theorem map_set {β : Type} {f : τ → β} {s : Sys T σ τ} {t : T} {p : σ × τ}
    (h : f p.2 = f (s.threads t)) (u : T) : f ((s.set t p).threads u) = f (s.threads u) := by
  by_cases hu : u = t
  · subst hu
    rw [set_threads_self, h]
  · rw [set_threads_of_ne s hu]

variable [Fintype T]

/-- The sum of `f` over the threads. -/
def total (f : τ → Nat) (s : Sys T σ τ) : Nat := ∑ t, f (s.threads t)

/-- One summand changes. -/
theorem total_set (f : τ → Nat) (s : Sys T σ τ) (t : T) (p : σ × τ) :
    total f (s.set t p) + f (s.threads t) = total f s + f p.2 := by
  have hothers : ∑ u ∈ Finset.univ.erase t, f ((s.set t p).threads u) =
      ∑ u ∈ Finset.univ.erase t, f (s.threads u) :=
    Finset.sum_congr rfl fun u hu => by rw [set_threads_of_ne s (Finset.ne_of_mem_erase hu)]
  unfold total
  rw [← Finset.add_sum_erase _ _ (Finset.mem_univ t), hothers,
    ← Finset.add_sum_erase Finset.univ (fun u => f (s.threads u)) (Finset.mem_univ t),
    set_threads_self]
  omega

theorem total_set_of_eq {f : τ → Nat} {s : Sys T σ τ} {t : T} {p : σ × τ}
    (h : f p.2 = f (s.threads t)) : total f (s.set t p) = total f s :=
  Finset.sum_congr rfl fun u _ => map_set h u

omit [DecidableEq T] in
theorem le_total (f : τ → Nat) (s : Sys T σ τ) (t : T) : f (s.threads t) ≤ total f s :=
  Finset.single_le_sum (f := fun u => f (s.threads u)) (fun _ _ => Nat.zero_le _)
    (Finset.mem_univ t)

theorem add_le_total (f : τ → Nat) (s : Sys T σ τ) {t u : T} (h : t ≠ u) :
    f (s.threads t) + f (s.threads u) ≤ total f s := by
  rw [← Finset.sum_pair (f := fun u => f (s.threads u)) h]
  exact Finset.sum_le_sum_of_subset (Finset.subset_univ _)

end Sys
end Interleave
