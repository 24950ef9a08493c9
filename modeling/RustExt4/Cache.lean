/-
  RustExt4.Cache

  The cache of inode objects (`cache.rs`, `WeakCache`).  It holds weak
  references, so an object leaves it in two steps: its last strong reference is
  released, and its `Drop` takes the key out later.  In between another thread
  can install a new object under the key, which that `take` then removes.
-/
import RustExt4.Lib.Runs
import Mathlib.Logic.Function.Basic

namespace RustExt4

/-- The cache and the objects it was asked for.  `inner` maps a key to the object
    that its weak reference is to. -/
structure WeakCache (K : Type) where
  inner : K → Option Nat := fun _ => none
  /-- the key of each object that has a strong reference -/
  live : Nat → Option K := fun _ => none
  /-- the key of each object whose last strong reference is released and whose
      `Drop` has not come to `take` -/
  dropped : Nat → Option K := fun _ => none
  /-- the next object to be made -/
  next : Nat := 0

namespace WeakCache

variable {K : Type}

def new : WeakCache K := {}

/-- `get`: `Weak::upgrade` finds an object that is live. -/
def get (s : WeakCache K) (k : K) : Option Nat :=
  match s.inner k with
  | some o => if (s.live o).isSome then some o else none
  | none => none

/-- `get_or_insert`, with whether `f` makes an object.  The object that is returned
    has a strong reference from then on. -/
def getOrInsert [DecidableEq K] (s : WeakCache K) (k : K) (f : Bool) : Option Nat × WeakCache K :=
  match s.get k with
  | some o => (some o, s)
  | none =>
    if f then
      (some s.next,
        { s with
          inner := Function.update s.inner k (some s.next)
          live := Function.update s.live s.next (some k)
          next := s.next + 1 })
    else (none, s)

/-- The last strong reference to an object is released. -/
def release (s : WeakCache K) (o : Nat) : WeakCache K :=
  { s with
    live := Function.update s.live o none
    dropped := Function.update s.dropped o (s.live o) }

/-- `take` -/
def take [DecidableEq K] (s : WeakCache K) (k : K) : WeakCache K :=
  { s with inner := Function.update s.inner k none }

/-! ## Interleavings -/

/-- One atomic step of some thread. -/
inductive Action (K : Type)
  | getOrInsert (k : K) (f : Bool)
  | release (o : Nat)
  | take (o : Nat)

/-- Any thread may ask for any key, release the last reference to a live object, or
    go on with the `Drop` of an object that was released. -/
def Step [DecidableEq K] (s : WeakCache K) (a : Action K) (s' : WeakCache K) : Prop :=
  match a with
  | .getOrInsert k f => s' = (s.getOrInsert k f).2
  | .release o => (s.live o).isSome ∧ s' = s.release o
  | .take o => ∃ k, s.dropped o = some k ∧
      s' = { s.take k with dropped := Function.update s.dropped o none }

/-- A `Drop` takes its key out while no live object is installed under it. -/
def TakesDead (s : WeakCache K) : Action K → Prop
  | .take o => ∀ k, s.dropped o = some k → s.get k = none
  | _ => True

/-- No two live objects have one key. -/
def Unique (s : WeakCache K) : Prop :=
  ∀ o o' k, s.live o = some k → s.live o' = some k → o = o'

/-- Every live object is the one installed under its key. -/
structure Inv (s : WeakCache K) : Prop where
  installed : ∀ o k, s.live o = some k → s.inner k = some o
  fresh : ∀ o, s.next ≤ o → s.live o = none

theorem Inv.get_of_live {s : WeakCache K} (h : s.Inv) {o : Nat} {k : K} (hl : s.live o = some k) :
    s.get k = some o := by
  rw [get, h.installed o k hl]
  simp [hl]

theorem Inv.unique {s : WeakCache K} (h : s.Inv) : s.Unique := by
  intro o o' k ho ho'
  have := h.installed o k ho
  rw [h.installed o' k ho'] at this
  exact (Option.some.inj this).symm

theorem new_inv : (new : WeakCache K).Inv := ⟨fun o k h => (by cases h), fun o _ => rfl⟩

/-- A new object is made only where no live object is installed. -/
theorem Inv.getOrInsert [DecidableEq K] {s : WeakCache K} (h : s.Inv) (k : K) (f : Bool) :
    (s.getOrInsert k f).2.Inv := by
  unfold WeakCache.getOrInsert
  split
  next => exact h
  next hget =>
    split
    next =>
      refine ⟨fun o k' hl => ?_, fun o ho => ?_⟩
      · dsimp only at hl ⊢
        by_cases ho : o = s.next
        · subst ho
          rw [Function.update_self] at hl
          cases hl
          rw [Function.update_self]
        · rw [Function.update_of_ne ho] at hl
          have hk : k' ≠ k := by
            rintro rfl
            rw [h.get_of_live hl] at hget
            cases hget
          rw [Function.update_of_ne hk]
          exact h.installed o k' hl
      · dsimp only at ho ⊢
        rw [Function.update_of_ne (by omega)]
        exact h.fresh o (by omega)
    next => exact h

theorem Inv.release {s : WeakCache K} (h : s.Inv) (o : Nat) : (s.release o).Inv := by
  have hlive : ∀ o' k, (s.release o).live o' = some k → s.live o' = some k := by
    intro o' k hl
    by_cases ho : o' = o
    · subst ho
      simp [WeakCache.release] at hl
    · simpa [WeakCache.release, Function.update_of_ne ho] using hl
  refine ⟨fun o' k hl => h.installed o' k (hlive o' k hl), fun o' ho' => ?_⟩
  refine Option.eq_none_iff_forall_ne_some.mpr fun k hl => ?_
  have := hlive o' k hl
  rw [h.fresh o' ho'] at this
  cases this

variable [DecidableEq K]

theorem Inv.take {s : WeakCache K} (h : s.Inv) {k : K} (hdead : s.get k = none) :
    (s.take k).Inv := by
  refine ⟨fun o k' hl => ?_, h.fresh⟩
  have hk : k' ≠ k := by
    rintro rfl
    rw [h.get_of_live (o := o) hl] at hdead
    cases hdead
  exact (Function.update_of_ne hk _ _).trans (h.installed o k' hl)

theorem Step.inv {s s' : WeakCache K} {a : Action K} (h : s.Inv) (hguard : s.TakesDead a)
    (hstep : s.Step a s') : s'.Inv := by
  cases a with
  | getOrInsert k f =>
      obtain rfl := hstep
      exact h.getOrInsert k f
  | release o =>
      obtain ⟨-, rfl⟩ := hstep
      exact h.release o
  | take o =>
      obtain ⟨k, hk, rfl⟩ := hstep
      have htake := h.take (hguard k hk)
      exact ⟨htake.installed, htake.fresh⟩

/-- Where no `Drop` takes out a live object, there is at most one live object for each
    key at any time. -/
theorem live_unique {s : WeakCache K} (hrun : Runs.Run Step TakesDead new s) : s.Unique :=
  (hrun.invariant (I := Inv) (fun _ _ _ h hguard hstep => hstep.inv h hguard) new_inv).unique

/-- Key 7 is asked for, released, taken out and asked for again. -/
theorem live_unique_reopened : ∃ s : WeakCache Nat, s.live 1 = some 7 ∧ s.Unique := by
  let s1 := ((new : WeakCache Nat).getOrInsert 7 true).2
  let s2 := s1.release 0
  let s3 : WeakCache Nat := { s2.take 7 with dropped := Function.update s2.dropped 0 none }
  refine ⟨(s3.getOrInsert 7 true).2, by decide, live_unique ?_⟩
  have h1 : Runs.Run Step TakesDead new s1 := .single (a := .getOrInsert 7 true) trivial rfl
  have h2 : Runs.Run Step TakesDead new s2 := .tail (a := .release 0) h1 trivial ⟨by decide, rfl⟩
  have h3 : Runs.Run Step TakesDead new s3 := by
    refine .tail (a := .take 0) h2 (fun k hk => ?_) ⟨7, by decide, rfl⟩
    obtain rfl : 7 = k := Option.some.inj hk
    decide
  exact .tail (a := .getOrInsert 7 true) h3 trivial rfl

/-- The object is released, a second one installed, the `Drop` of the first takes the
    key out, and a third one is made: the second and the third are live. -/
theorem live_twice : ∃ s : WeakCache Nat,
    Runs.Run Step (fun _ _ => True) new s ∧ ¬ s.Unique := by
  let s1 := ((new : WeakCache Nat).getOrInsert 7 true).2
  let s2 := s1.release 0
  let s3 := (s2.getOrInsert 7 true).2
  let s4 : WeakCache Nat := { s3.take 7 with dropped := Function.update s3.dropped 0 none }
  refine ⟨(s4.getOrInsert 7 true).2, ?_, fun h => ?_⟩
  · refine .tail (a := .getOrInsert 7 true) (.tail (a := .take 0) (.tail (a := .getOrInsert 7 true)
      (.tail (a := .release 0) (.single (a := .getOrInsert 7 true) trivial rfl) trivial
        ⟨?_, rfl⟩) trivial rfl) trivial ⟨7, ?_, rfl⟩) trivial rfl
    · decide
    · decide
  · exact absurd (h 1 2 7 (by decide) (by decide)) (by decide)

end WeakCache
end RustExt4
