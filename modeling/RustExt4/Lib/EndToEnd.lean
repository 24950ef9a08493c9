/-
  RustExt4.Lib.EndToEnd

  Lists of intervals of natural numbers in which each interval starts where the
  one before it ends.  A loop that cuts a range into pieces leaves such a list;
  the pieces are then in order, disjoint, and cover the range.
-/
import Mathlib.Data.Set.Lattice
import Mathlib.Order.Interval.Set.Basic
import Mathlib.Order.CompletePartialOrder
import Mathlib.Tactic.Common

namespace EndToEnd

variable {α : Type _} (lo width : α → Nat)

/-- The intervals fill `[a, b)` one after the other, and none of them is empty. -/
def Fills : Nat → List α → Nat → Prop
  | a, [], b => a = b
  | a, x :: xs, b => lo x = a ∧ 0 < width x ∧ Fills (a + width x) xs b

variable {lo width} {a b : Nat} {l : List α}

theorem Fills.le (h : Fills lo width a l b) : a ≤ b := by
  induction l generalizing a with
  | nil => exact Nat.le_of_eq h
  | cons x xs ih =>
      obtain ⟨-, -, hrest⟩ := h
      exact Nat.le_trans (Nat.le_add_right a _) (ih hrest)

/-- Every interval lies in the range. -/
theorem Fills.bounds {x : α} (h : Fills lo width a l b) (hx : x ∈ l) :
    a ≤ lo x ∧ 0 < width x ∧ lo x + width x ≤ b := by
  induction l generalizing a with
  | nil => exact absurd hx List.not_mem_nil
  | cons y ys ih =>
      obtain ⟨rfl, hpos, hrest⟩ := h
      rcases List.mem_cons.mp hx with rfl | hx
      · exact ⟨Nat.le_refl _, hpos, hrest.le⟩
      · obtain ⟨hlo, hpos', hhi⟩ := ih hrest hx
        exact ⟨Nat.le_trans (Nat.le_add_right _ _) hlo, hpos', hhi⟩

/-- An interval ends before each later one starts. -/
theorem Fills.ordered (h : Fills lo width a l b) :
    l.Pairwise fun x y => lo x + width x ≤ lo y := by
  induction l generalizing a with
  | nil => exact List.Pairwise.nil
  | cons x xs ih =>
      obtain ⟨rfl, -, hrest⟩ := h
      exact List.pairwise_cons.mpr ⟨fun y hy => (hrest.bounds hy).1, ih hrest⟩

theorem Fills.disjoint (h : Fills lo width a l b) :
    l.Pairwise fun x y => Disjoint (Set.Ico (lo x) (lo x + width x))
      (Set.Ico (lo y) (lo y + width y)) := by
  apply h.ordered.imp
  intro x y hxy
  rw [Set.disjoint_left]
  rintro n ⟨-, hn⟩ ⟨hn', -⟩
  omega

/-- Together the intervals are the range. -/
theorem Fills.iUnion (h : Fills lo width a l b) :
    ⋃ x ∈ l, Set.Ico (lo x) (lo x + width x) = Set.Ico a b := by
  induction l generalizing a with
  | nil =>
      obtain rfl : a = b := h
      simp
  | cons x xs ih =>
      obtain ⟨rfl, -, hrest⟩ := h
      have hunion : ⋃ y ∈ x :: xs, Set.Ico (lo y) (lo y + width y) =
          Set.Ico (lo x) (lo x + width x) ∪ ⋃ y ∈ xs, Set.Ico (lo y) (lo y + width y) := by
        simp only [List.mem_cons, Set.iUnion_iUnion_eq_or_left]
      rw [hunion, ih hrest]
      ext n
      have hle := hrest.le
      simp only [Set.mem_union, Set.mem_Ico]
      omega

/-- Their points, in order, count up from `a` to `b`. -/
theorem Fills.points (h : Fills lo width a l b) :
    l.flatMap (fun x => List.range' (lo x) (width x)) = List.range' a (b - a) := by
  induction l generalizing a with
  | nil =>
      obtain rfl : a = b := h
      rw [Nat.sub_self]
      rfl
  | cons x xs ih =>
      obtain ⟨rfl, -, hrest⟩ := h
      have hle := hrest.le
      rw [List.flatMap_cons, ih hrest, List.range'_append_1]
      congr 1
      omega

end EndToEnd
