/-
  RustExt4.Lib.IntervalMap

  Finite or infinite families of half-open intervals of natural numbers, kept
  as a partial map from the start of an interval to its kind; `w` gives the
  width of a kind.  `cover` is the set of points the family covers,
  `Separated` says that no two intervals share a point, and `Run` is a walk
  over adjacent intervals.
-/
import Mathlib.Data.Set.Lattice
import Mathlib.Order.Interval.Set.Basic
import Mathlib.Order.CompletePartialOrder
import Mathlib.Logic.Function.Basic
import Mathlib.Tactic.Common

namespace IntervalMap

variable {κ : Type _} (w : κ → Nat)

/-- The points that some interval of the family covers. -/
def cover (m : Nat → Option κ) : Set Nat :=
  {x | ∃ s k, m s = some k ∧ s ≤ x ∧ x < s + w k}

/-- No two intervals of the family share a point. -/
def Separated (m : Nat → Option κ) : Prop :=
  ∀ s k s' k', m s = some k → m s' = some k' → s < s' → s + w k ≤ s'

/-- `Run w m lim a b`: the intervals of `m` that start at `a` lie end to end up
    to `b`, and each of them starts below `lim`. -/
inductive Run (m : Nat → Option κ) (lim : Nat) : Nat → Nat → Prop
  | nil (a : Nat) : Run m lim a a
  | cons {a b : Nat} {k : κ} : a < lim → m a = some k → Run m lim (a + w k) b → Run m lim a b

variable {w} {m : Nat → Option κ}

/-! ## Points and intervals -/

theorem mem_cover {x : Nat} :
    x ∈ cover w m ↔ ∃ s k, m s = some k ∧ s ≤ x ∧ x < s + w k := Iff.rfl

theorem Ico_subset_cover {s : Nat} {k : κ} (h : m s = some k) :
    Set.Ico s (s + w k) ⊆ cover w m :=
  fun _ hx => ⟨s, k, h, hx.1, hx.2⟩

/-- Two intervals of a separated family that share a point are the same. -/
theorem Separated.start_unique (h : Separated w m) {s s' x : Nat} {k k' : κ}
    (hs : m s = some k) (hs' : m s' = some k')
    (hx : s ≤ x ∧ x < s + w k) (hx' : s' ≤ x ∧ x < s' + w k') : s = s' := by
  rcases Nat.lt_trichotomy s s' with hlt | heq | hgt
  · have := h s k s' k' hs hs' hlt; omega
  · exact heq
  · have := h s' k' s k hs' hs hgt; omega

/-- Only the empty interval can start inside an uncovered range. -/
theorem none_of_disjoint {s n : Nat} (hw : ∀ k, 0 < w k) (hn : 0 < n)
    (hd : Disjoint (Set.Ico s (s + n)) (cover w m)) : m s = none := by
  cases hs : m s with
  | none => rfl
  | some k =>
      have hk := hw k
      exact absurd (Ico_subset_cover hs ⟨Nat.le_refl s, by omega⟩)
        (Set.disjoint_left.mp hd ⟨Nat.le_refl s, by omega⟩)

/-! ## Inserting an interval -/

theorem cover_insert {s : Nat} {k : κ} (hs : m s = none) :
    cover w (Function.update m s (some k)) = cover w m ∪ Set.Ico s (s + w k) := by
  ext x
  simp only [Set.mem_union, mem_cover, Set.mem_Ico]
  constructor
  · rintro ⟨s', k', h, hx⟩
    by_cases he : s' = s
    · subst he
      rw [Function.update_self, Option.some.injEq] at h
      subst h
      exact Or.inr hx
    · rw [Function.update_of_ne he] at h
      exact Or.inl ⟨s', k', h, hx⟩
  · rintro (⟨s', k', h, hx⟩ | hx)
    · have he : s' ≠ s := fun he => by rw [he, hs] at h; cases h
      exact ⟨s', k', by rw [Function.update_of_ne he]; exact h, hx⟩
    · exact ⟨s, k, Function.update_self .., hx⟩

theorem Separated.insert {s : Nat} {k : κ} (h : Separated w m) (hw : ∀ k, 0 < w k)
    (hd : Disjoint (Set.Ico s (s + w k)) (cover w m)) :
    Separated w (Function.update m s (some k)) := by
  intro a ka b kb ha hb hab
  have hk := hw k
  by_cases hsa : a = s
  · have hsb : b ≠ s := by omega
    subst hsa
    rw [Function.update_self, Option.some.injEq] at ha
    rw [Function.update_of_ne hsb] at hb
    subst ha
    by_contra hlt
    have hkb := hw kb
    exact Set.disjoint_left.mp hd (show b ∈ Set.Ico a (a + w k) from ⟨by omega, by omega⟩)
      (Ico_subset_cover hb ⟨Nat.le_refl b, by omega⟩)
  · rw [Function.update_of_ne hsa] at ha
    by_cases hsb : b = s
    · subst hsb
      by_contra hlt
      exact Set.disjoint_left.mp hd (show b ∈ Set.Ico b (b + w k) from ⟨Nat.le_refl b, by omega⟩)
        (Ico_subset_cover ha ⟨by omega, by omega⟩)
    · rw [Function.update_of_ne hsb] at hb
      exact h a ka b kb ha hb hab

/-! ## Removing an interval -/

theorem update_none_eq_some {s a : Nat} {k : κ} :
    Function.update m s none a = some k ↔ a ≠ s ∧ m a = some k := by
  by_cases h : a = s
  · subst h; simp
  · simp [h]

/-- Removing an interval of a separated family removes exactly its points. -/
theorem Separated.cover_erase {s : Nat} {k : κ} (h : Separated w m) (hs : m s = some k) :
    cover w (Function.update m s none) = cover w m \ Set.Ico s (s + w k) := by
  ext x
  simp only [Set.mem_sdiff, mem_cover, Set.mem_Ico, update_none_eq_some]
  constructor
  · rintro ⟨a, ka, ⟨hne, ha⟩, hx⟩
    exact ⟨⟨a, ka, ha, hx⟩, fun hxs => hne (h.start_unique ha hs hx hxs)⟩
  · rintro ⟨⟨a, ka, ha, hx⟩, hnot⟩
    refine ⟨a, ka, ⟨fun he => ?_, ha⟩, hx⟩
    subst he
    rw [hs, Option.some.injEq] at ha
    subst ha
    exact hnot hx

theorem Separated.erase (h : Separated w m) (s : Nat) :
    Separated w (Function.update m s none) := by
  intro a ka b kb ha hb hab
  exact h a ka b kb (update_none_eq_some.mp ha).2 (update_none_eq_some.mp hb).2 hab

/-! ## Walks over adjacent intervals -/

theorem Run.le {lim a b : Nat} (h : Run w m lim a b) : a ≤ b := by
  induction h with
  | nil a => exact Nat.le_refl a
  | cons _ _ _ ih => omega

/-- A walk stays inside the cover. -/
theorem Run.subset_cover {lim a b : Nat} (h : Run w m lim a b) :
    Set.Ico a b ⊆ cover w m := by
  induction h with
  | nil a => intro x hx; have := hx.1; have := hx.2; omega
  | @cons a b k _ hk hrest ih =>
      intro x hx
      by_cases hlt : x < a + w k
      · exact Ico_subset_cover hk ⟨hx.1, hlt⟩
      · exact ih ⟨by omega, hx.2⟩

/-- A walk that starts past `s` does not notice that the interval at `s` is gone. -/
theorem Run.erase {lim a b s : Nat} (h : Run w m lim a b) (hs : s < a) :
    Run w (Function.update m s none) lim a b := by
  induction h with
  | nil a => exact Run.nil a
  | @cons a b k hlt hk hrest ih =>
      exact Run.cons hlt (update_none_eq_some.mpr ⟨by omega, hk⟩) (ih (by omega))

/-- The last interval of a non-empty walk. -/
theorem Run.exists_last {lim a b : Nat} (h : Run w m lim a b) (hab : a ≠ b) :
    ∃ c k, c < lim ∧ a ≤ c ∧ m c = some k ∧ c + w k = b := by
  induction h with
  | nil a => exact absurd rfl hab
  | @cons a b k hlt hk hrest ih =>
      by_cases he : a + w k = b
      · exact ⟨a, k, hlt, Nat.le_refl a, hk, he⟩
      · obtain ⟨c, kc, hc, hac, hmc, hcb⟩ := ih he
        exact ⟨c, kc, hc, by omega, hmc, hcb⟩

/-- Where a walk over a separated family stops, the next covered point starts a
    new interval. -/
theorem Run.next_start {lim a b : Nat} (h : Run w m lim a b) (hsep : Separated w m)
    (hab : a ≠ b) (hw : ∀ k, 0 < w k) (hb : b ∈ cover w m) : ∃ k, m b = some k := by
  obtain ⟨c, kc, _, _, hc, hcb⟩ := h.exists_last hab
  obtain ⟨s, k, hs, hsx, hxs⟩ := hb
  have hkc := hw kc
  rcases Nat.lt_trichotomy s b with hlt | heq | hgt
  · have hcs : c = s := by
      rcases Nat.lt_trichotomy c s with h1 | h1 | h1
      · have := hsep c kc s k hc hs h1; omega
      · exact h1
      · have := hsep s k c kc hs hc h1; omega
    subst hcs
    rw [hc, Option.some.injEq] at hs
    subst hs
    omega
  · exact ⟨k, heq ▸ hs⟩
  · omega

end IntervalMap
