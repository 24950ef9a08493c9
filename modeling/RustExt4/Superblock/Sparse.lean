/-
  RustExt4.Superblock.Sparse

  Which groups hold a copy of the superblock under `SPARSE_SUPER` (`sb_sparse` and
  `is_super_in_bg`): the first two, and those whose number is a power of 3, 5 or 7.

  `is_power_of_n` divides its number in a loop without a bound.  It asks for divisibility
  before it compares, so that 1 is no power for it; `sb_sparse` has answered for the first
  two groups before.  Here the loop is given a number of turns, and it has no answer where
  they do not last.
-/
import Mathlib.Data.Nat.Log
import RustExt4.Superblock.DescriptorBlock

namespace RustExt4

/-- `is_power_of_n`, for some turns of its loop; no answer where the loop goes on. -/
def isPowerOfNIn : Nat → Nat → Nat → Option Bool
  | 0, _, _ => none
  | turns + 1, n, v =>
    if n % v ≠ 0 then some false
    else if n = v then some true
    else if n < v then some false
    else isPowerOfNIn turns (n / v) v

/-- `sb_sparse`; a later `||` is not looked at behind a `true`. -/
def sbSparseIn (featuresReadonly turns grp : Nat) : Option Bool :=
  if !containsFlag featuresReadonly featureSparseSuper then some false
  else if grp ≤ 1 then some true
  else if grp % 2 = 0 then some false
  else do
    if ← isPowerOfNIn turns grp 3 then return true
    if ← isPowerOfNIn turns grp 5 then return true
    isPowerOfNIn turns grp 7

def DescriptorTable.isSuperInBgIn (t : DescriptorTable) (turns bgid : Nat) : Option Bool :=
  if !containsFlag t.featuresReadonly featureSparseSuper then some true
  else sbSparseIn t.featuresReadonly turns bgid

/-! ## The loop -/

section Loop
variable {turns n v : Nat}

/-- A positive power of `v`. -/
def IsPower (v n : Nat) : Prop := ∃ k, 1 ≤ k ∧ n = v ^ k

theorem IsPower.dvd (h : IsPower v n) : v ∣ n := by
  obtain ⟨k, hk, rfl⟩ := h
  exact dvd_pow_self v (by omega)

theorem IsPower.le (h : IsPower v n) : v ≤ n := by
  obtain ⟨k, hk, rfl⟩ := h
  exact Nat.le_self_pow (by omega) v

theorem IsPower.self : IsPower v v := ⟨1, Nat.le_refl 1, (Nat.pow_one v).symm⟩

/-- What a division does to a power that is not `v` itself. -/
theorem isPower_div_iff (hv : 2 ≤ v) (hdvd : v ∣ n) (hne : n ≠ v) :
    IsPower v (n / v) ↔ IsPower v n := by
  obtain ⟨m, rfl⟩ := hdvd
  rw [Nat.mul_div_cancel_left m (by omega)]
  constructor
  · rintro ⟨k, hk, rfl⟩
    exact ⟨k + 1, by omega, by rw [Nat.pow_succ, Nat.mul_comm]⟩
  · rintro ⟨k, hk, hpow⟩
    -- The exponent is not 1, so one factor can go.
    obtain ⟨j, rfl⟩ : ∃ j, k = j + 1 := ⟨k - 1, by omega⟩
    rw [Nat.pow_succ, Nat.mul_comm] at hpow
    have hm : m = v ^ j := Nat.eq_of_mul_eq_mul_right (by omega) hpow
    refine ⟨j, ?_, hm⟩
    rcases Nat.eq_zero_or_pos j with rfl | hj
    · rw [hm, Nat.pow_zero, Nat.mul_one] at hne
      exact absurd rfl hne
    · exact hj

/-- The loop ends after as many turns as `n` has digits to the base `v`, and tells the
    powers of `v` from the other numbers. -/
theorem isPowerOfNIn_ends (hv : 2 ≤ v) (hturns : Nat.log v n < turns) :
    ∃ b, isPowerOfNIn turns n v = some b ∧ (b = true ↔ IsPower v n) := by
  induction turns generalizing n with
  | zero => exact absurd hturns (Nat.not_lt_zero _)
  | succ turns ih =>
      rw [isPowerOfNIn]
      by_cases hdvd : v ∣ n
      · rw [if_neg (not_not_intro (Nat.mod_eq_zero_of_dvd hdvd))]
        by_cases heq : n = v
        · subst heq
          exact ⟨true, if_pos rfl, by simp [IsPower.self]⟩
        · rw [if_neg heq]
          by_cases hlt : n < v
          · -- only 0 comes here
            refine ⟨false, if_pos hlt, ?_⟩
            simp only [Bool.false_eq_true, false_iff]
            exact fun h => absurd h.le (Nat.not_le_of_lt hlt)
          · rw [if_neg hlt]
            rw [Nat.log_of_one_lt_of_le (by omega) (by omega)] at hturns
            obtain ⟨b, hb, hiff⟩ := ih (n := n / v) (by omega)
            exact ⟨b, hb, hiff.trans (isPower_div_iff hv hdvd heq)⟩
      · rw [if_pos fun h => hdvd (Nat.dvd_of_mod_eq_zero h)]
        refine ⟨false, rfl, ?_⟩
        simp only [Bool.false_eq_true, false_iff]
        exact fun h => hdvd h.dvd

/-- Where the turns do not last, the bounded loop says `false`. -/
theorem isPowerOfN_eq (turns n v : Nat) :
    isPowerOfN turns n v = (isPowerOfNIn turns n v).getD false := by
  induction turns generalizing n with
  | zero => rfl
  | succ turns ih =>
      rw [isPowerOfN, isPowerOfNIn]
      split
      · rfl
      split
      · rfl
      split
      · rfl
      · exact ih (n / v)

/-- With `n` turns, as `sb_sparse` has them here, they last. -/
theorem isPowerOfNIn_eq (hv : 2 ≤ v) (hn : n ≠ 0) (hturns : Nat.log v n < turns) :
    isPowerOfNIn turns n v = some (isPowerOfN n n v) := by
  obtain ⟨b, hb, hiff⟩ := isPowerOfNIn_ends hv hturns
  obtain ⟨b', hb', hiff'⟩ := isPowerOfNIn_ends hv (Nat.log_lt_self v hn)
  rw [isPowerOfN_eq, hb', hb, Option.getD_some, Option.some.injEq, Bool.eq_iff_iff, hiff, hiff']

theorem isPowerOfN_iff (hv : 2 ≤ v) (hn : n ≠ 0) : isPowerOfN n n v = true ↔ IsPower v n := by
  obtain ⟨b, hb, hiff⟩ := isPowerOfNIn_ends hv (Nat.log_lt_self v hn)
  rw [isPowerOfN_eq, hb, Option.getD_some, hiff]

theorem IsPower.odd (hv : Odd v) (h : IsPower v n) : n % 2 = 1 := by
  obtain ⟨k, -, rfl⟩ := h
  exact Nat.odd_iff.mp hv.pow

/-- What `sb_sparse` computes under the flag. -/
theorem sparse_iff (g : Nat) :
    (if g ≤ 1 then true
      else if g % 2 = 0 then false
      else isPowerOfN g g 3 || isPowerOfN g g 5 || isPowerOfN g g 7) = true ↔
      g ≤ 1 ∨ IsPower 3 g ∨ IsPower 5 g ∨ IsPower 7 g := by
  by_cases hone : g ≤ 1
  · rw [if_pos hone]
    exact iff_of_true rfl (Or.inl hone)
  have hne : g ≠ 0 := by omega
  rw [if_neg hone, or_iff_right hone]
  split
  next heven =>
    -- Every power of an odd number is odd.
    have hodd : ∀ v, Odd v → ¬ IsPower v g := fun v hv hp => by
      have := hp.odd hv
      omega
    simp only [Bool.false_eq_true, false_iff, not_or]
    exact ⟨hodd 3 (by decide), hodd 5 (by decide), hodd 7 (by decide)⟩
  next =>
    rw [Bool.or_eq_true, Bool.or_eq_true, isPowerOfN_iff (by decide) hne,
      isPowerOfN_iff (by decide) hne, isPowerOfN_iff (by decide) hne, or_assoc]

end Loop

/-! ## The groups -/

variable {features g : Nat}

/-- The three loops, one behind the other. -/
theorem sbSparseIn_eq {turns : Nat} (hturns : Nat.log 3 g < turns) :
    sbSparseIn features turns g = some (sbSparse features g) := by
  have hlog : ∀ v, 3 ≤ v → Nat.log v g < turns := fun v hv =>
    Nat.lt_of_le_of_lt (Nat.log_anti_left (by decide) hv) hturns
  unfold sbSparseIn sbSparse
  split
  · rfl
  split
  · rfl
  split
  · rfl
  next hone _ =>
    rw [isPowerOfNIn_eq (by decide) (by omega) (hlog 3 (by decide)),
      isPowerOfNIn_eq (by decide) (by omega) (hlog 5 (by decide)),
      isPowerOfNIn_eq (by decide) (by omega) (hlog 7 (by decide))]
    cases isPowerOfN g g 3 <;> cases isPowerOfN g g 5 <;> rfl

theorem sbSparse_iff (h : containsFlag features featureSparseSuper = true) :
    sbSparse features g = true ↔ g ≤ 1 ∨ IsPower 3 g ∨ IsPower 5 g ∨ IsPower 7 g := by
  rw [sbSparse, h, ← sparse_iff]
  rfl

namespace DescriptorTable

/-- Under `SPARSE_SUPER` the copies of the superblock lie by the power rule.  The loops have
    ended after one turn more than the logarithm of the group number to the base 3. -/
theorem isSuperInBg_power_rule (t : DescriptorTable)
    (h : containsFlag t.featuresReadonly featureSparseSuper = true) (g : Nat) :
    (∀ turns, Nat.log 3 g < turns → t.isSuperInBgIn turns g = some (t.isSuperInBg g)) ∧
      (t.isSuperInBg g = true ↔
        g = 0 ∨ g = 1 ∨ ∃ k, 1 ≤ k ∧ (g = 3 ^ k ∨ g = 5 ^ k ∨ g = 7 ^ k)) := by
  constructor
  · intro turns hturns
    rw [isSuperInBgIn, isSuperInBg, RustExt4.isSuperInBg, h]
    exact sbSparseIn_eq hturns
  · rw [isSuperInBg, RustExt4.isSuperInBg, h, Bool.not_true, Bool.false_or, sbSparse_iff h]
    have hone : g ≤ 1 ↔ g = 0 ∨ g = 1 := by omega
    rw [hone, or_assoc]
    simp only [IsPower, and_or_left, exists_or]

/-- Group 9 has a copy, and the loops end within three turns. -/
theorem isSuperInBg_power_rule_nine :
    containsFlag twoMetaGroups.featuresReadonly featureSparseSuper = true ∧
      twoMetaGroups.isSuperInBgIn 3 9 = some (twoMetaGroups.isSuperInBg 9) ∧
      twoMetaGroups.isSuperInBg 9 = true := by
  have h := isSuperInBg_power_rule twoMetaGroups (by decide) 9
  refine ⟨by decide, h.1 3 ?_, h.2.mpr (Or.inr (Or.inr ⟨2, by decide, Or.inl rfl⟩))⟩
  exact Nat.log_lt_of_lt_pow (by decide) (by decide)

end DescriptorTable
end RustExt4
