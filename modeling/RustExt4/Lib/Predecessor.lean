/-
  RustExt4.Lib.Predecessor

  The last element of a list whose key is at most a bound.  In a list with
  ascending keys a binary search finds it; elements before the list and elements
  with greater keys behind it do not matter.
-/
import Mathlib.Data.List.Basic
import Mathlib.Order.Lattice
import Mathlib.Tactic.Common

namespace Predecessor

variable {K α : Type} [LinearOrder K]

/-- `a` is at position `i`, its key is at most `x`, and all later keys are above. -/
def IsPred (key : α → K) (x : K) (l : List α) (i : Nat) (a : α) : Prop :=
  ∃ l1 l2, l = l1 ++ a :: l2 ∧ l1.length = i ∧ key a ≤ x ∧ ∀ b ∈ l2, x < key b

/-- The keys go up strictly. -/
def Ascending (key : α → K) (l : List α) : Prop := l.Pairwise fun a b => key a < key b

variable {key : α → K} {x : K} {l l' : List α} {i : Nat} {a : α}

theorem IsPred.mem (h : IsPred key x l i a) : a ∈ l := by
  obtain ⟨l1, l2, rfl, -, -, -⟩ := h
  simp

theorem IsPred.key_le (h : IsPred key x l i a) : key a ≤ x := by
  obtain ⟨-, -, -, -, hle, -⟩ := h
  exact hle

theorem IsPred.getElem? (h : IsPred key x l i a) : l[i]? = some a := by
  obtain ⟨l1, l2, rfl, rfl, -, -⟩ := h
  rw [List.getElem?_append_right (Nat.le_refl _), Nat.sub_self]
  rfl

/-- There is one predecessor. -/
theorem IsPred.unique {j : Nat} {b : α} (h : IsPred key x l i a) (h' : IsPred key x l j b) :
    a = b := by
  have hafter : ∀ {i j : Nat} {a b : α}, IsPred key x l i a → IsPred key x l j b → j ≤ i := by
    rintro i j a b ⟨l1, l2, rfl, rfl, -, hgt⟩ hb
    by_contra hlt
    have hget := hb.getElem?
    rw [List.getElem?_append_right (by omega), List.getElem?_cons,
      if_neg (by omega)] at hget
    exact absurd hb.key_le (not_le_of_gt (hgt b (List.mem_of_getElem? hget)))
  have hij : i = j := Nat.le_antisymm (hafter h' h) (hafter h h')
  exact Option.some.inj (h.getElem?.symm.trans (hij ▸ h'.getElem?))

/-- An element that splits the keys is the predecessor. -/
theorem isPred_of_split (ha : l[i]? = some a) (hle : key a ≤ x)
    (hgt : ∀ j b, i < j → l[j]? = some b → x < key b) : IsPred key x l i a := by
  obtain ⟨hi, rfl⟩ := List.getElem?_eq_some_iff.mp ha
  refine ⟨l.take i, l.drop (i + 1), ?_, by rw [List.length_take]; omega, hle, fun b hb => ?_⟩
  · rw [← List.drop_eq_getElem_cons hi, List.take_append_drop]
  · obtain ⟨j, hj, rfl⟩ := List.mem_iff_getElem.mp hb
    rw [List.getElem_drop]
    rw [List.length_drop] at hj
    exact hgt (i + 1 + j) _ (by omega) (List.getElem?_eq_getElem (by omega))

/-- Elements with keys above the bound do not matter. -/
theorem IsPred.append (h : IsPred key x l i a) (hgt : ∀ b ∈ l', x < key b) :
    IsPred key x (l ++ l') i a := by
  obtain ⟨l1, l2, rfl, hi, hle, hl2⟩ := h
  refine ⟨l1, l2 ++ l', by simp, hi, hle, fun b hb => ?_⟩
  exact (List.mem_append.mp hb).elim (hl2 b) (hgt b)

theorem IsPred.prepend (l' : List α) (h : IsPred key x l i a) :
    IsPred key x (l' ++ l) (l'.length + i) a := by
  obtain ⟨l1, l2, rfl, rfl, hle, hl2⟩ := h
  exact ⟨l' ++ l1, l2, by simp, by simp, hle, hl2⟩

/-- Behind the predecessor all keys are above the bound. -/
theorem IsPred.lt_key (h : IsPred key x l i a) {j : Nat} {b : α} (hij : i < j)
    (hb : l[j]? = some b) : x < key b := by
  obtain ⟨l1, l2, rfl, rfl, -, hgt⟩ := h
  rw [List.getElem?_append_right (Nat.le_of_lt hij), List.getElem?_cons, if_neg (by omega)] at hb
  exact hgt b (List.mem_of_getElem? hb)

theorem Ascending.lt_of_getElem? (h : Ascending key l) {j : Nat} {b : α} (hij : i < j)
    (ha : l[i]? = some a) (hb : l[j]? = some b) : key a < key b := by
  obtain ⟨hi, rfl⟩ := List.getElem?_eq_some_iff.mp ha
  obtain ⟨hj, rfl⟩ := List.getElem?_eq_some_iff.mp hb
  exact List.pairwise_iff_getElem.mp h i j hi hj hij

/-- A bound above all keys has the last element as predecessor. -/
theorem IsPred.last (h : IsPred key x l i a) (hall : ∀ b ∈ l, key b ≤ x) :
    i + 1 = l.length ∧ l.getLast? = some a := by
  obtain ⟨l1, l2, rfl, rfl, -, hgt⟩ := h
  obtain rfl : l2 = [] := by
    refine List.eq_nil_iff_forall_not_mem.mpr fun b hb => ?_
    exact absurd (hall b (by simp [hb])) (not_le.mpr (hgt b hb))
  simp

theorem IsPred.of_map {β : Type} {f : β → α} {l : List β} (h : IsPred key x (l.map f) i a) :
    ∃ b, a = f b ∧ IsPred (fun b => key (f b)) x l i b := by
  obtain ⟨l1, l2, heq, hi, hle, hgt⟩ := h
  obtain ⟨m1, m2, rfl, rfl, hm⟩ := List.map_eq_append_iff.mp heq
  obtain ⟨b, m2, rfl, rfl, rfl⟩ := List.map_eq_cons_iff.mp hm
  refine ⟨b, rfl, m1, m2, rfl, by simpa using hi, hle, fun c hc => ?_⟩
  exact hgt (f c) (List.mem_map_of_mem hc)

/-! ## Keys that repeat -/

/-- The keys do not go down. -/
def Nondecreasing (key : α → K) (l : List α) : Prop := l.Pairwise fun a b => key a ≤ key b

/-- Where the next key is above the bound, the keys up to the bound end. -/
theorem Nondecreasing.filter_le {l1 l2 : List α} (h : Nondecreasing key (l1 ++ a :: l2))
    (hle : key a ≤ x) (hnext : ∀ b, l2.head? = some b → x < key b) :
    (l1 ++ a :: l2).filter (fun b => key b ≤ x) = l1 ++ [a] := by
  obtain ⟨-, htail, hcross⟩ := List.pairwise_append.mp h
  have h1 : l1.filter (fun b => key b ≤ x) = l1 :=
    List.filter_eq_self.mpr fun b hb =>
      decide_eq_true (le_trans (hcross b hb a List.mem_cons_self) hle)
  have h2 : l2.filter (fun b => key b ≤ x) = [] := by
    refine List.filter_eq_nil_iff.mpr fun c hc => ?_
    rw [decide_eq_true_eq, not_le]
    cases l2 with
    | nil => cases hc
    | cons b l2 =>
        have hb := hnext b rfl
        rcases List.mem_cons.mp hc with rfl | hc
        · exact hb
        · exact lt_of_lt_of_le hb
            ((List.pairwise_cons.mp (List.pairwise_cons.mp htail).2).1 c hc)
  rw [List.filter_append, h1, List.filter_cons_of_pos (by simpa using hle), h2]

/-- A key between two neighbours goes between them. -/
theorem Nondecreasing.insert_after {b : α} {l1 l2 : List α}
    (h : Nondecreasing key (l1 ++ a :: l2)) (hle : key a ≤ key b)
    (hnext : ∀ c, l2.head? = some c → key b ≤ key c) :
    Nondecreasing key (l1 ++ a :: b :: l2) := by
  obtain ⟨h1, htail, hcross⟩ := List.pairwise_append.mp h
  obtain ⟨ha, h2⟩ := List.pairwise_cons.mp htail
  have hb : ∀ c ∈ l2, key b ≤ key c := by
    intro c hc
    cases l2 with
    | nil => cases hc
    | cons d l2 =>
        rcases List.mem_cons.mp hc with rfl | hc
        · exact hnext c rfl
        · exact le_trans (hnext d rfl) ((List.pairwise_cons.mp h2).1 c hc)
  refine List.pairwise_append.mpr ⟨h1, List.pairwise_cons.mpr ⟨?_, List.pairwise_cons.mpr ⟨hb, h2⟩⟩,
    fun x hx c hc => ?_⟩
  · intro c hc
    rcases List.mem_cons.mp hc with rfl | hc
    · exact hle
    · exact ha c hc
  · rcases List.mem_cons.mp hc with rfl | hc
    · exact hcross x hx c List.mem_cons_self
    · rcases List.mem_cons.mp hc with rfl | hc
      · exact le_trans (hcross x hx a List.mem_cons_self) hle
      · exact hcross x hx c (List.mem_cons_of_mem _ hc)

theorem insertIdx_append_cons {b : α} (l1 l2 : List α) :
    (l1 ++ a :: l2).insertIdx (l1.length + 1) b = l1 ++ a :: b :: l2 := by
  induction l1 with
  | nil => rfl
  | cons c l1 ih => rw [List.cons_append, List.length_cons, List.insertIdx_succ_cons, ih]; rfl

/-- An element and what follows it. -/
theorem exists_append_of_getElem? (h : l[i]? = some a) :
    ∃ l1 l2, l = l1 ++ a :: l2 ∧ l1.length = i ∧ l[i + 1]? = l2.head? := by
  obtain ⟨hi, rfl⟩ := List.getElem?_eq_some_iff.mp h
  refine ⟨l.take i, l.drop (i + 1), ?_, List.length_take_of_le (Nat.le_of_lt hi),
    (List.head?_drop ..).symm⟩
  rw [← List.drop_eq_getElem_cons hi, List.take_append_drop]

/-- The least key comes first. -/
theorem Nondecreasing.takeWhile_eq {y : K} (h : Nondecreasing key l) (hy : ∀ b ∈ l, y ≤ key b) :
    l.takeWhile (fun b => key b = y) = l.filter fun b => key b = y := by
  induction l with
  | nil => rfl
  | cons a l ih =>
      obtain ⟨ha, hl⟩ := List.pairwise_cons.mp h
      by_cases hay : key a = y
      · rw [List.takeWhile_cons_of_pos (by simpa using hay),
          List.filter_cons_of_pos (by simpa using hay),
          ih hl fun b hb => hy b (List.mem_cons_of_mem _ hb)]
      · rw [List.takeWhile_cons_of_neg (by simpa using hay)]
        refine (List.filter_eq_nil_iff.mpr fun b hb => ?_).symm
        have hlt : y < key a := lt_of_le_of_ne (hy a List.mem_cons_self) (Ne.symm hay)
        rw [decide_eq_true_eq]
        rcases List.mem_cons.mp hb with rfl | hb
        · exact hay
        · exact ne_of_gt (lt_of_lt_of_le hlt (ha b hb))

/-- A run of the least key above the bound starts behind the predecessor. -/
theorem Nondecreasing.run_eq {y : K} {l1 l2 : List α} (h : Nondecreasing key (l1 ++ a :: l2))
    (hle : key a ≤ x) (hgt : ∀ b ∈ l2, x < key b) (hxy : x < y) (hy : ∀ k, x < k → y ≤ k) :
    a :: l2.takeWhile (fun b => key b = y) =
      ((l1 ++ a :: l2).filter fun b => key b ≤ x).getLast?.toList ++
        (l1 ++ a :: l2).filter fun b => key b = y := by
  obtain ⟨-, htail, hcross⟩ := List.pairwise_append.mp h
  have hl1 : l1.filter (fun b => key b = y) = [] := by
    refine List.filter_eq_nil_iff.mpr fun b hb => ?_
    have := lt_of_le_of_lt (le_trans (hcross b hb a List.mem_cons_self) hle) hxy
    simpa using ne_of_lt this
  rw [h.filter_le hle fun b hb => hgt b (List.mem_of_mem_head? hb), List.getLast?_concat,
    takeWhile_eq (List.pairwise_cons.mp htail).2 fun b hb => hy _ (hgt b hb),
    List.filter_append, hl1,
    List.filter_cons_of_neg (by simpa using ne_of_lt (lt_of_le_of_lt hle hxy))]
  rfl

end Predecessor
