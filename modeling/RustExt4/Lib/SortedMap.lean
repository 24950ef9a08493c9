/-
  RustExt4.Lib.SortedMap

  Maps as lists of key-value pairs in the order of their keys, with the
  insertion that replaces the value under a key that is there already.  Values
  that carry their own keys, inserted one after the other into the empty map,
  come out sorted by key; none is lost exactly when their keys are distinct.
-/
import Mathlib.Data.List.Sort

namespace SortedMap

variable {K α : Type} [LinearOrder K]

def insert (k : K) (v : α) : List (K × α) → List (K × α)
  | [] => [(k, v)]
  | (k', v') :: m =>
    if k < k' then (k, v) :: (k', v') :: m
    else if k = k' then (k, v) :: m
    else (k', v') :: insert k v m

/-- The keys go up strictly. -/
def Sorted (m : List (K × α)) : Prop := m.Pairwise fun x y => x.1 < y.1

/-- Insert each value under its own key, in list order. -/
def insertAll (key : α → K) (es : List α) (m : List (K × α)) : List (K × α) :=
  es.foldl (fun m e => insert (key e) e m) m

/-! ## One insertion -/

theorem mem_keys_insert {k k' : K} {v : α} {m : List (K × α)} :
    k' ∈ (insert k v m).map Prod.fst ↔ k' = k ∨ k' ∈ m.map Prod.fst := by
  induction m with
  | nil => simp [insert]
  | cons x m ih =>
      obtain ⟨kx, vx⟩ := x
      simp only [insert]
      split
      · simp
      · split
        next h => subst h; simp
        next => rw [List.map_cons, List.mem_cons, ih, List.map_cons, List.mem_cons]; tauto

theorem mem_insert {k : K} {v : α} {m : List (K × α)} {x : K × α} (h : x ∈ insert k v m) :
    x = (k, v) ∨ x ∈ m := by
  induction m with
  | nil => exact Or.inl (List.mem_singleton.mp h)
  | cons y m ih =>
      simp only [insert] at h
      split at h
      · exact List.mem_cons.mp h
      · split at h
        · exact (List.mem_cons.mp h).imp_right (List.mem_cons_of_mem _)
        · rcases List.mem_cons.mp h with rfl | h
          · exact Or.inr List.mem_cons_self
          · exact (ih h).imp_right (List.mem_cons_of_mem _)

theorem mem_insert_self (k : K) (v : α) (m : List (K × α)) : (k, v) ∈ insert k v m := by
  induction m with
  | nil => exact List.mem_singleton_self _
  | cons x m ih =>
      simp only [insert]
      split
      · exact List.mem_cons_self
      · split
        · exact List.mem_cons_self
        · exact List.mem_cons_of_mem _ ih

theorem lookup_insert [BEq K] [LawfulBEq K] (k : K) (v : α) (m : List (K × α)) (k' : K) :
    (insert k v m).lookup k' = if k' = k then some v else m.lookup k' := by
  induction m with
  | nil =>
      by_cases h : k' = k
      · simp [insert, h]
      · simp [insert, List.lookup_cons, h, beq_eq_false_iff_ne.mpr h]
  | cons x m ih =>
      obtain ⟨kx, vx⟩ := x
      simp only [insert]
      by_cases h : k' = k
      · subst h
        split
        · simp
        · split
          · simp
          next hne =>
            rw [List.lookup_cons, beq_eq_false_iff_ne.mpr hne]
            exact ih.trans (by rw [if_pos rfl, if_pos rfl])
      · rw [if_neg h] at ih ⊢
        split
        · rw [List.lookup_cons, beq_eq_false_iff_ne.mpr h]
        · split
          next heq =>
            subst heq
            rw [List.lookup_cons, List.lookup_cons, beq_eq_false_iff_ne.mpr h]
          next => rw [List.lookup_cons, List.lookup_cons, ih]

theorem Sorted.insert {k : K} {v : α} {m : List (K × α)} (h : Sorted m) :
    Sorted (insert k v m) := by
  induction m with
  | nil => exact List.pairwise_singleton ..
  | cons x m ih =>
      obtain ⟨hhead, htail⟩ := List.pairwise_cons.mp h
      simp only [SortedMap.insert]
      split
      case isTrue hlt =>
        refine List.pairwise_cons.mpr ⟨fun y hy => ?_, h⟩
        rcases List.mem_cons.mp hy with rfl | hy
        · exact hlt
        · exact hlt.trans (hhead y hy)
      case isFalse hnlt =>
        split
        case isTrue heq =>
          exact List.pairwise_cons.mpr ⟨fun y hy => by rw [heq]; exact hhead y hy, htail⟩
        case isFalse hne =>
          refine List.pairwise_cons.mpr ⟨fun y hy => ?_, ih htail⟩
          -- The inserted key is above the head, and so are the keys of the rest.
          have hkey := mem_keys_insert.mp (List.mem_map_of_mem hy)
          rcases hkey with hk | hk
          · rw [hk]
            exact lt_of_le_of_ne (not_lt.mp hnlt) (Ne.symm hne)
          · obtain ⟨z, hz, hzy⟩ := List.mem_map.mp hk
            rw [← hzy]
            exact hhead z hz

theorem insert_perm {k : K} {v : α} {m : List (K × α)} (h : k ∉ m.map Prod.fst) :
    (insert k v m).Perm ((k, v) :: m) := by
  induction m with
  | nil => exact List.Perm.refl _
  | cons x m ih =>
      rw [List.map_cons, List.mem_cons, not_or] at h
      simp only [insert]
      split
      · exact List.Perm.refl _
      · rw [if_neg h.1]
        exact ((ih h.2).cons x).trans (List.Perm.swap ..)

theorem length_insert_of_mem {k : K} {v : α} {m : List (K × α)} (hs : Sorted m)
    (h : k ∈ m.map Prod.fst) : (insert k v m).length = m.length := by
  induction m with
  | nil => cases h
  | cons x m ih =>
      obtain ⟨hhead, htail⟩ := List.pairwise_cons.mp hs
      rw [List.map_cons, List.mem_cons] at h
      simp only [insert]
      have hle : ¬ k < x.1 := by
        rcases h with rfl | h
        · exact lt_irrefl _
        · obtain ⟨y, hy, rfl⟩ := List.mem_map.mp h
          exact (hhead y hy).asymm
      rw [if_neg hle]
      split
      · rfl
      next hne =>
        rw [List.length_cons, ih htail (h.resolve_left hne), List.length_cons]

theorem length_insert_le {k : K} {v : α} {m : List (K × α)} (hs : Sorted m) :
    (insert k v m).length ≤ m.length + 1 := by
  by_cases h : k ∈ m.map Prod.fst
  · rw [length_insert_of_mem hs h]
    omega
  · exact Nat.le_of_eq (insert_perm h).length_eq

/-! ## Many insertions -/

variable {key : α → K} {es : List α} {m : List (K × α)}

theorem insertAll_sorted (h : Sorted m) : Sorted (insertAll key es m) := by
  induction es generalizing m with
  | nil => exact h
  | cons e es ih => exact ih h.insert

theorem mem_insertAll {x : K × α} (h : x ∈ insertAll key es m) : x.2 ∈ es ∨ x ∈ m := by
  induction es generalizing m with
  | nil => exact Or.inr h
  | cons e es ih =>
      rcases ih h with h | h
      · exact Or.inl (List.mem_cons_of_mem _ h)
      · rcases mem_insert h with rfl | h
        · exact Or.inl List.mem_cons_self
        · exact Or.inr h

/-- Every value is under its own key. -/
theorem key_of_mem_insertAll {x : K × α} (h : x ∈ insertAll key es m) :
    x.1 = key x.2 ∨ x ∈ m := by
  induction es generalizing m with
  | nil => exact Or.inr h
  | cons e es ih =>
      rcases ih h with h | h
      · exact Or.inl h
      · rcases mem_insert h with rfl | h
        · exact Or.inl rfl
        · exact Or.inr h

/-- Each value's key is there, though the value may have been replaced. -/
theorem mem_keys_insertAll {k : K} :
    k ∈ (insertAll key es m).map Prod.fst ↔ k ∈ es.map key ∨ k ∈ m.map Prod.fst := by
  induction es generalizing m with
  | nil => simp [insertAll]
  | cons e es ih =>
      refine (ih (m := insert (key e) e m)).trans ?_
      rw [mem_keys_insert, List.map_cons, List.mem_cons]
      tauto

/-- The last value is not replaced. -/
theorem mem_insertAll_concat (key : α → K) (e : α) :
    (key e, e) ∈ insertAll key (es ++ [e]) m := by
  rw [insertAll, List.foldl_append]
  exact mem_insert_self _ _ _

/-- Distinct keys: nothing is replaced. -/
theorem insertAll_perm (h : (m.map Prod.fst ++ es.map key).Nodup) :
    (insertAll key es m).Perm (m ++ es.map fun e => (key e, e)) := by
  induction es generalizing m with
  | nil => simp [insertAll]
  | cons e es ih =>
      have hnot : key e ∉ m.map Prod.fst := by
        have := List.disjoint_of_nodup_append h
        exact fun hmem => this hmem (by simp)
      have hperm := insert_perm (v := e) hnot
      have hkeys : ((insert (key e) e m).map Prod.fst ++ es.map key).Nodup := by
        refine ((hperm.map Prod.fst).append_right (es.map key)).nodup_iff.mpr ?_
        rw [List.map_cons, List.cons_append]
        exact (List.perm_middle).nodup_iff.mp h
      have hrest : (insertAll key (e :: es) m).Perm
          (insert (key e) e m ++ es.map fun e => (key e, e)) := ih hkeys
      refine hrest.trans ((hperm.append_right _).trans ?_)
      rw [List.cons_append, List.map_cons]
      exact List.perm_middle.symm

theorem length_insertAll_le (key : α → K) (es : List α) (hs : Sorted m) :
    (insertAll key es m).length ≤ m.length + es.length := by
  induction es generalizing m with
  | nil => exact Nat.le_refl _
  | cons e es ih =>
      have h1 := ih (m := insert (key e) e m) hs.insert
      have h2 := length_insert_le (k := key e) (v := e) hs
      rw [List.length_cons]
      exact h1.trans (by omega)

/-- Equal keys: a value is replaced and lost. -/
theorem length_insertAll_lt (key : α → K) (es : List α) (hs : Sorted m)
    (h : ¬ (m.map Prod.fst ++ es.map key).Nodup) :
    (insertAll key es m).length < m.length + es.length := by
  induction es generalizing m with
  | nil =>
      rw [List.map_nil, List.append_nil] at h
      exact absurd ((List.pairwise_map.mpr hs).imp fun hlt => ne_of_lt hlt) h
  | cons e es ih =>
      by_cases hmem : key e ∈ m.map Prod.fst
      · have h1 := length_insertAll_le key es (m := insert (key e) e m) hs.insert
        rw [length_insert_of_mem hs hmem] at h1
        rw [List.length_cons]
        exact Nat.lt_of_le_of_lt h1 (by omega)
      · have hperm := insert_perm (v := e) hmem
        have h1 := ih (m := insert (key e) e m) hs.insert (fun hn => h (by
          have hn' := ((hperm.map Prod.fst).append_right (es.map key)).nodup_iff.mp hn
          exact (List.perm_middle).nodup_iff.mpr hn'))
        have h2 := hperm.length_eq
        rw [List.length_cons] at h2
        rw [List.length_cons]
        exact Nat.lt_of_lt_of_le h1 (by omega)

/-- The values of a map are sorted by their keys. -/
theorem Sorted.values_eq (hs : Sorted m) (hkey : ∀ x ∈ m, x.1 = key x.2)
    (hperm : (m.map Prod.snd).Perm es) (hnodup : (es.map key).Nodup) :
    m.map Prod.snd = es.insertionSort fun x y => key x ≤ key y := by
  have hsorted : (m.map Prod.snd).Pairwise fun x y => key x ≤ key y := by
    refine List.pairwise_map.mpr (hs.imp_of_mem ?_)
    intro x y hx hy hlt
    rw [← hkey x hx, ← hkey y hy]
    exact hlt.le
  let le := fun x y : α => key x ≤ key y
  have : Std.Total le := ⟨fun x y => le_total (key x) (key y)⟩
  have : IsTrans α le := ⟨fun x y z => le_trans⟩
  refine List.Perm.eq_of_pairwise ?_ hsorted (List.pairwise_insertionSort le es)
    (hperm.trans (List.perm_insertionSort le es).symm)
  intro x y hx hy h1 h2
  exact List.inj_on_of_nodup_map hnodup (hperm.mem_iff.mp hx)
    ((List.perm_insertionSort le es).mem_iff.mp hy) (le_antisymm h1 h2)

/-- With distinct keys the values come out in the order of their keys. -/
theorem values_insertAll (h : (es.map key).Nodup) :
    (insertAll key es []).map Prod.snd = es.insertionSort fun x y => key x ≤ key y := by
  have hperm : (insertAll key es []).Perm (es.map fun e => (key e, e)) :=
    insertAll_perm (m := []) (by simpa using h)
  have hkey : ∀ x ∈ insertAll key es [], x.1 = key x.2 := by
    intro x hx
    obtain ⟨e, -, rfl⟩ := List.mem_map.mp (hperm.mem_iff.mp hx)
    rfl
  refine (insertAll_sorted (m := []) List.Pairwise.nil).values_eq hkey ?_ h
  have := hperm.map Prod.snd
  rwa [List.map_map, show Prod.snd ∘ (fun e => (key e, e)) = id from rfl, List.map_id] at this

end SortedMap
