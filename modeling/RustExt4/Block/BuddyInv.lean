/-
  RustExt4.Block.BuddyInv

  The representation invariant of `BlockGroupBuddy` and what each method does
  to the set of free blocks.  `backref` is an interval map whose interval of
  kind `order` is `2 ^ order` blocks wide, so the effect of each method on the
  free blocks is the effect of the interval operations of `Lib.IntervalMap`.
-/
import RustExt4.Block.Buddy
import RustExt4.Lib.EndToEnd
import RustExt4.Lib.IntervalMap
import Mathlib.Order.Interval.Set.LinearOrder

namespace RustExt4.Block

open EndToEnd (Fills)
open IntervalMap (Separated Run)

/-- The number of blocks of a chunk of this order. -/
def chunkSize (order : Nat) : Nat := 2 ^ order

theorem chunkSize_pos (order : Nat) : 0 < chunkSize order := Nat.two_pow_pos order

/-! ## Bit counts -/

theorem two_pow_trailingZerosAux_dvd (fuel n : Nat) : 2 ^ trailingZerosAux fuel n ∣ n := by
  induction fuel generalizing n with
  | zero => simp [trailingZerosAux]
  | succ fuel ih =>
      unfold trailingZerosAux
      split
      · simp
      · have h2 : n = 2 * (n / 2) := by omega
        rw [Nat.pow_succ, Nat.mul_comm]
        conv_rhs => rw [h2]
        exact Nat.mul_dvd_mul_left 2 (ih (n / 2))

theorem two_pow_trailingZeros_dvd (n : Nat) : 2 ^ trailingZeros n ∣ n :=
  two_pow_trailingZerosAux_dvd 64 n

/-- `usize::BITS - 1 - size.leading_zeros()` is the order of the largest power
    of two that is at most `size`. -/
theorem log_of_leadingZeros {size : Nat} (hpos : 0 < size) (hsize : size < 2 ^ 64) :
    63 - leadingZeros size = Nat.log2 size := by
  have hlog : Nat.log2 size < 64 := (Nat.log2_lt (by omega)).mpr hsize
  unfold leadingZeros
  rw [if_neg (by omega)]
  omega

theorem two_pow_minFitOrder_ge {size : Nat} (hpos : 0 < size) (hsize : size < 2 ^ 64) :
    size ≤ 2 ^ BlockGroupBuddy.minFitOrder size := by
  unfold BlockGroupBuddy.minFitOrder leadingZeros
  by_cases h1 : size - 1 = 0
  · rw [if_pos h1]
    have : size = 1 := by omega
    simp [this]
  · rw [if_neg h1]
    have hlog : Nat.log2 (size - 1) < 64 := (Nat.log2_lt h1).mpr (by omega)
    have hexp : 64 - (63 - Nat.log2 (size - 1)) = Nat.log2 (size - 1) + 1 := by omega
    rw [hexp]
    have := Nat.lt_log2_self (n := size - 1)
    omega

/-! ## The chunk that `push_chunk` cuts off -/

theorem two_pow_chunkOrder_dvd (k start size : Nat) :
    2 ^ BlockGroupBuddy.chunkOrder k start size ∣ start :=
  Nat.dvd_trans (Nat.pow_dvd_pow 2 (by unfold BlockGroupBuddy.chunkOrder; omega))
    (two_pow_trailingZeros_dvd start)

theorem chunkOrder_le (k start size : Nat) : BlockGroupBuddy.chunkOrder k start size ≤ k := by
  unfold BlockGroupBuddy.chunkOrder
  have := Nat.mod_le k (2 ^ 32)
  omega

theorem two_pow_chunkOrder_le (k start : Nat) {size : Nat} (hpos : 0 < size)
    (hsize : size < 2 ^ 64) :
    2 ^ BlockGroupBuddy.chunkOrder k start size ≤ size := by
  have hle : BlockGroupBuddy.chunkOrder k start size ≤ Nat.log2 size := by
    unfold BlockGroupBuddy.chunkOrder
    rw [log_of_leadingZeros hpos hsize]
    omega
  calc 2 ^ BlockGroupBuddy.chunkOrder k start size
      ≤ 2 ^ Nat.log2 size := Nat.pow_le_pow_right (by decide) hle
    _ ≤ size := Nat.log2_self_le (by omega)

namespace BlockGroupBuddy

/-! ## The invariant -/

/-- The two indexes agree, and the chunks are aligned, separated and end at or
    below `2^64 - 1`. -/
structure Inv (b : BlockGroupBuddy) : Prop where
  sync : ∀ s o, s ∈ b.buddies o ↔ b.backref s = some o
  order_le : ∀ s o, b.backref s = some o → o ≤ b.maxOrder
  aligned : ∀ s o, b.backref s = some o → 2 ^ o ∣ s
  bounded : ∀ s o, b.backref s = some o → s + 2 ^ o ≤ 2 ^ 64 - 1
  separated : Separated chunkSize b.backref

theorem free_eq_cover (b : BlockGroupBuddy) : b.free = IntervalMap.cover chunkSize b.backref :=
  rfl

theorem new_inv (k : Nat) : (new k).Inv where
  sync := by simp [new]
  order_le := by simp
  aligned := by simp
  bounded := by simp
  separated := by intro s k' s' _ h; simp at h

theorem new_free (k : Nat) : (new k).free = ∅ := by
  ext x; simp [free]

theorem Inv.chunk_free {b : BlockGroupBuddy} {s o : Nat} (h : b.backref s = some o) :
    Set.Ico s (s + 2 ^ o) ⊆ b.free :=
  IntervalMap.Ico_subset_cover (w := chunkSize) h

/-! ## One entry at a time -/

theorem setEntry_inv {b : BlockGroupBuddy} {s o : Nat} (h : b.Inv) (ho : o ≤ b.maxOrder)
    (ha : 2 ^ o ∣ s) (hb : s + 2 ^ o ≤ 2 ^ 64 - 1)
    (hd : Disjoint (Set.Ico s (s + 2 ^ o)) b.free) : (b.setEntry s o).Inv := by
  have hnone : b.backref s = none :=
    IntervalMap.none_of_disjoint (w := chunkSize) chunkSize_pos (Nat.two_pow_pos o) hd
  -- Each field holds of the new entry by its hypothesis and of the others as before.
  have hcases : ∀ {s' o'}, (b.setEntry s o).backref s' = some o' →
      (s' = s ∧ o' = o) ∨ b.backref s' = some o' := by
    intro s' o' he
    by_cases hs : s' = s
    · subst hs
      simp only [setEntry, Function.update_self, Option.some.injEq] at he
      exact Or.inl ⟨rfl, he.symm⟩
    · simp only [setEntry, Function.update_of_ne hs] at he
      exact Or.inr he
  refine ⟨?_, ?_, ?_, ?_, h.separated.insert chunkSize_pos hd⟩
  · intro s' o'
    simp only [setEntry]
    by_cases hs : s' = s
    · subst hs
      by_cases hoo : o' = o
      · subst hoo; simp
      · have hno : s' ∉ b.buddies o' := by rw [h.sync, hnone]; simp
        simp [Function.update_of_ne hoo, hno, Ne.symm hoo]
    · rw [Function.update_of_ne hs, ← h.sync]
      by_cases hoo : o' = o
      · subst hoo; simp [hs]
      · rw [Function.update_of_ne hoo]
  · intro s' o' he
    rcases hcases he with ⟨_, rfl⟩ | he
    · exact ho
    · exact h.order_le s' o' he
  · intro s' o' he
    rcases hcases he with ⟨rfl, rfl⟩ | he
    · exact ha
    · exact h.aligned s' o' he
  · intro s' o' he
    rcases hcases he with ⟨rfl, rfl⟩ | he
    · exact hb
    · exact h.bounded s' o' he

theorem setEntry_free {b : BlockGroupBuddy} {s o : Nat}
    (hd : Disjoint (Set.Ico s (s + 2 ^ o)) b.free) :
    (b.setEntry s o).free = b.free ∪ Set.Ico s (s + 2 ^ o) :=
  IntervalMap.cover_insert
    (IntervalMap.none_of_disjoint (w := chunkSize) chunkSize_pos (Nat.two_pow_pos o) hd)

theorem eraseEntry_backref {b : BlockGroupBuddy} {s o s' o' : Nat} :
    (b.eraseEntry s o).backref s' = some o' ↔ s' ≠ s ∧ b.backref s' = some o' :=
  IntervalMap.update_none_eq_some

theorem eraseEntry_inv {b : BlockGroupBuddy} {s o : Nat} (h : b.Inv)
    (hs : b.backref s = some o) : (b.eraseEntry s o).Inv := by
  refine ⟨?_, ?_, ?_, ?_, h.separated.erase s⟩
  · intro s' o'
    rw [eraseEntry_backref, ← h.sync]
    simp only [eraseEntry]
    by_cases hoo : o' = o
    · subst hoo; simp
    · rw [Function.update_of_ne hoo]
      refine ⟨fun hm => ⟨fun he => hoo ?_, hm⟩, fun hm => hm.2⟩
      rw [h.sync, he, hs, Option.some.injEq] at hm
      exact hm.symm
  · exact fun s' o' he => h.order_le s' o' (eraseEntry_backref.mp he).2
  · exact fun s' o' he => h.aligned s' o' (eraseEntry_backref.mp he).2
  · exact fun s' o' he => h.bounded s' o' (eraseEntry_backref.mp he).2

theorem eraseEntry_free {b : BlockGroupBuddy} {s o : Nat} (h : b.Inv)
    (hs : b.backref s = some o) :
    (b.eraseEntry s o).free = b.free \ Set.Ico s (s + 2 ^ o) :=
  h.separated.cover_erase hs

/-! ## `push_chunk` -/

/-- `push_chunk` on blocks that are not free, outside the lock, returns and adds
    exactly those blocks. -/
theorem pushChunk_spec {b : BlockGroupBuddy} {start size : Nat} (h : b.Inv)
    (hend : start + size ≤ 2 ^ 64 - 1) (hd : Disjoint (Set.Ico start (start + size)) b.free) :
    ∃ b', b.pushChunk false start size = .ok b' ∧ b'.Inv ∧ b'.maxOrder = b.maxOrder ∧
      b'.free = b.free ∪ Set.Ico start (start + size) := by
  induction size using Nat.strong_induction_on generalizing b start with
  | _ size ih =>
    rw [pushChunk]
    by_cases hsize : 0 < size
    · rw [if_pos hsize]
      have hle := two_pow_chunkOrder_le b.maxOrder start hsize (by omega)
      have hdvd := two_pow_chunkOrder_dvd b.maxOrder start size
      have hmax := chunkOrder_le b.maxOrder start size
      generalize chunkOrder b.maxOrder start size = o at hle hdvd hmax ⊢
      have hpos := Nat.two_pow_pos o
      have hd1 : Disjoint (Set.Ico start (start + 2 ^ o)) b.free :=
        hd.mono_left (Set.Ico_subset_Ico_right (by omega))
      have hins : b.insert false start o = .ok (b.setEntry start o) := by
        unfold insert
        rw [if_neg (by decide), if_pos hmax]
      have hfree := setEntry_free hd1
      -- The rest of the range is still not free: it lies past the new chunk.
      have hd2 : Disjoint (Set.Ico (start + 2 ^ o) (start + 2 ^ o + (size - 2 ^ o)))
          (b.setEntry start o).free := by
        rw [hfree, Set.disjoint_union_right]
        refine ⟨hd.mono_left ?_, ?_⟩
        · exact Set.Ico_subset_Ico (by omega) (by omega)
        · rw [Set.disjoint_left]
          rintro x ⟨hx1, _⟩ ⟨_, hx2⟩
          omega
      obtain ⟨b', hok, hinv, hmax', hf⟩ := ih (size - 2 ^ o) (by omega)
        (setEntry_inv h hmax hdvd (by omega) hd1) (by omega) hd2
      refine ⟨b', ?_, hinv, hmax', ?_⟩
      · rw [hins]
        exact hok
      · rw [hf, hfree, Set.union_assoc, Set.Ico_union_Ico_eq_Ico (by omega) (by omega)]
        congr 2
        omega
    · have h0 : size = 0 := by omega
      subst h0
      exact ⟨b, by rw [if_neg hsize], h, rfl, by simp⟩

/-! ## The chunks of a range -/

/-- What `push_chunk` inserts, in order: the start of each chunk and its order. -/
def chunks (maxOrder start size : Nat) : List (Nat × Nat) :=
  if 0 < size then
    (start, chunkOrder maxOrder start size) ::
      chunks maxOrder (start + 2 ^ chunkOrder maxOrder start size)
        (size - 2 ^ chunkOrder maxOrder start size)
  else []
termination_by size
decreasing_by
  have := Nat.two_pow_pos (chunkOrder maxOrder start size)
  omega

theorem chunks_of_pos (k start : Nat) {size : Nat} (hsize : 0 < size) :
    chunks k start size = (start, chunkOrder k start size) ::
      chunks k (start + 2 ^ chunkOrder k start size) (size - 2 ^ chunkOrder k start size) := by
  rw [chunks, if_pos hsize]

theorem chunks_zero (k start : Nat) : chunks k start 0 = [] := by
  rw [chunks, if_neg (Nat.lt_irrefl 0)]

/-- The inserts go through, whatever is in the structure. -/
theorem pushChunk_eq_inserts (b : BlockGroupBuddy) (start size : Nat) :
    b.pushChunk false start size =
      .ok ((chunks b.maxOrder start size).foldl (fun b c => b.setEntry c.1 c.2) b) := by
  induction size using Nat.strong_induction_on generalizing b start with
  | _ size ih =>
      rcases Nat.eq_zero_or_pos size with rfl | hsize
      · rw [pushChunk, if_neg (Nat.lt_irrefl 0), chunks_zero]
        rfl
      · have hmax := chunkOrder_le b.maxOrder start size
        have hpos := Nat.two_pow_pos (chunkOrder b.maxOrder start size)
        rw [pushChunk, if_pos hsize, chunks_of_pos _ _ hsize, insert, if_neg (by decide),
          if_pos hmax, List.foldl_cons]
        -- An insert leaves `max_order` as it is.
        exact ih _ (by omega) (b.setEntry start (chunkOrder b.maxOrder start size)) _

/-- The chunks lie end to end from the start of the range to its end. -/
theorem chunks_fill (k start : Nat) {size : Nat} (hsize : size < 2 ^ 64) :
    Fills Prod.fst (fun c => 2 ^ c.2) start (chunks k start size) (start + size) := by
  induction size using Nat.strong_induction_on generalizing start with
  | _ size ih =>
      rcases Nat.eq_zero_or_pos size with rfl | hpos
      · rw [chunks_zero]
        rfl
      · have hle := two_pow_chunkOrder_le k start hpos hsize
        have hpow := Nat.two_pow_pos (chunkOrder k start size)
        rw [chunks_of_pos _ _ hpos]
        refine ⟨rfl, hpow, ?_⟩
        have hrest := ih (size - 2 ^ chunkOrder k start size) (by omega)
          (start + 2 ^ chunkOrder k start size) (by omega)
        rwa [show start + 2 ^ chunkOrder k start size + (size - 2 ^ chunkOrder k start size) =
          start + size by omega] at hrest

theorem chunks_aligned {k start size : Nat} {c : Nat × Nat} (hc : c ∈ chunks k start size) :
    2 ^ c.2 ∣ c.1 ∧ c.2 ≤ k := by
  induction size using Nat.strong_induction_on generalizing start with
  | _ size ih =>
      rcases Nat.eq_zero_or_pos size with rfl | hpos
      · rw [chunks_zero] at hc
        cases hc
      · have hpow := Nat.two_pow_pos (chunkOrder k start size)
        rw [chunks_of_pos _ _ hpos] at hc
        rcases List.mem_cons.mp hc with rfl | hc
        · exact ⟨two_pow_chunkOrder_dvd k start size, chunkOrder_le k start size⟩
        · exact ih _ (by omega) hc

/-- `push_chunk` cuts a range into aligned chunks that cover it, each block once. -/
theorem pushChunk_partitions (b : BlockGroupBuddy) {start size : Nat}
    (hend : start + size ≤ 2 ^ 64 - 1) :
    b.pushChunk false start size =
        .ok ((chunks b.maxOrder start size).foldl (fun b c => b.setEntry c.1 c.2) b) ∧
      (∀ c ∈ chunks b.maxOrder start size, 2 ^ c.2 ∣ c.1 ∧ c.2 ≤ b.maxOrder) ∧
      ((chunks b.maxOrder start size).Pairwise fun c c' =>
        Disjoint (Set.Ico c.1 (c.1 + 2 ^ c.2)) (Set.Ico c'.1 (c'.1 + 2 ^ c'.2))) ∧
      ⋃ c ∈ chunks b.maxOrder start size, Set.Ico c.1 (c.1 + 2 ^ c.2) =
        Set.Ico start (start + size) := by
  have hfill := @chunks_fill b.maxOrder start size (by omega)
  exact ⟨b.pushChunk_eq_inserts start size, fun c hc => chunks_aligned hc, hfill.disjoint,
    hfill.iUnion⟩

/-- Nine blocks from 0 on, with chunks of four blocks at most. -/
theorem pushChunk_partitions_nine :
    (new 2).pushChunk false 0 9 =
        .ok ((chunks 2 0 9).foldl (fun b c => b.setEntry c.1 c.2) (new 2)) ∧
      ⋃ c ∈ chunks 2 0 9, Set.Ico c.1 (c.1 + 2 ^ c.2) = Set.Ico 0 9 := by
  obtain ⟨hrun, -, -, hunion⟩ := @pushChunk_partitions (new 2) 0 9 (by decide)
  exact ⟨hrun, hunion⟩

/-! ## The hope path -/

/-- The first loop walks over adjacent free chunks, each starting before `size`. -/
theorem chainFrom_run (b : BlockGroupBuddy) (hope size chain : Nat) :
    Run chunkSize b.backref (hope + size) (hope + chain)
      (hope + b.chainFrom hope size chain) := by
  induction chain using chainFrom.induct b hope size with
  | case1 chain hlt l hl ih =>
      rw [chainFrom, if_pos hlt, hl]
      refine Run.cons (by omega) hl ?_
      rw [Nat.add_assoc]
      exact ih
  | case2 chain hlt hnone =>
      rw [chainFrom, if_pos hlt, hnone]
      exact Run.nil _
  | case3 chain hge =>
      rw [chainFrom, if_neg hge]
      exact Run.nil _

/-- The second loop takes exactly the chunks of the walk: `p + (1 << order)`
    never passes `chain`, so the branch that pushes a rest back under the lock
    is not reached. -/
theorem takeChain_spec {b : BlockGroupBuddy} {hope size chain p : Nat} (h : b.Inv)
    (hrun : Run chunkSize b.backref (hope + size) (hope + p) (hope + chain)) :
    ∃ b', b.takeChain hope size chain p = .ok b' ∧ b'.Inv ∧ b'.maxOrder = b.maxOrder ∧
      b'.free = b.free \ Set.Ico (hope + p) (hope + chain) := by
  -- The induction is on what is left of the chain; taking a chunk changes the map.
  induction hn : chain - p using Nat.strong_induction_on generalizing b p with
  | _ n ih =>
    rw [takeChain]
    generalize ha : hope + p = a at hrun ⊢
    generalize hc : hope + chain = c at hrun ⊢
    cases hrun with
    | nil =>
        exact ⟨b, by rw [if_neg (by omega)], h, rfl, by simp⟩
    | @cons _ _ order hlt hk hrest =>
        have hle := hrest.le
        have hpos := chunkSize_pos order
        have hsz : chunkSize order = 2 ^ order := rfl
        have hmem : a ∈ b.buddies order := (h.sync ..).mpr hk
        have hmax := h.order_le _ _ hk
        have hrest' : Run chunkSize (b.eraseEntry a order).backref (hope + size)
            (hope + (p + 2 ^ order)) (hope + chain) := by
          rw [hc, ← Nat.add_assoc, ha]
          exact hrest.erase (by omega)
        obtain ⟨b', hok, hinv, hmax', hfree⟩ :=
          ih (chain - (p + 2 ^ order)) (by omega) (eraseEntry_inv h hk) hrest' rfl
        refine ⟨b', ?_, hinv, hmax', ?_⟩
        · rw [if_pos (by omega), hk]
          simp only
          rw [if_neg (by omega), if_neg (by simpa using hmem), if_pos (by omega)]
          exact hok
        · rw [hfree, eraseEntry_free h hk, Set.sdiff_sdiff, hc, ← Nat.add_assoc, ha]
          congr 1
          exact Set.Ico_union_Ico_eq_Ico (by omega) (by omega)

/-! ## The other chunks -/

theorem firstIn_mem {b : BlockGroupBuddy} {orders : List Nat} {p o : Nat}
    (h : b.firstIn orders = some (p, o)) : p ∈ b.buddies o ∧ o ∈ orders := by
  induction orders with
  | nil => cases h
  | cons order orders ih =>
      unfold firstIn at h
      split at h
      case isTrue hne =>
        cases h
        exact ⟨Finset.min'_mem _ hne, List.mem_cons_self⟩
      case isFalse =>
        obtain ⟨hp, ho⟩ := ih h
        exact ⟨hp, List.mem_cons_of_mem _ ho⟩

/-- Without a hope the call returns, and what it hands out is exactly what stops
    being free. -/
theorem allocateAnywhere_spec {b : BlockGroupBuddy} {size : Nat} (h : b.Inv)
    (hpos : 0 < size) (hsize : size < 2 ^ 64) :
    ∃ r b', b.allocateAnywhere size = .ok (r, b') ∧ b'.Inv ∧ b'.maxOrder = b.maxOrder ∧
      (r = none → b' = b) ∧
      ∀ lba n, r = some (lba, n) →
        Set.Ico lba (lba + n) ⊆ b.free ∧ b'.free = b.free \ Set.Ico lba (lba + n) := by
  unfold allocateAnywhere
  cases hfit : b.firstIn ((List.range (b.maxOrder + 1)).drop (minFitOrder size)) with
  | some po =>
      obtain ⟨p, o⟩ := po
      obtain ⟨hmem, ho⟩ := firstIn_mem hfit
      have hp : b.backref p = some o := (h.sync p o).mp hmem
      have hfo : minFitOrder size ≤ o := by
        obtain ⟨i, hi, hio⟩ := List.getElem_of_mem ho
        rw [List.getElem_drop, List.getElem_range] at hio
        omega
      have hle : size ≤ 2 ^ o := Nat.le_trans (two_pow_minFitOrder_ge hpos hsize)
        (Nat.pow_le_pow_right (by decide) hfo)
      have hbound := h.bounded p o hp
      have hfree := eraseEntry_free h hp
      have hd : Disjoint (Set.Ico (p + size) (p + size + (2 ^ o - size)))
          (b.eraseEntry p o).free := by
        rw [hfree, Set.disjoint_left]
        rintro x ⟨hx1, hx2⟩ ⟨_, hx3⟩
        exact hx3 ⟨by omega, by omega⟩
      obtain ⟨b', hok, hinv, hmax, hf⟩ :=
        pushChunk_spec (eraseEntry_inv h hp) (by omega) hd
      refine ⟨some (p, size), b', by simp only [hok], hinv, hmax, by simp, ?_⟩
      rintro lba n hr
      cases hr
      have hsub := Inv.chunk_free hp
      refine ⟨(Set.Ico_subset_Ico_right (by omega)).trans hsub, ?_⟩
      rw [hf, hfree]
      ext x
      have := @hsub x
      simp only [Set.mem_union, Set.mem_sdiff, Set.mem_Ico] at this ⊢
      constructor
      · rintro (⟨hx, hnot⟩ | hx)
        · exact ⟨hx, fun hx' => hnot ⟨hx'.1, by omega⟩⟩
        · exact ⟨this ⟨by omega, by omega⟩, by omega⟩
      · rintro ⟨hx, hnot⟩
        by_cases hin : p ≤ x ∧ x < p + 2 ^ o
        · exact Or.inr ⟨by omega, by omega⟩
        · exact Or.inl ⟨hx, hin⟩
  | none =>
      simp only
      cases hsmall : b.firstIn ((List.range (b.maxOrder + 1)).take (minFitOrder size)).reverse with
      | some po =>
          obtain ⟨p, o⟩ := po
          have hp : b.backref p = some o := (h.sync p o).mp (firstIn_mem hsmall).1
          refine ⟨_, _, rfl, eraseEntry_inv h hp, rfl, by simp, ?_⟩
          rintro lba n hr
          cases hr
          exact ⟨Inv.chunk_free hp, eraseEntry_free h hp⟩
      | none => exact ⟨none, b, rfl, h, rfl, fun _ => rfl, by simp⟩

/-! ## `try_allocate_at` -/

/-- What one call does to the free blocks.  On the hope path the whole chain
    stops being free, also where it is longer than what is handed out. -/
theorem tryAllocateAt_spec {b : BlockGroupBuddy} {size : Nat} (h : b.Inv) (hpos : 0 < size)
    (hsize : size < 2 ^ 64) (hope : Option Nat) :
    ∃ r b', b.tryAllocateAt size hope = .ok (r, b') ∧ b'.Inv ∧ b'.maxOrder = b.maxOrder ∧
      (r = none → b' = b) ∧
      ∀ lba n, r = some (lba, n) →
        (Set.Ico lba (lba + n) ⊆ b.free ∧ b'.free = b.free \ Set.Ico lba (lba + n)) ∨
        (∃ chain, hope = some lba ∧ chain = b.chainFrom lba size 0 ∧ size / 2 < chain ∧
          n = min chain size ∧ Set.Ico lba (lba + chain) ⊆ b.free ∧
          b'.free = b.free \ Set.Ico lba (lba + chain)) := by
  unfold tryAllocateAt
  cases hope with
  | none =>
      obtain ⟨r, b', hok, hinv, hmax, hnone, hr⟩ := allocateAnywhere_spec h hpos hsize
      exact ⟨r, b', hok, hinv, hmax, hnone, fun lba n he => Or.inl (hr lba n he)⟩
  | some hope =>
      simp only
      have hrun := chainFrom_run b hope size 0
      by_cases hchain : size / 2 < b.chainFrom hope size 0
      · obtain ⟨b', hok, hinv, hmax, hfree⟩ := takeChain_spec h hrun
        refine ⟨_, b', by rw [if_pos hchain, hok], hinv, hmax, by simp, ?_⟩
        rintro lba n hr
        cases hr
        exact Or.inr ⟨_, rfl, rfl, hchain, rfl, by simpa [free_eq_cover] using hrun.subset_cover,
          by simpa using hfree⟩
      · obtain ⟨r, b', hok, hinv, hmax, hnone, hr⟩ := allocateAnywhere_spec h hpos hsize
        exact ⟨r, b', by rw [if_neg hchain, hok], hinv, hmax, hnone,
          fun lba n he => Or.inl (hr lba n he)⟩

/-- A call that gives nothing changes nothing. -/
theorem tryAllocateAt_none {b b' : BlockGroupBuddy} {size : Nat} {hope : Option Nat} (h : b.Inv)
    (hpos : 0 < size) (hsize : size < 2 ^ 64) (hok : b.tryAllocateAt size hope = .ok (none, b')) :
    b' = b := by
  obtain ⟨r, b'', hok', -, -, hnone, -⟩ := tryAllocateAt_spec h hpos hsize hope
  rw [hok] at hok'
  cases hok'
  exact hnone rfl

/-- The blocks handed out were free and are not free any more, and no other
    block becomes free. -/
theorem tryAllocateAt_takes {b b' : BlockGroupBuddy} {size lba n : Nat} {hope : Option Nat}
    (h : b.Inv) (hpos : 0 < size) (hsize : size < 2 ^ 64)
    (hok : b.tryAllocateAt size hope = .ok (some (lba, n), b')) :
    Set.Ico lba (lba + n) ⊆ b.free ∧ Disjoint (Set.Ico lba (lba + n)) b'.free ∧
      b'.free ⊆ b.free := by
  obtain ⟨r, b'', hok', -, -, -, hr⟩ := tryAllocateAt_spec h hpos hsize hope
  rw [hok] at hok'
  cases hok'
  rcases hr lba n rfl with ⟨hsub, hf⟩ | ⟨chain, -, -, -, hn, hsub, hf⟩
  · exact ⟨hsub, hf ▸ Set.disjoint_sdiff_right, hf ▸ Set.sdiff_subset⟩
  · have hico : Set.Ico lba (lba + n) ⊆ Set.Ico lba (lba + chain) :=
      Set.Ico_subset_Ico_right (by omega)
    exact ⟨hico.trans hsub, hf ▸ Set.disjoint_sdiff_right.mono_left hico, hf ▸ Set.sdiff_subset⟩

/-- What is given out is not empty. -/
theorem tryAllocateAt_pos {b b' : BlockGroupBuddy} {size lba n : Nat} {hope : Option Nat}
    (hpos : 0 < size) (hok : b.tryAllocateAt size hope = .ok (some (lba, n), b')) : 0 < n := by
  have hany : b.allocateAnywhere size = .ok (some (lba, n), b') → 0 < n := by
    intro hok
    unfold allocateAnywhere at hok
    split at hok
    next =>
      split at hok
      next => cases hok
      next => cases hok; exact hpos
    next =>
      split at hok
      next => cases hok; exact Nat.two_pow_pos _
      next => cases hok
  unfold tryAllocateAt at hok
  split at hok
  next => exact hany hok
  next =>
    split at hok
    next hchain =>
      split at hok
      next => cases hok
      next => cases hok; omega
    next => exact hany hok

end BlockGroupBuddy
end RustExt4.Block
