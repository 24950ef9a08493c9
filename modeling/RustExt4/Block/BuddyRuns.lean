/-
  RustExt4.Block.BuddyRuns

  Whole runs of the buddy structure: every sequence of `push_chunk` and
  `try_allocate_at` calls from the empty structure keeps the two indexes in
  step, never fails, and never hands out a block twice without a push between.
  The last section says when an allocation returns everything it does not hand
  out to the free blocks.
-/
import Mathlib.Data.Set.Card
import Mathlib.Order.Interval.Finset.Nat
import RustExt4.Block.BuddyInv

namespace RustExt4.Block
namespace BlockGroupBuddy

/-! ## Runs -/

/-- `Reach k b out`: some sequence of calls from the empty structure of maximal
    order `k` leads to `b`; `out` are the blocks that were handed out and not
    pushed back since.  A push is of blocks that are not free. -/
inductive Reach (k : Nat) : BlockGroupBuddy → Set Nat → Prop
  | empty : Reach k (new k) ∅
  | push {b b' : BlockGroupBuddy} {out : Set Nat} {start size : Nat} :
      Reach k b out → start + size ≤ 2 ^ 64 - 1 →
      Disjoint (Set.Ico start (start + size)) b.free →
      b.pushChunk false start size = .ok b' →
      Reach k b' (out \ Set.Ico start (start + size))
  | allocate {b b' : BlockGroupBuddy} {out : Set Nat} {size lba n : Nat} {hope : Option Nat} :
      Reach k b out → 1 ≤ size → size < 2 ^ 64 →
      b.tryAllocateAt size hope = .ok (some (lba, n), b') →
      Reach k b' (out ∪ Set.Ico lba (lba + n))
  | full {b b' : BlockGroupBuddy} {out : Set Nat} {size : Nat} {hope : Option Nat} :
      Reach k b out → 1 ≤ size → size < 2 ^ 64 →
      b.tryAllocateAt size hope = .ok (none, b') → Reach k b' out

theorem Reach.inv {k : Nat} {b : BlockGroupBuddy} {out : Set Nat} (h : Reach k b out) :
    b.Inv ∧ Disjoint out b.free := by
  -- On the run; `out` is what has been handed out and not given back.
  induction h with
  | empty => exact ⟨new_inv k, Set.empty_disjoint _⟩
  | push _ hend hd hok ih =>
      obtain ⟨b'', hok', hinv, -, hfree⟩ := pushChunk_spec ih.1 hend hd
      rw [hok] at hok'
      cases hok'
      refine ⟨hinv, ?_⟩
      rw [hfree, Set.disjoint_union_right]
      exact ⟨ih.2.mono_left Set.sdiff_subset, Set.disjoint_sdiff_left⟩
  | @allocate b b' out size lba n hope _ hpos hsize hok ih =>
      obtain ⟨hsub, hdisj, hmono⟩ := tryAllocateAt_takes ih.1 hpos hsize hok
      obtain ⟨r, b'', hok', hinv, -⟩ := tryAllocateAt_spec ih.1 hpos hsize hope
      rw [hok] at hok'
      cases hok'
      exact ⟨hinv, Set.disjoint_union_left.mpr ⟨ih.2.mono_right hmono, hdisj⟩⟩
  | full _ hpos hsize hok ih =>
      rw [tryAllocateAt_none ih.1 hpos hsize hok]
      exact ih

/-- Every run of the buddy structure is safe: the buckets and `backref` describe
    the same aligned, pairwise disjoint chunks, the next call of either kind
    returns without a failed `unwrap` or `assert!` and without asking for the
    lock of `backref` twice, and what an allocation hands out was free, is not
    free afterwards and is not handed out already. -/
theorem reach_safe {k : Nat} {b : BlockGroupBuddy} {out : Set Nat} (h : Reach k b out) :
    (∀ s o, s ∈ b.buddies o ↔ b.backref s = some o) ∧
    (∀ s o, b.backref s = some o → 2 ^ o ∣ s) ∧
    (∀ s o s' o', b.backref s = some o → b.backref s' = some o' → s ≠ s' →
      Disjoint (Set.Ico s (s + 2 ^ o)) (Set.Ico s' (s' + 2 ^ o'))) ∧
    (∀ start size, start + size ≤ 2 ^ 64 - 1 →
      Disjoint (Set.Ico start (start + size)) b.free →
      ∃ b', b.pushChunk false start size = .ok b') ∧
    (∀ size hope, 1 ≤ size → size < 2 ^ 64 →
      ∃ r b', b.tryAllocateAt size hope = .ok (r, b') ∧
        ∀ lba n, r = some (lba, n) →
          Set.Ico lba (lba + n) ⊆ b.free ∧
          (∀ s o, b'.backref s = some o →
            Disjoint (Set.Ico lba (lba + n)) (Set.Ico s (s + 2 ^ o))) ∧
          Disjoint (Set.Ico lba (lba + n)) out) := by
  obtain ⟨hinv, hout⟩ := h.inv
  refine ⟨hinv.sync, hinv.aligned, ?_, ?_, ?_⟩
  · intro s o s' o' hs hs' hne
    rw [Set.disjoint_left]
    rintro x ⟨h1, h2⟩ ⟨h3, h4⟩
    exact hne (hinv.separated.start_unique hs hs' ⟨h1, h2⟩ ⟨h3, h4⟩)
  · intro start size hend hd
    obtain ⟨b', hok, -⟩ := pushChunk_spec hinv hend hd
    exact ⟨b', hok⟩
  · intro size hope hpos hsize
    obtain ⟨r, b', hok, -⟩ := tryAllocateAt_spec hinv hpos hsize hope
    refine ⟨r, b', hok, ?_⟩
    rintro lba n rfl
    obtain ⟨hsub, hdisj, -⟩ := tryAllocateAt_takes hinv hpos hsize hok
    exact ⟨hsub, fun s o hs => hdisj.mono_right (Inv.chunk_free hs),
      (hout.mono_right hsub).symm⟩

/-- The free blocks are finitely many: each was pushed. -/
theorem Reach.free_finite {k : Nat} {b : BlockGroupBuddy} {out : Set Nat} (h : Reach k b out) :
    b.free.Finite := by
  induction h with
  | empty =>
      rw [new_free]
      exact Set.finite_empty
  | push hreach hend hd hok ih =>
      obtain ⟨b'', hok', -, -, hfree⟩ := pushChunk_spec hreach.inv.1 hend hd
      rw [hok] at hok'
      cases hok'
      rw [hfree]
      exact ih.union (Set.finite_Ico _ _)
  | allocate hreach hpos hsize hok ih =>
      exact ih.subset (tryAllocateAt_takes hreach.inv.1 hpos hsize hok).2.2
  | full hreach hpos hsize hok ih => rwa [tryAllocateAt_none hreach.inv.1 hpos hsize hok]

/-- An allocation takes one of them at least. -/
theorem Reach.free_ncard_lt {k : Nat} {b b' : BlockGroupBuddy} {out : Set Nat}
    {size lba n : Nat} {hope : Option Nat} (h : Reach k b out) (hpos : 1 ≤ size)
    (hsize : size < 2 ^ 64) (hok : b.tryAllocateAt size hope = .ok (some (lba, n), b')) :
    b'.free.ncard < b.free.ncard := by
  obtain ⟨hsub, hdisj, hmono⟩ := tryAllocateAt_takes h.inv.1 hpos hsize hok
  have hlba : lba ∈ Set.Ico lba (lba + n) :=
    ⟨Nat.le_refl _, Nat.lt_add_of_pos_right (tryAllocateAt_pos hpos hok)⟩
  exact Set.ncard_lt_ncard
    ⟨hmono, fun hle => Set.disjoint_left.mp hdisj hlba (hle (hsub hlba))⟩ h.free_finite

/-- Two free chunks of four blocks, as `push_chunk(0, 8)` enters them. -/
def eightFree : BlockGroupBuddy := ((new 2).setEntry 0 2).setEntry 4 2

theorem pushChunk_eightFree : (new 2).pushChunk false 0 8 = .ok eightFree := by
  have h0 : chunkOrder 2 0 8 = 2 := by decide
  have h4 : chunkOrder 2 4 4 = 2 := by decide
  have hmax : (new 2).maxOrder = 2 := rfl
  simp [pushChunk, insert, h0, h4, hmax, eightFree]

theorem reach_eightFree : Reach 2 eightFree (∅ \ Set.Ico 0 (0 + 8)) :=
  Reach.push Reach.empty (by decide) (by rw [new_free]; exact Set.disjoint_empty _)
    pushChunk_eightFree

theorem reach_safe_eightFree :
    ∃ r b', eightFree.tryAllocateAt 3 (some 0) = .ok (r, b') ∧
      ∀ lba n, r = some (lba, n) → Set.Ico lba (lba + n) ⊆ eightFree.free := by
  obtain ⟨r, b', hok, hr⟩ :=
    (reach_safe reach_eightFree).2.2.2.2 3 (some 0) (by decide) (by decide)
  exact ⟨r, b', hok, fun lba n he => (hr lba n he).1⟩

/-! ## Which blocks an allocation loses -/

/-- All blocks of `[hope, hope+size)` are free from a chunk start at `hope` on,
    and one free chunk holds blocks on both sides of `hope + size`. -/
def Straddled (b : BlockGroupBuddy) (size : Nat) (hope : Option Nat) : Prop :=
  ∃ h, hope = some h ∧ (∃ o, b.backref h = some o) ∧ Set.Ico h (h + size) ⊆ b.free ∧
    ∃ c o, b.backref c = some o ∧ c < h + size ∧ h + size < c + 2 ^ o

/-- Where the walk stops short of `size`, no chunk starts. -/
theorem backref_chainFrom (b : BlockGroupBuddy) (hope size chain : Nat)
    (h : b.chainFrom hope size chain < size) :
    b.backref (hope + b.chainFrom hope size chain) = none := by
  induction chain using chainFrom.induct b hope size with
  | case1 chain hlt l hl ih =>
      rw [chainFrom, if_pos hlt, hl] at h ⊢
      exact ih h
  | case2 chain hlt hnone =>
      rw [chainFrom, if_pos hlt, hnone]
      exact hnone
  | case3 chain hge =>
      rw [chainFrom, if_neg hge] at h
      exact absurd h hge

/-- The chain overshoots the request exactly when a free chunk straddles its end. -/
theorem lt_chainFrom_iff {b : BlockGroupBuddy} {size hope : Nat} (h : b.Inv) (hpos : 0 < size) :
    size < b.chainFrom hope size 0 ↔ b.Straddled size (some hope) := by
  -- The walk covers what it counts with chunks that follow each other from the hope on.
  have hrun := chainFrom_run b hope size 0
  have hstop := backref_chainFrom b hope size 0
  rw [Nat.add_zero] at hrun
  constructor
  · intro hlt
    obtain ⟨c, o, hc, -, hco, hend⟩ := hrun.exists_last (by omega)
    have hsz : chunkSize o = 2 ^ o := rfl
    have hsub := hrun.subset_cover
    refine ⟨hope, rfl, ?_, ?_, c, o, hco, hc, by omega⟩
    · cases hk : b.backref hope with
      | some o => exact ⟨o, rfl⟩
      | none =>
          rw [chainFrom, if_pos hpos, Nat.add_zero, hk] at hlt
          exact absurd hlt (Nat.not_lt_zero size)
    · exact (Set.Ico_subset_Ico_right (by omega)).trans hsub
  · rintro ⟨h', he, ⟨o0, ho0⟩, hsub, c, o, hco, hlt, hend⟩
    cases he
    generalize b.chainFrom hope size 0 = r at hrun hstop ⊢
    rcases Nat.lt_trichotomy r size with hr | hr | hr
    · -- The walk cannot stop short of `size`: its end is free and so starts a chunk.
      have hr0 : r ≠ 0 := by
        rintro rfl
        rw [Nat.add_zero, ho0] at hstop
        cases hstop hpos
      obtain ⟨k, hk⟩ := hrun.next_start h.separated (by omega) chunkSize_pos
        (hsub ⟨by omega, by omega⟩)
      rw [hstop hr] at hk
      cases hk
    · -- Its last chunk would share the block before `hope + size` with the straddling one.
      obtain ⟨c', o', hc', -, hco', hend'⟩ := hrun.exists_last (by omega)
      have hsz : chunkSize o' = 2 ^ o' := rfl
      have hsz' : chunkSize o = 2 ^ o := rfl
      have hcc := h.separated.start_unique (x := hope + size - 1) hco hco' ⟨by omega, by omega⟩
        ⟨by omega, by omega⟩
      subst hcc
      rw [hco, Option.some.injEq] at hco'
      subst hco'
      omega
    · exact hr

/-- Where an allocation takes a chunk that straddles the end of the request from
    the hope, the blocks of that chunk past the end are in no index any more;
    otherwise exactly the blocks handed out stop being free. -/
theorem free_after_allocate_iff {k : Nat} {b b' : BlockGroupBuddy} {out : Set Nat}
    {size lba n : Nat} {hope : Option Nat} (h : Reach k b out) (hpos : 1 ≤ size)
    (hsize : size < 2 ^ 64) (hok : b.tryAllocateAt size hope = .ok (some (lba, n), b')) :
    b'.free = b.free \ Set.Ico lba (lba + n) ↔ ¬ b.Straddled size hope := by
  have hinv := h.inv.1
  obtain ⟨r, b'', hok', -, -, -, hr⟩ := tryAllocateAt_spec hinv hpos hsize hope
  have hall := hok
  rw [hok] at hok'
  cases hok'
  by_cases hstr : b.Straddled size hope
  · obtain ⟨h', rfl, hrest⟩ := id hstr
    have hlt := (lt_chainFrom_iff hinv hpos).mpr hstr
    obtain ⟨b1, hok1, -, -, hf1⟩ := takeChain_spec hinv (p := 0) (by
      have := chainFrom_run b h' size 0; exact this)
    unfold tryAllocateAt at hok
    simp only [if_pos (show size / 2 < b.chainFrom h' size 0 by omega), hok1] at hok
    cases hok
    refine ⟨fun heq => absurd ?_ (lt_irrefl size), fun hno => absurd hstr hno⟩
    have hsub := (chainFrom_run b lba size 0).subset_cover
    -- Block `lba + size` is free before, not handed out, and not free after.
    have hbefore : lba + size ∈ b.free := hsub ⟨by omega, by omega⟩
    have hafter : lba + size ∉ b'.free := by
      rw [hf1]
      exact fun hx => hx.2 ⟨by omega, by omega⟩
    rw [heq] at hafter
    exact absurd ⟨hbefore, fun hx => by have := hx.2; omega⟩ hafter
  · refine ⟨fun _ => hstr, fun _ => ?_⟩
    rcases hr lba n rfl with ⟨-, hf⟩ | ⟨chain, rfl, rfl, -, hn, -, hf⟩
    · exact hf
    · have hle : ¬ size < b.chainFrom lba size 0 :=
        fun hlt => hstr ((lt_chainFrom_iff hinv hpos).mp hlt)
      rw [hf, hn, Nat.min_eq_left (by omega)]

theorem tryAllocateAt_eightFree :
    eightFree.tryAllocateAt 3 (some 0) = .ok (some (0, 3), eightFree.eraseEntry 0 2) := by
  simp [tryAllocateAt, chainFrom, takeChain, eightFree, setEntry, new]

theorem free_after_allocate_iff_eightFree :
    (eightFree.eraseEntry 0 2).free = eightFree.free \ Set.Ico 0 (0 + 3) ↔
      ¬ eightFree.Straddled 3 (some 0) :=
  free_after_allocate_iff reach_eightFree (by decide) (by decide) tryAllocateAt_eightFree

/-- Three blocks asked for at block 0 of a free chunk of four: block 3 was free,
    is not handed out, and is not free afterwards. -/
theorem allocate_loses_block_three :
    Reach 2 eightFree (∅ \ Set.Ico 0 (0 + 8)) ∧
    eightFree.tryAllocateAt 3 (some 0) = .ok (some (0, 3), eightFree.eraseEntry 0 2) ∧
    3 ∈ eightFree.free \ Set.Ico 0 (0 + 3) ∧ 3 ∉ (eightFree.eraseEntry 0 2).free := by
  refine ⟨reach_eightFree, tryAllocateAt_eightFree, ⟨⟨0, 2, rfl, by decide, by decide⟩, ?_⟩, ?_⟩
  · simp
  · rw [eraseEntry_free reach_eightFree.inv.1 rfl]
    exact fun hx => hx.2 ⟨by decide, by decide⟩

/-! ## How many blocks an allocation gives -/

/-- The orders below `min_fit_order` are those whose chunks are too small. -/
theorem minFitOrder_le_iff {size o : Nat} (hpos : 0 < size) (hsize : size < 2 ^ 64) :
    minFitOrder size ≤ o ↔ size ≤ 2 ^ o := by
  unfold minFitOrder leadingZeros
  by_cases h1 : size - 1 = 0
  · rw [if_pos h1]
    have := Nat.two_pow_pos o
    omega
  · rw [if_neg h1]
    have hlog : Nat.log2 (size - 1) < 64 := (Nat.log2_lt h1).mpr (by omega)
    have hiff := Nat.log2_lt (k := o) h1
    omega

/-- All buckets before the one that was found are empty. -/
theorem firstIn_split {b : BlockGroupBuddy} {orders : List Nat} {p o : Nat}
    (h : b.firstIn orders = some (p, o)) :
    ∃ pre rest, orders = pre ++ o :: rest ∧ ∀ o' ∈ pre, b.buddies o' = ∅ := by
  induction orders with
  | nil => cases h
  | cons order orders ih =>
      unfold firstIn at h
      split at h
      case isTrue hne =>
        cases h
        exact ⟨[], orders, rfl, fun _ ho' => by cases ho'⟩
      case isFalse hempty =>
        obtain ⟨pre, rest, rfl, hpre⟩ := ih h
        refine ⟨order :: pre, rest, rfl, fun o' ho' => ?_⟩
        rcases List.mem_cons.mp ho' with rfl | ho'
        · exact Finset.not_nonempty_iff_eq_empty.mp hempty
        · exact hpre o' ho'

theorem firstIn_none {b : BlockGroupBuddy} {orders : List Nat} (h : b.firstIn orders = none) :
    ∀ o ∈ orders, b.buddies o = ∅ := by
  induction orders with
  | nil => exact fun _ ho => by cases ho
  | cons order orders ih =>
      unfold firstIn at h
      split at h
      case isTrue => cases h
      case isFalse hempty =>
        intro o ho
        rcases List.mem_cons.mp ho with rfl | ho
        · exact Finset.not_nonempty_iff_eq_empty.mp hempty
        · exact ih h o ho

/-- The free chunks of an order that is searched are in its bucket. -/
theorem Inv.not_backref {b : BlockGroupBuddy} (h : b.Inv) {s o : Nat} (ho : b.buddies o = ∅) :
    b.backref s ≠ some o := by
  intro hs
  have hmem := (h.sync s o).mpr hs
  rw [ho] at hmem
  exact absurd hmem (Finset.notMem_empty s)

/-- What is given without a hope: the whole request where a chunk has room for it, else the
    largest chunk. -/
theorem allocateAnywhere_size {b b' : BlockGroupBuddy} {size : Nat} {r : Option (Nat × Nat)}
    (h : b.Inv) (hpos : 0 < size) (hsize : size < 2 ^ 64)
    (hok : b.allocateAnywhere size = .ok (r, b')) :
    (r = none ∧ ∀ s, b.backref s = none) ∨
    (∃ lba s o, r = some (lba, size) ∧ b.backref s = some o ∧ size ≤ 2 ^ o) ∨
    ∃ lba o, r = some (lba, 2 ^ o) ∧ b.backref lba = some o ∧ 2 ^ o < size ∧
      ∀ s' o', b.backref s' = some o' → 2 ^ o' ≤ 2 ^ o := by
  have hlarge : ∀ {s o}, b.backref s = some o → size ≤ 2 ^ o →
      o ∈ (List.range (b.maxOrder + 1)).drop (minFitOrder size) := fun {s o} hs ho => by
    have hfit := (minFitOrder_le_iff hpos hsize).mpr ho
    have hmax := h.order_le s o hs
    refine List.mem_drop_iff_getElem.mpr ⟨o - minFitOrder size, ?_, ?_⟩
    · rw [List.length_range]
      omega
    · rw [List.getElem_range]
      omega
  unfold allocateAnywhere at hok
  split at hok
  case h_1 p o hfit =>
    obtain ⟨hmem, ho⟩ := firstIn_mem hfit
    have hle : size ≤ 2 ^ o := by
      apply (minFitOrder_le_iff hpos hsize).mp
      obtain ⟨i, hi, hio⟩ := List.getElem_of_mem ho
      rw [List.getElem_drop, List.getElem_range] at hio
      omega
    split at hok
    case h_1 => cases hok
    case h_2 =>
      cases hok
      exact Or.inr (Or.inl ⟨p, p, o, rfl, (h.sync p o).mp hmem, hle⟩)
  case h_2 hnofit =>
    -- No chunk has room for all of the request.
    have hsmall : ∀ s o, b.backref s = some o → o < minFitOrder size := by
      intro s o hs
      by_contra hge
      exact h.not_backref (firstIn_none hnofit o
        (hlarge hs ((minFitOrder_le_iff hpos hsize).mp (by omega)))) hs
    have hbucket : ∀ s o, b.backref s = some o →
        o ∈ ((List.range (b.maxOrder + 1)).take (minFitOrder size)).reverse := by
      intro s o hs
      have hmax := h.order_le s o hs
      have hlt := hsmall s o hs
      rw [List.mem_reverse, List.take_range, List.mem_range]
      omega
    split at hok
    case h_1 p o hfirst =>
      cases hok
      have hp : b.backref p = some o := (h.sync p o).mp (firstIn_mem hfirst).1
      obtain ⟨pre, rest, hsplit, hpre⟩ := firstIn_split hfirst
      refine Or.inr (Or.inr ⟨p, o, rfl, hp, ?_, fun s' o' hs' => ?_⟩)
      · have hlt := hsmall p o hp
        by_contra hge
        have := (minFitOrder_le_iff (o := o) hpos hsize).mpr (by omega)
        omega
      · -- The scan goes down, so a larger order has been passed with an empty bucket.
        apply Nat.pow_le_pow_right (by decide)
        by_contra hlt
        have hdown : (((List.range (b.maxOrder + 1)).take (minFitOrder size)).reverse).Pairwise
            (fun x y => y < x) := by
          rw [List.pairwise_reverse, List.take_range]
          exact List.pairwise_lt_range
        have hmem := hbucket s' o' hs'
        rw [hsplit] at hdown hmem
        rcases List.mem_append.mp hmem with hin | hin
        · exact h.not_backref (hpre o' hin) hs'
        · rcases List.mem_cons.mp hin with rfl | hin
          · omega
          · have := List.rel_of_pairwise_cons (List.pairwise_append.mp hdown).2.1 hin
            omega
    case h_2 hnone =>
      cases hok
      refine Or.inl ⟨rfl, fun s => ?_⟩
      cases hs : b.backref s with
      | none => rfl
      | some o => exact absurd hs (h.not_backref (firstIn_none hnone o (hbucket s o hs)))

/-- A free chunk starts at the hope, and more than half of the request is free from there
    on. -/
def ServedFromHope (b : BlockGroupBuddy) (size : Nat) (hope : Option Nat) : Prop :=
  ∃ h, hope = some h ∧ (∃ o, b.backref h = some o) ∧ Set.Ico h (h + (size / 2 + 1)) ⊆ b.free

/-- It is what the first loop of `try_allocate_at` finds out. -/
theorem half_lt_chainFrom_iff {b : BlockGroupBuddy} {size hope : Nat} (h : b.Inv)
    (hpos : 0 < size) :
    size / 2 < b.chainFrom hope size 0 ↔ b.ServedFromHope size (some hope) := by
  have hrun := chainFrom_run b hope size 0
  have hstop := backref_chainFrom b hope size 0
  rw [Nat.add_zero] at hrun
  constructor
  · intro hlt
    refine ⟨hope, rfl, ?_, (Set.Ico_subset_Ico_right (by omega)).trans hrun.subset_cover⟩
    cases hk : b.backref hope with
    | some o => exact ⟨o, rfl⟩
    | none =>
        rw [chainFrom, if_pos hpos, Nat.add_zero, hk] at hlt
        exact absurd hlt (Nat.not_lt_zero _)
  · rintro ⟨h', he, ⟨o0, ho0⟩, hsub⟩
    cases he
    generalize b.chainFrom hope size 0 = r at hrun hstop ⊢
    by_contra hle
    -- The walk has stopped at a free block, which starts a chunk then.
    have hr0 : r ≠ 0 := by
      rintro rfl
      rw [Nat.add_zero, ho0] at hstop
      cases hstop hpos
    obtain ⟨k, hk⟩ := hrun.next_start h.separated (by omega) chunkSize_pos
      (hsub ⟨by omega, by omega⟩)
    rw [hstop (by omega)] at hk
    cases hk

/-- How many blocks a call gives that gives any. -/
structure SizedFor (b : BlockGroupBuddy) (size : Nat) (hope : Option Nat) (n : Nat) : Prop where
  pos : 1 ≤ n
  le : n ≤ size
  half : b.ServedFromHope size hope → size / 2 < n
  all : ¬ b.ServedFromHope size hope → (∃ s o, b.backref s = some o ∧ size ≤ 2 ^ o) → n = size
  largest : ¬ b.ServedFromHope size hope → (∀ s o, b.backref s = some o → 2 ^ o < size) →
    (∃ s o, b.backref s = some o ∧ n = 2 ^ o) ∧ ∀ s o, b.backref s = some o → 2 ^ o ≤ n

/-- Every call returns; it gives nothing if and only if nothing is free. -/
theorem tryAllocateAt_sized {b : BlockGroupBuddy} {size : Nat} (h : b.Inv) (hpos : 0 < size)
    (hsize : size < 2 ^ 64) (hope : Option Nat) :
    ∃ r b', b.tryAllocateAt size hope = .ok (r, b') ∧
      (r = none ↔ ∀ s, b.backref s = none) ∧
        ∀ lba n, r = some (lba, n) → b.SizedFor size hope n := by
  obtain ⟨r, b', hok, -, -, -, -⟩ := tryAllocateAt_spec h hpos hsize hope
  refine ⟨r, b', hok, ?_⟩
  -- Where the hope does not serve, a chunk of the right order does, or else the largest one.
  have hother : ¬ b.ServedFromHope size hope → b.allocateAnywhere size = .ok (r, b') →
      (r = none ↔ ∀ s, b.backref s = none) ∧
        ∀ lba n, r = some (lba, n) → b.SizedFor size hope n := by
    intro hno hany
    rcases allocateAnywhere_size h hpos hsize hany with
      ⟨rfl, hnone⟩ | ⟨lba, s, o, rfl, hs, ho⟩ | ⟨lba, o, rfl, hs, ho, hmax⟩
    · exact ⟨iff_of_true rfl hnone, fun _ _ hr => by cases hr⟩
    · refine ⟨iff_of_false (fun hr => by cases hr) fun hnone => ?_, fun _ _ hr => ?_⟩
      · rw [hnone s] at hs
        cases hs
      · cases hr
        refine ⟨hpos, Nat.le_refl _, fun hyes => absurd hyes hno, fun _ _ => rfl, fun _ hall => ?_⟩
        have := hall s o hs
        omega
    · refine ⟨iff_of_false (fun hr => by cases hr) fun hnone => ?_, fun _ _ hr => ?_⟩
      · rw [hnone lba] at hs
        cases hs
      · cases hr
        refine ⟨Nat.two_pow_pos o, ho.le, fun hyes => absurd hyes hno, ?_, fun _ _ =>
          ⟨⟨lba, o, hs, rfl⟩, hmax⟩⟩
        rintro - ⟨s', o', hs', ho'⟩
        have := hmax s' o' hs'
        omega
  unfold tryAllocateAt at hok
  cases hope with
  | none =>
      apply hother _ hok
      rintro ⟨h', he, -⟩
      cases he
  | some hope =>
      have hiff := @half_lt_chainFrom_iff _ _ hope h hpos
      dsimp only at hok
      by_cases hhalf : size / 2 < b.chainFrom hope size 0
      · rw [if_pos hhalf] at hok
        have hserved := hiff.mp hhalf
        split at hok
        case h_1 => cases hok
        case h_2 =>
          cases hok
          obtain ⟨s, -, ⟨o, ho⟩, -⟩ := id hserved
          refine ⟨iff_of_false (fun hr => by cases hr) fun hnone => ?_, fun _ _ hr => ?_⟩
          · rw [hnone] at ho
            cases ho
          · cases hr
            exact ⟨by omega, by omega, fun _ => by omega, fun hno => absurd hserved hno,
              fun hno => absurd hserved hno⟩
      · rw [if_neg hhalf] at hok
        exact hother (fun hyes => hhalf (hiff.mpr hyes)) hok

end BlockGroupBuddy
end RustExt4.Block
