/-
  RustExt4.Block.GroupRange

  Where the blocks of one allocation lie.  A chunk lies in one block group, but
  the chain that starts at the hope puts chunks together across the end of a
  group, and the event of the allocation is on the group of its first block.
-/
import RustExt4.Block.BuddyRuns
import RustExt4.Transaction.BlockSafety

namespace RustExt4

open Transaction (Event bitAt setBitmap)

/-! ## Chunks and chains -/

namespace Block.BlockGroupBuddy

open IntervalMap (Run)

/-- Without a hope the blocks come from one free chunk. -/
theorem allocateAnywhere_chunk {b b' : BlockGroupBuddy} {size lba n : Nat} (h : b.Inv)
    (hpos : 0 < size) (hsize : size < 2 ^ 64)
    (hok : b.allocateAnywhere size = .ok (some (lba, n), b')) :
    0 < n ∧ ∃ o, b.backref lba = some o ∧ n ≤ 2 ^ o := by
  unfold allocateAnywhere at hok
  split at hok
  next p o hfit =>
    obtain ⟨hmem, ho⟩ := firstIn_mem hfit
    have hfo : minFitOrder size ≤ o := by
      obtain ⟨i, hi, hio⟩ := List.getElem_of_mem ho
      rw [List.getElem_drop, List.getElem_range] at hio
      omega
    have hle : size ≤ 2 ^ o := Nat.le_trans (two_pow_minFitOrder_ge hpos hsize)
      (Nat.pow_le_pow_right (by decide) hfo)
    split at hok
    · cases hok
    · cases hok
      exact ⟨hpos, o, (h.sync lba o).mp hmem, hle⟩
  next =>
    split at hok
    next p o hsmall =>
      cases hok
      exact ⟨Nat.two_pow_pos o, o, (h.sync lba o).mp (firstIn_mem hsmall).1, Nat.le_refl _⟩
    next => cases hok

/-- How far the chain reaches: over the blocks that are free from a chunk start on. -/
theorem le_chainFrom_iff {b : BlockGroupBuddy} (hope size k : Nat) (h : b.Inv)
    (hpos : 0 < k) (hk : k ≤ size) : k ≤ b.chainFrom hope size 0 ↔
      (∃ o, b.backref hope = some o) ∧ Set.Ico hope (hope + k) ⊆ b.free := by
  have hrun := chainFrom_run b hope size 0
  have hstop := backref_chainFrom b hope size 0
  rw [Nat.add_zero] at hrun
  constructor
  · intro hle
    refine ⟨?_, (Set.Ico_subset_Ico_right (by omega)).trans hrun.subset_cover⟩
    cases ho : b.backref hope with
    | some o => exact ⟨o, rfl⟩
    | none =>
        rw [chainFrom, if_pos (by omega), Nat.add_zero, ho] at hle
        dsimp only at hle
        omega
  · rintro ⟨⟨o, ho⟩, hsub⟩
    generalize b.chainFrom hope size 0 = r at hrun hstop ⊢
    by_contra hlt
    -- The end of the walk is free, so a chunk starts there.
    have hr0 : r ≠ 0 := by
      rintro rfl
      rw [Nat.add_zero, ho] at hstop
      cases hstop (by omega)
    obtain ⟨o', ho'⟩ := hrun.next_start h.separated (by omega) chunkSize_pos
      (hsub ⟨by omega, by omega⟩)
    rw [hstop (by omega)] at ho'
    cases ho'

/-- A range that is one chunk is pushed as that chunk. -/
theorem pushChunk_two_pow (b : BlockGroupBuddy) (start o : Nat)
    (h : chunkOrder b.maxOrder start (2 ^ o) = o) :
    b.pushChunk false start (2 ^ o) = .ok (b.setEntry start o) := by
  have hle := chunkOrder_le b.maxOrder start (2 ^ o)
  have hins : b.insert false start o = .ok (b.setEntry start o) := by
    unfold insert
    rw [if_neg (by decide), if_pos (h ▸ hle)]
  rw [pushChunk, if_pos (Nat.two_pow_pos o), h, hins]
  dsimp only
  rw [Nat.sub_self, pushChunk, if_neg (Nat.lt_irrefl 0)]

end Block.BlockGroupBuddy

/-! ## Groups -/

namespace SuperBlock

/-- The blocks of a group. -/
def groupBlocks (sb : SuperBlock) (g : Nat) : Set Nat :=
  Set.Ico (sb.fromBgidIndex g 0) (sb.fromBgidIndex (g + 1) 0)

/-- The first block after the group of a block. -/
def groupEnd (sb : SuperBlock) (lba : Nat) : Nat :=
  sb.fromBgidIndex ((lba - sb.firstDataBlock) / sb.blocksPerGroup + 1) 0

theorem mem_groupBlocks {sb : SuperBlock} {g x : Nat} :
    x ∈ sb.groupBlocks g ↔ ∃ i < sb.blocksPerGroup, x = sb.fromBgidIndex g i := by
  rw [groupBlocks, fromBgidIndex_eq, fromBgidIndex_eq, Nat.mul_succ, Set.mem_Ico]
  constructor
  · intro hx
    exact ⟨x - (sb.firstDataBlock + sb.blocksPerGroup * g), by omega, by
      rw [fromBgidIndex_eq]; omega⟩
  · rintro ⟨i, hi, rfl⟩
    rw [fromBgidIndex_eq]
    omega

theorem groupEnd_fromBgidIndex {sb : SuperBlock} {g i : Nat} (hi : i < sb.blocksPerGroup) :
    sb.groupEnd (sb.fromBgidIndex g i) = sb.fromBgidIndex (g + 1) 0 := by
  rw [groupEnd, fromBgidIndex_eq sb g i, Nat.add_sub_cancel_left, Nat.mul_add_div
    sb.blocksPerGroup_pos, Nat.div_eq_of_lt hi, Nat.add_zero]

/-- A range that starts at position `i` of a group lies in it where it ends in it. -/
theorem Ico_subset_groupBlocks {sb : SuperBlock} {g i n : Nat} (hn : 0 < n) :
    Set.Ico (sb.fromBgidIndex g i) (sb.fromBgidIndex g i + n) ⊆ sb.groupBlocks g ↔
      i + n ≤ sb.blocksPerGroup := by
  simp only [groupBlocks, fromBgidIndex_eq, Nat.mul_succ]
  constructor
  · intro hsub
    have := (@hsub (sb.firstDataBlock + (sb.blocksPerGroup * g + i) + n - 1)
      ⟨by omega, by omega⟩).2
    omega
  · intro hle x hx
    obtain ⟨h1, h2⟩ := hx
    exact ⟨by omega, by omega⟩

end SuperBlock

namespace FileSystem

variable {fs fs' : FileSystem} {events events' : List Event} {ino size hope lba n : Nat}

/-- Every free chunk lies in one group. -/
def ChunksInGroups (fs : FileSystem) : Prop :=
  ∀ s o, fs.buddies.backref s = some o →
    ∃ g < fs.sb.bgCount, Set.Ico s (s + 2 ^ o) ⊆ fs.sb.groupBlocks g

/-- A free chunk starts at the hope, and from there on the blocks are free up to more
    than half of the request, and into the next group, where the request ends. -/
def Crosses (fs : FileSystem) (size hope : Nat) : Prop :=
  (∃ o, fs.buddies.backref hope = some o) ∧
    fs.sb.groupEnd hope < hope + min size (fs.blkSize * 4) ∧
    Set.Ico hope (hope + (min size (fs.blkSize * 4) / 2 + 1)) ⊆ fs.buddies.free ∧
    Set.Ico hope (fs.sb.groupEnd hope + 1) ⊆ fs.buddies.free

/-- What the event of an allocation of `n` blocks from `lba` on says: the range lies in
    its group, and the bits that it sets are bits of that group. -/
def InGroup (fs : FileSystem) (ino lba n : Nat) : Event → Prop
  | .blockAllocationOnBg ino' bgid bitmapLba ofs count =>
    ino' = ino ∧ count = n ∧ fs.bitmapLba bgid = some bitmapLba ∧
      Set.Ico lba (lba + n) ⊆ fs.sb.groupBlocks bgid ∧ ofs + count ≤ fs.sb.blocksPerGroup ∧
      ∀ blk pos, fs.sb.blocksPerGroup ≤ pos → fs.sb.blocksPerGroup ≤ 8 * blk.length →
        bitAt (setBitmap blk ofs count) pos = bitAt blk pos
  | _ => False

/-- The event of an allocation is on the group of its first block. -/
theorem allocate_event {m : Nat} (hm : m = min size (fs.blkSize * 4))
    (hinv : fs.buddies.Inv) (hchunks : fs.ChunksInGroups) (hpos : 0 < m) (hsize : m < 2 ^ 64)
    (hok : fs.allocate events ino size hope = (.ok (lba, n), fs', events')) :
    ∃ (b : Block.BlockGroupBuddy) (g i : Nat) (bg : BlockGroup),
      fs.buddies.tryAllocateAt m (some hope) = .ok (some (lba, n), b) ∧
      i < fs.sb.blocksPerGroup ∧ lba = fs.sb.fromBgidIndex g i ∧
      fs.bitmapLba g = some bg.blockBitmapLba ∧ 0 < n ∧
      events' = events ++ [.blockAllocationOnBg ino g bg.blockBitmapLba i n] := by
  unfold allocate at hok
  rw [← hm] at hok
  split at hok
  · cases hok
  · cases hok
  next lba0 n0 b htry =>
    -- The first block of the range starts a chunk.
    have hstart : ∃ o, fs.buddies.backref lba0 = some o ∧ 0 < n0 := by
      unfold Block.BlockGroupBuddy.tryAllocateAt at htry
      dsimp only at htry
      split at htry
      next hchain =>
        obtain ⟨⟨o, ho⟩, -⟩ := (Block.BlockGroupBuddy.le_chainFrom_iff hope m (m / 2 + 1)
          hinv (by omega) (by omega)).mp hchain
        split at htry
        · cases htry
        · cases htry
          exact ⟨o, ho, by omega⟩
      next =>
        obtain ⟨hn, o, ho, -⟩ :=
          Block.BlockGroupBuddy.allocateAnywhere_chunk hinv hpos hsize htry
        exact ⟨o, ho, hn⟩
    obtain ⟨o, ho, hn⟩ := hstart
    obtain ⟨g, hg, hsub⟩ := hchunks lba0 o ho
    obtain ⟨i, hi, heq⟩ := SuperBlock.mem_groupBlocks.mp
      (hsub ⟨Nat.le_refl lba0, by have := Nat.two_pow_pos o; omega⟩)
    have hinto := @SuperBlock.intoBgidIndex_fromBgidIndex fs.sb _ _ hg hi
    rw [← heq] at hinto
    simp only [hinto] at hok
    cases hbg : fs.blockGroups g with
    | none =>
        simp only [getBlockGroup, hbg] at hok
        cases hok
    | some bg =>
        simp only [getBlockGroup, hbg] at hok
        cases hok
        exact ⟨b, g, i, bg, by rw [← heq]; exact htry, hi, rfl, by simp [bitmapLba, hbg], hn, rfl⟩

/-- From a hope a range ends where its chain does; any other range lies in a chunk. -/
theorem tryAllocateAt_crosses {b : Block.BlockGroupBuddy} {g i m : Nat}
    (hm : m = min size (fs.blkSize * 4)) (hinv : fs.buddies.Inv) (hchunks : fs.ChunksInGroups)
    (hpos : 0 < m) (hsize : m < 2 ^ 64) (hi : i < fs.sb.blocksPerGroup)
    (htry : fs.buddies.tryAllocateAt m (some hope) = .ok (some (fs.sb.fromBgidIndex g i, n), b)) :
    fs.sb.blocksPerGroup < i + n ↔ fs.Crosses size hope := by
  have hend : ∀ k, fs.sb.fromBgidIndex (g + 1) 0 < fs.sb.fromBgidIndex g i + k ↔
      fs.sb.blocksPerGroup < i + k := by
    intro k
    rw [SuperBlock.fromBgidIndex_eq, SuperBlock.fromBgidIndex_eq, Nat.mul_succ]
    omega
  unfold Crosses
  rw [← hm]
  unfold Block.BlockGroupBuddy.tryAllocateAt at htry
  dsimp only at htry
  split at htry
  next hchain =>
    split at htry
    · cases htry
    next b1 _ =>
      cases htry
      have hle := fun k => Block.BlockGroupBuddy.le_chainFrom_iff (fs.sb.fromBgidIndex g i) m k
        hinv
      obtain ⟨hstart, hhalf⟩ := (hle (m / 2 + 1) (by omega) (by omega)).mp hchain
      rw [SuperBlock.groupEnd_fromBgidIndex hi, hend]
      have hsum : fs.sb.fromBgidIndex (g + 1) 0 + 1 =
          fs.sb.fromBgidIndex g i + (fs.sb.blocksPerGroup + 1 - i) := by
        rw [SuperBlock.fromBgidIndex_eq, SuperBlock.fromBgidIndex_eq, Nat.mul_succ]
        omega
      rw [hsum]
      constructor
      · intro hlt
        refine ⟨hstart, by omega, hhalf, ((hle _ (by omega) (by omega)).mp ?_).2⟩
        omega
      · rintro ⟨-, hlt, -, hinto⟩
        have := (hle _ (by omega) (by omega)).mpr ⟨hstart, hinto⟩
        omega
  next hchain =>
    obtain ⟨hn, o, ho, hno⟩ := Block.BlockGroupBuddy.allocateAnywhere_chunk hinv hpos hsize htry
    obtain ⟨g', hg', hsub⟩ := hchunks _ o ho
    constructor
    · intro hlt
      exfalso
      obtain ⟨i', hi', heq⟩ := SuperBlock.mem_groupBlocks.mp
        (hsub ⟨Nat.le_refl _, by have := Nat.two_pow_pos o; omega⟩)
      have hle := (@SuperBlock.Ico_subset_groupBlocks fs.sb g' i' n hn).mp
        (heq ▸ (Set.Ico_subset_Ico_right (by omega)).trans hsub)
      have h1 := congrArg fs.sb.groupEnd heq
      rw [SuperBlock.groupEnd_fromBgidIndex hi, SuperBlock.groupEnd_fromBgidIndex hi',
        SuperBlock.fromBgidIndex_eq, SuperBlock.fromBgidIndex_eq, Nat.mul_succ, Nat.mul_succ] at h1
      rw [SuperBlock.fromBgidIndex_eq, SuperBlock.fromBgidIndex_eq] at heq
      omega
    · rintro ⟨hstart, -, hhalf, -⟩
      exact absurd ((Block.BlockGroupBuddy.le_chainFrom_iff _ _ _ hinv (by omega) (by omega)).mpr
        ⟨hstart, hhalf⟩) hchain

/-- An allocation lies in one group, its event sets bits of that group only, unless the
    chain from the hope crosses the end of a group. -/
theorem allocate_inGroup_iff (hinv : fs.buddies.Inv) (hchunks : fs.ChunksInGroups)
    (hpos : 1 ≤ size) (hsize : size < 2 ^ 64) (hblk : 1 ≤ fs.blkSize)
    (hok : fs.allocate events ino size hope = (.ok (lba, n), fs', events')) :
    (∃ e, events' = events ++ [e] ∧ fs.InGroup ino lba n e) ↔ ¬ fs.Crosses size hope := by
  obtain ⟨b, g, i, bg, htry, hi, rfl, hbg, hn, rfl⟩ :=
    allocate_event rfl hinv hchunks (by omega) (by omega) hok
  rw [← tryAllocateAt_crosses rfl hinv hchunks (by omega) (by omega) hi htry, Nat.not_lt]
  constructor
  · rintro ⟨e, he, hin⟩
    obtain rfl := List.singleton_inj.mp (List.append_cancel_left he)
    exact hin.2.2.2.2.1
  · intro hle
    refine ⟨_, rfl, rfl, rfl, hbg, (SuperBlock.Ico_subset_groupBlocks hn).mpr hle, hle,
      fun blk pos hpos' hlen => ?_⟩
    rw [Transaction.bitAt_setBitmap (Or.inl (by omega)), if_neg (by omega)]

/-! ## Free chunks on both sides of a group's end -/

section Boundary

open BlockRuns (twoFree oneFree allocatedEight allocate_twoFree mounted_twoFree)

theorem chunksInGroups_twoFree : twoFree.ChunksInGroups := by
  intro s o hs
  refine ⟨0, by decide, fun x hx => ?_⟩
  obtain ⟨⟨-, hlt⟩, -⟩ := mounted_twoFree.free x ⟨s, o, hs, hx.1, hx.2⟩
  exact ⟨Nat.zero_le x, hlt⟩

theorem allocate_inGroup_iff_twoFree :
    (∃ e, [allocatedEight] = [] ++ [e] ∧ twoFree.InGroup 12 8 1 e) ↔ ¬ twoFree.Crosses 1 100 :=
  allocate_inGroup_iff mounted_twoFree.buddy chunksInGroups_twoFree (by decide) (by decide)
    (by decide) allocate_twoFree

/-- Two groups of 4096-byte blocks; the last four blocks of the first and the first four
    of the second are free. -/
def boundaryFree : FileSystem where
  blkSize := 4096
  sb := { twoFree.sb with bgCount := 2, bgCount_lt := SuperBlock.twoGroups_lt }
  blockGroups := fun g =>
    if g < 2 then some { blockBitmapLba := 2 + g, blocksCount := 32768, freeBlocksCount := 4 }
    else none
  buddies := ((Block.BlockGroupBuddy.new 15).setEntry 32764 2).setEntry 32768 2
  blocks := fun _ => none

theorem inv_boundaryFree : boundaryFree.buddies.Inv := by
  obtain ⟨b, hb, hinv, -, hfree⟩ := Block.BlockGroupBuddy.pushChunk_spec
    (Block.BlockGroupBuddy.new_inv 15) (show 32764 + 4 ≤ 2 ^ 64 - 1 by decide)
    (by rw [Block.BlockGroupBuddy.new_free]; exact Set.disjoint_empty _)
  rw [Block.BlockGroupBuddy.new_free, Set.empty_union] at hfree
  obtain ⟨b', hb', hinv', -⟩ := Block.BlockGroupBuddy.pushChunk_spec hinv
    (show 32768 + 4 ≤ 2 ^ 64 - 1 by decide)
    (by
      rw [hfree, Set.disjoint_left]
      rintro x ⟨h1, -⟩ ⟨-, h2⟩
      omega)
  rw [show 4 = 2 ^ 2 from rfl, Block.BlockGroupBuddy.pushChunk_two_pow _ _ _ (by decide)] at hb
  cases hb
  rw [show 4 = 2 ^ 2 from rfl, Block.BlockGroupBuddy.pushChunk_two_pow _ _ _ (by decide)] at hb'
  cases hb'
  exact hinv'

theorem chunksInGroups_boundaryFree : boundaryFree.ChunksInGroups := by
  intro s o hs
  simp only [boundaryFree, Block.BlockGroupBuddy.setEntry, Function.update_apply] at hs
  split at hs
  next h8 =>
    cases hs
    exact ⟨1, by decide, by subst h8; exact Set.Ico_subset_Ico (by decide) (by decide)⟩
  next =>
    split at hs
    next h4 =>
      cases hs
      exact ⟨0, by decide, by subst h4; exact Set.Ico_subset_Ico (by decide) (by decide)⟩
    next => cases hs

/-- Eight blocks asked for at the last four blocks of the first group: the range ends in
    the second group, and its event has bits 32764 to 32771 of the first. -/
theorem allocate_crosses_boundary :
    boundaryFree.buddies.Inv ∧ boundaryFree.ChunksInGroups ∧
    ∃ fs' e, boundaryFree.allocate [] 12 8 32764 = (.ok (32764, 8), fs', [e]) ∧
      e = .blockAllocationOnBg 12 0 2 32764 8 ∧ ¬ boundaryFree.InGroup 12 32764 8 e := by
  have htry : boundaryFree.buddies.tryAllocateAt 8 (some 32764) = .ok (some (32764, 8),
      (boundaryFree.buddies.eraseEntry 32764 2).eraseEntry 32768 2) := by
    simp [Block.BlockGroupBuddy.tryAllocateAt, Block.BlockGroupBuddy.chainFrom,
      Block.BlockGroupBuddy.takeChain, boundaryFree, Block.BlockGroupBuddy.setEntry,
      Block.BlockGroupBuddy.eraseEntry, Block.BlockGroupBuddy.new]
  have hinto : boundaryFree.sb.intoBgidIndex 32764 = some (0, 32764) := by decide
  have hbg : boundaryFree.blockGroups 0 =
    some { blockBitmapLba := 2, blocksCount := 32768, freeBlocksCount := 4 } := rfl
  have hfrom : boundaryFree.sb.fromBgidIndex 0 32764 = 32764 := by decide
  have hmin : min 8 (boundaryFree.blkSize * 4) = 8 := by decide
  refine ⟨inv_boundaryFree, chunksInGroups_boundaryFree, ?_⟩
  have hall : ∃ fs', boundaryFree.allocate [] 12 8 32764 =
      (.ok (32764, 8), fs', [.blockAllocationOnBg 12 0 2 32764 8]) := by
    simp only [FileSystem.allocate, hmin, htry, hinto, FileSystem.getBlockGroup, hbg, hfrom]
    exact ⟨_, rfl⟩
  obtain ⟨fs', hall⟩ := hall
  exact ⟨fs', _, hall, rfl, fun h => absurd h.2.2.2.2.1 (by decide)⟩

end Boundary

end FileSystem
end RustExt4
