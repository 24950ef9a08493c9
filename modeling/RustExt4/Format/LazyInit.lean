/-
  RustExt4.Format.LazyInit

  The groups that `fill_bg` leaves for later (`BLOCK_UNINIT`, `INODE_UNINIT`): it writes
  their descriptors only, and `BlockGroup::verify` (`block_group/mod.rs`) builds the bitmaps
  when a group is loaded for the first time.  The two were written apart, one with block
  numbers and one with positions in the bitmap.  Where `first_data_block` is 0 they agree,
  and the clear bits are as many as the descriptor says.
-/
import RustExt4.Format.Marks
import Mathlib.Order.Interval.Finset.Nat

namespace RustExt4.Format

open ExceptRun
open Inode (setCompoundU64 setCompoundU32 getCompoundU64)
open Transaction (bitAt)

/-! ## `BlockGroup::from_disk` -/

def flagInodeUninit : Nat := 0x1
def flagBlockUninit : Nat := 0x2
def flagItableZeroed : Nat := 0x4

/-- What `verify` and its callers see of a `BlockGroup`, with the flags of its descriptor. -/
structure LoadedGroup where
  inodeTableFirstBlock : Nat
  blockBitmapLba : Nat
  inodeBitmapLba : Nat
  freeBlocksCount : Nat
  flags : Nat

def LoadedGroup.fromRaw (sb : DescriptorSb) (raw : Bytes) : LoadedGroup where
  inodeTableFirstBlock := getCompoundU64 raw 0x8 0x28 sb.isBg64
  blockBitmapLba := getCompoundU64 raw 0x0 0x20 sb.isBg64
  inodeBitmapLba := getCompoundU64 raw 0x4 0x24 sb.isBg64
  freeBlocksCount := ByteRw.getCompoundU32 raw 0xC 0x2C sb.isBg64
  flags := ByteRw.readU16 raw 0x12

/-- `from_disk` up to `verify`, on the bytes of the descriptor. -/
def readGroup {blk : BlockSize} (C : Config blk) (sb : DescriptorSb) (dev : C.Dev) (bgid : Nat) :
    Except Fault LoadedGroup := do
  let b ← C.readBlock dev (sb.intoLbaIndex bgid).1
  return .fromRaw sb (LeBytes.slice b (sb.intoLbaIndex bgid).2 sb.blockDescSize)

/-! ## `BlockGroup::verify` -/

section Verify
variable {blk : BlockSize} (sb : DescriptorSb)

/-- The block bitmap that `verify` makes of the buffer it gets. -/
def verifyBlockBitmap (bgid : Nat) (bitmap : Bytes) : Except Fault Bytes := do
  let descBlocks := divCeil (sb.blockDescSize * sb.bgCount) sb.blkSize
  let inodeBlocks := divCeil (sb.inodesPerGroup * sb.inodeSize) sb.blkSize
  let base := sb.firstDataBlock + descBlocks + 1 + if sb.isSuperInBg bgid then 1 else 0
  let bitmap ← if sb.isSuperInBg bgid then
      ByteRw.setBitmap bitmap 0 (1 + sb.firstDataBlock + descBlocks)
    else pure bitmap
  -- Set block bitmap, inode bitmap, inode table as used block.
  let bitmap ← ByteRw.setBitmap bitmap base (base + 1 + inodeBlocks + 1)
  let padBack := (bgid + 1) * sb.blocksPerGroup - sb.blocksCount
  let end_ ← checkedSub sb.blocksPerGroup padBack
  -- Set end of block bitmap. kill 1) unusable 2) padding.
  ByteRw.setBitmap bitmap end_ (blk * 8)

/-- The end of `verify`: the flags of a group that was not initialized are cleared in its
    descriptor. -/
def verifyDesc (csum : Bytes → Nat) (flags : Nat) (raw : Bytes) : Bytes :=
  if containsFlag flags flagBlockUninit || containsFlag flags flagInodeUninit then
    let raw := ByteRw.writeU16 raw 0x12 0
    ByteRw.writeU16 raw 0x1E (csum raw)
  else raw

/-- `verify`: the blocks that it writes, with their new contents, and the bytes of the
    descriptor.  `noload` is what `get_mut_noload` gives for a block: zeros, unless the cache
    has the block. -/
def verify (csum : Bytes → Nat) (bgid : Nat) (bg : LoadedGroup) (raw : Bytes)
    (noload : Nat → Bytes) : Except Fault (List (Nat × Bytes) × Bytes) := do
  let blocks ← if containsFlag bg.flags flagBlockUninit then do
      let bitmap ← @verifyBlockBitmap blk sb bgid (noload bg.blockBitmapLba)
      pure [(bg.blockBitmapLba, bitmap)]
    else pure []
  let inodes ← if containsFlag bg.flags flagInodeUninit then do
      let bitmap ← ByteRw.setBitmap (noload bg.inodeBitmapLba) sb.inodesPerGroup (blk * 8)
      let table := if containsFlag bg.flags flagItableZeroed then []
        else List.range' bg.inodeTableFirstBlock
          (divCeil (sb.inodesPerGroup * sb.inodeSize) sb.blkSize)
      pure ((bg.inodeBitmapLba, bitmap) :: table.map fun lba => (lba, noload lba))
    else pure []
  return (blocks ++ inodes, verifyDesc csum bg.flags raw)

end Verify

/-! ## The bytes of a descriptor -/

section Descriptors
variable {raw raw' : Bytes} {lo hi v : Nat}

theorem setCompoundU64_eq (h : setCompoundU64 raw lo hi false v = some raw') (hv : v < 2 ^ 64) :
    v < 2 ^ 32 ∧ raw' = ByteRw.writeU32 raw lo v := by
  rw [setCompoundU64, if_neg Bool.false_ne_true] at h
  split at h
  next hhigh =>
    obtain rfl := Option.some.inj h
    simp only [splitU64] at hhigh ⊢
    have hlt : v < 2 ^ 32 := by omega
    exact ⟨hlt, by rw [Nat.mod_eq_of_lt hlt]⟩
  next => cases h

theorem setCompoundU32_eq (h : setCompoundU32 raw lo hi false v = some raw') :
    v < 2 ^ 16 ∧ raw' = ByteRw.writeU16 raw lo v := by
  rw [setCompoundU32, if_neg Bool.false_ne_true] at h
  split at h
  next hhigh =>
    obtain rfl := Option.some.inj h
    have hlt : v < 2 ^ 16 := by omega
    exact ⟨hlt, by rw [Nat.mod_eq_of_lt hlt]⟩
  next => cases h

/-- The setters of `fill_bg` write different bytes, and none of them the flags. -/
theorem reads_of_writes (hlen : raw.length = 32) (v0 v4 v8 vC vE v10 v1C : Nat)
    (hraw' : raw' = ByteRw.writeU16 (ByteRw.writeU16 (ByteRw.writeU16 (ByteRw.writeU16
      (ByteRw.writeU32 (ByteRw.writeU32 (ByteRw.writeU32 raw 0x0 v0) 0x4 v4) 0x8 v8)
        0xC vC) 0xE vE) 0x10 v10) 0x1C v1C) :
    raw'.length = 32 ∧ ByteRw.readU32 raw' 0x0 = v0 % 2 ^ 32 ∧
      ByteRw.readU32 raw' 0x4 = v4 % 2 ^ 32 ∧ ByteRw.readU32 raw' 0x8 = v8 % 2 ^ 32 ∧
      ByteRw.readU16 raw' 0xC = vC % 2 ^ 16 ∧
      ByteRw.readU16 raw' 0x12 = ByteRw.readU16 raw 0x12 := by
  rw [hraw']
  refine ⟨by simp [hlen], ?_, ?_, ?_, ?_, ?_⟩ <;>
    simp (disch := first | omega | simp [hlen]) only [ByteRw.readU32_writeU16_ne,
      ByteRw.readU32_writeU32_ne, ByteRw.readU16_writeU16_ne, ByteRw.readU16_writeU32_ne,
      ByteRw.readU32_writeU32, ByteRw.readU16_writeU16]

/-- What is read back of a descriptor. -/
theorem RawGroupDesc.set_reads {d : RawGroupDesc} {csum : Bytes → Nat}
    (h : d.set csum false raw = some raw') (hlen : raw.length = 32)
    (hblocks : d.blockBitmap < 2 ^ 64 ∧ d.inodeBitmap < 2 ^ 64 ∧ d.inodeTable < 2 ^ 64) :
    ByteRw.readU32 raw' 0x0 = d.blockBitmap ∧ ByteRw.readU32 raw' 0x4 = d.inodeBitmap ∧
      ByteRw.readU32 raw' 0x8 = d.inodeTable ∧ ByteRw.readU16 raw' 0xC = d.freeBlocksCount ∧
      ByteRw.readU16 raw' 0x12 = if d.isLazy then 0x3 else ByteRw.readU16 raw 0x12 := by
  obtain ⟨r1, h1, h⟩ := Option.bind_eq_some_iff.mp h
  obtain ⟨r2, h2, h⟩ := Option.bind_eq_some_iff.mp h
  obtain ⟨r3, h3, h⟩ := Option.bind_eq_some_iff.mp h
  obtain ⟨r4, h4, h⟩ := Option.bind_eq_some_iff.mp h
  obtain ⟨r5, h5, h⟩ := Option.bind_eq_some_iff.mp h
  obtain ⟨r6, h6, h⟩ := Option.bind_eq_some_iff.mp h
  obtain ⟨r7, h7, h⟩ := Option.bind_eq_some_iff.mp h
  obtain ⟨hv1, hr1⟩ := setCompoundU64_eq h1 hblocks.1
  obtain ⟨hv2, hr2⟩ := setCompoundU64_eq h2 hblocks.2.1
  obtain ⟨hv3, hr3⟩ := setCompoundU64_eq h3 hblocks.2.2
  obtain ⟨hv4, hr4⟩ := setCompoundU32_eq h4
  obtain ⟨-, hr5⟩ := setCompoundU32_eq h5
  obtain ⟨-, hr6⟩ := setCompoundU32_eq h6
  obtain ⟨-, hr7⟩ := setCompoundU32_eq h7
  rw [hr6, hr5, hr4, hr3, hr2, hr1] at hr7
  obtain ⟨hlen7, g0, g4, g8, gC, g12⟩ := reads_of_writes hlen _ _ _ _ _ _ _ hr7
  rw [Nat.mod_eq_of_lt hv1] at g0
  rw [Nat.mod_eq_of_lt hv2] at g4
  rw [Nat.mod_eq_of_lt hv3] at g8
  rw [Nat.mod_eq_of_lt hv4] at gC
  -- The flags and the checksum come last.
  obtain rfl := Option.some.inj h
  cases hlazy : d.isLazy with
  | false =>
      simp (disch := omega) only [Bool.false_eq_true, if_false, ByteRw.readU32_writeU16_ne,
        ByteRw.readU16_writeU16_ne]
      exact ⟨g0, g4, g8, gC, g12⟩
  | true =>
      simp (disch := omega) only [if_true, ByteRw.readU32_writeU16_ne,
        ByteRw.readU16_writeU16_ne, ByteRw.readU16_writeU16]
      exact ⟨g0, g4, g8, gC, by decide⟩

end Descriptors

/-! ## What the loop stores -/

/-- The bytes of a group's descriptor in the block map, zeros where it has no block yet. -/
def slot (blk : BlockSize) (sb : DescriptorSb) (m : List (Nat × Bytes)) (g : Nat) : Bytes :=
  LeBytes.slice ((m.lookup (sb.intoLbaIndex g).1).getD (List.replicate blk 0))
    (sb.intoLbaIndex g).2 32

/-- The groups below `n` have their descriptors, and the bytes of the others are zeros. -/
structure Described (blk : BlockSize) (csum : Nat → Bytes → Nat) (sb : DescriptorSb) (n : Nat)
    (m : List (Nat × Bytes)) : Prop where
  stored : ∀ g < n, ∃ free freeInodes unused,
    freeBlocks sb g (sb.blocksCount - g * sb.blocksPerGroup) = .ok free ∧
      (descOf sb g free freeInodes unused).set (csum g) false (List.replicate 32 0) =
        some (slot blk sb m g)
  fresh : ∀ g, n ≤ g → g < sb.bgsCount → slot blk sb m g = List.replicate 32 0

section Loop
variable {blk : BlockSize} {C : Config blk} {image : Nat → Bytes} {csum : Nat → Bytes → Nat}
  {sb : DescriptorSb} {g : Nat} {st st' : FillState C}

theorem Described.nil (hf : Formatted blk sb) : Described blk csum sb 0 [] where
  stored := fun g hg => absurd hg (Nat.not_lt_zero g)
  fresh := fun g _ hg => by
    obtain ⟨-, -, hidx⟩ := hf.descriptor hg
    have hlen : (sb.intoLbaIndex g).2 + 32 ≤ (List.replicate blk.val (0 : UInt8)).length := by
      rwa [List.length_replicate]
    rw [slot, List.lookup_nil, Option.getD_none]
    exact List.eq_replicate_iff.mpr ⟨LeBytes.length_slice hlen, fun b hb =>
      List.eq_of_mem_replicate (List.mem_of_mem_drop (List.mem_of_mem_take hb))⟩

/-- Filling a group stores its descriptor over the zeros, and no other. -/
theorem Described.step (hf : Formatted blk sb) (hg : g < sb.bgsCount) (hst : Filled sb g st)
    (hd : Described blk csum sb g st.blockMap) (h : fillGroup C image csum sb st g = .ok st') :
    Described blk csum sb (g + 1) st'.blockMap := by
  obtain ⟨free, fi, unused, m, hfree, hm, hm', -⟩ := fillGroup_eq_ok h
  obtain ⟨hstart, -⟩ := startBlock_bounds sb g
  obtain ⟨hmap, hkeep, -, -⟩ := hst.own hf hm
  rw [hst.totalBlocks] at hfree
  -- The group's own blocks are behind the descriptors.
  have hm0 : ∀ g' < sb.bgsCount, slot blk sb m g' = slot blk sb st.blockMap g' := by
    intro g' hg'
    obtain ⟨-, hle, -⟩ := hf.descriptor hg'
    rw [slot, slot, hkeep _ (by omega)]
  obtain ⟨-, -, hidx⟩ := hf.descriptor hg
  have hlen := hmap.length_getD (sb.intoLbaIndex g).1
  obtain ⟨b, hstore, -, hlook⟩ := modifyBlock_spec hmap (fun b b' hb hok => by
    rw [(storeDesc_spec hf.blockDescSize (hf.startBlock_lt hg) (by omega) hok).1, hb]) hm'
  obtain ⟨raw, hset, -, hslice, -⟩ :=
    storeDesc_slice hf.blockDescSize (hf.startBlock_lt hg) (by omega) hstore
  obtain ⟨-, -, hother⟩ :=
    storeDesc_spec hf.blockDescSize (hf.startBlock_lt hg) (by omega) hstore
  have hnew : slot blk sb st'.blockMap g = raw := by
    rw [slot, hlook, if_pos rfl, Option.getD_some, hslice]
  have hold : ∀ g' < sb.bgsCount, g' ≠ g →
      slot blk sb st'.blockMap g' = slot blk sb st.blockMap g' := by
    intro g' hg' hne
    rw [← hm0 g' hg', slot, slot, hlook]
    split
    next hsame =>
      -- The slices of two descriptors in one block are apart.
      obtain ⟨-, -, hidx'⟩ := hf.descriptor hg'
      rw [Option.getD_some, hsame, hother _ (by omega) (hf.descriptor_disjoint hne hsame)]
    next => rfl
  constructor
  · intro g' hg'
    rcases Nat.lt_succ_iff_lt_or_eq.mp hg' with hlt | rfl
    · rw [hold g' (by omega) (by omega)]
      exact hd.stored g' hlt
    · refine ⟨free, fi, unused, hfree, ?_⟩
      have hzero : LeBytes.slice ((m.lookup (sb.intoLbaIndex g').1).getD
          (List.replicate blk 0)) (sb.intoLbaIndex g').2 32 = List.replicate 32 0 :=
        (hm0 g' hg).trans (hd.fresh g' (Nat.le_refl _) hg)
      rw [hnew, ← hset, hzero]
  · intro g' hle hlt
    rw [hold g' hlt (by omega)]
    exact hd.fresh g' (by omega) hlt

/-- The descriptors on the device after `fill_bg`. -/
theorem fillBg_described {dev : C.Dev} (hf : Formatted blk sb)
    (h : fillBg C image csum sb dev = .ok st) :
    ∃ m, Described blk csum sb sb.bgsCount m ∧
      ∀ g < sb.bgsCount, ∃ b, C.readBlock st.dev (sb.intoLbaIndex g).1 = .ok b ∧
        slot blk sb m g = LeBytes.slice b (sb.intoLbaIndex g).2 32 := by
  unfold fillBg at h
  split at h
  · cases h
  · obtain ⟨st0, hfold, h⟩ := bind_eq_ok.mp h
    obtain ⟨dev', hwrite, h⟩ := bind_eq_ok.mp h
    obtain rfl := Except.ok.inj h
    obtain ⟨hfilled, hdesc⟩ := foldlM_range
      (I := fun n (st : FillState C) => Filled sb n st ∧ Described blk csum sb n st.blockMap)
      (fun g s s' hg hs hok => ⟨hs.1.step hf hg hok, hs.2.step hf hg hs.1 hok⟩)
      ⟨Filled.nil, Described.nil hf⟩ hfold
    refine ⟨st0.blockMap, hdesc, fun g hg => ?_⟩
    obtain ⟨b, hb, -⟩ := hfilled.desc g hg
    refine ⟨b, ?_, by rw [slot, hb, Option.getD_some]⟩
    show C.readBlock dev' _ = _
    rw [writeBlocks_spec hfilled.blockMap hwrite, hb]

end Loop

/-! ## A group that is loaded for the first time -/

/-- The blocks of a group that hold its superblock copy, group descriptors, its bitmaps or its
    inode table, by the superblock's rule and the descriptor `bg`. -/
def LoadedGroup.Occupies (sb : DescriptorSb) (g : Nat) (bg : LoadedGroup) (b : Nat) : Prop :=
  sb.isSuperInBg g = true ∧
      (b = sb.firstBgBlockNo g ∨
        b ∈ Set.Ioc (sb.firstBgBlockNo g) (sb.firstBgBlockNo g + sb.descBlocks)) ∨
    b = bg.blockBitmapLba ∨ b = bg.inodeBitmapLba ∨
    b ∈ Set.Ico bg.inodeTableFirstBlock (bg.inodeTableFirstBlock + sb.inodeBlocks)

/-- The bitmap has the bits of the occupied blocks, and as many clear ones as the descriptor
    counts. -/
def LoadedGroup.Agrees (sb : DescriptorSb) (g : Nat) (bg : LoadedGroup) (bitmap : Bytes) : Prop :=
  (∀ i < sb.blocksPerGroup,
    bitAt bitmap i = true ↔ bg.Occupies sb g (sb.firstBgBlockNo g + i)) ∧
  ((Finset.range sb.blocksPerGroup).filter fun i => bitAt bitmap i = false).card =
    bg.freeBlocksCount

section Lazy
variable {blk : BlockSize} {sb : DescriptorSb} {g free : Nat}

/-- The descriptor that `fill_bg` writes is read with its own numbers. -/
theorem fromRaw_of_set {csum : Bytes → Nat} {raw : Bytes} {fi unused : Nat}
    (hf : Formatted blk sb) (hg : g < sb.bgsCount)
    (h : (descOf sb g free fi unused).set csum false (List.replicate 32 0) = some raw) :
    (LoadedGroup.fromRaw sb raw).blockBitmapLba = sb.startBlock g + 1 ∧
      (LoadedGroup.fromRaw sb raw).inodeBitmapLba = sb.startBlock g + 2 ∧
      (LoadedGroup.fromRaw sb raw).inodeTableFirstBlock = sb.startBlock g + 3 ∧
      (LoadedGroup.fromRaw sb raw).freeBlocksCount = free ∧
      containsFlag (LoadedGroup.fromRaw sb raw).flags flagBlockUninit = sb.isLazyInitBg g := by
  obtain ⟨g0, g4, g8, gC, g12⟩ := RawGroupDesc.set_reads h (by decide)
    ⟨hf.startBlock_add_lt hg (by decide), hf.startBlock_add_lt hg (by decide),
      hf.startBlock_add_lt hg (by decide)⟩
  have h64 : sb.isBg64 = false := by rw [DescriptorSb.isBg64, hf.blockDescSize]; rfl
  simp only [LoadedGroup.fromRaw, h64, getCompoundU64, ByteRw.getCompoundU32, g0, g4, g8, gC, g12]
  refine ⟨by simp [mergeU32, descOf], by simp [mergeU32, descOf], by simp [mergeU32, descOf],
    by simp [descOf], ?_⟩
  show containsFlag (if sb.isLazyInitBg g then _ else _) _ = _
  cases sb.isLazyInitBg g <;> decide

/-- The clear positions below `n` when the set ones are two runs. -/
theorem card_clear {f : Nat → Bool} {n a lo hi : Nat}
    (hset : ∀ i < n, f i = true ↔ i < a ∨ lo ≤ i ∧ i < hi) (ha : a ≤ lo) (hlo : lo ≤ hi)
    (hhi : hi ≤ n) :
    ((Finset.range n).filter fun i => f i = false).card + (a + (hi - lo)) = n := by
  -- The bits set are those of the two ranges, and the ranges are apart.
  have htrue : ((Finset.range n).filter fun i => f i = true) =
      Finset.range a ∪ Finset.Ico lo hi := by
    ext i
    rw [Finset.mem_filter, Finset.mem_union, Finset.mem_range, Finset.mem_range, Finset.mem_Ico]
    constructor
    · rintro ⟨hi, hbit⟩
      exact (hset i hi).mp hbit
    · intro h
      have hlt : i < n := by omega
      exact ⟨hlt, (hset i hlt).mpr h⟩
  have hdisj : Disjoint (Finset.range a) (Finset.Ico lo hi) := by
    rw [Finset.disjoint_left]
    intro i h1 h2
    rw [Finset.mem_range] at h1
    rw [Finset.mem_Ico] at h2
    omega
  have hsum := Finset.card_filter_add_card_filter_not (s := Finset.range n) (fun i => f i = true)
  rw [htrue, Finset.card_union_of_disjoint hdisj, Finset.card_range, Finset.card_range,
    Nat.card_Ico] at hsum
  simp only [Bool.not_eq_true] at hsum
  omega

/-- A group that is left for later lies inside of the device. -/
theorem Formatted.lazy_end (hf : Formatted blk sb) (hfdb : sb.firstDataBlock = 0)
    (hg : g < sb.bgsCount) (hlazy : sb.isLazyInitBg g = true) :
    sb.bgCount = sb.bgsCount ∧ g ≠ sb.bgsCount - 1 ∧
      (g + 1) * sb.blocksPerGroup ≤ sb.blocksCount := by
  have hcount : sb.bgCount = sb.bgsCount := by
    rw [hf.bgCount, DescriptorSb.bgsCount, hfdb, Nat.sub_zero]
  have hlast : g ≠ sb.bgCount - 1 := by
    simp only [DescriptorSb.isLazyInitBg, Bool.decide_and, Bool.and_eq_true,
      decide_eq_true_eq] at hlazy
    exact hlazy.2
  have hblk := blk.le
  have hlt : g + 1 < divCeil sb.blocksCount sb.blocksPerGroup := by
    have hmod := Nat.mod_le (divCeil sb.blocksCount sb.blocksPerGroup) (2 ^ 32)
    rw [← hf.bgCount] at hmod
    omega
  have hpos : 0 < sb.blocksPerGroup := by rw [hf.blocksPerGroup]; omega
  have hmul := (Nat.le_div_iff_mul_le hpos).mp (Nat.succ_le_of_lt hlt)
  rw [Nat.succ_mul] at hmul
  exact ⟨hcount, hcount ▸ hlast, by omega⟩

/-- Its free blocks are those of a whole group without its own. -/
theorem freeBlocks_lazy (hf : Formatted blk sb) (hlast : g ≠ sb.bgsCount - 1)
    (hend : (g + 1) * sb.blocksPerGroup ≤ sb.blocksCount)
    (h : freeBlocks sb g (sb.blocksCount - g * sb.blocksPerGroup) = .ok free) :
    free + (sb.inodeBlocks + 2 + if sb.isSuperInBg g then 1 + sb.descBlocks else 0) =
      sb.blocksPerGroup := by
  have hblk := blk.le
  have hbpg := hf.blocksPerGroup
  rw [Nat.succ_mul] at hend
  have hmin : min (sb.blocksCount - g * sb.blocksPerGroup) sb.blocksPerGroup % 2 ^ 32 =
      sb.blocksPerGroup := by
    rw [Nat.min_eq_right (by omega), Nat.mod_eq_of_lt (by omega)]
  rw [freeBlocks_eq, hmin, if_neg hlast, Nat.mod_eq_of_lt hf.descBlocks_lt] at h
  obtain ⟨hle, rfl⟩ := checkedSub_eq_ok h
  omega

theorem verifyBlockBitmap_eq (b : Bytes) : @verifyBlockBitmap blk sb g b =
    (if sb.isSuperInBg g then ByteRw.setBitmap b 0 (1 + sb.firstDataBlock +
      divCeil (sb.blockDescSize * sb.bgCount) sb.blkSize) else pure b) >>= fun b1 =>
    ByteRw.setBitmap b1
      (sb.firstDataBlock + divCeil (sb.blockDescSize * sb.bgCount) sb.blkSize + 1 +
        if sb.isSuperInBg g then 1 else 0)
      ((sb.firstDataBlock + divCeil (sb.blockDescSize * sb.bgCount) sb.blkSize + 1 +
        if sb.isSuperInBg g then 1 else 0) + 1 +
          divCeil (sb.inodesPerGroup * sb.inodeSize) sb.blkSize + 1) >>= fun b2 =>
    checkedSub sb.blocksPerGroup ((g + 1) * sb.blocksPerGroup - sb.blocksCount) >>= fun end_ =>
    ByteRw.setBitmap b2 end_ (blk * 8) := by
  dsimp only [verifyBlockBitmap]
  split <;> rfl

/-- `verify` sets the positions of the group's own blocks, in two runs. -/
theorem verifyBlockBitmap_spec {b : Bytes} (hlen : b.length = blk.val) (hf : Formatted blk sb)
    (hfdb : sb.firstDataBlock = 0) (hcount : sb.bgCount = sb.bgsCount)
    (htable : divCeil (sb.inodesPerGroup * sb.inodeSize) sb.blkSize = sb.inodeBlocks)
    (hroom : sb.descBlocks + 4 + sb.inodeBlocks ≤ sb.blocksPerGroup)
    (hend : (g + 1) * sb.blocksPerGroup ≤ sb.blocksCount) :
    ∃ b', @verifyBlockBitmap blk sb g b = .ok b' ∧ ∀ q < blk.val * 8, bitAt b' q =
      if sb.startBlock g + 1 ≤ g * sb.blocksPerGroup + q ∧
          g * sb.blocksPerGroup + q < sb.startBlock g + 3 + sb.inodeBlocks then true
      else if sb.isSuperInBg g = true ∧ q < 1 + sb.descBlocks then true else bitAt b q := by
  have hbpg := hf.blocksPerGroup
  have hdesc : divCeil (sb.blockDescSize * sb.bgCount) sb.blkSize = sb.descBlocks := by
    rw [hcount]
    rfl
  -- The group is a whole one, so nothing is set behind its end.
  have hpad : checkedSub sb.blocksPerGroup ((g + 1) * sb.blocksPerGroup - sb.blocksCount) =
      .ok sb.blocksPerGroup := by
    rw [show (g + 1) * sb.blocksPerGroup - sb.blocksCount = 0 by omega]
    exact if_neg (Nat.not_lt_zero _)
  have hfirst : ∃ b1, (if sb.isSuperInBg g then
      ByteRw.setBitmap b 0 (1 + sb.firstDataBlock + sb.descBlocks) else pure b) = .ok b1 ∧
      b1.length = blk ∧ ∀ q, bitAt b1 q =
        if sb.isSuperInBg g = true ∧ q < 1 + sb.descBlocks then true else bitAt b q := by
    cases hsuper : sb.isSuperInBg g with
    | false => exact ⟨b, rfl, hlen, fun q => by simp⟩
    | true =>
        obtain ⟨b1, hok, hlen1, hbits⟩ :=
          @setBitmap_exists b 0 (1 + sb.firstDataBlock + sb.descBlocks) (Or.inr (by omega))
        refine ⟨b1, hok, hlen1.trans hlen, fun q => ?_⟩
        rw [hbits q, hfdb]
        simp
  obtain ⟨b1, h1, hlen1, hbits1⟩ := hfirst
  have hstart : sb.startBlock g =
      g * sb.blocksPerGroup + sb.descBlocks + if sb.isSuperInBg g then 1 else 0 := by
    rw [DescriptorSb.startBlock, hfdb, Nat.zero_add]
  have hsuper : (if sb.isSuperInBg g then 1 else 0) ≤ 1 := by split <;> decide
  rw [verifyBlockBitmap_eq, hdesc, htable, hpad, bind_of_ok h1, hfdb]
  generalize (if sb.isSuperInBg g then 1 else 0) = s at hstart hsuper
  obtain ⟨b2, h2, hlen2, hbits2⟩ := @setBitmap_exists b1 (0 + sb.descBlocks + 1 + s)
    (0 + sb.descBlocks + 1 + s + 1 + sb.inodeBlocks + 1) (Or.inr (by omega))
  obtain ⟨b3, h3, -, hbits3⟩ := @setBitmap_exists b2 sb.blocksPerGroup (blk * 8)
    (Or.inl (by omega))
  rw [bind_of_ok h2]
  refine ⟨b3, h3, fun q hq => ?_⟩
  have hiff : 0 + sb.descBlocks + 1 + s ≤ q ∧
        q < 0 + sb.descBlocks + 1 + s + 1 + sb.inodeBlocks + 1 ↔
      sb.startBlock g + 1 ≤ g * sb.blocksPerGroup + q ∧
        g * sb.blocksPerGroup + q < sb.startBlock g + 3 + sb.inodeBlocks := by omega
  rw [hbits3, if_neg (by omega), hbits2, hbits1]
  simp only [hiff]

/-- The inode table is far smaller than the range of its number of blocks. -/
theorem inodeBlocks_eq {totalSize : Nat} {aux : FormatAux}
    (haux : FormatAux.new totalSize blk = .ok aux) (hsb : makeSb aux = .ok sb) :
    divCeil (sb.inodesPerGroup * sb.inodeSize) sb.blkSize = sb.inodeBlocks := by
  obtain ⟨hsize, -, -, -, hlt, -⟩ := FormatAux.new_spec haux
  obtain ⟨-, -, -, hipg, hisize, hblksize, -⟩ := makeSb_spec hsb
  have hblk := blk.le
  refine (Nat.mod_eq_of_lt ?_).symm
  rw [hipg, hisize, hblksize, hsize]
  exact (Nat.div_lt_iff_lt_mul (by omega)).mpr (by omega)

/-- The bits of the group's own blocks are the bits of the blocks that its descriptor names. -/
theorem agrees_of_bits {bg : LoadedGroup} {bitmap : Bytes} (hfdb : sb.firstDataBlock = 0)
    (hlba : bg.blockBitmapLba = sb.startBlock g + 1 ∧ bg.inodeBitmapLba = sb.startBlock g + 2 ∧
      bg.inodeTableFirstBlock = sb.startBlock g + 3)
    (hfree : bg.freeBlocksCount +
      (sb.inodeBlocks + 2 + if sb.isSuperInBg g then 1 + sb.descBlocks else 0) = sb.blocksPerGroup)
    (hroom : sb.descBlocks + 4 + sb.inodeBlocks ≤ sb.blocksPerGroup)
    (hbits : ∀ q < sb.blocksPerGroup, bitAt bitmap q =
      if sb.startBlock g + 1 ≤ g * sb.blocksPerGroup + q ∧
          g * sb.blocksPerGroup + q < sb.startBlock g + 3 + sb.inodeBlocks then true
      else if sb.isSuperInBg g = true ∧ q < 1 + sb.descBlocks then true else false) :
    bg.Agrees sb g bitmap := by
  obtain ⟨hblock, hinode, htable⟩ := hlba
  -- The first range has the superblock and the descriptors, the second the group's own blocks.
  have hset : ∀ q < sb.blocksPerGroup, bitAt bitmap q = true ↔
      q < (if sb.isSuperInBg g then 1 + sb.descBlocks else 0) ∨
      sb.startBlock g + 1 - g * sb.blocksPerGroup ≤ q ∧
        q < sb.startBlock g + 3 + sb.inodeBlocks - g * sb.blocksPerGroup := by
    intro q hq
    have hstart := (startBlock_bounds sb g).1
    rw [hbits q hq]
    cases sb.isSuperInBg g <;> simp <;> omega
  have hstart : sb.startBlock g =
      g * sb.blocksPerGroup + sb.descBlocks + if sb.isSuperInBg g then 1 else 0 := by
    rw [DescriptorSb.startBlock, hfdb, Nat.zero_add]
  constructor
  · intro i hi
    rw [hset i hi, LoadedGroup.Occupies, hblock, hinode, htable, DescriptorSb.firstBgBlockNo,
      firstBgBlockNo, hfdb,
      Set.mem_Ioc, Set.mem_Ico]
    cases hsuper : sb.isSuperInBg g <;> rw [hsuper] at hstart <;> simp at hstart ⊢ <;> omega
  · have hle : (if sb.isSuperInBg g then 1 + sb.descBlocks else 0) ≤
        sb.startBlock g + 1 - g * sb.blocksPerGroup := by
      split <;> omega
    have hone : (if sb.isSuperInBg g then 1 else 0) ≤ 1 := by split <;> decide
    have hcard := card_clear hset hle (by omega) (by omega)
    omega

end Lazy

/-- For every group that `fill_bg` marks `BLOCK_UNINIT`, the bitmap that `verify` builds at the
    first load has the bits of the blocks that the descriptor and the superblock's rule give to
    the group, and the free blocks of the descriptor. -/
theorem verify_builds_layout {blk : BlockSize} {C : Config blk} {image : Nat → Bytes}
    {csum : Nat → Bytes → Nat} {sb : DescriptorSb} {dev : C.Dev} {st : FillState C}
    {totalSize : Nat} {aux : FormatAux} (hne : blk.val ≠ 1024)
    (haux : FormatAux.new totalSize blk = .ok aux) (hsb : makeSb aux = .ok sb)
    (hfill : fillBg C image csum sb dev = .ok st) :
    ∀ g < sb.bgsCount, ∃ bg, readGroup C sb st.dev g = .ok bg ∧
      containsFlag bg.flags flagBlockUninit = sb.isLazyInitBg g ∧
      (containsFlag bg.flags flagBlockUninit = true → ∀ vcsum raw, ∃ bitmap rest raw',
        @verify blk sb vcsum g bg raw (fun _ => List.replicate blk 0) =
          .ok ((bg.blockBitmapLba, bitmap) :: rest, raw') ∧ bg.Agrees sb g bitmap) := by
  intro g hg
  have hf := Formatted.of_makeSb haux hsb
  have hfdb : sb.firstDataBlock = 0 := hf.firstDataBlock.trans (if_neg hne)
  obtain ⟨m, hdesc, hread⟩ := fillBg_described hf hfill
  obtain ⟨st0, hfilled, -⟩ := fillBg_eq_ok hf hfill
  obtain ⟨b, hb, hslot⟩ := hread g hg
  obtain ⟨free, fi, unused, hfree, hset⟩ := hdesc.stored g hg
  obtain ⟨hblock, hinode, htable, hcount, hflag⟩ := fromRaw_of_set hf hg hset
  refine ⟨_, bind_of_ok hb _, ?_⟩
  rw [hf.blockDescSize, ← hslot]
  refine ⟨hflag, fun huninit vcsum raw => ?_⟩
  -- The first group has room for the descriptors besides its own blocks.
  have hroom : sb.descBlocks + 4 + sb.inodeBlocks ≤ sb.blocksPerGroup := by
    have hend := (hfilled.bitmap 0 hf.bgsCount_pos (by simp [DescriptorSb.isLazyInitBg])).2
    have hstart : sb.startBlock 0 = sb.descBlocks + 1 := by
      rw [DescriptorSb.startBlock, hf.superZero, hfdb, if_pos rfl]
      omega
    omega
  obtain ⟨hgroups, hlast, hend⟩ := hf.lazy_end hfdb hg (hflag.symm.trans huninit)
  have hwhole := freeBlocks_lazy hf hlast hend hfree
  obtain ⟨bitmap, hbitmap, hbits⟩ := verifyBlockBitmap_spec
    (b := List.replicate blk 0) (List.length_replicate ..) hf hfdb hgroups
    (inodeBlocks_eq haux hsb) hroom hend
  have hagrees : (LoadedGroup.fromRaw sb (slot blk sb m g)).Agrees sb g bitmap := by
    refine agrees_of_bits hfdb ⟨hblock, hinode, htable⟩ (hcount.symm ▸ hwhole) hroom
      fun q hq => ?_
    rw [hbits q (by rw [← hf.blocksPerGroup]; exact hq), bitAt_replicate]
  obtain ⟨b', hinodes, -⟩ := @setBitmap_exists (List.replicate blk.val 0) sb.inodesPerGroup
    (blk * 8) (Or.inr (by rw [List.length_replicate]; omega))
  have hverify : ∃ rest raw', @verify blk sb vcsum g (.fromRaw sb (slot blk sb m g)) raw
      (fun _ => List.replicate blk 0) =
        .ok (((LoadedGroup.fromRaw sb (slot blk sb m g)).blockBitmapLba, bitmap) :: rest,
          raw') := by
    dsimp only [verify]
    rw [if_pos huninit, bind_of_ok hbitmap]
    split
    · rw [pure_bind, bind_of_ok hinodes]
      exact ⟨_, _, rfl⟩
    · exact ⟨[], _, rfl⟩
  obtain ⟨rest, raw', hverify⟩ := hverify
  exact ⟨bitmap, rest, raw', hverify, hagrees⟩

/-- `FormatAux::new` of a device of three full groups of blocks of 2048 bytes. -/
def threeGroupsAux : FormatAux where
  blocksCnt := 49152
  inodesCnt := 12288
  blocksPerGroup := 16384
  firstDataBlock := 0
  inodesPerGroup := 4096
  blockSize := ⟨2048, by decide⟩
  blocksPerGroup_eq := rfl
  firstDataBlock_le := SuperBlock.zero_firstDataBlock_le

/-- The second of three groups is left for later. -/
theorem verify_builds_layout_threeGroups : ∃ sb, ∃ st : FillState (memConfig ⟨2048, by decide⟩),
    makeSb threeGroupsAux = .ok sb ∧
      fillBg (memConfig ⟨2048, by decide⟩) (fun _ => []) (fun _ _ => 0) sb (fun _ => []) = .ok st ∧
      ∃ bg bitmap, readGroup (memConfig ⟨2048, by decide⟩) sb st.dev 1 = .ok bg ∧
        containsFlag bg.flags flagBlockUninit = true ∧ bg.Agrees sb 1 bitmap := by
  have haux : FormatAux.new (49152 * 2048) ⟨2048, by decide⟩ = .ok threeGroupsAux := rfl
  have hnumbers : ∃ sb, makeSb threeGroupsAux = .ok sb ∧ sb.bgsCount = 3 ∧
      sb.isLazyInitBg 1 = true ∧ sb.firstDataBlock ≤ sb.blocksCount ∧
      (9 ≤ sb.inodesPerGroup ∧ sb.inodesPerGroup < 2 ^ 16) ∧
      ∀ g < 3, (∃ free ∈ [15868, 15870],
        freeBlocks sb g (sb.blocksCount - g * sb.blocksPerGroup) = .ok free) ∧
        itableUnused sb g = .ok 4095 ∧ sb.startBlock g + 3 < 2 ^ 32 ∧
        sb.startBlock g + 3 + sb.inodeBlocks ≤ (g + 1) * sb.blocksPerGroup :=
    ⟨_, rfl, by decide +kernel⟩
  obtain ⟨sb, hsb, hthree, hlazy, hcount, hipg, hgroups⟩ := hnumbers
  -- The numbers of the three groups are within the fields that take them.
  have hfits : ∀ g < sb.bgsCount, Fits sb g := by
    intro g hg
    obtain ⟨⟨free, -, hfree⟩, hunused, hstart, hroom⟩ := hgroups g (by omega)
    exact ⟨⟨free, hfree⟩, ⟨4095, by decide, hunused⟩, hstart, hroom⟩
  obtain ⟨st, hst⟩ := fillBg_exists (fun _ => []) (fun _ _ => 0) (fun _ => [])
    (Formatted.of_makeSb haux hsb) hipg hcount hfits
  obtain ⟨bg, hread, hflag, hbuilds⟩ :=
    verify_builds_layout (by decide) haux hsb hst 1 (by omega)
  obtain ⟨bitmap, -, -, -, hagrees⟩ := hbuilds (hflag.trans hlazy) (fun _ => 0) []
  exact ⟨sb, st, hsb, hst, bg, bitmap, hread, hflag.trans hlazy, hagrees⟩

end RustExt4.Format
