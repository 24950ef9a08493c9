/-
  RustExt4.Format.Fill

  The layout that `format` writes to a device (`format.rs`): the superblock of
  `make_sb`, and `fill_bg`, which runs over the block groups and collects the
  bitmaps, inode tables and group descriptors in a map of blocks.

  The bytes of the superblock and the checksum of a group descriptor are
  parameters here: the block with the superblock as a function of its count of
  free blocks, and the checksum as a function of the group and its descriptor.
-/
import RustExt4.Accessor
import RustExt4.Block.BuildBuddy
import RustExt4.Config
import RustExt4.Lib.SortedMap
import RustExt4.Transaction.Flush

namespace RustExt4

open Inode (setCompoundU64 setCompoundU32 getCompoundU64)
open Transaction (setBit forRange)

/-! ## Arithmetic -/

/-- `div_ceil` -/
def divCeil (a b : Nat) : Nat := (a + b - 1) / b

/-- A subtraction that panics below 0. -/
def checkedSub (a b : Nat) : Except Fault Nat :=
  if a < b then .error .panic else .ok (a - b)

namespace ByteRw

/-- `ByteRw::set_bitmap` of the positions `st..ed`; it panics past the buffer. -/
def setBitmap (b : Bytes) (st ed : Nat) : Except Fault Bytes :=
  if st < ed ∧ 8 * b.length < ed then .error .panic else .ok (forRange st ed setBit b)

end ByteRw

/-! ## `FormatAux::new` and `make_sb` -/

structure FormatAux where
  blocksCnt : Nat
  inodesCnt : Nat
  blocksPerGroup : Nat
  firstDataBlock : Nat
  inodesPerGroup : Nat
  blockSize : BlockSize
  blocksPerGroup_eq : blocksPerGroup = blockSize.val * 8
  firstDataBlock_le : firstDataBlock ≤ 1

/-- The division by the number of groups, the conversion to `u32` and the checked
    product can panic. -/
def FormatAux.new (totalSize : Nat) (blockSize : BlockSize) : Except Fault FormatAux :=
  let blocksCnt := totalSize / blockSize
  let blocksPerGroup := blockSize.val * 8
  let blockGroup := divCeil blocksCnt blocksPerGroup
  if blockGroup = 0 then .error .panic
  else
    let tmp := blocksCnt / blockGroup / 4
    let inodesPerGroup := divCeil tmp 16 * 16
    if 2 ^ 32 ≤ tmp ∨ 2 ^ 32 ≤ inodesPerGroup ∨ 2 ^ 32 ≤ inodesPerGroup * (blockGroup % 2 ^ 32)
    then .error .panic
    else .ok
      { blocksCnt := blocksCnt
        inodesCnt := inodesPerGroup * (blockGroup % 2 ^ 32)
        blocksPerGroup := blocksPerGroup
        firstDataBlock := if blockSize.val = 1024 then 1 else 0
        inodesPerGroup := inodesPerGroup
        blockSize := blockSize
        blocksPerGroup_eq := rfl
        firstDataBlock_le := by split <;> decide }

/-- `SPARSE_SUPER` -/
def featureSparseSuper : Nat := 0x1

/-- `META_BG` -/
def featureMetaBg : Nat := 0x10

/-- `make_sb`.  Nine inodes are reserved; the block count must fit the low half of its
    field, since `BIT64` is not set. -/
def makeSb (aux : FormatAux) : Except Fault DescriptorSb :=
  if aux.inodesCnt < 9 ∨ 2 ^ 32 ≤ aux.blocksCnt then .error .panic
  else .ok
    { isDirEntryVersion2 := true
      inodeSize := 256
      inodesPerGroup := aux.inodesPerGroup
      featuresIncompatible := 0x2 ||| 0x40
      featuresReadonly := featureSparseSuper ||| 0x2 ||| 0x10
      firstDataBlock := aux.firstDataBlock
      blocksPerGroup := aux.blocksPerGroup
      creatorOs := 0
      revLevel := 1
      bgCount := divCeil aux.blocksCnt aux.blocksPerGroup % 2 ^ 32
      wantExtraIsize := 0x20
      blocksCount := aux.blocksCnt
      inodesCount := aux.inodesCnt
      blockDescSize := 32
      blkSize := aux.blockSize
      firstDataBlock_le := aux.firstDataBlock_le
      blocksPerGroup_pos := by have := aux.blocksPerGroup_eq; have := aux.blockSize.le; omega
      blocksPerGroup_lt := by have := aux.blocksPerGroup_eq; have := aux.blockSize.le; omega
      bgCount_lt := Nat.mod_lt _ (by decide) }

/-! ## Places of a group -/

/-- The loop of `is_power_of_n`: at each turn `n` is divided by `v`. -/
def isPowerOfN : Nat → Nat → Nat → Bool
  | 0, _, _ => false
  | fuel + 1, n, v =>
    if n % v ≠ 0 then false
    else if n = v then true
    else if n < v then false
    else isPowerOfN fuel (n / v) v

/-- `sb_sparse`, with the features that it reads. -/
def sbSparse (featuresReadonly grp : Nat) : Bool :=
  if !containsFlag featuresReadonly featureSparseSuper then false
  else if grp ≤ 1 then true
  else if grp % 2 = 0 then false
  else isPowerOfN grp grp 3 || isPowerOfN grp grp 5 || isPowerOfN grp grp 7

/-- `is_super_in_bg` -/
def isSuperInBg (featuresReadonly bgid : Nat) : Bool :=
  !containsFlag featuresReadonly featureSparseSuper || sbSparse featuresReadonly bgid

/-- `first_bg_block_no` -/
def firstBgBlockNo (firstDataBlock blocksPerGroup bgid : Nat) : Nat :=
  bgid * blocksPerGroup + firstDataBlock

namespace DescriptorSb

variable (sb : DescriptorSb)

def isSuperInBg (bgid : Nat) : Bool := RustExt4.isSuperInBg sb.featuresReadonly bgid

def firstBgBlockNo (bgid : Nat) : Nat :=
  RustExt4.firstBgBlockNo sb.firstDataBlock sb.blocksPerGroup bgid

/-- `get_descriptor_block`, on a superblock whose `first_meta_bg` is 0 -/
def getDescriptorBlock (bgid dscPerBlock : Nat) : Nat :=
  if !containsFlag sb.featuresIncompatible featureMetaBg then
    sb.firstDataBlock + bgid / dscPerBlock + 1
  else if sb.isSuperInBg bgid then sb.firstBgBlockNo bgid + 1
  else sb.firstBgBlockNo bgid

/-- `BlockGroupId::into_lba_index` -/
def intoLbaIndex (bgid : Nat) : Nat × Nat :=
  let dscCnt := sb.blkSize / sb.blockDescSize
  (sb.getDescriptorBlock bgid dscCnt, bgid % dscCnt * sb.blockDescSize)

/-- `bgs_count` of `fill_bg` -/
def bgsCount : Nat := divCeil (sb.blocksCount - sb.firstDataBlock) sb.blocksPerGroup % 2 ^ 32

/-- `desc_blocks` -/
def descBlocks : Nat := divCeil (sb.blockDescSize * sb.bgsCount) sb.blkSize

/-- `inode_blocks` -/
def inodeBlocks : Nat := divCeil (sb.inodesPerGroup * sb.inodeSize) sb.blkSize % 2 ^ 32

/-- `start_block`, after the block of the superblock copy where the group has one -/
def startBlock (bgid : Nat) : Nat :=
  sb.firstDataBlock + bgid * sb.blocksPerGroup + sb.descBlocks +
    if sb.isSuperInBg bgid then 1 else 0

/-- `is_lazy_init_bg` -/
def isLazyInitBg (bgid : Nat) : Bool := bgid ≠ 0 ∧ bgid ≠ sb.bgCount - 1

end DescriptorSb

namespace Format

/-! ## The block map -/

/-- `block_map.entry(lba).or_insert_with(zeroed)`, changed by `f` -/
def modifyBlock (blk : BlockSize) (m : List (Nat × Bytes)) (lba : Nat)
    (f : Bytes → Except Fault Bytes) : Except Fault (List (Nat × Bytes)) := do
  let b ← f ((m.lookup lba).getD (List.replicate blk 0))
  return SortedMap.insert lba b m

/-- The fields that `fill_bg` sets in a group descriptor. -/
structure RawGroupDesc where
  blockBitmap : Nat
  inodeBitmap : Nat
  inodeTable : Nat
  freeBlocksCount : Nat
  freeInodesCount : Nat
  usedDirsCount : Nat
  itableUnused : Nat
  isLazy : Bool

/-- The setters of the descriptor's bytes, in the order of `fill_bg`. -/
def RawGroupDesc.set (d : RawGroupDesc) (csum : Bytes → Nat) (is64 : Bool) (raw : Bytes) :
    Option Bytes := do
  let raw ← setCompoundU64 raw 0x0 0x20 is64 d.blockBitmap
  let raw ← setCompoundU64 raw 0x4 0x24 is64 d.inodeBitmap
  let raw ← setCompoundU64 raw 0x8 0x28 is64 d.inodeTable
  let raw ← setCompoundU32 raw 0xC 0x2C is64 d.freeBlocksCount
  let raw ← setCompoundU32 raw 0xE 0x2E is64 d.freeInodesCount
  let raw ← setCompoundU32 raw 0x10 0x30 is64 d.usedDirsCount
  let raw ← setCompoundU32 raw 0x1C 0x32 is64 d.itableUnused
  let raw := if d.isLazy then ByteRw.writeU16 raw 0x12 (0x1 ||| 0x2) else raw
  return ByteRw.writeU16 raw 0x1E (csum raw)

/-- A descriptor stored in the bytes of its block from `index` on. -/
def storeDesc (sb : DescriptorSb) (csum : Bytes → Nat) (d : RawGroupDesc) (index : Nat)
    (b : Bytes) : Except Fault Bytes :=
  match d.set csum sb.isBg64 (LeBytes.slice b index sb.blockDescSize) with
  | none => .error .panic
  | some raw => .ok (LeBytes.splice b index raw)

/-! ## `fill_bg` -/

structure FillState {blk : BlockSize} (C : Config blk) where
  dev : C.Dev
  blockMap : List (Nat × Bytes)
  totalBlocks : Nat
  freeBlocksCount : Nat

section FillBg

variable {blk : BlockSize} (C : Config blk) (image : Nat → Bytes) (csum : Nat → Bytes → Nat)
  (sb : DescriptorSb)

/-- The inode bitmap of an eagerly initialized group. -/
def initInodeBitmap (bgid : Nat) (bitmap : Bytes) : Except Fault Bytes := do
  let bitmap ← if bgid = 0 then do
      let bitmap ← ByteRw.setBitmap bitmap 0 1
      ByteRw.setBitmap bitmap 2 10
    else pure bitmap
  ByteRw.setBitmap bitmap sb.inodesPerGroup (blk * 8)

/-- The block bitmap of an eagerly initialized group. -/
def initBlockBitmap (bgid padBack : Nat) (bitmap : Bytes) : Except Fault Bytes := do
  let ofs := sb.startBlock bgid - bgid * sb.blocksPerGroup
  let bitmap ← if sb.isSuperInBg bgid then
      ByteRw.setBitmap bitmap 0 (1 + sb.firstDataBlock + sb.descBlocks)
    else pure bitmap
  let bitmap ← ByteRw.setBitmap bitmap (ofs + 1) (ofs + 2 + sb.inodeBlocks + 1)
  ByteRw.setBitmap bitmap padBack (blk * 8)

/-- The blocks of an eagerly initialized group. -/
def initGroup (bgid padBack : Nat) (m : List (Nat × Bytes)) :
    Except Fault (List (Nat × Bytes)) := do
  let start := sb.startBlock bgid
  let m ← modifyBlock blk m (start + 2) (@initInodeBitmap blk sb bgid)
  let m ← (List.range' (start + 3) sb.inodeBlocks).foldlM
    (fun m lba => modifyBlock blk m lba pure) m
  modifyBlock blk m (start + 1) (@initBlockBitmap blk sb bgid padBack)

/-- `free_blocks` of a group with `total` blocks left on the device from it on. -/
def freeBlocks (bgid total : Nat) : Except Fault Nat := do
  let n ← checkedSub (min total sb.blocksPerGroup % 2 ^ 32) sb.inodeBlocks
  let n ← checkedSub n (if bgid = sb.bgsCount - 1 then 2 + sb.firstDataBlock else 2)
  checkedSub n (if sb.isSuperInBg bgid then 1 + sb.descBlocks % 2 ^ 32 else 0)

def itableUnused (bgid : Nat) : Except Fault Nat := do
  let n ← if sb.bgsCount - 1 = bgid then
      if 2 ^ 32 ≤ sb.inodesPerGroup * (sb.bgsCount - 1) then throw .panic
      else checkedSub sb.inodesCount (sb.inodesPerGroup * (sb.bgsCount - 1))
    else pure sb.inodesPerGroup
  checkedSub n 1

/-- The body of the loop over the groups. -/
def fillGroup (st : FillState C) (bgid : Nat) : Except Fault (FillState C) := do
  let start := sb.startBlock bgid
  let free ← freeBlocks sb bgid st.totalBlocks
  let freeInodes ← if bgid = 0 then checkedSub sb.inodesPerGroup 9 else pure sb.inodesPerGroup
  let m ← if sb.isLazyInitBg bgid then pure st.blockMap
    else @initGroup blk sb bgid (min st.totalBlocks sb.blocksPerGroup) st.blockMap
  let dev ← if sb.isSuperInBg bgid ∧ bgid ≠ 0 then
      C.writeBlock st.dev (sb.firstDataBlock + bgid * sb.blocksPerGroup) (image st.freeBlocksCount)
    else pure st.dev
  let unused ← itableUnused sb bgid
  let m ← modifyBlock blk m (sb.intoLbaIndex bgid).1
    (storeDesc sb (csum bgid) ⟨start + 1, start + 2, start + 3, free, freeInodes, 0, unused,
      sb.isLazyInitBg bgid⟩ (sb.intoLbaIndex bgid).2)
  if 2 ^ 32 ≤ st.freeBlocksCount + free then throw .panic
  return ⟨dev, m, st.totalBlocks - sb.blocksPerGroup, st.freeBlocksCount + free⟩

/-- The loop that writes the collected blocks to the device. -/
def writeBlocks (m : List (Nat × Bytes)) (dev : C.Dev) : Except Fault C.Dev :=
  m.foldlM (fun dev x => C.writeBlock dev x.1 x.2) dev

/-- `fill_bg`.  The map of blocks is kept in the result. -/
def fillBg (dev : C.Dev) : Except Fault (FillState C) := do
  if sb.blocksCount < sb.firstDataBlock then throw .panic
  let st ← (List.range sb.bgsCount).foldlM (fillGroup C image csum sb) ⟨dev, [], sb.blocksCount, 0⟩
  let dev ← writeBlocks C st.blockMap st.dev
  return { st with dev := dev }

end FillBg

/-! ## Loading a group -/

/-- `BlockGroup::from_disk` of a group without flags, `verify` included. -/
def fromDisk {blk : BlockSize} (C : Config blk) (sb : DescriptorSb) (dev : C.Dev) (bgid : Nat) :
    Except Fault BlockGroup := do
  let b ← C.readBlock dev (sb.intoLbaIndex bgid).1
  let raw := LeBytes.slice b (sb.intoLbaIndex bgid).2 sb.blockDescSize
  return {
    blockBitmapLba := getCompoundU64 raw 0x0 0x20 sb.isBg64
    blocksCount := sb.blocksPerGroup
    freeBlocksCount := ByteRw.getCompoundU32 raw 0xC 0x2C sb.isBg64 }

/-- `Manager::build_buddy` of a group on the device: the chunks that it pushes. -/
def buildBuddy {blk : BlockSize} (C : Config blk) (sb : DescriptorSb) (dev : C.Dev)
    (bgid : Nat) : Except Fault (List (Nat × Nat)) := do
  let bg ← fromDisk C sb dev bgid
  let bitmap ← C.readBlock dev bg.blockBitmapLba
  Block.buildBuddy sb.toSuperBlock bgid bitmap bg.blocksCount

end Format
end RustExt4
