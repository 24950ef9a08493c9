/-
  RustExt4.Transaction.Flush

  The write-back of a compressed transaction (`transaction/event.rs`, `flush`):
  one update of each group descriptor with a delta, the operations on inode
  records in order, and one update of the superblock.

  A group descriptor is the record of its counters.  Its counters are `u32`, and
  where the descriptors have the short form the setter asserts that the high half
  is 0.  The descriptor's checksum and its read-only fields are left out.
-/
import RustExt4.Transaction.Deltas
import RustExt4.Superblock.OrphanList

namespace RustExt4

/-- The superblock fields that the write-back reads besides. -/
structure DescriptorSb extends SuperBlock where
  blocksCount : Nat
  inodesCount : Nat
  blockDescSize : Nat
  blkSize : Nat

namespace DescriptorSb

/-- `is_bg_64` -/
def isBg64 (sb : DescriptorSb) : Bool := decide (64 ≤ sb.blockDescSize)

/-- The bits of a descriptor's counters. -/
def counterBits (sb : DescriptorSb) : Nat := if sb.isBg64 then 32 else 16

/-- The number of inodes of a group, from the block count of the superblock; a
    subtraction or a product out of range panics. -/
def inodesInBg (sb : DescriptorSb) (bgid : Nat) : Except Fault Nat :=
  if sb.blocksCount < sb.firstDataBlock then .error .panic
  else
    let bgsCount := ((sb.blocksCount - sb.firstDataBlock + sb.blocksPerGroup - 1) /
      sb.blocksPerGroup) % 2 ^ 32
    if bgsCount = 0 then .error .panic
    else if bgsCount - 1 = bgid then
      if sb.inodesCount < sb.inodesPerGroup * (bgsCount - 1) then .error .panic
      else .ok (sb.inodesCount - sb.inodesPerGroup * (bgsCount - 1))
    else .ok sb.inodesPerGroup

end DescriptorSb

namespace Transaction

open Inode

/-- The counters of a group descriptor. -/
structure GroupDesc where
  freeBlocksCount : Nat
  freeInodesCount : Nat
  usedDirsCount : Nat
  itableUnused : Nat
  deriving DecidableEq, Repr

/-- What a commit changes before the postludes: the cached blocks on their way to the
    disk, and the orphan list in memory.  `descs`, `blocks` and `inodes` are `none` where
    a block cannot be read. -/
structure Disk where
  descs : Nat → Option GroupDesc
  blocks : Nat → Option Bytes
  /-- the records of the inode tables by number -/
  inodes : Nat → Option Bytes
  orphanedInode : Nat → Option (Nat × Nat)
  /-- the counters of the superblock -/
  freeBlocksCount : Nat
  freeInodesCount : Nat
  lastOrphan : Nat

/-! ## Group descriptors -/

/-- `cnt.try_into().unwrap()` and the setter of a field of `bits` bits. -/
def toCounter (bits : Nat) (cnt : Int) : Except Fault Nat :=
  if 0 ≤ cnt ∧ cnt < 2 ^ bits then .ok cnt.toNat else .error .panic

/-- The update of `itable_unused` for an allocated index. -/
def useInode (bits inodesInBg idx unused : Nat) : Except Fault Nat :=
  if inodesInBg < unused then .error .panic
  else if inodesInBg - unused ≤ idx then
    if inodesInBg ≤ idx then .error .panic else toCounter bits (inodesInBg - idx - 1 : Nat)
  else .ok unused

/-- The part of `submit_block_group` on `itable_unused`. -/
def submitUnused (sb : DescriptorSb) (bgid : Nat) (maxAllocIdxInBg : Option Nat) (unused : Nat) :
    Except Fault Nat :=
  match maxAllocIdxInBg with
  | none => .ok unused
  | some idx =>
    match sb.inodesInBg bgid with
    | .error e => .error e
    | .ok n => useInode sb.counterBits n idx unused

/-- The guard of `submit_block_group`. -/
def BgDelta.IsZero (d : BgDelta) : Prop :=
  d.freeBlocksCntDelta = 0 ∧ d.freeInodesCntDelta = 0 ∧ d.usedDirsCntDelta = 0

instance (d : BgDelta) : Decidable d.IsZero := inferInstanceAs (Decidable (_ ∧ _ ∧ _))

/-- `submit_block_group` on the descriptor of group `bgid`. -/
def submitBlockGroup (sb : DescriptorSb) (bgid : Nat) (d : BgDelta) (desc : GroupDesc) :
    Except Fault GroupDesc :=
  if d.IsZero then .ok desc
  else
    (submitUnused sb bgid d.maxAllocIdxInBg desc.itableUnused).bind fun unused =>
    (toCounter sb.counterBits (desc.freeBlocksCount + d.freeBlocksCntDelta)).bind fun blocks =>
    (toCounter sb.counterBits (desc.freeInodesCount + d.freeInodesCntDelta)).bind fun inodes =>
    (toCounter sb.counterBits (desc.usedDirsCount + d.usedDirsCntDelta)).bind fun dirs =>
    .ok { freeBlocksCount := blocks, freeInodesCount := inodes, usedDirsCount := dirs
          itableUnused := unused }

/-- The loop of `flush` over `bg_deltas`, whose iteration order is `order`. -/
def submitBlockGroups (sb : DescriptorSb) (bgDeltas : Nat → Option BgDelta) :
    List Nat → Disk → Except Fault Disk
  | [], d => .ok d
  | bgid :: order, d =>
    match bgDeltas bgid with
    | none => submitBlockGroups sb bgDeltas order d
    | some delta =>
      if delta.IsZero then submitBlockGroups sb bgDeltas order d
      else
        match d.descs bgid with
        | none => .error (.err .ioError)
        | some desc =>
          match submitBlockGroup sb bgid delta desc with
          | .error e => .error e
          | .ok desc =>
            submitBlockGroups sb bgDeltas order
              { d with descs := Function.update d.descs bgid (some desc) }

/-! ## Inode records -/

/-- Change the record of an inode, which `get_inode` finds. -/
def Disk.updateInode (d : Disk) (ino : Nat) (f : Bytes → Except Fault Bytes) :
    Except Fault Disk :=
  match d.inodes ino with
  | none => .error (.err .ioError)
  | some raw =>
    match f raw with
    | .error e => .error e
    | .ok raw => .ok { d with inodes := Function.update d.inodes ino (some raw) }

/-- A step of a record update that can fail an assertion. -/
def orPanic (x : Option Bytes) : Except Fault Bytes :=
  match x with
  | some raw => .ok raw
  | none => .error .panic

theorem orPanic_ok {x : Option Bytes} {raw : Bytes} (h : orPanic x = .ok raw) : x = some raw := by
  cases x with
  | none => cases h
  | some y =>
      cases h
      rfl

/-- `submit_inode_ops` -/
def submitInodeOps (sb : DescriptorSb) (d : Disk) : InodeOps → Except Fault Disk
  | .addLink ino => d.updateInode ino fun raw =>
    if Manipulator.linksCount raw + 1 < 2 ^ 16 then
      .ok (Manipulator.setLinksCount raw (Manipulator.linksCount raw + 1))
    else .error .panic
  | .rmLink ino =>
    match d.inodes ino with
    | none => .error (.err .ioError)
    | some raw =>
      let count := Manipulator.linksCount raw
      if count = 0 then .error .panic
      else if count = 1 then
        let raw := Manipulator.setDeletionTime raw d.lastOrphan
        let head := Manipulator.deletionTime raw
        .ok { d with
          inodes := Function.update d.inodes ino (some (Manipulator.setLinksCount raw 0))
          lastOrphan := ino
          orphanedInode := Function.update (LinkedMap.setPred d.orphanedInode head ino) ino
            (some (0, head)) }
      else
        .ok { d with
          inodes := Function.update d.inodes ino
            (some (Manipulator.setLinksCount raw (count - 1))) }
  | .init ino ftype => d.updateInode ino fun raw =>
    orPanic (Manipulator.init sb.toSuperBlock raw ftype)
  | .setSize ino size address => d.updateInode ino fun raw =>
    orPanic ((Manipulator.setSize sb.toSuperBlock raw size).bind fun raw =>
      Manipulator.setAddresses sb.toSuperBlock raw address)
  | .updateOrphanLink pred succ =>
    if pred = 0 then .ok { d with lastOrphan := succ }
    else d.updateInode pred fun raw => .ok (Manipulator.setDeletionTime raw succ)
  | .setBlock ino cnt => d.updateInode ino fun raw =>
    -- `cnt as usize`, and both operations wrap at 64 bits.
    orPanic (Manipulator.setBlocks sb.toSuperBlock raw
      ((Manipulator.getBlocks sb.toSuperBlock raw +
        sb.blkSize / 512 * (cnt % 2 ^ 64).toNat) % 2 ^ 64))

def submitAllInodeOps (sb : DescriptorSb) : List InodeOps → Disk → Except Fault Disk
  | [], d => .ok d
  | op :: ops, d =>
    match submitInodeOps sb d op with
    | .error e => .error e
    | .ok d => submitAllInodeOps sb ops d

/-! ## The superblock -/

/-- `Ext4FeatureIncompatible::BIT64` -/
def featureBit64 : Nat := 0x0080

/-- `submit_sb` -/
def submitSb (sb : DescriptorSb) (sbDelta : Option SbDelta) (d : Disk) : Except Fault Disk :=
  match sbDelta with
  | none => .ok d
  | some delta =>
    (toCounter 32 (d.freeInodesCount + delta.freeInodesCntDelta)).bind fun inodes =>
    (toCounter (if containsFlag sb.featuresIncompatible featureBit64 then 64 else 32)
      (d.freeBlocksCount + delta.freeBlocksCntDelta)).bind fun blocks =>
    .ok { d with freeInodesCount := inodes, freeBlocksCount := blocks }

/-- `flush`, with the groups in the order of the hash map's iteration. -/
def flush (sb : DescriptorSb) (w : WritebackGroup) (order : List Nat) (d : Disk) :
    Except Fault Disk :=
  (submitBlockGroups sb w.bgDeltas order d).bind fun d =>
  (submitAllInodeOps sb w.inodeOps d).bind fun d =>
  submitSb sb w.sbDelta d

/-- `order` has each group with a delta once. -/
def IterationOrder (w : WritebackGroup) (order : List Nat) : Prop :=
  order.Nodup ∧ ∀ g, g ∈ order ↔ (w.bgDeltas g).isSome

/-- `Events::apply_on_disk`: the events are compressed, which changes the bitmap blocks,
    and then written back. -/
def Applied (sb : DescriptorSb) (events : List Event) (d d' : Disk) : Prop :=
  ∃ w order, WritebackGroup.compress sb.toSuperBlock events (.new d.blocks) = some w ∧
    IterationOrder w order ∧ flush sb w order { d with blocks := w.blocks } = .ok d'

end Transaction
end RustExt4
