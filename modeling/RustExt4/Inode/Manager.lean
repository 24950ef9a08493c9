/-
  RustExt4.Inode.Manager

  `Manager::get` (`inode/manager.rs`): the number of an inode gives its block group and its
  place in the inode table of the group, and its record is read from a block of the table.

  Of the file system only what this reads: the first block of each inode table, and the
  blocks.  The inode is taken to be not in memory, so that `get_or_insert` runs the closure.
-/
import RustExt4.Config
import RustExt4.Inode.Fields
import RustExt4.Lib.ExceptRun
import RustExt4.Lib.PackedSlots

namespace RustExt4.Inode

/-- What the records of the inodes are found and read by. -/
structure Tables where
  blkSize : BlockSize
  sb : SuperBlock
  uuid : Bytes
  /-- `inode_table_first_block` of the block groups; one that cannot be loaded has none -/
  inodeTableFirstBlock : Nat → Option Nat
  blocks : Nat → Option Bytes

namespace Tables

/-- `get_block_group`, which indexes the groups by their number. -/
def getBlockGroup (fs : Tables) (bgid : Nat) : Except Fault Nat :=
  if fs.sb.bgCount ≤ bgid then .error .panic
  else
    match fs.inodeTableFirstBlock bgid with
    | none => .error (.err .ioError)
    | some lba => .ok lba

/-- `blocks.get` and `blocks.get_mut` -/
def getBlock (fs : Tables) (lba : Nat) : Except Fault Bytes :=
  match fs.blocks lba with
  | none => .error (.err .ioError)
  | some b => .ok b

/-- The block as it is after a write to it. -/
def setBlock (fs : Tables) (lba : Nat) (b : Bytes) : Tables :=
  { fs with blocks := Function.update fs.blocks lba (some b) }

@[simp] theorem blocks_setBlock (fs : Tables) (lba : Nat) (b : Bytes) :
    (fs.setBlock lba b).blocks = Function.update fs.blocks lba (some b) := rfl

end Tables

/-- The sum of a `LogicalBlockNumber` and a `u64`. -/
def addBlocks (lba n : Nat) : Except Fault Nat :=
  if lba + n < 2 ^ 64 then .ok (lba + n) else .error .panic

/-- A block, and a range of its bytes. -/
structure RecordRange where
  lba : Nat
  start : Nat
  stop : Nat
  deriving DecidableEq, Repr

/-- The bytes of the range, each with its block. -/
def RecordRange.bytes (r : RecordRange) : Set (Nat × Nat) :=
  {p | p.1 = r.lba ∧ r.start ≤ p.2 ∧ p.2 < r.stop}

/-- `&guard[range]` -/
def RecordRange.get (r : RecordRange) (guard : Bytes) : Except Fault Bytes :=
  if guard.length < r.stop then .error .panic
  else .ok (LeBytes.slice guard r.start (r.stop - r.start))

/-- The place of a record, as `get` computes it.  An index is below `2 ^ 32` and a record
    below `2 ^ 16` bytes, so that the product does not overflow. -/
def Manager.locate (fs : Tables) (ino : Nat) : Except Fault RecordRange :=
  match InodeNumber.intoBgidIndex fs.sb ino with
  | none => .error .panic
  | some (blockGroup, indexInGrp) => do
    -- Load block group, where i-node is located
    let inodeTableStart ← fs.getBlockGroup blockGroup
    -- Compute position of i-node in the block group
    let byteOffsetInGroup := indexInGrp * fs.sb.inodeSize
    -- Compute block address
    let lba ← addBlocks inodeTableStart (byteOffsetInGroup / fs.blkSize.val)
    -- Compute position of i-node in the data block
    let offsetInBlock := byteOffsetInGroup % fs.blkSize.val
    return { lba := lba, start := offsetInBlock, stop := offsetInBlock + fs.sb.inodeSize }

/-- `Manager::get` -/
def Manager.get (fs : Tables) (ino : Nat) (hint : Option FileType) : Except Fault Loaded := do
  let r ← Manager.locate fs ino
  let inodeArr ← fs.getBlock r.lba
  let raw ← r.get inodeArr
  (fromBytes fs.sb fs.uuid raw ino hint).mapError .err

/-! ## The table of a group -/

namespace Tables

variable {fs : Tables} {ino g i first : Nat}

/-- The number of records in a block. -/
def perBlock (fs : Tables) : Nat := fs.blkSize.val / fs.sb.inodeSize

/-- The place of record `i` in a table. -/
def slot (fs : Tables) (first i : Nat) : RecordRange where
  lba := first + i / fs.perBlock
  start := PackedSlots.offset fs.perBlock fs.sb.inodeSize i
  stop := PackedSlots.offset fs.perBlock fs.sb.inodeSize i + fs.sb.inodeSize

theorem bytes_slot (fs : Tables) (first i : Nat) :
    (fs.slot first i).bytes = PackedSlots.bytes first fs.perBlock fs.sb.inodeSize i := rfl

/-- The records fill a block. -/
structure Whole (fs : Tables) : Prop where
  dvd : fs.sb.inodeSize ∣ fs.blkSize.val

namespace Whole

theorem setBlock (h : fs.Whole) (lba : Nat) (b : Bytes) : (fs.setBlock lba b).Whole := ⟨h.dvd⟩

variable (h : fs.Whole)
include h

theorem inodeSize_pos : 0 < fs.sb.inodeSize := by
  have hblk := fs.blkSize.le
  exact Nat.pos_of_dvd_of_pos h.dvd (by omega)

theorem blkSize_eq : fs.blkSize.val = fs.perBlock * fs.sb.inodeSize :=
  (Nat.div_mul_cancel h.dvd).symm

theorem perBlock_pos : 0 < fs.perBlock := by
  have hblk := fs.blkSize.le
  exact Nat.div_pos (Nat.le_of_dvd (by omega) h.dvd) h.inodeSize_pos

theorem slot_stop_le (first i : Nat) : (fs.slot first i).stop ≤ fs.blkSize.val :=
  PackedSlots.offset_add_le h.perBlock_pos h.blkSize_eq.ge

/-- A place is computed from the first block of the table. -/
theorem locate_eq (hinto : InodeNumber.intoBgidIndex fs.sb ino = some (g, i)) :
    Manager.locate fs ino = do
      let first ← fs.getBlockGroup g
      let _ ← addBlocks first (i / fs.perBlock)
      return fs.slot first i := by
  rw [Manager.locate, hinto]
  dsimp only
  rw [h.blkSize_eq, PackedSlots.mul_div_block h.inodeSize_pos, PackedSlots.mul_mod_block]
  congr 1
  funext first
  unfold addBlocks
  split <;> rfl

theorem locate_of_lt (hinto : InodeNumber.intoBgidIndex fs.sb ino = some (g, i))
    (hg : g < fs.sb.bgCount) (hfirst : fs.inodeTableFirstBlock g = some first)
    (hlt : first + i / fs.perBlock < 2 ^ 64) :
    Manager.locate fs ino = .ok (fs.slot first i) := by
  rw [h.locate_eq hinto, getBlockGroup, if_neg (Nat.not_le_of_lt hg), hfirst]
  show (addBlocks first (i / fs.perBlock) >>= fun _ => _) = _
  rw [addBlocks, if_pos hlt]
  rfl

/-- A place that is found is a slot of the table of the inode's group. -/
theorem locate_ok {r : RecordRange} (hr : Manager.locate fs ino = .ok r) :
    ∃ g i first, InodeNumber.intoBgidIndex fs.sb ino = some (g, i) ∧ g < fs.sb.bgCount ∧
      fs.inodeTableFirstBlock g = some first ∧ r = fs.slot first i := by
  cases hinto : InodeNumber.intoBgidIndex fs.sb ino with
  | none =>
      rw [Manager.locate, hinto] at hr
      cases hr
  | some x =>
      obtain ⟨g, i⟩ := x
      rw [h.locate_eq hinto] at hr
      obtain ⟨first, hfirst, hr⟩ := ExceptRun.bind_eq_ok.mp hr
      obtain ⟨-, -, hr⟩ := ExceptRun.bind_eq_ok.mp hr
      obtain rfl := Except.ok.inj hr
      unfold getBlockGroup at hfirst
      split at hfirst
      · cases hfirst
      next hg =>
        split at hfirst
        · cases hfirst
        next first' heq =>
          obtain rfl := Except.ok.inj hfirst
          exact ⟨g, i, _, rfl, Nat.lt_of_not_le hg, heq, rfl⟩

/-- It lies in its block. -/
theorem inside {r : RecordRange} (hr : Manager.locate fs ino = .ok r) :
    r.stop = r.start + fs.sb.inodeSize ∧ r.stop ≤ fs.blkSize.val := by
  obtain ⟨g, i, first, -, -, -, rfl⟩ := h.locate_ok hr
  exact ⟨rfl, h.slot_stop_le first i⟩

end Whole
end Tables
end RustExt4.Inode
