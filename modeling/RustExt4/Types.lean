/-
  RustExt4.Types

  Errors, file types, the superblock fields that place blocks in block groups,
  and the conversions between block numbers and positions in a group
  (`types.rs`, `fs-core/src/lib.rs`).
-/
import Mathlib.Tactic.Common
import Mathlib.Algebra.Order.Group.Nat

namespace RustExt4

/-! ## Errors -/

inductive FsError
  | invalidFs (msg : String)
  | ioError
  | noEntry
  | big
  | notFile
  | notDirectory
  | notEmpty
  | exist
  | fsFull
  | shutdown
  | invalid
  | permissionDenied
  | unsupported (msg : String)
  | busy
  | pendingRemoval
  | fixme
  deriving DecidableEq, Repr

/-- How a call ends when it does not return its value: `Err` of the source, or a
    panic (a failed `unwrap` or assertion, an index out of range, an arithmetic
    overflow, `todo!()`).  Loops of the source that need not end take fuel here;
    where it does not last, nothing is known of how the call ends. -/
inductive Fault
  | err (e : FsError)
  | panic
  | outOfFuel
  deriving DecidableEq, Repr

/-- A call that ends with `Ok` or `Err`. -/
def Returns {α : Type} : Except Fault α → Prop
  | .ok _ => True
  | .error (.err _) => True
  | .error _ => False

inductive FileType
  | unknown
  | regularFile
  | directory
  | characterDev
  | blockDev
  | fifo
  | socket
  | symlink
  deriving DecidableEq, Repr

/-- `contains` of a `bitflags` type. -/
def containsFlag (flags flag : Nat) : Bool := flags &&& flag == flag

/-! ## Block groups -/

structure SuperBlock where
  isDirEntryVersion2 : Bool
  inodeSize : Nat
  inodesPerGroup : Nat
  featuresIncompatible : Nat
  featuresReadonly : Nat
  firstDataBlock : Nat
  blocksPerGroup : Nat
  creatorOs : Nat
  revLevel : Nat
  bgCount : Nat
  wantExtraIsize : Nat
  /-- `first_data_block` is 1 on 1024-byte blocks and 0 otherwise. -/
  firstDataBlock_le : firstDataBlock ≤ 1
  blocksPerGroup_pos : 0 < blocksPerGroup
  blocksPerGroup_lt : blocksPerGroup < 2 ^ 32
  bgCount_lt : bgCount < 2 ^ 32

namespace SuperBlock

/-! ### The bounds of groups of 32768 blocks -/

theorem zero_firstDataBlock_le : 0 ≤ 1 := by decide
theorem groupOf32768_pos : 0 < 32768 := by decide
theorem groupOf32768_lt : 32768 < 2 ^ 32 := by decide
theorem oneGroup_lt : 1 < 2 ^ 32 := by decide
theorem twoGroups_lt : 2 < 2 ^ 32 := by decide

end SuperBlock

/-- A loaded block group.  `BlockGroup::from_disk` sets `blocks_count` to
    `sb.blocks_per_group` for every group of the file system. -/
structure BlockGroup where
  blockBitmapLba : Nat
  blocksCount : Nat
  freeBlocksCount : Nat

namespace SuperBlock

/-- `LogicalBlockNumber::into_bgid_index`; `as u32` cuts the group number. -/
def intoBgidIndex (sb : SuperBlock) (lba : Nat) : Option (Nat × Nat) :=
  let baddr := if sb.firstDataBlock ≠ 0 ∧ lba ≠ 0 then lba - 1 else lba
  let bgid := baddr / sb.blocksPerGroup % 2 ^ 32
  if bgid < sb.bgCount then some (bgid, baddr % sb.blocksPerGroup) else none

/-- `LogicalBlockNumber::from_bgid_index` -/
def fromBgidIndex (sb : SuperBlock) (bgid index : Nat) : Nat :=
  if sb.firstDataBlock = 0 then sb.blocksPerGroup * bgid + index
  else sb.blocksPerGroup * bgid + index + 1

/-- The blocks of the file system's groups. -/
def HasBlock (sb : SuperBlock) (lba : Nat) : Prop :=
  sb.firstDataBlock ≤ lba ∧ lba < sb.firstDataBlock + sb.blocksPerGroup * sb.bgCount

theorem HasBlock.lt {sb : SuperBlock} {lba : Nat} (h : sb.HasBlock lba) :
    lba + 1 ≤ 2 ^ 64 - 1 := by
  have h1 := sb.firstDataBlock_le
  have h2 : sb.blocksPerGroup * sb.bgCount ≤ (2 ^ 32 - 1) * (2 ^ 32 - 1) :=
    Nat.mul_le_mul (by have := sb.blocksPerGroup_lt; omega) (by have := sb.bgCount_lt; omega)
  have h3 := h.2
  omega

theorem fromBgidIndex_eq (sb : SuperBlock) (g i : Nat) :
    sb.fromBgidIndex g i = sb.firstDataBlock + (sb.blocksPerGroup * g + i) := by
  have := sb.firstDataBlock_le
  unfold fromBgidIndex
  split <;> omega

/-- On a block of the file system the two conversions are inverse. -/
theorem intoBgidIndex_of_hasBlock {sb : SuperBlock} {lba : Nat} (h : sb.HasBlock lba) :
    ∃ g i, sb.intoBgidIndex lba = some (g, i) ∧ g < sb.bgCount ∧ i < sb.blocksPerGroup ∧
      sb.fromBgidIndex g i = lba := by
  obtain ⟨hlo, hhi⟩ := h
  have hf := sb.firstDataBlock_le
  have hpos := sb.blocksPerGroup_pos
  have hbaddr : (if sb.firstDataBlock ≠ 0 ∧ lba ≠ 0 then lba - 1 else lba)
      = lba - sb.firstDataBlock := by
    split <;> omega
  have hg : (lba - sb.firstDataBlock) / sb.blocksPerGroup < sb.bgCount :=
    Nat.div_lt_of_lt_mul (by omega)
  have hlt := sb.bgCount_lt
  refine ⟨(lba - sb.firstDataBlock) / sb.blocksPerGroup,
    (lba - sb.firstDataBlock) % sb.blocksPerGroup, ?_, hg, Nat.mod_lt _ hpos, ?_⟩
  · simp only [intoBgidIndex, hbaddr]
    rw [Nat.mod_eq_of_lt (a := (lba - sb.firstDataBlock) / sb.blocksPerGroup) (by omega), if_pos hg]
  · rw [fromBgidIndex_eq, Nat.div_add_mod]
    omega

theorem intoBgidIndex_lt {sb : SuperBlock} {lba g i : Nat}
    (h : sb.intoBgidIndex lba = some (g, i)) : g < sb.bgCount ∧ i < sb.blocksPerGroup := by
  simp only [intoBgidIndex] at h
  generalize (if sb.firstDataBlock ≠ 0 ∧ lba ≠ 0 then lba - 1 else lba) = baddr at h
  split at h
  case isTrue hg =>
    simp only [Option.some.injEq, Prod.mk.injEq] at h
    obtain ⟨rfl, rfl⟩ := h
    exact ⟨hg, Nat.mod_lt _ sb.blocksPerGroup_pos⟩
  case isFalse => cases h

theorem fromBgidIndex_of_intoBgidIndex {sb : SuperBlock} {lba g i : Nat} (hb : sb.HasBlock lba)
    (h : sb.intoBgidIndex lba = some (g, i)) : sb.fromBgidIndex g i = lba := by
  obtain ⟨g', i', hinto, -, -, hfrom⟩ := intoBgidIndex_of_hasBlock hb
  rw [h] at hinto
  cases hinto
  exact hfrom

theorem hasBlock_fromBgidIndex {sb : SuperBlock} {g i : Nat} (hg : g < sb.bgCount)
    (hi : i < sb.blocksPerGroup) : sb.HasBlock (sb.fromBgidIndex g i) := by
  have hmul : sb.blocksPerGroup * g + sb.blocksPerGroup ≤ sb.blocksPerGroup * sb.bgCount := by
    rw [← Nat.mul_succ]
    exact Nat.mul_le_mul_left _ hg
  rw [fromBgidIndex_eq]
  exact ⟨by omega, by omega⟩

theorem intoBgidIndex_fromBgidIndex {sb : SuperBlock} {g i : Nat} (hg : g < sb.bgCount)
    (hi : i < sb.blocksPerGroup) : sb.intoBgidIndex (sb.fromBgidIndex g i) = some (g, i) := by
  have hpos := sb.blocksPerGroup_pos
  obtain ⟨g', i', hinto, -, hi', hfrom⟩ :=
    intoBgidIndex_of_hasBlock (hasBlock_fromBgidIndex hg hi)
  rw [fromBgidIndex_eq, fromBgidIndex_eq] at hfrom
  have hsum : sb.blocksPerGroup * g' + i' = sb.blocksPerGroup * g + i := by omega
  have hgg : g' = g := by
    have h1 := congrArg (· / sb.blocksPerGroup) hsum
    simpa [Nat.mul_add_div hpos, Nat.div_eq_of_lt hi, Nat.div_eq_of_lt hi'] using h1
  subst hgg
  rw [hinto]
  have : i' = i := by omega
  rw [this]

end SuperBlock

/-! ## Inode numbers -/

namespace InodeNumber

/-- `InodeNumber::into_bgid_index`; number 0 and an empty group panic. -/
def intoBgidIndex (sb : SuperBlock) (ino : Nat) : Option (Nat × Nat) :=
  if ino = 0 ∨ sb.inodesPerGroup = 0 then none
  else some ((ino - 1) / sb.inodesPerGroup, (ino - 1) % sb.inodesPerGroup)

/-- `InodeNumber::from_bgid_index`; a number that no `u32` holds panics. -/
def fromBgidIndex (sb : SuperBlock) (bgid index : Nat) : Option Nat :=
  if bgid * sb.inodesPerGroup + index % 2 ^ 32 + 1 < 2 ^ 32 then
    some (bgid * sb.inodesPerGroup + index % 2 ^ 32 + 1)
  else none

theorem fromBgidIndex_eq_some {sb : SuperBlock} {bgid index ino : Nat}
    (h : fromBgidIndex sb bgid index = some ino) :
    ino = bgid * sb.inodesPerGroup + index % 2 ^ 32 + 1 := by
  unfold fromBgidIndex at h
  split at h <;> cases h
  rfl

theorem intoBgidIndex_of_pos {sb : SuperBlock} {g i : Nat} (hi : i < sb.inodesPerGroup) :
    intoBgidIndex sb (g * sb.inodesPerGroup + i + 1) = some (g, i) := by
  have hpos : 0 < sb.inodesPerGroup := by omega
  rw [intoBgidIndex, if_neg (by omega), Nat.add_sub_cancel, Nat.add_comm (g * _),
    Nat.add_mul_div_right i g hpos, Nat.div_eq_of_lt hi, Nat.zero_add, Nat.add_mul_mod_self_right,
    Nat.mod_eq_of_lt hi]

theorem intoBgidIndex_eq_some {sb : SuperBlock} {ino g i : Nat} :
    intoBgidIndex sb ino = some (g, i) ↔ 0 < sb.inodesPerGroup ∧ 0 < ino ∧
      (ino - 1) / sb.inodesPerGroup = g ∧ (ino - 1) % sb.inodesPerGroup = i := by
  rw [intoBgidIndex]
  split
  next h => simp only [reduceCtorEq, false_iff]; omega
  next h =>
    rw [Option.some.injEq, Prod.mk.injEq]
    exact ⟨fun heq => ⟨by omega, by omega, heq⟩, fun heq => heq.2.2⟩

theorem intoBgidIndex_lt {sb : SuperBlock} {ino g i : Nat}
    (h : intoBgidIndex sb ino = some (g, i)) : i < sb.inodesPerGroup := by
  obtain ⟨hpos, -, -, rfl⟩ := intoBgidIndex_eq_some.mp h
  exact Nat.mod_lt _ hpos

theorem intoBgidIndex_inj {sb : SuperBlock} {ino ino' g i : Nat}
    (h : intoBgidIndex sb ino = some (g, i)) (h' : intoBgidIndex sb ino' = some (g, i)) :
    ino = ino' := by
  obtain ⟨-, hpos, hg, hi⟩ := intoBgidIndex_eq_some.mp h
  obtain ⟨-, hpos', hg', hi'⟩ := intoBgidIndex_eq_some.mp h'
  have h1 := Nat.div_add_mod (ino - 1) sb.inodesPerGroup
  have h2 := Nat.div_add_mod (ino' - 1) sb.inodesPerGroup
  rw [hg, hi] at h1
  rw [hg', hi'] at h2
  omega

end InodeNumber
end RustExt4
