/-
  RustExt4.Inode.Allocator

  The inode allocator (`inode/allocator.rs`, `Allocator`; `inode/manager.rs`,
  `apply_deallocation_on_core`): it takes a clear bit of a group's in-memory
  bitmap at once and records events; giving a number back only records events,
  and the bit is cleared when they are committed.

  The source reads the bitmap of a group from its block at first use.  Nothing
  changes that block before, so the model has the bitmap from the start; it is
  `none` where the block cannot be read.
-/
import RustExt4.Transaction.Bitmap

namespace RustExt4.Inode

open Transaction (Event PostludeOps WritebackGroup bitAt setBit clearBit)

/-- What a loaded block group has for inodes (`block_group/mod.rs`, `BlockGroup`). -/
structure InodeGroup where
  inodeBitmapLba : Nat
  freeInodesCount : Nat

/-- The allocator with the counters of the block groups and of the superblock. -/
structure Allocator where
  sb : SuperBlock
  groups : Nat → Option InodeGroup
  bitmap : Nat → Option Bytes
  /-- the superblock's `free_inodes_count` -/
  freeInodesCount : Nat
  lastInodeBgId : Nat

/-! ## Free bits -/

/-- `u8::leading_zeros`; it is 8 on zero. -/
def leadingZeros8 (n : Nat) : Nat := if n = 0 then 8 else 7 - Nat.log2 n

/-- The lowest clear bit of a byte that has one: `7 - (x & !(x - 1)).leading_zeros()`
    for `x = val ^ u8::MAX`. -/
def clearPos (val : Nat) : Nat :=
  7 - leadingZeros8 ((val ^^^ 255) &&& ((val ^^^ 255) - 1 ^^^ 255))

/-- The loop of `get_free_ino` over the bytes from `group` on. -/
def findFree : List UInt8 → Nat → Option Nat
  | [], _ => none
  | bits :: rest, group =>
    if bits.toNat ^^^ 255 ≠ 0 then some (group * 8 + clearPos bits.toNat)
    else findFree rest (group + 1)

namespace Allocator

/-- `get_free_ino`.  The compare-and-swap loop ends at its first turn: nobody else
    changes the byte in between. -/
def getFreeIno (s : Allocator) (bgid : Nat) : Except Fault (Option Nat) × Allocator :=
  match s.bitmap bgid with
  | none => (.error (.err .ioError), s)
  | some bitmap =>
    match findFree bitmap 0 with
    | none => (.ok none, s)
    | some ofs =>
      (.ok (some ofs),
        { s with bitmap := Function.update s.bitmap bgid (some (setBit bitmap ofs)) })

/-- `BlockGroup::allocate_inode_on_bg`, `SuperBlock::dec_free_inodes_count` and the
    store of the hint; the counters wrap as `fetch_sub` does. -/
def takeIno (s : Allocator) (bgid : Nat) (bg : InodeGroup) : Allocator :=
  { s with
    groups := Function.update s.groups bgid
      (some { bg with freeInodesCount := fetchSub bg.freeInodesCount 1 })
    freeInodesCount := fetchSub s.freeInodesCount 1
    lastInodeBgId := bgid }

/-- The loop of `allocate` over the groups. -/
def allocateIn (s : Allocator) (events : List Event) (de : FileType) :
    List Nat → Except Fault Nat × Allocator × List Event
  | [] => (.error (.err .fsFull), s, events)
  | bgid :: rest =>
    match s.groups bgid with
    | none => (.error (.err .ioError), s, events)
    | some bg =>
      if 0 < bg.freeInodesCount then
        match s.getFreeIno bgid with
        | (.error e, s) => (.error e, s, events)
        | (.ok none, s) => s.allocateIn events de rest
        | (.ok (some ofs), s) =>
          let events := events ++
            [.inodeAllocationOnBg bgid bg.inodeBitmapLba (ofs % 2 ^ 32) de, .freeInodesCountDecOnSb]
          match InodeNumber.fromBgidIndex s.sb bgid ofs with
          | none => (.error .panic, s.takeIno bgid bg, events)
          | some ino => (.ok ino, s.takeIno bgid bg, events)
      else s.allocateIn events de rest

/-- `(0..bg_count).cycle().skip(hint).take(bg_count)` -/
def scanOrder (bgCount hint : Nat) : List Nat :=
  (List.range bgCount).map fun i => (hint + i) % bgCount

def allocate (s : Allocator) (events : List Event) (de : FileType) :
    Except Fault Nat × Allocator × List Event :=
  if s.freeInodesCount = 0 then (.error (.err .fsFull), s, events)
  else s.allocateIn events de (scanOrder s.sb.bgCount s.lastInodeBgId)

/-- The bit of position `i` in a group's bitmap, where there is one. -/
def bit (s : Allocator) (bgid i : Nat) : Option Bool :=
  (s.bitmap bgid).bind fun bitmap =>
    if i < 8 * bitmap.length then some (bitAt bitmap i) else none

/-- `deallocate`: the number must be taken; its bit is not cleared here. -/
def deallocate (s : Allocator) (events : List Event) (ino : Nat) (de : FileType) :
    Except Fault Unit × List Event :=
  match InodeNumber.intoBgidIndex s.sb ino with
  | none => (.error .panic, events)
  | some (bgid, ofs) =>
    if s.sb.bgCount ≤ bgid then (.error .panic, events)
    else
      match s.groups bgid with
      | none => (.error (.err .ioError), events)
      | some bg =>
        if s.bit bgid ofs = some true then
          (.ok (), events ++
            [.inodeDeallocationOnBg ino bgid bg.inodeBitmapLba ofs de, .freeInodesCountIncOnSb])
        else (.error .panic, events)

/-- `Manager::apply_deallocation_on_core`: the postlude of a committed inode
    deallocation. -/
def applyDeallocationOnCore (s : Allocator) (ino : Nat) : Except Fault Allocator :=
  match InodeNumber.intoBgidIndex s.sb ino with
  | none => .error .panic
  | some (bgid, ofs) =>
    if s.sb.bgCount ≤ bgid then .error .panic
    else
      match s.groups bgid, s.bitmap bgid with
      | some bg, some bitmap =>
        if s.bit bgid ofs = some true then
          .ok { s with
            bitmap := Function.update s.bitmap bgid (some (clearBit bitmap ofs))
            freeInodesCount := fetchAdd s.freeInodesCount 1
            groups := Function.update s.groups bgid
              (some { bg with freeInodesCount := fetchAdd bg.freeInodesCount 1 }) }
        else .error .panic
      | _, _ => .error (.err .ioError)

/-- The postludes of a committed transaction.  Those of blocks concern the block
    allocator only. -/
def applyPostludes (s : Allocator) : List PostludeOps → Except Fault Allocator
  | [] => .ok s
  | .inodeDeallocation ino :: ps =>
    match s.applyDeallocationOnCore ino with
    | .error e => .error e
    | .ok s => s.applyPostludes ps
  | .blockDeallocation .. :: ps => s.applyPostludes ps

/-- A deallocation with its commit: `deallocate` in a transaction of its own, then the
    postludes of that transaction.  What the commit writes in between is on disk. -/
def completeDeallocation (s : Allocator) (blocks : Nat → Option Bytes) (ino : Nat)
    (de : FileType) : Except Fault Allocator :=
  match s.deallocate [] ino de with
  | (.error e, _) => .error e
  | (.ok (), events) =>
    match WritebackGroup.compress s.sb events (.new blocks) with
    | none => .error .panic
    | some w => s.applyPostludes w.postludes

end Allocator
end RustExt4.Inode
