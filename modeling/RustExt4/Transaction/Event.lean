/-
  RustExt4.Transaction.Event

  The events a transaction holds until it is committed, and how a commit folds
  them (`transaction/event.rs`, `transaction/collector.rs`): changes of the
  block and inode bitmaps are made in the cached bitmap blocks at once, all
  others are collected for the write-back.
-/
import RustExt4.Inode.Raw
import Mathlib.Logic.Function.Basic

namespace RustExt4.Transaction

open Inode (RawInodeAddressingMode)

inductive Event
  | blockAllocationOnBg (ino bgid bitmapLba ofs count : Nat)
  | blockDeallocationOnBg (ino bgid bitmapLba ofs count : Nat)
  | inodeAllocationOnBg (bgid bitmapLba ofs : Nat) (de : FileType)
  | inodeDeallocationOnBg (ino bgid bitmapLba ofs : Nat) (de : FileType)
  | inodeSetSize (ino size : Nat) (address : RawInodeAddressingMode)
  | inodeAddLink (ino : Nat)
  | inodeRmLink (ino : Nat)
  | inodeUpdateOrphanLink (pred succ : Nat)
  | freeInodesCountDecOnSb
  | freeInodesCountIncOnSb
  deriving DecidableEq, Repr

inductive PostludeOps
  | blockDeallocation (bgid ofs count : Nat)
  | inodeDeallocation (ino : Nat)
  deriving DecidableEq, Repr

inductive InodeOps
  | addLink (ino : Nat)
  | rmLink (ino : Nat)
  | init (ino : Nat) (ftype : FileType)
  | setSize (ino size : Nat) (address : RawInodeAddressingMode)
  | updateOrphanLink (pred succ : Nat)
  | setBlock (ino : Nat) (cnt : Int)
  deriving DecidableEq, Repr

structure BgDelta where
  freeBlocksCntDelta : Int := 0
  freeInodesCntDelta : Int := 0
  usedDirsCntDelta : Int := 0
  maxAllocIdxInBg : Option Nat := none
  deriving DecidableEq, Repr

structure SbDelta where
  freeInodesCntDelta : Int := 0
  freeBlocksCntDelta : Int := 0
  deriving DecidableEq, Repr

/-! ## Bitmaps -/

/-- `blk[pos >> 3] |= 1 << (pos & 7)` -/
def setBit (blk : Bytes) (pos : Nat) : Bytes :=
  blk.set (pos / 8) (UInt8.ofNat (LeBytes.byteAt blk (pos / 8) ||| 2 ^ (pos % 8)))

/-- `blk[pos >> 3] &= !(1 << (pos & 7))` -/
def clearBit (blk : Bytes) (pos : Nat) : Bytes :=
  blk.set (pos / 8) (UInt8.ofNat (LeBytes.byteAt blk (pos / 8) &&& (255 ^^^ 2 ^ (pos % 8))))

/-- The positions up to the next byte boundary, the whole bytes, and the rest:
    `(os, oe)`, `(ms, me)`, `(cs, ce)` of `set_bitmap` and `unset_bitmap`. -/
def bitmapRanges (ofs count : Nat) : (Nat × Nat) × (Nat × Nat) × (Nat × Nat) :=
  let oe := min ((ofs + 7) / 8 * 8) (ofs + count)
  let me := (ofs + count) / 8 * 8
  ((ofs, oe), (oe, me), (max oe me, ofs + count))

/-- `for i in st..ed { blk = f(blk, i) }` -/
def forRange (st ed : Nat) (f : Bytes → Nat → Bytes) (blk : Bytes) : Bytes :=
  (List.range' st (ed - st)).foldl f blk

/-- The shape that `set_bitmap` and `unset_bitmap` share: single bits up to the
    next byte boundary, whole bytes, and single bits again. -/
def updateRange (bitOp : Bytes → Nat → Bytes) (byteVal : UInt8) (blk : Bytes)
    (ofs count : Nat) : Bytes :=
  let ((os, oe), (ms, me), (cs, ce)) := bitmapRanges ofs count
  let blk := forRange os oe bitOp blk
  let blk := forRange (ms / 8) (me / 8) (fun blk grp => blk.set grp byteVal) blk
  forRange cs ce bitOp blk

/-- `WritebackGroup::set_bitmap`, without the debug assertions. -/
def setBitmap (blk : Bytes) (ofs count : Nat) : Bytes := updateRange setBit 0xff blk ofs count

/-- `WritebackGroup::unset_bitmap`, without the debug assertions. -/
def unsetBitmap (blk : Bytes) (ofs count : Nat) : Bytes := updateRange clearBit 0 blk ofs count

/-- `forRange` behind a `debug_assert_eq!` on the block in each round. -/
def forRangeChecked (st ed : Nat) (asserted : Bytes → Nat → Bool) (f : Bytes → Nat → Bytes)
    (blk : Bytes) : Except Fault Bytes :=
  (List.range' st (ed - st)).foldlM
    (fun blk i => if asserted blk i then .ok (f blk i) else .error .panic) blk

/-- `updateRange` where the debug assertions are compiled in: the bits must be those of
    `oldBit`, and the whole bytes `oldVal`. -/
def updateRangeChecked (bitOp : Bytes → Nat → Bytes) (byteVal : UInt8)
    (oldBit : Bytes → Nat → Bool) (oldVal : Nat) (blk : Bytes) (ofs count : Nat) :
    Except Fault Bytes := do
  let ((os, oe), (ms, me), (cs, ce)) := bitmapRanges ofs count
  let blk ← forRangeChecked os oe oldBit bitOp blk
  let blk ← forRangeChecked (ms / 8) (me / 8) (fun blk grp => LeBytes.byteAt blk grp == oldVal)
    (fun blk grp => blk.set grp byteVal) blk
  forRangeChecked cs ce oldBit bitOp blk

/-- `WritebackGroup::set_bitmap` in a debug build. -/
def setBitmapChecked (blk : Bytes) (ofs count : Nat) : Except Fault Bytes :=
  updateRangeChecked setBit 0xff
    (fun blk pos => LeBytes.byteAt blk (pos / 8) &&& 2 ^ (pos % 8) == 0) 0 blk ofs count

/-- `WritebackGroup::unset_bitmap` in a debug build. -/
def unsetBitmapChecked (blk : Bytes) (ofs count : Nat) : Except Fault Bytes :=
  updateRangeChecked clearBit 0
    (fun blk pos => LeBytes.byteAt blk (pos / 8) &&& 2 ^ (pos % 8) == 2 ^ (pos % 8)) 255 blk ofs
    count

/-! ## Compression -/

/-- The state of `Events::compress`: the write-back group, the cached blocks and
    the postludes of the collector. -/
structure WritebackGroup where
  bgDeltas : Nat → Option BgDelta
  sbDelta : Option SbDelta
  inodeOps : List InodeOps
  blocks : Nat → Option Bytes
  postludes : List PostludeOps

namespace WritebackGroup

def new (blocks : Nat → Option Bytes) : WritebackGroup :=
  { bgDeltas := fun _ => none, sbDelta := none, inodeOps := [], blocks := blocks, postludes := [] }

def updateBg (w : WritebackGroup) (bgid : Nat) (f : BgDelta → BgDelta) : WritebackGroup :=
  { w with bgDeltas := Function.update w.bgDeltas bgid (some (f ((w.bgDeltas bgid).getD {}))) }

def updateSb (w : WritebackGroup) (f : SbDelta → SbDelta) : WritebackGroup :=
  { w with sbDelta := some (f (w.sbDelta.getD {})) }

def pushOp (w : WritebackGroup) (op : InodeOps) : WritebackGroup :=
  { w with inodeOps := w.inodeOps ++ [op] }

def pushPostlude (w : WritebackGroup) (p : PostludeOps) : WritebackGroup :=
  { w with postludes := w.postludes ++ [p] }

/-- Change the cached bitmap block at `lba`; a block that cannot be read, or one
    that ends before a non-empty range, is a panic. -/
def updateBitmap (w : WritebackGroup) (lba ofs count : Nat) (f : Bytes → Nat → Nat → Bytes) :
    Option WritebackGroup :=
  match w.blocks lba with
  | some blk =>
    if ofs + count ≤ 8 * blk.length ∨ count = 0 then
      some { w with blocks := Function.update w.blocks lba (some (f blk ofs count)) }
    else none
  | none => none

/-- One step of the loop of `Events::compress`. -/
def apply (sb : SuperBlock) (w : WritebackGroup) : Event → Option WritebackGroup
  | .blockAllocationOnBg ino bgid bitmapLba ofs count =>
    (((w.updateBg bgid fun d =>
      { d with freeBlocksCntDelta := d.freeBlocksCntDelta - count }).updateSb fun d =>
      { d with freeBlocksCntDelta := d.freeBlocksCntDelta - count }).pushOp
      (.setBlock ino count)).updateBitmap bitmapLba ofs count setBitmap
  | .blockDeallocationOnBg ino bgid bitmapLba ofs count =>
    ((((w.updateBg bgid fun d =>
      { d with freeBlocksCntDelta := d.freeBlocksCntDelta + count }).updateSb fun d =>
      { d with freeBlocksCntDelta := d.freeBlocksCntDelta + count }).pushOp
      (.setBlock ino (-1))).updateBitmap bitmapLba ofs count unsetBitmap).map
      (·.pushPostlude (.blockDeallocation bgid ofs count))
  | .inodeUpdateOrphanLink pred succ => some (w.pushOp (.updateOrphanLink pred succ))
  | .inodeAllocationOnBg bgid bitmapLba ofs de =>
    (InodeNumber.fromBgidIndex sb bgid ofs).bind fun ino =>
      ((w.updateBg bgid fun d =>
        { d with
          freeInodesCntDelta := d.freeInodesCntDelta - 1
          usedDirsCntDelta := d.usedDirsCntDelta + if de = .directory then 1 else 0
          maxAllocIdxInBg := some (max (d.maxAllocIdxInBg.getD ofs) ofs) }).pushOp
        (.init ino de)).updateBitmap bitmapLba ofs 1 setBitmap
  | .inodeDeallocationOnBg ino bgid bitmapLba ofs de =>
    ((w.updateBg bgid fun d =>
      { d with
        freeInodesCntDelta := d.freeInodesCntDelta + 1
        usedDirsCntDelta := d.usedDirsCntDelta - if de = .directory then 1 else 0
      }).updateBitmap bitmapLba ofs 1 unsetBitmap).map (·.pushPostlude (.inodeDeallocation ino))
  | .inodeAddLink ino => some (w.pushOp (.addLink ino))
  | .inodeRmLink ino => some (w.pushOp (.rmLink ino))
  | .freeInodesCountDecOnSb =>
    some (w.updateSb fun d => { d with freeInodesCntDelta := d.freeInodesCntDelta - 1 })
  | .freeInodesCountIncOnSb =>
    some (w.updateSb fun d => { d with freeInodesCntDelta := d.freeInodesCntDelta + 1 })
  | .inodeSetSize ino size address => some (w.pushOp (.setSize ino size address))

/-- `Events::compress`; `none` is a panic, of a bitmap access or of an inode number that no
    `u32` holds. -/
def compress (sb : SuperBlock) : List Event → WritebackGroup → Option WritebackGroup
  | [], w => some w
  | e :: es, w => (w.apply sb e).bind (compress sb es)

end WritebackGroup
end RustExt4.Transaction
