/-
  RustExt4.Transaction.BlockRuns

  Several open transactions that allocate and give back blocks, and the block
  bitmaps they change when they are committed.  An allocation leaves the free
  set at once and reaches the bitmap at the commit; a deallocation reaches both
  at the commit.  The invariant is on what is pending: no block is pending in
  two transactions, a pending block is not free, and nothing follows a pending
  deallocation of a block.
-/
import RustExt4.Block.Allocator
import RustExt4.Block.BuddyInv
import RustExt4.Transaction.Bitmap

namespace RustExt4

open Transaction (Event WritebackGroup PostludeOps bitAt)

namespace Transaction.Event

/-- The blocks that the event hands out. -/
def allocated (sb : SuperBlock) : Event → Set Nat
  | .blockAllocationOnBg _ bgid _ ofs count =>
    Set.Ico (sb.fromBgidIndex bgid ofs) (sb.fromBgidIndex bgid ofs + count)
  | _ => ∅

/-- The blocks that the event gives back. -/
def deallocated (sb : SuperBlock) : Event → Set Nat
  | .blockDeallocationOnBg _ bgid _ ofs count =>
    Set.Ico (sb.fromBgidIndex bgid ofs) (sb.fromBgidIndex bgid ofs + count)
  | _ => ∅

/-- The same, in order. -/
def freed (sb : SuperBlock) : Event → List Nat
  | .blockDeallocationOnBg _ bgid _ ofs count => List.range' (sb.fromBgidIndex bgid ofs) count
  | _ => []

/-- The blocks whose state the event changes. -/
def blocks (sb : SuperBlock) (e : Event) : Set Nat := e.allocated sb ∪ e.deallocated sb

@[simp] theorem blocks_blockAllocationOnBg (sb : SuperBlock) (ino bgid lba ofs count : Nat) :
    (Event.blockAllocationOnBg ino bgid lba ofs count).blocks sb =
      Set.Ico (sb.fromBgidIndex bgid ofs) (sb.fromBgidIndex bgid ofs + count) :=
  Set.union_empty _

@[simp] theorem blocks_blockDeallocationOnBg (sb : SuperBlock) (ino bgid lba ofs count : Nat) :
    (Event.blockDeallocationOnBg ino bgid lba ofs count).blocks sb =
      Set.Ico (sb.fromBgidIndex bgid ofs) (sb.fromBgidIndex bgid ofs + count) :=
  Set.empty_union _

end Transaction.Event

namespace FileSystem

/-- The block that holds the block bitmap of a group. -/
def bitmapLba (fs : FileSystem) (bgid : Nat) : Option Nat :=
  (fs.blockGroups bgid).map (·.blockBitmapLba)

/-- The bit of `lba` in the cached bitmap of its group. -/
def bit (fs : FileSystem) (lba : Nat) : Option Bool :=
  (fs.sb.intoBgidIndex lba).bind fun (bgid, index) =>
    (fs.bitmapLba bgid).bind fun bitmap => (fs.blocks bitmap).map (bitAt · index)

/-- The postludes of a committed transaction.  Those of inodes concern the inode
    allocator only. -/
def applyPostludes (fs : FileSystem) : List PostludeOps → Except Fault FileSystem
  | [] => .ok fs
  | .blockDeallocation bgid ofs count :: ps =>
    match fs.applyDeallocationOnCore bgid ofs count with
    | .error e => .error e
    | .ok fs => fs.applyPostludes ps
  | .inodeDeallocation _ :: ps => fs.applyPostludes ps

/-- `Transaction::done` as far as blocks are concerned: the events change the
    cached bitmaps in order, and the postludes run after the write-out.  What
    `flush` writes are group descriptors, inode records and the superblock. -/
def commit (fs : FileSystem) (events : List Event) : Except Fault FileSystem :=
  match WritebackGroup.compress fs.sb events (.new fs.blocks) with
  | none => .error .panic
  | some w => ({ fs with blocks := w.blocks } : FileSystem).applyPostludes w.postludes

end FileSystem

namespace BlockRuns

/-- The file system and the open transactions with the events they hold. -/
structure System where
  fs : FileSystem
  txs : Nat → Option (List Event)

/-- `x` has a pending event that gives it back, in some open transaction. -/
def System.PendingDeallocation (s : System) (x : Nat) : Prop :=
  ∃ j evs, s.txs j = some evs ∧ ∃ e ∈ evs, x ∈ e.deallocated s.fs.sb

/-- `x` has a pending event that hands it out, in an open transaction other than `i`. -/
def System.AllocatedElsewhere (s : System) (i x : Nat) : Prop :=
  ∃ j evs, j ≠ i ∧ s.txs j = some evs ∧ ∃ e ∈ evs, x ∈ e.allocated s.fs.sb

/-- One step of one transaction.  A call may also fail with an error; `guard` is
    what a deallocation by transaction `i` asks of each block besides that it is
    neither free nor about to be. -/
inductive Step (guard : System → Nat → Nat → Prop) : System → System → Prop
  | openTx {s : System} {i : Nat} : s.txs i = none →
      Step guard s { s with txs := Function.update s.txs i (some []) }
  | allocate {s : System} {i ino size hope : Nat} {evs evs' : List Event} {fs' : FileSystem}
      {r : Except Fault (Nat × Nat)} :
      s.txs i = some evs → 1 ≤ size → size < 2 ^ 64 → 1 ≤ s.fs.blkSize →
      s.fs.allocate evs ino size hope = (r, fs', evs') → r ≠ .error .panic →
      Step guard s { fs := fs', txs := Function.update s.txs i (some evs') }
  | deallocate {s : System} {i ino lba size : Nat} {evs evs' : List Event}
      {r : Except Fault Unit} :
      s.txs i = some evs →
      (∀ x ∈ Set.Ico lba (lba + size), s.fs.sb.HasBlock x ∧ x ∉ s.fs.buddies.free ∧
        ¬ s.PendingDeallocation x ∧ guard s i x) →
      s.fs.deallocate evs ino lba size = (r, evs') → r ≠ .error .panic →
      Step guard s { s with txs := Function.update s.txs i (some evs') }
  | commit {s : System} {i : Nat} {evs : List Event} {fs' : FileSystem} :
      s.txs i = some evs → s.fs.commit evs = .ok fs' →
      Step guard s { fs := fs', txs := Function.update s.txs i none }

/-- A run of any number of steps. -/
inductive Run (guard : System → Nat → Nat → Prop) : System → System → Prop
  | refl (s : System) : Run guard s s
  | tail {s s' s'' : System} : Run guard s s' → Step guard s' s'' → Run guard s s''

/-- A mounted file system: the groups are those of the superblock, each with a
    bitmap block of its own, and every free block has a clear bit. -/
structure Mounted (fs : FileSystem) : Prop where
  buddy : fs.buddies.Inv
  groups : ∀ g bg, fs.blockGroups g = some bg →
    g < fs.sb.bgCount ∧ bg.blocksCount = fs.sb.blocksPerGroup
  bitmapInj : ∀ g g' lba, fs.bitmapLba g = some lba → fs.bitmapLba g' = some lba → g = g'
  free : ∀ x ∈ fs.buddies.free, fs.sb.HasBlock x ∧ fs.bit x = some false

/-- Only the bitmap blocks count. -/
theorem Mounted.withBlocks {fs : FileSystem} (hm : Mounted fs) {blocks : Nat → Option Bytes}
    (heq : ∀ g lba, fs.bitmapLba g = some lba → blocks lba = fs.blocks lba) :
    Mounted { fs with blocks := blocks } where
  buddy := hm.buddy
  groups := hm.groups
  bitmapInj := hm.bitmapInj
  free := by
    intro x hx
    obtain ⟨hhas, hbit⟩ := hm.free x hx
    refine ⟨hhas, ?_⟩
    unfold FileSystem.bit at hbit ⊢
    obtain ⟨⟨g, i⟩, hinto, hbit⟩ := Option.bind_eq_some_iff.mp hbit
    obtain ⟨lba, hlba, hbit⟩ := Option.bind_eq_some_iff.mp hbit
    refine Option.bind_eq_some_iff.mpr ⟨(g, i), hinto, Option.bind_eq_some_iff.mpr ⟨lba, hlba, ?_⟩⟩
    show (blocks lba).map _ = _
    rw [heq g lba hlba]
    exact hbit

end BlockRuns
end RustExt4
