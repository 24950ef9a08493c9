/-
  RustExt4.Block.Allocator

  The block allocator over the whole file system (`block/allocator.rs`,
  `Allocator`; `block_group/mod.rs`): it takes blocks from the buddy structure
  at once and records an event; giving blocks back only records events.
-/
import RustExt4.Block.Buddy
import RustExt4.Transaction.Event

namespace RustExt4

open Transaction (Event)

/-- What the block layer keeps in memory.  `blocks lba` is the content that
    `Manager::get` and `get_mut` find at `lba`, `none` where the device fails. -/
structure FileSystem where
  blkSize : Nat
  sb : SuperBlock
  blockGroups : Nat → Option BlockGroup
  buddies : Block.BlockGroupBuddy
  blocks : Nat → Option Bytes

namespace FileSystem

/-- `get_block_group`: all groups are loaded when the file system is opened; one
    that could not be read is an error. -/
def getBlockGroup (fs : FileSystem) (bgid : Nat) : Except Fault BlockGroup :=
  match fs.blockGroups bgid with
  | some bg => .ok bg
  | none => .error (.err .ioError)

/-- `BlockGroup::allocate_blocks`: the in-memory counter wraps as `fetch_sub` does. -/
def allocateBlocks (fs : FileSystem) (bgid : Nat) (bg : BlockGroup) (count : Nat) : FileSystem :=
  { fs with
    blockGroups := Function.update fs.blockGroups bgid
      (some { bg with
        freeBlocksCount := (bg.freeBlocksCount + (2 ^ 32 - count % 2 ^ 32)) % 2 ^ 32 }) }

/-- `Allocator::allocate` -/
def allocate (fs : FileSystem) (events : List Event) (ino size hope : Nat) :
    Except Fault (Nat × Nat) × FileSystem × List Event :=
  match fs.buddies.tryAllocateAt (min size (fs.blkSize * 4)) (some hope) with
  | .error _ => (.error .panic, fs, events)
  | .ok (none, buddies) => (.error (.err .fsFull), { fs with buddies := buddies }, events)
  | .ok (some (lba, allocated), buddies) =>
    let fs := { fs with buddies := buddies }
    match fs.sb.intoBgidIndex lba with
    | none => (.error .panic, fs, events)
    | some (bgid, index) =>
      match fs.getBlockGroup bgid with
      | .error e => (.error e, fs, events)
      | .ok bg =>
        (.ok (fs.sb.fromBgidIndex bgid index, allocated), fs.allocateBlocks bgid bg allocated,
          events ++ [.blockAllocationOnBg ino bgid bg.blockBitmapLba index allocated])

/-- An allocation leaves the blocks alone, and one that succeeds records one event. -/
theorem allocate_frame (fs : FileSystem) (events : List Event) (ino size hope : Nat) :
    ∃ r fs' events', fs.allocate events ino size hope = (r, fs', events') ∧
      fs'.blkSize = fs.blkSize ∧ fs'.sb = fs.sb ∧ fs'.blocks = fs.blocks ∧
      ((∃ e, r = .error e ∧ events' = events) ∨ ∃ x e, r = .ok x ∧ events' = events ++ [e]) := by
  unfold allocate
  split
  · exact ⟨_, _, _, rfl, rfl, rfl, rfl, Or.inl ⟨_, rfl, rfl⟩⟩
  · exact ⟨_, _, _, rfl, rfl, rfl, rfl, Or.inl ⟨_, rfl, rfl⟩⟩
  · dsimp only
    split
    · exact ⟨_, _, _, rfl, rfl, rfl, rfl, Or.inl ⟨_, rfl, rfl⟩⟩
    · split
      · exact ⟨_, _, _, rfl, rfl, rfl, rfl, Or.inl ⟨_, rfl, rfl⟩⟩
      · exact ⟨_, _, _, rfl, rfl, rfl, rfl, Or.inr ⟨_, _, rfl, rfl⟩⟩

/-- Nor does it read them. -/
theorem allocate_withBlocks (fs : FileSystem) (blocks : Nat → Option Bytes) (events : List Event)
    (ino size hope : Nat) :
    ({ fs with blocks := blocks } : FileSystem).allocate events ino size hope =
      match fs.allocate events ino size hope with
      | (r, fs', events') => (r, { fs' with blocks := blocks }, events') := by
  simp only [allocate]
  cases fs.buddies.tryAllocateAt (min size (fs.blkSize * 4)) (some hope) with
  | error e => rfl
  | ok x =>
      obtain ⟨found, buddies⟩ := x
      cases found with
      | none => rfl
      | some y =>
          obtain ⟨lba, allocated⟩ := y
          dsimp only
          cases fs.sb.intoBgidIndex lba with
          | none => rfl
          | some gi =>
              obtain ⟨bgid, index⟩ := gi
              simp only [getBlockGroup]
              cases fs.blockGroups bgid <;> rfl

/-- `Allocator::deallocate`: one event for each group that the range reaches.
    Here the buddy state is not updated. -/
def deallocate (fs : FileSystem) (events : List Event) (ino lba size : Nat) :
    Except Fault Unit × List Event :=
  if 0 < size then
    match fs.sb.intoBgidIndex lba with
    | none => (.error .panic, events)
    | some (bgid, ofs) =>
      match fs.getBlockGroup bgid with
      | .error e => (.error e, events)
      | .ok bg =>
        -- `bg.blocks_count as usize - ofs` underflows, or is 0 and the loop stands still.
        if bg.blocksCount ≤ ofs then (.error .panic, events)
        else
          let count := min (bg.blocksCount - ofs) size
          fs.deallocate (events ++ [.blockDeallocationOnBg ino bgid bg.blockBitmapLba ofs count])
            ino (lba + count) (size - count)
  else (.ok (), events)
termination_by size

/-- The rounds of `deallocate`: it stops where it stands, or a run inside one group is
    recorded and the rest is left for the next round. -/
theorem deallocate_rounds {fs : FileSystem} {ino : Nat}
    {P : List Event → Nat → Nat → Except Fault Unit × List Event → Prop}
    (stop : ∀ events lba size r, P events lba size (r, events))
    (round : ∀ events lba size g ofs bg count res, 0 < size →
      fs.sb.intoBgidIndex lba = some (g, ofs) → fs.blockGroups g = some bg → 0 < count →
      count ≤ size → ofs + count ≤ bg.blocksCount →
      P (events ++ [.blockDeallocationOnBg ino g bg.blockBitmapLba ofs count]) (lba + count)
        (size - count) res → P events lba size res)
    (events : List Event) (lba size : Nat) :
    P events lba size (fs.deallocate events ino lba size) := by
  induction events, lba, size using deallocate.induct fs ino with
  | case1 events lba size hpos hinto =>
      rw [deallocate, if_pos hpos, hinto]
      exact stop ..
  | case2 events lba size hpos g ofs hinto e hbg =>
      rw [deallocate, if_pos hpos, hinto]
      simp only [hbg]
      exact stop ..
  | case3 events lba size hpos g ofs hinto bg hbg hle =>
      rw [deallocate, if_pos hpos, hinto]
      simp only [hbg, if_pos hle]
      exact stop ..
  | case4 events lba size hpos g ofs hinto bg hbg hle count ih =>
      have hgroup : fs.blockGroups g = some bg := by
        unfold getBlockGroup at hbg
        cases hloaded : fs.blockGroups g with
        | none =>
            rw [hloaded] at hbg
            cases hbg
        | some bg' =>
            rw [hloaded] at hbg
            exact congrArg some (Except.ok.inj hbg)
      have hrun : 0 < count ∧ count ≤ size ∧ ofs + count ≤ bg.blocksCount := by omega
      rw [deallocate, if_pos hpos, hinto]
      simp only [hbg, if_neg hle]
      exact round _ _ _ _ _ _ _ _ hpos hinto hgroup hrun.1 hrun.2.1 hrun.2.2 ih
  | case5 events lba size hpos =>
      rw [deallocate, if_neg hpos]
      exact stop ..

/-- `Manager::apply_deallocation_on_core`: the postlude of a committed block
    deallocation. -/
def applyDeallocationOnCore (fs : FileSystem) (bgid ofs count : Nat) : Except Fault FileSystem :=
  match fs.getBlockGroup bgid with
  | .error e => .error e
  | .ok bg =>
    match fs.buddies.pushChunk false (fs.sb.fromBgidIndex bgid ofs) count with
    | .error _ => .error .panic
    | .ok buddies =>
      .ok { fs with
        buddies := buddies
        blockGroups := Function.update fs.blockGroups bgid
          (some { bg with freeBlocksCount := (bg.freeBlocksCount + count) % 2 ^ 32 }) }

end FileSystem
end RustExt4
