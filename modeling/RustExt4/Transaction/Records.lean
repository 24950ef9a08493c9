/-
  RustExt4.Transaction.Records

  What commits make of an inode record, read back through `Inode::from_bytes` and through
  the accessors of its fields.  The fields are independent: the record decodes to the type,
  mode, flags and generation it had, to the link count that the operations add up to, and
  to the last size and block map.

  The block count is the exception.  An allocation event adds its count; a deallocation
  event takes away 1, whatever its count, so that a run that is freed as one event leaves
  the rest of its blocks in the field.
-/
import RustExt4.Transaction.Batch
import RustExt4.Transaction.Links

namespace RustExt4.Transaction

open Inode (fieldsOf fromBytes Loaded featureMetadataCsum initAddresses RawInodeAddressingMode
  Manipulator.getBlocks Manipulator.getAddressingMode)

/-! ## Decoding -/

section Decoding
variable {sb : SuperBlock} {uuid raw raw' : Bytes} {ino : Nat} {type_ : Option FileType}
variable {a : Loaded}

/-- Without checksums a record with the same fixed fields is accepted as well. -/
theorem fromBytes_of_fixed (hcsum : containsFlag sb.featuresReadonly featureMetadataCsum = false)
    (hhurd : sb.creatorOs ≠ 1) (hfixed : (fieldsOf sb raw').fixed = (fieldsOf sb raw).fixed)
    (ha : fromBytes sb uuid raw ino type_ = .ok a) :
    ∃ a', fromBytes sb uuid raw' ino type_ = .ok a' ∧
      (a'.ftype = a.ftype ∧ a'.mode = a.mode ∧ a'.flags = a.flags ∧
        a'.generation = a.generation) ∧
      (a.linksCount = (fieldsOf sb raw).linksCount ∧
        (a.size, a.addresses) = ((fieldsOf sb raw).size, (fieldsOf sb raw).addresses)) ∧
      (a'.linksCount = (fieldsOf sb raw').linksCount ∧
        (a'.size, a'.addresses) = ((fieldsOf sb raw').size, (fieldsOf sb raw').addresses)) := by
  obtain ⟨hmode, hrest⟩ := Prod.mk.inj hfixed
  obtain ⟨hflags, hgen⟩ := Prod.mk.inj hrest
  -- The fixed fields are all that `from_bytes` looks at before it reads the others.
  have htype : Inode.Manipulator.detectType raw' = Inode.Manipulator.detectType raw := by
    unfold Inode.Manipulator.detectType
    rw [hmode]
  have hget : Inode.Manipulator.getMode sb raw' = Inode.Manipulator.getMode sb raw := by
    rw [Inode.Manipulator.getMode, if_neg hhurd, hmode, Inode.Manipulator.getMode, if_neg hhurd]
  have hnone : ∀ b, Inode.Manipulator.calculateChecksum sb uuid b ino = none := by
    intro b
    rw [Inode.Manipulator.calculateChecksum, hcsum, if_neg Bool.false_ne_true]
  unfold fromBytes at ha ⊢
  rw [hnone, Option.all_none, if_pos rfl] at ha ⊢
  rw [htype]
  split at ha
  · obtain rfl := Except.ok.inj ha
    rw [if_pos ‹_›]
    refine ⟨_, rfl, ⟨rfl, ?_, ?_, hgen⟩, ⟨rfl, rfl⟩, ⟨rfl, rfl⟩⟩
    · dsimp only
      rw [hget]
    · dsimp only
      rw [hflags]
  · cases ha

end Decoding

variable {sb : DescriptorSb} {d d1 d' : Disk} {ino : Nat}

/-- Any run of operations on existing inodes leaves a record that decodes, with each field
    as its own operations left it. -/
theorem fromBytes_after_ops {ops : List InodeOps} {uuid raw : Bytes} {type_ : Option FileType}
    {a : Loaded} (hcsum : containsFlag sb.featuresReadonly featureMetadataCsum = false)
    (hhurd : sb.creatorOs ≠ 1) (hrec : d.HasRecords) (hwf : ∀ op ∈ ops, op.WF)
    (hinit : ∀ ftype, .init ino ftype ∉ ops) (h : submitAllInodeOps sb ops d = .ok d')
    (hraw : d.inodes ino = some raw)
    (ha : fromBytes sb.toSuperBlock uuid raw ino type_ = .ok a) :
    ∃ raw' a', d'.inodes ino = some raw' ∧
      fromBytes sb.toSuperBlock uuid raw' ino type_ = .ok a' ∧
      a'.ftype = a.ftype ∧ a'.mode = a.mode ∧ a'.flags = a.flags ∧
      a'.generation = a.generation ∧
      (a'.linksCount : Int) =
        a.linksCount + ops.count (.addLink ino) - ops.count (.rmLink ino) ∧
      (a'.size, a'.addresses) = sizeAfter ino ops (a.size, a.addresses) := by
  obtain ⟨-, raw', hraw', hrun⟩ := submitAllInodeOps_fields hrec hwf h hraw
  have hspec := hrun.spec hinit
  obtain ⟨a', ha', ⟨htype, hmode, hflags, hgen⟩, ⟨hl, hs⟩, hl', hs'⟩ :=
    fromBytes_of_fixed hcsum hhurd hspec.fixed ha
  refine ⟨raw', a', hraw', ha', htype, hmode, hflags, hgen, ?_, ?_⟩
  · rw [hl', hl]
    exact hspec.linksCount
  · rw [hs', hs]
    exact hspec.size

theorem twelveUsed_hasRecords : twelveUsed.HasRecords := by
  intro ino raw hraw
  obtain rfl := Option.some.inj hraw
  exact Nat.le_refl 128

/-- `oneGroupSb` with extents. -/
def extentsSb : DescriptorSb :=
  { oneGroupSb with
    featuresIncompatible := Inode.featureExtents
    firstDataBlock_le := SuperBlock.zero_firstDataBlock_le
    blocksPerGroup_pos := SuperBlock.groupOf32768_pos
    blocksPerGroup_lt := SuperBlock.groupOf32768_lt
    bgCount_lt := SuperBlock.oneGroup_lt }

/-- A regular file of 4096 bytes with one link; its first block is block 50. -/
def fileRecord : Bytes :=
  [0xA4, 0x81, 0, 0, 0, 0x10] ++ List.replicate 20 0 ++
    -- the links, the sectors and the flags
    [1, 0, 8, 0, 0, 0, 0, 0, 8, 0, 0, 0, 0, 0] ++
    -- the extent header and the one extent
    [0x0A, 0xF3, 1, 0, 4, 0, 0, 0, 0, 0, 0, 0, 0, 0, 0, 0, 1, 0, 0, 0, 50, 0, 0, 0] ++
    -- the generation is behind the block map
    List.replicate 36 0 ++ [7, 0, 0, 0] ++ List.replicate 24 0

def oneFileUsed : Disk :=
  { twelveUsed with inodes := fun ino => if ino = 12 then some fileRecord else none }

theorem oneFileUsed_hasRecords : oneFileUsed.HasRecords := by
  intro ino raw hraw
  dsimp only [oneFileUsed] at hraw
  split at hraw
  next =>
    obtain rfl := Option.some.inj hraw
    exact Nat.le_refl 128
  next => cases hraw

/-- The two extents of the file when it has grown. -/
def grownExtents : RawInodeAddressingMode :=
  .extent 2 4 0 ([0, 0, 0, 0, 1, 0, 0, 0, 50, 0, 0, 0, 1, 0, 0, 0, 3, 0, 0, 0, 60, 0, 0, 0] ++
    List.replicate 24 0)

/-- It grows by three blocks, gets two links and loses one, and goes off the list of
    orphans. -/
def growAndLink : List InodeOps :=
  [.setBlock 12 3, .addLink 12, .setSize 12 12289 grownExtents, .rmLink 12,
    .updateOrphanLink 12 0, .addLink 12]

theorem fromBytes_after_ops_file : ∃ d' raw' a',
    submitAllInodeOps extentsSb growAndLink oneFileUsed = .ok d' ∧ d'.inodes 12 = some raw' ∧
    fromBytes extentsSb.toSuperBlock [] raw' 12 (some .regularFile) = .ok a' ∧
    a'.generation = 7 ∧ a'.linksCount = 2 ∧ (a'.size, a'.addresses) = (12289, grownExtents) := by
  obtain ⟨d', h⟩ := ok_of_isOk (x := submitAllInodeOps extentsSb growAndLink oneFileUsed)
    (by decide +kernel)
  have hwf : ∀ op ∈ growAndLink, op.WF := by
    simp [growAndLink, InodeOps.WF, grownExtents, Inode.RawInodeAddressingMode.WF]
  obtain ⟨raw', a', hraw', ha', -, -, -, hgen, hlinks, hsize⟩ := @fromBytes_after_ops extentsSb
    oneFileUsed d' 12 growAndLink [] fileRecord (some .regularFile) _ rfl (by decide)
    oneFileUsed_hasRecords hwf (fun ftype => by simp [growAndLink]) h rfl rfl
  refine ⟨d', raw', a', h, hraw', ha', hgen.trans (by decide +kernel), ?_, hsize⟩
  exact Int.natCast_inj.mp (hlinks.trans (by decide +kernel))

/-! ## The block count -/

namespace Event

/-- The blocks that the event allocates to the inode. -/
def allocatedTo (ino : Nat) : Event → Nat
  | .blockAllocationOnBg i _ _ _ count => if i = ino then count else 0
  | _ => 0

/-- The blocks of the inode that the event frees. -/
def deallocatedFrom (ino : Nat) : Event → Nat
  | .blockDeallocationOnBg i _ _ _ count => if i = ino then count else 0
  | _ => 0

/-- 1 for an event that frees blocks of the inode. -/
def deallocationOf (ino : Nat) : Event → Nat
  | .blockDeallocationOnBg i _ _ _ _ => if i = ino then 1 else 0
  | _ => 0

/-- The event does not create the inode, and its operands are in the ranges of their types. -/
def Keeps (inodesPerGroup ino : Nat) (e : Event) : Prop :=
  ∀ op ∈ e.inodeOps inodesPerGroup, op.WF ∧ ∀ ftype, op ≠ .init ino ftype

theorem blocksAdded_inodeOps (n ino : Nat) (e : Event) :
    blocksAdded ino (e.inodeOps n) = e.allocatedTo ino - e.deallocationOf ino := by
  cases e with
  | blockAllocationOnBg i g lba ofs count =>
      by_cases hi : i = ino <;> simp [inodeOps, blocksAdded, allocatedTo, deallocationOf, hi]
  | blockDeallocationOnBg i g lba ofs count =>
      by_cases hi : i = ino <;> simp [inodeOps, blocksAdded, allocatedTo, deallocationOf, hi]
  | _ => rfl

theorem keeps_of_setBlock {n ino i : Nat} {cnt : Int} {e : Event}
    (h : e.inodeOps n = [.setBlock i cnt]) : e.Keeps n ino := by
  intro op hop
  obtain rfl := List.mem_singleton.mp (h ▸ hop)
  exact ⟨trivial, nofun⟩

end Event

/-- The sum over a sequence of events. -/
def countOf (f : Event → Nat) (events : List Event) : Nat := (events.map f).sum

theorem blocksAdded_flatMap (n ino : Nat) (events : List Event) :
    blocksAdded ino (events.flatMap (Event.inodeOps n)) =
      countOf (Event.allocatedTo ino) events - countOf (Event.deallocationOf ino) events := by
  induction events with
  | nil => rfl
  | cons e es ih =>
      rw [List.flatMap_cons, blocksAdded_append, ih, Event.blocksAdded_inodeOps]
      simp only [countOf, List.map_cons, List.sum_cons]
      omega

/-- One commit after another. -/
inductive Commits (sb : DescriptorSb) : List (List Event) → Disk → Disk → Prop
  | nil (d : Disk) : Commits sb [] d d
  | cons {events : List Event} {batches : List (List Event)} {d d1 d' : Disk}
      (hone : Applied sb events d d1) (hrest : Commits sb batches d1 d') :
      Commits sb (events :: batches) d d'

/-- A commit runs the operations of its events on the records. -/
theorem Applied.inodeOps {events : List Event} (h : Applied sb events d d') :
    ∃ d1 d2, d1.inodes = d.inodes ∧ d'.inodes = d2.inodes ∧
      submitAllInodeOps sb (events.flatMap (Event.inodeOps sb.inodesPerGroup)) d1 = .ok d2 := by
  obtain ⟨w, order, hw, ⟨hnodup, -⟩, hflush⟩ := h
  obtain ⟨-, blocks, -, rfl⟩ := WritebackGroup.compress_eq_some.mp hw
  obtain ⟨d1, hgroups, hflush⟩ := bind_ok hflush
  obtain ⟨d2, hops, hsb⟩ := bind_ok hflush
  exact ⟨d1, d2, (submitBlockGroups_spec hnodup hgroups).inodes, submitSb_inodes hsb, hops⟩

theorem Commits.fields {batches : List (List Event)} {raw : Bytes} (h : Commits sb batches d d')
    (hrec : d.HasRecords) (hkeeps : ∀ e ∈ batches.flatten, e.Keeps sb.inodesPerGroup ino)
    (hraw : d.inodes ino = some raw) :
    ∃ raw', d'.inodes ino = some raw' ∧
      FieldsRun (sb.blkSize / 512) ino
        (batches.flatten.flatMap (Event.inodeOps sb.inodesPerGroup))
        (fieldsOf sb.toSuperBlock raw) (fieldsOf sb.toSuperBlock raw') := by
  -- On the batches; the inode's record is there before each of them.
  induction h generalizing raw with
  | nil d => exact ⟨raw, hraw, .nil _⟩
  | @cons events batches d dNext d' hone hrest ih =>
      rw [List.flatten_cons] at hkeeps
      obtain ⟨d1, d2, hd1, hd2, hops⟩ := hone.inodeOps
      have hrec1 : d1.HasRecords := by rwa [Disk.HasRecords, hd1]
      have hwf : ∀ op ∈ events.flatMap (Event.inodeOps sb.inodesPerGroup), op.WF := by
        intro op hop
        obtain ⟨e, he, hop⟩ := List.mem_flatMap.mp hop
        exact (hkeeps e (List.mem_append_left _ he) op hop).1
      obtain ⟨hrec2, raw1, hraw1, hrun1⟩ :=
        submitAllInodeOps_fields hrec1 hwf hops (by rw [hd1, hraw])
      have hrecNext : dNext.HasRecords := by rwa [Disk.HasRecords, hd2]
      obtain ⟨raw', hraw', hrun'⟩ := ih hrecNext
        (fun e he => hkeeps e (List.mem_append_right _ he)) (by rw [hd2, hraw1])
      refine ⟨raw', hraw', ?_⟩
      rw [List.flatten_cons, List.flatMap_append]
      exact hrun1.append hrun'

/-- What the block count should be after the events; `k` is the number of sectors of a
    block. -/
def blocksDue (k ino blocks : Nat) (events : List Event) : Int :=
  blocks + k * ((countOf (Event.allocatedTo ino) events : Int) -
    countOf (Event.deallocatedFrom ino) events)

theorem getBlocks_lt (sb : SuperBlock) (raw : Bytes) : Manipulator.getBlocks sb raw < 2 ^ 64 := by
  have hlo : ByteRw.readU32 raw 0x1C < 2 ^ 32 := ByteRw.readU32_lt raw 0x1C
  have hhi : ByteRw.readU32 raw 0x74 < 2 ^ 32 := ByteRw.readU32_lt raw 0x74
  unfold Manipulator.getBlocks Inode.getCompoundU64
  split <;> simp only [mergeU32] <;> omega

/-- The field follows the allocations exactly where the events that free blocks free one
    block each, in total and up to a multiple of `2 ^ 64` sectors. -/
theorem blocks_follow_iff {batches : List (List Event)} {raw raw' : Bytes} (hrec : d.HasRecords)
    (hkeeps : ∀ e ∈ batches.flatten, e.Keeps sb.inodesPerGroup ino)
    (h : Commits sb batches d d') (hraw : d.inodes ino = some raw)
    (hraw' : d'.inodes ino = some raw')
    (hrange : 0 ≤ blocksDue (sb.blkSize / 512) ino
        (Manipulator.getBlocks sb.toSuperBlock raw) batches.flatten ∧
      blocksDue (sb.blkSize / 512) ino
        (Manipulator.getBlocks sb.toSuperBlock raw) batches.flatten < 2 ^ 64) :
    (Manipulator.getBlocks sb.toSuperBlock raw' : Int) =
        blocksDue (sb.blkSize / 512) ino (Manipulator.getBlocks sb.toSuperBlock raw)
          batches.flatten ↔
      (2 ^ 64 : Int) ∣ (sb.blkSize / 512 : Nat) *
        ((countOf (Event.deallocatedFrom ino) batches.flatten : Int) -
          countOf (Event.deallocationOf ino) batches.flatten) := by
  obtain ⟨r, hr, hrun⟩ := h.fields hrec hkeeps hraw
  obtain rfl : r = raw' := Option.some.inj (hr.symm.trans hraw')
  have hinit : ∀ ftype, InodeOps.init ino ftype ∉
      batches.flatten.flatMap (Event.inodeOps sb.inodesPerGroup) := by
    intro ftype hmem
    obtain ⟨e, he, hop⟩ := List.mem_flatMap.mp hmem
    exact (hkeeps e he _ hop).2 ftype rfl
  have hblocks := (hrun.spec hinit).blocks
  rw [blocksAdded_flatMap] at hblocks
  have hlt := getBlocks_lt sb.toSuperBlock r
  generalize hdue : blocksDue (sb.blkSize / 512) ino
    (Manipulator.getBlocks sb.toSuperBlock raw) batches.flatten = due at hrange ⊢
  unfold blocksDue at hdue
  generalize (countOf (Event.allocatedTo ino) batches.flatten : Int) = allocated at hblocks hdue
  generalize (countOf (Event.deallocatedFrom ino) batches.flatten : Int) = freed at hdue ⊢
  generalize (countOf (Event.deallocationOf ino) batches.flatten : Int) = events at hblocks ⊢
  generalize (sb.blkSize / 512 : Nat) = k at hblocks hdue ⊢
  -- The field ends past the due value by what the deallocations did not take away.
  have hover : ((fieldsOf sb.toSuperBlock raw).blocks : Int) + k * (allocated - events) =
      due + k * (freed - events) := by
    rw [← hdue]
    show (Manipulator.getBlocks sb.toSuperBlock raw : Int) + _ = _
    ring
  rw [hover] at hblocks
  change (Manipulator.getBlocks sb.toSuperBlock r : Int) % 2 ^ 64 = _ at hblocks
  generalize (k : Int) * (freed - events) = rest at hblocks ⊢
  omega

/-- The commits of `batches` where the hash map gives each group at its last event. -/
def commitAll (sb : DescriptorSb) : List (List Event) → Disk → Except Fault Disk
  | [], d => .ok d
  | events :: batches, d => (commit sb events d).bind (commitAll sb batches)

theorem commits_of_commitAll {batches : List (List Event)} (h : commitAll sb batches d = .ok d') :
    Commits sb batches d d' := by
  induction batches generalizing d with
  | nil =>
      obtain rfl := Except.ok.inj h
      exact .nil d
  | cons events batches ih =>
      obtain ⟨d1, hone, hrest⟩ := bind_ok h
      exact .cons (applied_of_commit hone) (ih hrest)

/-- Inode 12 takes two blocks in one commit and gives them back in the next, as one event. -/
def takeAndFree : List (List Event) :=
  [[.blockAllocationOnBg 12 0 5 12 2], [.blockDeallocationOnBg 12 0 5 12 2]]

/-- As `takeAndFree`, with one event for each block. -/
def takeAndFreeSingly : List (List Event) :=
  [[.blockAllocationOnBg 12 0 5 12 2],
    [.blockDeallocationOnBg 12 0 5 12 1, .blockDeallocationOnBg 12 0 5 13 1]]

/-- Freed one by one the blocks leave the count. -/
theorem blocks_follow_iff_singly : ∃ d' raw', Commits oneGroupSb takeAndFreeSingly twelveUsed d' ∧
    d'.inodes 12 = some raw' ∧ Manipulator.getBlocks oneGroupSb.toSuperBlock raw' = 0 := by
  obtain ⟨d', h⟩ := ok_of_isOk (x := commitAll oneGroupSb takeAndFreeSingly twelveUsed)
    (by decide +kernel)
  have hcommits := commits_of_commitAll h
  have hkeeps : ∀ e ∈ takeAndFreeSingly.flatten, e.Keeps oneGroupSb.inodesPerGroup 12 := by
    intro e he
    obtain rfl | rfl | rfl := (by simpa [takeAndFreeSingly] using he : e = _ ∨ e = _ ∨ e = _)
    all_goals exact Event.keeps_of_setBlock rfl
  obtain ⟨raw', hraw', -⟩ := @Commits.fields _ _ _ 12 _ (List.replicate 128 0)
    hcommits twelveUsed_hasRecords hkeeps rfl
  refine ⟨d', raw', hcommits, hraw', ?_⟩
  have hiff := blocks_follow_iff twelveUsed_hasRecords hkeeps hcommits rfl hraw' (by decide +kernel)
  have hdue := hiff.mpr (by decide +kernel)
  exact Int.natCast_inj.mp (hdue.trans (by decide +kernel))

/-- Freed as one run they leave 8 of their 16 sectors in the count. -/
theorem freed_run_stays_counted : ¬ ∀ (sb : DescriptorSb) (d d' : Disk) (ino : Nat)
    (batches : List (List Event)) (raw raw' : Bytes), d.HasRecords →
    (∀ e ∈ batches.flatten, e.Keeps sb.inodesPerGroup ino) → Commits sb batches d d' →
    d.inodes ino = some raw → d'.inodes ino = some raw' →
    0 ≤ blocksDue (sb.blkSize / 512) ino
      (Manipulator.getBlocks sb.toSuperBlock raw) batches.flatten →
    blocksDue (sb.blkSize / 512) ino
      (Manipulator.getBlocks sb.toSuperBlock raw) batches.flatten < 2 ^ 64 →
    (Manipulator.getBlocks sb.toSuperBlock raw' : Int) = blocksDue (sb.blkSize / 512) ino
      (Manipulator.getBlocks sb.toSuperBlock raw) batches.flatten := by
  intro hall
  -- One block is allocated in a batch and freed in the next one.
  obtain ⟨d', h⟩ := ok_of_isOk (x := commitAll oneGroupSb takeAndFree twelveUsed)
    (by decide +kernel)
  have hkeeps : ∀ e ∈ takeAndFree.flatten, e.Keeps oneGroupSb.inodesPerGroup 12 := by
    intro e he
    obtain rfl | rfl := (by simpa [takeAndFree] using he : e = _ ∨ e = _)
    all_goals exact Event.keeps_of_setBlock rfl
  have hcount : ((commitAll oneGroupSb takeAndFree twelveUsed).toOption.bind (·.inodes 12)).map
      (Manipulator.getBlocks oneGroupSb.toSuperBlock) = some 8 := by decide +kernel
  rw [h] at hcount
  obtain ⟨raw', hraw', hcount⟩ := Option.map_eq_some_iff.mp hcount
  have hdue := hall oneGroupSb twelveUsed d' 12 takeAndFree (List.replicate 128 0) raw'
    twelveUsed_hasRecords hkeeps
    (commits_of_commitAll h) rfl hraw' (by decide +kernel) (by decide +kernel)
  rw [hcount] at hdue
  exact absurd hdue (by decide +kernel)

/-! ## The block map -/

/-- What the operation makes of the block map of inode `ino`. -/
def InodeOps.onMap (sb : SuperBlock) (ino : Nat) (address : RawInodeAddressingMode) :
    InodeOps → RawInodeAddressingMode
  | .setSize i _ address' => if i = ino then address' else address
  | .init i ftype => if i = ino then initAddresses sb ftype else address
  | _ => address

/-- The operation writes the block map of inode `ino`. -/
def InodeOps.WritesMap (ino : Nat) : InodeOps → Prop
  | .setSize i _ _ => i = ino
  | .init i _ => i = ino
  | _ => False

instance (ino : Nat) : DecidablePred (InodeOps.WritesMap ino)
  | .setSize i _ _ => inferInstanceAs (Decidable (i = ino))
  | .init i _ => inferInstanceAs (Decidable (i = ino))
  | .addLink _ => inferInstanceAs (Decidable False)
  | .rmLink _ => inferInstanceAs (Decidable False)
  | .updateOrphanLink _ _ => inferInstanceAs (Decidable False)
  | .setBlock _ _ => inferInstanceAs (Decidable False)

/-- The block map after the operations. -/
def mapAfter (sb : SuperBlock) (ino : Nat) (ops : List InodeOps)
    (start : RawInodeAddressingMode) : RawInodeAddressingMode :=
  ops.foldl (InodeOps.onMap sb ino) start

section Map
variable {ops ops' : List InodeOps}

theorem mapAfter_append (sb : SuperBlock) (ino : Nat) (ops ops' : List InodeOps) (a) :
    mapAfter sb ino (ops ++ ops') a = mapAfter sb ino ops' (mapAfter sb ino ops a) :=
  List.foldl_append ..

theorem onMap_of_not_writesMap {op : InodeOps} (h : ¬ op.WritesMap ino) (sb : SuperBlock) (a) :
    op.onMap sb ino a = a := by
  cases op with
  | setSize i size address => exact if_neg h
  | init i ftype => exact if_neg h
  | _ => rfl

theorem mapAfter_of_not_writesMap (h : ∀ op ∈ ops, ¬ op.WritesMap ino) (sb : SuperBlock) (a) :
    mapAfter sb ino ops a = a := by
  induction ops with
  | nil => rfl
  | cons op ops ih =>
      obtain ⟨hop, hops⟩ := List.forall_mem_cons.mp h
      rw [mapAfter, List.foldl_cons, onMap_of_not_writesMap hop]
      exact ih hops

/-- Behind an operation that writes the map, what was there before does not show. -/
theorem mapAfter_of_writesMap (h : ∃ op ∈ ops, op.WritesMap ino) (sb : SuperBlock) (a a') :
    mapAfter sb ino ops a = mapAfter sb ino ops a' := by
  induction ops generalizing a a' with
  | nil =>
      obtain ⟨op, hop, -⟩ := h
      cases hop
  | cons op ops ih =>
      rw [mapAfter, mapAfter, List.foldl_cons, List.foldl_cons]
      by_cases hop : op.WritesMap ino
      · have hsame : op.onMap sb ino a = op.onMap sb ino a' := by
          cases op with
          | setSize i size address => exact (if_pos hop).trans (if_pos hop).symm
          | init i ftype => exact (if_pos hop).trans (if_pos hop).symm
          | _ => exact hop.elim
        rw [hsame]
      · obtain ⟨op', hmem, hop'⟩ := h
        rcases List.mem_cons.mp hmem with rfl | hmem
        · exact absurd hop' hop
        · exact ih ⟨op', hmem, hop'⟩ _ _

/-- A run of operations does to the block map on disk what it says. -/
theorem submitAllInodeOps_map {raw : Bytes} (hrec : d.HasRecords) (hwf : ∀ op ∈ ops, op.WF)
    (h : submitAllInodeOps sb ops d = .ok d') (hraw : d.inodes ino = some raw) :
    d'.HasRecords ∧ ∃ raw', d'.inodes ino = some raw' ∧
      Manipulator.getAddressingMode sb.toSuperBlock raw' =
        mapAfter sb.toSuperBlock ino ops
          (Manipulator.getAddressingMode sb.toSuperBlock raw) := by
  induction ops generalizing d raw with
  | nil =>
      cases h
      exact ⟨hrec, raw, hraw, rfl⟩
  | cons op ops ih =>
      obtain ⟨hop, hops⟩ := List.forall_mem_cons.mp hwf
      unfold submitAllInodeOps at h
      split at h
      · cases h
      next d1 hstep =>
        -- One operation; it is this inode's, another's, or the orphan list's.
        have hone : d1.HasRecords ∧ ∃ raw1, d1.inodes ino = some raw1 ∧
            Manipulator.getAddressingMode sb.toSuperBlock raw1 = op.onMap sb.toSuperBlock ino
              (Manipulator.getAddressingMode sb.toSuperBlock raw) := by
          rcases submitInodeOps_cases hstep with ⟨ht, hd1⟩ | ⟨i, r, r', ht, hr, hon, hd1⟩
          · refine ⟨by rwa [Disk.HasRecords, hd1], raw, by rw [hd1, hraw], ?_⟩
            cases op with
            | updateOrphanLink pred succ => rfl
            | _ => cases ht
          · refine ⟨hasRecords_update hrec (hon.isRecord (hrec i r hr)) hd1, ?_⟩
            by_cases hi : i = ino
            · subst hi
              obtain rfl : r = raw := Option.some.inj (hr.symm.trans hraw)
              refine ⟨r', by rw [hd1, Function.update_self], ?_⟩
              have hfields := hon.onFields (hrec i r hr) hop
              cases op with
              | init j ftype =>
                  cases ht
                  rw [InodeOps.onMap, if_pos rfl]
                  exact Inode.getAddressingMode_init (hrec _ r hr) hon
              | setSize j size address =>
                  cases ht
                  rw [InodeOps.onMap, if_pos rfl]
                  exact congrArg Inode.Fields.addresses hfields
              | rmLink j => exact congrArg Inode.Fields.addresses hfields.2
              | _ => exact congrArg Inode.Fields.addresses hfields
            · refine ⟨raw, by rw [hd1, Function.update_of_ne (Ne.symm hi), hraw], ?_⟩
              cases op with
              | init j ftype =>
                  cases ht
                  exact (if_neg hi).symm
              | setSize j size address =>
                  cases ht
                  exact (if_neg hi).symm
              | _ => rfl
        obtain ⟨hrec1, raw1, hraw1, hmap⟩ := hone
        rw [mapAfter, List.foldl_cons, ← hmap]
        exact ih hrec1 hops h hraw1

/-- So does a commit. -/
theorem Applied.map {events : List Event} {raw : Bytes} (h : Applied sb events d d')
    (hrec : d.HasRecords)
    (hwf : ∀ op ∈ events.flatMap (Event.inodeOps sb.inodesPerGroup), op.WF)
    (hraw : d.inodes ino = some raw) :
    d'.HasRecords ∧ ∃ raw', d'.inodes ino = some raw' ∧
      Manipulator.getAddressingMode sb.toSuperBlock raw' =
        mapAfter sb.toSuperBlock ino (events.flatMap (Event.inodeOps sb.inodesPerGroup))
          (Manipulator.getAddressingMode sb.toSuperBlock raw) := by
  obtain ⟨d1, d2, hd1, hd2, hops⟩ := h.inodeOps
  have hrec1 : d1.HasRecords := by rwa [Disk.HasRecords, hd1]
  obtain ⟨hrec2, raw', hraw', hmap⟩ := submitAllInodeOps_map hrec1 hwf hops (by rw [hd1, hraw])
  exact ⟨by rwa [Disk.HasRecords, hd2], raw', by rw [hd2, hraw'], hmap⟩

end Map

end RustExt4.Transaction
