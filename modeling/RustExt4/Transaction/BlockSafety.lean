/-
  RustExt4.Transaction.BlockSafety

  Free blocks have clear bits in every state of a run in which no transaction
  gives back a block that another open transaction has handed out; and a run
  that does so ends with a free block whose bit is set.
-/
import RustExt4.Transaction.BlockRuns

namespace RustExt4

open EndToEnd (Fills)
open Transaction (Event WritebackGroup PostludeOps bitAt)

namespace FileSystem

/-! ## What the allocator leaves alone -/

/-- `fs'` has the superblock, the bitmaps' places and the cached blocks of `fs`. -/
structure SameDisk (fs fs' : FileSystem) : Prop where
  sb : fs'.sb = fs.sb
  bitmapLba : fs'.bitmapLba = fs.bitmapLba
  groups : ∀ g bg', fs'.blockGroups g = some bg' →
    ∃ bg, fs.blockGroups g = some bg ∧ bg.blocksCount = bg'.blocksCount
  blocks : fs'.blocks = fs.blocks

theorem SameDisk.refl (fs : FileSystem) : SameDisk fs fs :=
  ⟨rfl, rfl, fun _ bg h => ⟨bg, h, rfl⟩, rfl⟩

theorem SameDisk.trans {fs fs' fs'' : FileSystem} (h : SameDisk fs fs') (h' : SameDisk fs' fs'') :
    SameDisk fs fs'' := by
  refine ⟨h'.sb.trans h.sb, h'.bitmapLba.trans h.bitmapLba, ?_, h'.blocks.trans h.blocks⟩
  intro g bg'' hbg
  obtain ⟨bg', hbg', hc'⟩ := h'.groups g bg'' hbg
  obtain ⟨bg, hbg0, hc⟩ := h.groups g bg' hbg'
  exact ⟨bg, hbg0, hc.trans hc'⟩

theorem SameDisk.bit_eq {fs fs' : FileSystem} (h : SameDisk fs fs') : fs'.bit = fs.bit := by
  funext x
  unfold bit
  rw [h.sb, h.bitmapLba, h.blocks]

/-- Only the counter and the buddy structure of one group change. -/
theorem sameDisk_update {fs : FileSystem} {g n : Nat} {bg : BlockGroup}
    (h : fs.blockGroups g = some bg) (buddies : Block.BlockGroupBuddy) :
    SameDisk fs { fs with
      buddies := buddies
      blockGroups :=
        Function.update fs.blockGroups g (some { bg with freeBlocksCount := n }) } := by
  refine ⟨rfl, ?_, ?_, rfl⟩
  · funext g'
    unfold bitmapLba
    by_cases hg : g' = g
    · subst hg; simp [h]
    · simp [Function.update_of_ne hg]
  · intro g' bg' hbg
    by_cases hg : g' = g
    · subst hg
      simp only [Function.update_self, Option.some.injEq] at hbg
      exact ⟨bg, h, by rw [← hbg]⟩
    · simp only [Function.update_of_ne hg] at hbg
      exact ⟨bg', hbg, rfl⟩

/-- An event of a group of the file system; one that gives blocks back stays
    inside its group. -/
def EventOk (fs : FileSystem) : Event → Prop
  | .blockAllocationOnBg _ bgid bitmapLba ofs _ =>
    bgid < fs.sb.bgCount ∧ fs.bitmapLba bgid = some bitmapLba ∧ ofs < fs.sb.blocksPerGroup
  | .blockDeallocationOnBg _ bgid bitmapLba ofs count =>
    bgid < fs.sb.bgCount ∧ fs.bitmapLba bgid = some bitmapLba ∧
      ofs + count ≤ fs.sb.blocksPerGroup ∧ 0 < count
  | _ => False

theorem EventOk.of_sameDisk {fs fs' : FileSystem} {e : Event} (h : SameDisk fs fs')
    (he : fs.EventOk e) : fs'.EventOk e := by
  cases e <;> simp only [EventOk, h.sb, h.bitmapLba] at he ⊢ <;> exact he

/-- A position inside a group and the block it stands for. -/
theorem mem_range {sb : SuperBlock} {x g i ofs count : Nat} (hb : sb.HasBlock x)
    (hinto : sb.intoBgidIndex x = some (g, i)) (hi : ofs ≤ i ∧ i < ofs + count) :
    x ∈ Set.Ico (sb.fromBgidIndex g ofs) (sb.fromBgidIndex g ofs + count) := by
  have hx := SuperBlock.fromBgidIndex_of_intoBgidIndex hb hinto
  rw [SuperBlock.fromBgidIndex_eq] at hx ⊢
  exact ⟨by omega, by omega⟩

theorem intoBgidIndex_of_mem_range {sb : SuperBlock} {x g ofs count : Nat} (hg : g < sb.bgCount)
    (hend : ofs + count ≤ sb.blocksPerGroup)
    (hx : x ∈ Set.Ico (sb.fromBgidIndex g ofs) (sb.fromBgidIndex g ofs + count)) :
    ∃ i, sb.intoBgidIndex x = some (g, i) ∧ ofs ≤ i ∧ i < ofs + count ∧ sb.HasBlock x := by
  obtain ⟨h1, h2⟩ := hx
  rw [SuperBlock.fromBgidIndex_eq] at h1 h2
  have hxe : x = sb.fromBgidIndex g (x - sb.firstDataBlock - sb.blocksPerGroup * g) := by
    rw [SuperBlock.fromBgidIndex_eq]; omega
  refine ⟨x - sb.firstDataBlock - sb.blocksPerGroup * g, ?_, by omega, by omega, ?_⟩
  · conv_lhs => rw [hxe]
    exact SuperBlock.intoBgidIndex_fromBgidIndex hg (by omega)
  · rw [hxe]
    exact SuperBlock.hasBlock_fromBgidIndex hg (by omega)

theorem EventOk.hasBlock {fs : FileSystem} {e : Event} {x : Nat} (he : fs.EventOk e)
    (hx : x ∈ e.deallocated fs.sb) : fs.sb.HasBlock x := by
  cases e with
  | blockDeallocationOnBg ino g lba ofs count =>
      obtain ⟨hg, -, hend, -⟩ := he
      exact (intoBgidIndex_of_mem_range hg hend hx).choose_spec.2.2.2
  | _ => exact absurd hx (Set.notMem_empty x)

/-! ## Allocation and deallocation -/

/-- An allocation takes blocks out of the free set; where it succeeds it adds one
    event, of blocks that were free and are not free any more. -/
theorem allocate_spec {fs fs' : FileSystem} {evs evs' : List Event} {ino size hope : Nat}
    {r : Except Fault (Nat × Nat)} (hm : BlockRuns.Mounted fs) (hpos : 1 ≤ size)
    (hsize : size < 2 ^ 64) (hblk : 1 ≤ fs.blkSize)
    (hok : fs.allocate evs ino size hope = (r, fs', evs')) :
    fs'.buddies.Inv ∧ SameDisk fs fs' ∧ fs'.buddies.free ⊆ fs.buddies.free ∧
    (evs' = evs ∨ ∃ e, evs' = evs ++ [e] ∧ fs.EventOk e ∧ e.deallocated fs.sb = ∅ ∧
      e.blocks fs.sb ⊆ fs.buddies.free ∧ Disjoint (e.blocks fs.sb) fs'.buddies.free) := by
  have hmin : 1 ≤ min size (fs.blkSize * 4) := by omega
  have hmin' : min size (fs.blkSize * 4) < 2 ^ 64 := by omega
  obtain ⟨r0, b', htry, hinv, -, hnone, -⟩ :=
    Block.BlockGroupBuddy.tryAllocateAt_spec hm.buddy hmin hmin' (some hope)
  unfold allocate at hok
  simp only [htry] at hok
  cases r0 with
  | none =>
      simp only [Prod.mk.injEq] at hok
      obtain ⟨-, rfl, rfl⟩ := hok
      rw [hnone rfl]
      exact ⟨hm.buddy, ⟨rfl, rfl, fun _ bg h => ⟨bg, h, rfl⟩, rfl⟩, subset_rfl, Or.inl rfl⟩
  | some p =>
      obtain ⟨lba, n⟩ := p
      obtain ⟨hsub, hdisj, hmono⟩ :=
        Block.BlockGroupBuddy.tryAllocateAt_takes hm.buddy hmin hmin' htry
      simp only at hok
      have hsame : SameDisk fs { fs with buddies := b' } :=
        ⟨rfl, rfl, fun _ bg h => ⟨bg, h, rfl⟩, rfl⟩
      cases hinto : fs.sb.intoBgidIndex lba with
      | none =>
          simp only [hinto, Prod.mk.injEq] at hok
          obtain ⟨-, rfl, rfl⟩ := hok
          exact ⟨hinv, hsame, hmono, Or.inl rfl⟩
      | some gi =>
          obtain ⟨g, i⟩ := gi
          simp only [hinto, getBlockGroup] at hok
          cases hbg : fs.blockGroups g with
          | none =>
              simp only [hbg, Prod.mk.injEq] at hok
              obtain ⟨-, rfl, rfl⟩ := hok
              exact ⟨hinv, hsame, hmono, Or.inl rfl⟩
          | some bg =>
              simp only [hbg, Prod.mk.injEq] at hok
              obtain ⟨-, rfl, rfl⟩ := hok
              refine ⟨hinv, sameDisk_update hbg b', hmono, ?_⟩
              obtain ⟨hg, hi⟩ := SuperBlock.intoBgidIndex_lt hinto
              -- The blocks of the event are the blocks that the buddy structure gave out.
              have hblocks : Event.blocks fs.sb
                  (.blockAllocationOnBg ino g bg.blockBitmapLba i n) ⊆ Set.Ico lba (lba + n) := by
                rcases Nat.eq_zero_or_pos n with rfl | hn
                · simp
                · have hfree : lba ∈ fs.buddies.free := hsub ⟨Nat.le_refl lba, by omega⟩
                  rw [Event.blocks_blockAllocationOnBg,
                    SuperBlock.fromBgidIndex_of_intoBgidIndex (hm.free lba hfree).1 hinto]
              exact Or.inr ⟨_, rfl, ⟨hg, by simp [bitmapLba, hbg], hi⟩, rfl, hblocks.trans hsub,
                hdisj.mono_left hblocks⟩

/-- The first block that an allocation gives out has been free. -/
theorem allocate_mem_free {fs fs' : FileSystem} {evs evs' : List Event} {ino size hope lba n : Nat}
    (hm : BlockRuns.Mounted fs) (hpos : 1 ≤ size) (hsize : size < 2 ^ 64) (hblk : 1 ≤ fs.blkSize)
    (hok : fs.allocate evs ino size hope = (.ok (lba, n), fs', evs')) : lba ∈ fs.buddies.free := by
  have hmin : 1 ≤ min size (fs.blkSize * 4) := by omega
  unfold allocate at hok
  split at hok
  · cases hok
  · cases hok
  next start count b' htry =>
    -- The buddy system hands out a free block; its group and back lead to the same one.
    obtain ⟨hsub, -, -⟩ := Block.BlockGroupBuddy.tryAllocateAt_takes hm.buddy hmin (by omega) htry
    have hn := Block.BlockGroupBuddy.tryAllocateAt_pos hmin htry
    have hfree : start ∈ fs.buddies.free := hsub ⟨Nat.le_refl start, by omega⟩
    dsimp only at hok
    split at hok
    next => cases hok
    next g i hinto =>
      split at hok
      next => cases hok
      next bg hbg =>
        have hlba := SuperBlock.fromBgidIndex_of_intoBgidIndex (hm.free start hfree).1 hinto
        cases hok
        rw [hlba]
        exact hfree

/-- A deallocation records events that give back distinct blocks of its range. -/
theorem deallocate_spec {fs : FileSystem} (evs : List Event) (ino : Nat) {lba size : Nat}
    (hm : BlockRuns.Mounted fs) (hb : ∀ x ∈ Set.Ico lba (lba + size), fs.sb.HasBlock x) :
    ∃ new, (fs.deallocate evs ino lba size).2 = evs ++ new ∧
      (∀ e ∈ new, fs.EventOk e ∧ e.allocated fs.sb = ∅ ∧
        e.deallocated fs.sb ⊆ Set.Ico lba (lba + size)) ∧
      new.Pairwise fun e e' => Disjoint (e.blocks fs.sb) (e'.blocks fs.sb) := by
  revert hb
  refine deallocate_rounds (P := fun evs lba size res =>
    (∀ x ∈ Set.Ico lba (lba + size), fs.sb.HasBlock x) → ∃ new, res.2 = evs ++ new ∧
      (∀ e ∈ new, fs.EventOk e ∧ e.allocated fs.sb = ∅ ∧
        e.deallocated fs.sb ⊆ Set.Ico lba (lba + size)) ∧
      new.Pairwise fun e e' => Disjoint (e.blocks fs.sb) (e'.blocks fs.sb))
    (fun evs lba size r _ => ⟨[], by simp, by simp, List.Pairwise.nil⟩) ?_ evs lba size
  intro evs lba size g ofs bg count res hsize hinto hbg hpos hle hin ih hb
  obtain ⟨new, hnew, hok, hpair⟩ := ih fun x hx =>
    hb x ⟨by have := hx.1; omega, by have := hx.2; omega⟩
  have hcount := (hm.groups g bg hbg).2
  have hfrom := SuperBlock.fromBgidIndex_of_intoBgidIndex
    (hb lba ⟨Nat.le_refl lba, by omega⟩) hinto
  have hded : Event.deallocated fs.sb (.blockDeallocationOnBg ino g bg.blockBitmapLba ofs count) =
      Set.Ico lba (lba + count) := by
    rw [Event.deallocated, hfrom]
  have hsub : Set.Ico (lba + count) (lba + count + (size - count)) ⊆ Set.Ico lba (lba + size) :=
    Set.Ico_subset_Ico (by omega) (by omega)
  refine ⟨.blockDeallocationOnBg ino g bg.blockBitmapLba ofs count :: new, by rw [hnew]; simp, ?_,
    List.pairwise_cons.mpr ⟨?_, hpair⟩⟩
  · intro e he
    rcases List.mem_cons.mp he with rfl | he
    · refine ⟨⟨(SuperBlock.intoBgidIndex_lt hinto).1, by simp [bitmapLba, hbg], by omega, hpos⟩,
        rfl, ?_⟩
      rw [hded]
      exact Set.Ico_subset_Ico_right (by omega)
    · obtain ⟨h1, h2, h3⟩ := hok e he
      exact ⟨h1, h2, h3.trans hsub⟩
  · -- The later runs lie after this one.
    intro e he
    obtain ⟨-, h2, h3⟩ := hok e he
    rw [Event.blocks_blockDeallocationOnBg, hfrom, Event.blocks, h2, Set.empty_union]
    refine Set.disjoint_of_subset_right h3 ?_
    rw [Set.disjoint_left]
    rintro x ⟨-, hx⟩ ⟨hx', -⟩
    omega

/-- All groups of the superblock are loaded. -/
def GroupsLoaded (fs : FileSystem) : Prop :=
  ∀ g < fs.sb.bgCount, ∃ bg, fs.blockGroups g = some bg ∧ bg.blocksCount = fs.sb.blocksPerGroup

/-- A run of blocks inside a group: the group, the offset in it and the number of blocks. -/
structure GroupRun where
  bgid : Nat
  ofs : Nat
  count : Nat

/-- The first block of the run. -/
def GroupRun.lba (sb : SuperBlock) (r : GroupRun) : Nat := sb.fromBgidIndex r.bgid r.ofs

/-- The event that gives the run back. -/
def GroupRun.event (fs : FileSystem) (ino : Nat) (r : GroupRun) : Event :=
  .blockDeallocationOnBg ino r.bgid ((fs.bitmapLba r.bgid).getD 0) r.ofs r.count

/-- The range is cut into runs that lie end to end. -/
theorem deallocate_runs {fs : FileSystem} (hg : fs.GroupsLoaded) (ino : Nat) {lba size : Nat}
    (hb : ∀ x ∈ Set.Ico lba (lba + size), fs.sb.HasBlock x) (evs : List Event) :
    ∃ runs : List GroupRun,
      fs.deallocate evs ino lba size = (.ok (), evs ++ runs.map (GroupRun.event fs ino)) ∧
      (∀ r ∈ runs, r.bgid < fs.sb.bgCount ∧ r.ofs + r.count ≤ fs.sb.blocksPerGroup) ∧
      Fills (GroupRun.lba fs.sb) GroupRun.count lba runs (lba + size) := by
  induction size using Nat.strong_induction_on generalizing evs lba with
  | _ size ih =>
      rw [deallocate]
      by_cases hsize : 0 < size
      · obtain ⟨g, ofs, hinto, hlt, hofs, hfrom⟩ :=
          SuperBlock.intoBgidIndex_of_hasBlock (hb lba ⟨Nat.le_refl lba, by omega⟩)
        obtain ⟨bg, hbg, hcount⟩ := hg g hlt
        rw [if_pos hsize, hinto]
        simp only [getBlockGroup, hbg, hcount, if_neg (Nat.not_le.mpr hofs)]
        -- The run ends at the end of the group or at the end of the range.
        have hle : min (fs.sb.blocksPerGroup - ofs) size ≤ size := Nat.min_le_right ..
        have hin : ofs + min (fs.sb.blocksPerGroup - ofs) size ≤ fs.sb.blocksPerGroup := by omega
        have hpos : 0 < min (fs.sb.blocksPerGroup - ofs) size := by omega
        generalize min (fs.sb.blocksPerGroup - ofs) size = count at hle hin hpos ⊢
        obtain ⟨runs, hrun, hruns, hfill⟩ := @ih (size - count) (by omega) (lba + count)
          (fun x hx => hb x ⟨by have := hx.1; omega, by have := hx.2; omega⟩)
          (evs ++ [.blockDeallocationOnBg ino g bg.blockBitmapLba ofs count])
        have hevent : (GroupRun.mk g ofs count).event fs ino =
            .blockDeallocationOnBg ino g bg.blockBitmapLba ofs count := by
          rw [GroupRun.event, bitmapLba, hbg]
          rfl
        refine ⟨⟨g, ofs, count⟩ :: runs, ?_, ?_, hfrom, hpos, ?_⟩
        · rw [hrun, List.map_cons, hevent, List.append_assoc]
          rfl
        · exact List.forall_mem_cons.mpr ⟨⟨hlt, hin⟩, hruns⟩
        · rwa [show lba + count + (size - count) = lba + size by omega] at hfill
      · rw [if_neg hsize]
        obtain rfl : size = 0 := by omega
        exact ⟨[], by rw [List.map_nil, List.append_nil], fun r hr => absurd hr List.not_mem_nil,
          rfl⟩

/-- Blocks of loaded groups are given back, each once. -/
theorem deallocate_covers {fs : FileSystem} (hg : fs.GroupsLoaded) (ino : Nat) {lba size : Nat}
    (hb : ∀ x ∈ Set.Ico lba (lba + size), fs.sb.HasBlock x) (evs : List Event) :
    ∃ new, fs.deallocate evs ino lba size = (.ok (), evs ++ new) ∧
      new.flatMap (Event.freed fs.sb) = List.range' lba size := by
  obtain ⟨runs, hrun, -, hfill⟩ := deallocate_runs hg ino hb evs
  refine ⟨_, hrun, ?_⟩
  have hpoints := hfill.points
  rw [Nat.add_sub_cancel_left] at hpoints
  rw [List.flatMap_map]
  exact hpoints

/-- A deallocation inside the groups' blocks goes through, and its events are runs of one
    group each that follow each other and cover the range. -/
theorem deallocate_partitions {fs : FileSystem} (hg : fs.GroupsLoaded) (ino : Nat)
    {lba size : Nat} (hlo : fs.sb.firstDataBlock ≤ lba)
    (hhi : lba + size ≤ fs.sb.firstDataBlock + fs.sb.blocksPerGroup * fs.sb.bgCount)
    (evs : List Event) :
    ∃ runs : List GroupRun,
      fs.deallocate evs ino lba size = (.ok (), evs ++ runs.map (GroupRun.event fs ino)) ∧
      (∀ r ∈ runs, r.bgid < fs.sb.bgCount ∧ 1 ≤ r.count ∧
        r.ofs + r.count ≤ fs.sb.blocksPerGroup) ∧
      (runs.Pairwise fun r r' => r.lba fs.sb + r.count ≤ r'.lba fs.sb) ∧
      (⋃ r ∈ runs, Set.Ico (r.lba fs.sb) (r.lba fs.sb + r.count)) =
        Set.Ico lba (lba + size) ∧
      runs.flatMap (fun r => List.range' (r.lba fs.sb) r.count) = List.range' lba size := by
  have hb : ∀ x ∈ Set.Ico lba (lba + size), fs.sb.HasBlock x := by
    rintro x ⟨hx, hx'⟩
    exact ⟨by omega, by omega⟩
  obtain ⟨runs, hrun, hruns, hfill⟩ := deallocate_runs hg ino hb evs
  have hpoints := hfill.points
  rw [Nat.add_sub_cancel_left] at hpoints
  refine ⟨runs, hrun, fun r hr => ?_, hfill.ordered, hfill.iUnion, hpoints⟩
  obtain ⟨hlt, hin⟩ := hruns r hr
  exact ⟨hlt, (hfill.bounds hr).2.1, hin⟩

/-- Two groups of 1024-byte blocks, which are counted from block 1 on. -/
def twoGroups : FileSystem where
  blkSize := 1024
  sb :=
    { isDirEntryVersion2 := true, inodeSize := 256, inodesPerGroup := 2048
      featuresIncompatible := 0, featuresReadonly := 0, firstDataBlock := 1
      blocksPerGroup := 8192, creatorOs := 0, revLevel := 1, bgCount := 2, wantExtraIsize := 32
      firstDataBlock_le := by decide
      blocksPerGroup_pos := by decide
      blocksPerGroup_lt := by decide
      bgCount_lt := by decide }
  blockGroups := fun g =>
    if g < 2 then some { blockBitmapLba := 3 + g, blocksCount := 8192, freeBlocksCount := 0 }
    else none
  buddies := Block.BlockGroupBuddy.new 13
  blocks := fun _ => none

theorem groupsLoaded_twoGroups : twoGroups.GroupsLoaded := by
  intro g hg
  exact ⟨_, if_pos hg, rfl⟩

/-- Ten blocks across the boundary of the groups. -/
theorem deallocate_partitions_twoGroups :
    ∃ runs : List GroupRun, twoGroups.deallocate [] 12 8188 10 =
        (.ok (), runs.map (GroupRun.event twoGroups 12)) ∧
      (⋃ r ∈ runs, Set.Ico (r.lba twoGroups.sb) (r.lba twoGroups.sb + r.count)) =
        Set.Ico 8188 8198 := by
  obtain ⟨runs, hrun, -, -, hunion, -⟩ := @deallocate_partitions twoGroups groupsLoaded_twoGroups
    12 8188 10 (by decide) (by decide) []
  exact ⟨runs, hrun, hunion⟩

/-! ## Commit -/

/-- The postludes that the event adds to the collector. -/
def postlude : Event → List PostludeOps
  | .blockDeallocationOnBg _ bgid _ ofs count => [.blockDeallocation bgid ofs count]
  | _ => []

/-- Forcing the bits `[ofs, ofs+count)` of one group's bitmap to `v`. -/
theorem bit_updateBitmap {fs : FileSystem} {blocks : Nat → Option Bytes} {blk : Bytes}
    {g lba ofs count x : Nat} {v : Bool} {f : Bytes → Nat → Nat → Bytes}
    (hinj : ∀ g g' lba, fs.bitmapLba g = some lba → fs.bitmapLba g' = some lba → g = g')
    (hg : fs.bitmapLba g = some lba) (hblk : blocks lba = some blk)
    (hf : ∀ q, bitAt (f blk ofs count) q = if ofs ≤ q ∧ q < ofs + count then v else bitAt blk q) :
    (∀ i, fs.sb.intoBgidIndex x = some (g, i) → ofs ≤ i → i < ofs + count →
      ({ fs with blocks := Function.update blocks lba (some (f blk ofs count)) } :
        FileSystem).bit x = some v) ∧
    ((∀ i, fs.sb.intoBgidIndex x = some (g, i) → ¬ (ofs ≤ i ∧ i < ofs + count)) →
      ({ fs with blocks := Function.update blocks lba (some (f blk ofs count)) } :
        FileSystem).bit x = ({ fs with blocks := blocks } : FileSystem).bit x) := by
  have hlba : ∀ blocks, ({ fs with blocks := blocks } : FileSystem).bitmapLba = fs.bitmapLba :=
    fun _ => rfl
  constructor
  · intro i hinto h1 h2
    simp only [bit, hlba, hinto, Option.bind_some, hg, Function.update_self, Option.map_some, hf]
    rw [if_pos ⟨h1, h2⟩]
  · intro hout
    simp only [bit, hlba]
    cases hinto : fs.sb.intoBgidIndex x with
    | none => rfl
    | some gi =>
        obtain ⟨g', i⟩ := gi
        simp only [Option.bind_some]
        cases hg' : fs.bitmapLba g' with
        | none => rfl
        | some lba' =>
            simp only [Option.bind_some]
            -- No two groups share a bitmap.
            by_cases hl : lba' = lba
            · subst hl
              have hgg : g' = g := hinj g' g lba' hg' hg
              subst hgg
              rw [Function.update_self, hblk, Option.map_some, Option.map_some, hf,
                if_neg (hout i hinto)]
            · rw [Function.update_of_ne hl]

/-- One event of the compression: bits of other blocks stay, bits of blocks given
    back are clear, and the postlude is recorded. -/
theorem apply_spec {fs : FileSystem} {e : Event} {w w' : WritebackGroup} {sb : SuperBlock}
    (hinj : ∀ g g' lba, fs.bitmapLba g = some lba → fs.bitmapLba g' = some lba → g = g')
    (he : fs.EventOk e) (h : w.apply sb e = some w') :
    (∀ x, fs.sb.HasBlock x → x ∉ e.blocks fs.sb →
      ({ fs with blocks := w'.blocks } : FileSystem).bit x =
        ({ fs with blocks := w.blocks } : FileSystem).bit x) ∧
    (∀ x ∈ e.deallocated fs.sb,
      ({ fs with blocks := w'.blocks } : FileSystem).bit x = some false) ∧
    w'.postludes = w.postludes ++ postlude e := by
  cases e with
  | blockAllocationOnBg ino g lba ofs count =>
      obtain ⟨hg, hlba, hofs⟩ := he
      simp only [WritebackGroup.apply, WritebackGroup.updateBitmap, WritebackGroup.updateBg,
        WritebackGroup.updateSb, WritebackGroup.pushOp] at h
      cases hblk : w.blocks lba with
      | none => simp [hblk] at h
      | some blk =>
          simp only [hblk] at h
          split at h
          case isFalse => cases h
          case isTrue hbound =>
            cases h
            have hbit := fun x => bit_updateBitmap (x := x) hinj hlba hblk
              (Transaction.bitAt_setBitmap hbound)
            refine ⟨fun x hb hx => (hbit x).2 fun i hi hio => ?_,
              fun x hx => absurd hx (Set.notMem_empty x), ?_⟩
            · rw [Event.blocks_blockAllocationOnBg] at hx
              exact hx (mem_range hb hi hio)
            · simp [postlude]
  | blockDeallocationOnBg ino g lba ofs count =>
      obtain ⟨hg, hlba, hend, -⟩ := he
      simp only [WritebackGroup.apply, WritebackGroup.updateBitmap, WritebackGroup.updateBg,
        WritebackGroup.updateSb, WritebackGroup.pushOp, WritebackGroup.pushPostlude] at h
      cases hblk : w.blocks lba with
      | none => simp [hblk] at h
      | some blk =>
          simp only [hblk] at h
          split at h
          case isFalse => cases h
          case isTrue hbound =>
            cases h
            have hbit := fun x => bit_updateBitmap (x := x) hinj hlba hblk
              (Transaction.bitAt_unsetBitmap hbound)
            refine ⟨fun x hb hx => (hbit x).2 fun i hi hio => ?_, fun x hx => ?_, ?_⟩
            · rw [Event.blocks_blockDeallocationOnBg] at hx
              exact hx (mem_range hb hi hio)
            · obtain ⟨i, hi, h1, h2, -⟩ := intoBgidIndex_of_mem_range hg hend hx
              exact (hbit x).1 i hi h1 h2
            · simp [postlude]
  | _ => exact absurd he id

/-- The whole compression, when nothing follows a deallocation of a block. -/
theorem compress_spec {fs : FileSystem} {evs : List Event} {w w' : WritebackGroup} {sb : SuperBlock}
    (hinj : ∀ g g' lba, fs.bitmapLba g = some lba → fs.bitmapLba g' = some lba → g = g')
    (hok : ∀ e ∈ evs, fs.EventOk e)
    (hpair : evs.Pairwise fun e e' => Disjoint (e.deallocated fs.sb) (e'.blocks fs.sb))
    (h : WritebackGroup.compress sb evs w = some w') :
    (∀ x, fs.sb.HasBlock x → (∀ e ∈ evs, x ∉ e.blocks fs.sb) →
      ({ fs with blocks := w'.blocks } : FileSystem).bit x =
        ({ fs with blocks := w.blocks } : FileSystem).bit x) ∧
    (∀ x, fs.sb.HasBlock x → (∃ e ∈ evs, x ∈ e.deallocated fs.sb) →
      ({ fs with blocks := w'.blocks } : FileSystem).bit x = some false) ∧
    w'.postludes = w.postludes ++ evs.flatMap postlude := by
  induction evs generalizing w with
  | nil =>
      cases h
      exact ⟨fun _ _ _ => rfl, by simp, by simp⟩
  | cons e evs ih =>
      rw [WritebackGroup.compress, Option.bind_eq_some_iff] at h
      obtain ⟨w1, hw1, hrest⟩ := h
      obtain ⟨hhead, htail⟩ := List.pairwise_cons.mp hpair
      obtain ⟨a1, a2, a3⟩ := apply_spec hinj (hok e List.mem_cons_self) hw1
      obtain ⟨b1, b2, b3⟩ := ih (fun e' he' => hok e' (List.mem_cons_of_mem _ he')) htail hrest
      refine ⟨fun x hb hx => ?_, ?_, ?_⟩
      · rw [b1 x hb fun e' he' => hx e' (List.mem_cons_of_mem _ he'),
          a1 x hb (hx e List.mem_cons_self)]
      · rintro x hb ⟨e', he', hx⟩
        -- A block freed twice is freed by the later event, and no event takes it back.
        by_cases hlater : ∃ e ∈ evs, x ∈ e.deallocated fs.sb
        · exact b2 x hb hlater
        · rcases List.mem_cons.mp he' with rfl | he'
          · rw [b1 x hb fun e'' he'' => Set.disjoint_left.mp (hhead e'' he'') hx]
            exact a2 x hx
          · exact absurd ⟨e', he', hx⟩ hlater
      · rw [b3, a3, List.flatMap_cons, List.append_assoc]

/-- The postludes of distinct deallocations add exactly their blocks to the free set. -/
theorem applyPostludes_spec {fs fs' : FileSystem} {evs : List Event} (hinv : fs.buddies.Inv)
    (hok : ∀ e ∈ evs, fs.EventOk e)
    (hpair : evs.Pairwise fun e e' => Disjoint (e.deallocated fs.sb) (e'.deallocated fs.sb))
    (hfree : ∀ e ∈ evs, Disjoint (e.deallocated fs.sb) fs.buddies.free)
    (h : fs.applyPostludes (evs.flatMap postlude) = .ok fs') :
    fs'.buddies.Inv ∧ SameDisk fs fs' ∧
      fs'.buddies.free = fs.buddies.free ∪ {x | ∃ e ∈ evs, x ∈ e.deallocated fs.sb} := by
  induction evs generalizing fs with
  | nil =>
      cases h
      exact ⟨hinv, SameDisk.refl _, by simp⟩
  | cons e evs ih =>
      obtain ⟨hhead, htail⟩ := List.pairwise_cons.mp hpair
      have hunion : ∀ S : Set Nat, S ∪ {x | ∃ e' ∈ e :: evs, x ∈ e'.deallocated fs.sb} =
          S ∪ e.deallocated fs.sb ∪ {x | ∃ e' ∈ evs, x ∈ e'.deallocated fs.sb} := by
        intro S
        ext x
        simp [or_assoc]
      cases e with
      | blockDeallocationOnBg ino g lba ofs count =>
          obtain ⟨hg, hlba, hend, hcnt⟩ := hok _ List.mem_cons_self
          -- The run is inside its group, so its blocks can be added to the buddy system.
          have hlast : fs.sb.HasBlock (fs.sb.fromBgidIndex g (ofs + count - 1)) :=
            SuperBlock.hasBlock_fromBgidIndex hg (by omega)
          have hbound := hlast.lt
          rw [SuperBlock.fromBgidIndex_eq] at hbound
          obtain ⟨b', hpush, hinv', -, hf'⟩ := Block.BlockGroupBuddy.pushChunk_spec
            hinv (show fs.sb.fromBgidIndex g ofs + count ≤ 2 ^ 64 - 1 by
              rw [SuperBlock.fromBgidIndex_eq]; omega) (hfree _ List.mem_cons_self)
          simp only [List.flatMap_cons, postlude, List.singleton_append, applyPostludes,
            applyDeallocationOnCore, getBlockGroup] at h
          cases hbg : fs.blockGroups g with
          | none => simp [hbg] at h
          | some bg =>
              simp only [hbg, hpush] at h
              have hsame := sameDisk_update (n := (bg.freeBlocksCount + count) % 2 ^ 32) hbg b'
              obtain ⟨h1, h2, h3⟩ := ih hinv'
                (fun e' he' => (hok e' (List.mem_cons_of_mem _ he')).of_sameDisk hsame) htail
                (fun e' he' => by
                  rw [hf', Set.disjoint_union_right]
                  exact ⟨hfree e' (List.mem_cons_of_mem _ he'), (hhead e' he').symm⟩) h
              refine ⟨h1, hsame.trans h2, ?_⟩
              rw [h3, hunion, hf']
              rfl
      | blockAllocationOnBg ino g lba ofs count =>
          obtain ⟨h1, h2, h3⟩ := ih hinv (fun e' he' => hok e' (List.mem_cons_of_mem _ he')) htail
            (fun e' he' => hfree e' (List.mem_cons_of_mem _ he')) h
          refine ⟨h1, h2, ?_⟩
          have hnone : Event.deallocated fs.sb (.blockAllocationOnBg ino g lba ofs count) = ∅ := rfl
          rw [h3, hunion, hnone, Set.union_empty]
      | _ => exact absurd (hok _ List.mem_cons_self) id

end FileSystem

namespace BlockRuns

/-! ## The invariant of a run -/

/-- Pending blocks are not free and are pending in one transaction only, and no
    event follows a deallocation of one of its blocks. -/
structure System.Inv (s : System) : Prop where
  mounted : Mounted s.fs
  eventOk : ∀ {i evs}, s.txs i = some evs → ∀ e ∈ evs, s.fs.EventOk e
  notFree : ∀ {i evs}, s.txs i = some evs → ∀ e ∈ evs,
    Disjoint (e.blocks s.fs.sb) s.fs.buddies.free
  apart : ∀ {i j evs evs'}, i ≠ j → s.txs i = some evs → s.txs j = some evs' →
    ∀ e ∈ evs, ∀ e' ∈ evs', Disjoint (e.blocks s.fs.sb) (e'.blocks s.fs.sb)
  ordered : ∀ {i evs}, s.txs i = some evs →
    evs.Pairwise fun e e' => Disjoint (e.deallocated s.fs.sb) (e'.blocks s.fs.sb)

theorem Mounted.inv {fs : FileSystem} (hm : Mounted fs) : System.Inv ⟨fs, fun _ => none⟩ where
  mounted := hm
  eventOk := by simp
  notFree := by simp
  apart := by simp
  ordered := by simp

/-- Mounting survives changes of the free set that leave the disk alone. -/
theorem Mounted.of_sameDisk {fs fs' : FileSystem} (hm : Mounted fs) (h : fs.SameDisk fs')
    (hinv : fs'.buddies.Inv)
    (hfree : ∀ x ∈ fs'.buddies.free, fs.sb.HasBlock x ∧ fs.bit x = some false) : Mounted fs' where
  buddy := hinv
  groups := by
    intro g bg' hbg'
    obtain ⟨bg, hbg, hc⟩ := h.groups g bg' hbg'
    rw [h.sb, ← hc]
    exact hm.groups g bg hbg
  bitmapInj := by
    rw [h.bitmapLba]
    exact hm.bitmapInj
  free := by
    rw [h.sb, h.bit_eq]
    exact hfree

/-- Replacing the list of transaction `i` and the file system keeps the invariant
    where the other lists stay clear of the new free set and of the new list. -/
theorem System.Inv.update {s : System} {i : Nat} {fs' : FileSystem} {o : Option (List Event)}
    (h : s.Inv) (hm : Mounted fs') (hsb : fs'.sb = s.fs.sb)
    (hlba : fs'.bitmapLba = s.fs.bitmapLba)
    (hothers : ∀ j evs, j ≠ i → s.txs j = some evs → ∀ e ∈ evs,
      Disjoint (e.blocks s.fs.sb) fs'.buddies.free)
    (hok : ∀ evs, o = some evs → ∀ e ∈ evs, s.fs.EventOk e ∧
      Disjoint (e.blocks s.fs.sb) fs'.buddies.free)
    (happart : ∀ evs, o = some evs → ∀ e ∈ evs, ∀ j evs', j ≠ i → s.txs j = some evs' →
      ∀ e' ∈ evs', Disjoint (e.blocks s.fs.sb) (e'.blocks s.fs.sb))
    (hordered : ∀ evs, o = some evs →
      evs.Pairwise fun e e' => Disjoint (e.deallocated s.fs.sb) (e'.blocks s.fs.sb)) :
    System.Inv { fs := fs', txs := Function.update s.txs i o } := by
  have heventOk : ∀ e, s.fs.EventOk e → fs'.EventOk e := by
    intro e he
    cases e <;> simp only [FileSystem.EventOk, hsb, hlba] at he ⊢ <;> exact he
  -- Either the transaction that moved or another one, which stands as it did.
  have hcase : ∀ j evs, Function.update s.txs i o j = some evs →
      (j = i ∧ o = some evs) ∨ (j ≠ i ∧ s.txs j = some evs) := by
    intro j evs hj
    by_cases hij : j = i
    · subst hij
      exact Or.inl ⟨rfl, by rwa [Function.update_self] at hj⟩
    · exact Or.inr ⟨hij, by rwa [Function.update_of_ne hij] at hj⟩
  refine ⟨hm, ?_, ?_, ?_, ?_⟩
  · intro j evs hj e he
    rcases hcase j evs hj with ⟨-, ho⟩ | ⟨-, hs⟩
    · exact heventOk e (hok evs ho e he).1
    · exact heventOk e (h.eventOk hs e he)
  · intro j evs hj e he
    simp only [hsb]
    rcases hcase j evs hj with ⟨-, ho⟩ | ⟨hij, hs⟩
    · exact (hok evs ho e he).2
    · exact hothers j evs hij hs e he
  · intro j j' evs evs' hjj hj hj' e he e' he'
    simp only [hsb]
    rcases hcase j evs hj with ⟨rfl, ho⟩ | ⟨hij, hs⟩ <;>
      rcases hcase j' evs' hj' with ⟨rfl, ho'⟩ | ⟨hij', hs'⟩
    · exact absurd rfl hjj
    · exact happart evs ho e he j' evs' hij' hs' e' he'
    · exact (happart evs' ho' e' he' j evs hij hs e he).symm
    · exact h.apart hjj hs hs' e he e' he'
  · intro j evs hj
    simp only [hsb]
    rcases hcase j evs hj with ⟨-, ho⟩ | ⟨-, hs⟩
    · exact hordered evs ho
    · exact h.ordered hs

/-- Appending events to the list of transaction `i`, as allocation and
    deallocation do. -/
theorem System.Inv.append {s : System} {i : Nat} {fs' : FileSystem} {evs new : List Event}
    (h : s.Inv) (hi : s.txs i = some evs) (hsame : s.fs.SameDisk fs') (hinv : fs'.buddies.Inv)
    (hfree : fs'.buddies.free ⊆ s.fs.buddies.free)
    (hok : ∀ e ∈ new, s.fs.EventOk e ∧ Disjoint (e.blocks s.fs.sb) fs'.buddies.free)
    (happart : ∀ e ∈ new, ∀ j evs', j ≠ i → s.txs j = some evs' → ∀ e' ∈ evs',
      Disjoint (e.blocks s.fs.sb) (e'.blocks s.fs.sb))
    (hafter : ∀ e ∈ evs, ∀ e' ∈ new, Disjoint (e.deallocated s.fs.sb) (e'.blocks s.fs.sb))
    (hordered : new.Pairwise fun e e' => Disjoint (e.deallocated s.fs.sb) (e'.blocks s.fs.sb)) :
    System.Inv { fs := fs', txs := Function.update s.txs i (some (evs ++ new)) } := by
  -- The other transactions lose no block, and this one gains events that are apart from all of
  -- them.
  refine h.update (h.mounted.of_sameDisk hsame hinv fun x hx => h.mounted.free x (hfree hx))
    hsame.sb hsame.bitmapLba ?_ ?_ ?_ ?_
  · exact fun j evs' _ hj e he => (h.notFree hj e he).mono_right hfree
  · intro evs' heq e he
    cases heq
    rcases List.mem_append.mp he with he | he
    · exact ⟨h.eventOk hi e he, (h.notFree hi e he).mono_right hfree⟩
    · exact hok e he
  · intro evs' heq e he j evs'' hj htx e' he'
    cases heq
    rcases List.mem_append.mp he with he | he
    · exact h.apart hj.symm hi htx e he e' he'
    · exact happart e he j evs'' hj htx e' he'
  · intro evs' heq
    cases heq
    exact List.pairwise_append.mpr ⟨h.ordered hi, hordered, hafter⟩

/-! ## Steps -/

theorem System.Inv.allocate {s : System} {i ino size hope : Nat} {evs evs' : List Event}
    {fs' : FileSystem} {r : Except Fault (Nat × Nat)} (h : s.Inv) (hi : s.txs i = some evs)
    (hpos : 1 ≤ size) (hsize : size < 2 ^ 64) (hblk : 1 ≤ s.fs.blkSize)
    (hok : s.fs.allocate evs ino size hope = (r, fs', evs')) :
    System.Inv { fs := fs', txs := Function.update s.txs i (some evs') } := by
  obtain ⟨hinv, hsame, hfree, rfl | ⟨e, rfl, he, -, hin, hout⟩⟩ :=
    FileSystem.allocate_spec h.mounted hpos hsize hblk hok
  · rw [← List.append_nil evs']
    exact h.append hi hsame hinv hfree (by simp) (by simp) (by simp) List.Pairwise.nil
  · refine h.append hi hsame hinv hfree ?_ ?_ ?_ (List.pairwise_singleton _ _)
    · simpa using ⟨he, hout⟩
    -- The new blocks were free, and pending blocks are not.
    · intro e' he' j evs'' _ hj e'' he''
      rw [List.mem_singleton.mp he']
      exact ((h.notFree hj e'' he'').mono_right hin).symm
    · intro e' he' e'' he''
      rw [List.mem_singleton.mp he'']
      exact ((h.notFree hi e' he').mono_right hin).mono_left Set.subset_union_right

theorem System.Inv.deallocate {s : System} {i ino lba size : Nat} {evs evs' : List Event}
    {r : Except Fault Unit} (h : s.Inv) (hi : s.txs i = some evs)
    (hb : ∀ x ∈ Set.Ico lba (lba + size), s.fs.sb.HasBlock x ∧ x ∉ s.fs.buddies.free ∧
      ¬ s.PendingDeallocation x ∧ ¬ s.AllocatedElsewhere i x)
    (hok : s.fs.deallocate evs ino lba size = (r, evs')) :
    System.Inv { s with txs := Function.update s.txs i (some evs') } := by
  obtain ⟨new, hnew, hev, hpair⟩ := FileSystem.deallocate_spec evs ino h.mounted
    fun x hx => (hb x hx).1
  rw [hok] at hnew
  cases hnew
  -- A deallocation frees its range and takes nothing.
  have hblocks : ∀ e ∈ new, e.blocks s.fs.sb ⊆ Set.Ico lba (lba + size) := by
    intro e he
    obtain ⟨-, halloc, hsub⟩ := hev e he
    rw [Event.blocks, halloc, Set.empty_union]
    exact hsub
  refine h.append hi (FileSystem.SameDisk.refl _) h.mounted.buddy subset_rfl ?_ ?_ ?_ ?_
  · exact fun e he => ⟨(hev e he).1,
      Set.disjoint_left.mpr fun x hx => (hb x (hblocks e he hx)).2.1⟩
  · intro e he j evs'' hj htx e' he'
    refine Set.disjoint_left.mpr fun x hx hx' => ?_
    obtain ⟨-, -, hpend, helse⟩ := hb x (hblocks e he hx)
    rcases hx' with hx' | hx'
    · exact helse ⟨j, evs'', hj, htx, e', he', hx'⟩
    · exact hpend ⟨j, evs'', htx, e', he', hx'⟩
  · intro e he e' he'
    exact Set.disjoint_left.mpr fun x hx hx' =>
      (hb x (hblocks e' he' hx')).2.2.1 ⟨i, evs, hi, e, he, hx⟩
  · exact hpair.imp fun hd => hd.mono_left Set.subset_union_right

theorem System.Inv.commit {s : System} {i : Nat} {evs : List Event} {fs' : FileSystem} (h : s.Inv)
    (hi : s.txs i = some evs) (hok : s.fs.commit evs = .ok fs') :
    System.Inv { fs := fs', txs := Function.update s.txs i none } := by
  unfold FileSystem.commit at hok
  cases hw : WritebackGroup.compress s.fs.sb evs (.new s.fs.blocks) with
  | none => rw [hw] at hok; cases hok
  | some w =>
      rw [hw] at hok
      simp only at hok
      obtain ⟨hkeep, hclear, hpost⟩ := FileSystem.compress_spec h.mounted.bitmapInj
        (h.eventOk hi) (h.ordered hi) hw
      have hpost' : w.postludes = evs.flatMap FileSystem.postlude := by
        rw [hpost]; rfl
      rw [hpost'] at hok
      have hded : ∀ e : Event, e.deallocated s.fs.sb ⊆ e.blocks s.fs.sb :=
        fun e => Set.subset_union_right
      obtain ⟨hinv, hsame, hfree⟩ := FileSystem.applyPostludes_spec
        (show ({ s.fs with blocks := w.blocks } : FileSystem).buddies.Inv from h.mounted.buddy)
        (fun e he => by have := h.eventOk hi e he; cases e <;> exact this)
        ((h.ordered hi).imp fun {e e'} hd => hd.mono_right (hded e'))
        (fun e he => (h.notFree hi e he).mono_left (hded e)) hok
      -- The bitmaps are written; what was free before stays free in them.
      have hm : Mounted { s.fs with blocks := w.blocks } :=
        { buddy := h.mounted.buddy
          groups := h.mounted.groups
          bitmapInj := h.mounted.bitmapInj
          free := fun x hx => by
            obtain ⟨hb, hbit⟩ := h.mounted.free x hx
            refine ⟨hb, ?_⟩
            rw [hkeep x hb fun e he hxe => Set.disjoint_left.mp (h.notFree hi e he) hxe hx]
            exact hbit }
      refine h.update (hm.of_sameDisk hsame hinv ?_) hsame.sb hsame.bitmapLba ?_ (by simp)
        (by simp) (by simp)
      · intro x hx
        rw [hfree] at hx
        rcases hx with hx | ⟨e, he, hx⟩
        · exact hm.free x hx
        · have hb := FileSystem.EventOk.hasBlock (h.eventOk hi e he) hx
          exact ⟨hb, hclear x hb ⟨e, he, hx⟩⟩
      · intro j evs' hj htx e he
        rw [hfree, Set.disjoint_union_right]
        refine ⟨h.notFree htx e he, Set.disjoint_left.mpr ?_⟩
        rintro x hx ⟨e', he', hx'⟩
        exact Set.disjoint_left.mp (h.apart hj htx hi e he e' he') hx (hded e' hx')

/-- One step whose deallocations spare what is allocated elsewhere. -/
theorem Step.inv {s s' : System} (hstep : Step (fun s i x => ¬ s.AllocatedElsewhere i x) s s')
    (h : s.Inv) : s'.Inv := by
  cases hstep with
  | openTx hi =>
      exact h.update h.mounted rfl rfl (fun j evs _ hj => h.notFree hj) (by simp) (by simp)
        (by simp)
  | allocate hi hpos hsize hblk hok _ => exact h.allocate hi hpos hsize hblk hok
  | deallocate hi hb hok _ => exact h.deallocate hi hb hok
  | commit hi hok => exact h.commit hi hok

theorem Run.inv {s s' : System} (hrun : Run (fun s i x => ¬ s.AllocatedElsewhere i x) s s')
    (h : s.Inv) : s'.Inv := by
  induction hrun with
  | refl => exact h
  | tail _ hstep ih => exact hstep.inv ih

/-- In every run from a mounted file system in which no transaction gives back a
    block that another open transaction has handed out, every free block has a
    clear bit, in each state of the run. -/
theorem free_clear_of_run {fs : FileSystem} {s : System} (hm : Mounted fs)
    (hrun : Run (fun s i x => ¬ s.AllocatedElsewhere i x) ⟨fs, fun _ => none⟩ s) :
    ∀ x ∈ s.fs.buddies.free, s.fs.bit x = some false :=
  fun x hx => ((hrun.inv hm.inv).mounted.free x hx).2

/-! ## Two transactions over one block -/

/-- A bitmap block in which positions 8 and 9 are clear. -/
def bitmapBlock : Bytes := 0xff :: 0xfc :: List.replicate 4094 0xff

theorem length_bitmapBlock : bitmapBlock.length = 4096 := by
  rw [bitmapBlock, List.length_cons, List.length_cons, List.length_replicate]

/-- One group of 4096-byte blocks whose bitmap is in block 2; blocks 8 and 9 are free. -/
def twoFree : FileSystem where
  blkSize := 4096
  sb :=
    { isDirEntryVersion2 := true, inodeSize := 256, inodesPerGroup := 8192
      featuresIncompatible := 0, featuresReadonly := 0, firstDataBlock := 0
      blocksPerGroup := 32768, creatorOs := 0, revLevel := 1, bgCount := 1, wantExtraIsize := 32
      firstDataBlock_le := SuperBlock.zero_firstDataBlock_le
      blocksPerGroup_pos := SuperBlock.groupOf32768_pos
      blocksPerGroup_lt := SuperBlock.groupOf32768_lt
      bgCount_lt := SuperBlock.oneGroup_lt }
  blockGroups := fun g =>
    if g = 0 then some { blockBitmapLba := 2, blocksCount := 32768, freeBlocksCount := 2 } else none
  buddies := (Block.BlockGroupBuddy.new 5).setEntry 8 1
  blocks := fun lba => if lba = 2 then some bitmapBlock else none

theorem pushChunk_one (b : Block.BlockGroupBuddy) (start : Nat) :
    b.pushChunk false start 1 = .ok (b.setEntry start 0) := by
  have h0 : Block.BlockGroupBuddy.chunkOrder b.maxOrder start 1 = 0 := by
    have h63 : 63 - Block.leadingZeros 1 = 0 := by decide
    simp [Block.BlockGroupBuddy.chunkOrder, h63]
  simp [Block.BlockGroupBuddy.pushChunk, Block.BlockGroupBuddy.insert, h0]

theorem mem_free_twoFree {x : Nat} (hx : x ∈ twoFree.buddies.free) : x = 8 ∨ x = 9 := by
  obtain ⟨s, o, hs, h1, h2⟩ := hx
  simp only [twoFree, Block.BlockGroupBuddy.setEntry] at hs
  by_cases h8 : s = 8
  · subst h8
    simp only [Function.update_self, Option.some.injEq] at hs
    subst hs
    omega
  · simp [Function.update_of_ne h8] at hs

theorem mounted_twoFree : Mounted twoFree where
  buddy := by
    have h1 : Block.BlockGroupBuddy.chunkOrder 5 8 2 = 1 := by decide
    obtain ⟨b, hb, hinv, -⟩ := Block.BlockGroupBuddy.pushChunk_spec
      (Block.BlockGroupBuddy.new_inv 5) (show 8 + 2 ≤ 2 ^ 64 - 1 by decide)
      (by rw [Block.BlockGroupBuddy.new_free]; exact Set.disjoint_empty _)
    simp [Block.BlockGroupBuddy.pushChunk, Block.BlockGroupBuddy.insert, h1,
      show (Block.BlockGroupBuddy.new 5).maxOrder = 5 from rfl] at hb
    rw [← hb] at hinv
    exact hinv
  groups := by
    intro g bg hbg
    simp only [twoFree] at hbg
    split at hbg
    case isTrue hg =>
      cases hbg
      subst hg
      exact ⟨by decide, rfl⟩
    case isFalse => cases hbg
  bitmapInj := by
    intro g g' lba hg hg'
    simp only [FileSystem.bitmapLba, twoFree] at hg hg'
    split at hg
    case isTrue h0 =>
      split at hg'
      case isTrue h0' => rw [h0, h0']
      case isFalse => cases hg'
    case isFalse => cases hg
  free := by
    intro x hx
    rcases mem_free_twoFree hx with rfl | rfl <;> exact ⟨⟨by decide, by decide⟩, by decide⟩

/-- The buddy structure after block 8 was split off. -/
def splitEight : Block.BlockGroupBuddy := (twoFree.buddies.eraseEntry 8 1).setEntry 9 0

theorem tryAllocateAt_twoFree :
    twoFree.buddies.tryAllocateAt 1 (some 100) = .ok (some (8, 1), splitEight) := by
  have hchain : twoFree.buddies.chainFrom 100 1 0 = 0 := by
    rw [Block.BlockGroupBuddy.chainFrom]
    rfl
  have hfirst : twoFree.buddies.firstIn [0, 1, 2, 3, 4, 5] = some (8, 1) := by
    change ((Block.BlockGroupBuddy.new 5).setEntry 8 1).firstIn [0, 1, 2, 3, 4, 5] = _
    simp [Block.BlockGroupBuddy.firstIn, Block.BlockGroupBuddy.setEntry,
      Block.BlockGroupBuddy.new]
  have horders : (List.range (twoFree.buddies.maxOrder + 1)).drop
      (Block.BlockGroupBuddy.minFitOrder 1) = [0, 1, 2, 3, 4, 5] := by decide
  simp only [Block.BlockGroupBuddy.tryAllocateAt, hchain, Nat.not_lt_zero, if_false,
    Block.BlockGroupBuddy.allocateAnywhere, horders, hfirst]
  rw [show 8 + 1 = 9 from rfl, show 2 ^ 1 - 1 = 1 from rfl, pushChunk_one]
  rfl

/-- The event of the allocation of block 8. -/
def allocatedEight : Event := .blockAllocationOnBg 12 0 2 8 1

/-- `twoFree` after block 8 was handed out. -/
def oneFree : FileSystem :=
  { twoFree with buddies := splitEight }.allocateBlocks 0
    { blockBitmapLba := 2, blocksCount := 32768, freeBlocksCount := 2 } 1

theorem allocate_twoFree :
    twoFree.allocate [] 12 1 100 = (.ok (8, 1), oneFree, [allocatedEight]) := by
  have hblk : min 1 (twoFree.blkSize * 4) = 1 := by decide
  have hinto : twoFree.sb.intoBgidIndex 8 = some (0, 8) := by decide
  have hbg : twoFree.blockGroups 0 =
    some { blockBitmapLba := 2, blocksCount := 32768, freeBlocksCount := 2 } := rfl
  have hfrom : twoFree.sb.fromBgidIndex 0 8 = 8 := by decide
  simp only [FileSystem.allocate, hblk, tryAllocateAt_twoFree, hinto, FileSystem.getBlockGroup,
    hbg, hfrom]
  rfl

/-- The event of its deallocation. -/
def deallocatedEight : Event := .blockDeallocationOnBg 13 0 2 8 1

section

variable {fs : FileSystem} {blocks : Nat → Option Bytes} {b : Bytes}

/-- A commit of the allocation. -/
theorem commit_allocatedEight (hb : fs.blocks 2 = some b) (hlen : b.length = 4096) :
    fs.commit [allocatedEight] = .ok { fs with
      blocks := Function.update fs.blocks 2 (some (Transaction.setBitmap b 8 1)) } := by
  simp only [FileSystem.commit, WritebackGroup.compress, WritebackGroup.apply, allocatedEight,
    WritebackGroup.updateBitmap, WritebackGroup.updateBg, WritebackGroup.updateSb,
    WritebackGroup.pushOp, WritebackGroup.new, hb, hlen]
  simp [FileSystem.applyPostludes]

/-- `oneFree` over these blocks, with block 8 back in the buddy structure. -/
def bothFree (blocks : Nat → Option Bytes) : FileSystem :=
  { oneFree with
    blocks := blocks
    buddies := splitEight.setEntry 8 0
    blockGroups := Function.update oneFree.blockGroups 0
      (some { blockBitmapLba := 2, blocksCount := 32768, freeBlocksCount := 2 }) }

theorem deallocate_oneFree (blocks : Nat → Option Bytes) :
    { oneFree with blocks := blocks }.deallocate [] 13 8 1 = (.ok (), [deallocatedEight]) := by
  have hinto : oneFree.sb.intoBgidIndex 8 = some (0, 8) := by decide
  have hbg : oneFree.blockGroups 0 =
    some { blockBitmapLba := 2, blocksCount := 32768, freeBlocksCount := 1 } := rfl
  rw [FileSystem.deallocate]
  simp only [hinto, FileSystem.getBlockGroup, hbg, Nat.lt_one_iff, if_true]
  rw [FileSystem.deallocate]
  simp [deallocatedEight]

/-- A commit of the deallocation. -/
theorem commit_deallocatedEight (blocks : Nat → Option Bytes) (hb : blocks 2 = some b)
    (hlen : b.length = 4096) :
    { oneFree with blocks := blocks }.commit [deallocatedEight] =
      .ok (bothFree (Function.update blocks 2 (some (Transaction.unsetBitmap b 8 1)))) := by
  have hbg : oneFree.blockGroups 0 =
    some { blockBitmapLba := 2, blocksCount := 32768, freeBlocksCount := 1 } := rfl
  have hfrom : oneFree.sb.fromBgidIndex 0 8 = 8 := by decide
  simp only [FileSystem.commit, WritebackGroup.compress, WritebackGroup.apply, deallocatedEight,
    WritebackGroup.updateBitmap, WritebackGroup.updateBg, WritebackGroup.updateSb,
    WritebackGroup.pushOp, WritebackGroup.pushPostlude, WritebackGroup.new, hb, hlen]
  simp [FileSystem.applyPostludes, FileSystem.applyDeallocationOnCore, FileSystem.getBlockGroup,
    hbg, hfrom, pushChunk_one]
  rfl

end

theorem length_setEight : (Transaction.setBitmap bitmapBlock 8 1).length = 4096 :=
  (Transaction.length_updateRange Transaction.setBit_forces ..).trans length_bitmapBlock

theorem length_unsetEight : (Transaction.unsetBitmap bitmapBlock 8 1).length = 4096 :=
  (Transaction.length_updateRange Transaction.clearBit_forces ..).trans length_bitmapBlock

/-- Block 8 is not free in `splitEight`. -/
theorem eight_taken : 8 ∉ splitEight.free :=
  Set.disjoint_left.mp (Block.BlockGroupBuddy.tryAllocateAt_takes mounted_twoFree.buddy
    (by decide) (by decide) tryAllocateAt_twoFree).2.1 ⟨Nat.le_refl 8, Nat.lt_succ_self 8⟩

/-- One transaction hands out block 8 and commits, and the next one gives it back and
    commits. -/
theorem free_clear_of_run_givenBack : ∃ s,
    Run (fun s i x => ¬ s.AllocatedElsewhere i x) ⟨twoFree, fun _ => none⟩ s ∧
      (∀ i, s.txs i = none) ∧ 8 ∈ s.fs.buddies.free ∧ s.fs.bit 8 = some false := by
  have h0 : Run (fun s i x => ¬ s.AllocatedElsewhere i x) ⟨twoFree, fun _ => none⟩ _ :=
    (Run.refl _).tail (.openTx (i := 0) rfl)
  have h1 := h0.tail (.allocate (i := 0) rfl (by decide) (by decide) (by decide) allocate_twoFree
    (by simp))
  have h2 := h1.tail (.commit (i := 0) rfl
    (commit_allocatedEight (b := bitmapBlock) rfl length_bitmapBlock))
  have h3 := h2.tail (.openTx (i := 0) (by simp))
  simp only [Function.update_idem] at h3
  -- The open transaction has no events yet.
  have hnone : ∀ j evs e, Function.update (fun _ => none) 0 (some ([] : List Event)) j = some evs →
      e ∉ evs := by
    intro j evs e hj he
    by_cases hj0 : j = 0
    · subst hj0
      cases hj
      cases he
    · rw [Function.update_of_ne hj0] at hj
      cases hj
  have h4 := h3.tail (.deallocate (i := 0) rfl (fun x (hx : x ∈ Set.Ico 8 (8 + 1)) => ?_)
    (deallocate_oneFree _) (by simp))
  · have h5 := h4.tail (.commit (i := 0) rfl (commit_deallocatedEight _ rfl length_setEight))
    have hfree : 8 ∈ (splitEight.setEntry 8 0).free := ⟨8, 0, rfl, by decide, by decide⟩
    refine ⟨_, h5, fun j => ?_, hfree, free_clear_of_run mounted_twoFree h5 8 hfree⟩
    simp only [Function.update_idem, Function.update_apply]
    split <;> rfl
  · obtain ⟨h1, h2⟩ := hx
    obtain rfl : x = 8 := by omega
    refine ⟨⟨by decide, by decide⟩, eight_taken, ?_, ?_⟩
    · rintro ⟨j, evs, hj, e, he, -⟩
      exact hnone j evs e hj he
    · rintro ⟨j, evs, -, hj, e, he, -⟩
      exact hnone j evs e hj he

/-- The first transaction hands out block 8, the second gives it back and commits
    before the first: block 8 ends up free with its bit set, and nothing is open. -/
theorem free_set_after_reordered_commits :
    Mounted twoFree ∧ ∃ s, Run (fun _ _ _ => True) ⟨twoFree, fun _ => none⟩ s ∧
      (∀ i, s.txs i = none) ∧ 8 ∈ s.fs.buddies.free ∧ s.fs.bit 8 = some true := by
  have h0 : Run (fun _ _ _ => True) ⟨twoFree, fun _ => none⟩ _ :=
    (Run.refl _).tail (.openTx (i := 0) rfl)
  have h1 := h0.tail (.openTx (i := 1) rfl)
  have h2 := h1.tail (.allocate (i := 0) rfl (by decide) (by decide) (by decide) allocate_twoFree
    (by simp))
  -- The block is freed by the second transaction while the first holds it.
  have h3 := h2.tail (.deallocate (i := 1) rfl (fun x (hx : x ∈ Set.Ico 8 (8 + 1)) => ?_)
    (deallocate_oneFree oneFree.blocks) (by simp))
  · have h4 := h3.tail (.commit (i := 1) rfl
      (commit_deallocatedEight oneFree.blocks rfl length_bitmapBlock))
    have h5 := h4.tail (.commit (i := 0) rfl (commit_allocatedEight rfl length_unsetEight))
    refine ⟨mounted_twoFree, _, h5, fun j => ?_, ⟨8, 0, rfl, by decide, by decide⟩, ?_⟩
    · simp only [Function.update_apply]
      split <;> [rfl; split <;> rfl]
    · have hbit : bitAt (Transaction.setBitmap (Transaction.unsetBitmap bitmapBlock 8 1) 8 1) 8
          = true := by
        rw [Transaction.bitAt_setBitmap (Or.inl (by rw [length_unsetEight]; decide)),
          if_pos (by decide)]
      change some _ = some true
      exact congrArg some hbit
  · obtain ⟨h1, h2⟩ := hx
    obtain rfl : x = 8 := by omega
    refine ⟨⟨by decide, by decide⟩, eight_taken, ?_, trivial⟩
    rintro ⟨j, evs, hj, e, he, hx⟩
    simp only [Function.update_apply] at hj
    split at hj
    · cases hj
      rw [List.mem_singleton.mp he] at hx
      exact hx
    · split at hj
      · cases hj; cases he
      · cases hj

end BlockRuns
end RustExt4
