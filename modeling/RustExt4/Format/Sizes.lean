/-
  RustExt4.Format.Sizes

  Which device sizes `format` can lay out with blocks of 4096 bytes.  Every group gets
  the same own blocks, and the last group can be shorter than the others: the number of
  its blocks decides.  `fill_bg` counts with the shorter group in its free blocks
  (`total_blocks.min`) and in the padding of its bitmap, and lays out its own blocks
  as if it were whole.
-/
import RustExt4.Format.Marks
import RustExt4.Superblock.Sparse

namespace RustExt4.Format

open ExceptRun

/-- The own blocks of a group: with a copy of the superblock the copy and the descriptors
    behind it, and always the bitmaps and the inode table. -/
def OwnBlock (sb : DescriptorSb) (g b : Nat) : Prop :=
  sb.isSuperInBg g = true ∧
      b ∈ Set.Icc (sb.firstBgBlockNo g) (sb.firstBgBlockNo g + sb.descBlocks) ∨
    b ∈ Set.Ico (sb.startBlock g + 1) (sb.startBlock g + 3 + sb.inodeBlocks)

/-- The groups keep apart: each with its own blocks inside of the group and the device. -/
structure LaidOut (sb : DescriptorSb) : Prop where
  inside : ∀ g < sb.bgsCount, ∀ b, OwnBlock sb g b → InGroup sb g b ∧ b < sb.blocksCount
  apart : ∀ g < sb.bgsCount, ∀ g' < sb.bgsCount, g ≠ g' → ∀ b, OwnBlock sb g b → ¬ OwnBlock sb g' b

def blk4096 : BlockSize := ⟨4096, by decide⟩

/-- Formatting a device of `totalSize` bytes panics at no step, whatever the device does, and
    lays out the groups. -/
def Formats (totalSize : Nat) : Prop :=
  ∃ aux sb, FormatAux.new totalSize blk4096 = .ok aux ∧ makeSb aux = .ok sb ∧
    (∀ (C : Config blk4096) image csum dev, fillBg C image csum sb dev ≠ .error .panic) ∧
    LaidOut sb

/-- The groups that hold a copy of the superblock under `SPARSE_SUPER`. -/
def sparseGroup (grp : Nat) : Bool :=
  if grp ≤ 1 then true
  else if grp % 2 = 0 then false
  else isPowerOfN grp grp 3 || isPowerOfN grp grp 5 || isPowerOfN grp grp 7

theorem sparseGroup_iff (g : Nat) :
    sparseGroup g = true ↔ g ≤ 1 ∨ IsPower 3 g ∨ IsPower 5 g ∨ IsPower 7 g := sparse_iff g

/-- The last group of a device of `blocks` blocks has room for what every group gets: the
    blocks of the descriptors, a block for the superblock copy where it has one, three
    blocks more, and the inode table. -/
def LastGroupFits (blocks : Nat) : Prop :=
  divCeil (divCeil blocks 32768 * 32) 4096 +
      (if sparseGroup (divCeil blocks 32768 - 1) then 1 else 0) + 3 +
      divCeil (blocks / divCeil blocks 32768 / 4) 16 ≤
    blocks - (divCeil blocks 32768 - 1) * 32768

/-! ## The numbers of a device -/

/-- What `make_sb` gives for a device of `blocks` blocks. -/
structure Numbers (blocks : Nat) (sb : DescriptorSb) : Prop where
  formatted : Formatted blk4096 sb
  firstDataBlock : sb.firstDataBlock = 0
  blocksPerGroup : sb.blocksPerGroup = 32768
  blocksCount : sb.blocksCount = blocks
  bgsCount : sb.bgsCount = divCeil blocks 32768
  bgCount : sb.bgCount = sb.bgsCount
  descBlocks : sb.descBlocks = divCeil (divCeil blocks 32768 * 32) 4096
  inodesPerGroup : sb.inodesPerGroup = sb.inodeBlocks * 16
  inodesCount : sb.inodesCount = sb.inodesPerGroup * sb.bgsCount
  inodeBlocks : sb.inodeBlocks = divCeil (blocks / divCeil blocks 32768 / 4) 16
  isSuperInBg : ∀ g, sb.isSuperInBg g = sparseGroup g
  /-- The bounds of the groups and of their inode tables. -/
  groups_pos : 0 < sb.bgsCount
  groups_le : sb.bgsCount ≤ 131072
  inodes_pos : 0 < sb.inodeBlocks
  inodes_le : sb.inodeBlocks ≤ 512
  last_pos : (sb.bgsCount - 1) * 32768 < blocks
  last_le : blocks ≤ sb.bgsCount * 32768

section Numbers
variable {blocks totalSize : Nat}

/-- The groups of a device that has at least a full one. -/
theorem groups_bounds (hlo : 32768 ≤ blocks) (hhi : blocks < 2 ^ 32) :
    0 < divCeil blocks 32768 ∧ divCeil blocks 32768 ≤ 131072 ∧
      (divCeil blocks 32768 - 1) * 32768 < blocks ∧ blocks ≤ divCeil blocks 32768 * 32768 ∧
      0 < blocks / divCeil blocks 32768 / 4 ∧ blocks / divCeil blocks 32768 / 4 ≤ 8192 := by
  have hn : divCeil blocks 32768 = (blocks + 32767) / 32768 := rfl
  generalize divCeil blocks 32768 = n at hn ⊢
  have hpos : 0 < n := by omega
  have hle : blocks ≤ n * 32768 := by omega
  have hdiv : blocks / n ≤ 32768 := Nat.div_le_of_le_mul hle
  have hfour : 4 ≤ blocks / n := (Nat.le_div_iff_mul_le hpos).mpr (by omega)
  refine ⟨hpos, by omega, by omega, hle, ?_, ?_⟩ <;> omega

/-- `FormatAux::new` and `make_sb` go through. -/
theorem exists_sb (hlo : 32768 ≤ totalSize / 4096) (hhi : totalSize / 4096 < 2 ^ 32) :
    ∃ aux sb, FormatAux.new totalSize blk4096 = .ok aux ∧ makeSb aux = .ok sb ∧
      aux.blocksCnt = totalSize / 4096 := by
  obtain ⟨hpos, hle, -, -, htmp, htmp'⟩ := groups_bounds hlo hhi
  simp only [FormatAux.new, show blk4096.val = 4096 from rfl]
  generalize totalSize / 4096 = blocks at *
  generalize divCeil blocks (4096 * 8) = n at *
  generalize blocks / n / 4 = tmp at *
  generalize hipg : divCeil tmp 16 * 16 = ipg
  have hipg' : ipg = (tmp + 15) / 16 * 16 := hipg.symm
  have hmul : ipg * n ≤ 8192 * 131072 := Nat.mul_le_mul (by omega) hle
  have hmin : 16 * 1 ≤ ipg * n := Nat.mul_le_mul (by omega) hpos
  have hmod : n % 2 ^ 32 = n := Nat.mod_eq_of_lt (by omega)
  rw [if_neg (by omega), hmod, if_neg (by omega)]
  refine ⟨_, _, rfl, if_neg ?_, rfl⟩
  show ¬ (ipg * n < 9 ∨ 2 ^ 32 ≤ blocks)
  omega

theorem isSuperInBg_eq {sb : DescriptorSb}
    (h : containsFlag sb.featuresReadonly featureSparseSuper = true) (g : Nat) :
    sb.isSuperInBg g = sparseGroup g := by
  simp only [DescriptorSb.isSuperInBg, isSuperInBg, sbSparse, h, sparseGroup, Bool.not_true,
    Bool.false_or, Bool.false_eq_true, if_false]

theorem exists_numbers (hlo : 32768 ≤ totalSize / 4096) (hhi : totalSize / 4096 < 2 ^ 32) :
    ∃ aux sb, FormatAux.new totalSize blk4096 = .ok aux ∧ makeSb aux = .ok sb ∧
      Numbers (totalSize / 4096) sb := by
  obtain ⟨hpos, hle, hlast, hends, htmp, htmp'⟩ := groups_bounds hlo hhi
  obtain ⟨aux, sb, haux, hsb, hcnt⟩ := exists_sb hlo hhi
  refine ⟨aux, sb, haux, hsb, ?_⟩
  obtain ⟨hsize, hbpg, hfdb, hipg, -, hicnt⟩ := FormatAux.new_spec haux
  obtain ⟨-, hblocks, hinodes, hipg', hisize, hblksize, hsparse⟩ := makeSb_spec hsb
  have hf := Formatted.of_makeSb haux hsb
  rw [hcnt, show blk4096.val * 8 = 32768 from rfl] at hipg hicnt
  rw [hcnt] at hblocks
  have hfdb0 : sb.firstDataBlock = 0 := hf.firstDataBlock
  have hbpg' : sb.blocksPerGroup = 32768 := hf.blocksPerGroup
  have hmod : divCeil (totalSize / 4096) 32768 % 2 ^ 32 = divCeil (totalSize / 4096) 32768 :=
    Nat.mod_eq_of_lt (by omega)
  have hgroups : sb.bgsCount = divCeil (totalSize / 4096) 32768 := by
    rw [DescriptorSb.bgsCount, hfdb0, hblocks, hbpg', Nat.sub_zero, hmod]
  have hgroups' : sb.bgCount = divCeil (totalSize / 4096) 32768 := by
    rw [hf.bgCount, hblocks, hbpg', hmod]
  have hdesc : sb.descBlocks = divCeil (divCeil (totalSize / 4096) 32768 * 32) 4096 := by
    rw [DescriptorSb.descBlocks, hf.blockDescSize, hf.blkSize, hgroups, Nat.mul_comm]
    rfl
  -- A block of the table holds 16 inodes.
  have htable :
      sb.inodeBlocks = divCeil (totalSize / 4096 / divCeil (totalSize / 4096) 32768 / 4) 16 := by
    rw [DescriptorSb.inodeBlocks, hipg', hipg, hisize, hblksize, hsize]
    generalize totalSize / 4096 / divCeil (totalSize / 4096) 32768 / 4 = tmp at *
    show (((tmp + 15) / 16 * 16 * 256 + 4095) / 4096) % 2 ^ 32 = (tmp + 15) / 16
    omega
  have hceil : ∀ tmp, divCeil tmp 16 = (tmp + 15) / 16 := fun _ => rfl
  exact
    { formatted := hf
      firstDataBlock := hfdb0
      blocksPerGroup := hbpg'
      blocksCount := hblocks
      bgsCount := hgroups
      bgCount := hgroups'.trans hgroups.symm
      descBlocks := hdesc
      inodesPerGroup := by rw [hipg', hipg, htable]
      inodesCount := by rw [hinodes, hicnt, hipg', hgroups, hmod]
      inodeBlocks := htable
      isSuperInBg := isSuperInBg_eq hsparse
      groups_pos := by omega
      groups_le := by omega
      inodes_pos := by rw [htable, hceil]; omega
      inodes_le := by rw [htable, hceil]; omega
      last_pos := by rw [hgroups]; exact hlast
      last_le := by rw [hgroups]; exact hends }

variable {sb : DescriptorSb} {g : Nat}

theorem Numbers.desc_le (h : Numbers blocks sb) : sb.descBlocks ≤ 1024 := by
  have hle := h.groups_le
  rw [h.bgsCount] at hle
  rw [h.descBlocks]
  show (divCeil blocks 32768 * 32 + 4095) / 4096 ≤ 1024
  omega

theorem Numbers.startBlock (h : Numbers blocks sb) (g : Nat) : sb.startBlock g =
    g * 32768 + sb.descBlocks + if sparseGroup g then 1 else 0 := by
  rw [DescriptorSb.startBlock, h.firstDataBlock, h.blocksPerGroup, h.isSuperInBg, Nat.zero_add]

theorem sparse_le (g : Nat) : (if sparseGroup g then 1 else 0) ≤ 1 := by split <;> decide

/-- A group ends with its own blocks inside of the device, the last one where it fits. -/
theorem Numbers.own_end (h : Numbers blocks sb) (hg : g < sb.bgsCount)
    (hlast : g = sb.bgsCount - 1 → LastGroupFits blocks) :
    sb.startBlock g + 3 + sb.inodeBlocks ≤ (g + 1) * 32768 ∧
      sb.startBlock g + 3 + sb.inodeBlocks ≤ blocks := by
  have hdesc := h.desc_le
  have hle := h.inodes_le
  have hone := sparse_le g
  have hpos := h.last_pos
  rw [h.startBlock]
  by_cases heq : g = sb.bgsCount - 1
  · have hfits := hlast heq
    rw [LastGroupFits, ← h.descBlocks, ← h.inodeBlocks, ← h.bgsCount, ← heq] at hfits
    omega
  · omega

theorem Numbers.freeBlocks (h : Numbers blocks sb) (hg : g < sb.bgsCount)
    (hlast : g = sb.bgsCount - 1 → LastGroupFits blocks) :
    ∃ free, freeBlocks sb g (sb.blocksCount - g * sb.blocksPerGroup) = .ok free := by
  obtain ⟨hgroup, hdev⟩ := h.own_end hg hlast
  have hdesc := h.desc_le
  have hle := h.inodes_le
  rw [h.startBlock] at hgroup hdev
  have htwo : (if g = sb.bgsCount - 1 then 2 + sb.firstDataBlock else 2) = 2 := by
    rw [h.firstDataBlock, ite_self]
  have hsuper : (if sparseGroup g then 1 + sb.descBlocks else 0) ≤
      sb.descBlocks + if sparseGroup g then 1 else 0 := by
    split <;> omega
  have hmin : min (blocks - g * 32768) 32768 % 2 ^ 32 = min (blocks - g * 32768) 32768 :=
    Nat.mod_eq_of_lt (by omega)
  rw [freeBlocks_eq, htwo, h.blocksPerGroup, h.blocksCount, h.isSuperInBg, hmin,
    Nat.mod_eq_of_lt (a := sb.descBlocks) (by omega)]
  exact ⟨_, if_neg (by omega)⟩

theorem Numbers.itableUnused (h : Numbers blocks sb) (hg : g < sb.bgsCount) :
    Format.itableUnused sb g = .ok (sb.inodesPerGroup - 1) := by
  have hipg := h.inodesPerGroup
  have hpos := h.inodes_pos
  have hle := h.inodes_le
  have hgroups := h.groups_le
  have hone : checkedSub sb.inodesPerGroup 1 = .ok (sb.inodesPerGroup - 1) := if_neg (by omega)
  unfold Format.itableUnused
  by_cases hlast : sb.bgsCount - 1 = g
  · have hmul : sb.inodesPerGroup * (sb.bgsCount - 1) ≤ 8192 * 131072 :=
      Nat.mul_le_mul (by omega) (by omega)
    have hsub : sb.inodesCount - sb.inodesPerGroup * (sb.bgsCount - 1) = sb.inodesPerGroup := by
      rw [h.inodesCount, ← Nat.mul_sub, Nat.sub_sub_self h.groups_pos, Nat.mul_one]
    have hge : sb.inodesPerGroup * (sb.bgsCount - 1) ≤ sb.inodesCount := by
      rw [h.inodesCount]
      exact Nat.mul_le_mul_left _ (Nat.sub_le _ _)
    rw [if_pos hlast, if_neg (by omega)]
    exact (bind_of_ok ((if_neg (by omega)).trans (by rw [hsub])) _).trans hone
  · rw [if_neg hlast]
    exact hone

theorem Numbers.fits (h : Numbers blocks sb) (hhi : blocks < 2 ^ 32) (hg : g < sb.bgsCount)
    (hlast : g = sb.bgsCount - 1 → LastGroupFits blocks) : Fits sb g := by
  obtain ⟨hgroup, hdev⟩ := h.own_end hg hlast
  have hipg := h.inodesPerGroup
  have hle := h.inodes_le
  have hpos := h.inodes_pos
  exact
    { free := h.freeBlocks hg hlast
      unused := ⟨_, by omega, h.itableUnused hg⟩
      start := by omega
      room := by rw [h.blocksPerGroup]; exact hgroup }

theorem Numbers.laidOut (h : Numbers blocks sb) (hlast : LastGroupFits blocks) : LaidOut sb := by
  have hinside : ∀ g < sb.bgsCount, ∀ b, OwnBlock sb g b → InGroup sb g b ∧ b < sb.blocksCount := by
    intro g hg b hown
    obtain ⟨hgroup, hdev⟩ := h.own_end hg fun _ => hlast
    have hstart := h.startBlock g
    have hdesc := h.desc_le
    rw [InGroup, DescriptorSb.firstBgBlockNo, DescriptorSb.firstBgBlockNo, firstBgBlockNo,
      firstBgBlockNo, h.firstDataBlock,
      h.blocksPerGroup, h.blocksCount]
    rcases hown with ⟨-, hb⟩ | hb
    · rw [DescriptorSb.firstBgBlockNo, firstBgBlockNo, h.firstDataBlock, h.blocksPerGroup,
        Set.mem_Icc] at hb
      omega
    · rw [Set.mem_Ico] at hb
      omega
  refine ⟨hinside, fun g hg g' hg' hne b hown hown' => ?_⟩
  -- A block is in one group only.
  obtain ⟨⟨hlo, hhi⟩, -⟩ := hinside g hg b hown
  obtain ⟨⟨hlo', hhi'⟩, -⟩ := hinside g' hg' b hown'
  simp only [DescriptorSb.firstBgBlockNo, firstBgBlockNo, h.firstDataBlock,
    h.blocksPerGroup] at hlo hhi hlo' hhi'
  omega

end Numbers

/-! ## Which sizes can be formatted -/

/-- A write of a device fails with an error of the device. -/
theorem writeBlock_ends {blk : BlockSize} {C : Config blk} (dev : C.Dev) (n : Nat) (b : Bytes) :
    Ends (fun e => e ≠ .panic) (fun _ => True) (C.writeBlock dev n b) := by
  unfold Config.writeBlock
  cases C.writeBytes dev (n * blk) b with
  | error e => exact fun h => nomatch h
  | ok dev' => exact trivial

/-- A device with at least one full group can be formatted just where the last group has
    room. -/
theorem formats_iff {totalSize : Nat} (hlo : 32768 ≤ totalSize / 4096)
    (hhi : totalSize / 4096 < 2 ^ 32) :
    Formats totalSize ↔ LastGroupFits (totalSize / 4096) := by
  obtain ⟨aux, sb, haux, hsb, h⟩ := exists_numbers hlo hhi
  constructor
  · rintro ⟨aux', sb', haux', hsb', -, hlaid⟩
    obtain rfl : aux' = aux := Except.ok.inj (haux'.symm.trans haux)
    obtain rfl : sb' = sb := Except.ok.inj (hsb'.symm.trans hsb)
    -- The end of the last group's inode table is on the device.
    have hpos := h.groups_pos
    have hown : OwnBlock sb' (sb'.bgsCount - 1)
        (sb'.startBlock (sb'.bgsCount - 1) + 2 + sb'.inodeBlocks) :=
      Or.inr (Set.mem_Ico.mpr (by omega))
    obtain ⟨-, hdev⟩ := hlaid.inside _ (by omega) _ hown
    rw [h.startBlock, h.blocksCount] at hdev
    rw [LastGroupFits, ← h.descBlocks, ← h.inodeBlocks, ← h.bgsCount]
    omega
  · intro hlast
    refine ⟨aux, sb, haux, hsb, fun C image csum dev hpanic => ?_, h.laidOut hlast⟩
    have hipg := h.inodesPerGroup
    have hle := h.inodes_le
    have hpos := h.inodes_pos
    have hends := @fillBg_ends blk4096 C image csum sb (fun e => e ≠ .panic) dev writeBlock_ends
      h.formatted (by omega) (by rw [h.firstDataBlock]; omega) fun g hg =>
        h.fits hhi hg fun _ => hlast
    rw [hpanic] at hends
    exact hends rfl

/-- A device of two full groups and 1000 blocks more. -/
theorem formats_iff_lastOf1000 : Formats (66536 * 4096) := by
  refine (formats_iff (by decide) (by decide)).mpr ?_
  show divCeil (3 * 32) 4096 + (if sparseGroup 2 then 1 else 0) + 3 + divCeil (66536 / 3 / 4) 16 ≤
    66536 - 2 * 32768
  decide

/-- Where the free blocks of the last group go below 0, `fill_bg` panics. -/
theorem Numbers.fillBg_panics {blocks : Nat} {sb : DescriptorSb} (h : Numbers blocks sb)
    (hhi : blocks < 2 ^ 32)
    (hfree : Format.freeBlocks sb (sb.bgsCount - 1) (blocks - (sb.bgsCount - 1) * 32768) =
      .error .panic) (image : Nat → Bytes) (csum : Nat → Bytes → Nat)
    (dev : (memConfig blk4096).Dev) :
    fillBg (memConfig blk4096) image csum sb dev = .error .panic := by
  have hipg := h.inodesPerGroup
  have hle := h.inodes_le
  have hpos := h.inodes_pos
  have hgroups := h.groups_pos
  have hends := @fillGroups_ends blk4096 (memConfig blk4096) image csum sb (fun _ => False)
    (sb.bgsCount - 1) dev (fun _ _ _ => trivial) h.formatted (by omega) (Nat.sub_le _ _)
    fun g hg => h.fits hhi (by omega) fun heq => absurd heq (Nat.ne_of_lt hg)
  obtain ⟨st, hfold, hst⟩ := hends.exists_ok
  have hlast : fillGroup (memConfig blk4096) image csum sb st (sb.bgsCount - 1) =
      .error .panic := by
    rw [fillGroup_eq, hst.totalBlocks, h.blocksCount, h.blocksPerGroup, hfree]
    rfl
  have hrange : List.range sb.bgsCount = List.range (sb.bgsCount - 1) ++ [sb.bgsCount - 1] := by
    rw [← List.range_succ, Nat.succ_eq_add_one, Nat.sub_add_cancel hgroups]
  rw [fillBg, if_neg (by rw [h.firstDataBlock]; omega), hrange, List.foldlM_append,
    bind_of_ok hfold, List.foldlM_cons, hlast]
  rfl

/-- With one block more than a full group the last group has one block, its free blocks go
    below 0, and `fill_bg` panics. -/
theorem oneBlockMore_panics : ∃ aux sb, FormatAux.new (32769 * 4096) blk4096 = .ok aux ∧
    makeSb aux = .ok sb ∧ sb.bgsCount = 2 ∧
    ∀ dev, fillBg (memConfig blk4096) (fun _ => []) (fun _ _ => 0) sb dev = .error .panic := by
  obtain ⟨aux, sb, haux, hsb, h⟩ :=
    @exists_numbers (32769 * 4096) (by decide) (by decide)
  have htwo : sb.bgsCount = 2 := h.bgsCount
  have hinodes : sb.inodeBlocks = 256 := h.inodeBlocks
  refine ⟨aux, sb, haux, hsb, htwo, fun dev => ?_⟩
  apply h.fillBg_panics (by decide)
  rw [freeBlocks_eq, h.blocksPerGroup, htwo, hinodes]
  exact if_pos (by omega)

end RustExt4.Format
