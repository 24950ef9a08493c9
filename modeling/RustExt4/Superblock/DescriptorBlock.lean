/-
  RustExt4.Superblock.DescriptorBlock

  Where the descriptor of a block group lies (`BlockGroupId::into_lba_index` and
  `get_descriptor_block`), on every superblock that `from_raw` admits.  Without
  `META_BG`, and below `first_meta_bg`, the descriptors of one block's worth of groups
  share a block.  From there on each group looks into its own first block instead of
  that of its meta group, while the offset still counts the groups of the meta group.
-/
import RustExt4.Format.Fill
import RustExt4.Lib.PackedSlots

namespace RustExt4

/-- The superblock fields that place the group descriptors.  `from_raw` divides by
    `blocks_per_group`, and `verify` bounds the size of a descriptor. -/
structure DescriptorTable where
  featuresIncompatible : Nat
  featuresReadonly : Nat
  firstDataBlock : Nat
  blocksPerGroup : Nat
  firstMetaBg : Nat
  blockDescSize : Nat
  blkSize : Nat
  bgCount : Nat
  blocksPerGroup_pos : 0 < blocksPerGroup
  blockDescSize_ge : 32 ≤ blockDescSize
  blockDescSize_le : blockDescSize ≤ blkSize

namespace DescriptorTable

variable (t : DescriptorTable)

/-- The number of descriptors in a block, `dsc_cnt` of `into_lba_index`. -/
def dscCnt : Nat := t.blkSize / t.blockDescSize

def isSuperInBg (bgid : Nat) : Bool := RustExt4.isSuperInBg t.featuresReadonly bgid

def firstBgBlockNo (bgid : Nat) : Nat :=
  RustExt4.firstBgBlockNo t.firstDataBlock t.blocksPerGroup bgid

def getDescriptorBlock (bgid dscPerBlock : Nat) : Nat :=
  let dscId := bgid / dscPerBlock
  if !containsFlag t.featuresIncompatible featureMetaBg || decide (dscId < t.firstMetaBg) then
    t.firstDataBlock + dscId + 1
  else if t.isSuperInBg bgid then t.firstBgBlockNo bgid + 1
  else t.firstBgBlockNo bgid

/-- `BlockGroupId::into_lba_index` -/
def intoLbaIndex (bgid : Nat) : Nat × Nat :=
  (t.getDescriptorBlock bgid t.dscCnt, bgid % t.dscCnt * t.blockDescSize)

end DescriptorTable

/-- The table of a superblock whose `first_meta_bg` is 0, as `format` writes it. -/
def DescriptorSb.table (sb : DescriptorSb) (hge : 32 ≤ sb.blockDescSize)
    (hle : sb.blockDescSize ≤ sb.blkSize) : DescriptorTable where
  featuresIncompatible := sb.featuresIncompatible
  featuresReadonly := sb.featuresReadonly
  firstDataBlock := sb.firstDataBlock
  blocksPerGroup := sb.blocksPerGroup
  firstMetaBg := 0
  blockDescSize := sb.blockDescSize
  blkSize := sb.blkSize
  bgCount := sb.bgCount
  blocksPerGroup_pos := sb.blocksPerGroup_pos
  blockDescSize_ge := hge
  blockDescSize_le := hle

/-- There the places are those that `fill_bg` uses. -/
theorem DescriptorSb.intoLbaIndex_table (sb : DescriptorSb) (hge : 32 ≤ sb.blockDescSize)
    (hle : sb.blockDescSize ≤ sb.blkSize) (bgid : Nat) :
    (sb.table hge hle).intoLbaIndex bgid = sb.intoLbaIndex bgid := by
  simp only [DescriptorTable.intoLbaIndex, DescriptorTable.getDescriptorBlock, DescriptorSb.table,
    DescriptorTable.dscCnt, DescriptorSb.intoLbaIndex, DescriptorSb.getDescriptorBlock,
    Nat.not_lt_zero, decide_false, Bool.or_false]
  rfl

namespace DescriptorTable

variable {t : DescriptorTable} {g1 g2 lo hi : Nat}

/-! ## One group -/

/-- The descriptor of the group is looked for in the group itself. -/
def UsesMetaBg (t : DescriptorTable) (g : Nat) : Prop :=
  containsFlag t.featuresIncompatible featureMetaBg = true ∧ t.firstMetaBg ≤ g / t.dscCnt

instance (t : DescriptorTable) (g : Nat) : Decidable (t.UsesMetaBg g) :=
  inferInstanceAs (Decidable (_ ∧ _))

/-- The blocks before the descriptors in a group. -/
def superBlocks (t : DescriptorTable) (g : Nat) : Nat := if t.isSuperInBg g then 1 else 0

theorem superBlocks_le (t : DescriptorTable) (g : Nat) : t.superBlocks g ≤ 1 := by
  unfold superBlocks
  split <;> omega

theorem dscCnt_pos (t : DescriptorTable) : 0 < t.dscCnt :=
  Nat.div_pos t.blockDescSize_le (by have := t.blockDescSize_ge; omega)

theorem block_of_not_meta (h : ¬ t.UsesMetaBg g1) :
    (t.intoLbaIndex g1).1 = t.firstDataBlock + (g1 / t.dscCnt + 1) := by
  have hnot : (!containsFlag t.featuresIncompatible featureMetaBg ||
      decide (g1 / t.dscCnt < t.firstMetaBg)) = true := by
    unfold UsesMetaBg at h
    cases hflag : containsFlag t.featuresIncompatible featureMetaBg with
    | false => rfl
    | true =>
        rw [hflag] at h
        simpa using h
  rw [intoLbaIndex, getDescriptorBlock, if_pos hnot, Nat.add_assoc]

theorem block_of_meta (h : t.UsesMetaBg g1) :
    (t.intoLbaIndex g1).1 = t.firstDataBlock + (g1 * t.blocksPerGroup + t.superBlocks g1) := by
  obtain ⟨hflag, hge⟩ := h
  have hnot : ¬ (!containsFlag t.featuresIncompatible featureMetaBg ||
      decide (g1 / t.dscCnt < t.firstMetaBg)) = true := by
    rw [hflag]
    simpa using hge
  rw [intoLbaIndex, getDescriptorBlock, if_neg hnot, superBlocks, firstBgBlockNo,
    RustExt4.firstBgBlockNo]
  split <;> omega

/-- The bytes of a descriptor lie in its block. -/
theorem index_le (t : DescriptorTable) (g : Nat) :
    (t.intoLbaIndex g).2 + t.blockDescSize ≤ t.blkSize :=
  PackedSlots.offset_add_le t.dscCnt_pos (Nat.div_mul_le_self ..)

/-- Two groups of one quotient have different places in a block. -/
theorem index_apart (hq : g1 / t.dscCnt = g2 / t.dscCnt) (hlt : g1 < g2) :
    (t.intoLbaIndex g1).2 + t.blockDescSize ≤ (t.intoLbaIndex g2).2 :=
  PackedSlots.offset_apart hq hlt

/-! ## Two groups -/

/-- Groups of a single block each, which a superblock copy in the lower one, or the place of
    the first descriptors, moves into the next. -/
def Collides (t : DescriptorTable) (lo hi : Nat) : Prop :=
  t.blocksPerGroup = 1 ∧ t.UsesMetaBg hi ∧ t.isSuperInBg hi = false ∧
    (t.UsesMetaBg lo ∧ t.isSuperInBg lo = true ∧ hi = lo + 1 ∨
      ¬ t.UsesMetaBg lo ∧ hi = lo / t.dscCnt + 1)

/-- Below `first_meta_bg` no group has the quotient of one that is above. -/
theorem div_lt_of_meta (hlo : ¬ t.UsesMetaBg lo) (hhi : t.UsesMetaBg hi) :
    lo / t.dscCnt < hi / t.dscCnt := by
  obtain ⟨hflag, hge⟩ := hhi
  by_contra hle
  exact hlo ⟨hflag, by omega⟩

/-- A group outside of the meta groups and one of them share a block only by collision. -/
theorem block_eq_mixed (hlo : ¬ t.UsesMetaBg lo) (hhi : t.UsesMetaBg hi) :
    (t.intoLbaIndex lo).1 = (t.intoLbaIndex hi).1 ↔ t.Collides lo hi := by
  have hq := div_lt_of_meta hlo hhi
  have hpos := t.blocksPerGroup_pos
  have hdiv : hi / t.dscCnt ≤ hi := Nat.div_le_self ..
  have hs := t.superBlocks_le hi
  rw [block_of_not_meta hlo, block_of_meta hhi, Nat.add_right_inj]
  constructor
  · intro heq
    -- The first block of the group above is beyond the descriptors of the groups below.
    have hone : t.blocksPerGroup = 1 := by
      by_contra hne
      have htwo := Nat.mul_le_mul_left hi (show 2 ≤ t.blocksPerGroup by omega)
      generalize lo / t.dscCnt = qlo at heq hq
      omega
    rw [hone, Nat.mul_one] at heq
    have hno : t.superBlocks hi = 0 := by omega
    refine ⟨hone, hhi, ?_, Or.inr ⟨hlo, by omega⟩⟩
    unfold superBlocks at hno
    cases hsuper : t.isSuperInBg hi with
    | false => rfl
    | true =>
        rw [hsuper] at hno
        cases hno
  · rintro ⟨hone, -, hsuper, ⟨hmeta, -⟩ | ⟨-, heq⟩⟩
    · exact absurd hmeta hlo
    · rw [hone, superBlocks, hsuper, if_neg Bool.false_ne_true]
      omega

/-- Two of the meta groups share a block only by collision. -/
theorem block_eq_meta (hlo : t.UsesMetaBg lo) (hhi : t.UsesMetaBg hi) (hlt : lo < hi) :
    (t.intoLbaIndex lo).1 = (t.intoLbaIndex hi).1 ↔ t.Collides lo hi := by
  have hpos := t.blocksPerGroup_pos
  have hslo := t.superBlocks_le lo
  rw [block_of_meta hlo, block_of_meta hhi, Nat.add_right_inj]
  constructor
  · intro heq
    have hstep := Nat.mul_le_mul_right t.blocksPerGroup (show lo + 1 ≤ hi from hlt)
    rw [Nat.succ_mul] at hstep
    have hone : t.blocksPerGroup = 1 := by omega
    rw [hone, Nat.mul_one, Nat.mul_one] at heq
    have hyes : t.superBlocks lo = 1 := by omega
    have hno : t.superBlocks hi = 0 := by omega
    unfold superBlocks at hyes hno
    refine ⟨hone, hhi, ?_, Or.inl ⟨hlo, ?_, by omega⟩⟩
    · cases hsuper : t.isSuperInBg hi with
      | false => rfl
      | true =>
          rw [hsuper] at hno
          cases hno
    · cases hsuper : t.isSuperInBg lo with
      | true => rfl
      | false =>
          rw [hsuper] at hyes
          cases hyes
  · rintro ⟨hone, -, hsuper, ⟨-, hcopy, heq⟩ | ⟨hnot, -⟩⟩
    · rw [hone, superBlocks, superBlocks, hsuper, hcopy, if_pos rfl, if_neg Bool.false_ne_true]
      omega
    · exact absurd hlo hnot

/-- The block is the same within one quotient outside of the meta groups, for one group, and
    by collision. -/
theorem block_eq_iff (hlt : lo < hi) :
    (t.intoLbaIndex lo).1 = (t.intoLbaIndex hi).1 ↔
      ¬ t.UsesMetaBg hi ∧ lo / t.dscCnt = hi / t.dscCnt ∨ t.Collides lo hi := by
  by_cases hhi : t.UsesMetaBg hi
  · have hiff : (t.intoLbaIndex lo).1 = (t.intoLbaIndex hi).1 ↔ t.Collides lo hi := by
      by_cases hlo : t.UsesMetaBg lo
      · exact block_eq_meta hlo hhi hlt
      · exact block_eq_mixed hlo hhi
    rw [hiff]
    exact ⟨Or.inr, fun h => h.resolve_left fun hno => hno.1 hhi⟩
  · -- A meta group has no group of a lower number that is outside.
    have hlo : ¬ t.UsesMetaBg lo := by
      rintro ⟨hflag, hge⟩
      exact hhi ⟨hflag, Nat.le_trans hge (Nat.div_le_div_right hlt.le)⟩
    rw [block_of_not_meta hlo, block_of_not_meta hhi, Nat.add_right_inj, Nat.add_left_inj]
    exact ⟨fun h => Or.inl ⟨hhi, h⟩, fun h => h.elim And.right fun hcol => absurd hcol.2.1 hhi⟩

/-- What a caller expects of the descriptors of two groups: one block just for one quotient,
    and places apart inside of it. -/
structure Consistent (t : DescriptorTable) (g1 g2 : Nat) : Prop where
  block : (t.intoLbaIndex g1).1 = (t.intoLbaIndex g2).1 ↔ g1 / t.dscCnt = g2 / t.dscCnt
  inside : (t.intoLbaIndex g1).2 + t.blockDescSize ≤ t.blkSize ∧
    (t.intoLbaIndex g2).2 + t.blockDescSize ≤ t.blkSize
  apart : g1 ≠ g2 → (t.intoLbaIndex g1).1 = (t.intoLbaIndex g2).1 →
    (t.intoLbaIndex g1).2 + t.blockDescSize ≤ (t.intoLbaIndex g2).2 ∨
      (t.intoLbaIndex g2).2 + t.blockDescSize ≤ (t.intoLbaIndex g1).2

theorem Consistent.symm (h : t.Consistent g1 g2) : t.Consistent g2 g1 where
  block := eq_comm.trans (h.block.trans eq_comm)
  inside := h.inside.symm
  apart hne heq := (h.apart hne.symm heq.symm).symm

/-- Which pairs, the lower group first, are looked up consistently. -/
def Paired (t : DescriptorTable) (lo hi : Nat) : Prop :=
  if lo / t.dscCnt = hi / t.dscCnt then ¬ t.UsesMetaBg hi ∨ t.Collides lo hi
  else ¬ t.Collides lo hi

theorem consistent_iff_of_lt (hlt : lo < hi) : t.Consistent lo hi ↔ t.Paired lo hi := by
  have hiff := @block_eq_iff t lo hi hlt
  have hblock : t.Consistent lo hi ↔ ((t.intoLbaIndex lo).1 = (t.intoLbaIndex hi).1 ↔
      lo / t.dscCnt = hi / t.dscCnt) := by
    refine ⟨Consistent.block, fun h => ⟨h, ⟨t.index_le lo, t.index_le hi⟩, fun _ heq => ?_⟩⟩
    exact Or.inl (index_apart (h.mp heq) hlt)
  rw [hblock, hiff, Paired]
  by_cases hq : lo / t.dscCnt = hi / t.dscCnt
  · rw [if_pos hq]
    simp [hq]
  · rw [if_neg hq]
    simp [hq]

/-- Descriptors are looked up consistently but in the meta groups, where groups of one
    quotient look into different blocks (and for groups of one block, which collide). -/
theorem consistent_iff (t : DescriptorTable) (g1 g2 : Nat) :
    t.Consistent g1 g2 ↔ g1 = g2 ∨ t.Paired (min g1 g2) (max g1 g2) := by
  rcases Nat.lt_trichotomy g1 g2 with hlt | rfl | hgt
  · rw [min_eq_left hlt.le, max_eq_right hlt.le, consistent_iff_of_lt hlt]
    exact ⟨Or.inr, fun h => h.resolve_left hlt.ne⟩
  · exact iff_of_true ⟨iff_of_true rfl rfl, ⟨t.index_le _, t.index_le _⟩, fun h => absurd rfl h⟩
      (Or.inl rfl)
  · rw [min_eq_right hgt.le, max_eq_left hgt.le, ← consistent_iff_of_lt hgt]
    exact ⟨fun h => Or.inr h.symm, fun h => (h.resolve_left hgt.ne').symm⟩

/-- Two groups of 4096-byte blocks with `META_BG` and a superblock in each. -/
def twoMetaGroups : DescriptorTable where
  featuresIncompatible := featureMetaBg
  featuresReadonly := featureSparseSuper
  firstDataBlock := 0
  blocksPerGroup := 32768
  firstMetaBg := 0
  blockDescSize := 32
  blkSize := 4096
  bgCount := 2
  blocksPerGroup_pos := SuperBlock.groupOf32768_pos
  blockDescSize_ge := by decide
  blockDescSize_le := by decide

/-- Both have quotient 0 by 128, and look into blocks 1 and 32769. -/
theorem not_consistent_twoMetaGroups :
    0 < twoMetaGroups.bgCount ∧ 1 < twoMetaGroups.bgCount ∧
      (0 : Nat) / twoMetaGroups.dscCnt = 1 / twoMetaGroups.dscCnt ∧
      twoMetaGroups.intoLbaIndex 0 = (1, 0) ∧ twoMetaGroups.intoLbaIndex 1 = (32769, 32) ∧
      ¬ twoMetaGroups.Consistent 0 1 := by
  refine ⟨by decide, by decide, by decide, by decide, by decide, fun h => ?_⟩
  exact absurd (h.block.mpr (by decide)) (by decide)

end DescriptorTable
end RustExt4
