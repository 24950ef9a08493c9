/-
  RustExt4.Format.Marks

  What `fill_bg` leaves on the device for a group that it initializes: the block
  bitmap and the descriptor that leads to it.  Bit `i` of the bitmap is set from
  positions that count from the group's first multiple of `blocks_per_group`,
  while `into_bgid_index` counts from `first_data_block`.  The two agree where
  `first_data_block` is 0.
-/
import RustExt4.Format.Completes

namespace RustExt4.Format

open ExceptRun
open Inode (getCompoundU64)
open Transaction (bitAt)

/-! ## The bitmaps on the device -/

/-- The blocks of a group that `format` writes metadata to: the superblock copy, the group
    descriptors, the group's bitmaps and its inode table. -/
def IsMetadata (sb : DescriptorSb) (g b : Nat) : Prop :=
  sb.isSuperInBg g = true ∧ b = sb.firstBgBlockNo g ∨
    (∃ g' < sb.bgsCount, b = (sb.intoLbaIndex g').1) ∨
    b = sb.startBlock g + 1 ∨ b = sb.startBlock g + 2 ∨
    b ∈ Set.Ico (sb.startBlock g + 3) (sb.startBlock g + 3 + sb.inodeBlocks)

/-- The blocks of a group. -/
def InGroup (sb : DescriptorSb) (g b : Nat) : Prop :=
  sb.firstBgBlockNo g ≤ b ∧ b < sb.firstBgBlockNo (g + 1)

/-- The bitmap of a group marks its metadata and what lies past the end of the device, and
    `build_buddy` hands none of these blocks to the allocator. -/
def Marks {blk : BlockSize} (C : Config blk) (sb : DescriptorSb) (dev : C.Dev) (g : Nat) : Prop :=
  ∃ bitmap, C.readBlock dev (sb.startBlock g + 1) = .ok bitmap ∧
    (∀ b, InGroup sb g b → ∃ i, sb.intoBgidIndex b = some (g, i) ∧
      (IsMetadata sb g b ∨ sb.blocksCount ≤ b → bitAt bitmap i = true)) ∧
    ∃ chunks, buildBuddy C sb dev g = .ok chunks ∧
      ∀ c ∈ chunks, ∀ b ∈ Set.Ico c.1 (c.1 + c.2), ¬ (IsMetadata sb g b ∨ sb.blocksCount ≤ b)

section Device
variable {blk : BlockSize} {C : Config blk} {image : Nat → Bytes} {csum : Nat → Bytes → Nat}
  {sb : DescriptorSb} {g : Nat} {dev : C.Dev} {st : FillState C}

theorem fillBg_eq_ok (hf : Formatted blk sb) (h : fillBg C image csum sb dev = .ok st) :
    ∃ st0 : FillState C, Filled sb sb.bgsCount st0 ∧
      ∀ k b, st0.blockMap.lookup k = some b → C.readBlock st.dev k = .ok b := by
  unfold fillBg at h
  split at h
  · cases h
  · obtain ⟨st0, hfold, h⟩ := bind_eq_ok.mp h
    obtain ⟨dev', hwrite, h⟩ := bind_eq_ok.mp h
    obtain rfl := Except.ok.inj h
    have hfilled : Filled sb sb.bgsCount st0 :=
      foldlM_range (I := Filled sb) (fun g s s' hg hs hok => hs.step hf hg hok) Filled.nil hfold
    refine ⟨st0, hfilled, fun k b hk => ?_⟩
    show C.readBlock dev' k = _
    rw [writeBlocks_spec hfilled.blockMap hwrite k, hk]

/-- Counted from `first_data_block` 0, the positions of the metadata and of what lies past
    the end of the device are those that `fill_bg` sets. -/
theorem inUse_of_isMetadata (hf : Formatted blk sb) (hfdb : sb.firstDataBlock = 0)
    (hroom : sb.descBlocks < sb.blocksPerGroup) {i : Nat}
    (h : IsMetadata sb g (sb.blocksPerGroup * g + i) ∨
      sb.blocksCount ≤ sb.blocksPerGroup * g + i) : InUse sb g i := by
  rw [Nat.mul_comm] at h
  rcases h with (⟨hsuper, hb⟩ | ⟨g', hg', hb⟩ | hb) | hpast
  · rw [DescriptorSb.firstBgBlockNo, firstBgBlockNo, hfdb] at hb
    exact Or.inl ⟨hsuper, by omega⟩
  · -- The descriptors are in the first group.
    obtain ⟨-, hle, -⟩ := hf.descriptor hg'
    have hg : g = 0 := by
      by_contra hne
      have : sb.blocksPerGroup ≤ g * sb.blocksPerGroup :=
        Nat.le_mul_of_pos_left _ (Nat.pos_of_ne_zero hne)
      omega
    subst hg
    exact Or.inl ⟨hf.superZero, by omega⟩
  · rw [Set.mem_Ico] at hb
    exact Or.inr (Or.inl (by omega))
  · exact Or.inr (Or.inr (by omega))

/-- The descriptor on the device leads `build_buddy` to the bitmap. -/
theorem buildBuddy_of_desc (hf : Formatted blk sb) {d bitmap : Bytes}
    (hdesc : C.readBlock dev (sb.intoLbaIndex g).1 = .ok d)
    (hread : ByteRw.readU32 (LeBytes.slice d (sb.intoLbaIndex g).2 32) 0 = sb.startBlock g + 1)
    (hbitmap : C.readBlock dev (sb.startBlock g + 1) = .ok bitmap) :
    buildBuddy C sb dev g =
      Block.buildBuddy sb.toSuperBlock g bitmap sb.blocksPerGroup := by
  have h64 : sb.isBg64 = false := by rw [DescriptorSb.isBg64, hf.blockDescSize]; rfl
  have hlba : getCompoundU64 (LeBytes.slice d (sb.intoLbaIndex g).2 sb.blockDescSize) 0 0x20
      sb.isBg64 = sb.startBlock g + 1 := by
    rw [h64, hf.blockDescSize, getCompoundU64, hread]
    simp [mergeU32]
  have hbg : ∃ n, fromDisk C sb dev g = .ok ⟨sb.startBlock g + 1, sb.blocksPerGroup, n⟩ := by
    rw [fromDisk, bind_of_ok hdesc]
    dsimp only
    rw [hlba]
    exact ⟨_, rfl⟩
  obtain ⟨n, hbg⟩ := hbg
  rw [buildBuddy, bind_of_ok hbg, bind_of_ok hbitmap]

/-- Where `first_data_block` is 0 a group that is filled is marked. -/
theorem Filled.marks {n : Nat} {st0 : FillState C} (hf : Formatted blk sb)
    (hfdb : sb.firstDataBlock = 0) (hst : Filled sb n st0)
    (hread : ∀ k b, st0.blockMap.lookup k = some b → C.readBlock dev k = .ok b)
    (hg : g < n) (hbg : g < sb.bgCount) (hlazy : sb.isLazyInitBg g = false) :
    Marks C sb dev g := by
  obtain ⟨⟨bitmap, hbitmap, hbits⟩, -⟩ := hst.bitmap g hg hlazy
  obtain ⟨d, hd, hdesc⟩ := hst.desc g hg
  have hroom := hst.room (by omega)
  have hset : ∀ i < sb.blocksPerGroup, IsMetadata sb g (sb.blocksPerGroup * g + i) ∨
      sb.blocksCount ≤ sb.blocksPerGroup * g + i → bitAt bitmap i = true := fun i hi hmeta =>
    (hbits i (hf.blocksPerGroup ▸ hi)).mpr (inUse_of_isMetadata hf hfdb (by omega) hmeta)
  have hlen : 8 * bitmap.length = sb.blocksPerGroup := by
    rw [hst.blockMap.length_of_lookup hbitmap, hf.blocksPerGroup, Nat.mul_comm]
  obtain ⟨chunks, hchunks, hmem⟩ := Block.buildBuddy_spec sb.toSuperBlock g hlen
  have hfrom : ∀ i, sb.fromBgidIndex g i = sb.blocksPerGroup * g + i := fun i => if_pos hfdb
  refine ⟨bitmap, hread _ _ hbitmap, fun b ⟨hlo, hhi⟩ => ?_, chunks, ?_, fun c hc b hb hmeta => ?_⟩
  · simp only [DescriptorSb.firstBgBlockNo, firstBgBlockNo, hfdb, Nat.succ_mul] at hlo hhi
    rw [Nat.mul_comm] at hlo hhi
    obtain ⟨i, rfl⟩ : ∃ i, b = sb.blocksPerGroup * g + i := ⟨b - sb.blocksPerGroup * g, by omega⟩
    have hi : i < sb.blocksPerGroup := by omega
    refine ⟨i, ?_, hset i hi⟩
    rw [← hfrom]
    exact SuperBlock.intoBgidIndex_fromBgidIndex hbg hi
  · rw [buildBuddy_of_desc hf (hread _ _ hd) hdesc (hread _ _ hbitmap), hchunks]
  · obtain ⟨i, hi, hclear, rfl⟩ := (hmem b).mp ⟨c, hc, hb⟩
    rw [hfrom] at hmeta
    rw [hset i hi hmeta] at hclear
    cases hclear

/-- Where it is 1 the block bitmap of the first group is not marked. -/
theorem Filled.not_marks {n : Nat} {st0 : FillState C} (hf : Formatted blk sb)
    (hfdb : sb.firstDataBlock = 1) (hst : Filled sb n st0)
    (hread : ∀ k b, st0.blockMap.lookup k = some b → C.readBlock dev k = .ok b) (hn : 0 < n) :
    ¬ Marks C sb dev 0 := by
  rintro ⟨bitmap', hbitmap', hmarks, -⟩
  have hlazy : sb.isLazyInitBg 0 = false := by simp [DescriptorSb.isLazyInitBg]
  obtain ⟨⟨bitmap, hbitmap, hbits⟩, -⟩ := hst.bitmap 0 hn hlazy
  obtain rfl : bitmap' = bitmap := Except.ok.inj (hbitmap'.symm.trans (hread _ _ hbitmap))
  have hroom := hst.room hn
  have hstart : sb.startBlock 0 = sb.descBlocks + 2 := by
    rw [DescriptorSb.startBlock, hf.superZero, hfdb]
    simp only [if_true]
    omega
  -- Its number is `desc_blocks + 3` and its position in the group one less.
  have hin : InGroup sb 0 (sb.startBlock 0 + 1) := by
    simp only [InGroup, DescriptorSb.firstBgBlockNo, firstBgBlockNo, hfdb, hstart]
    omega
  obtain ⟨i, hindex, hset⟩ := hmarks _ hin
  have hi : i = sb.descBlocks + 2 := by
    have hlt : sb.descBlocks + 2 < sb.blocksPerGroup := by omega
    have hinto : sb.intoBgidIndex (sb.startBlock 0 + 1) =
        if 0 < sb.bgCount then some (0, sb.descBlocks + 2) else none := by
      simp [SuperBlock.intoBgidIndex, hfdb, hstart, Nat.div_eq_of_lt hlt, Nat.mod_eq_of_lt hlt]
    rw [hinto] at hindex
    split at hindex
    · exact (Prod.mk.inj (Option.some.inj hindex)).2.symm
    · cases hindex
  subst hi
  have hclear : ¬ InUse sb 0 (sb.descBlocks + 2) := by
    rintro (⟨-, h⟩ | h | h) <;> omega
  exact hclear ((hbits _ (by rw [← hf.blocksPerGroup]; omega)).mp
    (hset (Or.inl (Or.inr (Or.inr (Or.inl rfl))))))

end Device

/-! ## Which block sizes are marked -/

/-- The bitmaps of the groups that `fill_bg` initializes mark the metadata just where the
    block size is not 1024. -/
theorem fillBg_marks_iff {blk : BlockSize} {C : Config blk} {image : Nat → Bytes}
    {csum : Nat → Bytes → Nat} {sb : DescriptorSb} {dev : C.Dev} {st : FillState C}
    {totalSize : Nat} {aux : FormatAux}
    (haux : FormatAux.new totalSize blk = .ok aux) (hsb : makeSb aux = .ok sb)
    (hfill : fillBg C image csum sb dev = .ok st) :
    (∀ g < sb.bgsCount, sb.isLazyInitBg g = false → Marks C sb st.dev g) ↔ blk.val ≠ 1024 := by
  have hf := Formatted.of_makeSb haux hsb
  obtain ⟨st0, hst, hread⟩ := fillBg_eq_ok hf hfill
  constructor
  · intro hmarks h1024
    have hfdb := hf.firstDataBlock
    rw [if_pos h1024] at hfdb
    exact hst.not_marks hf hfdb hread hf.bgsCount_pos
      (hmarks 0 hf.bgsCount_pos (by simp [DescriptorSb.isLazyInitBg]))
  · intro hne g hg hlazy
    have hfdb := hf.firstDataBlock
    rw [if_neg hne] at hfdb
    have hbg : g < sb.bgCount := by
      rw [hf.bgCount]
      rwa [DescriptorSb.bgsCount, hfdb, Nat.sub_zero] at hg
    exact hst.marks hf hfdb hread hg hbg hlazy

theorem fillBg_marks_4096 : ∃ sb, ∃ st : FillState (memConfig ⟨4096, by decide⟩),
    makeSb (tinyAux ⟨4096, by decide⟩) = .ok sb ∧
      fillBg (memConfig ⟨4096, by decide⟩) (fun _ => []) (fun _ _ => 0) sb (fun _ => []) = .ok st ∧
      ∀ g < sb.bgsCount, sb.isLazyInitBg g = false →
        Marks (memConfig ⟨4096, by decide⟩) sb st.dev g := by
  obtain ⟨sb, st, haux, hsb, hst⟩ :=
    tiny_fillBg ⟨4096, by decide⟩ (fun _ => []) (fun _ _ => 0) (fun _ => [])
  exact ⟨sb, st, hsb, hst, (fillBg_marks_iff haux hsb hst).mpr (by decide)⟩

/-- On 64 blocks of 1024 bytes the first group, which is the last one too, is not marked. -/
theorem fillBg_not_marks_1024 : ∃ sb, ∃ st : FillState (memConfig ⟨1024, by decide⟩),
    FormatAux.new 65536 ⟨1024, by decide⟩ = .ok (tinyAux ⟨1024, by decide⟩) ∧
      makeSb (tinyAux ⟨1024, by decide⟩) = .ok sb ∧
      fillBg (memConfig ⟨1024, by decide⟩) (fun _ => []) (fun _ _ => 0) sb (fun _ => []) = .ok st ∧
      0 < sb.bgsCount ∧ sb.isLazyInitBg 0 = false ∧
      ¬ Marks (memConfig ⟨1024, by decide⟩) sb st.dev 0 := by
  obtain ⟨sb, st, haux, hsb, hst⟩ :=
    tiny_fillBg ⟨1024, by decide⟩ (fun _ => []) (fun _ _ => 0) (fun _ => [])
  have hf := Formatted.of_makeSb haux hsb
  obtain ⟨st0, hfilled, hread⟩ := fillBg_eq_ok hf hst
  exact ⟨sb, st, haux, hsb, hst, hf.bgsCount_pos, by simp [DescriptorSb.isLazyInitBg],
    hfilled.not_marks hf (hf.firstDataBlock.trans (if_pos rfl)) hread hf.bgsCount_pos⟩

end RustExt4.Format
