/-
  RustExt4.Format.Layout

  What `fill_bg` collects in its map of blocks: the bytes of a bitmap and of a
  descriptor after their setters, the places that the superblock of `make_sb`
  gives to a group's own blocks, and what the loop over the groups keeps.
-/
import RustExt4.Format.Fill
import RustExt4.Lib.ExceptRun

namespace RustExt4.Format

open ExceptRun
open Inode (setCompoundU64 setCompoundU32 getCompoundU64)
open Transaction (setBit forRange bitAt setBit_forces)

/-! ## Bitmaps -/

section Bitmaps
variable {b b' : Bytes} {st ed : Nat}

theorem setBitmap_ok (h : ed ≤ st ∨ ed ≤ 8 * b.length) :
    ByteRw.setBitmap b st ed = .ok (forRange st ed setBit b) :=
  if_neg (by omega)

theorem setBitmap_spec (h : ByteRw.setBitmap b st ed = .ok b') :
    (ed ≤ st ∨ ed ≤ 8 * b.length) ∧ b'.length = b.length ∧
      ∀ q, bitAt b' q = if st ≤ q ∧ q < ed then true else bitAt b q := by
  have hbound : ed ≤ st ∨ ed ≤ 8 * b.length := by
    by_contra hout
    rw [ByteRw.setBitmap, if_pos (by omega)] at h
    cases h
  rw [setBitmap_ok hbound] at h
  obtain rfl := Except.ok.inj h
  obtain ⟨hlen, hbits⟩ := setBit_forces.forRange b st ed (by omega)
  refine ⟨hbound, hlen, fun q => ?_⟩
  split
  next hq => exact (hbits q).1 ⟨q, hq.1, hq.2, rfl⟩
  next hq => exact (hbits q).2 fun ⟨i, h1, h2, heq⟩ => hq ⟨by omega, by omega⟩

theorem setBitmap_exists (h : ed ≤ st ∨ ed ≤ 8 * b.length) :
    ∃ b', ByteRw.setBitmap b st ed = .ok b' ∧ b'.length = b.length ∧
      ∀ q, bitAt b' q = if st ≤ q ∧ q < ed then true else bitAt b q :=
  ⟨_, setBitmap_ok h, (setBitmap_spec (setBitmap_ok h)).2⟩

/-- The update by head bits, whole bytes and tail bits sets the bits of the range and leaves
    the others, so it gives the bytes that the bit-wise update gives; the update the other way
    clears those bits, and takes back a first one on a range that was clear. -/
theorem setBitmap_bitwise {blk : Bytes} {ofs count : Nat} (h : ofs + count ≤ 8 * blk.length) :
    (∀ p, bitAt (Transaction.setBitmap blk ofs count) p =
      if ofs ≤ p ∧ p < ofs + count then true else bitAt blk p) ∧
    ByteRw.setBitmap blk ofs (ofs + count) = .ok (Transaction.setBitmap blk ofs count) ∧
    (∀ p, bitAt (Transaction.unsetBitmap blk ofs count) p =
      if ofs ≤ p ∧ p < ofs + count then false else bitAt blk p) ∧
    ((∀ p, ofs ≤ p → p < ofs + count → bitAt blk p = false) →
      Transaction.unsetBitmap (Transaction.setBitmap blk ofs count) ofs count = blk) := by
  have hset := fun p => Transaction.bitAt_setBitmap (q := p) (Or.inl h)
  have hlen : (Transaction.setBitmap blk ofs count).length = blk.length :=
    Transaction.length_updateRange setBit_forces _ blk ofs count
  refine ⟨hset, ?_, fun p => Transaction.bitAt_unsetBitmap (q := p) (Or.inl h), fun hclear => ?_⟩
  · -- Both results have the same bits.
    have hok := @setBitmap_ok blk ofs _ (Or.inr h)
    obtain ⟨-, hlen', hbits⟩ := setBitmap_spec hok
    rw [hok]
    congr 1
    apply Transaction.eq_of_bitAt (hlen'.trans hlen.symm)
    intro p _
    rw [hbits p, hset p]
  · have hlen' : (Transaction.unsetBitmap (Transaction.setBitmap blk ofs count) ofs count).length =
        blk.length :=
      (Transaction.length_updateRange Transaction.clearBit_forces _ _ ofs count).trans hlen
    apply Transaction.eq_of_bitAt hlen'
    intro p _
    rw [Transaction.bitAt_unsetBitmap (Or.inl (by rw [hlen]; exact h)), hset p]
    split
    next hp => exact (hclear p hp.1 hp.2).symm
    next => rfl

/-- Bits 3 to 20 of four bytes: a head, a whole byte and a tail. -/
theorem setBitmap_bitwise_headAndTail :
    ByteRw.setBitmap [0, 0, 0, 0x80] 3 21 = .ok [0xf8, 0xff, 0x1f, 0x80] ∧
      Transaction.unsetBitmap [0xf8, 0xff, 0x1f, 0x80] 3 18 = [0, 0, 0, 0x80] := by
  have hclear : ∀ p < 21, 3 ≤ p → bitAt [0, 0, 0, 0x80] p = false := by decide
  have hset : Transaction.setBitmap [0, 0, 0, 0x80] 3 18 = [0xf8, 0xff, 0x1f, 0x80] := by decide
  have hspec := @setBitmap_bitwise [0, 0, 0, 0x80] 3 18 (by decide)
  rw [hset] at hspec
  exact ⟨hspec.2.1, hspec.2.2.2 fun p h1 h2 => hclear p h2 h1⟩

theorem bitAt_replicate (n q : Nat) : bitAt (List.replicate n 0) q = false := by
  have hbyte : LeBytes.byteAt (List.replicate n 0) (q / 8) = 0 := by
    by_cases h : q / 8 < n
    · simp [LeBytes.byteAt, h]
    · simp [LeBytes.byteAt, Nat.not_lt.mp h]
  rw [bitAt, hbyte, Nat.zero_testBit]

end Bitmaps

/-! ## The block map -/

/-- Whole blocks under ascending numbers. -/
def BlockMap (blk : BlockSize) (m : List (Nat × Bytes)) : Prop :=
  SortedMap.Sorted m ∧ ∀ x ∈ m, x.2.length = blk

section Map
variable {blk : BlockSize} {m m' : List (Nat × Bytes)} {lba : Nat} {f : Bytes → Except Fault Bytes}

theorem BlockMap.length_of_lookup {b : Bytes} (hm : BlockMap blk m) (h : m.lookup lba = some b) :
    b.length = blk := by
  obtain ⟨l1, l2, rfl, -⟩ := List.lookup_eq_some_iff.mp h
  exact hm.2 (lba, b) (by simp)

theorem BlockMap.length_getD (hm : BlockMap blk m) (lba : Nat) :
    ((m.lookup lba).getD (List.replicate blk 0)).length = blk := by
  cases h : m.lookup lba with
  | none => simp
  | some b => exact hm.length_of_lookup h

theorem modifyBlock_spec (hm : BlockMap blk m)
    (hf : ∀ b b', b.length = blk.val → f b = .ok b' → b'.length = blk)
    (h : modifyBlock blk m lba f = .ok m') :
    ∃ b, f ((m.lookup lba).getD (List.replicate blk 0)) = .ok b ∧ BlockMap blk m' ∧
      ∀ k, m'.lookup k = if k = lba then some b else m.lookup k := by
  obtain ⟨b, hb, hm'⟩ := bind_eq_ok.mp h
  obtain rfl := Except.ok.inj hm'
  refine ⟨b, hb, ⟨hm.1.insert, fun x hx => ?_⟩, SortedMap.lookup_insert lba b m⟩
  rcases SortedMap.mem_insert hx with rfl | hx
  · exact hf _ b (hm.length_getD lba) hb
  · exact hm.2 x hx

/-- The blocks of the map are on the device after the loop that writes them. -/
theorem writeBlocks_spec {C : Config blk} {dev dev' : C.Dev} (hm : BlockMap blk m)
    (h : writeBlocks C m dev = .ok dev') (n : Nat) :
    C.readBlock dev' n = match m.lookup n with
      | some b => .ok b
      | none => C.readBlock dev n := by
  obtain ⟨hsorted, hlen⟩ := hm
  induction m generalizing dev with
  | nil => exact Except.ok.inj h ▸ rfl
  | cons x m ih =>
      obtain ⟨hhead, htail⟩ := List.pairwise_cons.mp hsorted
      rw [writeBlocks, List.foldlM_cons] at h
      obtain ⟨dev1, h1, hrest⟩ := bind_eq_ok.mp h
      rw [ih hrest htail (fun y hy => hlen y (List.mem_cons_of_mem _ hy)),
        Config.readBlock_writeBlock (hlen x List.mem_cons_self) h1, List.lookup_cons]
      by_cases hn : n = x.1
      · subst hn
        -- The head is not written a second time.
        have hnone : m.lookup x.1 = none :=
          List.lookup_eq_none_iff.mpr fun y hy =>
            bne_iff_ne.mpr (Nat.ne_of_lt (hhead y hy))
        rw [hnone, beq_self_eq_true]
        exact if_pos rfl
      · rw [beq_eq_false_iff_ne.mpr hn, if_neg hn]

end Map

/-! ## Group descriptors -/

section Descriptors
variable {raw raw' : Bytes} {lo hi v : Nat}

theorem setCompoundU64_keeps (h : setCompoundU64 raw lo hi false v = some raw') (hlo : 4 ≤ lo) :
    raw'.length = raw.length ∧ LeBytes.SameOn raw' raw 0 4 := by
  rw [setCompoundU64, if_neg Bool.false_ne_true] at h
  split at h
  · obtain rfl := Option.some.inj h
    exact ⟨ByteRw.length_writeU32 .., ByteRw.writeU32_sameOn (Or.inl hlo)⟩
  · cases h

theorem setCompoundU32_keeps (h : setCompoundU32 raw lo hi false v = some raw') (hlo : 4 ≤ lo) :
    raw'.length = raw.length ∧ LeBytes.SameOn raw' raw 0 4 := by
  rw [setCompoundU32, if_neg Bool.false_ne_true] at h
  split at h
  · obtain rfl := Option.some.inj h
    exact ⟨ByteRw.length_writeU16 .., ByteRw.writeU16_sameOn (Or.inl hlo)⟩
  · cases h

theorem setCompoundU64_low (h : setCompoundU64 raw 0 hi false v = some raw') (hv : v < 2 ^ 64)
    (hlen : 4 ≤ raw.length) : raw'.length = raw.length ∧ ByteRw.readU32 raw' 0 = v := by
  rw [setCompoundU64, if_neg Bool.false_ne_true] at h
  split at h
  next hhigh =>
    obtain rfl := Option.some.inj h
    refine ⟨ByteRw.length_writeU32 .., ?_⟩
    rw [ByteRw.readU32_writeU32 (by omega)]
    simp only [splitU64] at hhigh ⊢
    omega
  next => cases h

/-- The descriptor's bytes begin with the number of the block bitmap. -/
theorem RawGroupDesc.set_spec {d : RawGroupDesc} {csum : Bytes → Nat}
    (h : d.set csum false raw = some raw') (hv : d.blockBitmap < 2 ^ 64) (hlen : 4 ≤ raw.length) :
    raw'.length = raw.length ∧ ByteRw.readU32 raw' 0 = d.blockBitmap := by
  -- Each setter keeps what comes before its own bytes.
  obtain ⟨r1, h1, h⟩ := Option.bind_eq_some_iff.mp h
  obtain ⟨r2, h2, h⟩ := Option.bind_eq_some_iff.mp h
  obtain ⟨r3, h3, h⟩ := Option.bind_eq_some_iff.mp h
  obtain ⟨r4, h4, h⟩ := Option.bind_eq_some_iff.mp h
  obtain ⟨r5, h5, h⟩ := Option.bind_eq_some_iff.mp h
  obtain ⟨r6, h6, h⟩ := Option.bind_eq_some_iff.mp h
  obtain ⟨r7, h7, h⟩ := Option.bind_eq_some_iff.mp h
  obtain ⟨l1, hread⟩ := setCompoundU64_low h1 hv hlen
  obtain ⟨l2, s2⟩ := setCompoundU64_keeps h2 (by decide)
  obtain ⟨l3, s3⟩ := setCompoundU64_keeps h3 (by decide)
  obtain ⟨l4, s4⟩ := setCompoundU32_keeps h4 (by decide)
  obtain ⟨l5, s5⟩ := setCompoundU32_keeps h5 (by decide)
  obtain ⟨l6, s6⟩ := setCompoundU32_keeps h6 (by decide)
  obtain ⟨l7, s7⟩ := setCompoundU32_keeps h7 (by decide)
  have hflags : ∀ r : Bytes, (if d.isLazy then ByteRw.writeU16 r 0x12 (0x1 ||| 0x2) else r).length =
      r.length ∧ LeBytes.SameOn
        (if d.isLazy then ByteRw.writeU16 r 0x12 (0x1 ||| 0x2) else r) r 0 4 := by
    intro r
    split
    · exact ⟨ByteRw.length_writeU16 .., ByteRw.writeU16_sameOn (Or.inl (by decide))⟩
    · exact ⟨rfl, LeBytes.SameOn.refl r 0 4⟩
  obtain ⟨l8, s8⟩ := hflags r7
  obtain rfl := Option.some.inj h
  have s9 := @ByteRw.writeU16_sameOn
    (if d.isLazy then ByteRw.writeU16 r7 0x12 (0x1 ||| 0x2) else r7) 0x1E
    (csum (if d.isLazy then ByteRw.writeU16 r7 0x12 (0x1 ||| 0x2) else r7)) 0 4 (Or.inl (by decide))
  refine ⟨by rw [ByteRw.length_writeU16, l8, l7, l6, l5, l4, l3, l2, l1], ?_⟩
  have hsame := s9.trans (s8.trans (s7.trans (s6.trans (s5.trans (s4.trans (s3.trans s2))))))
  rw [ByteRw.readU32_congr hsame, hread]

/-- What is stored of a descriptor is what its setters have made of the bytes there. -/
theorem storeDesc_slice {sb : DescriptorSb} {csum : Bytes → Nat} {d : RawGroupDesc} {idx : Nat}
    {b b' : Bytes} (hsize : sb.blockDescSize = 32) (hv : d.blockBitmap < 2 ^ 64)
    (hlen : idx + 32 ≤ b.length) (h : storeDesc sb csum d idx b = .ok b') :
    ∃ raw, d.set csum false (LeBytes.slice b idx 32) = some raw ∧ raw.length = 32 ∧
      LeBytes.slice b' idx 32 = raw ∧ b' = LeBytes.splice b idx raw := by
  have h64 : sb.isBg64 = false := by rw [DescriptorSb.isBg64, hsize]; rfl
  have hslice : (LeBytes.slice b idx 32).length = 32 := LeBytes.length_slice hlen
  rw [storeDesc, h64, hsize] at h
  split at h
  next => cases h
  next raw hset =>
    obtain rfl := Except.ok.inj h
    obtain ⟨hraw, -⟩ := RawGroupDesc.set_spec hset hv (by omega)
    have hfit : idx + raw.length ≤ b.length := by omega
    refine ⟨raw, hset, hraw.trans hslice, ?_, rfl⟩
    rw [← hslice, ← hraw]
    exact LeBytes.slice_splice_self hfit

/-- A descriptor stored in its block: the bytes of the other descriptors stay. -/
theorem storeDesc_spec {sb : DescriptorSb} {csum : Bytes → Nat} {d : RawGroupDesc} {idx : Nat}
    {b b' : Bytes} (hsize : sb.blockDescSize = 32) (hv : d.blockBitmap < 2 ^ 64)
    (hlen : idx + 32 ≤ b.length) (h : storeDesc sb csum d idx b = .ok b') :
    b'.length = b.length ∧ ByteRw.readU32 (LeBytes.slice b' idx 32) 0 = d.blockBitmap ∧
      ∀ p, p + 32 ≤ b.length → p + 32 ≤ idx ∨ idx + 32 ≤ p →
        LeBytes.slice b' p 32 = LeBytes.slice b p 32 := by
  obtain ⟨raw, hset, hraw, hslice, rfl⟩ := storeDesc_slice hsize hv hlen h
  have hfit : idx + raw.length ≤ b.length := by omega
  refine ⟨LeBytes.length_splice hfit, ?_, fun p hp hsep => ?_⟩
  · rw [hslice]
    exact (RawGroupDesc.set_spec hset hv (by rw [LeBytes.length_slice hlen]; decide)).2
  · have hsame : LeBytes.SameOn (LeBytes.splice b idx raw) b p (p + 32) :=
      LeBytes.splice_sameOn hfit (by omega)
    exact LeBytes.slice_congr hsame (by rw [LeBytes.length_splice hfit]; exact hp) hp

end Descriptors

/-! ## The superblock of `make_sb` -/

/-- What `make_sb` puts into the fields that `fill_bg` reads. -/
structure Formatted (blk : BlockSize) (sb : DescriptorSb) : Prop where
  blkSize : sb.blkSize = blk
  blockDescSize : sb.blockDescSize = 32
  blocksPerGroup : sb.blocksPerGroup = blk * 8
  firstDataBlock : sb.firstDataBlock = if blk.val = 1024 then 1 else 0
  metaBg : containsFlag sb.featuresIncompatible featureMetaBg = false
  superZero : sb.isSuperInBg 0 = true
  bgCount : sb.bgCount = divCeil sb.blocksCount sb.blocksPerGroup % 2 ^ 32
  blocksCount_lt : sb.blocksCount < 2 ^ 32
  bgsCount_pos : 0 < sb.bgsCount
  inodeBlocks_pos : 0 < sb.inodeBlocks

theorem FormatAux.new_spec {blk : BlockSize} {totalSize : Nat} {aux : FormatAux}
    (h : FormatAux.new totalSize blk = .ok aux) :
    aux.blockSize = blk ∧ aux.blocksPerGroup = blk * 8 ∧
      aux.firstDataBlock = (if blk.val = 1024 then 1 else 0) ∧
      aux.inodesPerGroup =
        divCeil (aux.blocksCnt / divCeil aux.blocksCnt (blk * 8) / 4) 16 * 16 ∧
      aux.inodesPerGroup < 2 ^ 32 ∧
      aux.inodesCnt = aux.inodesPerGroup * (divCeil aux.blocksCnt (blk * 8) % 2 ^ 32) := by
  -- Without an overflow the fields are the quotients themselves.
  simp only [FormatAux.new] at h
  by_cases h0 : divCeil (totalSize / blk.val) (blk.val * 8) = 0
  · rw [if_pos h0] at h
    cases h
  · rw [if_neg h0] at h
    generalize hipg : divCeil (totalSize / blk.val /
      divCeil (totalSize / blk.val) (blk.val * 8) / 4) 16 * 16 = ipg at h
    by_cases h1 : 2 ^ 32 ≤ totalSize / blk.val / divCeil (totalSize / blk.val) (blk.val * 8) / 4 ∨
        2 ^ 32 ≤ ipg ∨ 2 ^ 32 ≤ ipg * (divCeil (totalSize / blk.val) (blk.val * 8) % 2 ^ 32)
    · rw [if_pos h1] at h
      cases h
    · rw [if_neg h1] at h
      obtain rfl := Except.ok.inj h
      exact ⟨rfl, rfl, rfl, hipg.symm, by show ipg < 2 ^ 32; omega, rfl⟩

theorem makeSb_spec {aux : FormatAux} {sb : DescriptorSb} (h : makeSb aux = .ok sb) :
    (9 ≤ aux.inodesCnt ∧ aux.blocksCnt < 2 ^ 32) ∧ sb.blocksCount = aux.blocksCnt ∧
      sb.inodesCount = aux.inodesCnt ∧ sb.inodesPerGroup = aux.inodesPerGroup ∧
      sb.inodeSize = 256 ∧ sb.blkSize = aux.blockSize ∧
      containsFlag sb.featuresReadonly featureSparseSuper = true := by
  unfold makeSb at h
  by_cases hfew : aux.inodesCnt < 9 ∨ 2 ^ 32 ≤ aux.blocksCnt
  · rw [if_pos hfew] at h
    cases h
  · rw [if_neg hfew] at h
    obtain rfl := Except.ok.inj h
    exact ⟨by omega, rfl, rfl, rfl, rfl, rfl, by
      show containsFlag (featureSparseSuper ||| 0x2 ||| 0x10) featureSparseSuper = true; decide⟩

theorem divCeil_pos {a b : Nat} (ha : 0 < a) (hb : 0 < b) : 0 < divCeil a b :=
  Nat.div_pos (by omega) hb

theorem divCeil_le {a b : Nat} (hb : 0 < b) : divCeil a b ≤ a := by
  unfold divCeil
  rcases Nat.eq_zero_or_pos a with rfl | ha
  · rw [Nat.zero_add]
    exact Nat.le_of_eq (Nat.div_eq_of_lt (by omega))
  · have hmul : a ≤ a * b := Nat.le_mul_of_pos_right a hb
    have hrest : a - 1 ≤ (a - 1) * b := Nat.le_mul_of_pos_right _ hb
    have hsub : (a - 1) * b = a * b - b := Nat.sub_one_mul a b
    exact Nat.lt_succ_iff.mp ((Nat.div_lt_iff_lt_mul hb).mpr (by rw [Nat.succ_mul]; omega))

/-- Nine inodes need a block for the inode table, and more than one block of the device. -/
theorem Formatted.of_makeSb {blk : BlockSize} {totalSize : Nat} {aux : FormatAux}
    {sb : DescriptorSb} (haux : FormatAux.new totalSize blk = .ok aux) (hsb : makeSb aux = .ok sb) :
    Formatted blk sb := by
  obtain ⟨hsize, hbpg, hfdb, hipg, hlt, hcnt⟩ := FormatAux.new_spec haux
  have hblk := blk.le
  unfold makeSb at hsb
  by_cases hfew : aux.inodesCnt < 9 ∨ 2 ^ 32 ≤ aux.blocksCnt
  · rw [if_pos hfew] at hsb
    cases hsb
  · rw [if_neg hfew] at hsb
    obtain rfl := Except.ok.inj hsb
    -- A superblock with nine inodes has inodes in each group, and so more than one block.
    have hipos : 0 < aux.inodesPerGroup := by
      by_contra h0
      rw [Nat.eq_zero_of_not_pos h0, Nat.zero_mul] at hcnt
      omega
    have hblocks : 1 < aux.blocksCnt := by
      by_contra hone
      have htmp : aux.blocksCnt / divCeil aux.blocksCnt (blk * 8) / 4 = 0 :=
        Nat.div_eq_of_lt (Nat.lt_of_le_of_lt (Nat.div_le_self ..) (by omega))
      rw [htmp, show divCeil 0 16 = 0 from rfl] at hipg
      omega
    -- The counts fit their fields.
    have hfdb1 := aux.firstDataBlock_le
    have hgroups : divCeil (aux.blocksCnt - aux.firstDataBlock) aux.blocksPerGroup < 2 ^ 32 :=
      Nat.lt_of_le_of_lt (divCeil_le (by omega)) (by omega)
    have htable : divCeil (aux.inodesPerGroup * 256) aux.blockSize < 2 ^ 32 := by
      rw [hsize]
      exact (Nat.div_lt_iff_lt_mul (by omega)).mpr (by omega)
    exact
      { blkSize := congrArg Subtype.val hsize
        blockDescSize := rfl
        blocksPerGroup := hbpg
        firstDataBlock := hfdb
        metaBg := by show containsFlag (0x2 ||| 0x40) featureMetaBg = false; decide
        superZero := by simp [DescriptorSb.isSuperInBg, isSuperInBg, sbSparse, containsFlag,
          featureSparseSuper]
        bgCount := rfl
        blocksCount_lt := by show aux.blocksCnt < 2 ^ 32; omega
        bgsCount_pos := by
          show 0 < divCeil (aux.blocksCnt - aux.firstDataBlock) aux.blocksPerGroup % 2 ^ 32
          rw [Nat.mod_eq_of_lt hgroups]
          exact divCeil_pos (by omega) (by omega)
        inodeBlocks_pos := by
          show 0 < divCeil (aux.inodesPerGroup * 256) aux.blockSize % 2 ^ 32
          rw [Nat.mod_eq_of_lt htable]
          exact divCeil_pos (by omega) (by rw [hsize]; omega) }

section Groups
variable {blk : BlockSize} {sb : DescriptorSb} {g g' : Nat}

theorem Formatted.intoLbaIndex (hf : Formatted blk sb) (g : Nat) :
    sb.intoLbaIndex g =
      (sb.firstDataBlock + g / (blk / 32) + 1, g % (blk / 32) * 32) := by
  simp only [DescriptorSb.intoLbaIndex, DescriptorSb.getDescriptorBlock, hf.metaBg, hf.blkSize,
    hf.blockDescSize, Bool.not_false, if_true]

/-- The descriptors are in the blocks behind the superblock. -/
theorem Formatted.descriptor (hf : Formatted blk sb) (hg : g < sb.bgsCount) :
    sb.firstDataBlock < (sb.intoLbaIndex g).1 ∧
      (sb.intoLbaIndex g).1 ≤ sb.firstDataBlock + sb.descBlocks ∧
      (sb.intoLbaIndex g).2 + 32 ≤ blk := by
  have hdesc : sb.descBlocks = (32 * sb.bgsCount + blk - 1) / blk := by
    rw [DescriptorSb.descBlocks, divCeil, hf.blockDescSize, hf.blkSize]
  rw [hf.intoLbaIndex, hdesc]
  obtain ⟨n, rfl | rfl | rfl⟩ := blk <;> dsimp only <;> omega

/-- Descriptors in one block do not overlap. -/
theorem Formatted.descriptor_disjoint (hf : Formatted blk sb) (hne : g ≠ g')
    (hsame : (sb.intoLbaIndex g).1 = (sb.intoLbaIndex g').1) :
    (sb.intoLbaIndex g).2 + 32 ≤ (sb.intoLbaIndex g').2 ∨
      (sb.intoLbaIndex g').2 + 32 ≤ (sb.intoLbaIndex g).2 := by
  rw [hf.intoLbaIndex, hf.intoLbaIndex] at hsame ⊢
  obtain ⟨n, rfl | rfl | rfl⟩ := blk <;> dsimp only at hsame ⊢ <;> omega

/-- The first position of the group's own blocks, as `fill_bg` counts. -/
theorem startBlock_bounds (sb : DescriptorSb) (g : Nat) :
    sb.firstDataBlock + g * sb.blocksPerGroup + sb.descBlocks ≤ sb.startBlock g ∧
      sb.startBlock g ≤ sb.firstDataBlock + g * sb.blocksPerGroup + sb.descBlocks + 1 := by
  unfold DescriptorSb.startBlock
  split <;> omega

/-- The bits that `fill_bg` sets in the block bitmap of a group. -/
def InUse (sb : DescriptorSb) (g q : Nat) : Prop :=
  sb.isSuperInBg g = true ∧ q < 1 + sb.firstDataBlock + sb.descBlocks ∨
    sb.startBlock g + 1 ≤ g * sb.blocksPerGroup + q ∧
      g * sb.blocksPerGroup + q < sb.startBlock g + 3 + sb.inodeBlocks ∨
    min (sb.blocksCount - g * sb.blocksPerGroup) sb.blocksPerGroup ≤ q

theorem initBlockBitmap_eq (pad : Nat) (b : Bytes) : @initBlockBitmap blk sb g pad b =
    (if sb.isSuperInBg g then
      ByteRw.setBitmap b 0 (1 + sb.firstDataBlock + sb.descBlocks) else pure b) >>= fun b1 =>
    ByteRw.setBitmap b1 (sb.startBlock g - g * sb.blocksPerGroup + 1)
      (sb.startBlock g - g * sb.blocksPerGroup + 2 + sb.inodeBlocks + 1) >>= fun b2 =>
    ByteRw.setBitmap b2 pad (blk * 8) := by
  dsimp only [initBlockBitmap]
  split <;> rfl

theorem initBlockBitmap_spec {pad : Nat} {b b' : Bytes} (hlen : b.length = blk.val)
    (h : @initBlockBitmap blk sb g pad b = .ok b') :
    b'.length = blk ∧ sb.startBlock g + 3 + sb.inodeBlocks ≤ g * sb.blocksPerGroup + blk * 8 ∧
      ∀ q < blk.val * 8, bitAt b' q = true ↔
        (sb.isSuperInBg g = true ∧ q < 1 + sb.firstDataBlock + sb.descBlocks ∨
          sb.startBlock g + 1 ≤ g * sb.blocksPerGroup + q ∧
            g * sb.blocksPerGroup + q < sb.startBlock g + 3 + sb.inodeBlocks ∨
          pad ≤ q) ∨ bitAt b q = true := by
  have hstart := (startBlock_bounds sb g).1
  rw [initBlockBitmap_eq] at h
  obtain ⟨b1, h1, h⟩ := bind_eq_ok.mp h
  obtain ⟨b2, h2, h3⟩ := bind_eq_ok.mp h
  -- Three ranges are set one after the other; each bit outside keeps what it was.
  have hfirst : b1.length = blk ∧ ∀ q, bitAt b1 q =
      if sb.isSuperInBg g = true ∧ q < 1 + sb.firstDataBlock + sb.descBlocks then true
      else bitAt b q := by
    split at h1
    next hsuper =>
      obtain ⟨-, hlen1, hbits⟩ := setBitmap_spec h1
      refine ⟨hlen1.trans hlen, fun q => ?_⟩
      simpa [hsuper] using hbits q
    next hsuper =>
      obtain rfl := Except.ok.inj h1
      exact ⟨hlen, fun q => by simp [hsuper]⟩
  obtain ⟨hlen1, hbits1⟩ := hfirst
  obtain ⟨hbound, hlen2, hbits2⟩ := setBitmap_spec h2
  obtain ⟨-, hlen3, hbits3⟩ := setBitmap_spec h3
  refine ⟨hlen3.trans (hlen2.trans hlen1), by omega, fun q hq => ?_⟩
  rw [hbits3, hbits2, hbits1]
  split
  · simp only [true_iff]
    omega
  · split
    · simp only [true_iff]
      omega
    · split
      next hsuper => simp only [true_iff]; exact Or.inl (Or.inl hsuper)
      next hsuper =>
        constructor
        · exact Or.inr
        · rintro ((h | h | h) | h)
          · exact absurd h hsuper
          · omega
          · omega
          · exact h

theorem initInodeBitmap_length {b b' : Bytes} (hlen : b.length = blk.val)
    (h : @initInodeBitmap blk sb g b = .ok b') : b'.length = blk := by
  dsimp only [initInodeBitmap] at h
  split at h
  · obtain ⟨b1, h1, h⟩ := bind_eq_ok.mp h
    obtain ⟨b2, h2, h3⟩ := bind_eq_ok.mp h
    rw [(setBitmap_spec h3).2.1, (setBitmap_spec h2).2.1, (setBitmap_spec h1).2.1, hlen]
  · rw [(setBitmap_spec h).2.1, hlen]

/-- The blocks of a group: its block bitmap, and no block outside of the group's own. -/
theorem initGroup_spec {pad : Nat} {m m' : List (Nat × Bytes)} (hm : BlockMap blk m)
    (hnone : m.lookup (sb.startBlock g + 1) = none)
    (h : @initGroup blk sb g pad m = .ok m') :
    BlockMap blk m' ∧
      (∃ b, m'.lookup (sb.startBlock g + 1) = some b ∧ @initBlockBitmap blk sb g pad
        (List.replicate blk 0) = .ok b) ∧
      ∀ k, k ≤ sb.startBlock g ∨ sb.startBlock g + 3 + sb.inodeBlocks ≤ k →
        m'.lookup k = m.lookup k := by
  obtain ⟨m1, h1, h⟩ := bind_eq_ok.mp h
  obtain ⟨m2, h2, h3⟩ := bind_eq_ok.mp h
  obtain ⟨b1, -, hm1, hlook1⟩ := modifyBlock_spec hm (fun _ _ => initInodeBitmap_length) h1
  have htable : BlockMap blk m2 ∧ ∀ k, k < sb.startBlock g + 3 ∨
      sb.startBlock g + 3 + sb.inodeBlocks ≤ k → m2.lookup k = m1.lookup k := by
    apply foldlM_invariant (I := fun m2 => BlockMap blk m2 ∧ ∀ k, k < sb.startBlock g + 3 ∨
      sb.startBlock g + 3 + sb.inodeBlocks ≤ k → m2.lookup k = m1.lookup k) ?_
      ⟨hm1, fun _ _ => rfl⟩ h2
    intro s lba s' hlba ⟨hs, hkeep⟩ hstep
    obtain ⟨b, -, hs', hlook⟩ := modifyBlock_spec hs
      (fun b b' hb hpure => Except.ok.inj hpure ▸ hb) hstep
    rw [List.mem_range'_1] at hlba
    exact ⟨hs', fun k hk => by rw [hlook, if_neg (by omega), hkeep k hk]⟩
  obtain ⟨hm2, hlook2⟩ := htable
  obtain ⟨b3, hb3, hm3, hlook3⟩ := modifyBlock_spec hm2
    (fun b b' hb hok => (initBlockBitmap_spec hb hok).1) h3
  -- No block of the group has the number of its block bitmap.
  have hfresh : m2.lookup (sb.startBlock g + 1) = none := by
    rw [hlook2 _ (by omega), hlook1, if_neg (by omega), hnone]
  rw [hfresh] at hb3
  refine ⟨hm3, ⟨b3, by rw [hlook3, if_pos rfl], hb3⟩, fun k hk => ?_⟩
  rw [hlook3, if_neg (by omega), hlook2 k (by omega), hlook1, if_neg (by omega)]

end Groups

/-! ## The loop over the groups -/

section Loop
variable {blk : BlockSize} {C : Config blk} {image : Nat → Bytes} {csum : Nat → Bytes → Nat}
  {sb : DescriptorSb} {g : Nat} {st st' : FillState C}

/-- The descriptor that `fill_bg` writes for a group. -/
def descOf (sb : DescriptorSb) (g free freeInodes unused : Nat) : RawGroupDesc :=
  ⟨sb.startBlock g + 1, sb.startBlock g + 2, sb.startBlock g + 3, free, freeInodes, 0, unused,
    sb.isLazyInitBg g⟩

theorem fillGroup_eq (st : FillState C) (g : Nat) : fillGroup C image csum sb st g =
    freeBlocks sb g st.totalBlocks >>= fun free =>
    (if g = 0 then checkedSub sb.inodesPerGroup 9 else pure sb.inodesPerGroup) >>= fun fi =>
    (if sb.isLazyInitBg g then pure st.blockMap
      else @initGroup blk sb g (min st.totalBlocks sb.blocksPerGroup) st.blockMap) >>= fun m =>
    (if sb.isSuperInBg g ∧ g ≠ 0 then
      C.writeBlock st.dev (sb.firstDataBlock + g * sb.blocksPerGroup) (image st.freeBlocksCount)
      else pure st.dev) >>= fun dev =>
    itableUnused sb g >>= fun unused =>
    modifyBlock blk m (sb.intoLbaIndex g).1
      (storeDesc sb (csum g) (descOf sb g free fi unused) (sb.intoLbaIndex g).2) >>= fun m' =>
    if 2 ^ 32 ≤ st.freeBlocksCount + free then .error .panic
    else .ok ⟨dev, m', st.totalBlocks - sb.blocksPerGroup, st.freeBlocksCount + free⟩ := by
  unfold fillGroup
  dsimp only
  simp only [ite_bind]
  rfl

theorem fillGroup_eq_ok (h : fillGroup C image csum sb st g = .ok st') :
    ∃ free freeInodes unused m, freeBlocks sb g st.totalBlocks = .ok free ∧
      (if sb.isLazyInitBg g then pure st.blockMap
        else @initGroup blk sb g (min st.totalBlocks sb.blocksPerGroup) st.blockMap) = .ok m ∧
      modifyBlock blk m (sb.intoLbaIndex g).1 (storeDesc sb (csum g)
        (descOf sb g free freeInodes unused) (sb.intoLbaIndex g).2) = .ok st'.blockMap ∧
      st'.totalBlocks = st.totalBlocks - sb.blocksPerGroup := by
  rw [fillGroup_eq] at h
  obtain ⟨free, hfree, h⟩ := bind_eq_ok.mp h
  obtain ⟨fi, -, h⟩ := bind_eq_ok.mp h
  obtain ⟨m, hm, h⟩ := bind_eq_ok.mp h
  obtain ⟨dev, -, h⟩ := bind_eq_ok.mp h
  obtain ⟨unused, -, h⟩ := bind_eq_ok.mp h
  obtain ⟨m', hm', h⟩ := bind_eq_ok.mp h
  split at h
  · cases h
  · obtain rfl := Except.ok.inj h
    exact ⟨free, fi, unused, m, hfree, hm, hm', rfl⟩

/-- The descriptor of a group in the block map leads to the group's block bitmap. -/
def HasDesc (sb : DescriptorSb) (m : List (Nat × Bytes)) (g : Nat) : Prop :=
  ∃ b, m.lookup (sb.intoLbaIndex g).1 = some b ∧
    ByteRw.readU32 (LeBytes.slice b (sb.intoLbaIndex g).2 32) 0 = sb.startBlock g + 1

/-- The block bitmap of a group in the block map. -/
def HasBitmap (blk : BlockSize) (sb : DescriptorSb) (m : List (Nat × Bytes)) (g : Nat) : Prop :=
  ∃ b, m.lookup (sb.startBlock g + 1) = some b ∧
    ∀ q < blk.val * 8, bitAt b q = true ↔ InUse sb g q

/-- What holds when the loop has filled the groups below `n`. -/
structure Filled (sb : DescriptorSb) (n : Nat) (st : FillState C) : Prop where
  blockMap : BlockMap blk st.blockMap
  totalBlocks : st.totalBlocks = sb.blocksCount - n * sb.blocksPerGroup
  lookup_lt : ∀ k b, st.blockMap.lookup k = some b → k < sb.firstDataBlock + n * sb.blocksPerGroup
  bitmap : ∀ g < n, sb.isLazyInitBg g = false → HasBitmap blk sb st.blockMap g ∧
    sb.startBlock g + 3 + sb.inodeBlocks ≤ (g + 1) * sb.blocksPerGroup
  desc : ∀ g < n, HasDesc sb st.blockMap g
  room : 0 < n → sb.descBlocks + 4 ≤ min sb.blocksCount sb.blocksPerGroup

theorem Formatted.descBlocks_lt (hf : Formatted blk sb) : sb.descBlocks < 2 ^ 32 := by
  have hblk := blk.le
  have hn : sb.bgsCount < 2 ^ 32 := Nat.mod_lt _ (by decide)
  rw [DescriptorSb.descBlocks, divCeil, hf.blockDescSize, hf.blkSize]
  exact (Nat.div_lt_iff_lt_mul (by omega)).mpr (by omega)

theorem Formatted.startBlock_add_lt (hf : Formatted blk sb) (hg : g < sb.bgsCount) {n : Nat}
    (hn : n ≤ 3) : sb.startBlock g + n < 2 ^ 64 := by
  have hblk := blk.le
  have hdesc := hf.descBlocks_lt
  have hfdb := sb.firstDataBlock_le
  have hlt : sb.bgsCount < 2 ^ 32 := Nat.mod_lt _ (by decide)
  have hmul : g * sb.blocksPerGroup ≤ 2 ^ 32 * 2 ^ 16 := by
    rw [hf.blocksPerGroup]
    exact Nat.mul_le_mul (by omega) (by omega)
  have := (startBlock_bounds sb g).2
  omega

theorem Formatted.startBlock_lt (hf : Formatted blk sb) (hg : g < sb.bgsCount) :
    sb.startBlock g + 1 < 2 ^ 64 := hf.startBlock_add_lt hg (by decide)

theorem checkedSub_eq_ok {a b n : Nat} (h : checkedSub a b = .ok n) : b ≤ a ∧ n = a - b := by
  unfold checkedSub at h
  split at h
  · cases h
  · exact ⟨by omega, (Except.ok.inj h).symm⟩

theorem checkedSub_bind (a b c : Nat) :
    (checkedSub a b >>= fun n => checkedSub n c) = checkedSub a (b + c) := by
  unfold checkedSub
  by_cases hb : a < b
  · rw [if_pos hb, if_pos (by omega)]
    rfl
  · rw [if_neg hb]
    show (if a - b < c then _ else _) = _
    by_cases hc : a - b < c
    · rw [if_pos hc, if_pos (by omega)]
    · rw [if_neg hc, if_neg (by omega), Nat.sub_sub]

/-- The three subtractions in one. -/
theorem freeBlocks_eq (sb : DescriptorSb) (g total : Nat) : freeBlocks sb g total =
    checkedSub (min total sb.blocksPerGroup % 2 ^ 32)
      (sb.inodeBlocks + ((if g = sb.bgsCount - 1 then 2 + sb.firstDataBlock else 2) +
        if sb.isSuperInBg g then 1 + sb.descBlocks % 2 ^ 32 else 0)) := by
  rw [← checkedSub_bind]
  simp only [← checkedSub_bind]
  rfl

/-- The first group has room for its own blocks and the descriptors. -/
theorem Formatted.room (hf : Formatted blk sb) {total free : Nat}
    (h : freeBlocks sb 0 total = .ok free) :
    sb.descBlocks + 4 ≤ min total sb.blocksPerGroup := by
  rw [freeBlocks_eq, hf.superZero, if_pos rfl, Nat.mod_eq_of_lt hf.descBlocks_lt] at h
  obtain ⟨hle, -⟩ := checkedSub_eq_ok h
  have hmod := Nat.mod_le (min total sb.blocksPerGroup) (2 ^ 32)
  have hpos := hf.inodeBlocks_pos
  have htwo : 2 ≤ if 0 = sb.bgsCount - 1 then 2 + sb.firstDataBlock else 2 := by
    split <;> omega
  omega

/-- The blocks that filling a group initializes are the group's own. -/
theorem Filled.own {m : List (Nat × Bytes)} (hf : Formatted blk sb) (hst : Filled sb g st)
    (hm : (if sb.isLazyInitBg g then pure st.blockMap
      else @initGroup blk sb g (min st.totalBlocks sb.blocksPerGroup) st.blockMap) = .ok m) :
    BlockMap blk m ∧ (∀ k ≤ sb.startBlock g, m.lookup k = st.blockMap.lookup k) ∧
      (∀ k b, m.lookup k = some b → k < sb.firstDataBlock + (g + 1) * sb.blocksPerGroup) ∧
      (sb.isLazyInitBg g = false → HasBitmap blk sb m g ∧
        sb.startBlock g + 3 + sb.inodeBlocks ≤ (g + 1) * sb.blocksPerGroup) := by
  obtain ⟨hstart, -⟩ := startBlock_bounds sb g
  have hmul : (g + 1) * sb.blocksPerGroup = g * sb.blocksPerGroup + sb.blocksPerGroup :=
    Nat.succ_mul ..
  cases hlazy : sb.isLazyInitBg g with
  | true =>
      rw [hlazy, if_pos rfl] at hm
      obtain rfl := Except.ok.inj hm
      refine ⟨hst.blockMap, fun _ _ => rfl, fun k b hk => ?_, fun hf => nomatch hf⟩
      have := hst.lookup_lt k b hk
      omega
  | false =>
      rw [hlazy, if_neg Bool.false_ne_true, hst.totalBlocks] at hm
      -- Nothing has been put behind the start of the group yet.
      have hnone : st.blockMap.lookup (sb.startBlock g + 1) = none := by
        cases hk : st.blockMap.lookup (sb.startBlock g + 1) with
        | none => rfl
        | some b =>
            have := hst.lookup_lt _ b hk
            omega
      obtain ⟨hmap, ⟨b, hb, hinit⟩, hkeep⟩ := initGroup_spec hst.blockMap hnone hm
      obtain ⟨-, hend, hbits⟩ := initBlockBitmap_spec (List.length_replicate ..) hinit
      rw [← hf.blocksPerGroup, ← hmul] at hend
      refine ⟨hmap, fun k hk => hkeep k (Or.inl hk), fun k b hk => ?_,
        fun _ => ⟨⟨b, hb, fun q hq => ?_⟩, hend⟩⟩
      · by_cases hin : k ≤ sb.startBlock g ∨ sb.startBlock g + 3 + sb.inodeBlocks ≤ k
        · rw [hkeep k hin] at hk
          have := hst.lookup_lt k b hk
          omega
        · omega
      · rw [hbits q hq, bitAt_replicate]
        simp [InUse]

theorem Filled.nil {dev : C.Dev} : Filled (C := C) sb 0 ⟨dev, [], sb.blocksCount, 0⟩ where
  blockMap := ⟨List.Pairwise.nil, fun x hx => nomatch hx⟩
  totalBlocks := by rw [Nat.zero_mul, Nat.sub_zero]
  lookup_lt := fun k b hk => nomatch hk
  bitmap := fun g hg => absurd hg (Nat.not_lt_zero g)
  desc := fun g hg => absurd hg (Nat.not_lt_zero g)
  room := fun h0 => absurd h0 (Nat.lt_irrefl 0)

/-- Filling a group keeps what is there of the groups before it. -/
theorem Filled.step (hf : Formatted blk sb) (hg : g < sb.bgsCount) (hst : Filled sb g st)
    (h : fillGroup C image csum sb st g = .ok st') : Filled sb (g + 1) st' := by
  obtain ⟨free, fi, unused, m, hfree, hm, hm', htotal⟩ := fillGroup_eq_ok h
  obtain ⟨hstart, -⟩ := startBlock_bounds sb g
  have hmul : (g + 1) * sb.blocksPerGroup = g * sb.blocksPerGroup + sb.blocksPerGroup :=
    Nat.succ_mul ..
  obtain ⟨hmap, hkeep, hlt, heager⟩ := hst.own hf hm
  -- The descriptors end before the first group's own blocks.
  have hzero : sb.isLazyInitBg 0 = false := by simp [DescriptorSb.isLazyInitBg]
  have hdesc0 : sb.firstDataBlock + sb.descBlocks + 3 ≤ sb.blocksPerGroup := by
    have hstart0 := (startBlock_bounds sb 0).1
    have hend0 : sb.startBlock 0 + 3 + sb.inodeBlocks ≤ (0 + 1) * sb.blocksPerGroup := by
      rcases Nat.eq_zero_or_pos g with rfl | hpos
      · exact (heager hzero).2
      · exact (hst.bitmap 0 hpos hzero).2
    omega
  obtain ⟨-, hlba, hidx⟩ := hf.descriptor hg
  have hbase : sb.blocksPerGroup ≤ (g + 1) * sb.blocksPerGroup := by omega
  obtain ⟨b, hstore, hmap', hlook⟩ := modifyBlock_spec hmap (fun b b' hb hok => by
    rw [(storeDesc_spec hf.blockDescSize (hf.startBlock_lt hg) (by omega) hok).1, hb]) hm'
  have hlen := hmap.length_getD (sb.intoLbaIndex g).1
  obtain ⟨-, hread, hother⟩ :=
    storeDesc_spec hf.blockDescSize (hf.startBlock_lt hg) (by omega) hstore
  refine ⟨hmap', ?_, fun k b hk => ?_, fun g' hg' hlazy => ?_, fun g' hg' => ?_, fun _ => ?_⟩
  · rw [htotal, hst.totalBlocks, hmul]
    omega
  · rw [hlook] at hk
    split at hk
    · omega
    · exact hlt k b hk
  · have hstart' := (startBlock_bounds sb g').1
    have hbits : HasBitmap blk sb m g' ∧
        sb.startBlock g' + 3 + sb.inodeBlocks ≤ (g' + 1) * sb.blocksPerGroup := by
      rcases Nat.lt_succ_iff_lt_or_eq.mp hg' with hlt' | rfl
      · obtain ⟨⟨b', hb', hbits⟩, hend⟩ := hst.bitmap g' hlt' hlazy
        have hle : (g' + 1) * sb.blocksPerGroup ≤ g * sb.blocksPerGroup :=
          Nat.mul_le_mul_right _ hlt'
        exact ⟨⟨b', by rw [hkeep _ (by omega), hb'], hbits⟩, hend⟩
      · exact heager hlazy
    obtain ⟨⟨b', hb', hbits⟩, hend⟩ := hbits
    exact ⟨⟨b', by rw [hlook, if_neg (by omega), hb'], hbits⟩, hend⟩
  · rcases Nat.lt_succ_iff_lt_or_eq.mp hg' with hlt' | rfl
    · obtain ⟨b', hb', hread'⟩ := hst.desc g' hlt'
      obtain ⟨-, hlba', hidx'⟩ := hf.descriptor (hlt'.trans hg)
      rw [← hkeep _ (by omega)] at hb'
      by_cases hsame : (sb.intoLbaIndex g').1 = (sb.intoLbaIndex g).1
      · -- The slices of the two descriptors are apart.
        have hsep := hf.descriptor_disjoint (Nat.ne_of_lt hlt') hsame
        rw [hsame] at hb'
        rw [hb'] at hother hlen
        refine ⟨b, by rw [hlook, if_pos hsame], ?_⟩
        rw [hother _ (hidx'.trans (Nat.le_of_eq hlen.symm)) hsep]
        exact hread'
      · exact ⟨b', by rw [hlook, if_neg hsame, hb'], hread'⟩
    · exact ⟨b, by rw [hlook, if_pos rfl], hread⟩
  · rcases Nat.eq_zero_or_pos g with rfl | hpos
    · have htot := hst.totalBlocks
      rw [Nat.zero_mul, Nat.sub_zero] at htot
      exact htot ▸ hf.room hfree
    · exact hst.room hpos

end Loop

end RustExt4.Format
