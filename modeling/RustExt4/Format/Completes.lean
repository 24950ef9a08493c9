/-
  RustExt4.Format.Completes

  When the loop over the groups goes through: no subtraction of `fill_bg` goes
  below 0, no bitmap position is past its block, and each count fits the low
  half of its field.  What can still fail is a write of the device.
-/
import RustExt4.Format.Layout

namespace RustExt4.Format

open ExceptRun
open Inode (setCompoundU64 setCompoundU32)

section Blocks
variable {blk : BlockSize} {sb : DescriptorSb} {E : Fault → Prop} {g : Nat}

theorem setBitmap_ends {b : Bytes} {st ed : Nat} (h : ed ≤ st ∨ ed ≤ 8 * b.length) :
    Ends E (fun b' => b'.length = b.length) (ByteRw.setBitmap b st ed) :=
  .of_ok (setBitmap_ok h) (setBitmap_spec (setBitmap_ok h)).2.1

theorem modifyBlock_ends {m : List (Nat × Bytes)} {lba : Nat} {f : Bytes → Except Fault Bytes}
    (hm : BlockMap blk m)
    (hf : ∀ b, b.length = blk.val → Ends E (fun b' => b'.length = blk.val) (f b)) :
    Ends E (BlockMap blk) (modifyBlock blk m lba f) := by
  refine (hf _ (hm.length_getD lba)).bind fun b hb => ⟨hm.1.insert, fun x hx => ?_⟩
  rcases SortedMap.mem_insert hx with rfl | hx
  · exact hb
  · exact hm.2 x hx

theorem initInodeBitmap_ends {b : Bytes} (hb : b.length = blk.val) :
    Ends E (fun b' => b'.length = blk.val) (@initInodeBitmap blk sb g b) := by
  have hblk := blk.le
  have hlast : ∀ b1 : Bytes, b1.length = blk.val → Ends E (fun b' => b'.length = blk.val)
      (ByteRw.setBitmap b1 sb.inodesPerGroup (blk * 8)) := fun b1 hb1 =>
    hb1 ▸ setBitmap_ends (Or.inr (by omega))
  dsimp only [initInodeBitmap]
  split
  · refine (setBitmap_ends (by omega)).bind fun b1 h1 => ?_
    refine (setBitmap_ends (by omega)).bind fun b2 h2 => ?_
    exact hlast b2 (h2.trans (h1.trans hb))
  · exact hlast b hb

theorem initBlockBitmap_ends {pad : Nat} {b : Bytes} (hb : b.length = blk.val)
    (hend : sb.startBlock g + 3 + sb.inodeBlocks ≤ g * sb.blocksPerGroup + blk * 8) :
    Ends E (fun b' => b'.length = blk.val) (@initBlockBitmap blk sb g pad b) := by
  have hstart := (startBlock_bounds sb g).1
  have hfirst : Ends E (fun b' => b'.length = b.length) (if sb.isSuperInBg g then
      ByteRw.setBitmap b 0 (1 + sb.firstDataBlock + sb.descBlocks) else pure b) := by
    split
    · exact setBitmap_ends (by omega)
    · exact rfl
  rw [initBlockBitmap_eq]
  refine hfirst.bind fun b1 h1 => ?_
  refine (setBitmap_ends (by omega)).bind fun b2 h2 => ?_
  have hlen : b2.length = blk.val := h2.trans (h1.trans hb)
  exact hlen ▸ setBitmap_ends (Or.inr (by omega))

/-- The blocks of a group can be filled where they end inside of the bitmap. -/
theorem initGroup_ends {pad : Nat} {m : List (Nat × Bytes)} (hm : BlockMap blk m)
    (hend : sb.startBlock g + 3 + sb.inodeBlocks ≤ g * sb.blocksPerGroup + blk * 8) :
    Ends E (BlockMap blk) (@initGroup blk sb g pad m) := by
  refine (modifyBlock_ends hm fun b => initInodeBitmap_ends).bind fun m1 hm1 => ?_
  have htable := @Ends.foldlM Fault Nat (List (Nat × Bytes)) E
    (fun m lba => modifyBlock blk m lba pure) (BlockMap blk)
    (List.range' (sb.startBlock g + 3) sb.inodeBlocks)
    (fun m lba _ hm => modifyBlock_ends hm fun b hb => hb) m1 hm1
  exact htable.bind fun m2 hm2 => modifyBlock_ends hm2 fun b hb => initBlockBitmap_ends hb hend

/-- A descriptor whose counts fit the low halves of their fields can be stored. -/
theorem storeDesc_ends {csum : Bytes → Nat} {d : RawGroupDesc} {idx : Nat} {b : Bytes}
    (hsize : sb.blockDescSize = 32) (hlen : idx + 32 ≤ b.length)
    (hlba : d.blockBitmap < 2 ^ 32 ∧ d.inodeBitmap < 2 ^ 32 ∧ d.inodeTable < 2 ^ 32)
    (hcount : d.freeBlocksCount < 2 ^ 16 ∧ d.freeInodesCount < 2 ^ 16 ∧
      d.usedDirsCount < 2 ^ 16 ∧ d.itableUnused < 2 ^ 16) :
    Ends E (fun b' => b'.length = b.length) (storeDesc sb csum d idx b) := by
  have h64 : sb.isBg64 = false := by rw [DescriptorSb.isBg64, hsize]; rfl
  have hset64 : ∀ {raw : Bytes} {lo hi v : Nat}, v < 2 ^ 32 →
      ∃ raw', setCompoundU64 raw lo hi false v = some raw' := fun hv =>
    ⟨_, (if_neg Bool.false_ne_true).trans (if_pos (by simp only [splitU64]; omega))⟩
  have hset32 : ∀ {raw : Bytes} {lo hi v : Nat}, v < 2 ^ 16 →
      ∃ raw', setCompoundU32 raw lo hi false v = some raw' := fun hv =>
    ⟨_, (if_neg Bool.false_ne_true).trans (if_pos (by omega))⟩
  obtain ⟨r1, h1⟩ := @hset64 (LeBytes.slice b idx sb.blockDescSize) 0x0 0x20 _ hlba.1
  obtain ⟨r2, h2⟩ := @hset64 r1 0x4 0x24 _ hlba.2.1
  obtain ⟨r3, h3⟩ := @hset64 r2 0x8 0x28 _ hlba.2.2
  obtain ⟨r4, h4⟩ := @hset32 r3 0xC 0x2C _ hcount.1
  obtain ⟨r5, h5⟩ := @hset32 r4 0xE 0x2E _ hcount.2.1
  obtain ⟨r6, h6⟩ := @hset32 r5 0x10 0x30 _ hcount.2.2.1
  obtain ⟨r7, h7⟩ := @hset32 r6 0x1C 0x32 _ hcount.2.2.2
  have hset : ∃ raw, d.set csum false (LeBytes.slice b idx sb.blockDescSize) = some raw := by
    simp only [RawGroupDesc.set, h1, h2, h3, h4, h5, h6, h7, bind, Option.bind]
    exact ⟨_, rfl⟩
  obtain ⟨raw, hset⟩ := hset
  have hstore : storeDesc sb csum d idx b = .ok (LeBytes.splice b idx raw) := by
    rw [storeDesc, h64, hset]
  exact .of_ok hstore (storeDesc_spec hsize (by omega) hlen hstore).1

end Blocks

/-! ## The loop -/

/-- The numbers of a group with which no step of `fill_bg` panics. -/
structure Fits (sb : DescriptorSb) (g : Nat) : Prop where
  free : ∃ free, freeBlocks sb g (sb.blocksCount - g * sb.blocksPerGroup) = .ok free
  unused : ∃ unused < 2 ^ 16, itableUnused sb g = .ok unused
  start : sb.startBlock g + 3 < 2 ^ 32
  room : sb.startBlock g + 3 + sb.inodeBlocks ≤ (g + 1) * sb.blocksPerGroup

/-- The state of the loop when `n` groups are filled. -/
structure Progress {blk : BlockSize} {C : Config blk} (sb : DescriptorSb) (n : Nat)
    (st : FillState C) : Prop where
  blockMap : BlockMap blk st.blockMap
  totalBlocks : st.totalBlocks = sb.blocksCount - n * sb.blocksPerGroup
  free_le : st.freeBlocksCount + st.totalBlocks ≤ sb.blocksCount

theorem freeBlocks_le {sb : DescriptorSb} {g total free : Nat}
    (h : freeBlocks sb g total = .ok free) : free ≤ min total sb.blocksPerGroup := by
  rw [freeBlocks_eq] at h
  obtain ⟨-, rfl⟩ := checkedSub_eq_ok h
  have hmod := Nat.mod_le (min total sb.blocksPerGroup) (2 ^ 32)
  omega

section Loop
variable {blk : BlockSize} {C : Config blk} {image : Nat → Bytes} {csum : Nat → Bytes → Nat}
  {sb : DescriptorSb} {E : Fault → Prop}

theorem fillGroup_ends {g : Nat} {st : FillState C}
    (hwrite : ∀ dev n b, Ends E (fun _ => True) (C.writeBlock dev n b))
    (hf : Formatted blk sb) (hipg : 9 ≤ sb.inodesPerGroup ∧ sb.inodesPerGroup < 2 ^ 16)
    (hg : g < sb.bgsCount) (hfits : Fits sb g) (hst : Progress sb g st) :
    Ends E (Progress sb (g + 1)) (fillGroup C image csum sb st g) := by
  obtain ⟨free, hfree⟩ := hfits.free
  obtain ⟨unused, hunused, hsub⟩ := hfits.unused
  have hstart := hfits.start
  have hroom := hfits.room
  have hbpg := hf.blocksPerGroup
  have hblk := blk.le
  have hle := freeBlocks_le hfree
  have hmul : (g + 1) * sb.blocksPerGroup = g * sb.blocksPerGroup + sb.blocksPerGroup :=
    Nat.succ_mul ..
  obtain ⟨-, -, hidx⟩ := hf.descriptor hg
  have hinodes : Ends E (· < 2 ^ 16)
      (if g = 0 then checkedSub sb.inodesPerGroup 9 else pure sb.inodesPerGroup) := by
    split
    · exact .of_ok (if_neg (by omega)) (show sb.inodesPerGroup - 9 < _ by omega)
    · exact hipg.2
  have hblocks : Ends E (BlockMap blk) (if sb.isLazyInitBg g then pure st.blockMap
      else @initGroup blk sb g (min st.totalBlocks sb.blocksPerGroup) st.blockMap) := by
    split
    · exact hst.blockMap
    · exact initGroup_ends hst.blockMap (by omega)
  have hcopy : Ends E (fun _ => True) (if sb.isSuperInBg g ∧ g ≠ 0 then
      C.writeBlock st.dev (sb.firstDataBlock + g * sb.blocksPerGroup) (image st.freeBlocksCount)
      else pure st.dev) := by
    split
    · exact hwrite _ _ _
    · exact trivial
  rw [fillGroup_eq, hst.totalBlocks, bind_of_ok hfree, ← hst.totalBlocks]
  refine hinodes.bind fun fi hfi => ?_
  refine hblocks.bind fun m hm => ?_
  refine hcopy.bind fun dev _ => ?_
  rw [bind_of_ok hsub]
  -- The fields of the descriptor fit.
  have hstore : Ends E (BlockMap blk) (modifyBlock blk m (sb.intoLbaIndex g).1 (storeDesc sb
      (csum g) (descOf sb g free fi unused) (sb.intoLbaIndex g).2)) := by
    refine modifyBlock_ends hm fun b hb => hb ▸ storeDesc_ends hf.blockDescSize (by omega) ?_ ?_
    · exact ⟨show sb.startBlock g + 1 < _ by omega, show sb.startBlock g + 2 < _ by omega, hstart⟩
    · exact ⟨show free < _ by omega, hfi, show 0 < 2 ^ 16 by decide, hunused⟩
  refine hstore.bind fun m' hm' => ?_
  have hsum := hst.free_le
  have htotal := hst.totalBlocks
  have hlt := hf.blocksCount_lt
  rw [if_neg (by omega)]
  exact
    { blockMap := hm'
      totalBlocks := by show st.totalBlocks - sb.blocksPerGroup = _; omega
      free_le := by show st.freeBlocksCount + free + (st.totalBlocks - _) ≤ _; omega }

/-- The loop goes through the groups that fit. -/
theorem fillGroups_ends {n : Nat} {dev : C.Dev}
    (hwrite : ∀ dev n b, Ends E (fun _ => True) (C.writeBlock dev n b))
    (hf : Formatted blk sb) (hipg : 9 ≤ sb.inodesPerGroup ∧ sb.inodesPerGroup < 2 ^ 16)
    (hn : n ≤ sb.bgsCount) (hfits : ∀ g < n, Fits sb g) :
    Ends E (Progress sb n)
      ((List.range n).foldlM (fillGroup C image csum sb) ⟨dev, [], sb.blocksCount, 0⟩) := by
  refine Ends.foldlM_range (fun g st hg hst => ?_) ?_
  · exact fillGroup_ends hwrite hf hipg (by omega) (hfits g hg) hst
  · exact
      { blockMap := ⟨List.Pairwise.nil, fun x hx => nomatch hx⟩
        totalBlocks := by rw [Nat.zero_mul, Nat.sub_zero]
        free_le := Nat.le_of_eq (Nat.zero_add _) }

/-- Where every group fits, `fill_bg` fails with the device's errors only. -/
theorem fillBg_ends {dev : C.Dev}
    (hwrite : ∀ dev n b, Ends E (fun _ => True) (C.writeBlock dev n b))
    (hf : Formatted blk sb) (hipg : 9 ≤ sb.inodesPerGroup ∧ sb.inodesPerGroup < 2 ^ 16)
    (hcount : sb.firstDataBlock ≤ sb.blocksCount) (hfits : ∀ g < sb.bgsCount, Fits sb g) :
    Ends E (fun _ => True) (fillBg C image csum sb dev) := by
  rw [fillBg, if_neg (by omega)]
  refine (fillGroups_ends hwrite hf hipg (Nat.le_refl _) hfits).bind fun st _ => ?_
  have hblocks := @Ends.foldlM Fault (Nat × Bytes) C.Dev E
    (fun dev x => C.writeBlock dev x.1 x.2) (fun _ => True) st.blockMap
    (fun dev x _ _ => hwrite dev x.1 x.2) st.dev trivial
  exact Ends.bind hblocks fun dev' _ => trivial

end Loop

/-! ## A device in memory -/

section Memory
variable {blk : BlockSize} {sb : DescriptorSb}

/-- A device in memory. -/
def memConfig (blk : BlockSize) : Config blk where
  Dev := Nat → Bytes
  readBytes := fun d ofs => .ok (d (ofs / blk))
  writeBytes := fun d ofs b => .ok (Function.update d (ofs / blk) b)
  read_write := by
    intro d d' n b _ hwrite m
    have hpos : 0 < blk.val := by have := blk.le; omega
    obtain rfl := Except.ok.inj hwrite
    rw [Nat.mul_div_cancel _ hpos, Nat.mul_div_cancel _ hpos]
    by_cases h : m = n
    · rw [if_pos h, h, Function.update_self]
    · rw [if_neg h, Function.update_of_ne h]

/-- On a device in memory `fill_bg` completes. -/
theorem fillBg_exists (image : Nat → Bytes) (csum : Nat → Bytes → Nat)
    (dev : (memConfig blk).Dev) (hf : Formatted blk sb)
    (hipg : 9 ≤ sb.inodesPerGroup ∧ sb.inodesPerGroup < 2 ^ 16)
    (hcount : sb.firstDataBlock ≤ sb.blocksCount) (hfits : ∀ g < sb.bgsCount, Fits sb g) :
    ∃ st, fillBg (memConfig blk) image csum sb dev = .ok st := by
  have hends := @fillBg_ends blk (memConfig blk) image csum sb (fun _ => False) dev
    (fun _ _ _ => trivial) hf hipg hcount hfits
  obtain ⟨st, hst, -⟩ := hends.exists_ok
  exact ⟨st, hst⟩

theorem tinyAux_firstDataBlock_le (blk : BlockSize) :
    (if blk.val = 1024 then 1 else 0) ≤ 1 := by
  split <;> decide

/-- `FormatAux::new` of a device of 64 blocks. -/
def tinyAux (blk : BlockSize) : FormatAux where
  blocksCnt := 64
  inodesCnt := 16
  blocksPerGroup := blk.val * 8
  firstDataBlock := if blk.val = 1024 then 1 else 0
  inodesPerGroup := 16
  blockSize := blk
  blocksPerGroup_eq := rfl
  firstDataBlock_le := tinyAux_firstDataBlock_le blk

/-- The device of 64 blocks can be formatted. -/
theorem tiny_fillBg (blk : BlockSize) (image : Nat → Bytes) (csum : Nat → Bytes → Nat)
    (dev : (memConfig blk).Dev) : ∃ sb st, FormatAux.new (64 * blk) blk = .ok (tinyAux blk) ∧
      makeSb (tinyAux blk) = .ok sb ∧ fillBg (memConfig blk) image csum sb dev = .ok st := by
  have hnew : FormatAux.new (64 * blk) blk = .ok (tinyAux blk) := by
    obtain ⟨n, rfl | rfl | rfl⟩ := blk <;> rfl
  have hnumbers : ∃ sb free unused, makeSb (tinyAux blk) = .ok sb ∧ sb.bgsCount = 1 ∧
      sb.firstDataBlock ≤ sb.blocksCount ∧ (9 ≤ sb.inodesPerGroup ∧ sb.inodesPerGroup < 2 ^ 16) ∧
      freeBlocks sb 0 sb.blocksCount = .ok free ∧ unused < 2 ^ 16 ∧
      itableUnused sb 0 = .ok unused ∧ sb.startBlock 0 + 3 < 2 ^ 32 ∧
      sb.startBlock 0 + 3 + sb.inodeBlocks ≤ sb.blocksPerGroup := by
    obtain ⟨n, rfl | rfl | rfl⟩ := blk
    · exact ⟨_, 55, 15, rfl, by decide +kernel⟩
    · exact ⟨_, 58, 15, rfl, by decide +kernel⟩
    · exact ⟨_, 59, 15, rfl, by decide +kernel⟩
  obtain ⟨sb, free, unused, hsb, hone, hcount, hipg, hfree, hlt, hunused, hstart, hroom⟩ := hnumbers
  have hfits : ∀ g < sb.bgsCount, Fits sb g := by
    intro g hg
    obtain rfl : g = 0 := by omega
    exact
      { free := ⟨free, by rw [Nat.zero_mul, Nat.sub_zero, hfree]⟩
        unused := ⟨unused, hlt, hunused⟩
        start := hstart
        room := by omega }
  obtain ⟨st, hst⟩ :=
    fillBg_exists image csum dev (Formatted.of_makeSb hnew hsb) hipg hcount hfits
  exact ⟨sb, st, hnew, hsb, hst⟩

end Memory

end RustExt4.Format
