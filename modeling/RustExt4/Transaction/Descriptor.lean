/-
  RustExt4.Transaction.Descriptor

  `submit_block_group` on the bytes of a descriptor.  The counters that it sets are the
  ones of the record that the write-back is modelled on; over the bytes there is the
  checksum besides, which is taken when all other fields are in place.
-/
import RustExt4.BlockGroup.Descriptor
import RustExt4.Transaction.FlushSpec

namespace RustExt4.Transaction

open BlockGroup (Field isBg64 get set length_set isBg64_set get_set_self get_set_of_ne
  calculateCsum)

/-! ## The update of the bytes -/

/-- `cnt.try_into().unwrap()` of a counter and its delta, and the setter. -/
def addDelta (raw : Bytes) (f : Field) (delta : Int) : Except Fault Bytes :=
  let cnt := (get raw f : Int) + delta
  if 0 ≤ cnt ∧ cnt < 2 ^ 32 then orPanic (set raw f cnt.toNat) else .error .panic

/-- The part of `submit_block_group` on `itable_unused`. -/
def submitUnusedRaw (sb : DescriptorSb) (bgid : Nat) (maxAllocIdxInBg : Option Nat) (raw : Bytes) :
    Except Fault Bytes :=
  match maxAllocIdxInBg with
  | none => .ok raw
  | some idx =>
    match sb.inodesInBg bgid with
    | .error e => .error e
    | .ok inodesInBg =>
      if inodesInBg < get raw .itableUnused then .error .panic
      else if inodesInBg - get raw .itableUnused ≤ idx then
        if inodesInBg ≤ idx then .error .panic
        else orPanic (set raw .itableUnused (inodesInBg - idx - 1))
      else .ok raw

/-- `submit_block_group` on the window of the descriptor in its block. -/
def submitBlockGroupRaw (sb : DescriptorSb) (uuid : Bytes) (bgid : Nat) (d : BgDelta)
    (raw : Bytes) : Except Fault Bytes :=
  if d.IsZero then .ok raw
  else
    (submitUnusedRaw sb bgid d.maxAllocIdxInBg raw).bind fun raw =>
    (addDelta raw .freeBlocksCount d.freeBlocksCntDelta).bind fun raw =>
    (addDelta raw .freeInodesCount d.freeInodesCntDelta).bind fun raw =>
    (addDelta raw .usedDirsCount d.usedDirsCntDelta).bind fun raw =>
    let (csum, raw) := calculateCsum sb.toSuperBlock uuid bgid raw
    orPanic (set raw .checksum csum)

/-! ## The steps -/

variable {sb : DescriptorSb} {uuid raw raw' : Bytes} {bgid v : Nat} {f : Field} {delta : Int}

/-- `raw'` is as long as `raw` and reads the same in all fields but `f`. -/
structure SameBut (f : Field) (raw raw' : Bytes) : Prop where
  length : raw'.length = raw.length
  same : ∀ g, g ≠ f → get raw' g = get raw g

theorem sameBut_set (h : set raw f v = some raw') : SameBut f raw raw' :=
  ⟨length_set h, fun _ hne => get_set_of_ne h hne⟩

theorem addDelta_spec (h : addDelta raw f delta = .ok raw') (hlen : 32 ≤ raw.length)
    (hbits : (f.accessor true).bits = 32) :
    SameBut f raw raw' ∧ (get raw' f : Int) = get raw f + delta := by
  unfold addDelta at h
  dsimp only at h
  split at h
  next hcnt =>
    have hset := orPanic_ok h
    have hv : ((get raw f : Int) + delta).toNat < 2 ^ (f.accessor true).bits := by
      rw [hbits]
      omega
    refine ⟨sameBut_set hset, ?_⟩
    rw [get_set_self hset hlen hv, Int.toNat_of_nonneg hcnt.1]
  next => cases h

theorem submitUnusedRaw_spec {maxAllocIdxInBg : Option Nat}
    (h : submitUnusedRaw sb bgid maxAllocIdxInBg raw = .ok raw') :
    SameBut .itableUnused raw raw' := by
  -- Without an inode allocated in the group, and for one below the new ones, nothing is written.
  have hsame : SameBut .itableUnused raw raw := ⟨rfl, fun _ _ => rfl⟩
  unfold submitUnusedRaw at h
  split at h
  next =>
    cases h
    exact hsame
  next idx =>
    split at h
    next => cases h
    next n hn =>
      split at h
      next => cases h
      next =>
        split at h
        next =>
          split at h
          next => cases h
          -- The one write is of the field the counter is.
          next => exact sameBut_set (orPanic_ok h)
        next =>
          cases h
          exact hsame

/-- What `submit_block_group` goes through: `itable_unused`, the three counters in turn, and
    the checksum of what is then there. -/
theorem submitBlockGroupRaw_steps {d : BgDelta} (hd : ¬ d.IsZero)
    (h : submitBlockGroupRaw sb uuid bgid d raw = .ok raw') :
    ∃ r1 r2 r3 r4, submitUnusedRaw sb bgid d.maxAllocIdxInBg raw = .ok r1 ∧
      addDelta r1 .freeBlocksCount d.freeBlocksCntDelta = .ok r2 ∧
      addDelta r2 .freeInodesCount d.freeInodesCntDelta = .ok r3 ∧
      addDelta r3 .usedDirsCount d.usedDirsCntDelta = .ok r4 ∧
      set (calculateCsum sb.toSuperBlock uuid bgid r4).2 .checksum
        (calculateCsum sb.toSuperBlock uuid bgid r4).1 = some raw' := by
  rw [submitBlockGroupRaw, if_neg hd] at h
  obtain ⟨r1, h1, h⟩ := bind_ok h
  obtain ⟨r2, h2, h⟩ := bind_ok h
  obtain ⟨r3, h3, h⟩ := bind_ok h
  obtain ⟨r4, h4, h⟩ := bind_ok h
  exact ⟨r1, r2, r3, r4, h1, h2, h3, h4, orPanic_ok h⟩

/-! ## The whole update -/

/-- The fields that `submit_block_group` may write. -/
def submitted : List Field :=
  [.itableUnused, .freeBlocksCount, .freeInodesCount, .usedDirsCount, .checksum]

/-- A descriptor after `submit_block_group`: the counters moved by their deltas, the other
    fields as they were, and a checksum that the new bytes have. -/
theorem submitBlockGroupRaw_spec {d : BgDelta} (hd : ¬ d.IsZero) (hlen : 32 ≤ raw.length)
    (h : submitBlockGroupRaw sb uuid bgid d raw = .ok raw') :
    (get raw' .freeBlocksCount : Int) = get raw .freeBlocksCount + d.freeBlocksCntDelta ∧
      (get raw' .freeInodesCount : Int) = get raw .freeInodesCount + d.freeInodesCntDelta ∧
      (get raw' .usedDirsCount : Int) = get raw .usedDirsCount + d.usedDirsCntDelta ∧
      (∀ f, f ∉ submitted → get raw' f = get raw f) ∧
      (calculateCsum sb.toSuperBlock uuid bgid raw').1 = get raw' .checksum := by
  obtain ⟨r1, r2, r3, r4, h1, h2, h3, h4, h5⟩ := submitBlockGroupRaw_steps hd h
  have s1 := submitUnusedRaw_spec h1
  have l1 : 32 ≤ r1.length := by rwa [s1.length]
  obtain ⟨s2, e2⟩ := addDelta_spec h2 l1 rfl
  have l2 : 32 ≤ r2.length := by rwa [s2.length]
  obtain ⟨s3, e3⟩ := addDelta_spec h3 l2 rfl
  have l3 : 32 ≤ r3.length := by rwa [s3.length]
  obtain ⟨s4, e4⟩ := addDelta_spec h4 l3 rfl
  have l4 : 32 ≤ r4.length := by rwa [s4.length]
  rw [BlockGroup.calculateCsum_keeps l4] at h5
  have s5 := sameBut_set h5
  -- A field keeps its value over all steps but its own.
  refine ⟨?_, ?_, ?_, fun f hf => ?_, ?_⟩
  · rw [s5.same _ (by decide), s4.same _ (by decide), s3.same _ (by decide), e2,
      s1.same _ (by decide)]
  · rw [s5.same _ (by decide), s4.same _ (by decide), e3, s2.same _ (by decide),
      s1.same _ (by decide)]
  · rw [s5.same _ (by decide), e4, s3.same _ (by decide), s2.same _ (by decide),
      s1.same _ (by decide)]
  · simp only [submitted, List.mem_cons, List.not_mem_nil, or_false, not_or] at hf
    obtain ⟨n1, n2, n3, n4, n5⟩ := hf
    rw [s5.same f n5, s4.same f n4, s3.same f n3, s2.same f n2, s1.same f n1]
  · -- The stored checksum is not part of what it is taken over.
    have hraw : raw' = ByteRw.writeU16 r4 0x1E (calculateCsum sb.toSuperBlock uuid bgid r4).1 :=
      (Option.some.inj h5).symm
    rw [get_set_self h5 l4 (BlockGroup.calculateCsum_lt ..), hraw,
      BlockGroup.calculateCsum_writeChecksum l4]

/-- The checksum of a descriptor is taken without changing it and without looking at the
    stored one, and after `submit_block_group` the descriptor has the counters and the
    checksum that it should have. -/
theorem descriptor_checks_out (sb : DescriptorSb) (uuid : Bytes) (bgid : Nat) {raw : Bytes}
    (hlen : raw.length = 32 ∨ raw.length = 64) :
    (calculateCsum sb.toSuperBlock uuid bgid raw).2 = raw ∧
      (∀ v, (calculateCsum sb.toSuperBlock uuid bgid (ByteRw.writeU16 raw 0x1E v)).1 =
        (calculateCsum sb.toSuperBlock uuid bgid raw).1) ∧
      ∀ (d : BgDelta) (raw' : Bytes), ¬ d.IsZero →
        submitBlockGroupRaw sb uuid bgid d raw = .ok raw' →
        (get raw' .freeBlocksCount : Int) = get raw .freeBlocksCount + d.freeBlocksCntDelta ∧
          (get raw' .freeInodesCount : Int) =
            get raw .freeInodesCount + d.freeInodesCntDelta ∧
          (get raw' .usedDirsCount : Int) = get raw .usedDirsCount + d.usedDirsCntDelta ∧
          (∀ f, f ∉ submitted → get raw' f = get raw f) ∧
          (calculateCsum sb.toSuperBlock uuid bgid raw').1 = get raw' .checksum := by
  have h32 : 32 ≤ raw.length := by omega
  exact ⟨BlockGroup.calculateCsum_keeps h32 .., fun v =>
    BlockGroup.calculateCsum_writeChecksum h32 sb.toSuperBlock uuid bgid v,
    fun d raw' hd h => submitBlockGroupRaw_spec hd h32 h⟩

/-- A file system with checksums of its metadata and descriptors of 64 bytes. -/
def wideSb : DescriptorSb where
  isDirEntryVersion2 := true
  inodeSize := 256
  inodesPerGroup := 2048
  featuresIncompatible := 0x80
  featuresReadonly := 0x400
  firstDataBlock := 0
  blocksPerGroup := 32768
  creatorOs := 0
  revLevel := 1
  bgCount := 1
  wantExtraIsize := 32
  blocksCount := 32768
  inodesCount := 2048
  blockDescSize := 64
  blkSize := 4096
  firstDataBlock_le := SuperBlock.zero_firstDataBlock_le
  blocksPerGroup_pos := SuperBlock.groupOf32768_pos
  blocksPerGroup_lt := SuperBlock.groupOf32768_lt
  bgCount_lt := SuperBlock.oneGroup_lt

/-- 70000 free blocks and one directory, on a descriptor of zeros. -/
theorem descriptor_checks_out_zeros :
    ∃ raw', submitBlockGroupRaw wideSb (List.replicate 16 0) 0
        { freeBlocksCntDelta := 70000, usedDirsCntDelta := 1 } (List.replicate 64 0) = .ok raw' ∧
      (get raw' .freeBlocksCount : Int) = 70000 ∧
      (calculateCsum wideSb.toSuperBlock (List.replicate 16 0) 0 raw').1 =
        get raw' .checksum := by
  have hruns : (submitBlockGroupRaw wideSb (List.replicate 16 0) 0
      { freeBlocksCntDelta := 70000, usedDirsCntDelta := 1 }
      (List.replicate 64 0)).toOption.isSome = true := by
    decide +kernel
  cases hrun : submitBlockGroupRaw wideSb (List.replicate 16 0) 0
      { freeBlocksCntDelta := 70000, usedDirsCntDelta := 1 } (List.replicate 64 0) with
  | error e =>
      rw [hrun] at hruns
      cases hruns
  | ok raw' =>
      obtain ⟨hblocks, -, -, -, hcsum⟩ := (descriptor_checks_out wideSb (List.replicate 16 0) 0
        (Or.inr (List.length_replicate ..))).2.2 _ raw' (by decide) hrun
      refine ⟨raw', rfl, ?_, hcsum⟩
      rw [hblocks]
      decide +kernel

/-! ## The record of the counters -/

/-- The counters in the bytes of a descriptor. -/
def descOf (raw : Bytes) : GroupDesc where
  freeBlocksCount := get raw .freeBlocksCount
  freeInodesCount := get raw .freeInodesCount
  usedDirsCount := get raw .usedDirsCount
  itableUnused := get raw .itableUnused

/-- A counter without its high part takes 16 bits. -/
theorem set_counter_lt {lo hi : Nat} (hf : ∀ is64, f.accessor is64 = .compoundU32 lo hi is64)
    (h : set raw f v = some raw') (hv : v < 2 ^ 32) :
    v < 2 ^ (if isBg64 raw then 32 else 16) := by
  rw [BlockGroup.set, hf, Accessor.set, Inode.setCompoundU32] at h
  split at h
  next h64 => rwa [if_pos h64]
  next h64 =>
    rw [if_neg h64]
    split at h
    · omega
    · cases h

theorem addDelta_toCounter {lo hi : Nat} (hf : ∀ is64, f.accessor is64 = .compoundU32 lo hi is64)
    (h : addDelta raw f delta = .ok raw') (hlen : 32 ≤ raw.length)
    (hform : isBg64 raw = sb.isBg64) :
    toCounter sb.counterBits (get raw f + delta) = .ok (get raw' f) := by
  have hbits : (f.accessor true).bits = 32 := by
    rw [hf]
    rfl
  have hget := (addDelta_spec h hlen hbits).2
  unfold addDelta at h
  dsimp only at h
  split at h
  next hcnt =>
    have hlt := set_counter_lt hf (orPanic_ok h) (show _ < 2 ^ 32 by omega)
    rw [hform] at hlt
    have hfits : (get raw f : Int) + delta < 2 ^ sb.counterBits := by
      rw [DescriptorSb.counterBits, ← Int.toNat_of_nonneg hcnt.1]
      exact_mod_cast hlt
    rw [toCounter, if_pos ⟨hcnt.1, hfits⟩, ← hget, Int.toNat_natCast]
  next => cases h

theorem submitUnusedRaw_submitUnused {maxAllocIdxInBg : Option Nat}
    (h : submitUnusedRaw sb bgid maxAllocIdxInBg raw = .ok raw') (hlen : 32 ≤ raw.length)
    (hform : isBg64 raw = sb.isBg64) (hn : ∀ n, sb.inodesInBg bgid = .ok n → n < 2 ^ 32) :
    submitUnused sb bgid maxAllocIdxInBg (get raw .itableUnused) =
      .ok (get raw' .itableUnused) := by
  -- The two run the same tests, so they are followed together.
  unfold submitUnusedRaw at h
  cases maxAllocIdxInBg with
  | none =>
      cases h
      rfl
  | some idx =>
      dsimp only [submitUnused] at h ⊢
      cases hin : sb.inodesInBg bgid with
      | error e =>
          rw [hin] at h
          cases h
      | ok n =>
          rw [hin] at h
          dsimp only at h ⊢
          rw [useInode]
          by_cases hfew : n < get raw .itableUnused
          · rw [if_pos hfew] at h
            cases h
          · rw [if_neg hfew] at h ⊢
            by_cases hnew : n - get raw .itableUnused ≤ idx
            · rw [if_pos hnew] at h ⊢
              by_cases hout : n ≤ idx
              · rw [if_pos hout] at h
                cases h
              · rw [if_neg hout] at h ⊢
                have hset := orPanic_ok h
                -- What is written fits the field, so it is read back.
                have hv : n - idx - 1 < 2 ^ 32 := by
                  have := hn n hin
                  omega
                have hlt := set_counter_lt (fun _ => rfl) hset hv
                rw [hform] at hlt
                have hfits : ((n - idx - 1 : Nat) : Int) < 2 ^ sb.counterBits := by
                  rw [DescriptorSb.counterBits]
                  exact_mod_cast hlt
                rw [get_set_self hset hlen hv, toCounter, if_pos ⟨Int.natCast_nonneg _, hfits⟩,
                  Int.toNat_natCast]
            · rw [if_neg hnew] at h ⊢
              cases h
              rfl

/-- On the counters the update of the bytes is the update of the record. -/
theorem submitBlockGroupRaw_refines {d : BgDelta} (hlen : 32 ≤ raw.length)
    (hform : isBg64 raw = sb.isBg64) (hn : ∀ n, sb.inodesInBg bgid = .ok n → n < 2 ^ 32)
    (h : submitBlockGroupRaw sb uuid bgid d raw = .ok raw') :
    submitBlockGroup sb bgid d (descOf raw) = .ok (descOf raw') := by
  by_cases hd : d.IsZero
  · rw [submitBlockGroupRaw, if_pos hd] at h
    cases h
    rw [submitBlockGroup, if_pos hd]
  · obtain ⟨r1, r2, r3, r4, h1, h2, h3, h4, h5⟩ := submitBlockGroupRaw_steps hd h
    have s1 := submitUnusedRaw_spec h1
    have l1 : 32 ≤ r1.length := by rwa [s1.length]
    obtain ⟨s2, -⟩ := addDelta_spec h2 l1 rfl
    have l2 : 32 ≤ r2.length := by rwa [s2.length]
    obtain ⟨s3, -⟩ := addDelta_spec h3 l2 rfl
    have l3 : 32 ≤ r3.length := by rwa [s3.length]
    obtain ⟨s4, -⟩ := addDelta_spec h4 l3 rfl
    have l4 : 32 ≤ r4.length := by rwa [s4.length]
    rw [BlockGroup.calculateCsum_keeps l4] at h5
    have s5 := sameBut_set h5
    have c1 := submitUnusedRaw_submitUnused h1 hlen hform hn
    have f2 : isBg64 r1 = sb.isBg64 := by rw [isBg64, s1.length, ← isBg64, hform]
    have f3 : isBg64 r2 = sb.isBg64 := by rw [isBg64, s2.length, ← isBg64, f2]
    have f4 : isBg64 r3 = sb.isBg64 := by rw [isBg64, s3.length, ← isBg64, f3]
    have c2 := addDelta_toCounter (fun _ => rfl) h2 l1 f2
    have c3 := addDelta_toCounter (fun _ => rfl) h3 l2 f3
    have c4 := addDelta_toCounter (fun _ => rfl) h4 l3 f4
    -- Each counter is read before its own step and not written after it.
    rw [s1.same _ (by decide)] at c2
    rw [s2.same _ (by decide), s1.same _ (by decide)] at c3
    rw [s3.same _ (by decide), s2.same _ (by decide), s1.same _ (by decide)] at c4
    rw [submitBlockGroup, if_neg hd]
    simp only [descOf, c1, c2, c3, c4, Except.bind, Except.ok.injEq, GroupDesc.mk.injEq]
    refine ⟨?_, ?_, ?_, ?_⟩
    · rw [s5.same _ (by decide), s4.same _ (by decide), s3.same _ (by decide)]
    · rw [s5.same _ (by decide), s4.same _ (by decide)]
    · rw [s5.same _ (by decide)]
    · rw [s5.same _ (by decide), s4.same _ (by decide), s3.same _ (by decide),
        s2.same _ (by decide)]

end RustExt4.Transaction
