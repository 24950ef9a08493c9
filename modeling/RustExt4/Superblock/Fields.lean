/-
  RustExt4.Superblock.Fields

  The fields of the superblock (`superblock/raw.rs`), as they are declared by hand with
  their offsets and widths.  All of them lie apart but two: `max_mount_count` is four
  bytes long where its place has two, so that it reaches into the magic number.
-/
import RustExt4.Accessor
import RustExt4.Types

namespace RustExt4.Superblock

open Accessor (get_set_of_apart get_set_self length_set)

/-! ## The declarations -/

inductive Field
  | inodesCount
  | blocksCount
  | rBlocksCount
  | freeBlocksCount
  | freeInodesCount
  | firstDataBlock
  | logBlockSize
  | logClusterSize
  | blocksPerGroup
  | clustersPerGroup
  | inodesPerGroup
  | mtime
  | wtime
  | mountCount
  | maxMountCount
  | magic
  | state
  | errors
  | minorRevLevel
  | lastcheck
  | checkInterval
  | creatorOs
  | revLevel
  | defResuid
  | defResgid
  | firstInode
  | inodeSize
  | blockGroupNr
  | featureCompat
  | featureIncompat
  | featureRoCompat
  | reserverdGdtBlocks
  | lastOrphan
  | defaultHashVersion
  | descSize
  | defaultMountOpts
  | firstMetaBg
  | mkfsTime
  | minExtraIsize
  | wantExtraIsize
  | flags
  | checksumType
  deriving DecidableEq, Repr

/-- `BIT64` -/
def featureBit64 : Nat := 0x80

/-- `is_feature_incompat64` -/
def isFeatureIncompat64 (raw : Bytes) : Bool :=
  containsFlag (ByteRw.readU32 raw 0x60) featureBit64

def Field.accessor (use64 : Bool) : Field → Accessor
  | inodesCount => .u32 0x0
  | blocksCount => .compoundU64 0x4 0x150 use64
  | rBlocksCount => .compoundU64 0x8 0x154 use64
  | freeBlocksCount => .compoundU64 0xC 0x158 use64
  | freeInodesCount => .u32 0x10
  | firstDataBlock => .u32 0x14
  | logBlockSize => .u32 0x18
  | logClusterSize => .u32 0x1C
  | blocksPerGroup => .u32 0x20
  | clustersPerGroup => .u32 0x24
  | inodesPerGroup => .u32 0x28
  | mtime => .u32 0x2C
  | wtime => .u32 0x30
  | mountCount => .u16 0x34
  | maxMountCount => .u32 0x36
  | magic => .u16 0x38
  | state => .u16 0x3A
  | errors => .u16 0x3C
  | minorRevLevel => .u16 0x3E
  | lastcheck => .u32 0x40
  | checkInterval => .u32 0x44
  | creatorOs => .u32 0x48
  | revLevel => .u32 0x4C
  | defResuid => .u16 0x50
  | defResgid => .u16 0x52
  | firstInode => .u32 0x54
  | inodeSize => .u16 0x58
  | blockGroupNr => .u16 0x5A
  | featureCompat => .u32 0x5C
  | featureIncompat => .u32 0x60
  | featureRoCompat => .u32 0x64
  | reserverdGdtBlocks => .u16 0xCE
  | lastOrphan => .u32 0xE8
  | defaultHashVersion => .u8 0xFC
  | descSize => .u16 0xFE
  | defaultMountOpts => .u32 0x100
  | firstMetaBg => .u32 0x104
  | mkfsTime => .u32 0x108
  | minExtraIsize => .u16 0x15C
  | wantExtraIsize => .u16 0x15E
  | flags => .u32 0x160
  | checksumType => .u8 0x175

/-- The getter of a field; it looks up whether the high parts are in use. -/
def get (raw : Bytes) (f : Field) : Nat := (f.accessor (isFeatureIncompat64 raw)).get raw

def set (raw : Bytes) (f : Field) (v : Nat) : Option Bytes :=
  (f.accessor (isFeatureIncompat64 raw)).set raw v

/-! ## The places -/

def Field.all : List Field :=
  [.inodesCount, .blocksCount, .rBlocksCount, .freeBlocksCount, .freeInodesCount,
   .firstDataBlock, .logBlockSize, .logClusterSize, .blocksPerGroup, .clustersPerGroup,
   .inodesPerGroup, .mtime, .wtime, .mountCount, .maxMountCount, .magic, .state, .errors,
   .minorRevLevel, .lastcheck, .checkInterval, .creatorOs, .revLevel, .defResuid, .defResgid,
   .firstInode, .inodeSize, .blockGroupNr, .featureCompat, .featureIncompat, .featureRoCompat,
   .reserverdGdtBlocks, .lastOrphan, .defaultHashVersion, .descSize, .defaultMountOpts,
   .firstMetaBg, .mkfsTime, .minExtraIsize, .wantExtraIsize, .flags, .checksumType]

theorem Field.mem_all (f : Field) : f ∈ Field.all := by cases f <;> decide

/-- The two fields that have bytes in common. -/
def Overlap (f g : Field) : Prop :=
  f = .maxMountCount ∧ g = .magic ∨ f = .magic ∧ g = .maxMountCount

instance (f g : Field) : Decidable (Overlap f g) := inferInstanceAs (Decidable (_ ∨ _))

/-- The table of the declarations, all pairs of it. -/
theorem apart_all : ∀ use64 : Bool, ∀ f ∈ Field.all, ∀ g ∈ Field.all, f ≠ g → ¬ Overlap f g →
    (f.accessor use64).Apart (g.accessor use64) := by
  decide +kernel

theorem Field.apart {f g : Field} (use64 : Bool) (hne : f ≠ g) (hover : ¬ Overlap f g) :
    (f.accessor use64).Apart (g.accessor use64) :=
  apart_all use64 f f.mem_all g g.mem_all hne hover

theorem Field.within (use64 : Bool) (f : Field) : (f.accessor use64).Within 1024 := by
  cases use64 <;> cases f <;> decide

/-! ## Setting one field and reading another -/

/-- The high part of a two-part field, and 0 for the others. -/
def highHalf (raw : Bytes) (f : Field) : Nat :=
  match f.accessor true with
  | .compoundU64 _ hi _ => ByteRw.readU32 raw hi
  | _ => 0

/-- The set shows in the other field: `max_mount_count` and the magic number change each
    other where the common bytes change, and a switch of `BIT64` brings the high part of a
    two-part field in or takes it away. -/
def Shows (raw : Bytes) (f g : Field) (v : Nat) : Prop :=
  f = .maxMountCount ∧ g = .magic ∧ v / 2 ^ 16 ≠ get raw .magic ∨
    f = .magic ∧ g = .maxMountCount ∧ v ≠ get raw .magic ∨
    f = .featureIncompat ∧ containsFlag v featureBit64 ≠ isFeatureIncompat64 raw ∧
      highHalf raw g ≠ 0

variable {raw raw' : Bytes} {f g : Field} {v : Nat}

/-- Every field reads back what was set. -/
theorem get_self (hlen : raw.length = 1024) (hv : v < 2 ^ (f.accessor true).bits)
    (h : set raw f v = some raw') :
    (f.accessor (isFeatureIncompat64 raw)).get raw' = v := by
  apply get_set_self h
  · cases f <;> exact hv
  · rw [hlen]
    exact f.within _

/-- `is_feature_incompat64` depends on `feature_incompat` only. -/
theorem isFeatureIncompat64_of_ne (hf : f ≠ .featureIncompat) (h : set raw f v = some raw') :
    isFeatureIncompat64 raw' = isFeatureIncompat64 raw := by
  have hover : ¬ Overlap f .featureIncompat := by
    rintro (⟨-, h⟩ | ⟨-, h⟩) <;> cases h
  have hread := get_set_of_apart h (Field.apart (isFeatureIncompat64 raw) hf hover)
  exact congrArg (fun n => containsFlag n featureBit64) hread

/-- Apart from the high parts, what a field reads does not depend on `BIT64`. -/
theorem get_accessor (raw : Bytes) (f : Field) (use64 : Bool) :
    (f.accessor use64).get raw =
      (f.accessor false).get raw + (if use64 then highHalf raw f * 2 ^ 32 else 0) := by
  cases f <;> cases use64 <;>
    simp [Field.accessor, Accessor.get, highHalf, Inode.getCompoundU64, mergeU32, Nat.add_comm]

/-- The upper half of `max_mount_count` is the magic number. -/
theorem maxMountCount_halves (raw : Bytes) :
    ByteRw.readU32 raw 0x36 = ByteRw.readU16 raw 0x36 + 2 ^ 16 * ByteRw.readU16 raw 0x38 :=
  LeBytes.readLe_add raw 0x36 2 2

theorem get_of_feature (hne : g ≠ .featureIncompat) (hlen : raw.length = 1024)
    (hv : v < 2 ^ 32) (h : set raw .featureIncompat v = some raw') :
    get raw' g = get raw g ↔ ¬ (containsFlag v featureBit64 ≠ isFeatureIncompat64 raw ∧
      highHalf raw g ≠ 0) := by
  have hflag : isFeatureIncompat64 raw' = containsFlag v featureBit64 :=
    congrArg (fun n => containsFlag n featureBit64) (get_self hlen hv h)
  have hover : ¬ Overlap .featureIncompat g := by
    rintro (⟨h, -⟩ | ⟨h, -⟩) <;> cases h
  -- Under one setting of the flag the other field keeps its value.
  have hkeep : ∀ use64, (g.accessor use64).get raw' = (g.accessor use64).get raw :=
    fun use64 => get_set_of_apart (a := .u32 0x60) h (Field.apart use64 hne.symm hover)
  rw [get, get, hflag, hkeep, get_accessor raw g (containsFlag v featureBit64),
    get_accessor raw g (isFeatureIncompat64 raw)]
  cases containsFlag v featureBit64 <;> cases isFeatureIncompat64 raw <;> simp

/-- A set of `max_mount_count` shows in the magic number. -/
theorem get_magic (hlen : raw.length = 1024) (hv : v < 2 ^ 32)
    (h : set raw .maxMountCount v = some raw') : get raw' .magic = v / 2 ^ 16 := by
  have hread : ByteRw.readU32 raw' 0x36 = v := get_self hlen hv h
  have hlow := ByteRw.readU16_lt raw' 0x36
  rw [maxMountCount_halves] at hread
  show ByteRw.readU16 raw' 0x38 = v / 2 ^ 16
  omega

/-- A set of the magic number shows in `max_mount_count`. -/
theorem get_maxMountCount (hlen : raw.length = 1024) (hv : v < 2 ^ 16)
    (h : set raw .magic v = some raw') :
    get raw' .maxMountCount = get raw .maxMountCount ↔ v = get raw .magic := by
  have hread : ByteRw.readU16 raw' 0x38 = v := get_self hlen hv h
  have hlow : ByteRw.readU16 raw' 0x36 = ByteRw.readU16 raw 0x36 :=
    get_set_of_apart (a := .u16 0x38) (c := .u16 0x36) h (by decide)
  show ByteRw.readU32 raw' 0x36 = ByteRw.readU32 raw 0x36 ↔ v = ByteRw.readU16 raw 0x38
  rw [maxMountCount_halves, maxMountCount_halves, hread, hlow]
  omega

/-- A field that is set reads back its value, and another field keeps its own unless the set
    shows in it. -/
theorem get_after_set_iff (hlen : raw.length = 1024) (hne : f ≠ g)
    (hv : v < 2 ^ (f.accessor true).bits) (h : set raw f v = some raw') :
    (get raw' g = get raw g ∧ get raw' f = v) ↔ ¬ Shows raw f g v := by
  have hself := get_self hlen hv h
  by_cases hfeat : f = .featureIncompat
  · subst hfeat
    have hback : get raw' .featureIncompat = v := hself
    rw [and_iff_left hback, get_of_feature hne.symm hlen hv h]
    simp [Shows]
  · have hflag := isFeatureIncompat64_of_ne hfeat h
    have hback : get raw' f = v := by rw [get, hflag, hself]
    rw [and_iff_left hback]
    by_cases hover : Overlap f g
    · obtain ⟨rfl, rfl⟩ | ⟨rfl, rfl⟩ := hover
      · rw [get_magic hlen hv h]
        simp [Shows]
      · rw [get_maxMountCount hlen hv h]
        simp [Shows]
    · have hkeep : get raw' g = get raw g := by
        rw [get, hflag]
        exact get_set_of_apart h (Field.apart _ hne hover)
      refine iff_of_true hkeep ?_
      rintro (⟨rfl, rfl, -⟩ | ⟨rfl, rfl, -⟩ | ⟨rfl, -⟩)
      · exact hover (Or.inl ⟨rfl, rfl⟩)
      · exact hover (Or.inr ⟨rfl, rfl⟩)
      · exact hfeat rfl

/-- A superblock of zeros with the magic number. -/
def freshSb : Bytes := ByteRw.writeU16 (List.replicate 1024 0) 0x38 0xEF53

theorem length_freshSb : freshSb.length = 1024 := by
  rw [freshSb, ByteRw.length_writeU16, List.length_replicate]

/-- The same with the feature `BIT64` and a count of blocks in two parts. -/
def freshSb64 : Bytes :=
  ByteRw.writeU32 (ByteRw.writeU32 (ByteRw.writeU32 freshSb 0x60 featureBit64) 0x4 6) 0x150 1

theorem length_freshSb64 : freshSb64.length = 1024 := by
  rw [freshSb64, ByteRw.length_writeU32, ByteRw.length_writeU32, ByteRw.length_writeU32,
    length_freshSb]

/-- The free blocks are counted in two parts as well, and the count of blocks stays. -/
theorem get_after_set_iff_freeBlocks : ∃ raw',
    set freshSb64 .freeBlocksCount (2 ^ 32 + 5) = some raw' ∧
      get raw' .blocksCount = get freshSb64 .blocksCount ∧
      get freshSb64 .blocksCount = 2 ^ 32 + 6 ∧ get raw' .freeBlocksCount = 2 ^ 32 + 5 := by
  have hset : (set freshSb64 .freeBlocksCount (2 ^ 32 + 5)).isSome := by decide +kernel
  obtain ⟨raw', hset⟩ := Option.isSome_iff_exists.mp hset
  obtain ⟨hkeep, hback⟩ := (get_after_set_iff (g := .blocksCount) length_freshSb64 (by decide)
    (by decide) hset).mpr (by rintro (⟨h, -⟩ | ⟨h, -⟩ | ⟨h, -⟩) <;> cases h)
  exact ⟨raw', hset, hkeep, by decide +kernel, hback⟩

/-- The value that `make_sb` gives to `max_mount_count` clears the magic number. -/
theorem magic_lost :
    freshSb.length = 1024 ∧
      set freshSb .maxMountCount 0xFFFF = some (ByteRw.writeU32 freshSb 0x36 0xFFFF) ∧
      get freshSb .magic = 0xEF53 ∧ get (ByteRw.writeU32 freshSb 0x36 0xFFFF) .magic = 0 := by
  refine ⟨length_freshSb, rfl, ?_, ?_⟩
  · decide +kernel
  · decide +kernel

end RustExt4.Superblock
