/-
  RustExt4.BlockGroup.Descriptor

  The bytes of a group descriptor: the fields of `block_group/raw.rs`, whose high parts
  exist in descriptors of 64 bytes and more, and the checksum of
  `BlockGroup::calculate_csum`.  The checksum with `METADATA_CSUM` is taken over the
  descriptor with a zero in the place of the checksum; that of `GDT_CSUM` leaves the
  place out.
-/
import RustExt4.Accessor
import RustExt4.Inode.Fields

namespace RustExt4.BlockGroup

open Inode (featureMetadataCsum)
open LeBytes (leBytes)

/-! ## The fields -/

inductive Field
  | blockBitmap
  | inodeBitmap
  | inodeTable
  | freeBlocksCount
  | freeInodesCount
  | usedDirsCount
  | flags
  | excludeBitmap
  | blockBitmapChecksum
  | inodeBitmapChecksum
  | itableUnused
  | checksum
  deriving DecidableEq, Repr

/-- `is_bg_64` -/
def isBg64 (raw : Bytes) : Bool := decide (64 ≤ raw.length)

def Field.accessor (is64 : Bool) : Field → Accessor
  | blockBitmap => .compoundU64 0x0 0x20 is64
  | inodeBitmap => .compoundU64 0x4 0x24 is64
  | inodeTable => .compoundU64 0x8 0x28 is64
  | freeBlocksCount => .compoundU32 0xC 0x2C is64
  | freeInodesCount => .compoundU32 0xE 0x2E is64
  | usedDirsCount => .compoundU32 0x10 0x30 is64
  | flags => .u16 0x12
  | excludeBitmap => .compoundU64 0x14 0x34 is64
  | blockBitmapChecksum => .compoundU32 0x18 0x38 is64
  | inodeBitmapChecksum => .compoundU32 0x1A 0x3A is64
  | itableUnused => .compoundU32 0x1C 0x32 is64
  | checksum => .u16 0x1E

def get (raw : Bytes) (f : Field) : Nat := (f.accessor (isBg64 raw)).get raw

def set (raw : Bytes) (f : Field) (v : Nat) : Option Bytes := (f.accessor (isBg64 raw)).set raw v

def Field.all : List Field :=
  [.blockBitmap, .inodeBitmap, .inodeTable, .freeBlocksCount, .freeInodesCount, .usedDirsCount,
   .flags, .excludeBitmap, .blockBitmapChecksum, .inodeBitmapChecksum, .itableUnused, .checksum]

theorem Field.mem_all (f : Field) : f ∈ Field.all := by cases f <;> decide

/-- All fields lie apart, with and without the high parts. -/
theorem apart_all : ∀ is64 : Bool, ∀ f ∈ Field.all, ∀ g ∈ Field.all, f ≠ g →
    (f.accessor is64).Apart (g.accessor is64) := by
  decide +kernel

theorem Field.apart (is64 : Bool) {f g : Field} (hne : f ≠ g) :
    (f.accessor is64).Apart (g.accessor is64) :=
  apart_all is64 f f.mem_all g g.mem_all hne

/-- Every field lies in a descriptor of 32 bytes, with its high part in one of 64. -/
theorem Field.within (f : Field) {raw : Bytes} (hlen : 32 ≤ raw.length) :
    (f.accessor (isBg64 raw)).Within raw.length := by
  have hall : ∀ is64 : Bool, (f.accessor is64).Within (if is64 then 64 else 32) := by
    cases f <;> decide
  obtain ⟨hin, hord⟩ := hall (isBg64 raw)
  refine ⟨fun w hw => Nat.le_trans (hin w hw) ?_, hord⟩
  unfold isBg64
  by_cases h64 : 64 ≤ raw.length
  · rw [decide_eq_true h64]
    exact h64
  · rw [decide_eq_false h64]
    exact hlen

section Set
variable {raw raw' : Bytes} {f g : Field} {v : Nat}

theorem length_set (h : set raw f v = some raw') : raw'.length = raw.length :=
  Accessor.length_set h

/-- The form of the descriptor is read off its length. -/
theorem isBg64_set (h : set raw f v = some raw') : isBg64 raw' = isBg64 raw := by
  rw [isBg64, isBg64, length_set h]

theorem get_set_self (h : set raw f v = some raw') (hlen : 32 ≤ raw.length)
    (hv : v < 2 ^ (f.accessor true).bits) : get raw' f = v := by
  rw [get, isBg64_set h]
  apply Accessor.get_set_self h
  · cases f <;> exact hv
  · exact f.within hlen

/-- A set leaves the other fields alone. -/
theorem get_set_of_ne (h : set raw f v = some raw') (hne : g ≠ f) : get raw' g = get raw g := by
  rw [get, get, isBg64_set h]
  exact Accessor.get_set_of_apart h (Field.apart _ hne.symm)

end Set

/-! ## The checksum -/

/-- `GDT_CSUM` -/
def featureGdtCsum : Nat := 0x10

/-- `calculate_csum`: the checksum, and the bytes as it leaves them. -/
def calculateCsum (sb : SuperBlock) (uuid : Bytes) (bgid : Nat) (raw : Bytes) : Nat × Bytes :=
  if containsFlag sb.featuresReadonly featureMetadataCsum then
    let orig := ByteRw.readU16 raw 0x1E
    let raw := ByteRw.writeU16 raw 0x1E 0
    let crc := Crc32c.write Crc32c.default uuid
    let crc := Crc32c.write crc (leBytes 4 bgid)
    let crc := Crc32c.write crc raw
    let raw := ByteRw.writeU16 raw 0x1E orig
    (crc % 2 ^ 16, raw)
  else if containsFlag sb.featuresReadonly featureGdtCsum then
    let crc := Crc16.write Crc16.default uuid
    let crc := Crc16.write crc (leBytes 4 bgid)
    let crc := Crc16.write crc (raw.take 0x1E)
    let crc := if 0x20 < raw.length then Crc16.write crc (raw.drop 0x20) else crc
    (crc, raw)
  else (0, raw)

section Csum
variable {raw : Bytes} (hlen : 32 ≤ raw.length)

include hlen

/-- The bytes before the checksum, the checksum, and those behind it. -/
theorem writeChecksum_eq (v : Nat) :
    ByteRw.writeU16 raw 0x1E v = raw.take 0x1E ++ leBytes 2 v ++ raw.drop 0x20 := by
  rw [ByteRw.writeU16, LeBytes.writeLe_eq_splice (by omega)]
  rfl

theorem take_writeChecksum (v : Nat) : (ByteRw.writeU16 raw 0x1E v).take 0x1E = raw.take 0x1E := by
  have hhead : (raw.take 0x1E).length = 0x1E := by rw [List.length_take]; omega
  rw [writeChecksum_eq hlen, List.append_assoc, List.take_append_of_le_length (by omega),
    List.take_of_length_le (by omega)]

theorem drop_writeChecksum (v : Nat) : (ByteRw.writeU16 raw 0x1E v).drop 0x20 = raw.drop 0x20 := by
  have hhead : (raw.take 0x1E ++ leBytes 2 v).length = 0x20 := by
    rw [List.length_append, List.length_take, LeBytes.length_leBytes]
    omega
  rw [writeChecksum_eq hlen, List.drop_append_of_le_length (by omega),
    List.drop_of_length_le (by omega), List.nil_append]

/-- The last write counts. -/
theorem writeChecksum_twice (v w : Nat) :
    ByteRw.writeU16 (ByteRw.writeU16 raw 0x1E v) 0x1E w = ByteRw.writeU16 raw 0x1E w := by
  have hlen' : 32 ≤ (ByteRw.writeU16 raw 0x1E v).length := by rwa [ByteRw.length_writeU16]
  rw [writeChecksum_eq hlen', take_writeChecksum hlen, drop_writeChecksum hlen,
    ← writeChecksum_eq hlen]

/-- What was there, put back. -/
theorem writeChecksum_self : ByteRw.writeU16 raw 0x1E (ByteRw.readU16 raw 0x1E) = raw := by
  have hin : 0x1E + 2 ≤ raw.length := by omega
  have hback := LeBytes.splice_slice raw hin
  rw [LeBytes.splice, LeBytes.length_slice hin] at hback
  rw [writeChecksum_eq hlen, ByteRw.readU16, LeBytes.leBytes_readLe hin]
  exact hback

/-- `calculate_csum` puts back what it overwrites. -/
theorem calculateCsum_keeps (sb : SuperBlock) (uuid : Bytes) (bgid : Nat) :
    (calculateCsum sb uuid bgid raw).2 = raw := by
  unfold calculateCsum
  split
  · dsimp only
    rw [writeChecksum_twice hlen, writeChecksum_self hlen]
  · split <;> rfl

/-- The stored checksum does not matter. -/
theorem calculateCsum_writeChecksum (sb : SuperBlock) (uuid : Bytes) (bgid v : Nat) :
    (calculateCsum sb uuid bgid (ByteRw.writeU16 raw 0x1E v)).1 =
      (calculateCsum sb uuid bgid raw).1 := by
  unfold calculateCsum
  split
  · dsimp only
    rw [writeChecksum_twice hlen]
  · split
    · dsimp only
      rw [take_writeChecksum hlen, drop_writeChecksum hlen, ByteRw.length_writeU16]
    · rfl

end Csum

/-- The checksum fits its field. -/
theorem calculateCsum_lt (sb : SuperBlock) (uuid : Bytes) (bgid : Nat) (raw : Bytes) :
    (calculateCsum sb uuid bgid raw).1 < 2 ^ 16 := by
  unfold calculateCsum
  split
  · exact Nat.mod_lt _ (by decide)
  · split
    · have hhead := Crc16.write_lt (Crc16.write_lt (Crc16.write_lt
        (show Crc16.default < 2 ^ 16 by decide) uuid) (leBytes 4 bgid)) (raw.take 0x1E)
      dsimp only
      split
      · exact Crc16.write_lt hhead _
      · exact hhead
    · exact Nat.two_pow_pos 16

end RustExt4.BlockGroup
