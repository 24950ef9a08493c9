/-
  RustExt4.Config

  The block sizes that the file system supports, and the device under it
  (`types.rs`, `Config`).
-/
import RustExt4.Types
import RustExt4.Utils

namespace RustExt4

/-- `BLK_SIZE` -/
def BlockSize : Type := { n : Nat // n = 1024 ∨ n = 2048 ∨ n = 4096 }

namespace BlockSize

instance : Coe BlockSize Nat := ⟨Subtype.val⟩

theorem le (blk : BlockSize) : 1024 ≤ blk.val ∧ blk.val ≤ 4096 := by
  rcases blk with ⟨n, rfl | rfl | rfl⟩ <;> decide

/-- The size of the largest blocks is supported. -/
theorem largest_supported : 4096 = 1024 ∨ 4096 = 2048 ∨ 4096 = 4096 := by decide

end BlockSize

/-- A device.  A write that succeeds stores the buffer and leaves the other blocks as
    they are. -/
structure Config (blk : BlockSize) where
  Dev : Type
  readBytes : Dev → Nat → Except FsError Bytes
  writeBytes : Dev → Nat → Bytes → Except FsError Dev
  read_write : ∀ {d d' : Dev} {n : Nat} {b : Bytes}, b.length = blk →
    writeBytes d (n * blk) b = .ok d' → ∀ m, readBytes d' (m * blk) =
      if m = n then .ok b else readBytes d (m * blk)

namespace Config

variable {blk : BlockSize} (C : Config blk)

/-- The block `lba` of the device. -/
def readBlock (d : C.Dev) (lba : Nat) : Except Fault Bytes :=
  (C.readBytes d (lba * blk)).mapError .err

def writeBlock (d : C.Dev) (lba : Nat) (b : Bytes) : Except Fault C.Dev :=
  (C.writeBytes d (lba * blk) b).mapError .err

variable {C}

theorem readBlock_writeBlock {d d' : C.Dev} {n : Nat} {b : Bytes} (hb : b.length = blk)
    (h : C.writeBlock d n b = .ok d') (m : Nat) :
    C.readBlock d' m = if m = n then .ok b else C.readBlock d m := by
  have hwrite : C.writeBytes d (n * blk) b = .ok d' := by
    unfold writeBlock at h
    cases hw : C.writeBytes d (n * blk) b with
    | error e => rw [hw] at h; cases h
    | ok d1 => rw [hw] at h; cases h; rfl
  unfold readBlock
  rw [C.read_write hb hwrite]
  split <;> rfl

end Config
end RustExt4
