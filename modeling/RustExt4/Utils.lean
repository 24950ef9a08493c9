/-
  RustExt4.Utils

  `ByteRw` (`utils.rs`): little-endian fields of a byte buffer.  A field access
  past the end of the buffer panics in the source; the model reads 0 there and
  drops the write, and the results built on it stay inside the buffer.
-/
import RustExt4.Lib.LeBytes

namespace RustExt4

/-- The contents of a block or of a window into one. -/
abbrev Bytes := List UInt8

namespace ByteRw

def readU8 (b : Bytes) (p : Nat) : Nat := LeBytes.byteAt b p
def readU16 (b : Bytes) (p : Nat) : Nat := LeBytes.readLe b p 2
def readU32 (b : Bytes) (p : Nat) : Nat := LeBytes.readLe b p 4

def writeU8 (b : Bytes) (p v : Nat) : Bytes := LeBytes.writeLe b p 1 v
def writeU16 (b : Bytes) (p v : Nat) : Bytes := LeBytes.writeLe b p 2 v
def writeU32 (b : Bytes) (p v : Nat) : Bytes := LeBytes.writeLe b p 4 v

@[simp] theorem length_writeU8 (b : Bytes) (p v : Nat) :
    (writeU8 b p v).length = b.length := LeBytes.length_writeLe ..
@[simp] theorem length_writeU16 (b : Bytes) (p v : Nat) :
    (writeU16 b p v).length = b.length := LeBytes.length_writeLe ..
@[simp] theorem length_writeU32 (b : Bytes) (p v : Nat) :
    (writeU32 b p v).length = b.length := LeBytes.length_writeLe ..

theorem readU8_lt (b : Bytes) (p : Nat) : readU8 b p < 2 ^ 8 := LeBytes.byteAt_lt b p
theorem readU16_lt (b : Bytes) (p : Nat) : readU16 b p < 2 ^ 16 := LeBytes.readLe_lt b p 2
theorem readU32_lt (b : Bytes) (p : Nat) : readU32 b p < 2 ^ 32 := LeBytes.readLe_lt b p 4

/-! ## Congruence: a field depends on its own bytes -/

theorem readU8_congr {b b' : Bytes} {p : Nat} (h : LeBytes.SameOn b b' p (p + 1)) :
    readU8 b p = readU8 b' p := LeBytes.byteAt_congr h
theorem readU16_congr {b b' : Bytes} {p : Nat} (h : LeBytes.SameOn b b' p (p + 2)) :
    readU16 b p = readU16 b' p := LeBytes.readLe_congr h
theorem readU32_congr {b b' : Bytes} {p : Nat} (h : LeBytes.SameOn b b' p (p + 4)) :
    readU32 b p = readU32 b' p := LeBytes.readLe_congr h

/-! ## Round trips -/

theorem readU8_writeU8 {b : Bytes} {p v : Nat} (h : p < b.length) :
    readU8 (writeU8 b p v) p = v % 2 ^ 8 := LeBytes.byteAt_set_self v h
theorem readU16_writeU16 {b : Bytes} {p v : Nat} (h : p + 2 ≤ b.length) :
    readU16 (writeU16 b p v) p = v % 2 ^ 16 := LeBytes.readLe_writeLe_self h
theorem readU32_writeU32 {b : Bytes} {p v : Nat} (h : p + 4 ≤ b.length) :
    readU32 (writeU32 b p v) p = v % 2 ^ 32 := LeBytes.readLe_writeLe_self h

/-! ## Frames -/

theorem writeU8_sameOn {b : Bytes} {p v lo hi : Nat} (h : hi ≤ p ∨ p + 1 ≤ lo) :
    LeBytes.SameOn (writeU8 b p v) b lo hi := LeBytes.writeLe_sameOn h
theorem writeU16_sameOn {b : Bytes} {p v lo hi : Nat} (h : hi ≤ p ∨ p + 2 ≤ lo) :
    LeBytes.SameOn (writeU16 b p v) b lo hi := LeBytes.writeLe_sameOn h
theorem writeU32_sameOn {b : Bytes} {p v lo hi : Nat} (h : hi ≤ p ∨ p + 4 ≤ lo) :
    LeBytes.SameOn (writeU32 b p v) b lo hi := LeBytes.writeLe_sameOn h

theorem readU16_writeU16_ne {b : Bytes} {p q v : Nat} (h : q + 2 ≤ p ∨ p + 2 ≤ q) :
    readU16 (writeU16 b p v) q = readU16 b q := readU16_congr (writeU16_sameOn h)
theorem readU16_writeU32_ne {b : Bytes} {p q v : Nat} (h : q + 2 ≤ p ∨ p + 4 ≤ q) :
    readU16 (writeU32 b p v) q = readU16 b q := readU16_congr (writeU32_sameOn h)
theorem readU32_writeU16_ne {b : Bytes} {p q v : Nat} (h : q + 4 ≤ p ∨ p + 2 ≤ q) :
    readU32 (writeU16 b p v) q = readU32 b q := readU32_congr (writeU16_sameOn h)
theorem readU32_writeU32_ne {b : Bytes} {p q v : Nat} (h : q + 4 ≤ p ∨ p + 4 ≤ q) :
    readU32 (writeU32 b p v) q = readU32 b q := readU32_congr (writeU32_sameOn h)

end ByteRw

/-! ## Counters -/

/-- What `AtomicU32::fetch_add` leaves. -/
def fetchAdd (x n : Nat) : Nat := (x + n) % 2 ^ 32

/-- What `AtomicU32::fetch_sub` leaves. -/
def fetchSub (x n : Nat) : Nat := (x + (2 ^ 32 - n % 2 ^ 32)) % 2 ^ 32

theorem fetchAdd_of_lt {x n : Nat} (h : x + n < 2 ^ 32) : fetchAdd x n = x + n :=
  Nat.mod_eq_of_lt h

theorem fetchSub_of_le {x n : Nat} (h : n ≤ x) (hx : x < 2 ^ 32) : fetchSub x n = x - n := by
  have hn : n % 2 ^ 32 = n := Nat.mod_eq_of_lt (by omega)
  rw [fetchSub, hn, show x + (2 ^ 32 - n) = x - n + 2 ^ 32 by omega, Nat.add_mod_right]
  exact Nat.mod_eq_of_lt (by omega)

/-! ## Word halves -/

/-- `u32::MAX` -/
def u32Max : Nat := 2 ^ 32 - 1

def mergeU32 (hi lo : Nat) : Nat := hi * 2 ^ 32 + lo
def splitU64 (s : Nat) : Nat × Nat := (s / 2 ^ 32 % 2 ^ 32, s % 2 ^ 32)

end RustExt4
