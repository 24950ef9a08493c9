/-
  RustExt4.Accessor

  The fields of packed records (`utils.rs`, `Accessor`, `CompoundAccessor` and
  `fs_field!`).  A field lies in one window of its record, or in a low and a high
  window; without its high window it takes the values that fit the low one.  Fields
  whose windows lie apart do not see each other's changes.
-/
import RustExt4.Inode.Raw

namespace RustExt4

open Inode (getCompoundU64 setCompoundU64 setCompoundU32)
open LeBytes (DiffersIn SameOn)

/-- `CompoundAccessor<u32>::get` -/
def ByteRw.getCompoundU32 (raw : Bytes) (lo hi : Nat) (useHi : Bool) : Nat :=
  (if useHi then readU16 raw hi else 0) * 2 ^ 16 + readU16 raw lo

/-- What `fs_field!` declares a field to be: its type and its place. -/
inductive Accessor
  | u8 (addr : Nat)
  | u16 (addr : Nat)
  | u32 (addr : Nat)
  | compoundU32 (lo hi : Nat) (useHi : Bool)
  | compoundU64 (lo hi : Nat) (useHi : Bool)
  deriving DecidableEq, Repr

namespace Accessor

def get (raw : Bytes) : Accessor → Nat
  | u8 addr => ByteRw.readU8 raw addr
  | u16 addr => ByteRw.readU16 raw addr
  | u32 addr => ByteRw.readU32 raw addr
  | compoundU32 lo hi useHi => ByteRw.getCompoundU32 raw lo hi useHi
  | compoundU64 lo hi useHi => getCompoundU64 raw lo hi useHi

/-- The setter; a two-part field without its high part asserts that this part is 0. -/
def set (raw : Bytes) (v : Nat) : Accessor → Option Bytes
  | u8 addr => some (ByteRw.writeU8 raw addr v)
  | u16 addr => some (ByteRw.writeU16 raw addr v)
  | u32 addr => some (ByteRw.writeU32 raw addr v)
  | compoundU32 lo hi useHi => setCompoundU32 raw lo hi useHi v
  | compoundU64 lo hi useHi => setCompoundU64 raw lo hi useHi v

/-- The bits of the field's type. -/
def bits : Accessor → Nat
  | u8 _ => 8
  | u16 _ => 16
  | u32 _ => 32
  | compoundU32 .. => 32
  | compoundU64 .. => 64

/-- Where the bytes of the field lie: a list of `[start, end)`. -/
def windows : Accessor → List (Nat × Nat)
  | u8 addr => [(addr, addr + 1)]
  | u16 addr => [(addr, addr + 2)]
  | u32 addr => [(addr, addr + 4)]
  | compoundU32 lo hi useHi =>
    if useHi then [(lo, lo + 2), (hi, hi + 2)] else [(lo, lo + 2)]
  | compoundU64 lo hi useHi =>
    if useHi then [(lo, lo + 4), (hi, hi + 4)] else [(lo, lo + 4)]

/-- No byte belongs to both fields. -/
def Apart (a c : Accessor) : Prop :=
  ∀ w ∈ a.windows, ∀ w' ∈ c.windows, w'.2 ≤ w.1 ∨ w.2 ≤ w'.1

instance (a c : Accessor) : Decidable (a.Apart c) :=
  inferInstanceAs (Decidable (∀ w ∈ a.windows, ∀ w' ∈ c.windows, w'.2 ≤ w.1 ∨ w.2 ≤ w'.1))

/-- The field lies in a record of `n` bytes, its low window before the high one. -/
def Within (a : Accessor) (n : Nat) : Prop :=
  (∀ w ∈ a.windows, w.2 ≤ n) ∧ a.windows.Pairwise fun w w' => w.2 ≤ w'.1

instance (a : Accessor) (n : Nat) : Decidable (a.Within n) :=
  inferInstanceAs (Decidable (_ ∧ List.Pairwise (fun w w' : Nat × Nat => w.2 ≤ w'.1) _))

variable {a c : Accessor} {raw raw' : Bytes} {v : Nat}

/-- A setter changes bytes of its own field. -/
theorem set_differsIn (h : a.set raw v = some raw') : DiffersIn a.windows raw raw' := by
  cases a with
  | u8 addr =>
      obtain rfl := Option.some.inj h
      exact DiffersIn.writeLe 1 v
  | u16 addr =>
      obtain rfl := Option.some.inj h
      exact DiffersIn.writeLe 2 v
  | u32 addr =>
      obtain rfl := Option.some.inj h
      exact DiffersIn.writeLe 4 v
  | compoundU32 lo hi useHi =>
      cases useHi with
      | true =>
          obtain rfl := Option.some.inj h
          exact ((DiffersIn.writeLe 2 _).mono (by simp [windows])).trans
            ((DiffersIn.writeLe 2 _).mono (by simp [windows]))
      | false =>
          rw [set, setCompoundU32, if_neg Bool.false_ne_true] at h
          split at h
          · obtain rfl := Option.some.inj h
            exact DiffersIn.writeLe 2 _
          · cases h
  | compoundU64 lo hi useHi =>
      cases useHi with
      | true =>
          obtain rfl := Option.some.inj h
          exact ((DiffersIn.writeLe 4 _).mono (by simp [windows])).trans
            ((DiffersIn.writeLe 4 _).mono (by simp [windows]))
      | false =>
          rw [set, setCompoundU64, if_neg Bool.false_ne_true] at h
          split at h
          · obtain rfl := Option.some.inj h
            exact DiffersIn.writeLe 4 _
          · cases h

theorem length_set (h : a.set raw v = some raw') : raw'.length = raw.length :=
  (set_differsIn h).length

/-- A field is a function of its bytes. -/
theorem get_congr (h : ∀ w ∈ a.windows, SameOn raw' raw w.1 w.2) : a.get raw' = a.get raw := by
  cases a with
  | u8 addr => exact ByteRw.readU8_congr (h _ List.mem_cons_self)
  | u16 addr => exact ByteRw.readU16_congr (h _ List.mem_cons_self)
  | u32 addr => exact ByteRw.readU32_congr (h _ List.mem_cons_self)
  | compoundU32 lo hi useHi =>
      cases useHi with
      | true =>
          have hlo := ByteRw.readU16_congr (h (lo, lo + 2) (by simp [windows]))
          have hhi := ByteRw.readU16_congr (h (hi, hi + 2) (by simp [windows]))
          rw [get, get, ByteRw.getCompoundU32, ByteRw.getCompoundU32, hlo, hhi]
      | false =>
          have hlo := ByteRw.readU16_congr (h (lo, lo + 2) (by simp [windows]))
          simp only [get, ByteRw.getCompoundU32, Bool.false_eq_true, if_false, hlo]
  | compoundU64 lo hi useHi =>
      cases useHi with
      | true =>
          have hlo := ByteRw.readU32_congr (h (lo, lo + 4) (by simp [windows]))
          have hhi := ByteRw.readU32_congr (h (hi, hi + 4) (by simp [windows]))
          rw [get, get, getCompoundU64, getCompoundU64, hlo, hhi]
      | false =>
          have hlo := ByteRw.readU32_congr (h (lo, lo + 4) (by simp [windows]))
          simp only [get, getCompoundU64, Bool.false_eq_true, if_false, hlo]

/-- A field that lies apart keeps its value. -/
theorem get_set_of_apart (h : a.set raw v = some raw') (hap : a.Apart c) :
    c.get raw' = c.get raw := by
  apply get_congr
  intro w' hw'
  apply (set_differsIn h).sameOn
  intro w hw
  exact hap w hw w' hw'

/-- A field reads back the value that was set. -/
theorem get_set_self (h : a.set raw v = some raw') (hv : v < 2 ^ a.bits)
    (hin : a.Within raw.length) : a.get raw' = v := by
  obtain ⟨hfit, hord⟩ := hin
  cases a with
  | u8 addr =>
      obtain rfl := Option.some.inj h
      exact (ByteRw.readU8_writeU8 (hfit _ List.mem_cons_self)).trans (Nat.mod_eq_of_lt hv)
  | u16 addr =>
      obtain rfl := Option.some.inj h
      exact (ByteRw.readU16_writeU16 (hfit _ List.mem_cons_self)).trans (Nat.mod_eq_of_lt hv)
  | u32 addr =>
      obtain rfl := Option.some.inj h
      exact (ByteRw.readU32_writeU32 (hfit _ List.mem_cons_self)).trans (Nat.mod_eq_of_lt hv)
  | compoundU32 lo hi useHi =>
      cases useHi with
      | true =>
          obtain rfl := Option.some.inj h
          have hlo : lo + 2 ≤ raw.length := hfit (lo, lo + 2) (by simp [windows])
          have hhi : hi + 2 ≤ raw.length := hfit (hi, hi + 2) (by simp [windows])
          have hsep : lo + 2 ≤ hi := by simpa [windows] using hord
          rw [bits] at hv
          rw [get, ByteRw.getCompoundU32, if_pos rfl, ByteRw.readU16_writeU16_ne (by omega),
            ByteRw.readU16_writeU16 (by omega), ByteRw.readU16_writeU16 (by simp; omega)]
          omega
      | false =>
          rw [set, setCompoundU32, if_neg Bool.false_ne_true] at h
          split at h
          next hzero =>
            obtain rfl := Option.some.inj h
            have hlo : lo + 2 ≤ raw.length := hfit (lo, lo + 2) (by simp [windows])
            rw [get, ByteRw.getCompoundU32, if_neg Bool.false_ne_true,
              ByteRw.readU16_writeU16 hlo]
            omega
          next => cases h
  | compoundU64 lo hi useHi =>
      cases useHi with
      | true =>
          obtain rfl := Option.some.inj h
          have hlo : lo + 4 ≤ raw.length := hfit (lo, lo + 4) (by simp [windows])
          have hhi : hi + 4 ≤ raw.length := hfit (hi, hi + 4) (by simp [windows])
          have hsep : lo + 4 ≤ hi := by simpa [windows] using hord
          rw [bits] at hv
          rw [get, getCompoundU64, if_pos rfl, ByteRw.readU32_writeU32_ne (by omega),
            ByteRw.readU32_writeU32 (by omega), ByteRw.readU32_writeU32 (by simp; omega)]
          simp only [mergeU32, splitU64]
          omega
      | false =>
          rw [set, setCompoundU64, if_neg Bool.false_ne_true] at h
          split at h
          next hzero =>
            obtain rfl := Option.some.inj h
            have hlo : lo + 4 ≤ raw.length := hfit (lo, lo + 4) (by simp [windows])
            rw [bits] at hv
            rw [get, getCompoundU64, if_neg Bool.false_ne_true, ByteRw.readU32_writeU32 hlo]
            simp only [mergeU32, splitU64] at hzero ⊢
            omega
          next => cases h

end Accessor
end RustExt4
