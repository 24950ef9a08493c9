/-
  RustExt4.Lib.PackedSlots

  A table of slots of one size, of which each block holds `cnt`, so that no slot runs over
  the end of a block.  Slot `i` lies in block `i / cnt` of the table.  Where the slots fill a
  block, its place is also that of byte `i * size` of the table.
-/
import Mathlib.Data.Set.Lattice
import Mathlib.Order.Interval.Set.Basic
import Mathlib.Order.CompletePartialOrder
import Mathlib.Tactic.Common

namespace PackedSlots

/-- Where slot `i` starts in its block. -/
def offset (cnt size i : Nat) : Nat := i % cnt * size

/-- The bytes of slot `i` of a table that starts at block `first`. -/
def bytes (first cnt size i : Nat) : Set (Nat × Nat) :=
  {p | p.1 = first + i / cnt ∧ offset cnt size i ≤ p.2 ∧ p.2 < offset cnt size i + size}

variable {first first' cnt size blk len n i j : Nat}

theorem offset_add_le (hcnt : 0 < cnt) (hfit : cnt * size ≤ blk) :
    offset cnt size i + size ≤ blk := by
  have hlt : i % cnt + 1 ≤ cnt := Nat.mod_lt i hcnt
  calc offset cnt size i + size
      = (i % cnt + 1) * size := by rw [Nat.succ_mul]; rfl
    _ ≤ cnt * size := Nat.mul_le_mul_right _ hlt
    _ ≤ blk := hfit

/-- Two slots of one block. -/
theorem offset_apart (hq : i / cnt = j / cnt) (hlt : i < j) :
    offset cnt size i + size ≤ offset cnt size j := by
  have h1 := Nat.div_add_mod i cnt
  have h2 := Nat.div_add_mod j cnt
  rw [hq] at h1
  have hmod : i % cnt + 1 ≤ j % cnt := by omega
  calc offset cnt size i + size
      = (i % cnt + 1) * size := by rw [Nat.succ_mul]; rfl
    _ ≤ offset cnt size j := Nat.mul_le_mul_right _ hmod

theorem offset_apart_of_ne (hq : i / cnt = j / cnt) (hne : i ≠ j) :
    offset cnt size i + size ≤ offset cnt size j ∨ offset cnt size j + size ≤ offset cnt size i :=
  (Nat.lt_or_gt_of_ne hne).imp (offset_apart hq) (offset_apart hq.symm)

/-- The slots of a table lie in its blocks. -/
theorem block_lt (hsize : 0 < size) (hn : n * size ≤ len * (cnt * size)) (hi : i < n) :
    i / cnt < len := by
  rw [← Nat.mul_assoc] at hn
  have hle : n ≤ len * cnt := Nat.le_of_mul_le_mul_right hn hsize
  exact Nat.div_lt_of_lt_mul (by rw [Nat.mul_comm]; omega)

/-- Different slots of one table share no byte. -/
theorem disjoint_bytes (first : Nat) (hne : i ≠ j) :
    Disjoint (bytes first cnt size i) (bytes first cnt size j) := by
  rw [Set.disjoint_left]
  rintro ⟨b, p⟩ ⟨hb, hlo, hhi⟩ ⟨hb', hlo', hhi'⟩
  have hq : i / cnt = j / cnt := by
    dsimp only at hb hb'
    omega
  dsimp only at hlo hhi hlo' hhi'
  rcases @offset_apart_of_ne cnt size i j hq hne with h | h <;> omega

/-- Slots of tables that share no block share no byte. -/
theorem disjoint_bytes_of_apart {len' : Nat}
    (h : Disjoint (Set.Ico first (first + len)) (Set.Ico first' (first' + len')))
    (hi : i / cnt < len) (hj : j / cnt < len') :
    Disjoint (bytes first cnt size i) (bytes first' cnt size j) := by
  rw [Set.disjoint_left]
  rintro ⟨b, p⟩ ⟨rfl, -⟩ ⟨heq, -⟩
  refine Set.disjoint_left.mp h ⟨Nat.le_add_right .., Nat.add_lt_add_left hi _⟩ ?_
  dsimp only at heq
  rw [heq]
  exact ⟨Nat.le_add_right .., Nat.add_lt_add_left hj _⟩

/-! ## Slots that fill a block -/

theorem mul_div_block (hsize : 0 < size) : i * size / (cnt * size) = i / cnt :=
  Nat.mul_div_mul_right i cnt hsize

theorem mul_mod_block : i * size % (cnt * size) = offset cnt size i :=
  Nat.mul_mod_mul_right ..

theorem offset_div_mul (hsize : 0 < size) :
    offset cnt size i / size * size = offset cnt size i := by
  rw [offset, Nat.mul_div_cancel _ hsize]

end PackedSlots
