/-
  RustExt4.Inode.Extent.Halting

  The computations on one node and on one state of a path end: the loops of the source
  that take fuel here are those of the insertion and of the truncation only.
-/
import RustExt4.Inode.Extent.Cursor

namespace RustExt4.Inode.Extent

/-! ## Computations that take no fuel -/

/-- The computation does not end for want of fuel. -/
def Halts {α : Type} (x : Except Fault α) : Prop := x ≠ .error .outOfFuel

section Halts
variable {α β : Type}

@[simp] theorem halts_ok (a : α) : Halts (.ok a : Except Fault α) := nofun

@[simp] theorem halts_error {e : Fault} : Halts (.error e : Except Fault α) ↔ e ≠ .outOfFuel := by
  simp [Halts]

theorem Halts.ne {x : Except Fault α} {e : Fault} (hx : Halts x) (h : x = .error e) :
    e ≠ .outOfFuel := by
  rintro rfl
  exact hx h

@[simp] theorem halts_map {f : α → β} {x : Except Fault α} : Halts (x.map f) ↔ Halts x := by
  cases x <;> simp [Except.map]

@[simp] theorem halts_unwrap (x : Option α) : Halts (unwrap x) := by
  cases x <;> simp [unwrap]

namespace ExtentHeader
variable (h : ExtentHeader)

@[simp] theorem halts_get (i : Nat) : Halts (h.get i) := by
  unfold get
  split_ifs <;> simp

@[simp] theorem halts_getAt (idx : Option Nat) : Halts (h.getAt idx) := by
  cases idx <;> simp [getAt]

@[simp] theorem halts_searchFrom (fba l r : Nat) : Halts (h.searchFrom fba l r) := by
  fun_induction searchFrom with
  | case1 | case4 | case5 => simp
  | case2 l r _ _ _ _ _ ih => exact ih
  | case3 l r _ _ _ _ ih => exact ih

@[simp] theorem halts_binarySearch (fba : Nat) : Halts (h.binarySearch fba) := by
  have hsearch := h.halts_searchFrom fba 0 (h.entriesCnt - 1)
  unfold binarySearch
  split
  · split
    · split <;> simp
    · simp_all
  · simp

theorem halts_writeEntry (depth : Nat) (ext : Entry) (p : Nat) (b : Bytes) :
    Halts (writeEntry depth ext p b) := by
  unfold writeEntry
  split
  · simp
  · split <;> split <;> simp

@[simp] theorem halts_replaceAt (ext : Entry) (at_ : Nat) : Halts (h.replaceAt ext at_) := by
  have hwrite := halts_writeEntry h.depth ext (h.base + 12 * at_) h.bytes
  unfold replaceAt
  split
  · simp
  · split <;> simp_all

@[simp] theorem halts_insertAt (ext : Entry) (at_ : Nat) : Halts (h.insertAt ext at_) := by
  have hwrite := halts_writeEntry h.depth ext (h.base + 12 * at_)
    (shiftFrom h.base at_ h.entriesCnt h.bytes)
  unfold insertAt
  split
  · simp
  · split
    · simp
    · split <;> simp_all

@[simp] theorem halts_fromBytes (b : Bytes) : Halts (fromBytes b) := by
  unfold fromBytes
  split <;> simp

end ExtentHeader

namespace Cursor
variable (c : Cursor)

@[simp] theorem halts_level (n : Nat) : Halts (c.level n) := by
  unfold level
  split
  · simp
  · split
    · simp
    · split <;> simp

@[simp] theorem halts_getLeaf : Halts c.getLeaf := by
  unfold getLeaf
  split
  · simp
  · split
    next heq => simpa using (c.halts_level _).ne heq
    next nd idx _ =>
      split
      next heq => simpa using (nd.halts_getAt idx).ne heq
      next => simp

end Cursor

@[simp] theorem halts_lastFba (l : Leaf) : Halts l.lastFba := by
  unfold Leaf.lastFba
  split <;> simp

namespace Path

@[simp] theorem halts_pickLast (h : ExtentHeader) : Halts (pickLast h) := by
  unfold pickLast
  split <;> simp

@[simp] theorem halts_merged (new : Leaf) (cur : Option Entry) : Halts (merged new cur) := by
  unfold merged
  split
  · split_ifs <;> simp
  · simp

@[simp] theorem halts_insertPos (new : Leaf) (leaf : Option Leaf) (index : Option Nat) :
    Halts (insertPos new leaf index) := by
  cases leaf <;> simp [insertPos]

@[simp] theorem halts_inoGroup (sb : SuperBlock) (ino : Nat) : Halts (inoGroup sb ino) := by
  unfold inoGroup
  split <;> simp

@[simp] theorem halts_moveEntries (src : ExtentHeader) (from_ n i : Nat) (dst : ExtentHeader) :
    Halts (moveEntries src from_ i n dst) := by
  induction n generalizing i dst with
  | zero => simp [moveEntries]
  | succ n ih =>
      rw [moveEntries]
      split
      · split
        next => exact ih _ _
        next heq => simpa using (dst.halts_insertAt _ _).ne heq
      · simp

@[simp] theorem halts_allocate (ino size hope : Nat) (c : Cursor) :
    Halts (allocate ino size hope c).1 := by
  unfold allocate FileSystem.allocate FileSystem.getBlockGroup
  split
  next heq =>
    split at heq
    · cases heq
      simp
    · cases heq
      simp
    · dsimp only at heq
      split at heq
      · cases heq
        simp
      · split at heq
        next hgroup =>
          split at hgroup <;> cases hgroup
          cases heq
          simp
        next =>
          cases heq
          simp

@[simp] theorem halts_splitKey (new : Leaf) (en : ExtentHeader) (idx : Option Nat) :
    Halts (splitKey new en idx) := by
  unfold splitKey
  split_ifs
  · simp
  · simp
  · split
    next heq => simpa using (halts_unwrap idx).ne heq
    next i _ =>
      split
      next heq => simpa using (en.halts_get (i + 1)).ne heq
      all_goals simp

@[simp] theorem halts_findLevel (c : Cursor) (n : Nat) : Halts (findLevel c n) := by
  induction n with
  | zero => simp [findLevel]
  | succ n ih =>
      rw [findLevel]
      split
      next heq => simpa using (c.halts_level n).ne heq
      next => split <;> simp [ih]

end Path

@[simp] theorem Cursor.halts_hope (c : Cursor) (leaf : Option Leaf) : Halts (c.hope leaf) := by
  unfold hope
  split
  · split_ifs <;> simp
  · split <;> simp

end Halts
end RustExt4.Inode.Extent
