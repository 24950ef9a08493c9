/-
  RustExt4.Inode.Extent.Allocating

  What the operations of a mutable cursor do to the block allocator.  Path loading, the
  writes to nodes and the moves leave it alone; an insertion calls it for new nodes and the
  cursor for new blocks.  So a cursor goes from one state of the allocator to another by
  calls of `Allocator::allocate`, and what those keep, every loop over a cursor keeps.

  The insertion is the only one of these operations that takes fuel: it starts again after
  each split and each new root.  Either of them takes a free block, so fuel for the blocks
  that are free does not run out.
-/
import RustExt4.Block.BuddyRuns
import RustExt4.Inode.Extent.Halting
import RustExt4.Inode.Extent.Lookup

namespace RustExt4.Inode.Extent

open StateExcept
open Transaction (Event)
open Block (BlockGroupBuddy)

/-! ## Calls of the allocator -/

/-- The allocator is in the same state, and no event was recorded. -/
structure SameAllocator (c c' : Cursor) : Prop where
  blkSize : c'.fs.blkSize = c.fs.blkSize
  buddies : c'.fs.buddies = c.fs.buddies
  events : c'.events = c.events

theorem SameAllocator.refl (c : Cursor) : SameAllocator c c := ⟨rfl, rfl, rfl⟩

/-- One call of the allocator, for at least one block, or a step that leaves it alone. -/
inductive AllocatorStep (c : Cursor) : Cursor → Prop
  | same {c' : Cursor} (h : SameAllocator c c') : AllocatorStep c c'
  | allocate (ino : Nat) {size : Nat} (hope : Nat) (hpos : 1 ≤ size) (hsize : size < 2 ^ 64) :
      AllocatorStep c (Path.allocate ino size hope c).2

/-- Every run changes the allocator by calls of it only. -/
def Allocates {α : Type} (x : CursorM α) : Prop := Moves (Relation.ReflTransGen AllocatorStep) x

namespace Allocates

variable {α β : Type}

theorem bind {x : CursorM α} {f : α → CursorM β} (hx : Allocates x) (hf : ∀ a, Allocates (f a)) :
    Allocates (x >>= f) := Moves.bind (fun _ _ _ => .trans) hx hf

theorem of_fixed {x : CursorM α} (h : ∀ c, (x c).2 = c) : Allocates x :=
  Moves.of_fixed (fun _ => .refl) h

theorem pure (a : α) : Allocates (Pure.pure a : CursorM α) := of_fixed fun _ => rfl

theorem get : Allocates (StateExcept.get : CursorM Cursor) := of_fixed fun _ => rfl

theorem lift (x : Except Fault α) : Allocates (StateExcept.lift x : CursorM α) :=
  of_fixed fun _ => rfl

theorem throw (e : Fault) : Allocates (StateExcept.throw e : CursorM α) := of_fixed fun _ => rfl

theorem modify {f : Cursor → Cursor} (h : ∀ c, SameAllocator c (f c)) :
    Allocates (StateExcept.modify f : CursorM Unit) := fun c => .single (.same (h c))

theorem mapError {f : Fault → Fault} {x : CursorM α} (h : Allocates x) :
    Allocates (StateExcept.mapError f x) := by
  intro c
  have hc := h c
  unfold StateExcept.mapError
  split
  next heq => rwa [heq] at hc
  next heq => rwa [heq] at hc

end Allocates

namespace Cursor

theorem store_sameAllocator (c : Cursor) (at_ : Nat) (h : ExtentHeader) :
    SameAllocator c (c.store at_ h) := by
  unfold store
  split
  · exact ⟨rfl, rfl, rfl⟩
  · split <;> exact ⟨rfl, rfl, rfl⟩
  · exact ⟨rfl, rfl, rfl⟩

theorem setIdx_sameAllocator (c : Cursor) (at_ : Nat) (idx : Option Nat) :
    SameAllocator c (c.setIdx at_ idx) := by
  cases at_ <;> exact ⟨rfl, rfl, rfl⟩

end Cursor

/-! ## The operations -/

/-- An operation that is put together from such steps and takes no fuel. -/
inductive FuelFree : {α : Type} → CursorM α → Prop
  | pure {α : Type} (a : α) : FuelFree (Pure.pure a)
  | get : FuelFree StateExcept.get
  | modify {f : Cursor → Cursor} (h : ∀ c, SameAllocator c (f c)) : FuelFree (StateExcept.modify f)
  | throw {α : Type} {e : Fault} (h : e ≠ .outOfFuel) : FuelFree (StateExcept.throw e : CursorM α)
  | lift {α : Type} {x : Except Fault α} (h : Halts x) : FuelFree (StateExcept.lift x)
  | allocate (ino hope : Nat) {size : Nat} (hpos : 1 ≤ size) (hsize : size < 2 ^ 64) :
      FuelFree (Path.allocate ino size hope)
  | bind {α β : Type} {x : CursorM α} {f : α → CursorM β} (hx : FuelFree x)
      (hf : ∀ a, FuelFree (f a)) : FuelFree (x >>= f)
  | toIoError {α : Type} {x : CursorM α} (hx : FuelFree x) :
      FuelFree (StateExcept.mapError Path.toIoError x)

theorem FuelFree.allocates {α : Type} {x : CursorM α} (h : FuelFree x) : Allocates x := by
  induction h with
  | pure a => exact .pure a
  | get => exact .get
  | modify h => exact .modify h
  | throw => exact .throw _
  | lift => exact .lift _
  | allocate ino hope hpos hsize => exact fun _ => .single (.allocate ino hope hpos hsize)
  | bind _ _ ihx ihf => exact ihx.bind ihf
  | toIoError _ ih => exact ih.mapError

theorem halts_bind {α β : Type} {x : CursorM α} {f : α → CursorM β} {c : Cursor}
    (hx : Halts (x c).1) (hf : ∀ a c', x c = (.ok a, c') → Halts (f a c').1) :
    Halts ((x >>= f) c).1 := by
  rw [bind_apply]
  split
  next a c' heq => exact hf a c' heq
  next e c' heq =>
    rw [heq] at hx
    exact halts_error.mpr (halts_error.mp hx)

theorem halts_lift_bind {α β : Type} {x : Except Fault α} {f : α → CursorM β} {c : Cursor}
    (hx : Halts x) (hf : ∀ a, Halts (f a c).1) : Halts ((StateExcept.lift x >>= f) c).1 := by
  refine halts_bind hx fun a c' heq => ?_
  cases x with
  | error => cases heq
  | ok => cases heq; exact hf a

theorem FuelFree.halts {α : Type} {x : CursorM α} (h : FuelFree x) (c : Cursor) :
    Halts (x c).1 := by
  induction h generalizing c with
  | pure | get | modify => exact halts_ok _
  | throw h => exact halts_error.mpr h
  | lift h => exact h
  | allocate => exact Path.halts_allocate _ _ _ c
  | bind _ _ ihx ihf => exact halts_bind (ihx c) fun a c' _ => ihf a c'
  | @toIoError α x _ ih =>
      have hx := ih c
      unfold mapError
      split
      next => exact halts_ok _
      next e c' heq =>
        rw [heq, halts_error] at hx
        cases e <;> simp_all [Path.toIoError]

namespace Path

theorem push_fuelFree (n : Nat × Option Nat) : FuelFree (push n) := by
  refine .bind .get fun c => ?_
  split
  · exact .modify fun _ => ⟨rfl, rfl, rfl⟩
  · exact .throw (by simp)

theorem node_fuelFree (lba : Nat) : FuelFree (node lba) := by
  refine .bind .get fun c => ?_
  split
  · exact .lift (by simp)
  · exact .throw (by simp)

theorem descend_fuelFree {pick : ExtentHeader → Except Fault (Option Nat)}
    (hpick : ∀ h, Halts (pick h)) (n : Nat) (e : Option Entry) : FuelFree (descend pick n e) := by
  induction n generalizing e with
  | zero => exact .pure _
  | succ n ih =>
      cases e with
      | none => exact .pure _
      | some ext =>
          exact .bind (.lift (by simp)) fun _ => .bind (node_fuelFree _) fun _ =>
            .bind (.lift (hpick _)) fun _ => .bind (.lift (by simp)) fun _ =>
              .bind (push_fuelFree _) fun _ => ih _

theorem start_fuelFree (rootIndex : Option Nat) : FuelFree (start rootIndex) :=
  .bind (.modify fun _ => ⟨rfl, rfl, rfl⟩) fun _ => .bind .get fun _ => .lift (by simp)

theorem loadMut_fuelFree (fba : Nat) : FuelFree (loadMut fba) :=
  .bind (.modify fun _ => ⟨rfl, rfl, rfl⟩) fun _ => .bind .get fun _ =>
    .bind (.lift (by simp)) fun _ => .bind (start_fuelFree _) fun _ =>
      .bind (descend_fuelFree (by simp) _ _) fun _ => .pure _

theorem fixKeys_fuelFree (updatedStart n pos : Nat) : FuelFree (fixKeys updatedStart n pos) := by
  induction n generalizing pos with
  | zero => exact .pure _
  | succ n ih =>
      rw [fixKeys]
      split
      · exact .pure _
      · exact .bind .get fun _ => .bind (.lift (by simp)) fun _ => .bind (.lift (by simp)) fun _ =>
          .bind (.lift (by simp)) fun _ => .bind (.lift (by simp)) fun _ =>
            .bind (.lift (by simp)) fun _ =>
              .bind (.modify fun _ => Cursor.store_sameAllocator ..) fun _ => ih _

theorem insertLeaf_fuelFree (new : Leaf) : FuelFree (insertLeaf new) := by
  refine .bind .get fun c => .bind (.lift (by simp)) fun leaf => ?_
  split
  · exact .throw (by simp)
  · refine .bind (.lift (by simp)) fun _ => .bind (.lift (by simp)) fun _ =>
      .bind (.lift (by simp)) fun m => ?_
    cases m with
    | some l =>
        exact .bind (.lift (by simp)) fun _ => .bind (.lift (by simp)) fun _ =>
          .bind (.modify fun _ => Cursor.store_sameAllocator ..) fun _ => .pure _
    | none =>
        dsimp only
        split
        · exact .pure _
        · exact .bind (.lift (by simp)) fun _ =>
            .bind (.modify fun _ => Cursor.setIdx_sameAllocator ..) fun _ =>
              .bind (.lift (by simp)) fun _ =>
                .bind (.modify fun _ => Cursor.store_sameAllocator ..) fun _ =>
                  .bind (fixKeys_fuelFree _ _ _) fun _ => .pure _

theorem growExtent_fuelFree : FuelFree growExtent :=
  .bind .get fun _ => .bind (.lift (by simp)) fun _ => .bind (.lift (by simp)) fun _ =>
    .bind (.allocate _ _ (by decide) (by decide)) fun _ =>
      .bind (.modify fun _ => ⟨rfl, rfl, rfl⟩) fun _ => .bind .get fun _ =>
        .bind (.lift (by simp)) fun _ => .bind (.modify fun _ => ⟨rfl, rfl, rfl⟩) fun _ =>
          .bind (.lift (by simp)) fun _ => .bind (.lift (by simp)) fun _ =>
            .bind (.lift (by simp)) fun _ => .modify fun _ => Cursor.store_sameAllocator ..

theorem insertInternal_fuelFree (ext : Internal) (at_ : Nat) :
    FuelFree (insertInternal ext at_) := by
  refine .bind .get fun _ => .bind (.lift (by simp)) fun x => ?_
  obtain ⟨nd, idx⟩ := x
  dsimp only
  split
  · exact .pure _
  · refine .bind (.lift (by simp)) fun cur => .bind (.lift ?_) fun _ => .bind (.lift (by simp))
      fun _ => .bind (.modify fun _ => Cursor.store_sameAllocator ..) fun _ => .pure _
    cases idx <;> simp

theorem allocateNodes_fuelFree (n : Nat) : FuelFree (allocateNodes n) := by
  induction n with
  | zero => exact .pure _
  | succ n ih =>
      exact .bind .get fun _ => .bind (.allocate _ _ (by decide) (by decide)) fun _ =>
        .bind (.modify fun _ => ⟨rfl, rfl, rfl⟩) fun _ => .bind ih fun _ => .pure _

theorem splitLeaf_fuelFree (lba at_ : Nat) : FuelFree (splitLeaf lba at_) := by
  refine .bind .get fun _ => .bind (.lift (by simp)) fun _ => .bind (.lift (by simp)) fun _ =>
    .bind (.modify fun _ => ⟨rfl, rfl, rfl⟩) fun _ => .bind .get fun _ =>
      .bind (.lift (by simp)) fun _ => .bind (.lift (by simp)) fun _ =>
        .bind (.lift (by simp)) fun _ => ?_
  split
  · exact .throw (by simp)
  · exact .bind (.lift (by simp)) fun _ => .bind (.modify fun _ => ⟨rfl, rfl, rfl⟩) fun _ =>
      .modify fun _ => Cursor.store_sameAllocator ..

theorem splitAt_fuelFree (new : Leaf) (at_ : Nat) : FuelFree (splitAt new at_) := by
  refine .bind .get fun c => .bind (.lift (by simp)) fun _ => .bind (.lift (by simp)) fun _ =>
    .bind (allocateNodes_fuelFree _) fun blocks => ?_
  split
  · exact .throw (by simp)
  · split
    · exact .throw (by simp)
    · refine .bind (splitLeaf_fuelFree _ _) fun _ => ?_
      split
      · exact .throw (by simp)
      · refine .bind (insertInternal_fuelFree _ _) fun done => ?_
        split
        · exact .pure _
        · exact .throw (by simp)

theorem getMutNoload_fuelFree (lba : Nat) : FuelFree (getMutNoload lba) :=
  .modify fun _ => ⟨rfl, rfl, rfl⟩

theorem forM_fuelFree {α : Type} (l : List α) {f : α → CursorM Unit} (h : ∀ a, FuelFree (f a)) :
    FuelFree (l.forM f) := by
  induction l with
  | nil => exact .pure _
  | cons a l ih => exact .bind (h a) fun _ => ih

theorem fixPath_fuelFree (level : Nat) (blks : List Nat) : FuelFree (fixPath level blks) := by
  refine .bind .get fun _ => .bind (.lift (by simp)) fun _ =>
    .bind (.modify fun _ => Cursor.setIdx_sameAllocator ..) fun _ => forM_fuelFree _ fun blk => ?_
  refine .bind (node_fuelFree _) fun _ => .bind .get fun c => ?_
  dsimp only
  by_cases hlt : level < c.path.leafs.length
  · rw [if_pos hlt]
    exact .modify fun _ => ⟨rfl, rfl, rfl⟩
  · rw [if_neg hlt]
    exact .throw (by simp)

theorem doInsert_allocates (n : Nat) (new : Leaf) : Allocates (doInsert n new) := by
  induction n generalizing new with
  | zero => exact .throw _
  | succ n ih =>
      refine .bind (insertLeaf_fuelFree _).allocates fun r => ?_
      cases r with
      | none => exact .pure _
      | some new =>
          refine .bind .get fun c => .bind (.lift _) fun lv => ?_
          cases lv with
          | none => exact .bind growExtent_fuelFree.allocates fun _ => .pure _
          | some level =>
              refine .bind (splitAt_fuelFree _ _).allocates.mapError fun x => ?_
              dsimp only
              split
              · exact .bind (fixPath_fuelFree _ _).allocates fun _ => ih _
              · exact ih _

theorem insert_allocates (n : Nat) (leaf : Leaf) : Allocates (insert n leaf) := by
  induction n generalizing leaf with
  | zero => exact .throw _
  | succ n ih =>
      refine .bind (doInsert_allocates _ _) fun r => ?_
      cases r with
      | none => exact .pure _
      | some l => exact .bind (loadMut_fuelFree _).allocates fun _ => ih _

end Path

namespace Cursor

theorem advance_fuelFree (n : Nat) : FuelFree (advance n) := by
  refine .bind .get fun c => ?_
  split
  · exact .modify fun _ => ⟨rfl, rfl, rfl⟩
  · exact .throw (by simp)

theorem moveNextMany_fuelFree (n : Nat) : FuelFree (moveNextMany n) := by
  refine .bind .get fun _ => .bind (.lift (by simp)) fun r => ?_
  cases r with
  | none => exact .pure _
  | some l =>
      refine .bind (advance_fuelFree _) fun _ => .bind .get fun _ => ?_
      split
      · exact .pure _
      · exact Path.loadMut_fuelFree _

theorem orAllocatedMany_allocates (fuel : Nat) {size : Nat} (hpos : 1 ≤ size)
    (hsize : size < 2 ^ 64) (isMeta : Bool) :
    Allocates (orAllocatedMany fuel size isMeta) := by
  refine .bind .get fun _ => .bind (.lift _) fun leaf => .bind (.lift _) fun r => ?_
  cases r with
  | inl lba => exact .pure _
  | inr hope =>
      refine .bind (FuelFree.allocate _ _ hpos hsize).allocates fun x => ?_
      obtain ⟨lba, len⟩ := x
      dsimp only
      split
      · exact .throw _
      · refine .bind (Path.insert_allocates _ _) fun _ => ?_
        split
        · exact .bind (Path.forM_fuelFree _ fun _ => Path.getMutNoload_fuelFree _).allocates
            fun _ => .pure _
        · exact .pure _

theorem lbas_allocates (fuel n : Nat) : Allocates (lbas fuel n) := by
  induction n with
  | zero => exact .pure _
  | succ n ih =>
      refine .bind (.bind (orAllocatedMany_allocates _ (by decide) (by decide) _) fun _ => .pure _)
        fun _ => ?_
      split
      · exact .bind (moveNextMany_fuelFree _).allocates fun _ => .bind ih fun _ => .pure _
      · exact .bind ih fun _ => .pure _

end Cursor

/-! ## The allocator under a cursor -/

variable {k : Nat} {c c' : Cursor}

/-- The allocator is in a state that it can be in. -/
structure Cursor.Allocatable (k : Nat) (c : Cursor) : Prop where
  reach : ∃ out, BlockGroupBuddy.Reach k c.fs.buddies out
  blkSize : 1 ≤ c.fs.blkSize

/-- The number of free blocks. -/
noncomputable def Cursor.freeCount (c : Cursor) : Nat := c.fs.buddies.free.ncard

/-- What a call of the allocator does to the buddy structure. -/
theorem Path.allocate_buddies {ino size hope : Nat} (h : c.Allocatable k) (hpos : 1 ≤ size)
    (hsize : size < 2 ^ 64) :
    ((Path.allocate ino size hope c).2.Allocatable k ∧
      (Path.allocate ino size hope c).2.freeCount ≤ c.freeCount) ∧
    ∀ lba n, (Path.allocate ino size hope c).1 = .ok (lba, n) →
      (1 ≤ n ∧ n ≤ size) ∧ (Path.allocate ino size hope c).2.freeCount < c.freeCount := by
  obtain ⟨out, hreach⟩ := h.reach
  have hblk := h.blkSize
  have hask : 1 ≤ min size (c.fs.blkSize * 4) := by omega
  obtain ⟨r, b', hok, -, hsized⟩ := BlockGroupBuddy.tryAllocateAt_sized hreach.inv.1 hask
    (by omega) (some hope)
  unfold Path.allocate FileSystem.allocate Cursor.freeCount
  rw [hok]
  cases r with
  | none =>
      obtain rfl := BlockGroupBuddy.tryAllocateAt_none hreach.inv.1 hask (by omega) hok
      exact ⟨⟨⟨⟨out, hreach⟩, hblk⟩, Nat.le_refl _⟩, fun _ _ hr => by cases hr⟩
  | some x =>
      obtain ⟨lba, n⟩ := x
      have hn := hsized lba n rfl
      -- The buddy system has taken the run, also where what follows fails.
      have hnew := hreach.allocate hask (by omega) hok
      have hlt := hreach.free_ncard_lt hask (by omega) hok
      dsimp only
      split
      case h_1 => exact ⟨⟨⟨⟨_, hnew⟩, hblk⟩, hlt.le⟩, fun _ _ hr => by cases hr⟩
      case h_2 =>
        split
        case h_1 => exact ⟨⟨⟨⟨_, hnew⟩, hblk⟩, hlt.le⟩, fun _ _ hr => by cases hr⟩
        case h_2 =>
          refine ⟨⟨⟨⟨_, hnew⟩, hblk⟩, hlt.le⟩, fun _ _ hr => ?_⟩
          cases hr
          have := hn.pos
          have := hn.le
          exact ⟨by omega, hlt⟩

theorem AllocatorStep.allocatable (hstep : AllocatorStep c c') (h : c.Allocatable k) :
    c'.Allocatable k ∧ c'.freeCount ≤ c.freeCount := by
  cases hstep with
  | same hsame =>
      unfold Cursor.freeCount
      rw [hsame.buddies]
      exact ⟨⟨by rw [hsame.buddies]; exact h.reach, by rw [hsame.blkSize]; exact h.blkSize⟩,
        Nat.le_refl _⟩
  | allocate ino hope hpos hsize => exact (Path.allocate_buddies h hpos hsize).1

/-- No operation of a cursor brings the allocator into another state, and none gives blocks
    back. -/
theorem Allocates.allocatable {α : Type} {x : CursorM α} (hx : Allocates x)
    (h : c.Allocatable k) : (x c).2.Allocatable k ∧ (x c).2.freeCount ≤ c.freeCount := by
  have hrun := hx c
  generalize (x c).2 = c' at hrun ⊢
  induction hrun with
  | refl => exact ⟨h, Nat.le_refl _⟩
  | tail _ hstep ih =>
      obtain ⟨h', hle⟩ := hstep.allocatable ih.1
      exact ⟨h', hle.trans ih.2⟩

theorem Allocates.of_run {α : Type} {x : CursorM α} {r : Except Fault α} (hx : Allocates x)
    (h : c.Allocatable k) (hrun : x c = (r, c')) :
    c'.Allocatable k ∧ c'.freeCount ≤ c.freeCount := by
  have hx := hx.allocatable h
  rwa [hrun] at hx

/-! ## The fuel of an insertion -/

namespace Path

/-- What a call of the allocator that returned has taken is taken. -/
theorem allocate_freeCount {ino size hope : Nat} {r : Nat × Nat} (h : c.Allocatable k)
    (hpos : 1 ≤ size) (hsize : size < 2 ^ 64) (hrun : allocate ino size hope c = (.ok r, c')) :
    c'.Allocatable k ∧ c'.freeCount < c.freeCount := by
  obtain ⟨⟨halloc, -⟩, hcall⟩ := @allocate_buddies k c ino size hope h hpos hsize
  rw [hrun] at halloc hcall
  exact ⟨halloc, (hcall _ _ rfl).2⟩

theorem allocateNodes_freeCount {n lba : Nat} {lbas : List Nat} (h : c.Allocatable k)
    (hrun : allocateNodes n c = (.ok (lba :: lbas), c')) :
    c'.Allocatable k ∧ c'.freeCount < c.freeCount := by
  cases n with
  | zero => cases hrun
  | succ n =>
      rw [allocateNodes, get_bind] at hrun
      obtain ⟨r, c1, halloc, hrun⟩ := bind_eq_ok hrun
      obtain ⟨h1, hlt⟩ := allocate_freeCount h (Nat.le_refl 1) (by decide) halloc
      obtain ⟨h', hle⟩ := (FuelFree.bind (getMutNoload_fuelFree _) fun _ =>
        .bind (allocateNodes_fuelFree n) fun _ => .pure _).allocates.of_run h1 hrun
      exact ⟨h', hle.trans_lt hlt⟩

theorem splitAt_freeCount {new : Leaf} {at_ : Nat} {r : Bool × List Nat} (h : c.Allocatable k)
    (hrun : splitAt new at_ c = (.ok r, c')) : c'.Allocatable k ∧ c'.freeCount < c.freeCount := by
  rw [splitAt, get_bind] at hrun
  obtain ⟨⟨en, idx⟩, -, hrun⟩ := lift_bind_eq_ok hrun
  obtain ⟨key, -, hrun⟩ := lift_bind_eq_ok hrun
  obtain ⟨blocks, c1, hnodes, hrun⟩ := bind_eq_ok hrun
  cases blocks with
  | nil => cases hrun
  | cons lba lbas =>
      obtain ⟨h1, hlt⟩ := allocateNodes_freeCount h hnodes
      dsimp only at hrun
      split at hrun
      · cases hrun
      · obtain ⟨_, c2, hsplit, hrun⟩ := bind_eq_ok hrun
        obtain ⟨h2, hle2⟩ := (splitLeaf_fuelFree _ _).allocates.of_run h1 hsplit
        split at hrun
        · cases hrun
        · obtain ⟨done, c3, hins, hrun⟩ := bind_eq_ok hrun
          obtain ⟨h3, hle3⟩ := (insertInternal_fuelFree _ _).allocates.of_run h2 hins
          split at hrun <;> cases hrun
          exact ⟨h3, (hle3.trans hle2).trans_lt hlt⟩

theorem growExtent_freeCount (h : c.Allocatable k) (hrun : growExtent c = (.ok (), c')) :
    c'.Allocatable k ∧ c'.freeCount < c.freeCount := by
  rw [growExtent, get_bind] at hrun
  obtain ⟨group, -, hrun⟩ := lift_bind_eq_ok hrun
  obtain ⟨en, -, hrun⟩ := lift_bind_eq_ok hrun
  obtain ⟨⟨lba, len⟩, c1, halloc, hrun⟩ := bind_eq_ok hrun
  obtain ⟨h1, hlt⟩ := allocate_freeCount h (Nat.le_refl 1) (by decide) halloc
  have hrest : c'.Allocatable k ∧ c'.freeCount ≤ c1.freeCount := by
    refine Allocates.of_run (FuelFree.allocates ?_) h1 hrun
    exact .bind (getMutNoload_fuelFree _) fun _ => .bind .get fun _ => .bind (.lift (by simp))
      fun _ => .bind (.modify fun _ => ⟨rfl, rfl, rfl⟩) fun _ => .bind (.lift (by simp)) fun _ =>
        .bind (.lift (by simp)) fun _ => .bind (.lift (by simp)) fun _ =>
          .modify fun _ => Cursor.store_sameAllocator ..
  exact ⟨hrest.1, hrest.2.trans_lt hlt⟩

/-- Each round of an insertion that goes on has taken a free block. -/
theorem doInsert_freeCount {n : Nat} {new l : Leaf} (h : c.Allocatable k)
    (hrun : doInsert n new c = (.ok (some l), c')) : c'.freeCount < c.freeCount := by
  induction n generalizing new c with
  | zero => cases hrun
  | succ n ih =>
      rw [doInsert] at hrun
      obtain ⟨r, c1, hleaf, hrun⟩ := bind_eq_ok hrun
      obtain ⟨h1, hle1⟩ := (insertLeaf_fuelFree _).allocates.of_run h hleaf
      cases r with
      | none => cases hrun
      | some new =>
          dsimp only at hrun
          rw [get_bind] at hrun
          obtain ⟨lv, -, hrun⟩ := lift_bind_eq_ok hrun
          cases lv with
          | none =>
              obtain ⟨_, c2, hgrow, hrun⟩ := bind_eq_ok hrun
              cases hrun
              exact (growExtent_freeCount h1 hgrow).2.trans_le hle1
          | some level =>
              obtain ⟨⟨needFix, blks⟩, c2, hsplit, hrun⟩ := bind_eq_ok hrun
              obtain ⟨h2, hlt⟩ := splitAt_freeCount h1 (mapError_eq_ok.mp hsplit)
              dsimp only at hrun
              split at hrun
              · obtain ⟨_, c3, hfix, hrun⟩ := bind_eq_ok hrun
                obtain ⟨h3, hle3⟩ := (fixPath_fuelFree _ _).allocates.of_run h2 hfix
                exact (ih h3 hrun).trans_le (hle3.trans (hlt.le.trans hle1))
              · exact (ih h2 hrun).trans_le (hlt.le.trans hle1)

/-- Fuel for the free blocks does not run out. -/
theorem doInsert_halts {n : Nat} {new : Leaf} (h : c.Allocatable k) (hfuel : c.freeCount < n) :
    Halts (doInsert n new c).1 := by
  -- On the fuel: each round that is followed by another one has taken a block.
  induction n generalizing new c with
  | zero => omega
  | succ n ih =>
      refine halts_bind ((insertLeaf_fuelFree _).halts c) fun r c1 hleaf => ?_
      obtain ⟨h1, hle1⟩ := (insertLeaf_fuelFree _).allocates.of_run h hleaf
      cases r with
      | none => simp
      | some new =>
          refine halts_lift_bind (halts_findLevel c1 c1.len) fun lv => ?_
          cases lv with
          | none => exact (growExtent_fuelFree.bind fun _ => .pure _).halts _
          | some level =>
              refine halts_bind ((splitAt_fuelFree _ _).toIoError.halts _) fun x c2 hsplit => ?_
              obtain ⟨needFix, blks⟩ := x
              obtain ⟨h2, hlt⟩ := splitAt_freeCount h1 (mapError_eq_ok.mp hsplit)
              dsimp only
              split
              · refine halts_bind ((fixPath_fuelFree _ _).halts _) fun _ c3 hfix => ?_
                obtain ⟨h3, hle3⟩ := (fixPath_fuelFree _ _).allocates.of_run h2 hfix
                exact ih h3 (by omega)
              · exact ih h2 (by omega)

theorem insert_halts {n : Nat} {leaf : Leaf} (h : c.Allocatable k) (hfuel : c.freeCount < n) :
    Halts (insert n leaf c).1 := by
  induction n generalizing leaf c with
  | zero => omega
  | succ n ih =>
      refine halts_bind (doInsert_halts h hfuel) fun r c1 hrun => ?_
      cases r with
      | none => simp
      | some l =>
          have hlt := doInsert_freeCount h hrun
          obtain ⟨h1, -⟩ := (doInsert_allocates _ _).of_run h hrun
          refine halts_bind ((loadMut_fuelFree _).halts _) fun _ c2 hload => ?_
          obtain ⟨h2, hle⟩ := (loadMut_fuelFree _).allocates.of_run h1 hload
          exact ih h2 (by omega)

end Path

theorem Cursor.orAllocatedMany_halts {fuel size : Nat} {isMeta : Bool} (h : c.Allocatable k)
    (hpos : 1 ≤ size) (hsize : size < 2 ^ 64) (hfuel : c.freeCount ≤ fuel) :
    Halts (orAllocatedMany fuel size isMeta c).1 := by
  refine halts_lift_bind (halts_getLeaf c) fun leaf => ?_
  refine halts_lift_bind (halts_hope c leaf) fun r => ?_
  cases r with
  | inl lba => simp
  | inr hope =>
      refine halts_bind (by simp) fun x c1 halloc => ?_
      obtain ⟨lba, len⟩ := x
      obtain ⟨h1, hlt⟩ := Path.allocate_freeCount h hpos hsize halloc
      dsimp only
      split
      · simp
      · refine halts_bind (Path.insert_halts h1 (hlt.trans_le hfuel)) fun n c2 _ => ?_
        split
        · exact ((Path.forM_fuelFree _ fun _ => Path.getMutNoload_fuelFree _).bind
            fun _ => .pure _).halts c2
        · simp

end RustExt4.Inode.Extent
