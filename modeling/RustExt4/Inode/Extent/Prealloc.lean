/-
  RustExt4.Inode.Extent.Prealloc

  `Inode::prealloc` (`inode/mod.rs`): blocks are allocated behind the last one until the
  file reaches a file block.  Each turn subtracts what the allocator has given from what is
  left.  The allocator gives at least one block and no more than it was asked for, so the
  subtraction does not underflow and the loop ends.  Fuel for the free blocks is enough for
  its insertions.

  The inodes that are addressed by extents only: on the others `cursor_last_mut` is
  `todo!()`.
-/
import RustExt4.Inode.Extent.Allocating

namespace RustExt4.Inode.Extent

open StateExcept
open Transaction (Event)
open Block (BlockGroupBuddy)

/-- How a call of `prealloc` ends. -/
inductive PreallocEnd
  | done (r : Except Fault Unit)
  /-- `rem -= allocated` underflows -/
  | underflow
  | outOfTurns

/-- The loop of `prealloc`, for some turns, with the fuel of each insertion. -/
def Cursor.preallocLoop (fuel : Nat) : Nat → Nat → Cursor → PreallocEnd × Cursor
  | 0, _, c => (.outOfTurns, c)
  | turns + 1, rem, c =>
    if rem = 0 then (.done (.ok ()), c)
    else
      match Cursor.orAllocatedMany fuel rem false c with
      | (.error e, c) => (.done (.error e), c)
      | (.ok (_, allocated), c) =>
        if rem < allocated then (.underflow, c)
        else
          match Cursor.moveNextMany allocated c with
          | (.error e, c) => (.done (.error e), c)
          | (.ok (), c) => c.preallocLoop fuel turns (rem - allocated)

/-- `prealloc`; `size` is that of the inode. -/
def ExtentTree.prealloc (t : ExtentTree) (fs : FileSystem) (events : List Event)
    (noload : Nat → Bytes) (ino size fba fuel turns : Nat) : PreallocEnd × Cursor :=
  -- If size is big enough, we don't need to extend the inode
  if fba < size / 4096 then (.done (.ok ()), t.emptyCursor fs events noload ino 0)
  else
    match t.cursorLastMut fs events noload ino with
    | (.error e, c) => (.done (.error e), c)
    | (.ok (), c) =>
      if c.fba ≤ fba then c.preallocLoop fuel turns (fba - c.fba) else (.done (.ok ()), c)

variable {k : Nat} {c c' : Cursor}

/-! ## Opening the cursor -/

theorem Path.loadLast_fuelFree : FuelFree Path.loadLast := by
  refine .bind (.modify fun _ => ⟨rfl, rfl, rfl⟩) fun _ => .bind .get fun c => ?_
  split
  · exact .bind (.modify fun _ => ⟨rfl, rfl, rfl⟩) fun _ => .pure _
  · exact .bind (start_fuelFree _) fun _ => .bind (descend_fuelFree (by simp) _ _) fun _ =>
      .bind (.lift (by simp)) fun _ => .bind (.lift (by simp)) fun _ => .pure _

/-- `cursor_last_mut` on the cursor that it starts from. -/
def Cursor.openLast : CursorM Unit := do
  match ← Path.loadLast with
  | none => pure ()
  | some fba => do
    modify fun c => { c with fba := fba }
    moveNextMany 1

theorem Cursor.openLast_fuelFree : FuelFree openLast := by
  refine .bind Path.loadLast_fuelFree fun last => ?_
  cases last with
  | none => exact .pure _
  | some fba => exact .bind (.modify fun _ => ⟨rfl, rfl, rfl⟩) fun _ => moveNextMany_fuelFree 1

theorem ExtentTree.cursorLastMut_eq (t : ExtentTree) (fs : FileSystem) (events : List Event)
    (noload : Nat → Bytes) (ino : Nat) :
    t.cursorLastMut fs events noload ino =
      Cursor.openLast (t.emptyCursor fs events noload ino 0) := by
  unfold ExtentTree.cursorLastMut Cursor.openLast
  rw [bind_apply]
  cases Path.loadLast (t.emptyCursor fs events noload ino 0) with
  | mk r c =>
      cases r with
      | error e => rfl
      | ok last => cases last <;> rfl

/-! ## The loop -/

/-- A turn maps one block that has an address, or as many as the allocator has given. -/
theorem Cursor.orAllocatedMany_sized {fuel size n lba : Nat} {isMeta : Bool}
    (h : c.Allocatable k) (hpos : 1 ≤ size) (hsize : size < 2 ^ 64)
    (hcall : orAllocatedMany fuel size isMeta c = (.ok (lba, n), c')) : 1 ≤ n ∧ n ≤ size := by
  obtain ⟨c0, c1, hget, hcall⟩ := bind_eq_ok hcall
  cases hget
  obtain ⟨leaf, -, hcall⟩ := lift_bind_eq_ok hcall
  obtain ⟨r, -, hcall⟩ := lift_bind_eq_ok hcall
  cases r with
  -- the block is mapped, and one block of it is handed out
  | inl lba' =>
      cases hcall
      omega
  | inr hope =>
      obtain ⟨⟨lba', len⟩, c2, halloc, hcall⟩ := bind_eq_ok hcall
      obtain ⟨hlen, -⟩ := (@Path.allocate_buddies _ _ c.path.ino _ hope h hpos hsize).2
        lba' len (by rw [halloc])
      dsimp only at hcall
      split at hcall
      · cases hcall
      · obtain ⟨m, c3, -, hcall⟩ := bind_eq_ok hcall
        split at hcall
        · obtain ⟨_, c4, -, hcall⟩ := bind_eq_ok hcall
          cases hcall
          exact hlen
        · cases hcall
          exact hlen

/-- One turn, where the allocator has given no more than is left. -/
theorem Cursor.preallocLoop_turn {fuel rem lba allocated : Nat} (h0 : rem ≠ 0)
    (hcall : orAllocatedMany fuel rem false c = (.ok (lba, allocated), c'))
    (hle : allocated ≤ rem) (turns : Nat) :
    c.preallocLoop fuel (turns + 1) rem =
      match moveNextMany allocated c' with
      | (.error e, c) => (.done (.error e), c)
      | (.ok (), c) => c.preallocLoop fuel turns (rem - allocated) := by
  rw [preallocLoop, if_neg h0, hcall]
  dsimp only
  rw [if_neg (by omega)]

/-- The loop ends after at most as many turns as there are blocks left. -/
theorem Cursor.preallocLoop_done (fuel : Nat) {rem : Nat} (h : c.Allocatable k)
    (hrem : rem < 2 ^ 32) :
    ∃ r c', ∀ turns, rem ≤ turns → c.preallocLoop fuel (turns + 1) rem = (.done r, c') := by
  -- On the blocks left: every round but the last allocates at least one.
  induction hn : rem using Nat.strong_induction_on generalizing c rem with
  | _ n ih =>
    subst hn
    by_cases h0 : rem = 0
    · exact ⟨.ok (), c, fun turns _ => by rw [preallocLoop, if_pos h0]⟩
    · have hmap := (@orAllocatedMany_allocates fuel rem (by omega) (by omega) false).allocatable h
      cases hcall : orAllocatedMany fuel rem false c with
      | mk r c1 =>
        rw [hcall] at hmap
        cases r with
        | error e =>
            exact ⟨.error e, c1, fun turns _ => by rw [preallocLoop, if_neg h0, hcall]⟩
        | ok x =>
            obtain ⟨lba, allocated⟩ := x
            obtain ⟨hpos, hle⟩ := orAllocatedMany_sized h (by omega) (by omega) hcall
            have hnext := (moveNextMany_fuelFree allocated).allocates.allocatable hmap.1
            cases hmove : moveNextMany allocated c1 with
            | mk r c2 =>
              rw [hmove] at hnext
              cases r with
              | error e =>
                  exact ⟨.error e, c2, fun turns _ => by rw [preallocLoop_turn h0 hcall hle, hmove]⟩
              | ok u =>
                  obtain ⟨r, c', hend⟩ := ih (rem - allocated) (by omega) hnext.1 (by omega) rfl
                  refine ⟨r, c', fun turns hturns => ?_⟩
                  obtain ⟨m, rfl⟩ : ∃ m, turns = m + 1 := ⟨turns - 1, by omega⟩
                  rw [preallocLoop_turn h0 hcall hle, hmove]
                  exact hend m (by omega)

/-- Every call of the allocator gives as much as the fragmentation of the free blocks
    allows, and nothing only where no chunk is free.  So the loop of `prealloc` ends, after at
    most as many turns as the number of the file block, and never underflows. -/
theorem allocation_sizes (k : Nat) :
    (∀ (b : BlockGroupBuddy) (out : Set Nat), BlockGroupBuddy.Reach k b out →
      ∀ (size : Nat) (hope : Option Nat), 1 ≤ size → size < 2 ^ 64 →
        ∃ r b', b.tryAllocateAt size hope = .ok (r, b') ∧
          (r = none ↔ ∀ s, b.backref s = none) ∧
          ∀ lba n, r = some (lba, n) → b.SizedFor size hope n) ∧
    ∀ (t : ExtentTree) (fs : FileSystem) (events : List Event) (noload : Nat → Bytes)
      (ino size fba fuel : Nat) (out : Set Nat), BlockGroupBuddy.Reach k fs.buddies out →
        1 ≤ fs.blkSize → fba < 2 ^ 32 →
        ∃ r c, ∀ turns, fba < turns →
          t.prealloc fs events noload ino size fba fuel turns = (.done r, c) := by
  constructor
  · intro b out hreach size hope hpos hsize
    exact BlockGroupBuddy.tryAllocateAt_sized hreach.inv.1 hpos hsize hope
  · intro t fs events noload ino size fba fuel out hreach hblk hfba
    have hstart : (t.emptyCursor fs events noload ino 0).Allocatable k := ⟨⟨out, hreach⟩, hblk⟩
    unfold ExtentTree.prealloc
    by_cases hbig : fba < size / 4096
    · exact ⟨.ok (), _, fun turns _ => by rw [if_pos hbig]⟩
    · simp only [if_neg hbig]
      -- Opening the cursor allocates nothing.
      have hopen : (t.cursorLastMut fs events noload ino).2.Allocatable k := by
        rw [t.cursorLastMut_eq]
        exact (Cursor.openLast_fuelFree.allocates.allocatable hstart).1
      split
      case h_1 e c heq => exact ⟨.error e, c, fun _ _ => rfl⟩
      case h_2 c heq =>
        rw [heq] at hopen
        by_cases hle : c.fba ≤ fba
        · obtain ⟨r, c', hend⟩ :=
            @Cursor.preallocLoop_done _ _ fuel (fba - c.fba) hopen (by omega)
          refine ⟨r, c', fun turns hturns => ?_⟩
          obtain ⟨m, rfl⟩ : ∃ m, turns = m + 1 := ⟨turns - 1, by omega⟩
          rw [if_pos hle]
          exact hend m (by omega)
        · exact ⟨.ok (), c, fun _ _ => by rw [if_neg hle]⟩

/-- Two free chunks of four blocks, and an empty file that is to have five blocks. -/
theorem allocation_sizes_eightFree :
    (∃ r b', BlockGroupBuddy.eightFree.tryAllocateAt 5 (some 2) = .ok (r, b') ∧
      ∀ lba n, r = some (lba, n) → BlockGroupBuddy.eightFree.SizedFor 5 (some 2) n) ∧
    ∃ r c, ∀ turns, 5 < turns → ExtentTree.prealloc {}
      { BlockRuns.twoFree with buddies := BlockGroupBuddy.eightFree } [] (fun _ => []) 12 0 5 7
        turns = (.done r, c) := by
  constructor
  · obtain ⟨r, b', hok, -, hsized⟩ := (allocation_sizes 2).1 _ _ BlockGroupBuddy.reach_eightFree 5
      (some 2) (by decide) (by decide)
    exact ⟨r, b', hok, hsized⟩
  · exact (allocation_sizes 2).2 _ { BlockRuns.twoFree with buddies := BlockGroupBuddy.eightFree }
      _ _ 12 0 5 7 _ BlockGroupBuddy.reach_eightFree (by decide) (by decide)

/-! ## The fuel -/

theorem Cursor.preallocLoop_halts {fuel turns rem : Nat} (h : c.Allocatable k)
    (hrem : rem < 2 ^ 32) (hfuel : c.freeCount ≤ fuel) :
    (c.preallocLoop fuel turns rem).1 ≠ .done (.error .outOfFuel) := by
  induction turns generalizing c rem with
  | zero => exact nofun
  | succ turns ih =>
      rw [preallocLoop]
      split
      · exact nofun
      · split
        next heq =>
          have hcall := @orAllocatedMany_halts k c fuel rem false h (by omega) (by omega) hfuel
          simpa using hcall.ne (congrArg Prod.fst heq)
        next lba allocated c1 heq =>
          obtain ⟨h1, hle1⟩ := (@orAllocatedMany_allocates fuel rem (by omega) (by omega)
            false).of_run h heq
          split
          · exact nofun
          · split
            next heq =>
              simpa using ((moveNextMany_fuelFree allocated).halts c1).ne (congrArg Prod.fst heq)
            next heq =>
              obtain ⟨h2, hle2⟩ := (moveNextMany_fuelFree allocated).allocates.of_run h1 heq
              exact ih h2 (by omega) (by omega)

/-- With fuel for the free blocks no insertion of the loop ends for want of it. -/
theorem prealloc_halts {t : ExtentTree} {fs : FileSystem} {events : List Event}
    {noload : Nat → Bytes} {ino size fba fuel turns : Nat} {out : Set Nat}
    (hreach : BlockGroupBuddy.Reach k fs.buddies out) (hblk : 1 ≤ fs.blkSize) (hfba : fba < 2 ^ 32)
    (hfuel : fs.buddies.free.ncard ≤ fuel) :
    (t.prealloc fs events noload ino size fba fuel turns).1 ≠ .done (.error .outOfFuel) := by
  have hstart : (t.emptyCursor fs events noload ino 0).Allocatable k := ⟨⟨out, hreach⟩, hblk⟩
  unfold ExtentTree.prealloc
  rw [t.cursorLastMut_eq]
  split
  · exact nofun
  · split
    next heq =>
      simpa using (Cursor.openLast_fuelFree.halts _).ne (congrArg Prod.fst heq)
    next c heq =>
      obtain ⟨hopen, hle⟩ := Cursor.openLast_fuelFree.allocates.of_run hstart heq
      split
      · exact Cursor.preallocLoop_halts hopen (by omega) (hle.trans hfuel)
      · exact nofun

end RustExt4.Inode.Extent
