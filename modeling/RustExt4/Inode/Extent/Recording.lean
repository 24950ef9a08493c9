/-
  RustExt4.Inode.Extent.Recording

  The events that the operations of a cursor record: those of the block allocator, for
  blocks that it hands out and blocks that are given back.  No cursor records anything
  about an inode.
-/
import RustExt4.Inode.Extent.Prealloc

namespace RustExt4.Transaction

/-- The event is about blocks. -/
def Event.OfBlocks : Event → Prop
  | .blockAllocationOnBg .. | .blockDeallocationOnBg .. => True
  | _ => False

end RustExt4.Transaction

namespace RustExt4.FileSystem

open Transaction (Event)

/-- The block allocator records its allocation. -/
theorem allocate_allocations (fs : FileSystem) (events : List Event) (ino size hope : Nat) :
    ∃ new, (fs.allocate events ino size hope).2.2 = events ++ new ∧
      ∀ e ∈ new, ∃ g lba ofs count, e = .blockAllocationOnBg ino g lba ofs count := by
  have hnone : ∃ new, events = events ++ new ∧
      ∀ e ∈ new, ∃ g lba ofs count, e = .blockAllocationOnBg ino g lba ofs count :=
    ⟨[], (List.append_nil _).symm, nofun⟩
  unfold allocate
  split
  · exact hnone
  · exact hnone
  · dsimp only
    split
    · exact hnone
    · split
      · exact hnone
      · exact ⟨_, rfl, List.forall_mem_singleton.mpr ⟨_, _, _, _, rfl⟩⟩

theorem allocate_ofBlocks (fs : FileSystem) (events : List Event) (ino size hope : Nat) :
    ∃ new, (fs.allocate events ino size hope).2.2 = events ++ new ∧ ∀ e ∈ new, e.OfBlocks := by
  obtain ⟨new, hnew, hall⟩ := fs.allocate_allocations events ino size hope
  refine ⟨new, hnew, fun e he => ?_⟩
  obtain ⟨g, lba, ofs, count, rfl⟩ := hall e he
  trivial

theorem deallocate_ofBlocks (fs : FileSystem) (events : List Event) (ino lba size : Nat) :
    ∃ new, (fs.deallocate events ino lba size).2 = events ++ new ∧ ∀ e ∈ new, e.OfBlocks := by
  refine deallocate_rounds
    (P := fun events _ _ res => ∃ new, res.2 = events ++ new ∧ ∀ e ∈ new, e.OfBlocks)
    (fun _ _ _ _ => ⟨[], (List.append_nil _).symm, nofun⟩) ?_ events lba size
  rintro events lba size g ofs bg count res - - - - - - ⟨new, hnew, hof⟩
  refine ⟨.blockDeallocationOnBg ino g bg.blockBitmapLba ofs count :: new, ?_,
    List.forall_mem_cons.mpr ⟨trivial, hof⟩⟩
  rw [hnew, List.append_assoc]
  rfl

end RustExt4.FileSystem

namespace RustExt4.Inode.Extent

open StateExcept
open Transaction (Event)

/-! ## The events of a cursor -/

/-- Events about blocks were recorded, and no others. -/
def BlockEvents (c c' : Cursor) : Prop :=
  ∃ new, c'.events = c.events ++ new ∧ ∀ e ∈ new, e.OfBlocks

theorem BlockEvents.refl (c : Cursor) : BlockEvents c c := ⟨[], (List.append_nil _).symm, nofun⟩

theorem BlockEvents.trans {c c' c'' : Cursor} (h : BlockEvents c c') (h' : BlockEvents c' c'') :
    BlockEvents c c'' := by
  obtain ⟨new, hnew, hof⟩ := h
  obtain ⟨new', hnew', hof'⟩ := h'
  refine ⟨new ++ new', by rw [hnew', hnew, List.append_assoc], fun e he => ?_⟩
  rcases List.mem_append.mp he with he | he
  · exact hof e he
  · exact hof' e he

/-- Every run records events about blocks only. -/
def RecordsBlocks {α : Type} (x : CursorM α) : Prop := Moves BlockEvents x

variable {α β : Type}

theorem RecordsBlocks.bind {x : CursorM α} {f : α → CursorM β} (hx : RecordsBlocks x)
    (hf : ∀ a, RecordsBlocks (f a)) : RecordsBlocks (x >>= f) :=
  Moves.bind (fun _ _ _ => .trans) hx hf

/-- What goes through the allocator records allocations. -/
theorem Allocates.recordsBlocks {x : CursorM α} (h : Allocates x) : RecordsBlocks x := by
  intro c
  have hrun := h c
  generalize (x c).2 = c' at hrun ⊢
  induction hrun with
  | refl => exact .refl c
  | @tail c1 c2 _ hstep ih =>
      refine ih.trans ?_
      cases hstep with
      | same hsame => exact ⟨[], by rw [hsame.events, List.append_nil], nofun⟩
      | allocate ino hope hpos hsize =>
          exact c1.fs.allocate_ofBlocks c1.events ino _ hope

namespace Path

theorem deallocate_recordsBlocks (ino lba size : Nat) : RecordsBlocks (deallocate ino lba size) :=
  fun c => c.fs.deallocate_ofBlocks c.events ino lba size

theorem cleanup_recordsBlocks (n : Nat) : RecordsBlocks (cleanup n) := by
  induction n with
  | zero =>
      refine .bind Allocates.get.recordsBlocks fun c => ?_
      split
      · exact (Allocates.pure _).recordsBlocks
      · exact (Allocates.bind (.modify fun _ => Cursor.setIdx_sameAllocator ..)
          fun _ => .pure _).recordsBlocks
      · exact (Allocates.bind (.modify fun _ => Cursor.setIdx_sameAllocator ..)
          fun _ => .pure _).recordsBlocks
  | succ n ih =>
      refine .bind Allocates.get.recordsBlocks fun c => ?_
      split
      · exact (Allocates.throw _).recordsBlocks
      · split
        · exact (Allocates.pure _).recordsBlocks
        · exact (Allocates.bind (.modify fun _ => Cursor.setIdx_sameAllocator ..)
            fun _ => .pure _).recordsBlocks
        · -- Above the empty nodes; each of them is given back.
          refine .bind (Allocates.lift _).recordsBlocks fun x => ?_
          refine .bind (Allocates.modify fun _ => ⟨rfl, rfl, rfl⟩).recordsBlocks fun _ => ?_
          obtain ⟨pNode, _⟩ := x
          dsimp only
          split
          · refine .bind Allocates.get.recordsBlocks fun c => ?_
            refine .bind (Allocates.lift _).recordsBlocks fun y => ?_
            obtain ⟨nd, idx⟩ := y
            refine .bind (Allocates.lift _).recordsBlocks fun i => ?_
            dsimp only
            split
            · exact (Allocates.throw _).recordsBlocks
            · refine .bind (Allocates.lift _).recordsBlocks fun en => ?_
              refine .bind (Allocates.lift _).recordsBlocks fun next => ?_
              split
              · exact (Allocates.throw _).recordsBlocks
              · refine .bind (deallocate_recordsBlocks _ _ _) fun _ => ?_
                refine .bind (Allocates.modify
                  fun _ => Cursor.store_sameAllocator ..).recordsBlocks fun _ => ?_
                split
                · exact (Allocates.pure _).recordsBlocks
                · exact ih
          · exact ih

theorem movePrevWithCleanup_recordsBlocks : RecordsBlocks movePrevWithCleanup := by
  refine .bind Allocates.get.recordsBlocks fun orig => ?_
  refine .bind (cleanup_recordsBlocks _) fun fill => ?_
  cases fill with
  | false => exact (Allocates.pure _).recordsBlocks
  | true =>
      exact (FuelFree.bind .get fun _ => .bind (.lift (by simp)) fun _ => .bind (.lift (by simp))
        fun _ => .bind (descend_fuelFree (by simp) _ _) fun _ => .pure _).allocates.recordsBlocks

theorem truncateLast_recordsBlocks (newLen : Nat) : RecordsBlocks (truncateLast newLen) := by
  refine .bind Allocates.get.recordsBlocks fun _ => ?_
  refine .bind (Allocates.lift _).recordsBlocks fun _ => ?_
  refine .bind (Allocates.lift _).recordsBlocks fun leaf => ?_
  refine .bind (Allocates.modify fun _ => ⟨rfl, rfl, rfl⟩).recordsBlocks fun _ => ?_
  -- What comes after the blocks are given back, on every way.
  have hrest : RecordsBlocks (truncateEntry leaf newLen) := by
    refine .bind Allocates.get.recordsBlocks fun c => ?_
    refine .bind (Allocates.lift _).recordsBlocks fun x => ?_
    obtain ⟨nd, idx⟩ := x
    dsimp only
    split
    · exact (Allocates.bind (.lift _) fun _ => .bind (.lift _) fun _ =>
        .modify fun _ => Cursor.store_sameAllocator ..).recordsBlocks
    · exact .bind (Allocates.modify fun _ => Cursor.store_sameAllocator ..).recordsBlocks
        fun _ => movePrevWithCleanup_recordsBlocks
  by_cases hinit : leaf.isInit
  · rw [if_pos hinit]
    by_cases hlen : leaf.len < newLen
    · rw [if_pos hlen]
      exact .bind (Allocates.throw _).recordsBlocks fun _ => hrest
    · rw [if_neg hlen]
      exact .bind (deallocate_recordsBlocks _ _ _) fun _ => hrest
  · rw [if_neg hinit]
    exact hrest

end Path

theorem Cursor.removeAfter_recordsBlocks (fuel : Nat) : RecordsBlocks (removeAfter fuel) := by
  have hloop : ∀ until_ n, RecordsBlocks (removeLoop until_ n) := by
    intro until_ n
    induction n with
    | zero => exact (Allocates.throw _).recordsBlocks
    | succ n ih =>
        refine .bind Allocates.get.recordsBlocks fun c => ?_
        refine .bind (Allocates.lift _).recordsBlocks fun leaf => ?_
        cases leaf with
        | none => exact (Allocates.pure _).recordsBlocks
        | some l =>
            dsimp only
            split
            · exact (Allocates.pure _).recordsBlocks
            · split
              · exact (Allocates.throw _).recordsBlocks
              · exact .bind (Path.truncateLast_recordsBlocks _) fun _ => ih
  have hload : FuelFree Path.loadPathToLast :=
    .bind (.modify fun _ => ⟨rfl, rfl, rfl⟩) fun _ => .bind .get fun _ =>
      .bind (Path.start_fuelFree _) fun _ => .bind (Path.descend_fuelFree (by simp) _ _) fun _ =>
        .modify fun _ => ⟨rfl, rfl, rfl⟩
  exact .bind Allocates.get.recordsBlocks fun c => .bind hload.allocates.recordsBlocks fun _ =>
    hloop _ _

theorem openAt_recordsBlocks (t : ExtentTree) {load : Nat → CursorM Unit}
    (h : ∀ fba, Allocates (load fba)) : RecordsBlocks (t.openAt load) := by
  intro c
  unfold ExtentTree.openAt
  split
  · split
    · exact ⟨[], (List.append_nil _).symm, nofun⟩
    · exact (h c.fba).recordsBlocks c
  · exact (h c.fba).recordsBlocks c

variable {t : ExtentTree} {fs : FileSystem} {events : List Event} {noload : Nat → Bytes}

theorem cursorFromFbaMut_blockEvents (ino fba : Nat) :
    BlockEvents (t.emptyCursor fs events noload ino fba)
      (t.cursorFromFbaMut fs events noload ino fba).2 :=
  openAt_recordsBlocks t (fun fba => (Path.loadMut_fuelFree fba).allocates) _

theorem Cursor.preallocLoop_blockEvents {fuel turns rem : Nat} {c : Cursor} (h : rem < 2 ^ 64) :
    BlockEvents c (c.preallocLoop fuel turns rem).2 := by
  -- On the rounds: each allocates and moves on.
  induction turns generalizing rem c with
  | zero => exact .refl c
  | succ turns ih =>
      unfold preallocLoop
      by_cases h0 : rem = 0
      · rw [if_pos h0]
        exact .refl c
      · rw [if_neg h0]
        have hcall := (orAllocatedMany_allocates fuel (Nat.pos_of_ne_zero h0) h
          false).recordsBlocks c
        split
        next heq => rwa [heq] at hcall
        next lba allocated c1 heq =>
          rw [heq] at hcall
          split
          · exact hcall
          · have hmove := (moveNextMany_fuelFree allocated).allocates.recordsBlocks c1
            split
            next heq' =>
              rw [heq'] at hmove
              exact hcall.trans hmove
            next c2 heq' =>
              rw [heq'] at hmove
              exact (hcall.trans hmove).trans (ih (by omega))

theorem prealloc_blockEvents {ino size fba fuel turns : Nat} (h : fba < 2 ^ 64) :
    BlockEvents (t.emptyCursor fs events noload ino 0)
      (t.prealloc fs events noload ino size fba fuel turns).2 := by
  unfold ExtentTree.prealloc
  split
  · exact .refl _
  · have hopen : BlockEvents (t.emptyCursor fs events noload ino 0)
        (t.cursorLastMut fs events noload ino).2 := by
      -- Opening the cursor only reads.
      rw [t.cursorLastMut_eq]
      exact Cursor.openLast_fuelFree.allocates.recordsBlocks _
    split
    next heq => rwa [heq] at hopen
    next c heq =>
      rw [heq] at hopen
      split
      · exact hopen.trans (Cursor.preallocLoop_blockEvents (by omega))
      · exact hopen

end RustExt4.Inode.Extent
