/-
  RustExt4.Transaction.Deltas

  What `Events::compress` collects, event by event: every part of the write-back
  group is a fold over the events, and only the bitmap blocks can stop it.
-/
import RustExt4.Transaction.Event

namespace RustExt4.Transaction

namespace Event

/-- The group whose delta the event changes. -/
def bgid : Event → Option Nat
  | .blockAllocationOnBg _ bgid _ _ _ => some bgid
  | .blockDeallocationOnBg _ bgid _ _ _ => some bgid
  | .inodeAllocationOnBg bgid _ _ _ => some bgid
  | .inodeDeallocationOnBg _ bgid _ _ _ => some bgid
  | _ => none

/-- How the event changes the delta of its group. -/
def onBg (e : Event) (d : BgDelta) : BgDelta :=
  match e with
  | .blockAllocationOnBg _ _ _ _ count =>
    { d with freeBlocksCntDelta := d.freeBlocksCntDelta - count }
  | .blockDeallocationOnBg _ _ _ _ count =>
    { d with freeBlocksCntDelta := d.freeBlocksCntDelta + count }
  | .inodeAllocationOnBg _ _ ofs de =>
    { d with
      freeInodesCntDelta := d.freeInodesCntDelta - 1
      usedDirsCntDelta := d.usedDirsCntDelta + if de = .directory then 1 else 0
      maxAllocIdxInBg := some (max (d.maxAllocIdxInBg.getD ofs) ofs) }
  | .inodeDeallocationOnBg _ _ _ _ de =>
    { d with
      freeInodesCntDelta := d.freeInodesCntDelta + 1
      usedDirsCntDelta := d.usedDirsCntDelta - if de = .directory then 1 else 0 }
  | _ => d

/-- How the event changes the delta of the superblock, if it does. -/
def onSb (e : Event) (d : Option SbDelta) : Option SbDelta :=
  match e with
  | .blockAllocationOnBg _ _ _ _ count =>
    some { d.getD {} with freeBlocksCntDelta := (d.getD {}).freeBlocksCntDelta - count }
  | .blockDeallocationOnBg _ _ _ _ count =>
    some { d.getD {} with freeBlocksCntDelta := (d.getD {}).freeBlocksCntDelta + count }
  | .freeInodesCountDecOnSb =>
    some { d.getD {} with freeInodesCntDelta := (d.getD {}).freeInodesCntDelta - 1 }
  | .freeInodesCountIncOnSb =>
    some { d.getD {} with freeInodesCntDelta := (d.getD {}).freeInodesCntDelta + 1 }
  | _ => d

/-- The operations on inode records that the event leaves to the write-back. -/
def inodeOps (inodesPerGroup : Nat) : Event → List InodeOps
  | .blockAllocationOnBg ino _ _ _ count => [.setBlock ino count]
  | .blockDeallocationOnBg ino _ _ _ _ => [.setBlock ino (-1)]
  | .inodeAllocationOnBg bgid _ ofs de => [.init (bgid * inodesPerGroup + ofs % 2 ^ 32 + 1) de]
  | .inodeDeallocationOnBg .. => []
  | .inodeSetSize ino size address => [.setSize ino size address]
  | .inodeAddLink ino => [.addLink ino]
  | .inodeRmLink ino => [.rmLink ino]
  | .inodeUpdateOrphanLink pred succ => [.updateOrphanLink pred succ]
  | .freeInodesCountDecOnSb => []
  | .freeInodesCountIncOnSb => []

/-- The number of an inode that the event allocates fits a `u32`. -/
def Numbered (inodesPerGroup : Nat) : Event → Prop
  | .inodeAllocationOnBg bgid _ ofs _ => bgid * inodesPerGroup + ofs % 2 ^ 32 + 1 < 2 ^ 32
  | _ => True

/-- The postludes that the event leaves to the collector. -/
def postludes : Event → List PostludeOps
  | .blockDeallocationOnBg _ bgid _ ofs count => [.blockDeallocation bgid ofs count]
  | .inodeDeallocationOnBg ino _ _ _ _ => [.inodeDeallocation ino]
  | _ => []

/-- The event's change of its bitmap block. -/
def onBlocks (e : Event) (blocks : Nat → Option Bytes) : Option (Nat → Option Bytes) :=
  let update (lba ofs count : Nat) (f : Bytes → Nat → Nat → Bytes) :=
    match blocks lba with
    | some blk =>
      if ofs + count ≤ 8 * blk.length ∨ count = 0 then
        some (Function.update blocks lba (some (f blk ofs count)))
      else none
    | none => none
  match e with
  | .blockAllocationOnBg _ _ lba ofs count => update lba ofs count setBitmap
  | .blockDeallocationOnBg _ _ lba ofs count => update lba ofs count unsetBitmap
  | .inodeAllocationOnBg _ lba ofs _ => update lba ofs 1 setBitmap
  | .inodeDeallocationOnBg _ _ lba ofs _ => update lba ofs 1 unsetBitmap
  | _ => some blocks

end Event

/-! ## The parts of an event's change -/

namespace Event

/-- The change of its group's free blocks. -/
def blocksDelta : Event → Int
  | .blockAllocationOnBg _ _ _ _ count => -count
  | .blockDeallocationOnBg _ _ _ _ count => count
  | _ => 0

/-- The change of its group's free inodes. -/
def inodesDelta : Event → Int
  | .inodeAllocationOnBg .. => -1
  | .inodeDeallocationOnBg .. => 1
  | _ => 0

/-- The change of its group's directories. -/
def dirsDelta : Event → Int
  | .inodeAllocationOnBg _ _ _ de => if de = .directory then 1 else 0
  | .inodeDeallocationOnBg _ _ _ _ de => -(if de = .directory then 1 else 0)
  | _ => 0

/-- The position that it allocates an inode at. -/
def allocIdx : Event → Option Nat
  | .inodeAllocationOnBg _ _ ofs _ => some ofs
  | _ => none

/-- The change of the superblock's free inodes. -/
def sbInodesDelta : Event → Int
  | .freeInodesCountDecOnSb => -1
  | .freeInodesCountIncOnSb => 1
  | _ => 0

end Event

/-- A sum over events. -/
def total (f : Event → Int) (events : List Event) : Int := (events.map f).sum

@[simp] theorem total_nil (f : Event → Int) : total f [] = 0 := rfl

@[simp] theorem total_cons (f : Event → Int) (e : Event) (es : List Event) :
    total f (e :: es) = f e + total f es := List.sum_cons

@[simp] theorem total_append (f : Event → Int) (es es' : List Event) :
    total f (es ++ es') = total f es + total f es' := by
  rw [total, List.map_append, List.sum_append]
  rfl

/-- The events on group `g`. -/
def eventsOn (g : Nat) (events : List Event) : List Event :=
  events.filter fun e => e.bgid = some g

theorem eventsOn_cons (g : Nat) (e : Event) (es : List Event) :
    eventsOn g (e :: es) = if e.bgid = some g then e :: eventsOn g es else eventsOn g es := by
  simp only [eventsOn, List.filter_cons, decide_eq_true_eq]

/-- The delta of group `g` after the events. -/
def bgDeltaAfter (events : List Event) (g : Nat) (d : Option BgDelta) : Option BgDelta :=
  events.foldl (fun d e => if e.bgid = some g then some (e.onBg (d.getD {})) else d) d

/-- The bitmap blocks after the events. -/
def blocksAfter : List Event → (Nat → Option Bytes) → Option (Nat → Option Bytes)
  | [], blocks => some blocks
  | e :: es, blocks => (e.onBlocks blocks).bind (blocksAfter es)

/-- What the events on one group make of its delta. -/
def onBgAll (events : List Event) (d : BgDelta) : BgDelta := events.foldl (fun d e => e.onBg d) d

theorem bgDeltaAfter_eq (events : List Event) (g : Nat) (d : Option BgDelta) :
    bgDeltaAfter events g d = if eventsOn g events = [] then d
      else some (onBgAll (eventsOn g events) (d.getD {})) := by
  induction events generalizing d with
  | nil => rfl
  | cons e events ih =>
      rw [bgDeltaAfter, List.foldl_cons, ← bgDeltaAfter, ih, eventsOn_cons]
      by_cases he : e.bgid = some g
      · rw [if_pos he, if_pos he, if_neg (List.cons_ne_nil _ _)]
        split
        next hnil => rw [hnil]; rfl
        next => rfl
      · rw [if_neg he, if_neg he]

theorem onBgAll_spec (es : List Event) (d : BgDelta) :
    (onBgAll es d).freeBlocksCntDelta = d.freeBlocksCntDelta + total Event.blocksDelta es ∧
    (onBgAll es d).freeInodesCntDelta = d.freeInodesCntDelta + total Event.inodesDelta es ∧
    (onBgAll es d).usedDirsCntDelta = d.usedDirsCntDelta + total Event.dirsDelta es := by
  induction es generalizing d with
  | nil => simp [onBgAll]
  | cons e es ih =>
      obtain ⟨h1, h2, h3⟩ := ih (e.onBg d)
      rw [onBgAll, List.foldl_cons, ← onBgAll, h1, h2, h3, total_cons, total_cons, total_cons]
      cases e <;> simp [Event.onBg, Event.blocksDelta, Event.inodesDelta, Event.dirsDelta] <;>
        omega

/-- The number of used positions that an allocated one leaves at least. -/
def usedUpTo (idx : Option Nat) (used : Nat) : Nat :=
  match idx with
  | some i => max used (i + 1)
  | none => used

/-- The highest index stands for all of them. -/
theorem usedUpTo_onBgAll (es : List Event) (d : BgDelta) (used : Nat) :
    usedUpTo (onBgAll es d).maxAllocIdxInBg used =
      es.foldl (fun used e => usedUpTo e.allocIdx used) (usedUpTo d.maxAllocIdxInBg used) := by
  induction es generalizing d with
  | nil => rfl
  | cons e es ih =>
      have hone : usedUpTo (e.onBg d).maxAllocIdxInBg used =
          usedUpTo e.allocIdx (usedUpTo d.maxAllocIdxInBg used) := by
        cases e with
        | inodeAllocationOnBg bgid lba ofs de =>
            cases hd : d.maxAllocIdxInBg with
            | none => simp [Event.onBg, Event.allocIdx, usedUpTo, hd]
            | some m =>
                simp only [Event.onBg, Event.allocIdx, usedUpTo, hd, Option.getD_some]
                omega
        | _ => rfl
      rw [onBgAll, List.foldl_cons, ← onBgAll, ih, hone, List.foldl_cons]

theorem onBgAll_idx (es : List Event) (d : BgDelta) :
    (onBgAll es d).maxAllocIdxInBg = none ↔
      d.maxAllocIdxInBg = none ∧ ∀ e ∈ es, e.allocIdx = none := by
  induction es generalizing d with
  | nil => simp [onBgAll]
  | cons e es ih =>
      rw [onBgAll, List.foldl_cons, ← onBgAll, ih, List.forall_mem_cons, ← and_assoc]
      cases e <;> simp [Event.onBg, Event.allocIdx]

namespace WritebackGroup

theorem updateBg_eq (w : WritebackGroup) (bgid : Nat) (f : BgDelta → BgDelta) :
    w.updateBg bgid f = { w with
      bgDeltas := fun g => if some bgid = some g then some (f ((w.bgDeltas g).getD {}))
        else w.bgDeltas g } := by
  rw [updateBg]
  congr 1
  funext g
  rw [Function.update_apply]
  by_cases hg : g = bgid
  · subst hg
    rw [if_pos rfl, if_pos rfl]
  · rw [if_neg hg, if_neg fun heq => hg (Option.some.inj heq).symm]

/-- What one event makes of the parts, given the bitmap blocks. -/
def after (n : Nat) (w : WritebackGroup) (e : Event) (blocks : Nat → Option Bytes) :
    WritebackGroup where
  bgDeltas := fun g => if e.bgid = some g then some (e.onBg ((w.bgDeltas g).getD {}))
    else w.bgDeltas g
  sbDelta := e.onSb w.sbDelta
  inodeOps := w.inodeOps ++ e.inodeOps n
  blocks := blocks
  postludes := w.postludes ++ e.postludes

/-- One event changes each part by itself. -/
theorem apply_eq_some {sb : SuperBlock} {w w' : WritebackGroup} {e : Event} :
    w.apply sb e = some w' ↔ e.Numbered sb.inodesPerGroup ∧
      ∃ blocks, e.onBlocks w.blocks = some blocks ∧
        w.after sb.inodesPerGroup e blocks = w' := by
  rw [← Option.map_eq_some_iff]
  cases e with
  | blockAllocationOnBg ino bgid lba ofs count =>
      simp only [apply, updateBg_eq, updateBitmap, updateSb, pushOp, Event.onBlocks]
      cases w.blocks lba with
      | none => simp
      | some blk => dsimp only; split <;> simp [after, Event.bgid, Event.onBg, Event.onSb,
          Event.inodeOps, Event.postludes, Event.Numbered]
  | blockDeallocationOnBg ino bgid lba ofs count =>
      simp only [apply, updateBg_eq, updateBitmap, updateSb, pushOp, pushPostlude, Event.onBlocks]
      cases w.blocks lba with
      | none => simp
      | some blk => dsimp only; split <;> simp [after, Event.bgid, Event.onBg, Event.onSb,
          Event.inodeOps, Event.postludes, Event.Numbered]
  | inodeAllocationOnBg bgid lba ofs de =>
      rw [apply, InodeNumber.fromBgidIndex]
      split
      next hfits =>
        have hnum : (Event.inodeAllocationOnBg bgid lba ofs de).Numbered sb.inodesPerGroup := hfits
        simp only [Option.bind_some, updateBg_eq, updateBitmap, pushOp, Event.onBlocks]
        cases w.blocks lba with
        | none => simp
        | some blk => dsimp only; split <;> simp [after, Event.bgid, Event.onBg, Event.onSb,
            Event.inodeOps, Event.postludes, hnum]
      next hfits =>
        have hnum : ¬ (Event.inodeAllocationOnBg bgid lba ofs de).Numbered sb.inodesPerGroup :=
          hfits
        simp [hnum]
  | inodeDeallocationOnBg ino bgid lba ofs de =>
      simp only [apply, updateBg_eq, updateBitmap, pushPostlude, Event.onBlocks]
      cases w.blocks lba with
      | none => simp
      | some blk => dsimp only; split <;> simp [after, Event.bgid, Event.onBg, Event.onSb,
          Event.inodeOps, Event.postludes, Event.Numbered]
  | _ => simp [apply, after, updateSb, pushOp, Event.bgid, Event.onSb, Event.inodeOps,
      Event.postludes, Event.onBlocks, Event.Numbered]

/-- `compress` part by part. -/
theorem compress_eq_some {sb : SuperBlock} {events : List Event} {w w' : WritebackGroup} :
    compress sb events w = some w' ↔ (∀ e ∈ events, e.Numbered sb.inodesPerGroup) ∧
      ∃ blocks, blocksAfter events w.blocks = some blocks ∧
        { bgDeltas := fun g => bgDeltaAfter events g (w.bgDeltas g)
          sbDelta := events.foldl (fun d e => e.onSb d) w.sbDelta
          inodeOps := w.inodeOps ++ events.flatMap (Event.inodeOps sb.inodesPerGroup)
          blocks := blocks
          postludes := w.postludes ++ events.flatMap Event.postludes } = w' := by
  induction events generalizing w with
  | nil => simp [compress, blocksAfter, bgDeltaAfter]
  | cons e events ih =>
      rw [compress, Option.bind_eq_some_iff, List.forall_mem_cons, blocksAfter]
      simp only [apply_eq_some, ih]
      constructor
      · rintro ⟨_, ⟨hnum, blocks, hblocks, rfl⟩, hrest, blocks', hafter, heq⟩
        refine ⟨⟨hnum, hrest⟩, blocks', ?_, ?_⟩
        · rw [hblocks]
          exact hafter
        · rw [← heq]
          simp only [after, bgDeltaAfter, List.foldl_cons, List.flatMap_cons, List.append_assoc]
      · rintro ⟨⟨hnum, hrest⟩, blocks', hafter, heq⟩
        obtain ⟨blocks, hblocks, hafter⟩ := Option.bind_eq_some_iff.mp hafter
        refine ⟨_, ⟨hnum, blocks, hblocks, rfl⟩, hrest, blocks', hafter, ?_⟩
        rw [← heq]
        simp only [after, bgDeltaAfter, List.foldl_cons, List.flatMap_cons, List.append_assoc]

end WritebackGroup
end RustExt4.Transaction
