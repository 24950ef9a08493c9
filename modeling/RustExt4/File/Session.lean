/-
  RustExt4.File.Session

  A file over one open transaction: `write_slices`, `for_each_lba_mut`, `set_size` and
  `truncate` (`file.rs`), in any order, and the commit.  The root of the extent tree goes to
  the disk in one event only, the one that `set_size` records where the size changes, and
  as it is at that moment.  So the record has the root of the last size change: a commit
  leaves on disk what is in memory just where the root has not changed since.

  `truncate` has a transaction of its own, which is committed first.  Where the open one
  holds a size change, that is written over the truncated root.
-/
import RustExt4.Transaction.Records
import RustExt4.File.Truncate
import RustExt4.Inode.Extent.Recording
import RustExt4.Lib.ExceptRun

namespace RustExt4.File

open StateExcept
open ExceptRun
open Inode (RawInodeAddressingMode fieldsOf initAddresses Manipulator.getAddressingMode)
open Inode.Extent
open Transaction (Event InodeOps Disk Applied mapAfter)

/-! ## The calls -/

/-- The loop of `for_each_lba_mut` with its callback, which knows the blocks that it has
    been handed and may fail. -/
def eachLba (fuel : Nat) (f : List Nat → Except Fault Unit) : Nat → List Nat → CursorM Unit
  | 0, _ => pure ()
  | n + 1, seen => do
    let lba ← Cursor.orAllocated fuel false
    if n ≠ 0 then Cursor.moveNextMany 1
    lift (f (seen ++ [lba]))
    eachLba fuel f n (seen ++ [lba])

/-- `write_slices` extends the file to here. -/
def writeEnd (blkSize ofs n : Nat) : Nat := ofs / blkSize % 2 ^ 32 + n * (4096 / blkSize)

/-- `truncate` up to its commit, with the events of its own transaction. -/
def truncateCut (fuel until_ : Nat) (f : OpenFile) : Except Fault (OpenFile × List Event) := do
  let target ← target f.fs.blkSize until_
  match f.addresses.cursorFromFbaMut f.fs [] (fun _ => []) f.ino (target % 2 ^ 32) with
  | (.error e, _) => throw e
  | (.ok (), c) =>
    match c.removeAfter fuel with
    | (.error e, _) => throw e
    | (.ok (), c) => do
      let addresses ← c.drop
      pure (setSize until_ { f with addresses := addresses, fs := c.fs } c.events)

theorem truncate_eq (fuel until_ : Nat) (f : OpenFile) :
    truncate fuel until_ f = (truncateCut fuel until_ f).bind fun x =>
      (x.1.fs.commit x.2).bind fun _ => .ok (x.1.size, x.1) := by
  unfold truncate truncateCut
  cases target f.fs.blkSize until_ with
  | error e => rfl
  | ok tgt =>
      show (match f.addresses.cursorFromFbaMut f.fs [] (fun _ => []) f.ino (tgt % 2 ^ 32) with
        | (.error e, _) => _
        | (.ok (), c) => _) = Except.bind (match f.addresses.cursorFromFbaMut f.fs []
          (fun _ => []) f.ino (tgt % 2 ^ 32) with
        | (.error e, _) => _
        | (.ok (), c) => _) _
      rcases f.addresses.cursorFromFbaMut f.fs [] (fun _ => []) f.ino (tgt % 2 ^ 32) with
        ⟨_ | _, c⟩
      · rfl
      · dsimp only
        rcases c.removeAfter fuel with ⟨_ | _, c'⟩
        · rfl
        · dsimp only
          cases c'.drop <;> rfl

/-- The file as a cursor leaves it.  The cached extent is that of the last cursor on the
    tree that was dropped, of this call or of a reader. -/
def OpenFile.left (f : OpenFile) (c : Cursor) (cache : Option Leaf) : OpenFile :=
  { f with addresses := { c.path.root with cache := cache }, fs := c.fs }

/-! ## The session -/

/-- A file with an open transaction, and the disk.  `recorded` is the root of the last
    change of size, for the statements only. -/
structure Session where
  file : OpenFile
  events : List Event
  disk : Disk
  recorded : RawInodeAddressingMode
  /-- The root has the sizes of its types. -/
  typed : (asRaw file.addresses).WF

namespace Session

/-- The root of the tree in memory. -/
def root (s : Session) : RawInodeAddressingMode := asRaw s.file.addresses

/-- The operations on inode records that the transaction holds. -/
def ops (n : Nat) (s : Session) : List InodeOps := s.events.flatMap (Event.inodeOps n)

/-- The transaction holds a size change of the file, or its creation. -/
def HoldsRoot (n : Nat) (s : Session) : Prop := ∃ op ∈ s.ops n, op.WritesMap s.file.ino

instance (n : Nat) (s : Session) : Decidable (s.HoldsRoot n) :=
  inferInstanceAs (Decidable (∃ op ∈ _, _))

end Session

/-- A call, a commit, or what others do meanwhile: to the file system, to the cached
    extent, to other inodes in this transaction, and to other records on disk. -/
inductive Step (sb : DescriptorSb) (s : Session) : Session → Prop
  /-- Behind `prealloc` the call reads the tree and writes to the blocks of the file. -/
  | writeSlices {ofs n fuel turns : Nat} {noload : Nat → Bytes} {r : Except Fault Unit}
      {c : Cursor} (cache : Option Leaf)
      (hcall : s.file.addresses.prealloc s.file.fs s.events noload s.file.ino s.file.size
        (writeEnd s.file.fs.blkSize ofs n) fuel turns = (.done r, c)) (hr : Returns r)
      (hend : writeEnd s.file.fs.blkSize ofs n < 2 ^ 32)
      (htyped : (asRaw (s.file.left c cache).addresses).WF) :
      Step sb s ⟨s.file.left c cache, c.events, s.disk, s.recorded, htyped⟩
  | forEachLbaMut {st len fuel : Nat} {noload : Nat → Bytes} {f : List Nat → Except Fault Unit}
      {r : Except Fault Unit} {c c' : Cursor} (cache : Option Leaf)
      (hopen : s.file.addresses.cursorFromFbaMut s.file.fs s.events noload s.file.ino st =
        (.ok (), c)) (hcall : eachLba fuel f len [] c = (r, c')) (hr : Returns r)
      (htyped : (asRaw (s.file.left c' cache).addresses).WF) :
      Step sb s ⟨s.file.left c' cache, c'.events, s.disk, s.recorded, htyped⟩
  | setSize {size : Nat} (hsize : size < 2 ^ 64)
      (htyped : (asRaw (setSize size s.file s.events).1.addresses).WF) :
      Step sb s ⟨(setSize size s.file s.events).1, (setSize size s.file s.events).2, s.disk,
        if s.file.size ≠ size then s.root else s.recorded, htyped⟩
  | truncate {until_ fuel : Nat} {f' : OpenFile} {events : List Event} {d' : Disk}
      (hsize : until_ < 2 ^ 64) (hcut : truncateCut fuel until_ s.file = .ok (f', events))
      (hcommit : Applied sb events s.disk d') (htyped : (asRaw f'.addresses).WF) :
      Step sb s ⟨f', s.events, d',
        if s.file.size ≠ until_ ∧ ¬ s.HoldsRoot sb.inodesPerGroup then asRaw f'.addresses
        else s.recorded, htyped⟩
  /-- A transaction with events panics where it is dropped. -/
  | truncateFails {x fuel : Nat} {e : FsError} {c c' : Cursor} (cache : Option Leaf)
      (hopen : s.file.addresses.cursorFromFbaMut s.file.fs [] (fun _ => []) s.file.ino x =
        (.ok (), c)) (hcut : c.removeAfter fuel = (.error (.err e), c')) (hnone : c'.events = [])
      (htyped : (asRaw (s.file.left c' cache).addresses).WF) :
      Step sb s ⟨s.file.left c' cache, s.events, s.disk, s.recorded, htyped⟩
  | commit {d' : Disk} (hcommit : Applied sb s.events s.disk d') :
      Step sb s ⟨s.file, [], d', s.recorded, s.typed⟩
  | other {fs : FileSystem} {d' : Disk} {events : List Event} (cache : Option Leaf)
      (hops : ∀ op ∈ events.flatMap (Event.inodeOps sb.inodesPerGroup),
        op.WF ∧ ¬ op.WritesMap s.file.ino)
      (hrec : d'.HasRecords) (hsame : d'.inodes s.file.ino = s.disk.inodes s.file.ino) :
      Step sb s ⟨{ s.file with
          addresses := { s.file.addresses with cache := cache }, fs := fs },
        s.events ++ events, d', s.recorded, s.typed⟩

/-- The file is opened, with the root of its record, or created, with an empty one. -/
inductive Start (sb : DescriptorSb) : Session → Prop
  | opened {f : OpenFile} {d : Disk} {raw : Bytes} (htyped : (asRaw f.addresses).WF)
      (hrec : d.HasRecords) (hraw : d.inodes f.ino = some raw)
      (hroot : Manipulator.getAddressingMode sb.toSuperBlock raw = asRaw f.addresses) :
      Start sb ⟨f, [], d, asRaw f.addresses, htyped⟩
  | created {f : OpenFile} {d : Disk} {raw : Bytes} {bgid lba ofs : Nat}
      (htyped : (asRaw f.addresses).WF)
      (hino : InodeNumber.fromBgidIndex sb.toSuperBlock bgid ofs = some f.ino)
      (hrec : d.HasRecords) (hraw : d.inodes f.ino = some raw)
      (hroot : initAddresses sb.toSuperBlock .regularFile = asRaw f.addresses) :
      Start sb ⟨f, [.inodeAllocationOnBg bgid lba ofs .regularFile, .freeInodesCountDecOnSb], d,
        asRaw f.addresses, htyped⟩

/-! ## The root that a commit leaves on disk -/

variable {sb : DescriptorSb} {s s' : Session}

/-- A commit makes the recorded root of the record. -/
structure Inv (sb : DescriptorSb) (s : Session) : Prop where
  hasRecords : s.disk.HasRecords
  wf : ∀ op ∈ s.ops sb.inodesPerGroup, op.WF
  map : ∃ raw, s.disk.inodes s.file.ino = some raw ∧
    mapAfter sb.toSuperBlock s.file.ino (s.ops sb.inodesPerGroup)
      (Manipulator.getAddressingMode sb.toSuperBlock raw) = s.recorded

theorem ops_of_ofBlocks {e : Event} (h : e.OfBlocks) (n ino : Nat) :
    ∀ op ∈ e.inodeOps n, op.WF ∧ ¬ op.WritesMap ino := by
  intro op hop
  cases e with
  | blockAllocationOnBg i g lba ofs count =>
      obtain rfl := List.mem_singleton.mp hop
      exact ⟨trivial, id⟩
  | blockDeallocationOnBg i g lba ofs count =>
      obtain rfl := List.mem_singleton.mp hop
      exact ⟨trivial, id⟩
  | _ => exact h.elim

/-- Events that do not write the map leave what is to be recorded alone. -/
theorem Inv.record {events : List Event} {f' : OpenFile} {d' : Disk}
    {htyped : (asRaw f'.addresses).WF} (h : Inv sb s) (hino : f'.ino = s.file.ino)
    (hops : ∀ op ∈ events.flatMap (Event.inodeOps sb.inodesPerGroup),
      op.WF ∧ ¬ op.WritesMap s.file.ino)
    (hrec : d'.HasRecords) (hsame : d'.inodes s.file.ino = s.disk.inodes s.file.ino) :
    Inv sb ⟨f', s.events ++ events, d', s.recorded, htyped⟩ := by
  obtain ⟨raw, hraw, hmap⟩ := h.map
  refine ⟨hrec, fun op hop => ?_, raw, ?_, ?_⟩
  · rw [Session.ops, List.flatMap_append] at hop
    rcases List.mem_append.mp hop with hop | hop
    · exact h.wf op hop
    · exact (hops op hop).1
  · show d'.inodes f'.ino = some raw
    rw [hino, hsame, hraw]
  · show mapAfter _ f'.ino _ _ = _
    rw [hino, Session.ops, List.flatMap_append, Transaction.mapAfter_append,
      Transaction.mapAfter_of_not_writesMap fun op hop => (hops op hop).2]
    exact hmap

/-- So do those that a cursor records. -/
theorem Inv.of_cursor {c : Cursor} {f' : OpenFile} {new : List Event}
    {htyped : (asRaw f'.addresses).WF} (h : Inv sb s) (hino : f'.ino = s.file.ino)
    (hevents : c.events = s.events ++ new) (hof : ∀ e ∈ new, e.OfBlocks) :
    Inv sb ⟨f', c.events, s.disk, s.recorded, htyped⟩ := by
  have hops : ∀ op ∈ new.flatMap (Event.inodeOps sb.inodesPerGroup),
      op.WF ∧ ¬ op.WritesMap s.file.ino := by
    intro op hop
    obtain ⟨e, he, hop⟩ := List.mem_flatMap.mp hop
    exact ops_of_ofBlocks (hof e he) _ _ op hop
  have hinv := @Inv.record sb s new f' s.disk htyped h hino hops h.hasRecords rfl
  rwa [← hevents] at hinv

theorem eachLba_recordsBlocks (fuel : Nat) (f : List Nat → Except Fault Unit) (n : Nat)
    (seen : List Nat) : RecordsBlocks (eachLba fuel f n seen) := by
  refine Allocates.recordsBlocks ?_
  induction n generalizing seen with
  | zero => exact .pure _
  | succ n ih =>
      refine .bind (.bind (Cursor.orAllocatedMany_allocates _ (by decide) (by decide) _)
        fun _ => .pure _) fun lba => ?_
      split
      · exact .bind (Cursor.moveNextMany_fuelFree _).allocates fun _ => .bind (.lift _) fun _ =>
          ih _
      · exact .bind (.lift _) fun _ => ih _

/-- A truncation records what it frees, and its size change with the root that it leaves. -/
theorem truncateCut_ok {fuel until_ : Nat} {f f' : OpenFile} {events : List Event}
    (h : truncateCut fuel until_ f = .ok (f', events)) :
    f'.ino = f.ino ∧ ∃ new, (∀ e ∈ new, e.OfBlocks) ∧
      events = new ++ if f.size ≠ until_ then [.inodeSetSize f.ino until_ (asRaw f'.addresses)]
        else [] := by
  unfold truncateCut at h
  obtain ⟨tgt, -, h⟩ := bind_eq_ok.mp h
  have hopen := @cursorFromFbaMut_blockEvents f.addresses f.fs [] (fun _ => []) f.ino
    (tgt % 2 ^ 32)
  split at h
  · cases h
  next c heq =>
    rw [heq] at hopen
    have hcut := Cursor.removeAfter_recordsBlocks fuel c
    split at h
    · cases h
    next c' heq' =>
      rw [heq'] at hcut
      obtain ⟨new, hnew, hof⟩ := hopen.trans hcut
      obtain ⟨t, -, h⟩ := bind_eq_ok.mp h
      have hnew : c'.events = new := hnew
      have h := Except.ok.inj h
      unfold setSize at h
      dsimp only at h
      split at h
      next hne =>
        obtain ⟨rfl, rfl⟩ := Prod.mk.inj h
        exact ⟨rfl, new, hof, by rw [if_pos hne, hnew]⟩
      next heq =>
        obtain ⟨rfl, rfl⟩ := Prod.mk.inj h
        exact ⟨rfl, new, hof, by rw [if_neg heq, hnew, List.append_nil]⟩

theorem Inv.setSize {size : Nat} (h : Inv sb s) (hsize : size < 2 ^ 64)
    {htyped : (asRaw (setSize size s.file s.events).1.addresses).WF} :
    Inv sb ⟨(setSize size s.file s.events).1, (setSize size s.file s.events).2, s.disk,
      if s.file.size ≠ size then s.root else s.recorded, htyped⟩ := by
  obtain ⟨raw, hraw, hmap⟩ := h.map
  by_cases hne : s.file.size ≠ size
  · have hops : (s.events ++ [Event.inodeSetSize s.file.ino size (asRaw s.file.addresses)]).flatMap
        (Event.inodeOps sb.inodesPerGroup) =
          s.ops sb.inodesPerGroup ++ [.setSize s.file.ino size s.root] := List.flatMap_append ..
    simp only [File.setSize, if_pos hne] at htyped ⊢
    refine ⟨h.hasRecords, fun op hop => ?_, raw, hraw, ?_⟩
    · rw [Session.ops, hops] at hop
      rcases List.mem_append.mp hop with hop | hop
      · exact h.wf op hop
      · obtain rfl := List.mem_singleton.mp hop
        exact ⟨hsize, s.typed⟩
    · show mapAfter _ s.file.ino (Session.ops _ _) _ = s.root
      rw [Session.ops, hops, Transaction.mapAfter_append]
      exact if_pos rfl
  · simp only [File.setSize, if_neg hne]
    exact ⟨h.hasRecords, h.wf, raw, hraw, hmap⟩

/-- A truncation puts the root that it leaves on disk, where it changes the size; a size
    change that the open transaction holds comes to the disk later. -/
theorem Inv.truncate {until_ fuel : Nat} {f' : OpenFile} {events : List Event} {d' : Disk}
    (h : Inv sb s) (hsize : until_ < 2 ^ 64)
    (hcut : truncateCut fuel until_ s.file = .ok (f', events))
    (hcommit : Applied sb events s.disk d') (htyped : (asRaw f'.addresses).WF) :
    Inv sb ⟨f', s.events, d',
      if s.file.size ≠ until_ ∧ ¬ s.HoldsRoot sb.inodesPerGroup then asRaw f'.addresses
      else s.recorded, htyped⟩ := by
  obtain ⟨raw, hraw, hmap⟩ := h.map
  obtain ⟨hino, new, hof, rfl⟩ := truncateCut_ok hcut
  have hnew : ∀ op ∈ new.flatMap (Event.inodeOps sb.inodesPerGroup),
      op.WF ∧ ¬ op.WritesMap s.file.ino := by
    intro op hop
    obtain ⟨e, he, hop⟩ := List.mem_flatMap.mp hop
    exact ops_of_ofBlocks (hof e he) _ _ op hop
  -- The record behind the truncation's own commit.
  have hdisk : d'.HasRecords ∧ ∃ raw', d'.inodes s.file.ino = some raw' ∧
      Manipulator.getAddressingMode sb.toSuperBlock raw' =
        if s.file.size ≠ until_ then asRaw f'.addresses
        else Manipulator.getAddressingMode sb.toSuperBlock raw := by
    have hwf : ∀ op ∈ (new ++ if s.file.size ≠ until_ then
        [Event.inodeSetSize s.file.ino until_ (asRaw f'.addresses)] else []).flatMap
          (Event.inodeOps sb.inodesPerGroup), op.WF := by
      intro op hop
      rw [List.flatMap_append] at hop
      rcases List.mem_append.mp hop with hop | hop
      · exact (hnew op hop).1
      · split at hop
        · obtain rfl := List.mem_singleton.mp hop
          exact ⟨hsize, htyped⟩
        · cases hop
    obtain ⟨hrec, raw', hraw', hread⟩ := hcommit.map h.hasRecords hwf hraw
    refine ⟨hrec, raw', hraw', hread.trans ?_⟩
    rw [List.flatMap_append, Transaction.mapAfter_append,
      Transaction.mapAfter_of_not_writesMap fun op hop => (hnew op hop).2]
    split
    · exact if_pos rfl
    · rfl
  obtain ⟨hrec, raw', hraw', hread⟩ := hdisk
  refine ⟨hrec, h.wf, raw', by rwa [hino], ?_⟩
  show mapAfter _ f'.ino (s.ops _) _ = if _ then _ else _
  rw [hino, hread]
  by_cases hholds : s.HoldsRoot sb.inodesPerGroup
  · have hkeep : ¬ (s.file.size ≠ until_ ∧ ¬ s.HoldsRoot sb.inodesPerGroup) :=
      fun hc => hc.2 hholds
    rw [if_neg hkeep, ← hmap]
    exact Transaction.mapAfter_of_writesMap hholds _ _ _
  · have hnone : ∀ op ∈ s.ops sb.inodesPerGroup, ¬ op.WritesMap s.file.ino :=
      fun op hop hw => hholds ⟨op, hop, hw⟩
    rw [Transaction.mapAfter_of_not_writesMap hnone] at hmap ⊢
    by_cases hne : s.file.size ≠ until_
    · rw [if_pos hne, if_pos ⟨hne, hholds⟩]
    · rw [if_neg hne, if_neg fun hc => hne hc.1]
      exact hmap

theorem Step.inv (hstep : Step sb s s') (h : Inv sb s) : Inv sb s' := by
  cases hstep with
  | @writeSlices ofs n fuel turns noload r c cache hcall hr hend htyped =>
      have hevents := @prealloc_blockEvents s.file.addresses s.file.fs s.events noload s.file.ino
        s.file.size (writeEnd s.file.fs.blkSize ofs n) fuel turns (by omega)
      rw [hcall] at hevents
      obtain ⟨new, hnew, hof⟩ := hevents
      exact h.of_cursor rfl hnew hof
  | @forEachLbaMut st len fuel noload f r c c' cache hopen hcall hr htyped =>
      have hevents := @cursorFromFbaMut_blockEvents s.file.addresses s.file.fs s.events noload
        s.file.ino st
      rw [hopen] at hevents
      have hloop := eachLba_recordsBlocks fuel f len [] c
      rw [hcall] at hloop
      obtain ⟨new, hnew, hof⟩ := hevents.trans hloop
      exact h.of_cursor rfl hnew hof
  | setSize hsize htyped => exact h.setSize hsize
  | truncate hsize hcut hcommit htyped => exact h.truncate hsize hcut hcommit htyped
  | @truncateFails x fuel e c c' cache hopen hcut hnone htyped =>
      exact ⟨h.hasRecords, h.wf, h.map⟩
  | @commit d' hcommit =>
      obtain ⟨raw, hraw, hmap⟩ := h.map
      obtain ⟨hrec, raw', hraw', hread⟩ := hcommit.map h.hasRecords h.wf hraw
      exact ⟨hrec, nofun, raw', hraw', hread.trans hmap⟩
  | other cache hops hrec hsame => exact h.record rfl hops hrec hsame

theorem Start.inv (h : Start sb s) : Inv sb s := by
  cases h with
  | opened htyped hrec hraw hroot => exact ⟨hrec, nofun, _, hraw, hroot⟩
  | @created f d raw bgid lba ofs htyped hino hrec hraw hroot =>
      refine ⟨hrec, fun op hop => ?_, raw, hraw, ?_⟩
      · obtain rfl := List.mem_singleton.mp hop
        exact trivial
      · exact (if_pos (InodeNumber.fromBgidIndex_eq_some hino).symm).trans hroot

/-- After any calls a commit makes the recorded root that of the record. -/
theorem Start.committed {s0 : Session} {d' : Disk} (hstart : Start sb s0)
    (hrun : Relation.ReflTransGen (Step sb) s0 s) (hcommit : Applied sb s.events s.disk d') :
    ∃ raw, d'.inodes s.file.ino = some raw ∧
      Manipulator.getAddressingMode sb.toSuperBlock raw = s.recorded := by
  have hinv : Inv sb s := by
    clear hcommit
    induction hrun with
    | refl => exact hstart.inv
    | tail _ hstep ih => exact hstep.inv ih
  obtain ⟨raw0, hraw0, hmap⟩ := hinv.map
  obtain ⟨-, raw, hraw, hread⟩ := hcommit.map hinv.hasRecords hinv.wf hraw0
  exact ⟨raw, hraw, hread.trans hmap⟩

/-- So it leaves the root of memory on disk if and only if that is the root that the last
    change of size found. -/
theorem root_on_disk_iff {s0 : Session} {d' : Disk} {raw : Bytes} (hstart : Start sb s0)
    (hrun : Relation.ReflTransGen (Step sb) s0 s) (hcommit : Applied sb s.events s.disk d')
    (hraw : d'.inodes s.file.ino = some raw) :
    Manipulator.getAddressingMode sb.toSuperBlock raw = s.root ↔ s.recorded = s.root := by
  obtain ⟨raw', hraw', hread⟩ := hstart.committed hrun hcommit
  obtain rfl : raw' = raw := Option.some.inj (hraw'.symm.trans hraw)
  rw [hread]

/-! ## Calls that leave the root alone -/

/-- A call that changes the size and records the root it leaves. -/
inductive Resizes (sb : DescriptorSb) (s : Session) : Session → Prop
  | setSize {size : Nat} (hsize : size < 2 ^ 64) (hne : s.file.size ≠ size)
      (htyped : (asRaw (setSize size s.file s.events).1.addresses).WF) :
      Resizes sb s
        ⟨(setSize size s.file s.events).1, (setSize size s.file s.events).2, s.disk, s.root, htyped⟩
  | truncate {until_ fuel : Nat} {f' : OpenFile} {events : List Event} {d' : Disk}
      (hsize : until_ < 2 ^ 64) (hne : s.file.size ≠ until_)
      (hholds : ¬ s.HoldsRoot sb.inodesPerGroup)
      (hcut : truncateCut fuel until_ s.file = .ok (f', events))
      (hcommit : Applied sb events s.disk d') (htyped : (asRaw f'.addresses).WF) :
      Resizes sb s ⟨f', s.events, d', asRaw f'.addresses, htyped⟩

/-- A call, a commit or a step of others that does not change the root. -/
def KeepsRoot (sb : DescriptorSb) (s s' : Session) : Prop := Step sb s s' ∧ s'.root = s.root

theorem Resizes.step (h : Resizes sb s s') : Step sb s s' := by
  cases h with
  | setSize hsize hne htyped =>
      have hstep := @Step.setSize sb s _ hsize htyped
      rwa [if_pos hne] at hstep
  | truncate hsize hne hholds hcut hcommit htyped =>
      have hstep := Step.truncate hsize hcut hcommit htyped
      rwa [if_pos ⟨hne, hholds⟩] at hstep

/-- A step records the root that it leaves, or nothing. -/
theorem Step.recorded_eq (hstep : Step sb s s') :
    s'.recorded = s'.root ∨ s'.recorded = s.recorded := by
  cases hstep with
  | @setSize size hsize htyped =>
      by_cases hne : s.file.size ≠ size
      · left
        show (if s.file.size ≠ size then s.root else s.recorded) =
          asRaw (File.setSize size s.file s.events).1.addresses
        rw [if_pos hne, File.setSize, if_pos hne]
        rfl
      · exact Or.inr (if_neg hne)
  | @truncate until_ fuel f' events d' hsize hcut hcommit htyped =>
      by_cases hc : s.file.size ≠ until_ ∧ ¬ s.HoldsRoot sb.inodesPerGroup
      · exact Or.inl (if_pos hc)
      · exact Or.inr (if_neg hc)
  | _ => exact Or.inr rfl

theorem Resizes.recorded_eq (h : Resizes sb s s') : s'.recorded = s'.root := by
  cases h with
  | @setSize size hsize hne htyped =>
      show s.root = asRaw (File.setSize size s.file s.events).1.addresses
      rw [File.setSize, if_pos hne]
      rfl
  | truncate hsize hne hholds hcut hcommit htyped => rfl

/-- Where no call changes the root behind the last change of size (or behind the opening,
    where there is none), the commit leaves the root of memory on disk. -/
theorem root_on_disk_of_kept {s0 s1 : Session} {d' : Disk} {raw : Bytes} (hstart : Start sb s0)
    (hlast : s1 = s0 ∨ ∃ s', Relation.ReflTransGen (Step sb) s0 s' ∧ Resizes sb s' s1)
    (hkept : Relation.ReflTransGen (KeepsRoot sb) s1 s)
    (hcommit : Applied sb s.events s.disk d') (hraw : d'.inodes s.file.ino = some raw) :
    Manipulator.getAddressingMode sb.toSuperBlock raw = s.root := by
  have hrun1 : Relation.ReflTransGen (Step sb) s0 s1 ∧ s1.recorded = s1.root := by
    rcases hlast with rfl | ⟨s', hrun, hresize⟩
    · refine ⟨.refl, ?_⟩
      cases hstart <;> rfl
    · exact ⟨hrun.tail hresize.step, hresize.recorded_eq⟩
  have hrun : Relation.ReflTransGen (Step sb) s0 s ∧ s.recorded = s.root := by
    clear hcommit hraw
    induction hkept with
    | refl => exact hrun1
    | tail _ hstep ih =>
        obtain ⟨hstep, hroot⟩ := hstep
        refine ⟨ih.1.tail hstep, hstep.recorded_eq.elim id fun hsame => ?_⟩
        rw [hsame, ih.2, hroot]
  obtain ⟨raw', hraw', hread⟩ := hstart.committed hrun.1 hcommit
  obtain rfl : raw' = raw := Option.some.inj (hraw'.symm.trans hraw)
  rw [hread, hrun.2]

/-! ## A block in an empty file -/

/-- `BlockRuns.twoFree`, with extents. -/
def extentsSb : DescriptorSb :=
  { BlockRuns.twoFree.sb with
    featuresIncompatible := Inode.featureExtents, blocksCount := 32768, inodesCount := 8192
    blockDescSize := 32, blkSize := 4096 }

/-- The record of a new file. -/
def newRecord : Bytes :=
  (Inode.Manipulator.init extentsSb.toSuperBlock (List.replicate 256 0) .regularFile).getD []

def newDisk : Disk :=
  { descs := fun g => if g = 0 then some ⟨2, 8180, 2, 8180⟩ else none
    blocks := BlockRuns.twoFree.blocks, inodes := fun _ => some newRecord
    orphanedInode := fun _ => none
    freeBlocksCount := 2, freeInodesCount := 8180, lastOrphan := 0 }

/-- An empty file. -/
def emptyFile : OpenFile :=
  { ino := 12, size := 0, addresses := {}
    fs := { BlockRuns.twoFree with sb := extentsSb.toSuperBlock } }

theorem rootTyped_empty : (asRaw {}).WF := ⟨by decide, by decide, by decide, rfl⟩

/-- The file when it is opened. -/
def newSession : Session := ⟨emptyFile, [], newDisk, asRaw {}, rootTyped_empty⟩

theorem start_newSession : Start extentsSb newSession :=
  .opened rootTyped_empty
    (fun _ raw hraw => Option.some.inj hraw ▸ show 128 ≤ newRecord.length by decide +kernel)
    rfl (by decide +kernel)

/-- A size change records the root. -/
theorem Step.resize {size : Nat} (hsize : size < 2 ^ 64) (hne : s.file.size ≠ size) :
    Step sb s ⟨{ s.file with size := size },
      s.events ++ [.inodeSetSize s.file.ino size s.root], s.disk, s.root, s.typed⟩ := by
  have hfile : (File.setSize size s.file s.events).1 = { s.file with size := size } := by
    rw [File.setSize, if_pos hne]
  have hstep := @Step.setSize sb s size hsize (hfile ▸ s.typed)
  simp only [File.setSize, if_pos hne] at hstep
  exact hstep

/-- The root of the tree when block 0 of the file is block 8. -/
def rootOfEight : RawInodeAddressingMode :=
  .extent 1 4 0 ([0, 0, 0, 0, 1, 0, 0, 0, 8, 0, 0, 0] ++ List.replicate 36 0)

theorem rootTyped_eight : rootOfEight.WF := ⟨by decide, by decide, by decide, rfl⟩

/-- `for_each_lba_mut` gives the empty file block 8. -/
theorem exists_oneBlock {events : List Event}
    (h : events = [] ∨ events = [.inodeSetSize 12 4096 (asRaw {})]) :
    ∃ c c', emptyFile.addresses.cursorFromFbaMut emptyFile.fs events (fun _ => []) 12 0 =
        (.ok (), c) ∧
      eachLba 3 (fun _ => .ok ()) 1 [] c = (.ok (), c') ∧
      c'.events = events ++ [.blockAllocationOnBg 12 0 2 8 1] ∧
      asRaw c'.path.root = rootOfEight := by
  rcases h with rfl | rfl
  · exact ⟨_, _, rfl, Prod.ext (by decide +kernel) rfl, by decide +kernel, by decide +kernel⟩
  · exact ⟨_, _, rfl, Prod.ext (by decide +kernel) rfl, by decide +kernel, by decide +kernel⟩

/-- The block comes first, and then the size. -/
theorem root_on_disk_iff_sizeLast : ∃ (s : Session) (d' : Disk) (raw : Bytes),
    Relation.ReflTransGen (Step extentsSb) newSession s ∧
      Applied extentsSb s.events s.disk d' ∧ d'.inodes s.file.ino = some raw ∧
      Manipulator.getAddressingMode extentsSb.toSuperBlock raw = s.root := by
  obtain ⟨c, c', hopen, hcall, hevents, hroot⟩ := exists_oneBlock (Or.inl rfl)
  have h1 := @Step.forEachLbaMut extentsSb newSession 0 1 3 (fun _ => []) (fun _ => .ok ())
    (.ok ()) c c' none hopen hcall trivial (hroot ▸ rootTyped_eight)
  have hrun := (Relation.ReflTransGen.single h1).tail
    (@Step.resize extentsSb _ 4096 (by decide) (show (0 : Nat) ≠ 4096 by decide))
  obtain ⟨d', hcommit⟩ := Transaction.ok_of_isOk (x := Transaction.commit extentsSb
    [.blockAllocationOnBg 12 0 2 8 1, .inodeSetSize 12 4096 rootOfEight] newDisk)
    (by decide +kernel)
  have happlied : Applied extentsSb (c'.events ++ [.inodeSetSize 12 4096 (asRaw c'.path.root)])
      newDisk d' := by
    rw [hevents, hroot]
    exact Transaction.applied_of_commit hcommit
  obtain ⟨raw, hraw, -⟩ := start_newSession.committed hrun happlied
  exact ⟨_, d', raw, hrun, happlied, hraw,
    (root_on_disk_iff start_newSession hrun happlied hraw).mpr rfl⟩

/-- The size comes first, so that the root with the block never reaches the disk. -/
theorem root_stays_behind : Start extentsSb newSession ∧ ∃ (s : Session) (d' : Disk) (raw : Bytes),
    Relation.ReflTransGen (Step extentsSb) newSession s ∧
      Applied extentsSb s.events s.disk d' ∧ d'.inodes s.file.ino = some raw ∧
      Manipulator.getAddressingMode extentsSb.toSuperBlock raw ≠ s.root := by
  obtain ⟨c, c', hopen, hcall, hevents, hroot⟩ := exists_oneBlock (Or.inr rfl)
  have h1 : Step extentsSb newSession _ :=
    @Step.resize extentsSb newSession 4096 (by decide) (by decide)
  have hrun := (Relation.ReflTransGen.single h1).tail
    (.forEachLbaMut (f := fun _ => .ok ()) none hopen hcall trivial (hroot ▸ rootTyped_eight))
  obtain ⟨d', hcommit⟩ := Transaction.ok_of_isOk (x := Transaction.commit extentsSb
    [.inodeSetSize 12 4096 (asRaw {}), .blockAllocationOnBg 12 0 2 8 1] newDisk)
    (by decide +kernel)
  have happlied : Applied extentsSb c'.events newDisk d' := by
    rw [hevents]
    exact Transaction.applied_of_commit hcommit
  obtain ⟨raw, hraw, hread⟩ := start_newSession.committed hrun happlied
  refine ⟨start_newSession, _, d', raw, hrun, happlied, hraw, ?_⟩
  rw [hread]
  show asRaw {} ≠ asRaw c'.path.root
  rw [hroot]
  decide

end RustExt4.File
