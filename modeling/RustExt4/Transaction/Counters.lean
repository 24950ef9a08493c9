/-
  RustExt4.Transaction.Counters

  The free counters in memory against those on disk.  Both are kept up to 2^32: an
  allocation changes the counter in memory at once and that on disk when its event is
  written back, a deallocation changes that on disk first and that in memory by the
  postlude.  The difference is what the open transactions hold, and none is held when
  no transaction is open.
-/
import RustExt4.Transaction.System
import RustExt4.Transaction.Batch
import RustExt4.Inode.AllocatorRuns
import Mathlib.Data.Int.ModEq
import Mathlib.Algebra.BigOperators.Ring.Finset

namespace RustExt4.Transaction

open Inode (Allocator InodeGroup)

/-! ## Wrapping arithmetic -/

/-- The addition stays in the type, and moves the counter by `n` up to 2^32. -/
theorem fetchAdd_moves (x n : Nat) :
    fetchAdd x n < 2 ^ 32 ∧ (fetchAdd x n : Int) - x ≡ n [ZMOD 2 ^ 32] := by
  refine ⟨Nat.mod_lt _ (by decide), ?_⟩
  unfold fetchAdd Int.ModEq
  omega

theorem fetchSub_moves (x n : Nat) :
    fetchSub x n < 2 ^ 32 ∧ (fetchSub x n : Int) - x ≡ -n [ZMOD 2 ^ 32] := by
  refine ⟨Nat.mod_lt _ (by decide), ?_⟩
  unfold fetchSub Int.ModEq
  omega

/-! ## Counters -/

/-- The counters that are kept in memory and on disk. -/
inductive Counter
  | blocks (g : Nat)
  | inodes (g : Nat)
  | sbInodes
  deriving DecidableEq

namespace Counter

/-- The counter is that of a group of the file system, or the superblock's. -/
def InRange (sb : SuperBlock) : Counter → Prop
  | .blocks g => g < sb.bgCount
  | .inodes g => g < sb.bgCount
  | .sbInodes => True

/-- The value in memory; of a group that is not loaded, 0. -/
def mem (c : Store) : Counter → Nat
  | .blocks g => ((c.fs.blockGroups g).map (·.freeBlocksCount)).getD 0
  | .inodes g => ((c.inodes.groups g).map (·.freeInodesCount)).getD 0
  | .sbInodes => c.inodes.freeInodesCount

/-- The value on disk; of a descriptor that cannot be read, 0. -/
def disk (d : Disk) : Counter → Nat
  | .blocks g => ((d.descs g).map (·.freeBlocksCount)).getD 0
  | .inodes g => ((d.descs g).map (·.freeInodesCount)).getD 0
  | .sbInodes => d.freeInodesCount

/-- The change in memory when the event is recorded. -/
def atEvent : Counter → Event → Int
  | .blocks g, .blockAllocationOnBg _ bgid _ _ count => if bgid = g then -count else 0
  | .inodes g, .inodeAllocationOnBg bgid _ _ _ => if bgid = g then -1 else 0
  | .sbInodes, .freeInodesCountDecOnSb => -1
  | _, _ => 0

/-- The change in memory by a postlude. -/
def atPostlude (sb : SuperBlock) : Counter → PostludeOps → Int
  | .blocks g, .blockDeallocation bgid _ count => if bgid = g then count else 0
  | .inodes g, .inodeDeallocation ino =>
    if (InodeNumber.intoBgidIndex sb ino).map Prod.fst = some g then 1 else 0
  | .sbInodes, .inodeDeallocation _ => 1
  | _, _ => 0

/-- The change on disk when the event is written back. -/
def atFlush : Counter → Event → Int
  | .blocks g, e => if e.bgid = some g then e.blocksDelta else 0
  | .inodes g, e => if e.bgid = some g then e.inodesDelta else 0
  | .sbInodes, e => e.sbInodesDelta

/-- What the postludes are still to change in memory. -/
def atPostludes (sb : SuperBlock) (a : Counter) (postludes : List PostludeOps) : Int :=
  (postludes.map (a.atPostlude sb)).sum

/-- What the transaction has changed in memory and not on disk. -/
def pending (sb : SuperBlock) (a : Counter) : Tx → Int
  | .active events => total a.atEvent events
  | .flushed postludes => -a.atPostludes sb postludes

end Counter

/-! ## What calls record -/

/-- The lists of events that calls record: an inode's event comes with that of the
    superblock, and each group is one of the file system. -/
inductive Records (sb : SuperBlock) : List Event → Prop
  | nil : Records sb []
  | blockAllocation {events : List Event} {ino g lba ofs count : Nat} (h : Records sb events)
      (hg : g < sb.bgCount) :
      Records sb (events ++ [.blockAllocationOnBg ino g lba ofs count])
  | blockDeallocation {events : List Event} {ino g lba ofs count : Nat} (h : Records sb events)
      (hg : g < sb.bgCount) :
      Records sb (events ++ [.blockDeallocationOnBg ino g lba ofs count])
  | inodeAllocation {events : List Event} {g lba ofs : Nat} {de : FileType}
      (h : Records sb events) (hg : g < sb.bgCount) :
      Records sb (events ++ [.inodeAllocationOnBg g lba ofs de, .freeInodesCountDecOnSb])
  | inodeDeallocation {events : List Event} {ino g lba ofs i : Nat} {de : FileType}
      (h : Records sb events) (hg : g < sb.bgCount)
      (hino : InodeNumber.intoBgidIndex sb ino = some (g, i)) :
      Records sb (events ++ [.inodeDeallocationOnBg ino g lba ofs de, .freeInodesCountIncOnSb])
  | record {events : List Event} {e : Event} (h : Records sb events) (he : e.OnRecord) :
      Records sb (events ++ [e])

theorem Event.OnRecord.atEvent {e : Event} (h : e.OnRecord) (a : Counter) : a.atEvent e = 0 := by
  cases e <;> first | exact absurd h id | cases a <;> rfl

theorem balanced_append {sb : SuperBlock} {events es : List Event} {a : Counter}
    (h : total a.atFlush events =
      total a.atEvent events + a.atPostludes sb (events.flatMap Event.postludes))
    (hes : total a.atFlush es =
      total a.atEvent es + a.atPostludes sb (es.flatMap Event.postludes)) :
    total a.atFlush (events ++ es) = total a.atEvent (events ++ es) +
      a.atPostludes sb ((events ++ es).flatMap Event.postludes) := by
  rw [total_append, total_append, List.flatMap_append, Counter.atPostludes, List.map_append,
    List.sum_append, ← Counter.atPostludes, ← Counter.atPostludes, h, hes]
  omega

/-- An event changes as much in memory, when it is recorded and by its postlude, as it
    does on disk. -/
theorem Records.balanced {sb : SuperBlock} {events : List Event} (h : Records sb events)
    (a : Counter) : total a.atFlush events =
      total a.atEvent events + a.atPostludes sb (events.flatMap Event.postludes) := by
  induction h with
  | nil => cases a <;> rfl
  | inodeDeallocation _ _ hino ih =>
      apply balanced_append ih
      cases a <;> simp [Counter.atFlush, Counter.atEvent, Counter.atPostlude, Event.bgid,
        Event.blocksDelta, Event.inodesDelta, Event.sbInodesDelta, Event.postludes,
        Counter.atPostludes, hino]
  | @record _ e _ he ih =>
      apply balanced_append ih
      cases e <;> first
        | exact absurd he id
        | cases a <;> rfl
  | _ _ _ ih =>
      apply balanced_append ih
      cases a <;> simp [Counter.atFlush, Counter.atEvent, Counter.atPostlude, Event.bgid,
        Event.blocksDelta, Event.inodesDelta, Event.sbInodesDelta, Event.postludes,
        Counter.atPostludes]

/-- A block allocation takes its blocks from the counter of its group. -/
theorem allocate_counters {fs fs' : FileSystem} {events events' : List Event}
    {ino size hope : Nat} {r : Except Fault (Nat × Nat)}
    (h : fs.allocate events ino size hope = (r, fs', events')) :
    fs'.sb = fs.sb ∧ ((fs'.blockGroups = fs.blockGroups ∧ events' = events) ∨
      ∃ g bg index count, g < fs.sb.bgCount ∧ fs.blockGroups g = some bg ∧
        fs'.blockGroups = Function.update fs.blockGroups g
          (some { bg with freeBlocksCount := fetchSub bg.freeBlocksCount count }) ∧
        events' = events ++ [.blockAllocationOnBg ino g bg.blockBitmapLba index count]) := by
  unfold FileSystem.allocate at h
  split at h
  · cases h
    exact ⟨rfl, Or.inl ⟨rfl, rfl⟩⟩
  · cases h
    exact ⟨rfl, Or.inl ⟨rfl, rfl⟩⟩
  · dsimp only at h
    split at h
    · cases h
      exact ⟨rfl, Or.inl ⟨rfl, rfl⟩⟩
    next g index hinto =>
      unfold FileSystem.getBlockGroup at h
      cases hbg : fs.blockGroups g with
      | none =>
          simp only [hbg] at h
          cases h
          exact ⟨rfl, Or.inl ⟨rfl, rfl⟩⟩
      | some bg =>
          simp only [hbg] at h
          cases h
          exact ⟨rfl, Or.inr ⟨g, bg, index, _, (SuperBlock.intoBgidIndex_lt hinto).1, hbg, rfl,
            rfl⟩⟩

/-- A block deallocation only records events, which no counter in memory follows yet. -/
theorem deallocate_records {fs : FileSystem} {events events' : List Event} {ino lba size : Nat}
    {r : Except Fault Unit} (h : fs.deallocate events ino lba size = (r, events'))
    (hrec : Records fs.sb events) :
    Records fs.sb events' ∧ ∀ a : Counter, total a.atEvent events' = total a.atEvent events := by
  have hrounds : Records fs.sb events → Records fs.sb (fs.deallocate events ino lba size).2 ∧
      ∀ a : Counter, total a.atEvent (fs.deallocate events ino lba size).2 =
        total a.atEvent events := by
    refine FileSystem.deallocate_rounds (P := fun events _ _ res => Records fs.sb events →
      Records fs.sb res.2 ∧ ∀ a : Counter, total a.atEvent res.2 = total a.atEvent events)
      (fun _ _ _ _ hrec => ⟨hrec, fun _ => rfl⟩) ?_ events lba size
    intro events lba size g ofs bg count res _ hinto _ _ _ _ ih hrec
    obtain ⟨hrec', htotal⟩ := ih (.blockDeallocation hrec (SuperBlock.intoBgidIndex_lt hinto).1)
    refine ⟨hrec', fun a => ?_⟩
    rw [htotal, total_append]
    -- The event changes its counter at the flush and by its postlude, not before.
    cases a <;> simp [Counter.atEvent]
  rw [h] at hrounds
  exact hrounds hrec

/-- The postlude of a block deallocation gives the blocks to the counter of their group. -/
theorem applyDeallocationOnCore_counters {fs fs' : FileSystem} {g ofs count : Nat}
    (h : fs.applyDeallocationOnCore g ofs count = .ok fs') :
    ∃ bg, fs.blockGroups g = some bg ∧ fs'.sb = fs.sb ∧
      fs'.blockGroups = Function.update fs.blockGroups g
        (some { bg with freeBlocksCount := fetchAdd bg.freeBlocksCount count }) := by
  unfold FileSystem.applyDeallocationOnCore FileSystem.getBlockGroup at h
  cases hbg : fs.blockGroups g with
  | none => simp [hbg] at h
  | some bg =>
      simp only [hbg] at h
      split at h
      · cases h
      · cases h
        exact ⟨bg, rfl, rfl, rfl⟩

/-- The loop of an inode allocation takes one number from a group, with its counters,
    or leaves all counters. -/
theorem allocateIn_counters {s s' : Allocator} {events events' : List Event} {de : FileType}
    {order : List Nat} {r : Except Fault Nat} (horder : ∀ g ∈ order, g < s.sb.bgCount)
    (h : s.allocateIn events de order = (r, s', events')) :
    s'.sb = s.sb ∧ ((s'.groups = s.groups ∧ s'.freeInodesCount = s.freeInodesCount ∧
        events' = events) ∨
      ∃ g bg index, g < s.sb.bgCount ∧ s.groups g = some bg ∧
        s'.groups = Function.update s.groups g
          (some { bg with freeInodesCount := fetchSub bg.freeInodesCount 1 }) ∧
        s'.freeInodesCount = fetchSub s.freeInodesCount 1 ∧
        events' = events ++
          [.inodeAllocationOnBg g bg.inodeBitmapLba index de, .freeInodesCountDecOnSb]) := by
  induction order with
  | nil =>
      cases h
      exact ⟨rfl, Or.inl ⟨rfl, rfl, rfl⟩⟩
  | cons g order ih =>
      have hg := horder g List.mem_cons_self
      -- A group without a free inode leaves the search to the next ones.
      have hrest := ih fun g' hg' => horder g' (List.mem_cons_of_mem g hg')
      unfold Allocator.allocateIn at h
      split at h
      · cases h
        exact ⟨rfl, Or.inl ⟨rfl, rfl, rfl⟩⟩
      next bg hbg =>
        split at h
        next hfree =>
          unfold Allocator.getFreeIno at h
          cases hblk : s.bitmap g with
          | none =>
              simp only [hblk] at h
              cases h
              exact ⟨rfl, Or.inl ⟨rfl, rfl, rfl⟩⟩
          | some bitmap =>
              cases hfind : Inode.findFree bitmap 0 with
              | none =>
                  simp only [hblk, hfind] at h
                  exact hrest h
              | some ofs =>
                  simp only [hblk, hfind] at h
                  split at h <;> cases h <;>
                    exact ⟨rfl, Or.inr ⟨g, bg, _, hg, hbg, rfl, rfl, rfl⟩⟩
        next => exact hrest h

theorem allocateInode_counters {s s' : Allocator} {events events' : List Event} {de : FileType}
    {r : Except Fault Nat} (h : s.allocate events de = (r, s', events')) :
    s'.sb = s.sb ∧ ((s'.groups = s.groups ∧ s'.freeInodesCount = s.freeInodesCount ∧
        events' = events) ∨
      ∃ g bg index, g < s.sb.bgCount ∧ s.groups g = some bg ∧
        s'.groups = Function.update s.groups g
          (some { bg with freeInodesCount := fetchSub bg.freeInodesCount 1 }) ∧
        s'.freeInodesCount = fetchSub s.freeInodesCount 1 ∧
        events' = events ++
          [.inodeAllocationOnBg g bg.inodeBitmapLba index de, .freeInodesCountDecOnSb]) := by
  unfold Allocator.allocate at h
  split at h
  · cases h
    exact ⟨rfl, Or.inl ⟨rfl, rfl, rfl⟩⟩
  · exact allocateIn_counters (fun g hg => Allocator.mem_scanOrder.mp hg) h

/-- An inode deallocation only records events. -/
theorem deallocateInode_records {s : Allocator} {events events' : List Event} {ino : Nat}
    {de : FileType} {r : Except Fault Unit} (h : s.deallocate events ino de = (r, events'))
    (hrec : Records s.sb events) :
    Records s.sb events' ∧ ∀ a : Counter, total a.atEvent events' = total a.atEvent events := by
  unfold Allocator.deallocate at h
  split at h
  · cases h
    exact ⟨hrec, fun _ => rfl⟩
  next g ofs hinto =>
    split at h
    · cases h
      exact ⟨hrec, fun _ => rfl⟩
    next hg =>
      split at h
      · cases h
        exact ⟨hrec, fun _ => rfl⟩
      · split at h
        · cases h
          -- The two events change their counters at the flush and by the postlude.
          refine ⟨.inodeDeallocation hrec (Nat.lt_of_not_le hg) hinto, fun a => ?_⟩
          rw [total_append]
          cases a <;> simp [Counter.atEvent]
        · cases h
          exact ⟨hrec, fun _ => rfl⟩

/-! ## The write-back -/

theorem total_eventsOn (f : Event → Int) (g : Nat) (events : List Event) :
    total f (eventsOn g events) = total (fun e => if e.bgid = some g then f e else 0) events := by
  induction events with
  | nil => rfl
  | cons e events ih =>
      rw [eventsOn_cons, total_cons, ← ih]
      split
      next => rw [total_cons]
      next => rw [Int.zero_add]

/-- The groups' changes add up to that of all events. -/
theorem sum_eventsOn {n : Nat} {f : Event → Int} {events : List Event}
    (hnone : ∀ e : Event, e.bgid = none → f e = 0)
    (hlt : ∀ e ∈ events, ∀ g, e.bgid = some g → g < n) :
    ∑ g ∈ Finset.range n, total f (eventsOn g events) = total f events := by
  induction events with
  | nil => exact Finset.sum_const_zero
  | cons e events ih =>
      have hone : ∑ g ∈ Finset.range n, (if e.bgid = some g then f e else 0) = f e := by
        cases hg : e.bgid with
        | none => simp [hnone e hg]
        | some g =>
            have hmem := Finset.mem_range.mpr (hlt e List.mem_cons_self g hg)
            simp only [Option.some.injEq]
            rw [Finset.sum_ite_eq, if_pos hmem]
      rw [total_cons, ← ih fun e' he' => hlt e' (List.mem_cons_of_mem e he'), ← hone,
        ← Finset.sum_add_distrib]
      refine Finset.sum_congr rfl fun g _ => ?_
      rw [total_eventsOn, total_cons, ← total_eventsOn]

theorem Records.bgid_lt {sb : SuperBlock} {events : List Event} (h : Records sb events) :
    ∀ e ∈ events, ∀ g, e.bgid = some g → g < sb.bgCount := by
  induction h with
  | nil => simp
  | record _ he ih =>
      intro e' he' g hg
      rcases List.mem_append.mp he' with hmem | hmem
      · exact ih e' hmem g hg
      · obtain rfl := List.mem_singleton.mp hmem
        cases e' <;> first | exact absurd he id | cases hg
  | blockAllocation _ hlt ih | blockDeallocation _ hlt ih | inodeAllocation _ hlt ih
  | inodeDeallocation _ hlt _ ih =>
      intro e he g hg
      rcases List.mem_append.mp he with hmem | hmem
      · exact ih e hmem g hg
      · simp only [List.mem_cons, List.not_mem_nil, or_false] at hmem
        rcases hmem with rfl | rfl <;> cases hg
        exact hlt

/-- Inodes leave and join their groups and the superblock alike. -/
theorem Records.inodesDelta {sb : SuperBlock} {events : List Event} (h : Records sb events) :
    total Event.sbInodesDelta events = total Event.inodesDelta events := by
  induction h with
  | nil => rfl
  | @record _ e _ he ih =>
      rw [total_append, total_append, ih]
      cases e <;> first | exact absurd he id | rfl
  | blockAllocation _ _ ih | blockDeallocation _ _ ih | inodeAllocation _ _ ih
  | inodeDeallocation _ _ _ ih =>
      rw [total_append, total_append, ih]
      simp [Event.sbInodesDelta, Event.inodesDelta]

/-- A descriptor that can be read takes the changes its group's events add up to. -/
theorem Applied.descriptor {sb : DescriptorSb} {events : List Event} {d d' : Disk}
    (h : Applied sb events d d') {g : Nat} (hg : (d.descs g).isSome) :
    ∃ desc desc', d.descs g = some desc ∧ d'.descs g = some desc' ∧
      submitBlockGroup sb g (onBgAll (eventsOn g events) {}) desc = .ok desc' := by
  obtain ⟨desc, hdesc⟩ := Option.isSome_iff_exists.mp hg
  have hafter := h.spec.desc g
  rw [hdesc] at hafter
  obtain ⟨desc', hdesc', hsub⟩ := hafter
  exact ⟨desc, desc', hdesc, hdesc', hsub⟩

/-- Every loaded counter on disk moves by what the events make of it. -/
theorem Applied.counter {sb : DescriptorSb} {events : List Event} {d d' : Disk}
    (h : Applied sb events d d') (hdescs : ∀ g < sb.bgCount, (d.descs g).isSome) {a : Counter}
    (ha : a.InRange sb.toSuperBlock) :
    (a.disk d' : Int) = a.disk d + total a.atFlush events := by
  cases a with
  | sbInodes => exact h.spec.freeInodesCount
  | blocks g =>
      obtain ⟨desc, desc', hdesc, hdesc', hsub⟩ := h.descriptor (hdescs g ha)
      have hb := (submitBlockGroup_spec hsub).1
      rw [(onBgAll_spec _ _).1, Int.zero_add, total_eventsOn] at hb
      simp only [Counter.disk, hdesc, hdesc', Option.map_some, Option.getD_some]
      exact hb
  | inodes g =>
      obtain ⟨desc, desc', hdesc, hdesc', hsub⟩ := h.descriptor (hdescs g ha)
      have hi := (submitBlockGroup_spec hsub).2.1
      rw [(onBgAll_spec _ _).2.1, Int.zero_add, total_eventsOn] at hi
      simp only [Counter.disk, hdesc, hdesc', Option.map_some, Option.getD_some]
      exact hi

/-- The descriptors that can be read before can be read after. -/
theorem Applied.descs {sb : DescriptorSb} {events : List Event} {d d' : Disk}
    (h : Applied sb events d d') {g : Nat} (hg : (d.descs g).isSome) : (d'.descs g).isSome := by
  obtain ⟨-, desc', -, hdesc', -⟩ := h.descriptor hg
  rw [hdesc']
  rfl

theorem Applied.counter_lt {sb : DescriptorSb} {events : List Event} {d d' : Disk}
    (h : Applied sb events d d') (hdescs : ∀ g < sb.bgCount, (d.descs g).isSome)
    (hlt : ∀ a : Counter, a.InRange sb.toSuperBlock → a.disk d < 2 ^ 32) {a : Counter}
    (ha : a.InRange sb.toSuperBlock) : a.disk d' < 2 ^ 32 := by
  have hdesc : ∀ g < sb.bgCount, Counter.disk d' (.blocks g) < 2 ^ 32 ∧
      Counter.disk d' (.inodes g) < 2 ^ 32 := by
    intro g hg
    obtain ⟨desc, desc', hdesc, hdesc', hsub⟩ := h.descriptor (hdescs g hg)
    have hb := hlt (.blocks g) hg
    have hi := hlt (.inodes g) hg
    simp only [Counter.disk, hdesc, hdesc', Option.map_some, Option.getD_some] at hb hi ⊢
    exact submitBlockGroup_lt hsub hb hi
  cases a with
  | sbInodes => exact h.spec.freeInodesCount_lt (hlt .sbInodes ha)
  | blocks g => exact (hdesc g ha).1
  | inodes g => exact (hdesc g ha).2

/-- What the groups' counters of one kind add up to moves by the events' total. -/
theorem Applied.sum_counters {sb : DescriptorSb} {events : List Event} {d d' : Disk}
    (h : Applied sb events d d') (hdescs : ∀ g < sb.bgCount, (d.descs g).isSome)
    (hlt : ∀ e ∈ events, ∀ g, e.bgid = some g → g < sb.bgCount)
    {a : Nat → Counter} {f : Event → Int}
    (ha : ∀ g < sb.bgCount, (a g).InRange sb.toSuperBlock)
    (hf : ∀ g, (a g).atFlush = fun e => if e.bgid = some g then f e else 0)
    (hnone : ∀ e : Event, e.bgid = none → f e = 0) :
    ((∑ g ∈ Finset.range sb.bgCount, (a g).disk d' : Nat) : Int) =
      (∑ g ∈ Finset.range sb.bgCount, (a g).disk d : Nat) + total f events := by
  rw [← sum_eventsOn hnone hlt, Nat.cast_sum, Nat.cast_sum, ← Finset.sum_add_distrib]
  refine Finset.sum_congr rfl fun g hg => ?_
  rw [h.counter hdescs (ha g (Finset.mem_range.mp hg)), hf, total_eventsOn]

/-! ## One call -/

/-- The parts of a store are of one file system, and what its groups need is loaded. -/
structure Store.Loaded (c : Store) : Prop where
  fsSb : c.fs.sb = c.sb.toSuperBlock
  inodesSb : c.inodes.sb = c.sb.toSuperBlock
  blockGroups : ∀ g < c.sb.bgCount, (c.fs.blockGroups g).isSome
  inodeGroups : ∀ g < c.sb.bgCount, (c.inodes.groups g).isSome
  descs : ∀ g < c.sb.bgCount, (c.disk.descs g).isSome

/-- The counters are `u32`. -/
def Store.Bounded (c : Store) : Prop :=
  ∀ a : Counter, a.InRange c.sb.toSuperBlock → a.mem c < 2 ^ 32 ∧ a.disk c.disk < 2 ^ 32

/-- The counters of the superblock on disk are the sums over the groups. -/
def Disk.Summed (sb : SuperBlock) (d : Disk) : Prop :=
  d.freeBlocksCount = ∑ g ∈ Finset.range sb.bgCount, Counter.disk d (.blocks g) ∧
  d.freeInodesCount = ∑ g ∈ Finset.range sb.bgCount, Counter.disk d (.inodes g)

theorem Applied.summed {sb : DescriptorSb} {events : List Event} {d d' : Disk}
    (h : Applied sb events d d') (hdescs : ∀ g < sb.bgCount, (d.descs g).isSome)
    (hrec : Records sb.toSuperBlock events) (hsummed : d.Summed sb.toSuperBlock) :
    d'.Summed sb.toSuperBlock := by
  obtain ⟨hb, hi⟩ := hsummed
  have hblocks := h.sum_counters hdescs hrec.bgid_lt (a := .blocks) (f := Event.blocksDelta)
    (fun _ hg => hg) (fun _ => rfl) (by intro e he; cases e <;> first | rfl | cases he)
  have hinodes := h.sum_counters hdescs hrec.bgid_lt (a := .inodes) (f := Event.inodesDelta)
    (fun _ hg => hg) (fun _ => rfl) (by intro e he; cases e <;> first | rfl | cases he)
  constructor
  · rw [← hb, ← h.spec.freeBlocksCount] at hblocks
    exact_mod_cast hblocks.symm
  · rw [← hi, ← hrec.inodesDelta, ← h.spec.freeInodesCount] at hinodes
    exact_mod_cast hinodes.symm

/-- The events of a transaction are those of calls. -/
def Tx.Recorded (sb : SuperBlock) : Tx → Prop
  | .active events => Records sb events
  | .flushed _ => True

/-- What a call keeps: a counter in memory moves with the one on disk and with what
    the transaction holds. -/
structure Keeps (c : Store) (tx : Tx) (c' : Store) (tx' : Tx) : Prop where
  sb : c'.sb = c.sb
  loaded : c'.Loaded
  recorded : tx'.Recorded c.sb.toSuperBlock
  bounded : c'.Bounded
  summed : c'.disk.Summed c.sb.toSuperBlock
  gap : ∀ a : Counter, a.InRange c.sb.toSuperBlock →
    (a.mem c' : Int) - a.disk c'.disk - a.pending c.sb.toSuperBlock tx' ≡
      a.mem c - a.disk c.disk - a.pending c.sb.toSuperBlock tx [ZMOD 2 ^ 32]

variable {c c' : Store} {tx tx' : Tx}

/-- A call that records `part` keeps the disk. -/
theorem Keeps.of_recorded {events events' : List Event} (hbounded : c.Bounded)
    (hsummed : c.disk.Summed c.sb.toSuperBlock) (hsb : c'.sb = c.sb) (hdisk : c'.disk = c.disk)
    (hloaded : c'.Loaded) (hrec : Records c.sb.toSuperBlock events')
    (hmem : ∀ a : Counter, a.InRange c.sb.toSuperBlock → a.mem c' < 2 ^ 32 ∧
      (a.mem c' : Int) - a.mem c ≡ total a.atEvent events' - total a.atEvent events
        [ZMOD 2 ^ 32]) :
    Keeps c (.active events) c' (.active events') where
  sb := hsb
  loaded := hloaded
  recorded := hrec
  bounded := fun a ha => by
    rw [hsb] at ha
    rw [hdisk]
    exact ⟨(hmem a ha).1, (hbounded a ha).2⟩
  summed := hdisk ▸ hsummed
  gap := fun a ha => by
    have h := (hmem a ha).2
    rw [hdisk, Counter.pending, Counter.pending]
    unfold Int.ModEq at h ⊢
    omega

/-- A postlude keeps the disk, and makes the last change of its event. -/
theorem Keeps.of_postlude {p : PostludeOps} {ps : List PostludeOps} (hbounded : c.Bounded)
    (hsummed : c.disk.Summed c.sb.toSuperBlock) (hsb : c'.sb = c.sb) (hdisk : c'.disk = c.disk)
    (hloaded : c'.Loaded)
    (hmem : ∀ a : Counter, a.InRange c.sb.toSuperBlock → a.mem c' < 2 ^ 32 ∧
      (a.mem c' : Int) - a.mem c ≡ a.atPostlude c.sb.toSuperBlock p [ZMOD 2 ^ 32]) :
    Keeps c (.flushed (p :: ps)) c' (.flushed ps) where
  sb := hsb
  loaded := hloaded
  recorded := trivial
  bounded := fun a ha => by
    rw [hsb] at ha
    rw [hdisk]
    exact ⟨(hmem a ha).1, (hbounded a ha).2⟩
  summed := hdisk ▸ hsummed
  gap := fun a ha => by
    have h := (hmem a ha).2
    rw [hdisk, Counter.pending, Counter.pending, Counter.atPostludes, Counter.atPostludes,
      List.map_cons, List.sum_cons]
    unfold Int.ModEq at h ⊢
    omega

/-- The disk moves by what the events are still to change in memory. -/
theorem Keeps.of_flush {events : List Event} {w : WritebackGroup} {order : List Nat} {d' : Disk}
    (hloaded : c.Loaded) (hbounded : c.Bounded) (hsummed : c.disk.Summed c.sb.toSuperBlock)
    (hrec : Records c.sb.toSuperBlock events)
    (hw : WritebackGroup.compress c.sb.toSuperBlock events (.new c.disk.blocks) = some w)
    (horder : IterationOrder w order)
    (h : flush c.sb w order { c.disk with blocks := w.blocks } = .ok d') :
    Keeps c (.active events) { c with disk := d', fs := { c.fs with blocks := d'.blocks } }
      (.flushed w.postludes) where
  sb := rfl
  loaded := ⟨hloaded.fsSb, hloaded.inodesSb, hloaded.blockGroups, hloaded.inodeGroups,
    fun g hg => Applied.descs ⟨w, order, hw, horder, h⟩ (hloaded.descs g hg)⟩
  recorded := trivial
  bounded := fun a ha => by
    refine ⟨?_, Applied.counter_lt ⟨w, order, hw, horder, h⟩ hloaded.descs
      (fun a ha => (hbounded a ha).2) ha⟩
    exact (hbounded a ha).1
  summed := Applied.summed ⟨w, order, hw, horder, h⟩ hloaded.descs hrec hsummed
  gap := fun a ha => by
    have hdisk := Applied.counter ⟨w, order, hw, horder, h⟩ hloaded.descs ha
    have hbal := hrec.balanced a
    -- The postludes are the part of the events that is still to come in memory.
    have hpost : w.postludes = events.flatMap Event.postludes := by
      obtain ⟨-, blocks, -, rfl⟩ := WritebackGroup.compress_eq_some.mp hw
      rfl
    have hmem : a.mem { c with disk := d', fs := { c.fs with blocks := d'.blocks } } = a.mem c := by
      cases a <;> rfl
    rw [hmem, Counter.pending, Counter.pending, hpost]
    dsimp only
    rw [hdisk, hbal]
    apply congrArg (· % _)
    omega

/-- Where no counter changes in memory, neither has one to change. -/
theorem Keeps.of_unchanged {events events' : List Event} (hloaded : c.Loaded)
    (hbounded : c.Bounded) (hsummed : c.disk.Summed c.sb.toSuperBlock)
    (hrec : Records c.sb.toSuperBlock events')
    (htotal : ∀ a : Counter, total a.atEvent events' = total a.atEvent events) :
    Keeps c (.active events) c (.active events') :=
  .of_recorded hbounded hsummed rfl rfl hloaded hrec fun a ha =>
    ⟨(hbounded a ha).1, by rw [htotal, Int.sub_self, Int.sub_self]⟩

/-- The counter of a block group becomes `n`. -/
theorem mem_blockGroups {fs' : FileSystem} {g n : Nat} {bg : BlockGroup}
    (hbg : c.fs.blockGroups g = some bg)
    (hgroups : fs'.blockGroups = Function.update c.fs.blockGroups g
      (some { bg with freeBlocksCount := n })) (a : Counter) :
    (a = .blocks g ∧ a.mem { c with fs := fs' } = n ∧ a.mem c = bg.freeBlocksCount) ∨
    (a ≠ .blocks g ∧ a.mem { c with fs := fs' } = a.mem c) := by
  by_cases ha : a = .blocks g
  · subst ha
    refine Or.inl ⟨rfl, ?_, ?_⟩
    · simp only [Counter.mem, hgroups, Function.update_self, Option.map_some, Option.getD_some]
    · simp only [Counter.mem, hbg, Option.map_some, Option.getD_some]
  · refine Or.inr ⟨ha, ?_⟩
    cases a with
    | blocks g' =>
        have hne : g' ≠ g := fun heq => ha (congrArg _ heq)
        simp only [Counter.mem, hgroups, Function.update_of_ne hne]
    | _ => rfl

/-- The counters of an inode group and of the superblock become `n` and `m`. -/
theorem mem_inodeGroups {inodes' : Allocator} {g n m : Nat} {bg : InodeGroup}
    (hbg : c.inodes.groups g = some bg)
    (hgroups : inodes'.groups = Function.update c.inodes.groups g
      (some { bg with freeInodesCount := n })) (htotal : inodes'.freeInodesCount = m)
    (a : Counter) :
    (a = .inodes g ∧ a.mem { c with inodes := inodes' } = n ∧ a.mem c = bg.freeInodesCount) ∨
    (a = .sbInodes ∧ a.mem { c with inodes := inodes' } = m ∧
      a.mem c = c.inodes.freeInodesCount) ∨
    (a ≠ .inodes g ∧ a ≠ .sbInodes ∧ a.mem { c with inodes := inodes' } = a.mem c) := by
  cases a with
  | blocks g' => exact Or.inr (Or.inr ⟨by simp, by simp, rfl⟩)
  | sbInodes => exact Or.inr (Or.inl ⟨rfl, htotal, rfl⟩)
  | inodes g' =>
      by_cases hg : g' = g
      · subst hg
        refine Or.inl ⟨rfl, ?_, ?_⟩
        · simp only [Counter.mem, hgroups, Function.update_self, Option.map_some,
            Option.getD_some]
        · simp only [Counter.mem, hbg, Option.map_some, Option.getD_some]
      · refine Or.inr (Or.inr ⟨by simpa using hg, by simp, ?_⟩)
        simp only [Counter.mem, hgroups, Function.update_of_ne hg]

theorem Store.Loaded.updateFs (h : c.Loaded) {fs' : FileSystem} {g : Nat} {bg : BlockGroup}
    (hsb : fs'.sb = c.fs.sb)
    (hgroups : fs'.blockGroups = Function.update c.fs.blockGroups g (some bg)) :
    Store.Loaded { c with fs := fs' } where
  fsSb := hsb.trans h.fsSb
  inodesSb := h.inodesSb
  inodeGroups := h.inodeGroups
  descs := h.descs
  blockGroups := fun g' hg' => by
    rw [hgroups, Function.update_apply]
    split
    next => rfl
    next => exact h.blockGroups g' hg'

theorem Store.Loaded.updateInodes (h : c.Loaded) {inodes' : Allocator} {g : Nat}
    {bg : InodeGroup} (hsb : inodes'.sb = c.inodes.sb)
    (hgroups : inodes'.groups = Function.update c.inodes.groups g (some bg)) :
    Store.Loaded { c with inodes := inodes' } where
  fsSb := h.fsSb
  inodesSb := hsb.trans h.inodesSb
  blockGroups := h.blockGroups
  descs := h.descs
  inodeGroups := fun g' hg' => by
    rw [hgroups, Function.update_apply]
    split
    next => rfl
    next => exact h.inodeGroups g' hg'

theorem Keeps.of_allocate {events events' : List Event} {ino size hope : Nat}
    {r : Except Fault (Nat × Nat)} {fs' : FileSystem} (hloaded : c.Loaded) (hbounded : c.Bounded)
    (hsummed : c.disk.Summed c.sb.toSuperBlock) (hrec : Records c.sb.toSuperBlock events)
    (h : c.fs.allocate events ino size hope = (r, fs', events')) :
    Keeps c (.active events) { c with fs := fs' } (.active events') := by
  obtain ⟨hsb, ⟨hgroups, rfl⟩ | ⟨g, bg, index, count, hg, hbg, hgroups, rfl⟩⟩ :=
    allocate_counters h
  · have hloaded' : Store.Loaded { c with fs := fs' } := { hloaded with
      fsSb := hsb.trans hloaded.fsSb
      blockGroups := fun g hg => by rw [hgroups]; exact hloaded.blockGroups g hg }
    refine .of_recorded hbounded hsummed rfl rfl hloaded' hrec fun a ha => ?_
    have hmem : a.mem { c with fs := fs' } = a.mem c := by
      cases a <;> simp only [Counter.mem, hgroups]
    rw [hmem, Int.sub_self, Int.sub_self]
    exact ⟨(hbounded a ha).1, rfl⟩
  · rw [hloaded.fsSb] at hg
    refine .of_recorded hbounded hsummed rfl rfl (hloaded.updateFs hsb hgroups)
      (.blockAllocation hrec hg) fun a ha => ?_
    rw [total_append, add_sub_cancel_left, total_cons, total_nil, Int.add_zero]
    rcases mem_blockGroups hbg hgroups a with ⟨rfl, hmem', hmem⟩ | ⟨hne, hmem⟩
    · rw [hmem', hmem, Counter.atEvent, if_pos rfl]
      exact fetchSub_moves ..
    · -- Another counter is not in the event either.
      have hzero : a.atEvent (.blockAllocationOnBg ino g bg.blockBitmapLba index count) = 0 := by
        cases a with
        | blocks g' => exact if_neg fun heq => hne (congrArg _ heq.symm)
        | _ => rfl
      rw [hmem, Int.sub_self, hzero]
      exact ⟨(hbounded a ha).1, rfl⟩

theorem Keeps.of_allocateInode {events events' : List Event} {de : FileType}
    {r : Except Fault Nat} {inodes' : Allocator} (hloaded : c.Loaded) (hbounded : c.Bounded)
    (hsummed : c.disk.Summed c.sb.toSuperBlock) (hrec : Records c.sb.toSuperBlock events)
    (h : c.inodes.allocate events de = (r, inodes', events')) :
    Keeps c (.active events) { c with inodes := inodes' } (.active events') := by
  obtain ⟨hsb, ⟨hgroups, htotal, rfl⟩ | ⟨g, bg, index, hg, hbg, hgroups, htotal, rfl⟩⟩ :=
    allocateInode_counters h
  · have hloaded' : Store.Loaded { c with inodes := inodes' } := { hloaded with
      inodesSb := hsb.trans hloaded.inodesSb
      inodeGroups := fun g hg => by rw [hgroups]; exact hloaded.inodeGroups g hg }
    refine .of_recorded hbounded hsummed rfl rfl hloaded' hrec fun a ha => ?_
    have hmem : a.mem { c with inodes := inodes' } = a.mem c := by
      cases a <;> simp only [Counter.mem, hgroups, htotal]
    rw [hmem, Int.sub_self, Int.sub_self]
    exact ⟨(hbounded a ha).1, rfl⟩
  · rw [hloaded.inodesSb] at hg
    refine .of_recorded hbounded hsummed rfl rfl (hloaded.updateInodes hsb hgroups)
      (.inodeAllocation hrec hg) fun a ha => ?_
    rw [total_append, add_sub_cancel_left, total_cons, total_cons, total_nil]
    rcases mem_inodeGroups hbg hgroups htotal a with
      ⟨rfl, hmem', hmem⟩ | ⟨rfl, hmem', hmem⟩ | ⟨hne, hne', hmem⟩
    · rw [hmem', hmem, Counter.atEvent, if_pos rfl]
      exact fetchSub_moves ..
    · rw [hmem', hmem]
      exact fetchSub_moves ..
    · rw [hmem, Int.sub_self]
      refine ⟨(hbounded a ha).1, ?_⟩
      cases a with
      | inodes g' =>
          have hg' : g ≠ g' := fun heq => hne (congrArg _ heq.symm)
          simp only [Counter.atEvent, if_neg hg']
          rfl
      | sbInodes => exact absurd rfl hne'
      | blocks g' => rfl

theorem Keeps.of_blockPostlude {bgid ofs count : Nat} {ps : List PostludeOps} {fs' : FileSystem}
    (hloaded : c.Loaded) (hbounded : c.Bounded) (hsummed : c.disk.Summed c.sb.toSuperBlock)
    (h : c.fs.applyDeallocationOnCore bgid ofs count = .ok fs') :
    Keeps c (.flushed (.blockDeallocation bgid ofs count :: ps)) { c with fs := fs' }
      (.flushed ps) := by
  obtain ⟨bg, hbg, hsb, hgroups⟩ := applyDeallocationOnCore_counters h
  refine .of_postlude hbounded hsummed rfl rfl (hloaded.updateFs hsb hgroups) fun a ha => ?_
  rcases mem_blockGroups hbg hgroups a with ⟨rfl, hmem', hmem⟩ | ⟨hne, hmem⟩
  · rw [hmem', hmem, Counter.atPostlude, if_pos rfl]
    exact fetchAdd_moves ..
  · rw [hmem, Int.sub_self]
    refine ⟨(hbounded a ha).1, ?_⟩
    cases a with
    | blocks g' =>
        have hg' : bgid ≠ g' := fun heq => hne (congrArg _ heq.symm)
        simp only [Counter.atPostlude, if_neg hg']
        rfl
    | _ => rfl

theorem Keeps.of_inodePostlude {ino : Nat} {ps : List PostludeOps} {inodes' : Allocator}
    (hloaded : c.Loaded) (hbounded : c.Bounded) (hsummed : c.disk.Summed c.sb.toSuperBlock)
    (h : c.inodes.applyDeallocationOnCore ino = .ok inodes') :
    Keeps c (.flushed (.inodeDeallocation ino :: ps)) { c with inodes := inodes' }
      (.flushed ps) := by
  obtain ⟨g, i, hinto, hflips⟩ := Allocator.applyDeallocationOnCore_flips h
  obtain ⟨bg, hbg, hgroups⟩ := hflips.groups
  rw [hloaded.inodesSb] at hinto
  refine .of_postlude hbounded hsummed rfl rfl (hloaded.updateInodes hflips.sb hgroups)
    fun a ha => ?_
  rcases mem_inodeGroups hbg hgroups hflips.total a with
    ⟨rfl, hmem', hmem⟩ | ⟨rfl, hmem', hmem⟩ | ⟨hne, hne', hmem⟩
  · rw [hmem', hmem, Counter.atPostlude, hinto, Option.map_some, if_pos rfl]
    exact fetchAdd_moves ..
  · rw [hmem', hmem]
    exact fetchAdd_moves ..
  · rw [hmem, Int.sub_self]
    refine ⟨(hbounded a ha).1, ?_⟩
    cases a with
    | inodes g' =>
        have hg' : g ≠ g' := fun heq => hne (congrArg _ heq.symm)
        simp only [Counter.atPostlude, hinto, Option.map_some, Option.some.injEq, if_neg hg']
        rfl
    | sbInodes => exact absurd rfl hne'
    | blocks g' => rfl

theorem Call.keeps (h : Call c tx c' tx') (hloaded : c.Loaded) (hbounded : c.Bounded)
    (hsummed : c.disk.Summed c.sb.toSuperBlock) (hrec : tx.Recorded c.sb.toSuperBlock) :
    Keeps c tx c' tx' := by
  cases h with
  | allocate h => exact .of_allocate hloaded hbounded hsummed hrec h
  | deallocate h =>
      rw [Tx.Recorded, ← hloaded.fsSb] at hrec
      obtain ⟨hrec', htotal⟩ := deallocate_records h hrec
      rw [hloaded.fsSb] at hrec'
      exact .of_unchanged hloaded hbounded hsummed hrec' htotal
  | allocateInode h => exact .of_allocateInode hloaded hbounded hsummed hrec h
  | deallocateInode h =>
      rw [Tx.Recorded, ← hloaded.inodesSb] at hrec
      obtain ⟨hrec', htotal⟩ := deallocateInode_records h hrec
      rw [hloaded.inodesSb] at hrec'
      exact .of_unchanged hloaded hbounded hsummed hrec' htotal
  -- An event that a caller records changes no counter.
  | record he =>
      refine .of_unchanged hloaded hbounded hsummed (.record hrec he) fun a => ?_
      rw [total_append, total_cons, total_nil, he.atEvent a]
      simp
  | flush hw horder h => exact .of_flush hloaded hbounded hsummed hrec hw horder h
  | blockPostlude h => exact .of_blockPostlude hloaded hbounded hsummed h
  | inodePostlude h => exact .of_inodePostlude hloaded hbounded hsummed h

/-! ## Runs -/

/-- Each group's counters and the superblock's free inodes are in memory what they are
    on disk, where the superblock has the sums over the groups. -/
structure Store.Consistent (c : Store) : Prop where
  loaded : c.Loaded
  bounded : c.Bounded
  agree : ∀ a : Counter, a.InRange c.sb.toSuperBlock → a.mem c = a.disk c.disk
  summed : c.disk.Summed c.sb.toSuperBlock

/-- What holds in every state of a run: the open transactions hold the differences. -/
structure System.Inv (s : System) : Prop where
  loaded : s.store.Loaded
  bounded : s.store.Bounded
  summed : s.store.disk.Summed s.store.sb.toSuperBlock
  recorded : ∀ tx ∈ s.txs, tx.Recorded s.store.sb.toSuperBlock
  gap : ∀ a : Counter, a.InRange s.store.sb.toSuperBlock →
    (a.mem s.store : Int) - a.disk s.store.disk ≡
      (s.txs.map (a.pending s.store.sb.toSuperBlock)).sum [ZMOD 2 ^ 32]

namespace System

variable {s s' : System}

theorem Step.inv (h : s.Inv) (hstep : s.Step s') : s'.Inv := by
  cases hstep with
  | openTx =>
      exact { h with
        recorded := List.forall_mem_cons.mpr ⟨.nil, h.recorded⟩
        gap := fun a ha => by
          rw [List.map_cons, List.sum_cons, Counter.pending, total_nil, Int.zero_add]
          exact h.gap a ha }
  -- One transaction moves, and the sum over the others stays as it is.
  | @call c c' tx tx' l l' hcall =>
      have hkeeps := hcall.keeps h.loaded h.bounded h.summed
        (h.recorded tx (List.mem_append_right l List.mem_cons_self))
      have hsb := hkeeps.sb
      refine ⟨hkeeps.loaded, hkeeps.bounded, ?_, ?_, ?_⟩
      · rw [hsb]
        exact hkeeps.summed
      · intro tx1 htx1
        rw [hsb]
        rcases List.mem_append.mp htx1 with hmem | hmem
        · exact h.recorded tx1 (List.mem_append_left _ hmem)
        · rcases List.mem_cons.mp hmem with rfl | hmem
          · exact hkeeps.recorded
          · exact h.recorded tx1 (List.mem_append_right l (List.mem_cons_of_mem tx hmem))
      · intro a ha
        rw [hsb] at ha ⊢
        have hgap := h.gap a ha
        have hcallGap := hkeeps.gap a ha
        simp only [List.map_append, List.map_cons, List.sum_append, List.sum_cons] at hgap ⊢
        unfold Int.ModEq at hgap hcallGap ⊢
        omega
  | @done c l l' =>
      refine { h with recorded := fun tx htx => ?_, gap := fun a ha => ?_ }
      · rcases List.mem_append.mp htx with hmem | hmem
        · exact h.recorded tx (List.mem_append_left _ hmem)
        · exact h.recorded tx (List.mem_append_right l (List.mem_cons_of_mem _ hmem))
      · have hgap := h.gap a ha
        have hzero : a.pending c.sb.toSuperBlock (.flushed []) = 0 := rfl
        simp only [List.map_append, List.map_cons, List.sum_append, List.sum_cons, hzero,
          Int.zero_add] at hgap ⊢
        exact hgap

/-- A store without open transactions, and its counters agree. -/
theorem Inv.of_consistent {c : Store} (h : c.Consistent) : Inv ⟨c, []⟩ :=
  { loaded := h.loaded
    bounded := h.bounded
    summed := h.summed
    recorded := by simp
    gap := fun a ha => by
      rw [h.agree a ha, Int.sub_self]
      rfl }

/-- Two `u32` that agree up to 2^32 are the same. -/
theorem Inv.consistent (h : s.Inv) (htxs : s.txs = []) : s.store.Consistent :=
  { loaded := h.loaded
    bounded := h.bounded
    summed := h.summed
    agree := fun a ha => by
      have hgap := h.gap a ha
      obtain ⟨hmem, hdisk⟩ := h.bounded a ha
      rw [htxs, List.map_nil, List.sum_nil] at hgap
      unfold Int.ModEq at hgap
      omega }

theorem Run.inv (h : s.Inv) (hrun : Run s s') : s'.Inv := by
  induction hrun with
  | refl => exact h
  | tail _ hstep ih => exact hstep.inv ih

/-- After any interleaving of transactions that are all done, the counters agree. -/
theorem consistent_of_run {c : Store} (h : c.Consistent) (hrun : Run ⟨c, []⟩ s)
    (htxs : s.txs = []) : s.store.Consistent :=
  (hrun.inv (.of_consistent h)).consistent htxs

/-! ## The inode allocator -/

/-- A deallocation leaves the inode allocator alone until its postlude clears the bit. -/
theorem inodes_inv_of_call {c c' : Store} {tx tx' : Tx} (h : c.inodes.Inv)
    (hcall : Call c tx c' tx') : c'.inodes.Inv := by
  cases hcall with
  | @allocateInode events events' de r inodes' hcall =>
      have hinv := (h.allocate events de).1
      rwa [hcall] at hinv
  | inodePostlude hcall =>
      obtain ⟨g, i, -, hflips⟩ := Allocator.applyDeallocationOnCore_flips hcall
      exact h.flips hflips
  | allocate | deallocate | deallocateInode | record | flush | blockPostlude => exact h

/-- So in every interleaving of transactions, also while commits are under way, the counters
    of the inode allocator count its clear bits, and its next call does what it is for. -/
theorem inodes_of_run (h : s.store.inodes.Inv) (hrun : Run s s') (events : List Event)
    (de : FileType) :
    s'.store.inodes.Inv ∧ s'.store.inodes.AllocateSpec (s'.store.inodes.allocate events de) := by
  have hinv : s'.store.inodes.Inv := by
    induction hrun with
    | refl => exact h
    | tail _ hstep ih =>
        cases hstep with
        | openTx | done => exact ih
        | call hcall => exact inodes_inv_of_call ih hcall
  exact ⟨hinv, (hinv.allocate events de).2.2⟩

/-! ## One file is freed -/

/-- A mounted file system of one group, with 12 inodes in use. -/
def twelveUsedStore : Store :=
  { sb := oneGroupSb
    fs :=
      { blkSize := 4096
        sb := oneGroupSb.toSuperBlock
        blockGroups := fun g => if g = 0 then some ⟨4, 32768, 100⟩ else none
        buddies := .new 14
        blocks := twelveUsed.blocks }
    inodes :=
      { sb := oneGroupSb.toSuperBlock
        groups := fun g => if g = 0 then some ⟨5, 20⟩ else none
        bitmap := fun g => if g = 0 then some [0xff, 0x0f, 0, 0] else none
        freeInodesCount := 20
        lastInodeBgId := 0 }
    disk := twelveUsed }

theorem twelveUsedStore_consistent : twelveUsedStore.Consistent := by
  have hloaded : ∀ {g : Nat}, g < twelveUsedStore.sb.bgCount → g = 0 := Nat.lt_one_iff.mp
  -- The file system has the one group.
  have hvalues : ∀ a : Counter, a.InRange twelveUsedStore.sb.toSuperBlock →
      a.mem twelveUsedStore = a.disk twelveUsedStore.disk ∧ a.mem twelveUsedStore < 2 ^ 32 := by
    intro a ha
    cases a with
    | sbInodes => exact ⟨rfl, by decide⟩
    | blocks g =>
        obtain rfl := hloaded ha
        exact ⟨rfl, by decide⟩
    | inodes g =>
        obtain rfl := hloaded ha
        exact ⟨rfl, by decide⟩
  refine ⟨⟨rfl, rfl, fun g hg => ?_, fun g hg => ?_, fun g hg => ?_⟩, fun a ha => ?_,
    fun a ha => (hvalues a ha).1, rfl, rfl⟩
  · obtain rfl := hloaded hg
    rfl
  · obtain rfl := hloaded hg
    rfl
  · obtain rfl := hloaded hg
    rfl
  · obtain ⟨heq, hlt⟩ := hvalues a ha
    exact ⟨hlt, heq ▸ hlt⟩

/-- The file at position 11 is freed: the group has 21 free inodes then. -/
theorem consistent_of_run_freed : ∃ s : System, Run ⟨twelveUsedStore, []⟩ s ∧
    s.store.inodes.freeInodesCount = 21 ∧ s.store.Consistent := by
  have hevents : twelveUsedStore.inodes.deallocate [] 12 .regularFile =
      (.ok (), [.inodeDeallocationOnBg 12 0 5 11 .regularFile, .freeInodesCountIncOnSb]) := by
    decide
  obtain ⟨d', hd'⟩ := ok_of_isOk (x := commit oneGroupSb
    [.inodeDeallocationOnBg 12 0 5 11 .regularFile, .freeInodesCountIncOnSb] twelveUsed)
    (by decide +kernel)
  obtain ⟨w, order, hw, horder, hflush⟩ := applied_of_commit hd'
  have hpostludes : w.postludes = [.inodeDeallocation 12] := by
    obtain ⟨-, blocks, -, rfl⟩ := WritebackGroup.compress_eq_some.mp hw
    rfl
  obtain ⟨inodes', hinodes⟩ :=
    ok_of_isOk (x := twelveUsedStore.inodes.applyDeallocationOnCore 12) (by decide)
  obtain ⟨g, i, -, hflips⟩ := Allocator.applyDeallocationOnCore_flips hinodes
  -- Inode 12 is freed, flushed and given back in memory.
  let c : Store :=
    { twelveUsedStore with disk := d', fs := { twelveUsedStore.fs with blocks := d'.blocks } }
  have h1 : Call twelveUsedStore (.active []) twelveUsedStore _ := .deallocateInode hevents
  have h2 : Call twelveUsedStore _ c _ := .flush hw horder hflush
  rw [hpostludes] at h2
  have h3 : Call c (.flushed [.inodeDeallocation 12]) { c with inodes := inodes' } (.flushed []) :=
    .inodePostlude hinodes
  have hrun : Run ⟨twelveUsedStore, []⟩ ⟨{ c with inodes := inodes' }, []⟩ :=
    .tail (.tail (.tail (.tail (.tail .refl (.openTx _)) (.call (l := []) h1))
      (.call (l := []) h2)) (.call (l := []) h3)) (.done (l := []))
  exact ⟨_, hrun, hflips.total, consistent_of_run twelveUsedStore_consistent hrun rfl⟩

end System
end RustExt4.Transaction
