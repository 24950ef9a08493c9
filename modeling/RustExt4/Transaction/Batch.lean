/-
  RustExt4.Transaction.Batch

  One transaction against one transaction for each event.  The counters and the
  bitmaps come out the same: they are sums and folds over the events either way.
  `itable_unused` does not follow: it is written only where a counter of its group
  changes, so that an allocation which a deallocation in the same transaction
  cancels is not seen.
-/
import RustExt4.Transaction.FlushSpec

namespace RustExt4.Transaction

variable {sb : DescriptorSb} {g : Nat} {events : List Event} {d d1 d' : Disk}

/-- Each event is committed in a transaction of its own. -/
inductive AppliedEach (sb : DescriptorSb) : List Event → Disk → Disk → Prop
  | nil (d : Disk) : AppliedEach sb [] d d
  | cons {e : Event} {es : List Event} {d d1 d' : Disk} (h : Applied sb [e] d d1)
      (hrest : AppliedEach sb es d1 d') : AppliedEach sb (e :: es) d d'

/-- The descriptors, the bitmaps and the counters of the superblock are the same. -/
def SameMetadata (d d' : Disk) : Prop := SameCounts d d'

/-- The events leave the counters of their group as they were. -/
def Cancel (es : List Event) : Prop :=
  total Event.blocksDelta es = 0 ∧ total Event.inodesDelta es = 0 ∧ total Event.dirsDelta es = 0

/-- An allocation in group `g` that reaches into the unused part of its inode table,
    where the events on the group cancel. -/
def Masked (sb : DescriptorSb) (events : List Event) (d : Disk) (g : Nat) : Prop :=
  Cancel (eventsOn g events) ∧
  ∃ desc n, d.descs g = some desc ∧ sb.inodesInBg g = .ok n ∧
    ∃ e ∈ eventsOn g events, ∃ i, e.allocIdx = some i ∧ n ≤ i + desc.itableUnused

/-! ## Used positions -/

/-- The positions that count as used after the events. -/
def usedAfter (es : List Event) (used : Nat) : Nat :=
  es.foldl (fun used e => usedUpTo e.allocIdx used) used

theorem le_usedUpTo (idx : Option Nat) (used : Nat) : used ≤ usedUpTo idx used := by
  cases idx with
  | none => exact Nat.le_refl _
  | some i => exact Nat.le_max_left ..

theorem usedUpTo_eq_self {idx : Option Nat} {used : Nat} :
    usedUpTo idx used = used ↔ ∀ i, idx = some i → i < used := by
  cases idx with
  | none => simp [usedUpTo]
  | some i =>
      simp only [usedUpTo, Option.some.injEq, forall_eq']
      omega

theorem le_usedAfter (es : List Event) (used : Nat) : used ≤ usedAfter es used := by
  induction es generalizing used with
  | nil => exact Nat.le_refl _
  | cons e es ih => exact (le_usedUpTo e.allocIdx used).trans (ih _)

theorem usedAfter_append (es es' : List Event) (used : Nat) :
    usedAfter (es ++ es') used = usedAfter es' (usedAfter es used) := List.foldl_append

theorem usedAfter_eq_self {es : List Event} {used : Nat} :
    usedAfter es used = used ↔ ∀ e ∈ es, ∀ i, e.allocIdx = some i → i < used := by
  induction es generalizing used with
  | nil => simp [usedAfter]
  | cons e es ih =>
      rw [List.forall_mem_cons, ← usedUpTo_eq_self]
      have h1 := le_usedUpTo e.allocIdx used
      have h2 : usedUpTo e.allocIdx used ≤ usedAfter (e :: es) used := le_usedAfter es _
      constructor
      · intro h
        have hone : usedUpTo e.allocIdx used = used := by omega
        refine ⟨hone, ih.mp ?_⟩
        rwa [usedAfter, List.foldl_cons, hone] at h
      · rintro ⟨hone, hrest⟩
        rw [usedAfter, List.foldl_cons, hone]
        exact ih.mpr hrest

/-! ## `itable_unused` event by event -/

/-- `itable_unused` of a group whose events are `es`, when each is written back. -/
structure Unused (sb : DescriptorSb) (g : Nat) (es : List Event) (unused unused' : Nat) :
    Prop where
  same : (∀ e ∈ es, e.allocIdx = none) → unused' = unused
  used : (∃ e ∈ es, e.allocIdx ≠ none) → ∃ n, sb.inodesInBg g = .ok n ∧ unused ≤ n ∧
    unused' ≤ n ∧ n - unused' = usedAfter es (n - unused)

namespace Unused

variable {es es' : List Event} {u u1 u' : Nat}

theorem usedAfter_none (h : ∀ e ∈ es, e.allocIdx = none) (used : Nat) :
    usedAfter es used = used :=
  usedAfter_eq_self.mpr fun e he i hi => by
    rw [h e he] at hi
    cases hi

theorem not_all_none : ¬ (∀ e ∈ es, e.allocIdx = none) ↔ ∃ e ∈ es, e.allocIdx ≠ none := by
  simp only [not_forall, exists_prop, ne_eq]

/-- The value is determined by the events. -/
theorem unique {v : Nat} (h : Unused sb g es u u') (hv : Unused sb g es u v) : u' = v := by
  by_cases hall : ∀ e ∈ es, e.allocIdx = none
  · rw [h.same hall, hv.same hall]
  · obtain ⟨n, hn, -, hle, heq⟩ := h.used (not_all_none.mp hall)
    obtain ⟨m, hm, -, hle', heq'⟩ := hv.used (not_all_none.mp hall)
    obtain rfl : n = m := by
      rw [hn] at hm
      exact Except.ok.inj hm
    omega

theorem append (h : Unused sb g es u u1) (h' : Unused sb g es' u1 u') :
    Unused sb g (es ++ es') u u' := by
  by_cases hall : ∀ e ∈ es, e.allocIdx = none
  · obtain rfl := h.same hall
    refine ⟨fun hn => h'.same fun e he => hn e (List.mem_append_right es he), fun hex => ?_⟩
    have hex' : ∃ e ∈ es', e.allocIdx ≠ none := by
      obtain ⟨e, he, hne⟩ := hex
      refine ⟨e, (List.mem_append.mp he).resolve_left fun hmem => hne (hall e hmem), hne⟩
    obtain ⟨n, hn, hu, hu', heq⟩ := h'.used hex'
    refine ⟨n, hn, hu, hu', ?_⟩
    rw [usedAfter_append, usedAfter_none hall, heq]
  · obtain ⟨n, hn, hu, hu1, heq⟩ := h.used (not_all_none.mp hall)
    refine ⟨fun hno => absurd (fun e he => hno e (List.mem_append_left es' he)) hall, fun _ => ?_⟩
    by_cases hall' : ∀ e ∈ es', e.allocIdx = none
    · obtain rfl := h'.same hall'
      exact ⟨n, hn, hu, hu1, by rw [usedAfter_append, usedAfter_none hall', heq]⟩
    · obtain ⟨m, hm, -, hu', heq'⟩ := h'.used (not_all_none.mp hall')
      obtain rfl : n = m := by
        rw [hn] at hm
        exact Except.ok.inj hm
      exact ⟨n, hn, hu, hu', by rw [usedAfter_append, heq', heq]⟩

/-- Nothing changes where no allocation reaches into the unused part. -/
theorem eq_iff (h : Unused sb g es u u') :
    u' = u ↔ ¬ ∃ n, sb.inodesInBg g = .ok n ∧ ∃ e ∈ es, ∃ i, e.allocIdx = some i ∧ n ≤ i + u := by
  by_cases hall : ∀ e ∈ es, e.allocIdx = none
  · refine iff_of_true (h.same hall) ?_
    rintro ⟨n, -, e, he, i, hi, -⟩
    rw [hall e he] at hi
    cases hi
  · obtain ⟨n, hn, hu, hu', heq⟩ := h.used (not_all_none.mp hall)
    have hsame : u' = u ↔ usedAfter es (n - u) = n - u := by omega
    rw [hsame, usedAfter_eq_self]
    constructor
    · rintro hlt ⟨m, hm, e, he, i, hi, hle⟩
      rw [hn] at hm
      cases hm
      have := hlt e he i hi
      omega
    · intro hno e he i hi
      by_contra hge
      exact hno ⟨n, hn, e, he, i, hi, by omega⟩

end Unused

/-! ## Event by event -/

/-- What the events `es` on group `g` do to its descriptor, when each is written back. -/
structure GroupAfter (sb : DescriptorSb) (g : Nat) (es : List Event) (desc desc' : GroupDesc) :
    Prop where
  blocks : (desc'.freeBlocksCount : Int) = desc.freeBlocksCount + total Event.blocksDelta es
  inodes : (desc'.freeInodesCount : Int) = desc.freeInodesCount + total Event.inodesDelta es
  dirs : (desc'.usedDirsCount : Int) = desc.usedDirsCount + total Event.dirsDelta es
  unused : Unused sb g es desc.itableUnused desc'.itableUnused

/-- Only `itable_unused` has to be compared. -/
theorem GroupAfter.eq_iff {es : List Event} {desc x y : GroupDesc} (hy : GroupAfter sb g es desc y)
    (hb : (x.freeBlocksCount : Int) = desc.freeBlocksCount + total Event.blocksDelta es)
    (hi : (x.freeInodesCount : Int) = desc.freeInodesCount + total Event.inodesDelta es)
    (hd : (x.usedDirsCount : Int) = desc.usedDirsCount + total Event.dirsDelta es) :
    y = x ↔ y.itableUnused = x.itableUnused := by
  refine ⟨congrArg _, fun hu => ?_⟩
  have h1 := hb.trans hy.blocks.symm
  have h2 := hi.trans hy.inodes.symm
  have h3 := hd.trans hy.dirs.symm
  cases x
  cases y
  simp only [Int.natCast_inj] at h1 h2 h3 hu
  subst h1 h2 h3 hu
  rfl

theorem GroupAfter.append {es es' : List Event} {desc desc1 desc' : GroupDesc}
    (h : GroupAfter sb g es desc desc1) (h' : GroupAfter sb g es' desc1 desc') :
    GroupAfter sb g (es ++ es') desc desc' :=
  { blocks := by rw [h'.blocks, h.blocks, total_append, Int.add_assoc]
    inodes := by rw [h'.inodes, h.inodes, total_append, Int.add_assoc]
    dirs := by rw [h'.dirs, h.dirs, total_append, Int.add_assoc]
    unused := h.unused.append h'.unused }

/-- The descriptor of group `g`, where it can be read, before and after. -/
def DescEach (sb : DescriptorSb) (g : Nat) (es : List Event) (desc desc' : Option GroupDesc) :
    Prop :=
  match desc with
  | none => desc' = none
  | some desc => ∃ x, desc' = some x ∧ GroupAfter sb g es desc x

theorem DescEach.append {es es' : List Event} {desc desc1 desc' : Option GroupDesc}
    (h : DescEach sb g es desc desc1) (h' : DescEach sb g es' desc1 desc') :
    DescEach sb g (es ++ es') desc desc' := by
  cases desc with
  | none =>
      cases h
      exact h'
  | some desc =>
      obtain ⟨x, rfl, hx⟩ := h
      obtain ⟨y, rfl, hy⟩ := h'
      exact ⟨y, rfl, hx.append hy⟩

theorem isZero_onBgAll {es : List Event} : (onBgAll es {}).IsZero ↔ Cancel es := by
  obtain ⟨h1, h2, h3⟩ := onBgAll_spec es {}
  rw [BgDelta.IsZero, h1, h2, h3, Int.zero_add, Int.zero_add, Int.zero_add, Cancel]

/-- One write-back of the events of a group: where they cancel the descriptor stays,
    and otherwise it is as if each had been written back. -/
theorem submitBlockGroup_onBgAll {es : List Event} {desc desc' : GroupDesc}
    (h : submitBlockGroup sb g (onBgAll es {}) desc = .ok desc') :
    (Cancel es ∧ desc' = desc) ∨ (¬ Cancel es ∧ GroupAfter sb g es desc desc') := by
  obtain ⟨hb, hi, hd, hzero, hne⟩ := submitBlockGroup_spec h
  obtain ⟨h1, h2, h3⟩ := onBgAll_spec es {}
  rw [Int.zero_add] at h1 h2 h3
  rw [isZero_onBgAll] at hzero hne
  by_cases hz : Cancel es
  · exact Or.inl ⟨hz, hzero hz⟩
  · obtain ⟨hnone, hsome⟩ := submitUnused_spec (hne hz)
    have hidx := onBgAll_idx es {}
    refine Or.inr ⟨hz, h1 ▸ hb, h2 ▸ hi, h3 ▸ hd, fun hall => ?_, fun hex => ?_⟩
    · exact hnone (hidx.mpr ⟨rfl, hall⟩)
    · obtain ⟨n, hn, hu, hu', heq⟩ := hsome fun h0 =>
        Unused.not_all_none.mpr hex (hidx.mp h0).2
      refine ⟨n, hn, hu, hu', ?_⟩
      rw [heq, usedUpTo_onBgAll]
      rfl

/-- A single event that allocates an inode does not cancel. -/
theorem allocIdx_of_cancel {e : Event} (h : Cancel (eventsOn g [e])) :
    ∀ e' ∈ eventsOn g [e], e'.allocIdx = none := by
  obtain ⟨-, hi, -⟩ := h
  rw [eventsOn_cons] at hi ⊢
  split
  next hg =>
    rw [if_pos hg] at hi
    intro e' he'
    obtain rfl : e' = e := by simpa [eventsOn] using he'
    cases e' <;> first | rfl | simp [eventsOn, Event.inodesDelta] at hi
  next => simp [eventsOn]

theorem GroupAfter.of_cancel {es : List Event} (h : Cancel es)
    (hnone : ∀ e ∈ es, e.allocIdx = none) (desc : GroupDesc) : GroupAfter sb g es desc desc := by
  obtain ⟨h1, h2, h3⟩ := h
  refine ⟨by omega, by omega, by omega, fun _ => rfl, fun hex => ?_⟩
  exact absurd hnone (Unused.not_all_none.mpr hex)

theorem descEach_of_single {e : Event} {desc desc' : Option GroupDesc}
    (h : DescAfter sb g (some (onBgAll (eventsOn g [e]) {})) desc desc') :
    DescEach sb g (eventsOn g [e]) desc desc' := by
  cases desc with
  | none => exact h
  | some desc =>
      obtain ⟨x, rfl, hx⟩ := h
      refine ⟨x, rfl, ?_⟩
      rcases submitBlockGroup_onBgAll hx with ⟨hz, rfl⟩ | ⟨-, hafter⟩
      · exact .of_cancel hz (allocIdx_of_cancel hz) x
      · exact hafter

theorem eventsOn_append (g : Nat) (es es' : List Event) :
    eventsOn g (es ++ es') = eventsOn g es ++ eventsOn g es' := List.filter_append ..

/-- What one transaction for each event has done. -/
structure EachSpec (sb : DescriptorSb) (events : List Event) (d d' : Disk) : Prop where
  desc : ∀ g, DescEach sb g (eventsOn g events) (d.descs g) (d'.descs g)
  blocks : blocksAfter events d.blocks = some d'.blocks
  freeBlocksCount : (d'.freeBlocksCount : Int) = d.freeBlocksCount + total Event.blocksDelta events
  freeInodesCount :
    (d'.freeInodesCount : Int) = d.freeInodesCount + total Event.sbInodesDelta events

theorem DescEach.nil (desc : Option GroupDesc) : DescEach sb g [] desc desc := by
  cases desc with
  | none => rfl
  | some desc =>
      refine ⟨desc, rfl, ?_⟩
      refine ⟨by simp, by simp, by simp, fun _ => rfl, ?_⟩
      rintro ⟨e, he, -⟩
      cases he

theorem AppliedEach.spec (h : AppliedEach sb events d d') : EachSpec sb events d d' := by
  induction h with
  | nil d => exact ⟨fun _ => .nil _, rfl, by simp, by simp⟩
  | cons hone _ ih =>
      have h1 := hone.spec
      refine ⟨fun g => ?_, ?_, ?_, ?_⟩
      · rw [← List.singleton_append, eventsOn_append]
        exact (descEach_of_single (h1.desc g)).append (ih.desc g)
      · have hb := h1.blocks
        rw [blocksAfter] at hb ⊢
        obtain ⟨blocks, hblocks, heq⟩ := Option.bind_eq_some_iff.mp hb
        cases heq
        rw [hblocks, Option.bind_some]
        exact ih.blocks
      · have hf := h1.freeBlocksCount
        rw [total_cons, total_nil] at hf
        rw [ih.freeBlocksCount, hf, total_cons]
        omega
      · have hf := h1.freeInodesCount
        rw [total_cons, total_nil] at hf
        rw [ih.freeInodesCount, hf, total_cons]
        omega

/-! ## Both ways -/

/-- The two descriptors of a group agree unless the events mask an allocation. -/
theorem desc_eq_iff {desc1 desc' : Option GroupDesc}
    (h : DescAfter sb g (some (onBgAll (eventsOn g events) {})) (d.descs g) desc1)
    (heach : DescEach sb g (eventsOn g events) (d.descs g) desc') :
    desc' = desc1 ↔ ¬ Masked sb events d g := by
  cases hdesc : d.descs g with
  | none =>
      rw [hdesc] at h heach
      cases h
      cases heach
      refine iff_of_true rfl ?_
      rintro ⟨-, x, n, hx, -⟩
      rw [hdesc] at hx
      cases hx
  | some desc =>
      rw [hdesc] at h heach
      obtain ⟨x, rfl, hx⟩ := h
      obtain ⟨y, rfl, hy⟩ := heach
      rw [Option.some.injEq]
      rcases submitBlockGroup_onBgAll hx with ⟨hz, rfl⟩ | ⟨hz, hafter⟩
      · have ⟨h1, h2, h3⟩ := hz
        rw [hy.eq_iff (by omega) (by omega) (by omega), hy.unused.eq_iff, not_iff_not]
        constructor
        · rintro ⟨n, hn, hex⟩
          exact ⟨hz, x, n, hdesc, hn, hex⟩
        · rintro ⟨-, x', n, hx', hn, hex⟩
          rw [hdesc] at hx'
          cases hx'
          exact ⟨n, hn, hex⟩
      · refine iff_of_true ?_ fun hmask => hz hmask.1
        rw [hy.eq_iff hafter.blocks hafter.inodes hafter.dirs]
        exact hy.unused.unique hafter.unused

/-- One transaction and one for each event leave the same metadata exactly where no
    group has a masked allocation. -/
theorem applied_eq_each_iff (h : Applied sb events d d1) (heach : AppliedEach sb events d d') :
    SameMetadata d1 d' ↔ ∀ g, ¬ Masked sb events d g := by
  have hspec := h.spec
  have hspec' := heach.spec
  have hdesc := fun g => desc_eq_iff (hspec.desc g) (hspec'.desc g)
  constructor
  · intro hsame g
    rw [← hdesc g, hsame.descs]
  · intro hno
    refine ⟨funext fun g => (hdesc g).mpr (hno g), ?_, ?_, ?_⟩
    · exact Option.some.inj (hspec'.blocks.symm.trans hspec.blocks)
    · exact_mod_cast hspec'.freeBlocksCount.trans hspec.freeBlocksCount.symm
    · exact_mod_cast hspec'.freeInodesCount.trans hspec.freeInodesCount.symm

/-! ## A cancelled allocation -/

def commitEach (sb : DescriptorSb) : List Event → Disk → Except Fault Disk
  | [], d => .ok d
  | e :: es, d => (commit sb [e] d).bind (commitEach sb es)

theorem appliedEach_of_commitEach (h : commitEach sb events d = .ok d') :
    AppliedEach sb events d d' := by
  induction events generalizing d with
  | nil =>
      cases h
      exact .nil d'
  | cons e es ih =>
      obtain ⟨d1, hone, hrest⟩ := bind_ok h
      exact .cons (applied_of_commit hone) (ih hrest)

/-- One group of 32 inodes. -/
def oneGroupSb : DescriptorSb where
  isDirEntryVersion2 := true
  inodeSize := 128
  inodesPerGroup := 32
  featuresIncompatible := 0
  featuresReadonly := 0
  firstDataBlock := 0
  blocksPerGroup := 32768
  creatorOs := 0
  revLevel := 1
  bgCount := 1
  wantExtraIsize := 0
  firstDataBlock_le := SuperBlock.zero_firstDataBlock_le
  blocksPerGroup_pos := SuperBlock.groupOf32768_pos
  blocksPerGroup_lt := SuperBlock.groupOf32768_lt
  bgCount_lt := SuperBlock.oneGroup_lt
  blocksCount := 32768
  inodesCount := 32
  blockDescSize := 32
  blkSize := 4096

/-- The first 12 inodes are in use and the other 20 never were. -/
def twelveUsed : Disk :=
  { descs := fun g => if g = 0 then some ⟨100, 20, 2, 20⟩ else none
    blocks := fun lba => if lba = 5 then some [0xff, 0x0f, 0, 0] else none
    inodes := fun _ => some (List.replicate 128 0)
    orphanedInode := fun _ => none
    freeBlocksCount := 100, freeInodesCount := 20, lastOrphan := 0 }

/-- A file takes position 12 and the one at position 11 is freed. -/
def replaceFile : List Event :=
  [.inodeAllocationOnBg 0 5 12 .regularFile, .freeInodesCountDecOnSb,
    .inodeDeallocationOnBg 12 0 5 11 .regularFile, .freeInodesCountIncOnSb]

/-- The allocation alone: both ways `itable_unused` falls. -/
theorem applied_eq_each_iff_alloc : ∃ d1 d',
    Applied oneGroupSb (replaceFile.take 2) twelveUsed d1 ∧
    AppliedEach oneGroupSb (replaceFile.take 2) twelveUsed d' ∧ SameMetadata d1 d' := by
  obtain ⟨d1, h1⟩ := ok_of_isOk (x := commit oneGroupSb (replaceFile.take 2) twelveUsed)
    (by decide +kernel)
  obtain ⟨d', h'⟩ := ok_of_isOk (x := commitEach oneGroupSb (replaceFile.take 2) twelveUsed)
    (by decide +kernel)
  have happ := applied_of_commit h1
  have heach := appliedEach_of_commitEach h'
  refine ⟨d1, d', happ, heach, (applied_eq_each_iff happ heach).mpr ?_⟩
  rintro g ⟨⟨-, hi, -⟩, desc, n, hdesc, -⟩
  by_cases hg : g = 0
  · subst hg
    exact absurd hi (by decide)
  · simp [twelveUsed, hg] at hdesc

/-- The file that takes position 12 is not counted where another is freed along with
    it: `itable_unused` still has positions 12 to 31. -/
theorem cancelled_allocation_masked :
    ¬ ∀ (sb : DescriptorSb) (events : List Event) (d d1 d' : Disk),
      Applied sb events d d1 → AppliedEach sb events d d' → SameMetadata d1 d' := by
  intro hall
  obtain ⟨d1, h1⟩ := ok_of_isOk (x := commit oneGroupSb replaceFile twelveUsed)
    (by decide +kernel)
  obtain ⟨d', h'⟩ := ok_of_isOk (x := commitEach oneGroupSb replaceFile twelveUsed)
    (by decide +kernel)
  have happ := applied_of_commit h1
  have heach := appliedEach_of_commitEach h'
  have hsame := congrFun (hall _ _ _ _ _ happ heach).descs 0
  refine (desc_eq_iff (happ.spec.desc 0) (heach.spec.desc 0)).mp hsame ?_
  exact ⟨⟨by decide, by decide, by decide⟩, _, 32, rfl, rfl, _, List.mem_cons_self .., 12, rfl,
    by decide⟩

end RustExt4.Transaction
