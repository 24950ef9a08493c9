/-
  RustExt4.Transaction.FlushSpec

  What a transaction that is written back has done to the counters: each
  descriptor and the superblock have moved by the totals of the events, and the
  operations on inode records have touched none of them.
-/
import RustExt4.Transaction.Flush
import Mathlib.Data.List.Dedup

namespace RustExt4.Transaction

variable {sb : DescriptorSb} {g : Nat} {events : List Event} {d d' : Disk}

/-! ## One descriptor -/

theorem toCounter_ok {bits n : Nat} {cnt : Int} (h : toCounter bits cnt = .ok n) :
    (n : Int) = cnt ∧ n < 2 ^ bits := by
  unfold toCounter at h
  split at h
  next hcnt =>
    cases h
    obtain ⟨h0, hlt⟩ := hcnt
    refine ⟨Int.toNat_of_nonneg h0, ?_⟩
    have := Int.toNat_of_nonneg h0
    exact_mod_cast this ▸ hlt
  next => cases h

theorem bind_ok {α β ε : Type} {x : Except ε α} {f : α → Except ε β} {b : β}
    (h : x.bind f = .ok b) : ∃ a, x = .ok a ∧ f a = .ok b := by
  cases x with
  | error e => cases h
  | ok a => exact ⟨a, rfl, h⟩

/-- The counters move by the delta; a delta of zeros leaves all as it is. -/
theorem submitBlockGroup_spec {delta : BgDelta} {desc desc' : GroupDesc}
    (h : submitBlockGroup sb g delta desc = .ok desc') :
    (desc'.freeBlocksCount : Int) = desc.freeBlocksCount + delta.freeBlocksCntDelta ∧
    (desc'.freeInodesCount : Int) = desc.freeInodesCount + delta.freeInodesCntDelta ∧
    (desc'.usedDirsCount : Int) = desc.usedDirsCount + delta.usedDirsCntDelta ∧
    (delta.IsZero → desc' = desc) ∧
    (¬ delta.IsZero →
      submitUnused sb g delta.maxAllocIdxInBg desc.itableUnused = .ok desc'.itableUnused) := by
  -- A change of zero returns before anything is checked.
  unfold submitBlockGroup at h
  split at h
  next hzero =>
    cases h
    obtain ⟨h1, h2, h3⟩ := hzero
    exact ⟨by omega, by omega, by omega, fun _ => rfl, fun hno => absurd ⟨h1, h2, h3⟩ hno⟩
  next hzero =>
    obtain ⟨unused, hunused, h⟩ := bind_ok h
    obtain ⟨blocks, hblocks, h⟩ := bind_ok h
    obtain ⟨inodes, hinodes, h⟩ := bind_ok h
    obtain ⟨dirs, hdirs, h⟩ := bind_ok h
    cases h
    exact ⟨(toCounter_ok hblocks).1, (toCounter_ok hinodes).1, (toCounter_ok hdirs).1,
      fun hz => absurd hz hzero, fun _ => hunused⟩

theorem counterBits_le (sb : DescriptorSb) : 2 ^ sb.counterBits ≤ 2 ^ 32 := by
  unfold DescriptorSb.counterBits
  split <;> decide

/-- The free counters of a descriptor stay `u32`. -/
theorem submitBlockGroup_lt {delta : BgDelta} {desc desc' : GroupDesc}
    (h : submitBlockGroup sb g delta desc = .ok desc') (hb : desc.freeBlocksCount < 2 ^ 32)
    (hi : desc.freeInodesCount < 2 ^ 32) :
    desc'.freeBlocksCount < 2 ^ 32 ∧ desc'.freeInodesCount < 2 ^ 32 := by
  unfold submitBlockGroup at h
  split at h
  · cases h
    exact ⟨hb, hi⟩
  · obtain ⟨unused, _, h⟩ := bind_ok h
    obtain ⟨blocks, hblocks, h⟩ := bind_ok h
    obtain ⟨inodes, hinodes, h⟩ := bind_ok h
    obtain ⟨dirs, _, h⟩ := bind_ok h
    cases h
    have hbits := counterBits_le sb
    exact ⟨(toCounter_ok hblocks).2.trans_le hbits, (toCounter_ok hinodes).2.trans_le hbits⟩

/-- The positions that count as used: up to the highest one that was allocated. -/
theorem submitUnused_spec {idx : Option Nat} {unused unused' : Nat}
    (h : submitUnused sb g idx unused = .ok unused') :
    (idx = none → unused' = unused) ∧
    (idx ≠ none → ∃ n, sb.inodesInBg g = .ok n ∧ unused ≤ n ∧ unused' ≤ n ∧
      n - unused' = usedUpTo idx (n - unused)) := by
  unfold submitUnused at h
  split at h
  next =>
    cases h
    exact ⟨fun _ => rfl, fun hne => absurd rfl hne⟩
  next i =>
    refine ⟨fun hnone => (by cases hnone), fun _ => ?_⟩
    split at h
    · cases h
    next n hn =>
      unfold useInode at h
      split at h
      · cases h
      next hle =>
        split at h
        next hused =>
          split at h
          · cases h
          next hi =>
            -- the inode was past all that had been used
            obtain ⟨heq, -⟩ := toCounter_ok h
            have heq' : unused' = n - i - 1 := by exact_mod_cast heq
            refine ⟨n, hn, by omega, by omega, ?_⟩
            rw [usedUpTo]
            omega
        next hused =>
          -- it was not, so nothing moves
          cases h
          refine ⟨n, hn, by omega, by omega, ?_⟩
          rw [usedUpTo]
          omega

/-! ## The whole write-back -/

/-- What the operations on inode records leave alone. -/
structure SameCounts (d d' : Disk) : Prop where
  descs : d'.descs = d.descs
  blocks : d'.blocks = d.blocks
  freeBlocksCount : d'.freeBlocksCount = d.freeBlocksCount
  freeInodesCount : d'.freeInodesCount = d.freeInodesCount

theorem SameCounts.refl (d : Disk) : SameCounts d d := ⟨rfl, rfl, rfl, rfl⟩

theorem updateInode_sameCounts {d d' : Disk} {ino : Nat} {f : Bytes → Except Fault Bytes}
    (h : d.updateInode ino f = .ok d') : SameCounts d d' := by
  unfold Disk.updateInode at h
  split at h
  · cases h
  · split at h
    · cases h
    · cases h
      exact ⟨rfl, rfl, rfl, rfl⟩

theorem submitInodeOps_sameCounts {op : InodeOps} (h : submitInodeOps sb d op = .ok d') :
    SameCounts d d' := by
  cases op with
  | rmLink ino =>
      simp only [submitInodeOps] at h
      split at h
      · cases h
      · split at h
        · cases h
        · split at h <;> cases h <;> exact ⟨rfl, rfl, rfl, rfl⟩
  | updateOrphanLink pred succ =>
      simp only [submitInodeOps] at h
      split at h
      · cases h
        exact ⟨rfl, rfl, rfl, rfl⟩
      · exact updateInode_sameCounts h
  | _ => exact updateInode_sameCounts h

theorem submitAllInodeOps_sameCounts {ops : List InodeOps}
    (h : submitAllInodeOps sb ops d = .ok d') : SameCounts d d' := by
  induction ops generalizing d with
  | nil =>
      cases h
      exact .refl d'
  | cons op ops ih =>
      unfold submitAllInodeOps at h
      split at h
      · cases h
      next d1 hop =>
        have h1 := submitInodeOps_sameCounts hop
        have h2 := ih h
        exact ⟨h2.descs.trans h1.descs, h2.blocks.trans h1.blocks,
          h2.freeBlocksCount.trans h1.freeBlocksCount,
          h2.freeInodesCount.trans h1.freeInodesCount⟩

/-- The update of one group's descriptor, where it can be read. -/
def DescAfter (sb : DescriptorSb) (g : Nat) (delta : Option BgDelta)
    (desc desc' : Option GroupDesc) : Prop :=
  match desc with
  | none => desc' = none
  | some desc => ∃ x, desc' = some x ∧ submitBlockGroup sb g (delta.getD {}) desc = .ok x

theorem DescAfter.of_eq {delta : Option BgDelta} (hzero : (delta.getD {}).IsZero)
    (desc : Option GroupDesc) : DescAfter sb g delta desc desc := by
  cases desc with
  | none => rfl
  | some desc => exact ⟨desc, rfl, by rw [submitBlockGroup, if_pos hzero]⟩

/-- What the loop over the groups has done: each group in the order is updated once. -/
structure GroupsDone (sb : DescriptorSb) (bgDeltas : Nat → Option BgDelta) (order : List Nat)
    (d d' : Disk) : Prop where
  blocks : d'.blocks = d.blocks
  inodes : d'.inodes = d.inodes
  freeBlocksCount : d'.freeBlocksCount = d.freeBlocksCount
  freeInodesCount : d'.freeInodesCount = d.freeInodesCount
  frame : ∀ g ∉ order, d'.descs g = d.descs g
  desc : ∀ g ∈ order, DescAfter sb g (bgDeltas g) (d.descs g) (d'.descs g)

namespace GroupsDone

variable {bgDeltas : Nat → Option BgDelta} {order : List Nat}

/-- A group without a change may come first. -/
theorem skip (h : GroupsDone sb bgDeltas order d d') (hg : g ∉ order)
    (hzero : ((bgDeltas g).getD {}).IsZero) : GroupsDone sb bgDeltas (g :: order) d d' := by
  refine ⟨h.blocks, h.inodes, h.freeBlocksCount, h.freeInodesCount,
    fun g' hg' => h.frame g' fun hmem => hg' (List.mem_cons_of_mem g hmem), ?_⟩
  intro g' hg'
  rcases List.mem_cons.mp hg' with rfl | hmem
  · rw [h.frame g' hg]
    exact .of_eq hzero _
  · exact h.desc g' hmem

/-- The group that comes first is updated. -/
theorem update {delta : BgDelta} {desc desc' : GroupDesc} (hg : g ∉ order)
    (hdelta : bgDeltas g = some delta) (hdesc : d.descs g = some desc)
    (hsub : submitBlockGroup sb g delta desc = .ok desc')
    (h : GroupsDone sb bgDeltas order
      { d with descs := Function.update d.descs g (some desc') } d') :
    GroupsDone sb bgDeltas (g :: order) d d' := by
  have hother : ∀ g' ≠ g, Function.update d.descs g (some desc') g' = d.descs g' :=
    fun g' hne => Function.update_of_ne hne ..
  refine ⟨h.blocks, h.inodes, h.freeBlocksCount, h.freeInodesCount, ?_, ?_⟩
  · intro g' hg'
    rw [List.mem_cons, not_or] at hg'
    exact (h.frame g' hg'.2).trans (hother g' hg'.1)
  · intro g' hg'
    rcases List.mem_cons.mp hg' with rfl | hmem
    · rw [h.frame g' hg, hdesc, hdelta]
      exact ⟨desc', Function.update_self .., hsub⟩
    · have hin : DescAfter sb g' (bgDeltas g')
          (Function.update d.descs g (some desc') g') (d'.descs g') := h.desc g' hmem
      rwa [hother g' (ne_of_mem_of_not_mem hmem hg)] at hin

end GroupsDone

theorem submitBlockGroups_spec {bgDeltas : Nat → Option BgDelta} {order : List Nat}
    (hnodup : order.Nodup) (h : submitBlockGroups sb bgDeltas order d = .ok d') :
    GroupsDone sb bgDeltas order d d' := by
  -- On the groups left; a group without a change is passed over.
  induction order generalizing d with
  | nil =>
      cases h
      exact ⟨rfl, rfl, rfl, rfl, fun _ _ => rfl, by simp⟩
  | cons g order ih =>
      obtain ⟨hg, hnodup⟩ := List.nodup_cons.mp hnodup
      unfold submitBlockGroups at h
      split at h
      next hdelta => exact (ih hnodup h).skip hg (hdelta ▸ ⟨rfl, rfl, rfl⟩)
      next delta hdelta =>
        split at h
        next hzero => exact (ih hnodup h).skip hg (hdelta ▸ hzero)
        next hzero =>
          split at h
          · cases h
          next desc hdesc =>
            split at h
            · cases h
            next desc' hsub => exact .update hg hdelta hdesc hsub (ih hnodup h)

theorem submitSb_spec {sbDelta : Option SbDelta} (h : submitSb sb sbDelta d = .ok d') :
    d'.descs = d.descs ∧ d'.blocks = d.blocks ∧
    (d'.freeBlocksCount : Int) = d.freeBlocksCount + (sbDelta.getD {}).freeBlocksCntDelta ∧
    (d'.freeInodesCount : Int) = d.freeInodesCount + (sbDelta.getD {}).freeInodesCntDelta ∧
    (d.freeInodesCount < 2 ^ 32 → d'.freeInodesCount < 2 ^ 32) := by
  unfold submitSb at h
  split at h
  next =>
    cases h
    exact ⟨rfl, rfl, (Int.add_zero _).symm, (Int.add_zero _).symm, id⟩
  next delta =>
    obtain ⟨inodes, hinodes, h⟩ := bind_ok h
    obtain ⟨blocks, hblocks, h⟩ := bind_ok h
    cases h
    exact ⟨rfl, rfl, (toCounter_ok hblocks).1, (toCounter_ok hinodes).1,
      fun _ => (toCounter_ok hinodes).2⟩

theorem onSb_foldl (es : List Event) (d : Option SbDelta) :
    ((es.foldl (fun d e => e.onSb d) d).getD {}).freeBlocksCntDelta =
      (d.getD {}).freeBlocksCntDelta + total Event.blocksDelta es ∧
    ((es.foldl (fun d e => e.onSb d) d).getD {}).freeInodesCntDelta =
      (d.getD {}).freeInodesCntDelta + total Event.sbInodesDelta es := by
  induction es generalizing d with
  | nil => simp
  | cons e es ih =>
      obtain ⟨h1, h2⟩ := ih (e.onSb d)
      rw [List.foldl_cons, h1, h2, total_cons, total_cons]
      cases e <;> simp [Event.onSb, Event.blocksDelta, Event.sbInodesDelta] <;> omega

/-- What a transaction that was written back has changed. -/
structure AppliedSpec (sb : DescriptorSb) (events : List Event) (d d' : Disk) : Prop where
  desc : ∀ g, DescAfter sb g (some (onBgAll (eventsOn g events) {})) (d.descs g) (d'.descs g)
  blocks : blocksAfter events d.blocks = some d'.blocks
  freeBlocksCount : (d'.freeBlocksCount : Int) = d.freeBlocksCount + total Event.blocksDelta events
  freeInodesCount :
    (d'.freeInodesCount : Int) = d.freeInodesCount + total Event.sbInodesDelta events
  freeInodesCount_lt : d.freeInodesCount < 2 ^ 32 → d'.freeInodesCount < 2 ^ 32

theorem Applied.spec (h : Applied sb events d d') : AppliedSpec sb events d d' := by
  obtain ⟨w, order, hw, ⟨hnodup, hkeys⟩, hflush⟩ := h
  obtain ⟨-, blocks, hblocks, rfl⟩ := WritebackGroup.compress_eq_some.mp hw
  obtain ⟨d1, hgroups, hflush⟩ := bind_ok hflush
  obtain ⟨d2, hops, hsb⟩ := bind_ok hflush
  -- The groups, the inodes and the superblock write different parts of the disk.
  have hdone := submitBlockGroups_spec hnodup hgroups
  have hsame := submitAllInodeOps_sameCounts hops
  obtain ⟨hd3, hb3, hf3, hi3, hlt3⟩ := submitSb_spec hsb
  obtain ⟨hs1, hs2⟩ := onSb_foldl events none
  refine ⟨fun g => ?_, ?_, ?_, ?_, ?_⟩
  · rw [hd3, hsame.descs]
    have hafter := bgDeltaAfter_eq events g none
    by_cases hg : g ∈ order
    · have := hdone.desc g hg
      have hsome := (hkeys g).mp hg
      simp only [WritebackGroup.new] at this hsome
      rw [hafter] at this hsome
      split at hsome
      next => cases hsome
      next hne => rwa [if_neg hne] at this
    · rw [hdone.frame g hg]
      have hnone := (hkeys g).not.mp hg
      simp only [WritebackGroup.new] at hnone
      rw [hafter] at hnone
      split at hnone
      next hnil =>
        rw [hnil]
        exact .of_eq ⟨rfl, rfl, rfl⟩ _
      next => exact absurd rfl hnone
  · rw [hb3, hsame.blocks, hdone.blocks]
    exact hblocks
  · rw [hf3, hsame.freeBlocksCount, hdone.freeBlocksCount]
    simpa [WritebackGroup.new] using hs1
  · rw [hi3, hsame.freeInodesCount, hdone.freeInodesCount]
    simpa [WritebackGroup.new] using hs2
  · rw [← hdone.freeInodesCount, ← hsame.freeInodesCount]
    exact hlt3

/-! ## Running a commit -/

/-- `Events::apply_on_disk` where the hash map gives each group at its last event. -/
def commit (sb : DescriptorSb) (events : List Event) (d : Disk) : Except Fault Disk :=
  match WritebackGroup.compress sb.toSuperBlock events (.new d.blocks) with
  | none => .error .panic
  | some w => flush sb w (events.filterMap Event.bgid).dedup { d with blocks := w.blocks }

theorem applied_of_commit (h : commit sb events d = .ok d') : Applied sb events d d' := by
  unfold commit at h
  split at h
  · cases h
  next w hw =>
    refine ⟨w, _, hw, ⟨List.nodup_dedup _, fun g => ?_⟩, h⟩
    obtain ⟨-, blocks, -, rfl⟩ := WritebackGroup.compress_eq_some.mp hw
    have hgroup : (bgDeltaAfter events g none).isSome ↔ eventsOn g events ≠ [] := by
      rw [bgDeltaAfter_eq]
      split
      next hnil => simp [hnil]
      next hne => simp [hne]
    rw [List.mem_dedup, List.mem_filterMap]
    refine Iff.trans ?_ hgroup.symm
    simp only [eventsOn, ne_eq, List.filter_eq_nil_iff, decide_eq_true_eq, not_forall, not_not,
      exists_prop]

theorem ok_of_isOk {α : Type} {x : Except Fault α} (h : x.isOk = true) : ∃ a, x = .ok a := by
  cases x with
  | error e => cases h
  | ok a => exact ⟨a, rfl⟩

end RustExt4.Transaction
