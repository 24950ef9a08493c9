/-
  RustExt4.Superblock.OrphanList

  The list of orphaned inodes (`superblock/mod.rs`, `add_orphan_link` to
  `remove_orphan`; `transaction/event.rs`, the `RmLink` and `UpdateOrphanLink`
  branches of `submit_inode_ops`).  In memory it is doubly linked and changes at
  once; on disk it is singly linked, from the superblock's `last_orphan` through
  the `deletion_time` of each inode, and a removal reaches it when the event that
  it recorded is committed.
-/
import RustExt4.Lib.LinkedMap
import RustExt4.Lib.Runs

namespace RustExt4

open LinkedMap (Holds IsFirst Succ Chain)

/-- The two lists and the `(pred, succ)` pairs of the events that are recorded and
    not committed. -/
structure OrphanList where
  /-- inode -> (prev, next) -/
  orphanedInode : Nat → Option (Nat × Nat)
  lastOrphan : Nat
  deletionTime : Nat → Nat
  pending : List (Nat × Nat)

namespace OrphanList

/-- No inode is orphaned. -/
def empty (deletionTime : Nat → Nat) : OrphanList :=
  { orphanedInode := fun _ => none, lastOrphan := 0, deletionTime := deletionTime, pending := [] }

/-- `add_orphan_link` -/
def addOrphanLink (s : OrphanList) (pred cur succ : Nat) : OrphanList :=
  { s with orphanedInode := Function.update s.orphanedInode cur (some (pred, succ)) }

/-- `replace_orphan_prevlink` -/
def replaceOrphanPrevlink (s : OrphanList) (pred cur : Nat) : OrphanList :=
  { s with orphanedInode := LinkedMap.setPred s.orphanedInode cur pred }

/-- `remove_orphan`; an inode that is not in the map is `todo!()`. -/
def removeOrphan (s : OrphanList) (cur : Nat) : Option OrphanList :=
  match s.orphanedInode cur with
  | some (pred, succ) =>
    let guard := Function.update s.orphanedInode cur none
    let guard := LinkedMap.setSucc guard pred succ
    let guard := LinkedMap.setPred guard succ pred
    some { s with orphanedInode := guard, pending := s.pending ++ [(pred, succ)] }
  | none => none

/-- The branch of `InodeOps::RmLink` for a link count that becomes 0. -/
def rmLastLink (s : OrphanList) (ino : Nat) : OrphanList :=
  let head := s.lastOrphan
  let s := { s with
    deletionTime := Function.update s.deletionTime ino head
    lastOrphan := ino }
  (s.replaceOrphanPrevlink ino head).addOrphanLink 0 ino head

/-- `InodeOps::UpdateOrphanLink` -/
def updateOrphanLink (s : OrphanList) (pred succ : Nat) : OrphanList :=
  if pred = 0 then { s with lastOrphan := succ }
  else { s with deletionTime := Function.update s.deletionTime pred succ }

/-! ## Interleavings -/

inductive Action
  /-- commit of a `RmLink` that brings the link count of `ino` to 0 -/
  | rmLink (ino : Nat)
  /-- `remove_orphan` in the `Drop` of an inode -/
  | removeOrphan (ino : Nat)
  /-- commit of a recorded `UpdateOrphanLink` -/
  | commit (pred succ : Nat)

/-- Any transaction may go on.  The link count of an inode in the map is 0 already, so
    no `RmLink` brings it there again. -/
def Step (s : OrphanList) (a : Action) (s' : OrphanList) : Prop :=
  match a with
  | .rmLink ino => ino ≠ 0 ∧ s.orphanedInode ino = none ∧ s' = s.rmLastLink ino
  | .removeOrphan ino => s.removeOrphan ino = some s'
  | .commit pred succ => (pred, succ) ∈ s.pending ∧
      s' = { s.updateOrphanLink pred succ with pending := s.pending.erase (pred, succ) }

/-- A push finds the first inode of the map in `last_orphan`.  A commit of `(pred, succ)`
    finds that `succ` comes after `pred` in the map, or that `pred` has left the map, or
    that another event for `pred` is still to come. -/
def Current (s : OrphanList) : Action → Prop
  | .rmLink _ => IsFirst 0 s.orphanedInode s.lastOrphan
  | .removeOrphan _ => True
  | .commit pred succ => Succ 0 s.orphanedInode pred succ ∨
      (pred ≠ 0 ∧ s.orphanedInode pred = none) ∨
      ∃ succ', (pred, succ') ∈ s.pending.erase (pred, succ)

/-- The chain on disk visits the inodes of the map in the order of the map's links. -/
def Matches (s : OrphanList) : Prop :=
  ∃ l, Holds 0 s.orphanedInode l ∧ Chain 0 s.deletionTime s.lastOrphan l

/-- The link on disk that leads on from `p`; the superblock's is that of 0. -/
def next (s : OrphanList) (p : Nat) : Nat := if p = 0 then s.lastOrphan else s.deletionTime p

/-- The map is a list, and each link on disk is that of the map or has an event pending. -/
structure Inv (s : OrphanList) : Prop where
  holds : ∃ l, Holds 0 s.orphanedInode l
  links : ∀ p q, Succ 0 s.orphanedInode p q → s.next p = q ∨ ∃ q', (p, q') ∈ s.pending

theorem Inv.isMatch {s : OrphanList} (h : s.Inv) (hpending : s.pending = []) : s.Matches := by
  obtain ⟨l, hl⟩ := h.holds
  have hlinks : ∀ p q, Succ 0 s.orphanedInode p q → s.next p = q := by
    intro p q hsucc
    rcases h.links p q hsucc with heq | ⟨q', hq'⟩
    · exact heq
    · rw [hpending] at hq'
      cases hq'
  refine ⟨l, hl, hl.chain ?_ fun x pr q hx => ?_⟩
  · have := hlinks 0 _ (Or.inl ⟨rfl, hl.isFirst⟩)
    rw [next, if_pos rfl] at this
    exact this ▸ hl.isFirst
  · have hx0 : x ≠ 0 := by
      rintro rfl
      rw [hl.nil_eq_none] at hx
      cases hx
    have := hlinks x q (Or.inr ⟨pr, hx⟩)
    rwa [next, if_neg hx0] at this

theorem empty_inv (deletionTime : Nat → Nat) : (empty deletionTime).Inv where
  holds := ⟨[], List.nodup_nil, List.not_mem_nil, by simp [empty], trivial⟩
  links := by
    rintro p q (⟨rfl, ⟨s, hs⟩ | ⟨rfl, -⟩⟩ | ⟨pr, hp⟩)
    · cases hs
    · exact Or.inl rfl
    · cases hp

/-- A push at the head that the map has links the new inode to it on both sides. -/
theorem Inv.rmLastLink {s : OrphanList} (h : s.Inv) {ino : Nat} (h0 : ino ≠ 0)
    (hnew : s.orphanedInode ino = none) (hhead : IsFirst 0 s.orphanedInode s.lastOrphan) :
    (s.rmLastLink ino).Inv := by
  obtain ⟨l, hl⟩ := h.holds
  have hmap : (s.rmLastLink ino).orphanedInode =
      LinkedMap.pushFront 0 s.orphanedInode ino s.lastOrphan := rfl
  have hpush := hl.pushFront (x := ino) (by rw [← hl.mem, hnew]; simp) h0
  rw [← hl.isFirst_iff.mp hhead, ← hmap] at hpush
  refine ⟨⟨_, hpush⟩, fun p q hsucc => ?_⟩
  by_cases hp : p = 0
  · subst hp
    exact Or.inl (hpush.succ_unique (Or.inl ⟨rfl, hpush.isFirst⟩) hsucc)
  · by_cases hpi : p = ino
    · subst hpi
      left
      rw [next, if_neg h0]
      refine (Function.update_self ..).trans (hpush.succ_unique (Or.inr ⟨0, ?_⟩) hsucc)
      rw [hmap]
      exact Function.update_self ..
    · rw [hmap, LinkedMap.succ_pushFront hp hpi] at hsucc
      have hnext : (s.rmLastLink ino).next p = s.next p := by
        rw [next, next, if_neg hp, if_neg hp]
        exact Function.update_of_ne hpi ..
      rw [hnext]
      exact h.links p q hsucc

/-- A removal makes one link of the disk stale, the one its event is for. -/
theorem Inv.removeOrphan {s s' : OrphanList} (h : s.Inv) {cur : Nat}
    (hrm : s.removeOrphan cur = some s') : s'.Inv := by
  obtain ⟨l, hl⟩ := h.holds
  cases hcur : s.orphanedInode cur with
  | none => simp [OrphanList.removeOrphan, hcur] at hrm
  | some n =>
      obtain ⟨l1, l2, rfl⟩ := List.append_of_mem ((hl.mem cur).mp (by rw [hcur]; rfl))
      have hat := hl.at_
      rw [hcur] at hat
      cases hat
      simp only [OrphanList.removeOrphan, hcur, Option.some.injEq] at hrm
      subst hrm
      refine ⟨⟨_, hl.unlink⟩, fun p q hsucc => ?_⟩
      by_cases hp : p = l1.getLastD 0
      · subst hp
        exact Or.inr ⟨_, List.mem_append_right _ (List.mem_singleton_self _)⟩
      · rcases h.links p q (hl.succ_unlink hp hsucc) with heq | ⟨q', hq'⟩
        · exact Or.inl heq
        · exact Or.inr ⟨q', List.mem_append_left _ hq'⟩

theorem updateOrphanLink_next (s : OrphanList) (pred succ p : Nat) :
    (s.updateOrphanLink pred succ).next p = if p = pred then succ else s.next p := by
  unfold updateOrphanLink next
  by_cases hpred : pred = 0
  · rw [if_pos hpred]
    by_cases hp : p = 0
    · rw [if_pos hp, if_pos (by rw [hp, hpred])]
    · rw [if_neg hp, if_neg (by rw [hpred]; exact hp), if_neg hp]
  · rw [if_neg hpred]
    by_cases hp : p = 0
    · rw [if_pos hp, if_neg (by rw [hp]; exact Ne.symm hpred), if_pos hp]
    · rw [if_neg hp, if_neg hp]
      exact Function.update_apply ..

theorem updateOrphanLink_orphanedInode (s : OrphanList) (pred succ : Nat) :
    (s.updateOrphanLink pred succ).orphanedInode = s.orphanedInode := by
  unfold updateOrphanLink
  split <;> rfl

theorem Inv.commit {s : OrphanList} (h : s.Inv) {pred succ : Nat}
    (hcur : s.Current (.commit pred succ)) :
    Inv { s.updateOrphanLink pred succ with pending := s.pending.erase (pred, succ) } := by
  obtain ⟨l, hl⟩ := h.holds
  have hmap := updateOrphanLink_orphanedInode s pred succ
  refine ⟨⟨l, by rw [hmap]; exact hl⟩, fun p q hsucc => ?_⟩
  rw [hmap] at hsucc
  change (s.updateOrphanLink pred succ).next p = q ∨ _
  rw [updateOrphanLink_next]
  by_cases hp : p = pred
  · subst hp
    rw [if_pos rfl]
    rcases hcur with hs | ⟨h0, hgone⟩ | hlater
    · exact Or.inl (hl.succ_unique hs hsucc)
    · rw [LinkedMap.succ_iff_of_ne h0, hgone] at hsucc
      cases hsucc
    · exact Or.inr hlater
  · rw [if_neg hp]
    rcases h.links p q hsucc with heq | ⟨q', hq'⟩
    · exact Or.inl heq
    · refine Or.inr ⟨q', (List.mem_erase_of_ne ?_).mpr hq'⟩
      exact fun heq => hp (congrArg Prod.fst heq)

theorem Step.inv {s s' : OrphanList} {a : Action} (h : s.Inv) (hguard : s.Current a)
    (hstep : s.Step a s') : s'.Inv := by
  cases a with
  | rmLink ino =>
      obtain ⟨h0, hnew, rfl⟩ := hstep
      exact h.rmLastLink h0 hnew hguard
  | removeOrphan ino => exact h.removeOrphan hstep
  | commit pred succ =>
      obtain ⟨-, rfl⟩ := hstep
      exact h.commit hguard

/-- Where no push and no commit works on a stale link, the list on disk is that in
    memory whenever no event is pending. -/
theorem matches_of_run {deletionTime : Nat → Nat} {s : OrphanList}
    (hrun : Runs.Run Step Current (empty deletionTime) s) (hpending : s.pending = []) :
    s.Matches :=
  (hrun.invariant (fun _ _ _ h hguard hstep => hstep.inv h hguard)
    (empty_inv deletionTime)).isMatch hpending

/-! ## Two inodes -/

/-- Inodes 5 and 6 are orphaned, then 5 is removed and its event committed. -/
theorem matches_of_run_two : ∃ s : OrphanList, (s.orphanedInode 6).isSome ∧ s.Matches := by
  let s1 := (empty fun _ => 0).rmLastLink 5
  let s2 := s1.rmLastLink 6
  let s3 : OrphanList :=
    { s2 with
      orphanedInode := LinkedMap.unlink s2.orphanedInode 5 6 0
      pending := [(6, 0)] }
  let s4 : OrphanList := { s3.updateOrphanLink 6 0 with pending := [] }
  have h1 : Runs.Run Step Current (empty fun _ => 0) s1 :=
    .single (a := .rmLink 5) (Or.inr ⟨rfl, fun _ => rfl⟩) ⟨by decide, rfl, rfl⟩
  have h2 : Runs.Run Step Current (empty fun _ => 0) s2 :=
    .tail (a := .rmLink 6) h1 (Or.inl ⟨0, rfl⟩) ⟨by decide, rfl, rfl⟩
  have h3 : Runs.Run Step Current (empty fun _ => 0) s3 :=
    .tail (a := .removeOrphan 5) h2 trivial rfl
  have h4 : Runs.Run Step Current (empty fun _ => 0) s4 :=
    .tail (a := .commit 6 0) h3 (Or.inl (Or.inr ⟨0, rfl⟩)) ⟨by decide, rfl⟩
  exact ⟨s4, rfl, matches_of_run h4 rfl⟩

/-- Inode 5 is orphaned and removed; inode 6 is orphaned before the event of that
    removal is committed, which then sets `last_orphan` past it. -/
theorem orphan_skipped : ∃ s : OrphanList,
    Runs.Run Step (fun _ _ => True) (empty fun _ => 0) s ∧ s.pending = [] ∧
      (s.orphanedInode 6).isSome ∧ s.lastOrphan = 0 ∧ ¬ s.Matches := by
  let s1 := (empty fun _ => 0).rmLastLink 5
  let s2 : OrphanList :=
    { s1 with
      orphanedInode := LinkedMap.unlink s1.orphanedInode 5 0 0
      pending := [(0, 0)] }
  let s3 := s2.rmLastLink 6
  let s4 : OrphanList := { s3.updateOrphanLink 0 0 with pending := [] }
  have h1 : Runs.Run Step (fun _ _ => True) (empty fun _ => 0) s1 :=
    .single (a := .rmLink 5) trivial ⟨by decide, rfl, rfl⟩
  have h2 : Runs.Run Step (fun _ _ => True) (empty fun _ => 0) s2 :=
    .tail (a := .removeOrphan 5) h1 trivial rfl
  have h3 : Runs.Run Step (fun _ _ => True) (empty fun _ => 0) s3 :=
    .tail (a := .rmLink 6) h2 trivial ⟨by decide, rfl, rfl⟩
  have h4 : Runs.Run Step (fun _ _ => True) (empty fun _ => 0) s4 :=
    .tail (a := .commit 0 0) h3 trivial ⟨by decide, rfl⟩
  refine ⟨s4, h4, rfl, rfl, rfl, ?_⟩
  rintro ⟨l, hl, hchain⟩
  have hmem : 6 ∈ l := (hl.mem 6).mp rfl
  cases l with
  | nil => cases hmem
  | cons x l => exact hchain.2.1 hchain.1.symm

end OrphanList
end RustExt4
