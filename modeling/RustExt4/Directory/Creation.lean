/-
  RustExt4.Directory.Creation

  What a failed creation leaves behind.  `create_entry` allocates the inode first, and
  nothing takes its bit back when a later step fails: not the search for room for the name,
  not the blocks of a new directory.  `Drop` of the new inode reclaims an inode with a link
  count of zero only, and the count of a new one is never zero.  So after a failure all is
  as it was if and only if the call did not come as far as an inode.
-/
import RustExt4.Directory.Rename
import RustExt4.Inode.AllocatorRuns

namespace RustExt4.Inode.Allocator

open Transaction (Event)

variable {s s' : Allocator}

/-! ## When the allocator has an inode -/

/-- The search for a free inode goes past group `g`: the count says zero, or every bit
    is set. -/
def Exhausted (s : Allocator) (g : Nat) : Prop :=
  ∃ bg, s.groups g = some bg ∧
    (0 < bg.freeInodesCount → (s.bitmap g).isSome ∧ s.freeBits g = ∅)

/-- The search for a free inode ends at group `g`. -/
def HasFree (s : Allocator) (g : Nat) : Prop :=
  ∃ bg, s.groups g = some bg ∧ 0 < bg.freeInodesCount ∧ s.freeBits g ≠ ∅

/-- Of the groups in this order, one with a clear bit comes before any that cannot be
    loaded. -/
def ReachesFree (s : Allocator) : List Nat → Prop
  | [] => False
  | g :: rest => s.HasFree g ∨ s.Exhausted g ∧ s.ReachesFree rest

def HandsOut (s : Allocator) : Prop :=
  s.freeInodesCount ≠ 0 ∧ s.ReachesFree (scanOrder s.sb.bgCount s.lastInodeBgId)

theorem reachesFree_of_exhausted {g : Nat} {rest : List Nat} (hex : s.Exhausted g)
    (hno : ¬ s.HasFree g) : s.ReachesFree (g :: rest) ↔ s.ReachesFree rest := by
  constructor
  · rintro (h | ⟨-, h⟩)
    · exact absurd h hno
    · exact h
  · intro h
    exact Or.inr ⟨hex, h⟩

theorem freeBits_of_full {g : Nat} {bitmap : Bytes} (hblk : s.bitmap g = some bitmap)
    (hall : ∀ p < 8 * bitmap.length, Transaction.bitAt bitmap p = true) : s.freeBits g = ∅ := by
  rw [Finset.eq_empty_iff_forall_notMem]
  intro i hi
  have hbit := mem_freeBits.mp hi
  have hlt := bit_lt hblk hbit
  rw [bit, hblk, Option.bind_some, if_pos hlt, hall i hlt] at hbit
  cases hbit

/-- The bit that the scan has found is another one afterwards. -/
theorem bitmap_takeIno_ne {g i : Nat} {bg : InodeGroup} {bitmap : Bytes}
    (hblk : s.bitmap g = some bitmap) (hi : i < 8 * bitmap.length)
    (hbit : Transaction.bitAt bitmap i = false) :
    (s.taken g i bg bitmap).bitmap ≠ s.bitmap := by
  intro heq
  have hset : BitSet s (s.taken g i bg bitmap) g i true :=
    bitSet_update Transaction.setBit_forces hblk hi rfl
  have hnew : (s.taken g i bg bitmap).bit g i = some true := by
    rw [hset g i, if_pos ⟨rfl, rfl⟩]
  rw [bit, heq, hblk, Option.bind_some, if_pos hi, hbit] at hnew
  cases hnew

/-- The scan comes to a group with a clear bit and takes the bit, or it fails and has
    changed nothing. -/
theorem allocateIn_cases (s : Allocator) (events : List Event) (de : FileType)
    (order : List Nat) :
    (s.ReachesFree order ∧ (∀ e, (s.allocateIn events de order).1 ≠ .error (.err e)) ∧
      (s.allocateIn events de order).2.1.bitmap ≠ s.bitmap) ∨
    (¬ s.ReachesFree order ∧
      ∃ e, s.allocateIn events de order = (.error (.err e), s, events)) := by
  induction order with
  | nil => exact Or.inr ⟨fun h => h, _, rfl⟩
  | cons g order ih =>
      rw [allocateIn]
      cases hbg : s.groups g with
      | none =>
          right
          refine ⟨?_, _, rfl⟩
          rintro (⟨bg, hbg', -⟩ | ⟨⟨bg, hbg', -⟩, -⟩) <;> rw [hbg] at hbg' <;> cases hbg'
      | some bg =>
          dsimp only
          by_cases hfree : 0 < bg.freeInodesCount
          · rw [if_pos hfree, getFreeIno]
            cases hblk : s.bitmap g with
            | none =>
                -- A bitmap that cannot be read ends the search, so no later group counts.
                have hnone : s.freeBits g = ∅ := by rw [freeBits, hblk]
                right
                refine ⟨?_, _, rfl⟩
                rintro (⟨-, -, -, hne⟩ | ⟨⟨bg', hbg', hload⟩, -⟩)
                · exact hne hnone
                · rw [hbg] at hbg'
                  cases hbg'
                  have hsome := (hload hfree).1
                  rw [hblk] at hsome
                  cases hsome
            | some bitmap =>
                rcases findFree_bits bitmap with ⟨i, hi, hfind, hbit⟩ | ⟨hfind, hall⟩
                · have hmem : i ∈ s.freeBits g := by
                    rw [mem_freeBits, bit, hblk, Option.bind_some, if_pos hi, hbit]
                  have hne := @bitmap_takeIno_ne s g i bg bitmap hblk hi hbit
                  left
                  refine ⟨Or.inl ⟨bg, hbg, hfree, Finset.ne_empty_of_mem hmem⟩, ?_⟩
                  simp only [hfind]
                  cases InodeNumber.fromBgidIndex s.sb g i with
                  | none => exact ⟨fun _ h => (by cases h), hne⟩
                  | some ino => exact ⟨fun _ h => (by cases h), hne⟩
                · have hnone := freeBits_of_full hblk hall
                  have hex : s.Exhausted g := ⟨bg, hbg, fun _ => ⟨by rw [hblk]; rfl, hnone⟩⟩
                  simp only [hfind]
                  have hno : ¬ s.HasFree g := by
                    rintro ⟨-, -, -, hne⟩
                    exact hne hnone
                  rw [reachesFree_of_exhausted hex hno]
                  exact ih
          · -- A group whose count is 0 is passed over, whatever its bitmap says.
            rw [if_neg hfree]
            have hex : s.Exhausted g := ⟨bg, hbg, fun h => absurd h hfree⟩
            have hno : ¬ s.HasFree g := by
              rintro ⟨bg', hbg', hpos, -⟩
              rw [hbg] at hbg'
              cases hbg'
              exact hfree hpos
            rw [reachesFree_of_exhausted hex hno]
            exact ih

/-- A call that has an inode to hand out sets its bit, and its only failure is the panic on
    a number that does not fit.  One that has none fails and changes nothing. -/
theorem allocate_cases (s : Allocator) (events : List Event) (de : FileType) :
    (s.HandsOut ∧ (∀ e, (s.allocate events de).1 ≠ .error (.err e)) ∧
      (s.allocate events de).2.1.bitmap ≠ s.bitmap) ∨
    (¬ s.HandsOut ∧ ∃ e, s.allocate events de = (.error (.err e), s, events)) := by
  unfold allocate HandsOut
  by_cases hzero : s.freeInodesCount = 0
  · rw [if_pos hzero]
    exact Or.inr ⟨fun h => h.1 hzero, _, rfl⟩
  · rw [if_neg hzero, and_iff_right hzero]
    exact s.allocateIn_cases events de _

end RustExt4.Inode.Allocator

namespace RustExt4.Directory

open StateExcept
open Transaction (Event)

variable {σ ρ : Type} {S : Scheme σ ρ} {dir ino : Nat} {entry : Bytes} {ftype : FileType}
  {w w' : Session σ}

/-! ## Behind the allocation -/

/-- The inodes are the same, and the objects but for links that were added. -/
def OnlyLinks (w w' : Session σ) : Prop :=
  w'.inodes = w.inodes ∧ ∀ n o, w.objects n = some o →
    ∃ o', w'.objects n = some o' ∧ o.linksCount ≤ o'.linksCount

theorem OnlyLinks.refl (w : Session σ) : OnlyLinks w w :=
  ⟨rfl, fun _ o ho => ⟨o, ho, Nat.le_refl _⟩⟩

theorem OnlyLinks.trans {w1 w2 w3 : Session σ} (h : OnlyLinks w1 w2) (h' : OnlyLinks w2 w3) :
    OnlyLinks w1 w3 := by
  refine ⟨h'.1.trans h.1, fun n o ho => ?_⟩
  obtain ⟨o2, ho2, hle⟩ := h.2 n o ho
  obtain ⟨o3, ho3, hle'⟩ := h'.2 n o2 ho2
  exact ⟨o3, ho3, hle.trans hle'⟩

theorem onlyLinks_addRecord (dir : Nat) (entry : Bytes) (de : FileType) (child : Nat) :
    Moves OnlyLinks (S.addRecord dir entry de child) :=
  fun w => OnlyLinks.refl w

theorem onlyLinks_addLink (ino : Nat) (w : Session σ) : OnlyLinks w (Scheme.addLink ino w) := by
  refine ⟨rfl, fun n o ho => ?_⟩
  by_cases hn : n = ino
  · subst hn
    refine ⟨{ o with linksCount := o.linksCount + 1 }, ?_, Nat.le_succ _⟩
    simp only [Scheme.addLink, Function.update_self, ho, Option.map_some]
  · refine ⟨o, ?_, Nat.le_refl _⟩
    simp only [Scheme.addLink, Function.update_of_ne hn, ho]

theorem onlyLinks_addDots (dir ino : Nat) : Moves OnlyLinks (S.addDots dir ino) := by
  refine Moves.bind (fun _ _ _ => OnlyLinks.trans) (onlyLinks_addRecord _ _ _ _) fun _ => ?_
  refine Moves.bind (fun _ _ _ => OnlyLinks.trans) (onlyLinks_addRecord _ _ _ _) fun _ => ?_
  exact fun w => onlyLinks_addLink ino w

/-- None of the steps behind the allocation changes the inode bitmaps or takes a link. -/
theorem onlyLinks_linkNew (dir : Nat) (entry : Bytes) (ftype : FileType) (ino : Nat) :
    Moves OnlyLinks (S.linkNew dir entry ftype ino) := by
  have hname : Moves OnlyLinks (do
      S.addRecord dir entry ftype ino
      modify fun w => { w with events := w.events ++ [.inodeAddLink ino] }) :=
    Moves.bind (fun _ _ _ => OnlyLinks.trans) (onlyLinks_addRecord _ _ _ _)
      fun _ w => OnlyLinks.refl w
  unfold Scheme.linkNew
  by_cases hdir : ftype = .directory
  · simp only [if_pos hdir]
    exact Moves.bind (fun _ _ _ => OnlyLinks.trans) (onlyLinks_addDots dir ino) fun _ => hname
  · simp only [if_neg hdir]
    exact hname

/-- The new inode has a link, so `Drop` does not reclaim it. -/
theorem inodes_release {reclaim : Nat → Session σ → Session σ} {o : InodeObject}
    (ho : w.objects ino = some o) (hlinks : o.linksCount ≠ 0) :
    (Scheme.release reclaim ino w).inodes = w.inodes := by
  unfold Scheme.release
  rw [ho]
  dsimp only
  rw [if_neg hlinks]

/-! ## Failed calls -/

/-- The inode bitmaps, the counts of free inodes, the free blocks and the entries of the
    directory are the same. -/
structure NothingTaken {α β : Type} (free : σ → α) (entries : σ → β) (w w' : Session σ) :
    Prop where
  bitmap : w'.inodes.bitmap = w.inodes.bitmap
  groupCount : ∀ g, (w'.inodes.groups g).map Inode.InodeGroup.freeInodesCount =
    (w.inodes.groups g).map Inode.InodeGroup.freeInodesCount
  count : w'.inodes.freeInodesCount = w.inodes.freeInodesCount
  free : free w'.store = free w.store
  entries : entries w'.store = entries w.store

theorem NothingTaken.refl {α β : Type} (free : σ → α) (entries : σ → β) (w : Session σ) :
    NothingTaken free entries w w := ⟨rfl, fun _ => rfl, rfl, rfl, rfl⟩

/-- `Manager::allocate` leaves the bitmaps as the allocator does, and fails where it fails.
    A new inode object has one link. -/
theorem allocate_session (S : Scheme σ ρ) (ftype : FileType) (w : Session σ) :
    (S.allocate ftype w).2.inodes = (w.inodes.allocate w.events ftype).2.1 ∧
      (∀ f, (w.inodes.allocate w.events ftype).1 = .error f →
        (S.allocate ftype w).1 = .error f ∧ (S.allocate ftype w).2.store = w.store) ∧
      ∀ ino, (S.allocate ftype w).1 = .ok ino →
        (S.allocate ftype w).2.objects ino = some { ftype := ftype, linksCount := 1 } := by
  unfold Scheme.allocate
  rcases w.inodes.allocate w.events ftype with ⟨r, inodes, events⟩
  cases r with
  | error f =>
      refine ⟨rfl, fun f' hf' => ?_, fun ino hino => by cases hino⟩
      cases hf'
      exact ⟨rfl, rfl⟩
  | ok ino =>
      dsimp only
      split
      · exact ⟨rfl, fun _ hf' => (by cases hf'), fun _ hino => by cases hino⟩
      · split
        · exact ⟨rfl, fun _ hf' => (by cases hf'), fun _ hino => by cases hino⟩
        · refine ⟨rfl, fun _ hf' => (by cases hf'), fun ino' hino => ?_⟩
          cases hino
          exact Function.update_self ..

/-- The steps from the allocation on.  Once the allocator has an inode to hand out, they end
    with its bit set. -/
theorem createNew_cases {reclaim : Nat → Session σ → Session σ} {e : FsError}
    (h : (match S.allocate ftype w with
      | (.error e, w) => (.error e, w)
      | (.ok ino, w) =>
        match S.linkNew dir entry ftype ino w with
        | (.ok (), w) => (.ok ino, w)
        | (.error e, w) => (.error e, Scheme.release reclaim ino w)) =
      ((.error (.err e), w') : Except Fault Nat × Session σ)) :
    (w.inodes.HandsOut ∧ w'.inodes.bitmap ≠ w.inodes.bitmap) ∨
      (¬ w.inodes.HandsOut ∧ w'.inodes = w.inodes ∧ w'.store = w.store) := by
  obtain ⟨hinodes, hfail, hobject⟩ := allocate_session S ftype w
  rcases w.inodes.allocate_cases w.events ftype with ⟨hhas, herr, hbit⟩ | ⟨hno, fe, hcall⟩
  · left
    -- Whatever fails after the allocation, the inode stays taken: its links are not 0 yet.
    refine ⟨hhas, ?_⟩
    rw [← hinodes] at hbit
    split at h
    case h_1 f w1 hal =>
      cases h
      rw [hal] at hbit
      exact hbit
    case h_2 ino w1 hal =>
      rw [hal] at hbit hobject
      have hlinks := onlyLinks_linkNew (S := S) dir entry ftype ino w1
      split at h
      case h_1 => cases h
      case h_2 f w2 hlink =>
        cases h
        rw [hlink] at hlinks
        obtain ⟨o, ho, hone⟩ := hlinks.2 ino _ (hobject ino rfl)
        dsimp only at hone
        rw [inodes_release ho (by omega), hlinks.1]
        exact hbit
  · right
    obtain ⟨hr, hstore⟩ := hfail (.err fe) (by rw [hcall])
    have hal : S.allocate ftype w = (.error (.err fe), (S.allocate ftype w).2) := Prod.ext hr rfl
    rw [hal] at h
    cases h
    refine ⟨hno, ?_, hstore⟩
    rw [hinodes, hcall]

/-- A creation that fails has left everything as it was if and only if it was stopped
    before the allocator had an inode for it. -/
theorem createEntry_nothingTaken_iff {α β : Type} (S : Scheme σ ρ) (free : σ → α)
    (entries : σ → Nat → β) (reclaim : Nat → Session σ → Session σ) {e : FsError}
    (h : S.createEntry reclaim dir entry ftype w = (.error (.err e), w')) :
    NothingTaken free (fun s => entries s dir) w w' ↔
      (w.objects dir).map InodeObject.linksCount = some 0 ∨
        (∃ x, S.findEntry dir entry w.store = .ok x) ∨ ¬ w.inodes.HandsOut := by
  unfold Scheme.createEntry at h
  cases hself : w.objects dir with
  | none =>
      rw [hself] at h
      cases h
  | some self =>
      rw [hself] at h
      dsimp only at h
      by_cases hpending : self.linksCount = 0
      · rw [if_pos hpending] at h
        cases h
        exact ⟨fun _ => Or.inl (congrArg some hpending), fun _ => NothingTaken.refl ..⟩
      · rw [if_neg hpending] at h
        cases hfind : S.findEntry dir entry w.store with
        | ok x =>
            rw [hfind] at h
            cases h
            exact ⟨fun _ => Or.inr (Or.inl ⟨x, rfl⟩), fun _ => NothingTaken.refl ..⟩
        | error f =>
            -- The two early ends are past, so only the allocation is left to fail.
            have hcond : ((some self).map InodeObject.linksCount = some 0 ∨
                (∃ x, (.error f : Except Fault (Nat × Option FileType)) = .ok x) ∨
                  ¬ w.inodes.HandsOut) ↔ ¬ w.inodes.HandsOut := by
              simp [hpending]
            rw [hcond]
            cases f with
            | panic =>
                rw [hfind] at h
                cases h
            | outOfFuel =>
                rw [hfind] at h
                cases h
            | err fe =>
                rw [hfind] at h
                rcases createNew_cases h with ⟨hhas, hbit⟩ | ⟨hno, hinodes, hstore⟩
                · exact iff_of_false (fun hsame => hbit hsame.bitmap) (not_not.mpr hhas)
                · refine iff_of_true ?_ hno
                  have hgroups : w'.inodes.groups = w.inodes.groups := by rw [hinodes]
                  exact ⟨by rw [hinodes], fun g => by rw [hgroups], by rw [hinodes],
                    congrArg free hstore, congrArg (entries · dir) hstore⟩

/-- The name is there already. -/
theorem createEntry_nothingTaken_iff_twoFiles :
    NothingTaken Dirs.free (fun s => s.records 2) twoFiles
      ((dirsScheme fun _ _ s => s).createEntry (fun _ w => w) 2 [97] .regularFile twoFiles).2 := by
  have hcall : (dirsScheme fun _ _ s => s).createEntry (fun _ w => w) 2 [97] .regularFile twoFiles =
      (.error (.err .exist), _) := Prod.ext (by decide +kernel) rfl
  have hfind : (dirsScheme fun _ _ s => s).findEntry 2 [97] twoFiles.store =
      .ok (12, some .regularFile) := by
    decide +kernel
  exact (createEntry_nothingTaken_iff (dirsScheme fun _ _ s => s) Dirs.free Dirs.records _
    hcall).mpr (Or.inr (Or.inl ⟨_, hfind⟩))

/-- No block is free for a new directory: its inode, the last free one, stays taken. -/
theorem createEntry_leaks_inode : ∃ w', twoFiles.store.Inv ∧
    (dirsScheme fun _ _ s => s).createEntry (fun _ w => w) 2 [100] .directory twoFiles =
      (.error (.err .fsFull), w') ∧
    twoFiles.inodes.freeBits 0 = {7} ∧ w'.inodes.freeBits 0 = ∅ ∧
    w'.inodes.freeInodesCount = 0 ∧
    ¬ NothingTaken Dirs.free (fun s => s.records 2) twoFiles w' := by
  refine ⟨_, twoDirs_inv, Prod.ext (by decide +kernel) rfl, by decide, by decide +kernel,
    by decide +kernel, fun hsame => ?_⟩
  have hcount := hsame.count
  revert hcount
  decide +kernel

end RustExt4.Directory
