/-
  RustExt4.Directory.LegacyLinear

  The addition of an entry to a directory whose inode has block addresses in place of an
  extent tree (`inode/legacy`, and `directory/linear.rs` with its cursor).  The cursor
  answers with the address as it stands in the inode, also where that is zero, and so the
  loop takes the first hole that it comes to for block 0 of the device.
-/
import RustExt4.Directory.Linear

namespace RustExt4.Inode

open Extent (AddressingOutput)

/-! ## The cursor -/

structure Legacy where
  addresses : Vector UInt32 15

namespace Legacy

/-- `CursorMut`, without the fields that nothing reads. -/
structure CursorMut where
  fba : Nat
  direct : Legacy

def cursorFromFbaMut (t : Legacy) (fba : Nat) : CursorMut := { fba := fba, direct := t }

namespace CursorMut

/-- `current`; the indirect blocks are `todo!()`. -/
def current (c : CursorMut) : Except Fault (Option AddressingOutput) :=
  if h : c.fba < 12 then .ok (some (.initialized c.direct.addresses[c.fba].toNat))
  else .error .panic

/-- `move_next` -/
def moveNext (c : CursorMut) : Except Fault CursorMut :=
  if 12 < c.fba + 1 then .error .panic else .ok { c with fba := c.fba + 1 }

/-- `or_allocated_many` is `todo!()`. -/
def orAllocatedMany (_c : CursorMut) (_size : Nat) (_isMeta : Bool) : Except Fault (Nat × Nat) :=
  .error .panic

/-- `or_allocated` -/
def orAllocated (c : CursorMut) (isMeta : Bool) : Except Fault Nat :=
  match c.current with
  | .error e => .error e
  | .ok (some blk) =>
    match Directory.HTree.getInitialized blk with
    | some lba => .ok lba
    | none => .error .panic
  | .ok none => (c.orAllocatedMany 1 isMeta).map Prod.fst

theorem fba_of_moveNext {c c' : CursorMut} (h : c.moveNext = .ok c') :
    c' = { c with fba := c.fba + 1 } ∧ c.fba < 12 := by
  unfold moveNext at h
  split at h
  next => cases h
  next hle =>
    cases h
    exact ⟨rfl, by omega⟩

end CursorMut
end Legacy
end RustExt4.Inode

namespace RustExt4.Directory

open Inode (Legacy)
open Inode.Legacy (CursorMut)

/-! ## The scheme -/

/-- The blocks of the device as the cache has them, the collector of the transaction,
    and the size of the directory. -/
structure TrackedBlocks where
  contents : Nat → Bytes
  modifications : List Nat
  size : Nat

/-- `track`, by the write guard that `&mut **guard` goes through -/
def TrackedBlocks.track (s : TrackedBlocks) (lba : Nat) : TrackedBlocks :=
  { s with modifications := lba :: s.modifications }

def TrackedBlocks.write (s : TrackedBlocks) (lba : Nat) (b : Bytes) : TrackedBlocks :=
  { s with contents := Function.update s.contents lba b }

namespace LinearScheme

/-- The arguments of `add_entry` and the format of the records. -/
structure NewEntry where
  isVersion2 : Bool
  entry : Bytes
  de : FileType
  child : Nat

/-- One turn of the loop of `add_entry`, up to `insert_entry`: `grown`, and whether the
    block took the entry.  After a fault only the collector tells which block it was in. -/
def legacyTurn (x : NewEntry) (c : CursorMut) (s : TrackedBlocks) :
    Except Fault (Bool × Bool) × TrackedBlocks :=
  match c.current with
  | .error e => (.error e, s)
  | .ok current =>
    let grown := current.isNone
    match c.orAllocated true with
    | .error e => (.error e, s)
    | .ok lba =>
      let s := s.track lba
      let dblk : DirectoryBlock := { inner := s.contents lba, isVersion2 := x.isVersion2 }
      let dblk := if grown then dblk.clear else dblk
      match dblk.insertEntry x.entry (some x.de) x.child with
      | .error e => (.error e, s)
      | .ok (found, dblk) => (.ok (grown, found), s.write lba dblk.inner)

/-- The loop of `add_entry`, with `grown` at its end. -/
def legacyLoop (x : NewEntry) (c : CursorMut) (s : TrackedBlocks) :
    Except Fault Bool × TrackedBlocks :=
  match legacyTurn x c s with
  | (.error e, s) => (.error e, s)
  | (.ok (grown, true), s) => (.ok grown, s)
  | (.ok (_, false), s) =>
    match _h : c.moveNext with
    | .error e => (.error e, s)
    | .ok c => legacyLoop x c s
termination_by 12 - c.fba
decreasing_by
  obtain ⟨rfl, hlt⟩ := CursorMut.fba_of_moveNext _h
  simp only
  omega

/-- `add_entry` of a directory with block addresses -/
def addEntryLegacy (x : NewEntry) (blkSize : Nat) (t : Legacy) (s : TrackedBlocks) :
    Except Fault Unit × TrackedBlocks :=
  match legacyLoop x (t.cursorFromFbaMut 0) s with
  | (.error e, s) => (.error e, s)
  | (.ok grown, s) => (.ok (), if grown then { s with size := s.size + blkSize } else s)

/-! ## What a turn does -/

/-- Every block that changed is in the collector, and the directory has not grown. -/
structure Tracks (s s' : TrackedBlocks) : Prop where
  kept : s.modifications ⊆ s'.modifications
  changed : ∀ lba, s'.contents lba ≠ s.contents lba → lba ∈ s'.modifications
  size : s'.size = s.size

variable {x : NewEntry} {c : CursorMut} {t : Legacy} {s s' s'' : TrackedBlocks} {lba : Nat}

theorem Tracks.refl (s : TrackedBlocks) : Tracks s s :=
  ⟨fun _ h => h, fun _ h => absurd rfl h, rfl⟩

theorem Tracks.trans (h : Tracks s s') (h' : Tracks s' s'') : Tracks s s'' where
  kept := List.Subset.trans h.kept h'.kept
  changed lba hne := by
    by_cases hsame : s''.contents lba = s'.contents lba
    · apply h'.kept (h.changed lba _)
      rwa [← hsame]
    · exact h'.changed lba hsame
  size := h'.size.trans h.size

theorem tracks_track (s : TrackedBlocks) (lba : Nat) : Tracks s (s.track lba) :=
  ⟨List.subset_cons_self lba s.modifications, fun _ h => absurd rfl h, rfl⟩

theorem tracks_write (hmem : lba ∈ s.modifications) (b : Bytes) : Tracks s (s.write lba b) where
  kept := fun _ h => h
  changed lba' hne := by
    by_cases heq : lba' = lba
    · rw [heq]
      exact hmem
    · exact absurd (Function.update_of_ne heq _ _) hne
  size := rfl

/-- The block that the entry is tried on. -/
def blockAt (x : NewEntry) (s : TrackedBlocks) (lba : Nat) : DirectoryBlock :=
  { inner := s.contents lba, isVersion2 := x.isVersion2 }

/-- A pointer is taken as it is, and nothing is new. -/
theorem legacyTurn_direct (h : c.fba < 12) :
    legacyTurn x c s =
      match (blockAt x s c.direct.addresses[c.fba].toNat).insertEntry x.entry (some x.de)
        x.child with
      | .error e => (.error e, s.track c.direct.addresses[c.fba].toNat)
      | .ok (found, d) => (.ok (false, found),
          (s.track c.direct.addresses[c.fba].toNat).write c.direct.addresses[c.fba].toNat
            d.inner) := by
  have hcur : c.current = .ok (some (.initialized c.direct.addresses[c.fba].toNat)) := dif_pos h
  have hor : c.orAllocated true = .ok c.direct.addresses[c.fba].toNat := by
    rw [CursorMut.orAllocated, hcur]
    rfl
  rw [legacyTurn, hcur]
  simp only [hor]
  rfl

theorem legacyTurn_indirect (h : ¬c.fba < 12) : legacyTurn x c s = (.error .panic, s) := by
  have hcur : c.current = .error .panic := dif_neg h
  rw [legacyTurn, hcur]

/-- The block of the turn is in the collector, whatever comes of it. -/
theorem legacyTurn_tracks (x : NewEntry) (c : CursorMut) (s : TrackedBlocks) :
    Tracks s (legacyTurn x c s).2 ∧
      (legacyTurn x c s).2.modifications =
        if h : c.fba < 12 then c.direct.addresses[c.fba].toNat :: s.modifications
        else s.modifications := by
  by_cases h : c.fba < 12
  · rw [legacyTurn_direct h, dif_pos h]
    split
    · exact ⟨tracks_track s _, rfl⟩
    · exact ⟨(tracks_track s _).trans (tracks_write List.mem_cons_self _), rfl⟩
  · rw [legacyTurn_indirect h, dif_neg h]
    exact ⟨Tracks.refl s, rfl⟩

theorem legacyTurn_ok {grown found : Bool}
    (h : legacyTurn x c s = (.ok (grown, found), s')) : c.fba < 12 ∧ grown = false := by
  by_cases hfba : c.fba < 12
  · rw [legacyTurn_direct hfba] at h
    split at h
    · cases h
    · cases h
      exact ⟨hfba, rfl⟩
  · rw [legacyTurn_indirect hfba] at h
    cases h

/-- The cursor moves on from a block without room. -/
theorem legacyLoop_next {grown : Bool} (h : legacyTurn x c s = (.ok (grown, false), s')) :
    legacyLoop x c s = legacyLoop x { c with fba := c.fba + 1 } s' := by
  have hnext : c.moveNext = .ok { c with fba := c.fba + 1 } := by
    apply if_neg
    have hfba := (legacyTurn_ok h).1
    omega
  rw [legacyLoop, h]
  dsimp only
  split <;> rename_i heq <;> rw [hnext] at heq <;> cases heq
  rfl

/-- What a whole run leaves. -/
theorem legacyLoop_tracks (x : NewEntry) (c : CursorMut) (s : TrackedBlocks) :
    Tracks s (legacyLoop x c s).2 ∧ ∀ grown, (legacyLoop x c s).1 = .ok grown → grown = false := by
  induction c, s using legacyLoop.induct x with
  | case1 c s e s' hturn =>
      rw [legacyLoop, hturn]
      have htracks := (legacyTurn_tracks x c s).1
      rw [hturn] at htracks
      exact ⟨htracks, nofun⟩
  | case2 c s grown s' hturn =>
      rw [legacyLoop, hturn]
      have htracks := (legacyTurn_tracks x c s).1
      rw [hturn] at htracks
      refine ⟨htracks, fun g hg => ?_⟩
      cases hg
      exact (legacyTurn_ok hturn).2
  | case3 c s grown s' hturn e hnext =>
      -- the end of the addresses comes up before the cursor is past it
      have hfba := (legacyTurn_ok hturn).1
      rw [CursorMut.moveNext, if_neg (by omega)] at hnext
      cases hnext
  | case4 c s grown s' hturn c' hnext ih =>
      obtain ⟨rfl, -⟩ := CursorMut.fba_of_moveNext hnext
      rw [legacyLoop_next hturn]
      have htracks := (legacyTurn_tracks x c s).1
      rw [hturn] at htracks
      exact ⟨htracks.trans ih.1, ih.2⟩

theorem legacyLoop_kept (x : NewEntry) (c : CursorMut) (s : TrackedBlocks) :
    (legacyTurn x c s).2.modifications ⊆ (legacyLoop x c s).2.modifications := by
  cases hturn : legacyTurn x c s with
  | mk r s' =>
      match r with
      | .error e =>
          rw [legacyLoop, hturn]
          exact List.Subset.refl _
      | .ok (grown, true) =>
          rw [legacyLoop, hturn]
          exact List.Subset.refl _
      | .ok (grown, false) =>
          rw [legacyLoop_next hturn]
          exact (legacyLoop_tracks x _ s').1.kept

/-! ## Holes -/

/-- A record of the block takes the entry. -/
def HasRoom (x : NewEntry) (s : TrackedBlocks) (lba : Nat) : Prop :=
  ∃ p ∈ (blockAt x s lba).positions, (blockAt x s lba).Takes p (entrySize x.entry.length)

/-- The blocks of the directory from file block `i` on. -/
def BlocksWellFormed (x : NewEntry) (t : Legacy) (s : TrackedBlocks) : Prop :=
  ∀ i (_ : i < 12), t.addresses[i].toNat ≠ 0 → (blockAt x s t.addresses[i].toNat).WellFormed

/-- Some pointer from `i` on is a hole that no block before it keeps the loop from. -/
def ReachesHole (x : NewEntry) (t : Legacy) (s : TrackedBlocks) (i : Nat) : Prop :=
  ∃ k, ∃ _ : k < 12, i ≤ k ∧ t.addresses[k].toNat = 0 ∧
    ∀ j, ∀ _ : j < k, i ≤ j → t.addresses[j].toNat ≠ 0 ∧ ¬HasRoom x s t.addresses[j].toNat

/-- The loop of `insert_entry` does not pass a record that takes the entry. -/
theorem insertEntry_ne_false {d d' : DirectoryBlock} {entry : Bytes} (de : Option FileType)
    (child : Nat) (h : d.WellFormed)
    (htakes : ∃ p ∈ d.positions, d.Takes p (entrySize entry.length)) :
    d.insertEntry entry de child ≠ .ok (false, d') := by
  obtain ⟨l, p, r, ppos, -, htake, -, hr, hrun⟩ :=
    DirectoryBlock.insertEntry_first de child h.tiles htakes
  obtain ⟨-, hok, hrest⟩ := hr
  have hle := hrest.le
  rw [format_len] at hle
  rw [hrun, DirectoryBlock.insertFrom_of_some entry de child
    (DirectoryBlock.iterMut_next ppos hok hle)]
  dsimp only
  split
  next =>
    cases d.put p entry de child <;> (intro h; cases h)
  next hunused =>
    rw [if_pos (htake.resolve_left hunused)]
    split
    next =>
      intro h
      cases h
    next b target _ =>
      cases DirectoryBlock.put { d with inner := b } target entry de child <;> (intro h; cases h)

/-- A block with room ends the loop: with the entry in it, or with a fault. -/
theorem legacyLoop_hasRoom (hfba : c.fba < 12)
    (hwf : (blockAt x s c.direct.addresses[c.fba].toNat).WellFormed)
    (hroom : HasRoom x s c.direct.addresses[c.fba].toNat) :
    (legacyLoop x c s).2 = (legacyTurn x c s).2 := by
  cases hturn : legacyTurn x c s with
  | mk r s' =>
      rw [legacyLoop, hturn]
      match r with
      | .error e => rfl
      | .ok (grown, true) => rfl
      | .ok (grown, false) =>
          rw [legacyTurn_direct hfba] at hturn
          split at hturn
          next => cases hturn
          next found d hrun =>
            cases hturn
            exact absurd hrun (insertEntry_ne_false (some x.de) x.child hwf hroom)

/-- A block without room stays as it is. -/
theorem legacyTurn_noRoom (hfba : c.fba < 12)
    (hwf : (blockAt x s c.direct.addresses[c.fba].toNat).WellFormed)
    (hroom : ¬HasRoom x s c.direct.addresses[c.fba].toNat) :
    legacyTurn x c s = (.ok (false, false), s.track c.direct.addresses[c.fba].toNat) := by
  have hrun := DirectoryBlock.insertEntry_of_not_takes (some x.de) x.child hwf.tiles
    fun p hp htake => hroom ⟨p, hp, htake⟩
  rw [legacyTurn_direct hfba, hrun]
  simp only [TrackedBlocks.write, blockAt, TrackedBlocks.track, Function.update_eq_self]

/-- A hole that is reached puts block 0 into the collector. -/
theorem legacyLoop_of_reachesHole {i : Nat} (hwf : BlocksWellFormed x t s)
    (h : ReachesHole x t s i) : 0 ∈ (legacyLoop x { fba := i, direct := t } s).2.modifications := by
  obtain ⟨k, hk, hik, hzero, hbefore⟩ := h
  induction hn : k - i generalizing i s with
  | zero =>
      obtain rfl : i = k := by omega
      -- the turn opens the block before it looks for room in it
      have hturn := (legacyTurn_tracks x { fba := i, direct := t } s).2
      rw [dif_pos hk, hzero] at hturn
      apply legacyLoop_kept
      rw [hturn]
      exact List.mem_cons_self
  | succ n ih =>
      have hi : i < 12 := by omega
      obtain ⟨hown, hfull⟩ := hbefore i (by omega) (Nat.le_refl i)
      have hturn := @legacyTurn_noRoom x { fba := i, direct := t } s hi (hwf i hi hown) hfull
      rw [legacyLoop_next hturn]
      exact ih (i := i + 1) (s := s.track _) hwf (by omega)
        (fun j hj hij => hbefore j hj (by omega)) (by omega)

/-- Blocks that the directory owns. -/
def Owns (t : Legacy) (lba : Nat) : Prop := lba ≠ 0 ∧ ∃ a ∈ t.addresses, a.toNat = lba

/-- Where no hole is reached, the blocks that the loop opens are the directory's. -/
theorem legacyLoop_owns {i : Nat} (hwf : BlocksWellFormed x t s) (h : ¬ReachesHole x t s i) :
    ∀ lba ∈ (legacyLoop x { fba := i, direct := t } s).2.modifications,
      lba ∈ s.modifications ∨ Owns t lba := by
  -- On the direct slots left; at the end of them the twelfth is an indirect block and nothing is
  -- written.
  induction hn : 12 - i generalizing i s with
  | zero =>
      have hturn := @legacyTurn_indirect x { fba := i, direct := t } s (by simp only; omega)
      rw [legacyLoop, hturn]
      exact fun lba hlba => .inl hlba
  | succ n ih =>
      have hi : i < 12 := by omega
      -- The slot's address is not zero, since a hole here would be the one reached.
      have hown : t.addresses[i].toNat ≠ 0 := by
        intro hzero
        exact h ⟨i, hi, Nat.le_refl i, hzero, fun j hj hij => by omega⟩
      have hmem : Owns t t.addresses[i].toNat :=
        ⟨hown, t.addresses[i], Vector.getElem_mem (by omega), rfl⟩
      -- The loop ends at the first block with room, and tracks that block alone.
      by_cases hroom : HasRoom x s t.addresses[i].toNat
      · have hlast := @legacyLoop_hasRoom x { fba := i, direct := t } s hi (hwf i hi hown) hroom
        have hturn := (legacyTurn_tracks x { fba := i, direct := t } s).2
        rw [dif_pos hi] at hturn
        rw [hlast, hturn]
        intro lba hlba
        obtain rfl | hlba := List.mem_cons.mp hlba
        · exact .inr hmem
        · exact .inl hlba
      · have hturn := @legacyTurn_noRoom x { fba := i, direct := t } s hi (hwf i hi hown) hroom
        -- A hole reached from the next slot is reached from here.
        have hrest : ¬ReachesHole x t (s.track t.addresses[i].toNat) (i + 1) := by
          rintro ⟨k, hk, hik, hzero, hbefore⟩
          refine h ⟨k, hk, by omega, hzero, fun j hj hij => ?_⟩
          obtain rfl | hij := Nat.eq_or_lt_of_le hij
          · exact ⟨hown, hroom⟩
          · exact hbefore j hj hij
        rw [legacyLoop_next hturn]
        intro lba hlba
        obtain hlba | hlba := ih (s := s.track _) hwf hrest (by omega) lba hlba
        · obtain rfl | hlba := List.mem_cons.mp hlba
          · exact .inr hmem
          · exact .inl hlba
        · exact .inr hlba

theorem addEntryLegacy_loop (x : NewEntry) (blkSize : Nat) (t : Legacy) (s : TrackedBlocks) :
    (addEntryLegacy x blkSize t s).2 = (legacyLoop x { fba := 0, direct := t } s).2 := by
  have hgrown := (legacyLoop_tracks x { fba := 0, direct := t } s).2
  unfold addEntryLegacy Legacy.cursorFromFbaMut
  cases hloop : legacyLoop x { fba := 0, direct := t } s with
  | mk r s' =>
      cases r with
      | error e => rfl
      | ok grown =>
          rw [hloop] at hgrown
          rw [hgrown grown rfl]
          rfl

/-- `add_entry` changes and collects blocks of the directory only, if and only if a block
    before the first hole among the direct addresses has room, or there is no hole. -/
theorem addEntryLegacy_owns_iff (x : NewEntry) (blkSize : Nat) (t : Legacy)
    (contents : Nat → Bytes) (size : Nat)
    (hwf : BlocksWellFormed x t { contents := contents, modifications := [], size := size }) :
    (∀ lba, lba ∈ (addEntryLegacy x blkSize t ⟨contents, [], size⟩).2.modifications ∨
        (addEntryLegacy x blkSize t ⟨contents, [], size⟩).2.contents lba ≠ contents lba →
        Owns t lba) ↔
      ¬ReachesHole x t ⟨contents, [], size⟩ 0 := by
  rw [addEntryLegacy_loop]
  constructor
  · intro howns hhole
    exact (howns 0 (.inl (legacyLoop_of_reachesHole hwf hhole))).1 rfl
  · intro hhole lba hlba
    have hmem := hlba.elim id
      ((legacyLoop_tracks x { fba := 0, direct := t } ⟨contents, [], size⟩).1.changed lba)
    obtain hnil | hown := legacyLoop_owns hwf hhole lba hmem
    · cases hnil
    · exact hown

/-- A block that took an entry is not what it was. -/
theorem inner_ne_of_inserted {d d' : DirectoryBlock} {e : DirEntry}
    (h : DirectoryBlock.Inserted d d' e) : d'.inner ≠ d.inner := by
  intro hinner
  obtain ⟨l, p, r, hold, hnew⟩ := h.live
  have hsame : d' = d := by
    cases d
    cases d'
    exact congrArg₂ DirectoryBlock.mk hinner h.version
  have hlength := congrArg List.length (hsame ▸ hnew)
  rw [hold, List.length_append, List.length_append, List.length_cons] at hlength
  omega

/-- The inode of a new directory where the file system has no extents. -/
def newLegacy : Legacy := ⟨Vector.replicate 15 0⟩

/-- One direct block behind block 7. -/
def oneBlock : Legacy := ⟨(Vector.replicate 15 0).set 0 7⟩

/-- A device whose blocks are all the one with an unused record. -/
def emptyBlocks : TrackedBlocks := ⟨fun _ => DirectoryBlock.emptyBlock.inner, [], 1024⟩

def dotEntry : NewEntry := { isVersion2 := true, entry := [46], de := .directory, child := 12 }

theorem hasRoom_emptyBlocks (lba : Nat) : HasRoom dotEntry emptyBlocks lba := by
  have hblock : blockAt dotEntry emptyBlocks lba = DirectoryBlock.emptyBlock := rfl
  rw [HasRoom, hblock, DirectoryBlock.positions_emptyBlock]
  exact ⟨0, List.mem_singleton_self 0, .inl (by decide)⟩

theorem not_reachesHole_oneBlock : ¬ReachesHole dotEntry oneBlock emptyBlocks 0 := by
  rintro ⟨k, hk, -, hzero, hbefore⟩
  cases k with
  | zero => exact absurd hzero (show (7 : Nat) ≠ 0 by decide)
  | succ k => exact (hbefore 0 (by omega) (Nat.le_refl 0)).2 (hasRoom_emptyBlocks _)

theorem addEntryLegacy_owns_iff_oneBlock :
    7 ∈ (addEntryLegacy dotEntry 1024 oneBlock emptyBlocks).2.modifications ∧
      ∀ lba, lba ∈ (addEntryLegacy dotEntry 1024 oneBlock emptyBlocks).2.modifications ∨
          (addEntryLegacy dotEntry 1024 oneBlock emptyBlocks).2.contents lba ≠
            emptyBlocks.contents lba →
          Owns oneBlock lba := by
  constructor
  · rw [addEntryLegacy_loop]
    apply legacyLoop_kept
    rw [(legacyTurn_tracks dotEntry { fba := 0, direct := oneBlock } emptyBlocks).2,
      dif_pos (by decide)]
    exact List.mem_cons_self
  · exact (addEntryLegacy_owns_iff dotEntry 1024 oneBlock
      (fun _ => DirectoryBlock.emptyBlock.inner) 1024
      fun _ _ _ => DirectoryBlock.emptyBlock_wellFormed).mpr not_reachesHole_oneBlock

/-- The first entry of a new directory goes to block 0 of the device. -/
theorem addEntryLegacy_newLegacy :
    BlocksWellFormed dotEntry newLegacy emptyBlocks ∧ ¬Owns newLegacy 0 ∧
      0 ∈ (addEntryLegacy dotEntry 1024 newLegacy emptyBlocks).2.modifications ∧
      (addEntryLegacy dotEntry 1024 newLegacy emptyBlocks).2.contents 0 ≠
        emptyBlocks.contents 0 := by
  -- The directory has no block at all, so its first slot is the hole.
  have hwf : BlocksWellFormed dotEntry newLegacy emptyBlocks :=
    fun _ _ _ => DirectoryBlock.emptyBlock_wellFormed
  have hhole : ReachesHole dotEntry newLegacy emptyBlocks 0 :=
    ⟨0, by decide, Nat.le_refl 0, by decide, fun j hj _ => by omega⟩
  refine ⟨hwf, fun h => h.1 rfl, ?_, ?_⟩
  · rw [addEntryLegacy_loop]
    exact legacyLoop_of_reachesHole hwf hhole
  · -- The block written is block 0, which none of its addresses is.
    obtain ⟨d, hrun⟩ := @DirectoryBlock.WellFormed.insertEntry_short DirectoryBlock.emptyBlock
      dotEntry.entry dotEntry.de dotEntry.child DirectoryBlock.emptyBlock_wellFormed (by decide)
      (by decide) (hasRoom_emptyBlocks 0)
    have hroom := @legacyLoop_hasRoom dotEntry { fba := 0, direct := newLegacy } emptyBlocks
      (by decide) DirectoryBlock.emptyBlock_wellFormed (hasRoom_emptyBlocks _)
    have hturn := @legacyTurn_direct dotEntry { fba := 0, direct := newLegacy } emptyBlocks
      (by decide)
    obtain ⟨hf, -⟩ | ⟨-, hins⟩ := DirectoryBlock.emptyBlock_wellFormed.insert_cases rfl
      ⟨by decide, by decide⟩ hrun
    · cases hf
    · rw [addEntryLegacy_loop, hroom, hturn]
      simp only [show blockAt dotEntry emptyBlocks _ = DirectoryBlock.emptyBlock from rfl, hrun]
      exact inner_ne_of_inserted hins

/-! ## Directories without holes -/

/-- The blocks behind the direct pointers from `i` on, in the order of the file. -/
def blocksFrom (x : NewEntry) (t : Legacy) (s : TrackedBlocks) (i : Nat) : List DirectoryBlock :=
  ((t.addresses.toList.take 12).drop i).map fun a => blockAt x s a.toNat

theorem blocksFrom_cons {i : Nat} (hi : i < 12) :
    blocksFrom x t s i = blockAt x s t.addresses[i].toNat :: blocksFrom x t s (i + 1) := by
  have hlength : i < (t.addresses.toList.take 12).length := by
    rw [List.length_take, Vector.length_toList]
    omega
  rw [blocksFrom, List.drop_eq_getElem_cons hlength, List.map_cons, List.getElem_take,
    Vector.getElem_toList]
  rfl

/-- Only the block that is written changes. -/
theorem blocksFrom_write {i : Nat} (b : Bytes)
    (hne : ∀ k (_ : k < 12), i ≤ k → t.addresses[k].toNat ≠ lba) :
    blocksFrom x t (s.write lba b) i = blocksFrom x t s i := by
  induction hn : 12 - i generalizing i with
  | zero =>
      have hnil : (t.addresses.toList.take 12).drop i = [] := by
        rw [List.drop_eq_nil_iff, List.length_take]
        omega
      rw [blocksFrom, blocksFrom, hnil]
      rfl
  | succ n ih =>
      have hi : i < 12 := by omega
      have hrest := ih (i := i + 1) (fun k hk hik => hne k hk (by omega)) (by omega)
      rw [blocksFrom_cons hi, blocksFrom_cons hi, hrest]
      simp only [blockAt, TrackedBlocks.write,
        Function.update_of_ne (hne i hi (Nat.le_refl i))]

theorem insertEntry_version {d d' : DirectoryBlock} {entry : Bytes} {de : Option FileType}
    {child : Nat} {found : Bool} (h : d.insertEntry entry de child = .ok (found, d')) :
    d'.isVersion2 = d.isVersion2 := by
  rcases DirectoryBlock.insertFrom_ok h with ⟨-, rfl, -⟩ | ⟨b, p, hput⟩
  · rfl
  · unfold DirectoryBlock.put at hput
    split at hput
    next => cases hput
    next =>
      split at hput
      next => cases hput
      next =>
        cases hput
        rfl

theorem blockAt_congr (h : s'.contents lba = s.contents lba) :
    blockAt x s' lba = blockAt x s lba := by
  rw [blockAt, blockAt, h]

theorem blockAt_write (s : TrackedBlocks) (lba : Nat) {d : DirectoryBlock}
    (hv : d.isVersion2 = x.isVersion2) : blockAt x (s.write lba d.inner) lba = d := by
  cases d
  simp only at hv
  rw [blockAt, TrackedBlocks.write, hv]
  simp only [Function.update_self]

/-- The loop leaves the blocks that it does not come to. -/
theorem legacyLoop_frame {i : Nat} (hne : ∀ k (_ : k < 12), i ≤ k → t.addresses[k].toNat ≠ lba) :
    (legacyLoop x { fba := i, direct := t } s).2.contents lba = s.contents lba := by
  -- On the direct slots left.
  induction hn : 12 - i generalizing i s with
  | zero =>
      have hturn := @legacyTurn_indirect x { fba := i, direct := t } s (by simp only; omega)
      rw [legacyLoop, hturn]
  | succ n ih =>
      have hi : i < 12 := by omega
      -- A turn writes the block of its own slot or none.
      have hstep : (legacyTurn x { fba := i, direct := t } s).2.contents lba = s.contents lba := by
        rw [legacyTurn_direct hi]
        split
        · rfl
        · exact Function.update_of_ne (hne i hi (Nat.le_refl i)).symm _ _
      cases hturn : legacyTurn x { fba := i, direct := t } s with
      | mk r s' =>
          rw [hturn] at hstep
          match r with
          | .error e => rw [legacyLoop, hturn]; exact hstep
          | .ok (grown, true) => rw [legacyLoop, hturn]; exact hstep
          | .ok (grown, false) =>
              have hrest := ih (i := i + 1) (s := s') (fun k hk hik => hne k hk (by omega))
                (by omega)
              rw [legacyLoop_next hturn]
              exact hrest.trans hstep

/-- The scheme over the list of its blocks does what the loop does, while a block has room:
    behind the last one a list grows, and the loop panics. -/
theorem legacyLoop_refines {i : Nat} (free : List Bytes)
    (hwf : ∀ j (_ : j < 12), (blockAt x s t.addresses[j].toNat).WellFormed)
    (hne : ∀ j k (_ : j < k) (_ : k < 12), t.addresses[j].toNat ≠ t.addresses[k].toNat)
    (hroom : ∃ j, ∃ _ : j < 12, i ≤ j ∧ HasRoom x s t.addresses[j].toNat) :
    addEntry x.isVersion2 x.entry x.de x.child free (blocksFrom x t s i) =
      ((legacyLoop x { fba := i, direct := t } s).1.map fun _ => (),
        blocksFrom x t (legacyLoop x { fba := i, direct := t } s).2 i, free) := by
  induction hn : 12 - i generalizing i s with
  | zero =>
      obtain ⟨j, hj, hij, -⟩ := hroom
      omega
  | succ n ih =>
      have hi : i < 12 := by omega
      rw [blocksFrom_cons hi, addEntry]
      by_cases hearly : HasRoom x s t.addresses[i].toNat
      · have hlast := @legacyTurn_direct x { fba := i, direct := t } s hi
        cases hrun : (blockAt x s t.addresses[i].toNat).insertEntry x.entry (some x.de) x.child with
        | error e =>
            rw [hrun] at hlast
            rw [legacyLoop, hlast]
            exact congrArg (Prod.mk _) (congrArg (Prod.mk · free) (blocksFrom_cons hi).symm)
        | ok r =>
            obtain ⟨found, d⟩ := r
            cases found with
            | false => exact absurd hrun (insertEntry_ne_false _ _ (hwf i hi) hearly)
            | true =>
                rw [hrun] at hlast
                rw [legacyLoop, hlast]
                -- the pointers differ, so no other block is written
                have hothers : ∀ k (_ : k < 12), i + 1 ≤ k →
                    t.addresses[k].toNat ≠ t.addresses[i].toNat :=
                  fun k hk hik => (hne i k (by omega) hk).symm
                dsimp only
                rw [blocksFrom_cons hi, blocksFrom_write d.inner hothers,
                  blockAt_write _ _ (insertEntry_version hrun)]
                rfl
      · have hturn := @legacyTurn_noRoom x { fba := i, direct := t } s hi (hwf i hi) hearly
        have hrun := DirectoryBlock.insertEntry_of_not_takes (some x.de) x.child (hwf i hi).tiles
          fun p hp htake => hearly ⟨p, hp, htake⟩
        have hrest : ∃ j, ∃ _ : j < 12, i + 1 ≤ j ∧ HasRoom x s t.addresses[j].toNat := by
          obtain ⟨j, hj, hij, hroom⟩ := hroom
          obtain rfl | hij := Nat.eq_or_lt_of_le hij
          · exact absurd hroom hearly
          · exact ⟨j, hj, hij, hroom⟩
        have hlist := ih (i := i + 1) (s := s.track t.addresses[i].toNat) hwf hrest (by omega)
        have hkeep := @legacyLoop_frame x t (s.track t.addresses[i].toNat) t.addresses[i].toNat
          (i + 1) fun k hk hik => (hne i k hik hk).symm
        have hsame : blocksFrom x t (s.track t.addresses[i].toNat) (i + 1) =
            blocksFrom x t s (i + 1) := rfl
        rw [hsame] at hlist
        rw [hrun, legacyLoop_next hturn]
        simp only [hlist, blocksFrom_cons hi]
        rw [blockAt_congr hkeep]
        rfl

/-- Where all blocks are full the loop runs into the indirect ones. -/
theorem legacyLoop_full {i : Nat}
    (hwf : ∀ j (_ : j < 12), (blockAt x s t.addresses[j].toNat).WellFormed)
    (hfull : ∀ j (_ : j < 12), i ≤ j → ¬HasRoom x s t.addresses[j].toNat) :
    (legacyLoop x { fba := i, direct := t } s).1 = .error .panic := by
  induction hn : 12 - i generalizing i s with
  | zero =>
      have hturn := @legacyTurn_indirect x { fba := i, direct := t } s (by simp only; omega)
      rw [legacyLoop, hturn]
  | succ n ih =>
      have hi : i < 12 := by omega
      have hturn := @legacyTurn_noRoom x { fba := i, direct := t } s hi (hwf i hi)
        (hfull i hi (Nat.le_refl i))
      rw [legacyLoop_next hturn]
      exact ih (i := i + 1) (s := s.track _) hwf (fun j hj hij => hfull j hj (by omega)) (by omega)

end LinearScheme
end RustExt4.Directory
