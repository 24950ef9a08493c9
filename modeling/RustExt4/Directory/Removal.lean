/-
  RustExt4.Directory.Removal

  What a failed removal leaves behind.  The directories are on the device here, under
  either scheme (`directory/linear.rs`, `directory/htree/mod.rs`), read through the extent
  trees of their inodes, and their blocks may hold anything.  `do_remove_entry` destroys
  the record before it loads the inode and looks at its link count: after a failure all
  is as it was if and only if no record was found.

  A destroyed record is a used one less among those that an iteration over its block comes
  to.  So no second removal makes up for a first one, and a rename that fails at its target
  has lost its source.
-/
import RustExt4.Directory.BlockRuns
import RustExt4.Directory.HTree.Find
import RustExt4.Directory.Operations
import RustExt4.Directory.TreeRuns
import RustExt4.Inode.Extent.Lookup

namespace RustExt4.Directory

open DirectoryEntryDispatch
open StateExcept
open LeBytes (SameOn)
open Inode.Extent
open Transaction (Event)

/-! ## Used records of any block -/

namespace DirectoryBlock

variable {d d' : DirectoryBlock} {target : Bytes} {pos : Nat}
  {it : DirectoryBlockIteratorMut} {cursor : DirectoryBlockIteratorMutCursor}

/-- The iterator for changes hands out the record at `pos`. -/
def Handed (d : DirectoryBlock) (pos : Nat) : Prop :=
  pos + 8 ≤ d.blkSize ∧ pos + getEntryLen d.inner pos ≤ d.blkSize ∧
    getNameLen d.isVersion2 d.inner pos + 8 ≤ getEntryLen d.inner pos

instance (d : DirectoryBlock) : DecidablePred d.Handed := fun _ => instDecidableAnd

/-- The number of used records that it hands out from `pos` on, up to the end of the block
    or to an error. -/
def usedFrom (d : DirectoryBlock) (pos : Nat) : Nat :=
  if h : d.Handed pos then
    (if getInode d.inner pos = 0 then 0 else 1) + d.usedFrom (pos + getEntryLen d.inner pos)
  else 0
termination_by d.blkSize - pos
decreasing_by
  have := h.1
  have := h.2.2
  omega

theorem usedFrom_of_handed (h : d.Handed pos) : d.usedFrom pos =
    (if getInode d.inner pos = 0 then 0 else 1) + d.usedFrom (pos + getEntryLen d.inner pos) := by
  rw [usedFrom, dif_pos h]

theorem usedFrom_of_not_handed (h : ¬ d.Handed pos) : d.usedFrom pos = 0 := by
  rw [usedFrom, dif_neg h]

/-- The two lengths in the header of a record. -/
theorem lengths_congr (hv : d'.isVersion2 = d.isVersion2)
    (h : SameOn d'.inner d.inner (pos + 4) (pos + 8)) :
    getEntryLen d'.inner pos = getEntryLen d.inner pos ∧
      getNameLen d'.isVersion2 d'.inner pos = getNameLen d.isVersion2 d.inner pos := by
  refine ⟨ByteRw.readU16_congr (h.mono (Nat.le_refl _) (by omega)), ?_⟩
  rw [hv]
  exact getNameLen_congr (h.mono (by omega) (Nat.le_refl _))

theorem handed_congr (hv : d'.isVersion2 = d.isVersion2) (hlen : d'.blkSize = d.blkSize)
    (h : SameOn d'.inner d.inner (pos + 4) (pos + 8)) : d'.Handed pos ↔ d.Handed pos := by
  obtain ⟨hel, hn⟩ := lengths_congr hv h
  rw [Handed, Handed, hlen, hel, hn]

/-- The number depends on the bytes from `pos` on. -/
theorem usedFrom_congr (hv : d'.isVersion2 = d.isVersion2) (hlen : d'.blkSize = d.blkSize)
    (h : SameOn d'.inner d.inner pos d.blkSize) : d'.usedFrom pos = d.usedFrom pos := by
  induction pos using usedFrom.induct d with
  | case1 pos hhanded ih =>
      have hheader := h.mono (by omega : pos ≤ pos + 4) hhanded.1
      have hel := (lengths_congr hv hheader).1
      have hi : getInode d'.inner pos = getInode d.inner pos :=
        ByteRw.readU32_congr (h.mono (Nat.le_refl _) (by have := hhanded.1; omega))
      rw [usedFrom_of_handed ((handed_congr hv hlen hheader).mpr hhanded),
        usedFrom_of_handed hhanded, hel, hi, ih (h.mono (by omega) (Nat.le_refl _))]
  | case2 pos hhanded =>
      rw [usedFrom_of_not_handed hhanded]
      apply usedFrom_of_not_handed
      intro hhanded'
      have h8 := hhanded'.1
      rw [hlen] at h8
      exact hhanded ((handed_congr hv hlen (h.mono (by omega) h8)).mp hhanded')

/-- What the iterator does when it hands out a record. -/
theorem iterMut_handed {it' : DirectoryBlockIteratorMut}
    (h : DirectoryBlockIteratorMut.next d it = (some (.ok cursor), it')) :
    d.Handed it.pos ∧ cursor = { ppos := it.ppos, pos := it.pos } ∧
      it'.pos = it.pos + getEntryLen d.inner it.pos ∧ it'.ppos = some it.pos := by
  unfold DirectoryBlockIteratorMut.next at h
  split at h
  case isTrue hin =>
    split at h
    case isTrue hrec =>
      cases h
      exact ⟨⟨hin.2, hrec.1, hrec.2⟩, rfl, rfl, rfl⟩
    case isFalse => cases h
  case isFalse => cases h

/-- Where a search ends that finds a record: at its start, or behind another record. -/
theorem findMutFrom_some (h : d.findMutFrom it target = .ok (some cursor)) :
    d.Handed cursor.pos ∧ getInode d.inner cursor.pos ≠ 0 ∧ it.pos ≤ cursor.pos ∧
      ((cursor.pos = it.pos ∧ cursor.ppos = it.ppos) ∨
        ∃ pp, cursor.ppos = some pp ∧ it.pos ≤ pp ∧ pp + 8 ≤ cursor.pos) := by
  -- The record found is the last one handed out, and its predecessor came just before it.
  induction it using findMutFrom.induct d target with
  | case1 it it' hnext =>
      rw [findMutFrom_of_none target hnext] at h
      cases h
  | case2 it e it' hnext =>
      rw [findMutFrom_of_error target hnext] at h
      cases h
  | case3 it c it' hnext e hname =>
      rw [findMutFrom_of_some target hnext, hname] at h
      cases h
  | case4 it c it' hnext name hname hfound =>
      rw [findMutFrom_of_some target hnext, hname] at h
      dsimp only at h
      rw [if_pos hfound] at h
      cases h
      obtain ⟨hhanded, rfl, -, -⟩ := iterMut_handed hnext
      exact ⟨hhanded, hfound.2, Nat.le_refl _, Or.inl ⟨rfl, rfl⟩⟩
  | case5 it c it' hnext name hname hfound ih =>
      rw [findMutFrom_of_some target hnext, hname] at h
      dsimp only at h
      rw [if_neg hfound] at h
      obtain ⟨hhanded, rfl, hpos, hppos⟩ := iterMut_handed hnext
      obtain ⟨hcur, hused, hle, hwhere⟩ := ih h
      have := hhanded.2.2
      refine ⟨hcur, hused, by omega, Or.inr ?_⟩
      rcases hwhere with ⟨heq, hpp⟩ | ⟨pp, hpp, hle', hgap⟩
      · exact ⟨it.pos, hpp.trans hppos, Nat.le_refl _, by omega⟩
      · exact ⟨pp, hpp, by omega, hgap⟩

/-- `destroy` writes the inode number, and the length of the record before. -/
theorem destroy_sameOn {lo hi : Nat} (hpos : hi ≤ cursor.pos ∨ cursor.pos + 4 ≤ lo)
    (hppos : ∀ pp, cursor.ppos = some pp → hi ≤ pp + 4 ∨ pp + 6 ≤ lo) :
    SameOn (d.destroy cursor).2.inner d.inner lo hi := by
  have hset : SameOn (setInode d.inner cursor.pos 0) d.inner lo hi := ByteRw.writeU32_sameOn hpos
  unfold destroy
  split
  case h_1 => exact hset
  case h_2 pp heq => exact (ByteRw.writeU16_sameOn (hppos pp heq)).trans hset

theorem destroy_frame (d : DirectoryBlock) (cursor : DirectoryBlockIteratorMutCursor) :
    (d.destroy cursor).2.isVersion2 = d.isVersion2 ∧
      (d.destroy cursor).2.inner.length = d.inner.length := by
  unfold destroy
  split
  · exact ⟨rfl, ByteRw.length_writeU32 ..⟩
  · exact ⟨rfl, (ByteRw.length_writeU16 ..).trans (ByteRw.length_writeU32 ..)⟩

/-- The destroyed record is unused, and as long as before. -/
theorem destroy_record (hhanded : d.Handed cursor.pos)
    (hppos : ∀ pp, cursor.ppos = some pp → pp + 8 ≤ cursor.pos) :
    (d.destroy cursor).2.Handed cursor.pos ∧ getInode (d.destroy cursor).2.inner cursor.pos = 0 ∧
      getEntryLen (d.destroy cursor).2.inner cursor.pos = getEntryLen d.inner cursor.pos := by
  obtain ⟨hv, hlen⟩ := destroy_frame d cursor
  have hsame : SameOn (d.destroy cursor).2.inner d.inner (cursor.pos + 4) (cursor.pos + 8) :=
    destroy_sameOn (Or.inr (Nat.le_refl _)) fun pp hpp => Or.inr (by have := hppos pp hpp; omega)
  refine ⟨(handed_congr hv hlen hsame).mpr hhanded, ?_, (lengths_congr hv hsame).1⟩
  have h8 := hhanded.1
  unfold blkSize at h8
  have hzero : getInode (setInode d.inner cursor.pos 0) cursor.pos = 0 :=
    ByteRw.readU32_writeU32 (by omega)
  unfold destroy
  split
  case h_1 => exact hzero
  case h_2 pp heq =>
    -- The length of the record before does not reach it.
    have := hppos pp heq
    exact (ByteRw.readU32_congr (ByteRw.writeU16_sameOn (by omega))).trans hzero

/-- The record before the destroyed one takes its place over. -/
theorem destroy_before (hblk : d.blkSize < 2 ^ 16) (hhanded : d.Handed pos)
    (hcur : d.Handed cursor.pos) (hat : cursor.pos = pos + getEntryLen d.inner pos)
    (hppos : cursor.ppos = some pos) :
    (d.destroy cursor).2.Handed pos ∧
      getInode (d.destroy cursor).2.inner pos = getInode d.inner pos ∧
      getEntryLen (d.destroy cursor).2.inner pos =
        getEntryLen d.inner pos + getEntryLen d.inner cursor.pos := by
  obtain ⟨hv, hlen⟩ := destroy_frame d cursor
  have hend := hcur.2.1
  have hname := hhanded.2.2
  -- Two bytes of the record before change, the length.
  have hlo : SameOn (d.destroy cursor).2.inner d.inner pos (pos + 4) := by
    apply destroy_sameOn (Or.inl (by omega))
    intro pp hpp
    rw [hppos] at hpp
    cases hpp
    exact Or.inl (Nat.le_refl _)
  have hhi : SameOn (d.destroy cursor).2.inner d.inner (pos + 6) (pos + 8) := by
    apply destroy_sameOn (Or.inl (by omega))
    intro pp hpp
    rw [hppos] at hpp
    cases hpp
    exact Or.inr (Nat.le_refl _)
  have hn : getNameLen (d.destroy cursor).2.isVersion2 (d.destroy cursor).2.inner pos =
      getNameLen d.isVersion2 d.inner pos := by
    rw [hv]
    exact getNameLen_congr hhi
  have hel : getEntryLen (d.destroy cursor).2.inner pos =
      getEntryLen d.inner pos + getEntryLen d.inner cursor.pos := by
    have hkept : getEntryLen (setInode d.inner cursor.pos 0) pos = getEntryLen d.inner pos :=
      ByteRw.readU16_congr (ByteRw.writeU32_sameOn (by omega))
    have h8 := hhanded.1
    unfold blkSize at hend hblk h8
    simp only [destroy, hppos, hkept]
    rw [getEntryLen, setEntryLen,
      ByteRw.readU16_writeU16 (by rw [setInode, ByteRw.length_writeU32]; omega),
      Nat.mod_eq_of_lt (by omega)]
  refine ⟨?_, ByteRw.readU32_congr hlo, hel⟩
  rw [Handed, hel, hn, show (d.destroy cursor).2.blkSize = d.blkSize from hlen]
  exact ⟨hhanded.1, by omega, by omega⟩

/-- A record further in front is not touched. -/
theorem destroy_apart (hhanded : d.Handed pos) (hpos : pos + 8 ≤ cursor.pos)
    (hppos : ∀ pp, cursor.ppos = some pp → pos + 8 ≤ pp) :
    (d.destroy cursor).2.Handed pos ∧
      getInode (d.destroy cursor).2.inner pos = getInode d.inner pos ∧
      getEntryLen (d.destroy cursor).2.inner pos = getEntryLen d.inner pos := by
  obtain ⟨hv, hlen⟩ := destroy_frame d cursor
  have hsame : SameOn (d.destroy cursor).2.inner d.inner pos (pos + 8) :=
    destroy_sameOn (Or.inl hpos) fun pp hpp => Or.inl (by have := hppos pp hpp; omega)
  have hheader := hsame.mono (by omega : pos ≤ pos + 4) (Nat.le_refl _)
  exact ⟨(handed_congr hv hlen hheader).mpr hhanded,
    ByteRw.readU32_congr (hsame.mono (Nat.le_refl _) (by omega)), (lengths_congr hv hheader).1⟩

/-- With the record that a search finds, one used record goes. -/
theorem usedFrom_destroy (hblk : d.blkSize < 2 ^ 16)
    (hppos : ∀ pp, it.ppos = some pp → pp + 8 ≤ it.pos)
    (h : d.findMutFrom it target = .ok (some cursor)) :
    (d.destroy cursor).2.usedFrom it.pos + 1 = d.usedFrom it.pos := by
  obtain ⟨hv, hlen⟩ := destroy_frame d cursor
  induction it using findMutFrom.induct d target with
  | case1 it it' hnext =>
      rw [findMutFrom_of_none target hnext] at h
      cases h
  | case2 it e it' hnext =>
      rw [findMutFrom_of_error target hnext] at h
      cases h
  | case3 it c it' hnext e hname =>
      rw [findMutFrom_of_some target hnext, hname] at h
      cases h
  | case4 it c it' hnext name hname hfound =>
      rw [findMutFrom_of_some target hnext, hname] at h
      dsimp only at h
      rw [if_pos hfound] at h
      cases h
      obtain ⟨hhanded, rfl, -, -⟩ := iterMut_handed hnext
      obtain ⟨hhanded', hzero, hel⟩ :=
        @destroy_record d { ppos := it.ppos, pos := it.pos } hhanded hppos
      have hrest : (d.destroy { ppos := it.ppos, pos := it.pos }).2.usedFrom
          (it.pos + getEntryLen d.inner it.pos) =
          d.usedFrom (it.pos + getEntryLen d.inner it.pos) := by
        apply usedFrom_congr hv hlen
        have := hhanded.2.2
        apply destroy_sameOn
        · exact Or.inr (by dsimp only; omega)
        · intro pp hpp
          have := hppos pp hpp
          exact Or.inr (by omega)
      dsimp only at hzero hel
      rw [usedFrom_of_handed hhanded', usedFrom_of_handed hhanded, if_pos hzero, if_neg hfound.2,
        hel, hrest]
      omega
  | case5 it c it' hnext name hname hfound ih =>
      rw [findMutFrom_of_some target hnext, hname] at h
      dsimp only at h
      rw [if_neg hfound] at h
      obtain ⟨hhanded, rfl, hpos, hpp'⟩ := iterMut_handed hnext
      have hroom := hhanded.2.2
      have hgap : ∀ pp, it'.ppos = some pp → pp + 8 ≤ it'.pos := by
        intro pp hpp
        rw [hpp'] at hpp
        cases hpp
        omega
      have hih := ih hgap h
      obtain ⟨hcur, hused, hle, hwhere⟩ := findMutFrom_some h
      rw [hpos] at hih hle hwhere
      rcases hwhere with ⟨hat, heq⟩ | ⟨q, heq, hq, hqgap⟩
      · rw [hpp'] at heq
        obtain ⟨hcur', hzero, hel⟩ := destroy_record hcur fun pp hpp => by
          rw [heq] at hpp
          cases hpp
          omega
        obtain ⟨hmerged, hi, hel'⟩ := destroy_before hblk hhanded hcur hat heq
        -- The iteration now steps over the destroyed record, which counted for nothing.
        rw [usedFrom_of_handed hmerged, usedFrom_of_handed hhanded, hi, hel', ← hih]
        rw [← hat, usedFrom_of_handed hcur', if_pos hzero, hel, hat, Nat.add_assoc it.pos]
        omega
      · obtain ⟨hhanded', hi, hel⟩ := @destroy_apart d it.pos cursor hhanded (by omega)
          fun pp hpp => by
            rw [heq] at hpp
            cases hpp
            omega
        rw [usedFrom_of_handed hhanded', usedFrom_of_handed hhanded, hi, hel, ← hih]
        omega

end DirectoryBlock

/-! ## Directories on the device -/

/-- What is fixed when a file system is mounted: two features, the seed of the hashes and
    the flag `UNSIGNED_HASH`. -/
structure Mount where
  dirIndex : Bool
  metadataCsum : Bool
  hashSeed : Hasher.Ext4Hash
  unsignedHash : Bool

/-- The blocks, and of the inodes of the directories their extent trees and the flag
    `INDEX`.  What a read cursor leaves in the cache of its tree is not kept. -/
structure DirStore where
  fs : FileSystem
  trees : Nat → ExtentTree
  indexed : Nat → Bool
  blocks_len : ∀ lba b, fs.blocks lba = some b → b.length = fs.blkSize

inductive SchemeKind
  | linear
  | htree (rEntries : Nat)

/-- `get_scheme` -/
def getScheme (m : Mount) (s : DirStore) (dir : Nat) : Except Fault SchemeKind :=
  match s.fs.blkSize, m.dirIndex && s.indexed dir, m.metadataCsum with
  | 1024, true, true => .ok (.htree 122)
  | 2048, true, true => .ok (.htree 250)
  | 4096, true, true => .ok (.htree 506)
  | 1024, true, false => .ok (.htree 123)
  | 2048, true, false => .ok (.htree 251)
  | 4096, true, false => .ok (.htree 507)
  | 1024, false, _ | 2048, false, _ | 4096, false, _ => .ok .linear
  | _, _, _ => .error .panic

namespace DirStore

variable {α : Type}

def blockOf (fs : FileSystem) (b : Bytes) : DirectoryBlock where
  inner := b
  isVersion2 := fs.sb.isDirEntryVersion2

/-- The loop of the linear scheme over the blocks, with the fuel of its turns. -/
def searchFrom (fs : FileSystem) (search : DirectoryBlock → Except Fault (Option α)) :
    Nat → CursorM (Nat × α)
  | 0 => StateExcept.throw .outOfFuel
  | n + 1 => do
    let c ← get
    match ← lift c.current with
    | none => StateExcept.throw (.err .noEntry)
    | some a =>
      match HTree.getInitialized a with
      | none => StateExcept.throw (.err HTree.ErrUninitialized)
      | some lba =>
        match fs.blocks lba with
        | none => StateExcept.throw (.err .ioError)
        | some b =>
          match ← lift (search (blockOf fs b)) with
          | some x => pure (lba, x)
          | none => do
            Cursor.moveNext
            searchFrom fs search n

def linearSearch (search : DirectoryBlock → Except Fault (Option α)) (fuel : Nat) (s : DirStore)
    (dir : Nat) : Except Fault (Nat × α) :=
  match (s.trees dir).cursorFromFba s.fs [] (fun _ => []) dir 0 with
  | (.error e, _) => .error e
  | (.ok (), c) => (searchFrom s.fs search fuel c).1

/-- `get_lba_of_root` with `from_raw_block`; the tree is that of the cursor. -/
def htreeRoot (m : Mount) (rEntries : Nat) (s : DirStore) (dir : Nat) :
    Except Fault (HTree.DirDxRoot × ExtentTree) :=
  match HTree.dataBlock .noEntry s.fs dir (s.trees dir) 0 with
  | .error e => .error e
  | .ok (_, d, t) =>
    (HTree.DirDxRoot.fromRawBlock m.hashSeed m.unsignedHash rEntries d.inner).map
      fun root => (root, t)

/-- The number and the type in the record at `pos` of the block `lba`. -/
def entryOf (s : DirStore) (lba pos : Nat) : Except Fault (Nat × Option FileType) :=
  match s.fs.blocks lba with
  | none => .error (.err .ioError)
  | some b => .ok (getInode b pos,
      (getFileType s.fs.sb.isDirEntryVersion2 b pos).map Ext4De.intoFileType)

def findEntry (m : Mount) (fuel dir : Nat) (target : Bytes) (s : DirStore) :
    Except Fault (Nat × Option FileType) :=
  match getScheme m s dir with
  | .error e => .error e
  | .ok .linear =>
    match linearSearch (fun d => d.findFrom {} none target) fuel s dir with
    | .error e => .error e
    | .ok (lba, _, pos) => s.entryOf lba pos
  | .ok (.htree rEntries) =>
    match htreeRoot m rEntries s dir with
    | .error e => .error e
    | .ok (root, t) =>
      match HTree.findThen root s.fs dir t target with
      | .error e => .error e
      | .ok (none, _) => .error (.err .noEntry)
      | .ok (some (lba, _, pos), _) => s.entryOf lba pos

/-- The search of `remove_entry`: the block and the cursor in it. -/
def locate (m : Mount) (fuel dir : Nat) (target : Bytes) (s : DirStore) :
    Except Fault (Nat × DirectoryBlockIteratorMutCursor) :=
  match getScheme m s dir with
  | .error e => .error e
  | .ok .linear => linearSearch (fun d => d.findMutFrom {} target) fuel s dir
  | .ok (.htree rEntries) =>
    match htreeRoot m rEntries s dir with
    | .error e => .error e
    | .ok (root, t) =>
      match HTree.findMutThen root s.fs dir t target with
      | .error e => .error e
      | .ok (none, _) => .error (.err .noEntry)
      | .ok (some x, _) => .ok x

/-- A block of the same length in the place of another. -/
def writeBlock (s : DirStore) (lba : Nat) (b : Bytes) (h : b.length = s.fs.blkSize) : DirStore where
  fs := { s.fs with blocks := Function.update s.fs.blocks lba (some b) }
  trees := s.trees
  indexed := s.indexed
  blocks_len lba' b' hb' := by
    dsimp only at hb' ⊢
    by_cases heq : lba' = lba
    · subst heq
      rw [Function.update_self] at hb'
      cases hb'
      exact h
    · rw [Function.update_of_ne heq] at hb'
      exact s.blocks_len lba' b' hb'

def destroy (r : Nat × DirectoryBlockIteratorMutCursor) (s : DirStore) : Nat × DirStore :=
  match h : s.fs.blocks r.1 with
  | none => (0, s)
  | some b => (((blockOf s.fs b).destroy r.2).1,
      s.writeBlock r.1 ((blockOf s.fs b).destroy r.2).2.inner
        (((blockOf s.fs b).destroy_frame r.2).2.trans (s.blocks_len r.1 b h)))

end DirStore

/-- The schemes of a mounted file system.  The removals do not depend on `addEntry`. -/
def dirScheme (m : Mount) (fuel : Nat)
    (addEntry : Nat → Bytes → FileType → Nat → StateExcept (DirStore × List Event) Fault Unit) :
    Scheme DirStore (Nat × DirectoryBlockIteratorMutCursor) where
  findEntry dir target s := s.findEntry m fuel dir target
  locate dir target s := s.locate m fuel dir target
  destroy := DirStore.destroy
  addEntry := addEntry
  newInode ino s := { s with
    trees := Function.update s.trees ino {}, indexed := Function.update s.indexed ino true }

/-! ## The search -/

namespace DirStore

variable {α : Type} {search : DirectoryBlock → Except Fault (Option α)} {fs : FileSystem}

/-- A record that was found is in a block that the search has read. -/
def FoundIn (fs : FileSystem) (search : DirectoryBlock → Except Fault (Option α)) (lba : Nat)
    (x : α) : Prop :=
  ∃ b, fs.blocks lba = some b ∧ search (blockOf fs b) = .ok (some x)

theorem searchFrom_found {n lba : Nat} {x : α} {c c' : Cursor}
    (h : searchFrom fs search n c = (.ok (lba, x), c')) : FoundIn fs search lba x := by
  -- On the blocks; a hit is in the first one that has it.
  induction n generalizing c with
  | zero => cases h
  | succ n ih =>
      obtain ⟨c1, c2, hget, h⟩ := bind_eq_ok h
      cases hget
      obtain ⟨cur, -, h⟩ := lift_bind_eq_ok h
      cases cur with
      | none => cases h
      | some a =>
          cases hinit : HTree.getInitialized a with
          | none =>
              simp only [hinit] at h
              cases h
          | some lba' =>
              cases hb : fs.blocks lba' with
              | none =>
                  simp only [hinit, hb] at h
                  cases h
              | some b =>
                  simp only [hinit, hb] at h
                  obtain ⟨found, hfound, h⟩ := lift_bind_eq_ok h
                  cases found with
                  | none =>
                      obtain ⟨_, c3, -, h⟩ := bind_eq_ok h
                      exact ih h
                  | some x' =>
                      cases h
                      exact ⟨b, hb, hfound⟩

theorem dataBlock_found {noBlock : FsError} {ino fba lba : Nat} {t t' : ExtentTree}
    {d : DirectoryBlock} (h : HTree.dataBlock noBlock fs ino t fba = .ok (lba, d, t')) :
    ∃ b, fs.blocks lba = some b ∧ d = blockOf fs b := by
  unfold HTree.dataBlock at h
  split at h
  case h_1 => cases h
  case h_2 => cases h
  case h_3 n t1 hcur =>
    split at h
    case h_1 => cases h
    case h_2 lba' hinit =>
      split at h
      case h_1 => cases h
      case h_2 b hb =>
        cases h
        exact ⟨b, hb, rfl⟩

theorem findIn_found {noBlock : FsError} {ino lba : Nat} {ens : List HTree.DxEntry}
    {t t' : ExtentTree} {x : α}
    (h : HTree.findIn search noBlock fs ino ens t = .ok (some (lba, x), t')) :
    FoundIn fs search lba x := by
  induction ens generalizing t with
  | nil => cases h
  | cons en ens ih =>
      rw [HTree.findIn] at h
      split at h
      case h_1 => cases h
      case h_2 lba' d t1 hblock =>
        split at h
        case h_1 => cases h
        case h_2 r hfound =>
          cases h
          obtain ⟨b, hb, rfl⟩ := dataBlock_found hblock
          exact ⟨b, hb, hfound⟩
        case h_3 => exact ih h

theorem findWith_found {noBlock : FsError} {root : HTree.DirDxRoot} {ino lba : Nat}
    {t t' : ExtentTree} {target : Bytes} {x : α}
    (h : HTree.findWith search noBlock root fs ino t target = .ok (some (lba, x), t')) :
    FoundIn fs search lba x := by
  unfold HTree.findWith at h
  split at h
  case h_1 => cases h
  case h_2 r t1 hdot =>
    cases h
    exact findIn_found hdot
  case h_3 t1 hdot =>
    split at h
    case h_1 => cases h
    case h_2 hash hhash =>
      split at h
      case h_1 => cases h
      case h_2 => exact findIn_found h

/-- Under both schemes, the search has come to a record of a block. -/
theorem locate_found {m : Mount} {fuel dir : Nat} {target : Bytes} {s : DirStore}
    {r : Nat × DirectoryBlockIteratorMutCursor} (h : s.locate m fuel dir target = .ok r) :
    ∃ b, s.fs.blocks r.1 = some b ∧
      (blockOf s.fs b).findMutFrom {} target = .ok (some r.2) := by
  unfold locate at h
  split at h
  case h_1 => cases h
  case h_2 =>
    unfold linearSearch at h
    split at h
    case h_1 => cases h
    case h_2 c hopen =>
      exact searchFrom_found (Prod.ext h rfl)
  case h_3 rEntries hscheme =>
    split at h
    case h_1 => cases h
    case h_2 root t hroot =>
      split at h
      case h_1 => cases h
      case h_2 => cases h
      case h_3 x t' hfind =>
        cases h
        exact findWith_found hfind

/-- The block sizes of the source. -/
theorem blkSize_lt {m : Mount} {fuel dir : Nat} {target : Bytes} {s : DirStore}
    {r : Nat × DirectoryBlockIteratorMutCursor} (h : s.locate m fuel dir target = .ok r) :
    s.fs.blkSize < 2 ^ 16 := by
  have hsize : s.fs.blkSize = 1024 ∨ s.fs.blkSize = 2048 ∨ s.fs.blkSize = 4096 := by
    unfold locate at h
    cases hscheme : getScheme m s dir with
    | error e =>
        rw [hscheme] at h
        cases h
    | ok kind =>
        unfold getScheme at hscheme
        split at hscheme <;> first | omega | cases hscheme
  omega

/-- The used records of a block. -/
def used (s : DirStore) (lba : Nat) : Nat :=
  match s.fs.blocks lba with
  | none => 0
  | some b => (blockOf s.fs b).usedFrom 0

theorem destroy_sb (r : Nat × DirectoryBlockIteratorMutCursor) (s : DirStore) :
    (s.destroy r).2.fs.sb = s.fs.sb := by
  unfold destroy
  split <;> rfl

theorem used_congr {s s' : DirStore} (hblocks : s'.fs.blocks = s.fs.blocks)
    (hsb : s'.fs.sb = s.fs.sb) (lba : Nat) : s'.used lba = s.used lba := by
  unfold used blockOf
  rw [hblocks, hsb]

/-- The destroyed record is missing in its block, and no block has got one more. -/
theorem used_destroy {m : Mount} {fuel dir : Nat} {target : Bytes} {s : DirStore}
    {r : Nat × DirectoryBlockIteratorMutCursor} (h : s.locate m fuel dir target = .ok r) :
    (s.destroy r).2.used r.1 + 1 = s.used r.1 ∧ ∀ lba, (s.destroy r).2.used lba ≤ s.used lba := by
  obtain ⟨b, hb, hfind⟩ := locate_found h
  have hblk : (blockOf s.fs b).blkSize < 2 ^ 16 := by
    have hlen : (blockOf s.fs b).blkSize = s.fs.blkSize := s.blocks_len r.1 b hb
    rw [hlen]
    exact blkSize_lt h
  have hone := DirectoryBlock.usedFrom_destroy hblk (fun pp hpp => by cases hpp) hfind
  -- One block is written, and it has one live record less.
  have hblocks : (s.destroy r).2.fs.blocks =
      Function.update s.fs.blocks r.1 (some ((blockOf s.fs b).destroy r.2).2.inner) := by
    unfold destroy
    split
    case h_1 hnone =>
      rw [hb] at hnone
      cases hnone
    case h_2 b' hb' =>
      rw [hb] at hb'
      cases hb'
      rfl
  have hat : (s.destroy r).2.used r.1 + 1 = s.used r.1 := by
    have hblock : blockOf (s.destroy r).2.fs ((blockOf s.fs b).destroy r.2).2.inner =
        ((blockOf s.fs b).destroy r.2).2 := by
      unfold blockOf
      rw [destroy_sb]
      exact congrArg (DirectoryBlock.mk _) ((blockOf s.fs b).destroy_frame r.2).1.symm
    rw [used, used, hblocks, Function.update_self, hb]
    dsimp only
    rw [hblock]
    exact hone
  refine ⟨hat, fun lba => ?_⟩
  by_cases hlba : lba = r.1
  · rw [hlba]
    omega
  · rw [used, used, hblocks, Function.update_of_ne hlba]
    unfold blockOf
    rw [destroy_sb]

end DirStore

/-! ## Failed calls -/

/-- Every block, every link count and the events are the same. -/
structure Unchanged (w w' : Session DirStore) : Prop where
  blocks : w'.store.fs.blocks = w.store.fs.blocks
  links : ∀ ino, w'.links ino = w.links ino
  events : w'.events = w.events

theorem Unchanged.refl (w : Session DirStore) : Unchanged w w := ⟨rfl, fun _ => rfl, rfl⟩

variable {m : Mount} {fuel : Nat}
  {addEntry : Nat → Bytes → FileType → Nat → StateExcept (DirStore × List Event) Fault Unit}
  {w w' : Session DirStore} {dir : Nat} {entry : Bytes}

theorem Unchanged.used (h : Unchanged w w') (hsb : w'.store.fs.sb = w.store.fs.sb) (lba : Nat) :
    w'.store.used lba = w.store.used lba := DirStore.used_congr h.blocks hsb lba

/-- No call to remove an entry puts a record back. -/
theorem used_doRemoveEntry (lba : Nat) :
    ((dirScheme m fuel addEntry).doRemoveEntry dir entry w).2.store.used lba ≤ w.store.used lba ∧
      ((dirScheme m fuel addEntry).doRemoveEntry dir entry w).2.store.fs.sb = w.store.fs.sb := by
  rcases (dirScheme m fuel addEntry).doRemoveEntry_store dir entry w with
    ⟨e, -, hcall⟩ | ⟨r, hloc, hstore⟩
  · rw [hcall]
    exact ⟨Nat.le_refl _, rfl⟩
  · rw [hstore]
    exact ⟨(DirStore.used_destroy hloc).2 lba, DirStore.destroy_sb r w.store⟩

theorem removeOld_state (w : Session DirStore) :
    ((dirScheme m fuel addEntry).removeOld dir entry w).2 =
      ((dirScheme m fuel addEntry).doRemoveEntry dir entry w).2 := by
  unfold Scheme.removeOld
  split <;> rename_i heq <;> rw [heq]

/-- A call of `do_remove_entry` that fails has left everything as it was if and only if the
    search has not found a record; a rename that fails in the removal of its target never
    has. -/
theorem failed_removal_iff (m : Mount) (fuel : Nat)
    (addEntry : Nat → Bytes → FileType → Nat → StateExcept (DirStore × List Event) Fault Unit) :
    (∀ (w w' : Session DirStore) (dir : Nat) (entry : Bytes) (e : FsError),
      (dirScheme m fuel addEntry).doRemoveEntry dir entry w = (.error (.err e), w') →
        (Unchanged w w' ↔ ∃ f, w.store.locate m fuel dir entry = .error f)) ∧
    ∀ (done : Session DirStore → Except Fault Unit) (w w1 w' : Session DirStore)
      (dir newDir ino : Nat) (entry newEntry : Bytes) (e : FsError),
      (dirScheme m fuel addEntry).removeEntry dir entry w = (.ok ino, w1) →
      (dirScheme m fuel addEntry).removeOld dir newEntry w1 = (.error (.err e), w') →
        (dirScheme m fuel addEntry).rename done dir entry newDir newEntry w =
            (.error (.err e), w') ∧ ¬ Unchanged w w' := by
  constructor
  · intro w w' dir entry e hcall
    rcases (dirScheme m fuel addEntry).doRemoveEntry_store dir entry w with
      ⟨f, hno, hsame⟩ | ⟨r, hloc, hstore⟩
    · rw [hcall] at hsame
      cases hsame
      exact ⟨fun _ => ⟨_, hno⟩, fun _ => Unchanged.refl w⟩
    · -- The record is gone already when the call fails.
      rw [hcall] at hstore
      dsimp only at hstore
      constructor
      · intro hun
        have hsb : w'.store.fs.sb = w.store.fs.sb := by
          rw [hstore]
          exact DirStore.destroy_sb r w.store
        have hone := (DirStore.used_destroy hloc).1
        have hkept := hun.used hsb r.1
        rw [hstore] at hkept
        exact absurd hone (by
          rw [show (DirStore.destroy r w.store).2.used r.1 = w.store.used r.1 from hkept]
          omega)
      · rintro ⟨f, hf⟩
        have hloc' : w.store.locate m fuel dir entry = .ok r := hloc
        rw [hf] at hloc'
        cases hloc'
  · intro done w w1 w' dir newDir ino entry newEntry e hrem hold
    refine ⟨(bind_of_ok hrem).trans (bind_of_error hold), fun hun => ?_⟩
    obtain ⟨r, hloc, -, rfl⟩ := Scheme.removeEntry_ok hrem
    have hstate : w' = _ := (congrArg Prod.snd hold).symm.trans (removeOld_state _)
    -- The record of the source is gone, and the removal of the target puts none back.
    have hone := (DirStore.used_destroy hloc).1
    have hsb : w'.store.fs.sb = w.store.fs.sb := by
      rw [hstate]
      exact (used_doRemoveEntry r.1).2.trans (DirStore.destroy_sb r w.store)
    have hle : w'.store.used r.1 ≤ (DirStore.destroy r w.store).2.used r.1 := by
      rw [hstate]
      exact (used_doRemoveEntry r.1).1
    have hkept := hun.used hsb r.1
    omega

/-- Directory 2, in one block, has the directory `s` in it. -/
def oneSubdir : DirStore where
  fs := { fsOf (fun lba => if lba = 100 then some (DirectoryBlock.emptyBlock.run
      [.insert [46] .directory 2, .insert [46, 46] .directory 2, .insert [115] .directory 11]).inner
    else none) with blkSize := 1024 }
  trees _ :=
    { entriesCnt := 1, b := [0, 0, 0, 0, 1, 0, 0, 0, 100, 0, 0, 0] ++ List.replicate 36 0 }
  indexed _ := false
  blocks_len lba b hb := by
    dsimp only [fsOf] at hb
    split at hb
    · cases hb
      decide +kernel
    · cases hb

/-- `s` has a directory in it: its link count is 3. -/
def subdirInUse : Session DirStore where
  store := oneSubdir
  inodes := FileTree.rootOnly.inodes
  objects ino := if ino = 2 then some { ftype := .directory, linksCount := 3 } else none
  records _ := .ok { ftype := .directory, linksCount := 3 }
  events := []

def noIndex : Mount where
  dirIndex := false
  metadataCsum := false
  hashSeed := ⟨0, 0, 0, 0⟩
  unsignedHash := false

def noAddition (_ : Nat) (_ : Bytes) (_ : FileType) (_ : Nat) :
    StateExcept (DirStore × List Event) Fault Unit := StateExcept.throw .panic

/-- The removal of a name that is not there changes nothing; a rename over the directory in
    use loses its source. -/
theorem failed_removal_iff_subdirInUse :
    Unchanged subdirInUse
        ((dirScheme noIndex 5 noAddition).doRemoveEntry 2 [116] subdirInUse).2 ∧
      ¬ Unchanged subdirInUse
        ((dirScheme noIndex 5 noAddition).rename (fun _ => .ok ()) 2 [46, 46] 2 [115]
          subdirInUse).2 := by
  constructor
  · have hno : oneSubdir.locate noIndex 5 2 [116] = .error (.err .noEntry) := by decide +kernel
    have hcall : (dirScheme noIndex 5 noAddition).doRemoveEntry 2 [116] subdirInUse =
        (.error (.err .noEntry), _) := Prod.ext (by decide +kernel) rfl
    exact ((failed_removal_iff noIndex 5 noAddition).1 _ _ 2 [116] _ hcall).mpr ⟨_, hno⟩
  · have hrem : (dirScheme noIndex 5 noAddition).removeEntry 2 [46, 46] subdirInUse =
        (.ok 2, _) := Prod.ext (by decide +kernel) rfl
    have hold : (dirScheme noIndex 5 noAddition).removeOld 2 [115]
        ((dirScheme noIndex 5 noAddition).removeEntry 2 [46, 46] subdirInUse).2 =
          (.error (.err ErrLinksCount), _) := Prod.ext (by decide +kernel) rfl
    obtain ⟨hrename, hchanged⟩ := (failed_removal_iff noIndex 5 noAddition).2 (fun _ => .ok ())
      _ _ _ 2 2 2 [46, 46] [115] _ hrem hold
    rw [hrename]
    exact hchanged

/-- The removal of a directory that is in use fails, and its name is gone. -/
theorem directory_in_use_loses_name : ∃ w',
    (dirScheme noIndex 5 noAddition).doRemoveEntry 2 [115] subdirInUse =
        (.error (.err ErrLinksCount), w') ∧
      subdirInUse.store.findEntry noIndex 5 2 [115] = .ok (11, some .directory) ∧
      w'.store.findEntry noIndex 5 2 [115] = .error (.err .noEntry) ∧
      ¬ Unchanged subdirInUse w' := by
  have hgone : ((dirScheme noIndex 5 noAddition).doRemoveEntry 2 [115]
      subdirInUse).2.store.findEntry noIndex 5 2 [115] = .error (.err .noEntry) := by
    decide +kernel
  refine ⟨_, Prod.ext (by decide +kernel) rfl, by decide +kernel, hgone, fun hun => ?_⟩
  have hused := hun.used (used_doRemoveEntry 100).2 100
  revert hused
  decide +kernel

end RustExt4.Directory
