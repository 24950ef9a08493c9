/-
  RustExt4.Directory.Listing

  Listing a linear directory (`directory/linear.rs`, `fill_dir_from`).  The loop
  that seeks the position takes entries from the iterator until it is past it, so
  that the entry after the one it was looking for is taken and dropped; and a block
  without live entries ends the listing.
-/
import RustExt4.Directory.BlockRuns
import RustExt4.Directory.HTree.Lookup

namespace RustExt4.Directory

open StateExcept
open DirectoryEntryDispatch
open Block Inode.Extent
open HTree (currentAt getInitialized ErrUninitialized Mapped)

variable {σ : Type}

/-! ## Callbacks -/

/-- `fs_core::DirEntry` -/
structure FsDirEntry where
  path : Bytes
  ino : Nat
  ty : FileType
  deriving DecidableEq, Repr

/-- `fillfn`, with what it captures. -/
abbrev Filler (σ : Type) := FsDirEntry → Nat → σ → Bool × σ

def call (f : Filler σ) (en : FsDirEntry) (pos : Nat) : StateExcept σ Fault Bool := fun s =>
  (.ok (f en pos s).1, (f en pos s).2)

namespace DirectoryBlock

/-- The entry that a callback gets. -/
def fsDirEntry (d : DirectoryBlock) (pos : Nat) : Except Fault FsDirEntry :=
  (getName d.isVersion2 d.inner pos).map fun name =>
    { path := name
      ino := getInode d.inner pos
      ty := ((getFileType d.isVersion2 d.inner pos).map Ext4De.intoFileType).getD .unknown }

end DirectoryBlock

/-! ## What an iterator yields -/

/-- The entry that a callback gets for an entry of a block. -/
def FsDirEntry.of (e : DirEntry) : FsDirEntry :=
  { path := e.name, ino := e.inode, ty := (e.ty.map Ext4De.intoFileType).getD .unknown }

namespace DirectoryBlock

variable {d : DirectoryBlock} {a : Nat} {ps : List Nat} {it : DirectoryBlockIterator}

/-- The iterator yields these positions and nothing more, and is after each of them at the
    end of its record. -/
def Yields (d : DirectoryBlock) : DirectoryBlockIterator → List Nat → Prop
  | it, [] => ∃ it', DirectoryBlockIterator.next d it = (.ok none, it') ∧
      DirectoryBlockIterator.next d it' = (.ok none, it')
  | it, p :: ps => ∃ it', DirectoryBlockIterator.next d it = (.ok (some (.ok p)), it') ∧
      it'.pos = p + getEntryLen d.inner p ∧ d.Yields it' ps

theorem yields_of_tiles (ht : d.TilesIn a ps d.blkSize)
    (hit : DirectoryBlockIterator.next d it = DirectoryBlockIterator.next d { pos := a }) :
    d.Yields it ((RecordTiling.live (format d.isVersion2) d.inner ps).map Prod.fst) := by
  induction ps generalizing a it with
  | nil =>
      obtain rfl : a = d.blkSize := ht
      exact ⟨_, hit.trans (iter_end d), iter_end d⟩
  | cons p ps ih =>
      obtain ⟨rfl, hok, hrest⟩ := ht
      rw [format_len] at hrest
      have hnext := hit.trans (iter_next hok hrest.le)
      by_cases hlive : getInode d.inner a = 0
      · rw [if_neg (not_not.mpr hlive)] at hnext
        rw [RecordTiling.live_cons_none (view_unused hlive)]
        exact ih hrest hnext
      · rw [if_pos hlive] at hnext
        rw [RecordTiling.live_cons_some (view_used hlive)]
        exact ⟨_, hnext, rfl, ih hrest rfl⟩

/-- The positions of the live entries. -/
def livePositions (d : DirectoryBlock) : List Nat := d.live.map Prod.fst

/-- The entry at a position. -/
def fsEntryAt (d : DirectoryBlock) (p : Nat) : FsDirEntry := .of (entryAt d.isVersion2 d.inner p)

theorem WellFormed.yields (h : d.WellFormed) : d.Yields {} d.livePositions :=
  yields_of_tiles h.tiles rfl

/-- A record of a well-formed block: it is not empty, ends in the block, and a live one has
    an entry to hand on. -/
theorem WellFormed.fsDirEntry (h : d.WellFormed) {p : Nat} (hp : p ∈ d.livePositions) :
    0 < getEntryLen d.inner p ∧ p + getEntryLen d.inner p ≤ d.blkSize ∧
      d.fsDirEntry p = .ok (d.fsEntryAt p) := by
  obtain ⟨e, he, rfl⟩ := List.mem_map.mp hp
  obtain ⟨hpos, hview⟩ := RecordTiling.mem_live.mp (show (e.1, e.2) ∈ _ from he)
  have hlive : getInode d.inner e.1 ≠ 0 := fun h0 => by
    rw [view_unused h0] at hview
    cases hview
  obtain ⟨hok, hle⟩ := h.tiles.mem hpos
  rw [format_len] at hle
  refine ⟨(format d.isVersion2).len_pos hok, hle, ?_⟩
  rw [DirectoryBlock.fsDirEntry, getName_eq hok hle, if_pos (h.liveNames e.1 hpos hlive)]
  rfl

/-- A live record ends before the later ones. -/
theorem WellFormed.apart (h : d.WellFormed) :
    d.livePositions.Pairwise fun p q => p + getEntryLen d.inner p ≤ q := by
  have hsub : d.livePositions.Sublist d.positions := by
    rw [livePositions, live_positions]
    exact List.filter_sublist
  exact h.tiles.apart.sublist hsub

end DirectoryBlock

/-! ## Linear directories -/

namespace Linear

/-- `for en in iter.by_ref() { if en_pos <= offset { .. } else { break } }`: the end of the
    entries taken, the last of them, and the iterator. -/
def seekFrom (d : DirectoryBlock) (offset : Nat) (it : DirectoryBlockIterator) (enPos : Nat)
    (pen : Option Nat) : Except Fault (Nat × Option Nat × DirectoryBlockIterator) :=
  match _h : DirectoryBlockIterator.next d it with
  | (.error e, _) => .error e
  | (.ok none, it') => .ok (enPos, pen, it')
  | (.ok (some (.error e)), it') =>
    if enPos ≤ offset then .error (.err e) else .ok (enPos, pen, it')
  | (.ok (some (.ok p)), it') =>
    if enPos ≤ offset then seekFrom d offset it' (enPos + getEntryLen d.inner p) (some p)
    else .ok (enPos, pen, it')
termination_by d.blkSize - it.pos
decreasing_by
  have := DirectoryBlockIterator.next_pos_lt _h
  omega

/-- `for en in iter { .. }`; a position where the callback rejects an entry. -/
def fillRest (d : DirectoryBlock) (base : Nat) (f : Filler σ) (it : DirectoryBlockIterator)
    (enPos : Nat) : StateExcept σ Fault (Option Nat) :=
  match _h : DirectoryBlockIterator.next d it with
  | (.error e, _) => StateExcept.throw e
  | (.ok none, _) => pure none
  | (.ok (some (.error e)), _) => StateExcept.throw (.err e)
  | (.ok (some (.ok p)), it') => do
    let en ← lift (d.fsDirEntry p)
    if ← call f en (enPos + base + getEntryLen d.inner p) then
      fillRest d base f it' (enPos + getEntryLen d.inner p)
    else pure (some (enPos + base))
termination_by d.blkSize - it.pos
decreasing_by
  have := DirectoryBlockIterator.next_pos_lt _h
  omega

/-- The entries of one block; a position ends the listing.  `base` is `index * BLK_SIZE`. -/
def fillBlock (d : DirectoryBlock) (base offset : Nat) (f : Filler σ) :
    StateExcept σ Fault (Option Nat) := do
  let (enPos, pen, it) ← lift (seekFrom d offset {} 0 none)
  match pen with
  | none => pure (some (enPos + base))
  | some pen => do
    let en ← lift (d.fsDirEntry pen)
    if ← call f en (enPos + base + getEntryLen d.inner pen) then
      fillRest d base f it (enPos + getEntryLen d.inner pen)
    else pure (some (enPos + base))

/-- The loop over the blocks. -/
def fillBlocks (fs : FileSystem) (ino : Nat) (f : Filler σ) :
    Nat → ExtentTree → Nat → Nat → StateExcept σ Fault (Nat × ExtentTree)
  | 0, _, _, _ => StateExcept.throw .outOfFuel
  | fuel + 1, t, index, offset =>
    match currentAt fs ino t (index % 2 ^ 32) with
    | .error e => StateExcept.throw e
    | .ok (none, t) => pure (index * fs.blkSize + offset, t)
    | .ok (some n, t) =>
      match getInitialized n with
      | none => StateExcept.throw (.err ErrUninitialized)
      | some lba =>
        match fs.blocks lba with
        | none => StateExcept.throw (.err .ioError)
        | some b => do
          let d : DirectoryBlock := { inner := b, isVersion2 := fs.sb.isDirEntryVersion2 }
          match ← fillBlock d (index * fs.blkSize) offset f with
          | some pos => pure (pos, t)
          | none => fillBlocks fs ino f fuel t (index + 1) 0

/-- `fill_dir_from` -/
def fillDirFrom (fs : FileSystem) (ino : Nat) (t : ExtentTree) (pos : Nat) (f : Filler σ)
    (fuel : Nat) : StateExcept σ Fault (Nat × ExtentTree) :=
  fillBlocks fs ino f fuel t (pos / fs.blkSize) (pos % fs.blkSize)

/-! ## One block -/

section
variable {d : DirectoryBlock} {it it' : DirectoryBlockIterator} {p : Nat}

end

section
variable {d : DirectoryBlock} {f : Filler σ} {base : Nat}

end

/-! ## The whole directory -/

/-- A linear directory whose blocks are these, and no more. -/
structure DirOk (fs : FileSystem) (ls : List Leaf) (t : ExtentTree) (ds : List DirectoryBlock) :
    Prop where
  tree : ds ≠ [] ∧ Mapped fs ls t ∨ ds = [] ∧ ls = [] ∧ t.entriesCnt = 0 ∧ t.cache = none
  blocks : ∀ i d, ds[i]? = some d → d.WellFormed ∧ d.isVersion2 = fs.sb.isDirEntryVersion2 ∧
    ∃ lba, lookup ls i = some (.initialized lba) ∧ fs.blocks lba = some d.inner
  unmapped : lookup ls ds.length = none

variable {fs : FileSystem} {ls : List Leaf} {t : ExtentTree} {ds : List DirectoryBlock}
  {f : Filler σ}

section
variable {α : Type} {ls : List (List α)}

end

/-- A block into which files with these names were put, with the inodes from 12 on. -/
def blockOf (names : List Bytes) : DirectoryBlock :=
  DirectoryBlock.emptyBlock.run
    (names.zipIdx.map fun n => .insert n.1 .regularFile (12 + n.2))

/-- These are the blocks of the directory, from block 100 on. -/
def blocksFs (ds : List DirectoryBlock) : FileSystem :=
  { fsOf (fun lba => if 100 ≤ lba then ds[lba - 100]?.map (·.inner) else none) with
    blkSize := 1024 }

/-- Their extent. -/
def blocksExtent (ds : List DirectoryBlock) : Leaf :=
  { block := 0, start := 100, len := ds.length, isInit := true }

theorem lookup_blocksExtent (ds : List DirectoryBlock) (i : Nat) :
    lookup [blocksExtent ds] i =
      if i < ds.length then some (.initialized (100 + i)) else none := by
  have hcontains : (blocksExtent ds).contains i ↔ i < ds.length := by
    rw [Leaf.contains_iff]
    dsimp only [blocksExtent]
    omega
  rw [lookup, List.find?_singleton]
  simp only [hcontains]
  split <;> rfl

theorem exists_blocks {ds : List DirectoryBlock} (hne : ds ≠ []) (hlen : ds.length < 2 ^ 15)
    (hds : ∀ d ∈ ds, d.WellFormed ∧ d.isVersion2 = true) :
    ∃ t, DirOk (blocksFs ds) [blocksExtent ds] t ds := by
  have hpos := List.length_pos_iff.mpr hne
  obtain ⟨t, hdepth, -, -, hcache, hs⟩ := ExtentHeader.exists_tree 0 [.leaf (blocksExtent ds)]
    (Nat.succ_le_of_lt (Nat.succ_pos 3)) fun e he => by
      obtain rfl := List.mem_singleton.mp he
      exact ExtentHeader.encodable_of_init rfl (Nat.two_pow_pos 32)
        (show 100 < 2 ^ 48 by decide) rfl hlen
  refine ⟨t, Or.inl ⟨hne, ⟨⟨[], ?_⟩, by omega, List.pairwise_singleton .., ?_⟩,
    List.pairwise_singleton .., fun l hl => by rw [hcache] at hl; cases hl⟩, ?_, ?_⟩
  · rw [hdepth]
    exact ⟨hs, List.cons_ne_nil _ _, List.pairwise_singleton .., rfl⟩
  · refine List.forall_mem_singleton.mpr ?_
    dsimp only [blocksExtent]
    omega
  · intro i d hd
    obtain ⟨hi, -⟩ := List.getElem?_eq_some_iff.mp hd
    obtain ⟨hwf, hv2⟩ := hds d (List.mem_of_getElem? hd)
    refine ⟨hwf, hv2, 100 + i, by rw [lookup_blocksExtent, if_pos hi], ?_⟩
    dsimp only [blocksFs, fsOf]
    rw [if_pos (Nat.le_add_right ..), Nat.add_sub_cancel_left, hd]
    rfl
  · rw [lookup_blocksExtent, if_neg (Nat.lt_irrefl _)]

/-- It is the only block of the directory, in block 100. -/
def oneBlockFs (d : DirectoryBlock) : FileSystem :=
  { fsOf (fun lba => if lba = 100 then some d.inner else none) with blkSize := 1024 }

theorem oneBlockFs_eq (d : DirectoryBlock) : oneBlockFs d = blocksFs [d] := by
  have hblocks : (fun lba => if lba = 100 then some d.inner else none) =
      fun lba => if 100 ≤ lba then [d][lba - 100]?.map (·.inner) else none := by
    funext lba
    by_cases hlt : lba < 100
    · rw [if_neg (by omega), if_neg (by omega)]
    · obtain ⟨i, rfl⟩ := Nat.exists_eq_add_of_le (Nat.le_of_not_lt hlt)
      cases i <;> simp
  rw [oneBlockFs, hblocks, blocksFs]

theorem exists_oneBlock {d : DirectoryBlock} (hwf : d.WellFormed) (hv2 : d.isVersion2 = true) :
    ∃ t, DirOk (oneBlockFs d) [{ block := 0, start := 100, len := 1, isInit := true }] t [d] := by
  rw [oneBlockFs_eq]
  exact exists_blocks (List.cons_ne_nil _ _) (show 1 < 2 ^ 15 by decide)
    (List.forall_mem_singleton.mpr ⟨hwf, hv2⟩)

end Linear
end RustExt4.Directory
