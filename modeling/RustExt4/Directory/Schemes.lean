/-
  RustExt4.Directory.Schemes

  The directories of a file system, each under the scheme that `get_scheme` picks for it:
  linear (`directory/linear.rs`), or hashed (`directory/htree/mod.rs`) where the feature
  `DIR_INDEX` and the flag `INDEX` of the inode are set.  Both keep a directory as a list
  of records.  An addition to a linear directory adds one; one to a hashed directory that
  splits a leaf block may lose others.

  What an addition that fails leaves behind is a parameter, as are the events by which a
  directory grows.
-/
import RustExt4.Directory.HTree.Additions
import RustExt4.Directory.Removal

namespace RustExt4.Directory

open DirectoryEntryDispatch
open HTree (HashedDir DirDxRoot SupportedBlkSize)
open Transaction (Event)

/-! ## The schemes -/

/-- The blocks of a directory; a new hashed directory has none. -/
inductive DirBody
  | linear (blocks : List DirectoryBlock)
  | htree (dir : Option HashedDir)

/-- Directories by their numbers, the bytes of the blocks that are free, and the hash version
    of new directories. -/
structure Dirs where
  mount : Mount
  isVersion2 : Bool
  blkSize : Nat
  defaultHashVersion : UInt8
  dirs : Nat → DirBody
  free : List Bytes

namespace Dirs

/-- `R_ENTRIES` of the schemes. -/
def rEntries (s : Dirs) : Nat :=
  match s.blkSize, s.mount.metadataCsum with
  | 1024, true => 122
  | 2048, true => 250
  | 4096, true => 506
  | 1024, false => 123
  | 2048, false => 251
  | 4096, false => 507
  | _, _ => 0

def update (s : Dirs) (dir : Nat) (body : DirBody) : Dirs :=
  { s with dirs := Function.update s.dirs dir body }

/-- The block that the allocator hands out next, for an `unwrap`. -/
def nextFree : List Bytes → Except Fault Bytes
  | [] => .error .panic
  | b :: _ => .ok b

end Dirs

namespace HTreeScheme

/-- `get_lba_of_root` with `from_raw_block`. -/
def openRoot (s : Dirs) : Option HashedDir → Except Fault HashedDir
  | none => .error (.err .noEntry)
  | some dir =>
    (DirDxRoot.fromRawBlock s.mount.hashSeed s.mount.unsignedHash s.rEntries dir.root.raw).map
      fun root => { dir with root := root }

def findEntry (s : Dirs) (target : Bytes) (body : Option HashedDir) :
    Except Fault (Nat × Option FileType) :=
  match openRoot s body with
  | .error e => .error e
  | .ok dir =>
    match dir.findThen s.isVersion2 target with
    | .error e => .error e
    | .ok none => .error (.err .noEntry)
    | .ok (some (fba, _, p)) =>
      match dir.block s.isVersion2 fba with
      | none => .error (.err .ioError)
      | some d => .ok (getInode d.inner p,
          (getFileType d.isVersion2 d.inner p).map Ext4De.intoFileType)

/-- The search of `remove_entry`. -/
def locate (s : Dirs) (target : Bytes) (body : Option HashedDir) :
    Except Fault (Nat × DirectoryBlockIteratorMutCursor) :=
  match openRoot s body with
  | .error e => .error e
  | .ok dir =>
    match dir.findMutThen s.isVersion2 target with
    | .error e => .error e
    | .ok none => .error (.err .noEntry)
    | .ok (some r) => .ok r

/-- What `init` writes, one field behind the other: dot, dotdot, root info, climit. -/
def initHeader (blkSize rEntries : Nat) (hashVersion : UInt8) : Bytes :=
  LeBytes.leBytes 4 0 ++ LeBytes.leBytes 2 12 ++ [1, 2, 46, 0, 0, 0] ++
  LeBytes.leBytes 4 0 ++ LeBytes.leBytes 2 (blkSize - 12) ++ [2, 2, 46, 46, 0, 0] ++
  LeBytes.leBytes 4 0 ++ [hashVersion, 8, 0, 0] ++
  LeBytes.leBytes 2 (rEntries + 1) ++ LeBytes.leBytes 2 1 ++ LeBytes.leBytes 4 1

/-- `init`: the root block with what the cache holds for it, and a cleared leaf block.  An
    index with checksums is `todo!()`. -/
def init (s : Dirs) : Except Fault (HashedDir × List Bytes) :=
  match s.free with
  | root :: leaf :: free =>
    if s.mount.metadataCsum then .error .panic
    else
      (DirDxRoot.fromRawBlock s.mount.hashSeed s.mount.unsignedHash s.rEntries
        (LeBytes.splice root 0 (initHeader s.blkSize s.rEntries s.defaultHashVersion))).map
        fun root => (HashedDir.oneLeaf root
          (DirectoryBlock.clear { inner := leaf, isVersion2 := s.isVersion2 }), free)
  | _ => .error (.err .fsFull)

/-- The directory that an addition starts from, and the blocks that are free then. -/
def openOrInit (s : Dirs) : Option HashedDir → Except Fault (HashedDir × List Bytes)
  | none => init s
  | some dir => (openRoot s (some dir)).map (·, s.free)

def addEntry (s : Dirs) (entry : Bytes) (de : FileType) (child : Nat) (body : Option HashedDir) :
    Except Fault (HashedDir × List Bytes) :=
  match openOrInit s body with
  | .error e => .error e
  | .ok (dir, free) =>
    (dir.insert entry de child (Dirs.nextFree free)).map fun dir' =>
      -- a split has taken a block
      (dir', if dir'.tail = dir.tail then free else free.tail)

end HTreeScheme

/-- `failed` is what an addition to a hashed directory leaves that does not return. -/
def dirsScheme (failed : Nat → Bytes → Dirs → Dirs) :
    Scheme Dirs (Nat × Nat × DirectoryBlockIteratorMutCursor) where
  findEntry dir target s :=
    match s.dirs dir with
    | .linear ds => LinearScheme.findEntry target ds
    | .htree h => HTreeScheme.findEntry s target h
  locate dir target s :=
    (match s.dirs dir with
    | .linear ds => LinearScheme.locate target ds
    | .htree h => HTreeScheme.locate s target h).map (dir, ·)
  destroy r s :=
    match s.dirs r.1 with
    | .linear ds =>
      let x := LinearScheme.destroy r.2.2 r.2.1 ds
      (x.1, s.update r.1 (.linear x.2))
    | .htree none => (0, s)
    | .htree (some h) =>
      let x := h.destroy s.isVersion2 r.2
      (x.1, s.update r.1 (.htree (some x.2)))
  addEntry dir entry de child := fun (s, events) =>
    match s.dirs dir with
    | .linear ds =>
      match LinearScheme.addEntry s.isVersion2 entry de child s.free ds with
      | (r, ds, free) => (r, { s.update dir (.linear ds) with free := free }, events)
    | .htree h =>
      match HTreeScheme.addEntry s entry de child h with
      | .error e => (.error e, failed dir entry s, events)
      | .ok (h', free) => (.ok (), { s.update dir (.htree (some h')) with free := free }, events)
  newInode ino s := s.update ino (if s.mount.dirIndex then .htree none else .linear [])

/-! ## Records -/

namespace DirBody

def records : DirBody → List (Bytes × Nat)
  | .linear ds => LinearScheme.records ds
  | .htree none => []
  | .htree (some h) => h.records

end DirBody

namespace Dirs

/-- The records of a directory. -/
def records (s : Dirs) (dir : Nat) : List (Bytes × Nat) := (s.dirs dir).records

/-- The blocks of a linear directory are well-formed, and an index opens unless `dotdot` has
    been removed. -/
def BodyOk (s : Dirs) : DirBody → Prop
  | .linear ds => ∀ d ∈ ds, d.WellFormed ∧ d.isVersion2 = true
  | .htree none => True
  | .htree (some h) =>
    h.Whole s.mount.hashSeed s.mount.unsignedHash s.rEntries s.blkSize ∨ h.Broken

structure Inv (s : Dirs) : Prop where
  version : s.isVersion2 = true
  blkSize : SupportedBlkSize s.blkSize
  bodies : ∀ dir, s.BodyOk (s.dirs dir)
  free : ∀ b ∈ s.free, b.length = s.blkSize

/-- When an addition that returns sets the name and leaves the other names: no record of
    another number in a linear directory, and `HashedDir.Sets` for a hashed one, which for a
    directory without blocks is the one that `init` makes. -/
def Sets (s : Dirs) (dir : Nat) (name : Bytes) (child : Nat) : Prop :=
  match s.dirs dir with
  | .linear ds => ∀ i, (name, i) ∈ LinearScheme.records ds → i = child
  | .htree h => ∀ h' free, HTreeScheme.openOrInit s h = .ok (h', free) →
      h'.Sets (nextFree free) name child

theorem Inv.rEntries_fits {s : Dirs} (h : s.Inv) : 0x20 + 8 * (s.rEntries + 1) ≤ s.blkSize ∧
    1 ≤ s.rEntries := by
  unfold rEntries
  rcases h.blkSize with h | h | h <;> rw [h] <;> cases s.mount.metadataCsum <;>
    exact ⟨by decide, by decide⟩

end Dirs

namespace HTreeScheme

open HTree (Dots RecordAt)

/-! ## A new index -/

theorem length_initHeader (blkSize rEntries : Nat) (hashVersion : UInt8) :
    (initHeader blkSize rEntries hashVersion).length = 40 := by
  simp [initHeader, LeBytes.leBytes]

/-- What the header of a new index reads as. -/
theorem initHeader_spec (root : Bytes) (hashVersion : UInt8) {blkSize : Nat} (rEntries : Nat)
    (hblk : blkSize < 2 ^ 16) (hentries : rEntries + 1 < 2 ^ 16) :
    let raw := LeBytes.splice root 0 (initHeader blkSize rEntries hashVersion)
    RecordAt raw 0 12 [46] ∧ RecordAt raw 12 (blkSize - 12) [46, 46] ∧
      ByteRw.readU8 raw 0x1E = 0 ∧ ByteRw.readU16 raw 0x20 = rEntries + 1 ∧
      ByteRw.readU16 raw 0x22 = 1 ∧ ByteRw.readU32 raw 0x24 = 1 ∧
      ByteRw.readU32 raw 0x0 = 0 ∧ ByteRw.readU32 raw 0xC = 0 := by
  have hlen : (blkSize - 12) % 256 + 256 * ((blkSize - 12) / 256 % 256) = blkSize - 12 := by
    omega
  have hlimit : (rEntries + 1) % 256 + 256 * ((rEntries + 1) / 256 % 256) = rEntries + 1 := by
    omega
  refine ⟨⟨?_, ?_, ?_⟩, ⟨?_, ?_, ?_⟩, ?_, ?_, ?_, ?_, ?_, ?_⟩ <;>
    simp [LeBytes.splice, initHeader, LeBytes.leBytes, ByteRw.readU8, ByteRw.readU16,
      ByteRw.readU32, LeBytes.readLe, LeBytes.byteAt, LeBytes.slice, getEntryLen, getNameLen,
      nameBytes, hlen, hlimit]

theorem fromRawBlock_raw {hashSeed : Hasher.Ext4Hash} {unsignedHash : Bool} {rEntries : Nat}
    {raw : Bytes} {root : DirDxRoot}
    (h : DirDxRoot.fromRawBlock hashSeed unsignedHash rEntries raw = .ok root) :
    root.raw = raw := by
  unfold DirDxRoot.fromRawBlock at h
  split at h
  case h_1 => cases h
  case h_2 =>
    split at h
    case isTrue =>
      cases h
      rfl
    case isFalse => cases h

/-- A directory that `init` has made is empty. -/
theorem init_ok {s : Dirs} (hs : s.Inv) {dir : HashedDir} {free : List Bytes}
    (h : init s = .ok (dir, free)) :
    dir.Whole s.mount.hashSeed s.mount.unsignedHash s.rEntries s.blkSize ∧ dir.records = [] ∧
      free ⊆ s.free := by
  obtain ⟨hfits, hentries⟩ := hs.rEntries_fits
  have hsize : 1024 ≤ s.blkSize ∧ s.blkSize < 2 ^ 16 := by
    rcases hs.blkSize with h | h | h <;> omega
  unfold init at h
  split at h
  case h_2 => cases h
  case h_1 rootBytes leaf free' hfree =>
    split at h
    case isTrue => cases h
    case isFalse =>
      cases hopen : DirDxRoot.fromRawBlock s.mount.hashSeed s.mount.unsignedHash s.rEntries
        (LeBytes.splice rootBytes 0 (initHeader s.blkSize s.rEntries s.defaultHashVersion)) with
      | error e =>
          rw [hopen] at h
          cases h
      | ok root =>
          rw [hopen] at h
          cases h
          have hraw := fromRawBlock_raw hopen
          obtain ⟨hdot, hdotdot, hlevels, hlimit, hcount, hblock, hino, hino'⟩ :=
            initHeader_spec rootBytes s.defaultHashVersion s.rEntries hsize.2 (by omega)
          have hrootLen := hs.free rootBytes (by rw [hfree]; exact List.mem_cons_self)
          have hleafLen := hs.free leaf (by rw [hfree]; simp)
          have hlen : root.raw.length = s.blkSize := by
            rw [hraw, LeBytes.length_splice (by rw [length_initHeader]; omega), hrootLen]
          rw [← hraw] at hopen hdot hdotdot hlevels hlimit hcount hblock hino hino'
          have hslots : root.slots = [{ hash := 0, block := 1 }] := by
            rw [DirDxRoot.slots, show root.climit.count = 1 from hcount]
            simp only [Nat.max_self, List.range_one, List.map_cons, List.map_nil, DirDxRoot.slot,
              reduceIte, show root.climit.block = 1 from hblock]
          -- The leaf block is the only one, without entries.
          obtain ⟨d, hd⟩ :
              ∃ d : DirectoryBlock, d = { inner := leaf, isVersion2 := s.isVersion2 } := ⟨_, rfl⟩
          have hblk : d.blkSize = s.blkSize := by rw [hd]; exact hleafLen
          obtain ⟨hwf, hempty⟩ := DirectoryBlock.clear_wellFormed (d := d)
            (by rw [hd]; exact hs.version) (by rw [hblk]; exact hs.blkSize)
          have hlive : d.clear.liveEntries = [] := by
            rw [HTree.nameRecords_eq] at hempty
            exact List.map_eq_nil_iff.mp hempty
          have hleaf : HTree.IsLeaf s.blkSize d.clear := by
            refine ⟨hwf, (DirectoryBlock.clear_spec (by omega) (by omega)).1.trans hblk, ?_⟩
            rw [hlive]
            exact List.forall_mem_nil _
          rw [← hd]
          have hleafs : (HashedDir.oneLeaf root d.clear).leafs 1 = some d.clear := rfl
          refine ⟨⟨hopen, ⟨hlen.symm ▸ hs.blkSize, hdot, hlen.symm ▸ hdotdot⟩,
            HashedDir.oneLeaf_ok hslots hlevels hcount.ge ?_ hleaf, fun fba d' hd' => ?_, ?_⟩, ?_,
            fun b hb => ?_⟩
          · rw [show root.climit.limit = s.rEntries + 1 from hlimit, hlen]
            exact hfits
          · rw [HashedDir.oneLeaf] at hd'
            dsimp only at hd'
            split at hd'
            case isTrue =>
              cases hd'
              rw [DirectoryBlock.clear, hd]
              exact hs.version
            case isFalse => cases hd'
          · change 0x20 + 8 * root.climit.count ≤ root.raw.length
            rw [show root.climit.count = 1 from hcount, hlen]
            omega
          · change HTree.dotRecords root.raw ++ HashedDir.recordsIn _ root.slots = []
            rw [HTree.dotRecords_eq, hino, hino', hslots, HashedDir.recordsIn,
              List.flatMap_singleton, HashedDir.entriesOf_eq hleafs, hlive]
            rfl
          · rw [hfree]
            exact List.mem_cons_of_mem _ (List.mem_cons_of_mem _ hb)

/-! ## The records of an index -/

variable {s : Dirs} {body : Option HashedDir} {target : Bytes}

theorem openRoot_whole {dir : HashedDir}
    (h : dir.Whole s.mount.hashSeed s.mount.unsignedHash s.rEntries s.blkSize) :
    openRoot s (some dir) = .ok dir := by
  rw [openRoot, h.opened]
  rfl

theorem openRoot_broken {dir : HashedDir} (h : dir.Broken) :
    ∃ e, openRoot s (some dir) = .error e ∧ e ≠ .err .noEntry := by
  unfold openRoot DirDxRoot.fromRawBlock
  dsimp only
  split
  case h_1 =>
    refine ⟨_, rfl, fun heq => ?_⟩
    cases heq
  case h_2 version hversion =>
    rw [if_neg fun hverify => h hverify.1]
    refine ⟨_, rfl, fun heq => ?_⟩
    cases heq

/-- What the search of a removal finds is one record, and `destroy` takes that out. -/
theorem locate_ok (hbody : s.BodyOk (.htree body)) (hv2 : s.isVersion2 = true)
    {r : Nat × DirectoryBlockIteratorMutCursor} (h : locate s target body = .ok r) :
    ∃ dir, body = some dir ∧ s.BodyOk (.htree (some (dir.destroy true r).2)) ∧
      dir.Drops target (dir.destroy true r).1 (dir.destroy true r).2 := by
  cases body with
  | none => cases h
  | some dir =>
      unfold locate at h
      rcases hbody with hwhole | hbroken
      · rw [openRoot_whole hwhole, hv2] at h
        dsimp only at h
        rcases hwhole.findMut_cases target with hpanic | ⟨hnone, -⟩ | ⟨r', hfound, hbody', hdrops⟩
        · rw [hpanic] at h
          cases h
        · rw [hnone] at h
          cases h
        · rw [hfound] at h
          cases h
          exact ⟨dir, rfl, hbody', hdrops⟩
      · obtain ⟨e, hopen, -⟩ := openRoot_broken (s := s) hbroken
        rw [hopen] at h
        cases h

theorem locate_noEntry (hbody : s.BodyOk (.htree body)) (hv2 : s.isVersion2 = true)
    (h : locate s target body = .error (.err .noEntry)) (ino : Nat) :
    (target, ino) ∉ (DirBody.htree body).records := by
  cases body with
  | none => exact List.not_mem_nil
  | some dir =>
      unfold locate at h
      rcases hbody with hwhole | hbroken
      · rw [openRoot_whole hwhole, hv2] at h
        dsimp only at h
        rcases hwhole.findMut_cases target with hpanic | ⟨-, habsent⟩ | ⟨r', hfound, -⟩
        · rw [hpanic] at h
          cases h
        · exact habsent ino
        · rw [hfound] at h
          cases h
      · -- An index that does not open is another error.
        obtain ⟨e, hopen, hne⟩ := openRoot_broken (s := s) hbroken
        rw [hopen] at h
        exact absurd (Except.error.inj h) hne

/-- An addition starts from an index that opens, with the records of the directory. -/
theorem openOrInit_ok (hs : s.Inv) (hbody : s.BodyOk (.htree body)) {dir : HashedDir}
    {free : List Bytes} (h : openOrInit s body = .ok (dir, free)) :
    dir.Whole s.mount.hashSeed s.mount.unsignedHash s.rEntries s.blkSize ∧
      dir.records = (DirBody.htree body).records ∧ free ⊆ s.free := by
  cases body with
  | none => exact init_ok hs h
  | some dir' =>
      unfold openOrInit at h
      dsimp only at h
      rcases hbody with hwhole | hbroken
      · rw [openRoot_whole hwhole] at h
        cases h
        exact ⟨hwhole, rfl, List.Subset.refl _⟩
      · obtain ⟨e, hopen, -⟩ := openRoot_broken (s := s) hbroken
        rw [hopen] at h
        cases h

theorem addEntry_eq_ok (hs : s.Inv) (hbody : s.BodyOk (.htree body)) {entry : Bytes}
    {de : FileType} {child : Nat} {dir' : HashedDir} {free' : List Bytes}
    (h : addEntry s entry de child body = .ok (dir', free')) :
    ∃ dir free, openOrInit s body = .ok (dir, free) ∧
      dir.Whole s.mount.hashSeed s.mount.unsignedHash s.rEntries s.blkSize ∧
      dir.records = (DirBody.htree body).records ∧
      (∀ b, Dirs.nextFree free = .ok b → b.length = s.blkSize) ∧
      dir.insert entry de child (Dirs.nextFree free) = .ok dir' := by
  unfold addEntry at h
  split at h
  case h_1 => cases h
  case h_2 dir free hopen =>
    obtain ⟨hwhole, hrecs, hsub⟩ := openOrInit_ok hs hbody hopen
    refine ⟨dir, free, hopen, hwhole, hrecs, fun b hb => ?_, ?_⟩
    · cases free with
      | nil => cases hb
      | cons b' free =>
          cases hb
          exact hs.free _ (hsub List.mem_cons_self)
    · cases hins : dir.insert entry de child (Dirs.nextFree free) with
      | error e =>
          rw [hins] at h
          cases h
      | ok dir1 =>
          rw [hins] at h
          cases h
          rfl

theorem addEntry_ok (hs : s.Inv) (hbody : s.BodyOk (.htree body))
    (hmap : IsMap (DirBody.htree body).records) {entry : Bytes} {de : FileType} {child : Nat}
    (hvalid : utf8Valid entry = true) (hchild : child ≠ 0 ∧ child < 2 ^ 32) {dir' : HashedDir}
    {free' : List Bytes} (h : addEntry s entry de child body = .ok (dir', free')) :
    SetsName (DirBody.htree body).records dir'.records entry child ↔
      ∀ dir free, openOrInit s body = .ok (dir, free) →
        dir.Sets (Dirs.nextFree free) entry child := by
  obtain ⟨dir, free, hopen, hwhole, hrecs, hnew, hins⟩ := addEntry_eq_ok hs hbody h
  rw [← hrecs] at hmap ⊢
  rw [hwhole.sets_iff hs.blkSize hmap hvalid hchild hnew hins]
  refine ⟨fun hsets dir2 free2 hopen2 => ?_, fun hall => hall dir free hopen⟩
  cases hopen.symm.trans hopen2
  exact hsets

end HTreeScheme

/-! ## The records of all directories -/

namespace Dirs

variable {s : Dirs} {dir : Nat} {body : DirBody} {free : List Bytes}

theorem update_self : (s.update dir body).dirs dir = body := Function.update_self ..

theorem update_of_ne {dir' : Nat} (hne : dir' ≠ dir) :
    (s.update dir body).dirs dir' = s.dirs dir' := Function.update_of_ne hne ..

theorem Inv.update (hs : s.Inv) (hbody : s.BodyOk body) : (s.update dir body).Inv where
  version := hs.version
  blkSize := hs.blkSize
  bodies dir' := by
    by_cases hdir : dir' = dir
    · rw [hdir, update_self]
      exact hbody
    · rw [update_of_ne hdir]
      exact hs.bodies dir'
  free := hs.free

theorem records_update_self : records (s.update dir body) dir = body.records :=
  congrArg DirBody.records update_self

theorem records_update_of_ne {dir' : Nat} (hne : dir' ≠ dir) :
    records (s.update dir body) dir' = records s dir' :=
  congrArg DirBody.records (update_of_ne hne)

end Dirs

/-- A record of a hashed directory has an inode number. -/
theorem HTree.HashedDir.records_inode {dir : HashedDir} {name : Bytes} {ino : Nat}
    (h : (name, ino) ∈ dir.records) : ino ≠ 0 ∧ ino < 2 ^ 32 := by
  rcases List.mem_append.mp h with hdot | hleaf
  · obtain ⟨hne, ⟨-, rfl⟩ | ⟨-, rfl⟩⟩ := HTree.mem_dotRecords.mp hdot <;>
      exact ⟨hne, ByteRw.readU32_lt ..⟩
  · obtain ⟨en, -, hen⟩ := List.mem_flatMap.mp hleaf
    cases hd : dir.leafs en.block with
    | none =>
        rw [HashedDir.entriesOf, hd] at hen
        cases hen
    | some d =>
        rw [HashedDir.entriesOf_eq hd, ← HTree.nameRecords_eq] at hen
        exact DirectoryBlock.nameRecords_inode hen

theorem DirBody.records_inode {body : DirBody} {name : Bytes} {ino : Nat}
    (h : (name, ino) ∈ body.records) : ino ≠ 0 ∧ ino < 2 ^ 32 := by
  match body with
  | .linear ds =>
      obtain ⟨d, -, hd⟩ := List.mem_flatMap.mp h
      exact DirectoryBlock.nameRecords_inode hd
  | .htree none => cases h
  | .htree (some dir) => exact dir.records_inode h

/-- Both schemes keep directories as lists of records. -/
theorem dirsScheme_setsRecords (failed : Nat → Bytes → Dirs → Dirs) :
    (dirsScheme failed).SetsRecords Dirs.Inv Dirs.records Dirs.Sets where
  inode _ h := DirBody.records_inode h
  locate_ok {s dir name r} hs h := by
    have hbody := hs.bodies dir
    cases hdir : s.dirs dir with
    | linear ds =>
        rw [hdir] at hbody
        cases hloc : LinearScheme.locate name ds with
        | error e =>
            simp only [dirsScheme, hdir, hloc] at h
            cases h
        | ok x =>
            simp only [dirsScheme, hdir, hloc] at h
            cases h
            have hdes : (dirsScheme failed).destroy (dir, x) s =
                ((LinearScheme.destroy x.2 x.1 ds).1,
                  s.update dir (.linear (LinearScheme.destroy x.2 x.1 ds).2)) := by
              simp only [dirsScheme, hdir]
            obtain ⟨hnew, l, r, hafter, hbefore⟩ := LinearScheme.destroy_ok hbody hloc
            rw [hdes]
            exact ⟨hs.update hnew, ⟨l, r, Dirs.records_update_self.trans hafter,
              (congrArg DirBody.records hdir).trans hbefore⟩,
              fun dir' hne => (Dirs.records_update_of_ne hne).symm⟩
    | htree body =>
        rw [hdir] at hbody
        cases hloc : HTreeScheme.locate s name body with
        | error e =>
            simp only [dirsScheme, hdir, hloc] at h
            cases h
        | ok x =>
            simp only [dirsScheme, hdir, hloc] at h
            cases h
            obtain ⟨d, rfl, hnew, l, r, hafter, hbefore⟩ :=
              HTreeScheme.locate_ok hbody hs.version hloc
            have hdes : (dirsScheme failed).destroy (dir, x) s = ((d.destroy true x).1,
                s.update dir (.htree (some (d.destroy true x).2))) := by
              simp only [dirsScheme, hdir, hs.version]
            rw [hdes]
            exact ⟨hs.update hnew, ⟨l, r, Dirs.records_update_self.trans hafter,
              (congrArg DirBody.records hdir).trans hbefore⟩,
              fun dir' hne => (Dirs.records_update_of_ne hne).symm⟩
  locate_noEntry {s dir name} hs h ino := by
    have hbody := hs.bodies dir
    unfold Dirs.records
    cases hdir : s.dirs dir with
    | linear ds =>
        rw [hdir] at hbody
        apply LinearScheme.locate_noEntry fun d hd => (hbody d hd).1
        cases hloc : LinearScheme.locate name ds with
        | error e =>
            simp only [dirsScheme, hdir, hloc] at h
            cases h
            rfl
        | ok x =>
            simp only [dirsScheme, hdir, hloc] at h
            cases h
    | htree body =>
        rw [hdir] at hbody
        apply HTreeScheme.locate_noEntry hbody hs.version
        cases hloc : HTreeScheme.locate s name body with
        | error e =>
            simp only [dirsScheme, hdir, hloc] at h
            cases h
            rfl
        | ok x =>
            simp only [dirsScheme, hdir, hloc] at h
            cases h
  addEntry_ok {s s' dir child name de evs evs'} hs hmap hname hchild h := by
    have hbody := hs.bodies dir
    unfold Dirs.Sets
    cases hdir : s.dirs dir with
    | linear ds =>
        simp only [dirsScheme, hdir, hs.version] at h
        rw [hdir] at hbody
        cases hadd : LinearScheme.addEntry true name de child s.free ds with
        | mk r rest =>
            rw [hadd] at h
            cases h
            obtain ⟨-, -, hone⟩ := LinearScheme.addEntry_ok
              (fun b hb => (hs.free b hb).symm ▸ hs.blkSize) hname hchild hbody hadd
            refine ⟨fun dir' hne => Dirs.records_update_of_ne hne, ?_⟩
            have hafter : Dirs.records { s.update dir (.linear rest.1) with free := rest.2 } dir =
                LinearScheme.records rest.1 := Dirs.records_update_self
            rw [hafter, show Dirs.records s dir = LinearScheme.records ds
              from congrArg DirBody.records hdir]
            exact setsName_of_insert hone
    | htree body =>
        rw [hdir] at hbody
        have hbefore : Dirs.records s dir = (DirBody.htree body).records :=
          congrArg DirBody.records hdir
        cases hadd : HTreeScheme.addEntry s name de child body with
        | error e =>
            simp only [dirsScheme, hdir, hadd] at h
            cases h
        | ok x =>
            simp only [dirsScheme, hdir, hadd] at h
            cases h
            refine ⟨fun dir' hne => Dirs.records_update_of_ne hne, ?_⟩
            have hafter : Dirs.records { s.update dir (.htree (some x.1)) with free := x.2 } dir =
                x.1.records := Dirs.records_update_self
            rw [hafter, hbefore]
            exact HTreeScheme.addEntry_ok hs hbody (hbefore ▸ hmap) hname hchild hadd

end RustExt4.Directory
