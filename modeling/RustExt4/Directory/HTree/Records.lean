/-
  RustExt4.Directory.HTree.Records

  A hashed directory as a list of records: the dot entries of its root block and the
  entries of its leaf blocks, in the order of the slots.  A search that finds a name takes
  that record out and no other, and one that finds none means that there is none.
-/
import RustExt4.Directory.HTree.SplitRecords

namespace RustExt4.Directory.HTree

open DirectoryEntryDispatch
open LeBytes (SameOn)

/-! ## The dot entries -/

/-- The records of `dot` and `dotdot`. -/
def dotRecords (raw : Bytes) : List (Bytes × Nat) :=
  [([46], ByteRw.readU32 raw 0x0), ([46, 46], ByteRw.readU32 raw 0xC)].filter fun x => x.2 ≠ 0

/-- The root block as a block of entries. -/
def rootBlock (isVersion2 : Bool) (raw : Bytes) : DirectoryBlock where
  inner := raw
  isVersion2 := isVersion2

/-- A record of this length and name, used or not. -/
structure RecordAt (raw : Bytes) (p len : Nat) (name : Bytes) : Prop where
  entryLen : getEntryLen raw p = len
  nameLen : getNameLen true raw p = name.length
  name : nameBytes true raw p = name

/-- The two records of the root block. -/
structure Dots (raw : Bytes) : Prop where
  size : SupportedBlkSize raw.length
  dot : RecordAt raw 0 12 [46]
  dotdot : RecordAt raw 12 (raw.length - 12) [46, 46]

variable {raw raw' : Bytes} {target : Bytes}

theorem RecordAt.congr {p len : Nat} {name : Bytes} (h : RecordAt raw p len name)
    (hlen : raw'.length = raw.length) (hsame : SameOn raw' raw (p + 4) (p + 8 + name.length))
    (hend : p + 8 + name.length ≤ raw.length) : RecordAt raw' p len name where
  entryLen := by
    rw [← h.entryLen]
    exact ByteRw.readU16_congr (hsame.mono (Nat.le_refl _) (by omega))
  nameLen := by
    rw [← h.nameLen]
    exact getNameLen_congr (hsame.mono (by omega) (by omega))
  name := by
    have hname := h.nameLen
    rw [← h.name]
    exact nameBytes_congr hlen (hsame.mono (by omega) (by omega)) (by omega)

/-- The search stops at the record, or goes on behind it. -/
theorem RecordAt.findMutFrom {p len : Nat} {name : Bytes} (h : RecordAt raw p len name)
    (target : Bytes) (h4 : 4 ∣ len) (hroom : 8 + name.length ≤ len) (hend : p + len ≤ raw.length)
    (hvalid : utf8Valid name = true) (ppos : Option Nat) :
    (rootBlock true raw).findMutFrom { pos := p, ppos := ppos } target =
      if name = target ∧ getInode raw p ≠ 0 then .ok (some { ppos := ppos, pos := p })
      else (rootBlock true raw).findMutFrom { pos := p + len, ppos := some p } target := by
  have hlen : getEntryLen (rootBlock true raw).inner p = len := h.entryLen
  have hok : (format true).Ok raw p :=
    format_ok.mpr ⟨h.entryLen ▸ h4, by rw [h.entryLen, h.nameLen]; exact hroom⟩
  have hname : getName true raw p = .ok name := by
    have hnameLen := h.nameLen
    rw [getName, h.name, if_pos ⟨by omega, hvalid⟩]
  have hnext := DirectoryBlock.iterMut_next (d := rootBlock true raw) ppos hok
    (hlen.symm ▸ hend)
  rw [DirectoryBlock.findMutFrom_of_some target hnext]
  dsimp only
  rw [show getName (rootBlock true raw).isVersion2 (rootBlock true raw).inner p = .ok name
    from hname, hlen]
  rfl

/-- What the search for a name finds in the root block. -/
theorem Dots.findMut (h : Dots raw) (target : Bytes) :
    (rootBlock true raw).findMutFrom {} target = .ok (
      if [46] = target ∧ getInode raw 0 ≠ 0 then some { ppos := none, pos := 0 }
      else if [46, 46] = target ∧ getInode raw 12 ≠ 0 then some { ppos := some 0, pos := 12 }
      else none) := by
  have hsize : 24 ≤ raw.length ∧ 4 ∣ raw.length := by rcases h.size with h | h | h <;> omega
  have hdot := h.dot.findMutFrom target (by decide) (by decide) (by omega)
    (utf8Valid_of_chars ['.']) none
  have hdotdot := h.dotdot.findMutFrom target (by omega)
    (show 8 + 2 ≤ raw.length - 12 by omega) (by omega) (utf8Valid_of_chars ['.', '.']) (some 0)
  have hend : (rootBlock true raw).findMutFrom
      { pos := 12 + (raw.length - 12), ppos := some 12 } target = .ok none := by
    rw [Nat.add_sub_cancel' (by omega)]
    exact DirectoryBlock.findMutFrom_of_none target (DirectoryBlock.iterMut_end _ _)
  rw [hend] at hdotdot
  refine hdot.trans ?_
  split
  case isTrue => rfl
  case isFalse =>
    refine hdotdot.trans ?_
    split <;> rfl

theorem mem_dotRecords {n : Bytes} {i : Nat} : (n, i) ∈ dotRecords raw ↔
    i ≠ 0 ∧ ((n = [46] ∧ i = ByteRw.readU32 raw 0x0) ∨
      (n = [46, 46] ∧ i = ByteRw.readU32 raw 0xC)) := by
  simp only [dotRecords, List.mem_filter, List.mem_cons, Prod.mk.injEq, List.not_mem_nil,
    or_false, decide_eq_true_eq]
  tauto

theorem dotRecords_eq (raw : Bytes) : dotRecords raw =
    (if ByteRw.readU32 raw 0x0 = 0 then [] else [([46], ByteRw.readU32 raw 0x0)]) ++
      if ByteRw.readU32 raw 0xC = 0 then [] else [([46, 46], ByteRw.readU32 raw 0xC)] := by
  unfold dotRecords
  by_cases h1 : ByteRw.readU32 raw 0x0 = 0 <;> by_cases h2 : ByteRw.readU32 raw 0xC = 0 <;>
    simp [h1, h2]

theorem dotRecords_congr (h1 : SameOn raw' raw 0 4) (h2 : SameOn raw' raw 12 16) :
    dotRecords raw' = dotRecords raw := by
  rw [dotRecords, dotRecords, ByteRw.readU32_congr h1, ByteRw.readU32_congr h2]

/-- A directory opens with the hasher that it had, where the header is the same. -/
theorem fromRawBlock_congr {hashSeed : Hasher.Ext4Hash} {unsignedHash : Bool} {rEntries : Nat}
    {root : DirDxRoot}
    (h : DirDxRoot.fromRawBlock hashSeed unsignedHash rEntries root.raw = .ok root)
    (hlen : raw'.length = root.raw.length) (h1 : SameOn raw' root.raw 4 6)
    (h2 : SameOn raw' root.raw 16 0x22) :
    DirDxRoot.fromRawBlock hashSeed unsignedHash rEntries raw' =
      .ok { root with raw := raw' } := by
  unfold DirDxRoot.fromRawBlock at h ⊢
  rw [ByteRw.readU8_congr (h2.mono (by omega) (by omega)), ByteRw.readU16_congr h1, hlen,
    ByteRw.readU16_congr (h2.mono (by omega) (by omega)),
    ByteRw.readU8_congr (h2.mono (by omega) (by omega)),
    ByteRw.readU8_congr (h2.mono (by omega) (by omega)),
    ByteRw.readU16_congr (h2.mono (by omega) (by omega))]
  split at h
  case h_1 => cases h
  case h_2 version hversion =>
    split at h
    case isTrue hverify =>
      have hhasher := congrArg DirDxRoot.hasher (Except.ok.inj h)
      rw [if_pos hverify, ← hhasher]
    case isFalse => cases h

namespace HashedDir

/-! ## Searches -/

variable {ρ : Type}

/-- A block of the file of the directory. -/
def block (isVersion2 : Bool) (dir : HashedDir) (fba : Nat) : Option DirectoryBlock :=
  if fba = 0 then some (rootBlock isVersion2 dir.root.raw) else dir.leafs fba

/-- The loop over index entries; `search` is the loop over one block. -/
def findIn (isVersion2 : Bool) (search : DirectoryBlock → Except Fault (Option ρ))
    (noBlock : FsError) (dir : HashedDir) : List DxEntry → Except Fault (Option (Nat × ρ))
  | [] => .ok none
  | en :: ens =>
    match dir.block isVersion2 en.block with
    | none => .error (.err noBlock)
    | some d =>
      match search d with
      | .error e => .error e
      | .ok (some r) => .ok (some (en.block, r))
      | .ok none => findIn isVersion2 search noBlock dir ens

/-- What `find_then` and `find_mut_then` share. -/
def findWith (isVersion2 : Bool) (search : DirectoryBlock → Except Fault (Option ρ))
    (noBlock : FsError) (dir : HashedDir) (target : Bytes) : Except Fault (Option (Nat × ρ)) :=
  match dir.findIn isVersion2 search noBlock
    (if isDot target then [{ hash := 0, block := 0 }] else []) with
  | .error e => .error e
  | .ok (some r) => .ok (some r)
  | .ok none =>
    match dir.root.hashOf target with
    | .error e => .error e
    | .ok hash =>
      match HTreeCursor.fromHash dir.root hash with
      | .error e => .error e
      | .ok cursor => dir.findIn isVersion2 search noBlock (cursor.visits dir.root)

def findThen (isVersion2 : Bool) (dir : HashedDir) (target : Bytes) :
    Except Fault (Option (Nat × Option Nat × Nat)) :=
  dir.findWith isVersion2 (fun d => d.findFrom {} none target) .noEntry target

def findMutThen (isVersion2 : Bool) (dir : HashedDir) (target : Bytes) :
    Except Fault (Option (Nat × DirectoryBlockIteratorMutCursor)) :=
  dir.findWith isVersion2 (fun d => d.findMutFrom {} target) ErrFindMut target

/-- `destroy` on what a search has found. -/
def destroy (isVersion2 : Bool) (dir : HashedDir) (r : Nat × DirectoryBlockIteratorMutCursor) :
    Nat × HashedDir :=
  if r.1 = 0 then
    let x := (rootBlock isVersion2 dir.root.raw).destroy r.2
    (x.1, { dir with root := { dir.root with raw := x.2.inner } })
  else
    match dir.leafs r.1 with
    | none => (0, dir)
    | some d => ((d.destroy r.2).1, dir.store r.1 (d.destroy r.2).2)

/-! ## The same searches on the device -/

section

variable {fs : FileSystem} {ls : List Inode.Extent.Leaf}
  {t : Inode.Extent.ExtentTree} {dir : HashedDir}
  {search : DirectoryBlock → Except Fault (Option ρ)} {noBlock : FsError}

/-- The blocks of the directory are those of its file. -/
def OnDevice (fs : FileSystem) (ls : List Inode.Extent.Leaf) (dir : HashedDir) :
    Prop :=
  ∀ en d, dir.block fs.sb.isDirEntryVersion2 en.block = some d →
    ∃ lba, leafOf fs ls en = some (lba, d)

/-- Two searches that end alike, with a record in the block that the number of the file block
    stands for. -/
def EndsAlike (fs : FileSystem) (ls : List Inode.Extent.Leaf) :
    Except Fault (Option (Nat × ρ) × Inode.Extent.ExtentTree) →
      Except Fault (Option (Nat × ρ)) → Prop
  | .error e, res => res = .error e
  | .ok (none, t), res => res = .ok none ∧ Mapped fs ls t
  | .ok (some (lba, x), _), res => ∃ en d, res = .ok (some (en.block, x)) ∧
      leafOf fs ls en = some (lba, d)

theorem findIn_endsAlike (h : OnDevice fs ls dir) {ens : List DxEntry}
    (hens : ∀ en ∈ ens, ∃ d, dir.block fs.sb.isDirEntryVersion2 en.block = some d)
    (hm : Mapped fs ls t) (ino : Nat) :
    EndsAlike fs ls (HTree.findIn search noBlock fs ino ens t)
      (dir.findIn fs.sb.isDirEntryVersion2 search noBlock ens) := by
  -- On the index entries left.
  induction ens generalizing t with
  | nil => exact ⟨rfl, hm⟩
  | cons en ens ih =>
      obtain ⟨d, hd⟩ := hens en List.mem_cons_self
      obtain ⟨lba, hleaf⟩ := h en d hd
      obtain ⟨t', hblock, hm'⟩ := dataBlock_spec hm hleaf noBlock ino
      rw [HTree.findIn, findIn, hblock, hd]
      dsimp only
      cases search d with
      | error e => rfl
      | ok o =>
          cases o with
          | some x => exact ⟨en, d, rfl, hleaf⟩
          | none => exact ih (fun en' hen' => hens en' (List.mem_cons_of_mem _ hen')) hm'

/-- A lookup by name ends as it does on the device. -/
theorem findWith_endsAlike (h : OnDevice fs ls dir)
    (hslots : ∀ en ∈ dir.root.slots, ∃ d, dir.block fs.sb.isDirEntryVersion2 en.block = some d)
    (hm : Mapped fs ls t) (ino : Nat) (target : Bytes) :
    EndsAlike fs ls (HTree.findWith search noBlock dir.root fs ino t target)
      (dir.findWith fs.sb.isDirEntryVersion2 search noBlock target) := by
  have hdots : ∀ en ∈ (if isDot target then [({ hash := 0, block := 0 } : DxEntry)] else []),
      ∃ d, dir.block fs.sb.isDirEntryVersion2 en.block = some d := by
    intro en hen
    split at hen
    · rw [List.mem_singleton.mp hen]
      exact ⟨_, if_pos rfl⟩
    · cases hen
  have hroot : EndsAlike fs ls (HTree.findIn search noBlock fs ino _ t)
      (dir.findIn fs.sb.isDirEntryVersion2 search noBlock _) := findIn_endsAlike h hdots hm ino
  unfold HTree.findWith findWith
  -- The root block first, and then the slots of the cursor.
  split <;> rename_i heq <;> rw [heq] at hroot
  case h_1 e =>
    rw [show findIn _ _ _ _ _ = _ from hroot]
    rfl
  case h_2 x t' =>
    obtain ⟨en, d, hx, hleaf⟩ := hroot
    rw [hx]
    exact ⟨en, d, rfl, hleaf⟩
  case h_3 t' =>
    obtain ⟨hnone, hm'⟩ := hroot
    rw [hnone]
    dsimp only
    cases dir.root.hashOf target with
    | error e => rfl
    | ok hash =>
        dsimp only
        cases HTreeCursor.fromHash dir.root hash with
        | error e => rfl
        | ok c =>
            exact findIn_endsAlike h (fun en hen => hslots en
              (List.mem_of_mem_drop ((HTreeCursor.visits_prefix dir.root c).subset hen))) hm' ino

end

/-! ## Records -/

/-- The records in the leaf blocks of some slots. -/
def recordsIn (dir : HashedDir) (ens : List DxEntry) : List (Bytes × Nat) :=
  ens.flatMap fun en => (dir.entriesOf en).map toRecord

/-- The records of a directory. -/
def records (dir : HashedDir) : List (Bytes × Nat) :=
  dotRecords dir.root.raw ++ dir.recordsIn dir.root.slots

/-- A hashed directory whose index opens, with V2 entries; the slots are in the root block. -/
structure Whole (dir : HashedDir) (hashSeed : Hasher.Ext4Hash) (unsignedHash : Bool)
    (rEntries blkSize : Nat) : Prop where
  opened : DirDxRoot.fromRawBlock hashSeed unsignedHash rEntries dir.root.raw = .ok dir.root
  dots : Dots dir.root.raw
  ok : dir.Ok blkSize
  version : ∀ fba d, dir.leafs fba = some d → d.isVersion2 = true
  inBlock : 0x20 + 8 * dir.root.climit.count ≤ dir.root.raw.length

variable {hashSeed : Hasher.Ext4Hash} {unsignedHash : Bool} {rEntries blkSize : Nat}
  {dir dir' : HashedDir} {target : Bytes} {d d' : DirectoryBlock} {en : DxEntry}

theorem mem_recordsIn {ens : List DxEntry} {x : Bytes × Nat} : x ∈ dir.recordsIn ens ↔
    ∃ en ∈ ens, ∃ e ∈ dir.entriesOf en, toRecord e = x := by
  simp only [recordsIn, List.mem_flatMap, List.mem_map]

theorem entriesOf_eq (hd : dir.leafs en.block = some d) : dir.entriesOf en = d.liveEntries := by
  rw [entriesOf, hd]

/-- The leaf block of a slot is no root block. -/
theorem block_leaf (isVersion2 : Bool) (hd : dir.leafs en.block = some d) :
    dir.block isVersion2 en.block = some d := by
  rw [block, if_neg, hd]
  intro hzero
  rw [hzero, dir.root_block] at hd
  cases hd

theorem store_leafs_self {fba : Nat} (hd : dir.leafs fba = some d) (d' : DirectoryBlock) :
    (dir.store fba d').leafs fba = some d' := by
  simp only [HashedDir.store, reduceIte, hd, Option.map_some]

theorem store_leafs_of_ne {fba fba' : Nat} (hne : fba' ≠ fba) (d' : DirectoryBlock) :
    (dir.store fba d').leafs fba' = dir.leafs fba' := if_neg hne

/-- Another leaf block in the place of one, with entries of that one. -/
theorem Ok.store (h : dir.Ok blkSize) (hd : dir.leafs en.block = some d) (hleaf : IsLeaf blkSize d')
    (hsub : d'.liveEntries ⊆ d.liveEntries) : (dir.store en.block d').Ok blkSize := by
  have hat := store_leafs_self hd d'
  refine ⟨h.levels, h.count, h.fits, h.keys, h.blocks, fun en' hen' => ?_,
    fun i en' hen' e he => ?_⟩
  · by_cases hblock : en'.block = en.block
    · exact ⟨d', hblock ▸ hat, hleaf⟩
    · rw [store_leafs_of_ne hblock]
      exact h.leafs en' hen'
  · apply h.placed i en' hen'
    by_cases hblock : en'.block = en.block
    · rw [entriesOf, hblock, hat] at he
      rw [entriesOf, hblock, hd]
      exact hsub he
    · rw [entriesOf, store_leafs_of_ne hblock] at he
      exact he

/-- The records behind a change of one leaf block, around those of that block. -/
theorem records_store (h : dir.Ok blkSize) (hen : en ∈ dir.root.slots)
    (hd : dir.leafs en.block = some d) (d' : DirectoryBlock) :
    ∃ l r, dir.records = l ++ d.nameRecords ++ r ∧
      (dir.store en.block d').records = l ++ d'.nameRecords ++ r := by
  obtain ⟨l1, l2, hslots⟩ := List.append_of_mem hen
  have hblocks := h.blocks
  rw [hslots, List.map_append, List.map_cons, List.nodup_middle, List.nodup_cons] at hblocks
  have hsame : ∀ ens, (∀ en' ∈ ens, en'.block ≠ en.block) →
      (dir.store en.block d').recordsIn ens = dir.recordsIn ens := by
    intro ens hens
    refine List.flatMap_congr fun en' hen' => ?_
    rw [entriesOf, entriesOf, store_leafs_of_ne (hens en' hen')]
  have hne : ∀ en' ∈ l1 ++ l2, en'.block ≠ en.block := by
    intro en' hen' heq
    rw [← List.map_append] at hblocks
    exact hblocks.1 (heq ▸ List.mem_map_of_mem hen')
  have hone : ∀ dir' : HashedDir, ∀ x, dir'.leafs en.block = some x →
      dir'.recordsIn (l1 ++ en :: l2) =
        dir'.recordsIn l1 ++ x.nameRecords ++ dir'.recordsIn l2 := by
    intro dir' x hx
    rw [recordsIn, List.flatMap_append, List.flatMap_cons, entriesOf_eq hx, ← nameRecords_eq,
      List.append_assoc]
    rfl
  refine ⟨dotRecords dir.root.raw ++ dir.recordsIn l1, dir.recordsIn l2, ?_, ?_⟩
  · rw [records, hslots, hone dir d hd]
    simp only [List.append_assoc]
  · rw [records, store_root, hslots, hone _ d' (store_leafs_self hd d'),
      hsame l1 fun en' hen' => hne en' (List.mem_append_left _ hen'),
      hsame l2 fun en' hen' => hne en' (List.mem_append_right _ hen')]
    simp only [List.append_assoc]

/-! ## The root block -/

section

variable {raw' : Bytes}

/-- The slots are read behind the dot entries. -/
theorem slots_congr (hsame : ∀ hi, SameOn raw' dir.root.raw 0x18 hi) :
    DirDxRoot.slots { dir.root with raw := raw' } = dir.root.slots ∧
      DirDxRoot.climit { dir.root with raw := raw' } = dir.root.climit ∧
      DirDxRoot.indirectLevels { dir.root with raw := raw' } = dir.root.indirectLevels := by
  have hclimit : DirDxRoot.climit { dir.root with raw := raw' } = dir.root.climit := by
    unfold DirDxRoot.climit
    dsimp only
    rw [ByteRw.readU16_congr ((hsame _).mono (by omega) (Nat.le_refl _)),
      ByteRw.readU16_congr ((hsame _).mono (by omega) (Nat.le_refl _)),
      ByteRw.readU32_congr ((hsame _).mono (by omega) (Nat.le_refl _))]
  refine ⟨?_, hclimit, ByteRw.readU8_congr ((hsame _).mono (by omega) (Nat.le_refl _))⟩
  unfold DirDxRoot.slots
  rw [hclimit]
  refine List.map_congr_left fun i _ => ?_
  unfold DirDxRoot.slot
  rw [hclimit]
  split
  · rfl
  · dsimp only
    rw [ByteRw.readU32_congr ((hsame _).mono (by omega) (Nat.le_refl _)),
      ByteRw.readU32_congr ((hsame _).mono (by omega) (Nat.le_refl _))]

/-- Other dot entries in the root block. -/
theorem Ok.setDots (h : dir.Ok blkSize) (hlen : raw'.length = dir.root.raw.length)
    (hsame : ∀ hi, SameOn raw' dir.root.raw 0x18 hi) :
    HashedDir.Ok { dir with root := { dir.root with raw := raw' } } blkSize := by
  obtain ⟨hslots, hclimit, hlevels⟩ := slots_congr hsame
  refine ⟨hlevels.trans h.levels, ?_, ?_, ?_, ?_, ?_, ?_⟩
  · rw [hclimit]
    exact h.count
  · rw [hclimit]
    exact hlen ▸ h.fits
  · rw [hslots]
    exact h.keys
  · rw [hslots]
    exact h.blocks
  · rw [hslots]
    exact h.leafs
  · rw [hslots]
    exact h.placed

theorem records_setDots (hsame : ∀ hi, SameOn raw' dir.root.raw 0x18 hi) :
    HashedDir.records { dir with root := { dir.root with raw := raw' } } =
      dotRecords raw' ++ dir.recordsIn dir.root.slots := by
  unfold records
  rw [(slots_congr hsame).1]
  rfl

/-- The number in a dot entry is written. -/
theorem Whole.writeDot (h : dir.Whole hashSeed unsignedHash rEntries blkSize) {p : Nat}
    (hp : p = 0 ∨ p = 12) (ino : Nat) :
    HashedDir.Whole { dir with root := { dir.root with raw := ByteRw.writeU32 dir.root.raw p ino } }
      hashSeed unsignedHash rEntries blkSize := by
  have hsize : 24 ≤ dir.root.raw.length := by rcases h.dots.size with h | h | h <;> omega
  have hlen : (ByteRw.writeU32 dir.root.raw p ino).length = dir.root.raw.length :=
    ByteRw.length_writeU32 ..
  have hsame : ∀ hi, SameOn (ByteRw.writeU32 dir.root.raw p ino) dir.root.raw 0x18 hi :=
    fun hi => ByteRw.writeU32_sameOn (by omega)
  refine ⟨?_, ⟨?_, ?_, ?_⟩, h.ok.setDots hlen hsame, h.version, ?_⟩
  · exact fromRawBlock_congr h.opened hlen (ByteRw.writeU32_sameOn (by omega))
      (ByteRw.writeU32_sameOn (by omega))
  · dsimp only
    rw [hlen]
    exact h.dots.size
  · exact h.dots.dot.congr hlen
      (ByteRw.writeU32_sameOn (by simp only [List.length_singleton]; omega))
      (by simp only [List.length_singleton]; omega)
  · dsimp only
    rw [hlen]
    exact h.dots.dotdot.congr hlen (ByteRw.writeU32_sameOn (by omega))
      (show 12 + 8 + 2 ≤ dir.root.raw.length by omega)
  · dsimp only
    rw [(slots_congr hsame).2.1, hlen]
    exact h.inBlock

end

/-! ## Removals -/

/-- An index that does not open any more: `dotdot` has been removed, and `dot` reaches up to
    the end of the block. -/
def Broken (dir : HashedDir) : Prop := getEntryLen dir.root.raw 0 ≠ 12

/-- One record has been taken out. -/
def Drops (dir : HashedDir) (name : Bytes) (ino : Nat) (dir' : HashedDir) : Prop :=
  ∃ l r, dir'.records = l ++ r ∧ dir.records = l ++ (name, ino) :: r

variable {cursor : DirectoryBlockIteratorMutCursor}

/-- The removal of an entry of a leaf block. -/
theorem Whole.destroy_leaf (h : dir.Whole hashSeed unsignedHash rEntries blkSize)
    (hen : en ∈ dir.root.slots) (hd : dir.leafs en.block = some d)
    (hfind : d.findMutFrom {} target = .ok (some cursor)) :
    (dir.destroy true (en.block, cursor)).2.Whole hashSeed unsignedHash rEntries blkSize ∧
      dir.Drops target (dir.destroy true (en.block, cursor)).1
        (dir.destroy true (en.block, cursor)).2 := by
  obtain ⟨d1, hd1, hleaf⟩ := h.ok.leafs en hen
  obtain rfl : d = d1 := Option.some.inj (hd.symm.trans hd1)
  obtain ⟨p, e, rfl, hino, hrem⟩ := hleaf.wellFormed.findMut_some hfind
  have hblock : en.block ≠ 0 := by
    intro hzero
    rw [hzero, dir.root_block] at hd
    cases hd
  have hdes : dir.destroy true (en.block, cursor) =
      ((d.destroy cursor).1, dir.store en.block (d.destroy cursor).2) := by
    rw [destroy, if_neg hblock, hd]
  -- The entries left are entries of the block.
  have hsub : (d.destroy cursor).2.liveEntries ⊆ d.liveEntries := by
    obtain ⟨l, r, hl, hl'⟩ := hrem.live
    rw [DirectoryBlock.liveEntries, DirectoryBlock.liveEntries, hl, hl', List.map_append,
      List.map_append, List.map_cons]
    exact List.append_subset.mpr ⟨List.subset_append_left .., fun x hx =>
      List.mem_append_right _ (List.mem_cons_of_mem _ hx)⟩
  have hleaf' : IsLeaf blkSize (d.destroy cursor).2 :=
    ⟨hleaf.wellFormed.removed hrem, hrem.blkSize.trans hleaf.blkSize,
      fun e' he' => hleaf.names e' (hsub he')⟩
  rw [hdes]
  refine ⟨⟨h.opened, h.dots, h.ok.store hd hleaf' hsub, fun fba d' hd' => ?_, h.inBlock⟩, ?_⟩
  · by_cases hfba : fba = en.block
    · subst hfba
      rw [store_leafs_self hd] at hd'
      cases hd'
      exact hrem.version.trans (h.version _ d hd)
    · rw [store_leafs_of_ne hfba] at hd'
      exact h.version fba d' hd'
  · obtain ⟨l, r, hbefore, hafter⟩ := records_store h.ok hen hd (d.destroy cursor).2
    obtain ⟨l', r', hnew, hold⟩ := hrem.nameRecords
    refine ⟨l ++ l', r' ++ r, ?_, ?_⟩
    · rw [hafter, hnew]
      simp only [List.append_assoc]
    · rw [hbefore, hold, hino]
      simp only [List.append_assoc, List.cons_append]

/-- The removal of `dot`. -/
theorem Whole.destroy_dot (h : dir.Whole hashSeed unsignedHash rEntries blkSize)
    (hused : ByteRw.readU32 dir.root.raw 0 ≠ 0) :
    (dir.destroy true (0, { ppos := none, pos := 0 })).2.Whole hashSeed unsignedHash rEntries
        blkSize ∧
      dir.Drops [46] (dir.destroy true (0, { ppos := none, pos := 0 })).1
        (dir.destroy true (0, { ppos := none, pos := 0 })).2 := by
  have hsize : 24 ≤ dir.root.raw.length := by rcases h.dots.size with h | h | h <;> omega
  have hdot : ByteRw.readU32 (ByteRw.writeU32 dir.root.raw 0 0) 0x0 = 0 :=
    ByteRw.readU32_writeU32 (by omega)
  have hdotdot : ByteRw.readU32 (ByteRw.writeU32 dir.root.raw 0 0) 0xC =
      ByteRw.readU32 dir.root.raw 0xC := ByteRw.readU32_congr (ByteRw.writeU32_sameOn (by omega))
  have hafter : dotRecords (ByteRw.writeU32 dir.root.raw 0 0) =
      if ByteRw.readU32 dir.root.raw 0xC = 0 then []
      else [([46, 46], ByteRw.readU32 dir.root.raw 0xC)] := by
    rw [dotRecords_eq, hdot, hdotdot, if_pos rfl, List.nil_append]
  have hdes : dir.destroy true (0, { ppos := none, pos := 0 }) =
      (ByteRw.readU32 dir.root.raw 0,
        { dir with root := { dir.root with raw := ByteRw.writeU32 dir.root.raw 0 0 } }) := rfl
  rw [hdes]
  refine ⟨h.writeDot (Or.inl rfl) 0, [], _,
    records_setDots fun hi => ByteRw.writeU32_sameOn (by omega), ?_⟩
  rw [records, hafter, dotRecords_eq dir.root.raw, if_neg hused]
  rfl

/-- The removal of `dotdot`. -/
theorem Whole.destroy_dotdot (h : dir.Whole hashSeed unsignedHash rEntries blkSize)
    (hused : ByteRw.readU32 dir.root.raw 12 ≠ 0) :
    (dir.destroy true (0, { ppos := some 0, pos := 12 })).2.Broken ∧
      dir.Drops [46, 46] (dir.destroy true (0, { ppos := some 0, pos := 12 })).1
        (dir.destroy true (0, { ppos := some 0, pos := 12 })).2 := by
  have hsize : 24 ≤ dir.root.raw.length ∧ dir.root.raw.length < 2 ^ 16 := by
    rcases h.dots.size with h | h | h <;> omega
  -- The length of the record before goes up to the end of the block.
  have hlen0 : getEntryLen (setInode dir.root.raw 12 0) 0 = 12 :=
    Eq.trans (ByteRw.readU16_congr (ByteRw.writeU32_sameOn (by omega))) h.dots.dot.entryLen
  obtain ⟨raw', hraw⟩ : ∃ raw', raw' = setEntryLen (setInode dir.root.raw 12 0) 0
      (getEntryLen (setInode dir.root.raw 12 0) 0 + getEntryLen dir.root.raw 12) := ⟨_, rfl⟩
  have hdes : dir.destroy true (0, { ppos := some 0, pos := 12 }) =
      (ByteRw.readU32 dir.root.raw 12, { dir with root := { dir.root with raw := raw' } }) := by
    rw [hraw]
    rfl
  have hsame : ∀ {lo hi}, hi ≤ 4 ∨ 16 ≤ lo → SameOn raw' dir.root.raw lo hi := by
    intro lo hi hout
    rw [hraw]
    exact (ByteRw.writeU16_sameOn (by omega)).trans (ByteRw.writeU32_sameOn (by omega))
  have hdot : ByteRw.readU32 raw' 0x0 = ByteRw.readU32 dir.root.raw 0x0 :=
    ByteRw.readU32_congr (hsame (by omega))
  have hdotdot : ByteRw.readU32 raw' 0xC = 0 := by
    rw [hraw, setEntryLen, ByteRw.readU32_congr (ByteRw.writeU16_sameOn (by omega)), setInode,
      ByteRw.readU32_writeU32 (by omega), Nat.zero_mod]
  have hlen : getEntryLen raw' 0 = dir.root.raw.length := by
    rw [hraw, hlen0, h.dots.dotdot.entryLen, getEntryLen, setEntryLen,
      ByteRw.readU16_writeU16 (by rw [setInode, ByteRw.length_writeU32]; omega),
      Nat.mod_eq_of_lt (by omega)]
    omega
  rw [hdes]
  refine ⟨?_, ?_⟩
  · rw [Broken, hlen]
    omega
  · refine ⟨dotRecords raw', dir.recordsIn dir.root.slots,
      records_setDots fun hi => hsame (by omega), ?_⟩
    rw [records, dotRecords_eq dir.root.raw, dotRecords_eq raw', hdot, hdotdot, if_neg hused,
      if_pos rfl]
    simp only [List.append_nil, List.append_assoc, List.cons_append, List.nil_append]

/-- A name with a hash is in a slot that a lookup visits. -/
theorem Ok.mem_candidates (h : dir.Ok blkSize) (hen : en ∈ dir.root.slots) {e : DirEntry}
    (he : e ∈ dir.entriesOf en) {hash : Nat} (hhash : dir.root.hashOf e.name = .ok hash) :
    en ∈ dir.root.candidates hash := by
  obtain ⟨i, hi⟩ := List.mem_iff_getElem?.mp hen
  obtain ⟨hnext, hkey⟩ := h.placed i en hi e he hash hhash
  obtain ⟨l1, l2, hslots, rfl, hhead⟩ := Predecessor.exists_append_of_getElem? hi
  exact HTree.mem_candidates h.keys hslots (fun next hn => hnext next (hhead.trans hn)) hkey

/-- The search of some leaf blocks finds the name in one of them, or in none, or panics. -/
theorem Whole.findIn_cases (h : dir.Whole hashSeed unsignedHash rEntries blkSize) (target : Bytes)
    (noBlock : FsError) {ens : List DxEntry} (hens : ens ⊆ dir.root.slots) :
    dir.findIn true (fun d => d.findMutFrom {} target) noBlock ens = .error .panic ∨
      (dir.findIn true (fun d => d.findMutFrom {} target) noBlock ens = .ok none ∧
        ∀ en ∈ ens, ∀ e ∈ dir.entriesOf en, e.name ≠ target) ∨
      ∃ en d cursor, en ∈ dir.root.slots ∧ dir.leafs en.block = some d ∧
        d.findMutFrom {} target = .ok (some cursor) ∧
        dir.findIn true (fun d => d.findMutFrom {} target) noBlock ens =
          .ok (some (en.block, cursor)) := by
  -- On the slots left.
  induction ens with
  | nil => exact Or.inr (Or.inl ⟨rfl, fun en hen => absurd hen List.not_mem_nil⟩)
  | cons en ens ih =>
      have hmem := hens List.mem_cons_self
      obtain ⟨d, hd, hleaf⟩ := h.ok.leafs en hmem
      rw [findIn, block_leaf true hd]
      dsimp only
      cases hfind : d.findMutFrom {} target with
      | error e =>
          obtain rfl := hleaf.wellFormed.findMut_error hfind
          exact Or.inl rfl
      | ok o =>
          cases o with
          | some cursor => exact Or.inr (Or.inr ⟨en, d, cursor, hmem, hd, hfind, rfl⟩)
          | none =>
              have hnone := hleaf.wellFormed.findMut_none hfind
              refine (ih fun x hx => hens (List.mem_cons_of_mem _ hx)).imp_right
                (Or.imp_left fun hrest => ⟨hrest.1, fun en' hen' e he => ?_⟩)
              rcases List.mem_cons.mp hen' with rfl | hen'
              · rw [entriesOf_eq hd] at he
                obtain ⟨x, hx, rfl⟩ := List.mem_map.mp he
                exact hnone x hx
              · exact hrest.2 en' hen' e he

theorem findIn_root (dir : HashedDir) {o : Option DirectoryBlockIteratorMutCursor}
    (noBlock : FsError)
    (hfind : (rootBlock true dir.root.raw).findMutFrom {} target = .ok o) :
    dir.findIn true (fun d => d.findMutFrom {} target) noBlock [{ hash := 0, block := 0 }] =
      .ok (o.map (0, ·)) := by
  rw [findIn, block, if_pos rfl]
  dsimp only
  rw [hfind]
  cases o <;> rfl

/-- What the search of a removal does: it panics, there is no such name, or it finds one
    record, and `destroy` takes that out and no other. -/
theorem Whole.findMut_cases (h : dir.Whole hashSeed unsignedHash rEntries blkSize)
    (target : Bytes) :
    dir.findMutThen true target = .error .panic ∨
      (dir.findMutThen true target = .ok none ∧ ∀ ino, (target, ino) ∉ dir.records) ∨
      ∃ r, dir.findMutThen true target = .ok (some r) ∧
        ((dir.destroy true r).2.Whole hashSeed unsignedHash rEntries blkSize ∨
          (dir.destroy true r).2.Broken) ∧
        dir.Drops target (dir.destroy true r).1 (dir.destroy true r).2 := by
  have hsize : 24 ≤ dir.root.raw.length := by rcases h.dots.size with h | h | h <;> omega
  -- The dot names are in the root block.
  have hroot := h.dots.findMut target
  have hdots : (dir.findIn true (fun d => d.findMutFrom {} target) ErrFindMut
        (if isDot target then [{ hash := 0, block := 0 }] else []) = .ok none ∧
      ∀ ino, (target, ino) ∉ dotRecords dir.root.raw) ∨
      ∃ cursor, dir.findIn true (fun d => d.findMutFrom {} target) ErrFindMut
          (if isDot target then [{ hash := 0, block := 0 }] else []) = .ok (some (0, cursor)) ∧
        ((dir.destroy true (0, cursor)).2.Whole hashSeed unsignedHash rEntries blkSize ∨
          (dir.destroy true (0, cursor)).2.Broken) ∧
        dir.Drops target (dir.destroy true (0, cursor)).1 (dir.destroy true (0, cursor)).2 := by
    by_cases hdot : isDot target = true
    · rw [if_pos hdot]
      have hone := findIn_root dir ErrFindMut hroot
      by_cases h1 : [46] = target ∧ getInode dir.root.raw 0 ≠ 0
      · obtain ⟨rfl, hused⟩ := h1
        rw [if_pos ⟨rfl, hused⟩] at hone
        obtain ⟨hwhole, hdrops⟩ := h.destroy_dot hused
        exact Or.inr ⟨_, hone, Or.inl hwhole, hdrops⟩
      · rw [if_neg h1] at hone
        by_cases h2 : [46, 46] = target ∧ getInode dir.root.raw 12 ≠ 0
        · obtain ⟨rfl, hused⟩ := h2
          rw [if_pos ⟨rfl, hused⟩] at hone
          obtain ⟨hbroken, hdrops⟩ := h.destroy_dotdot hused
          exact Or.inr ⟨_, hone, Or.inr hbroken, hdrops⟩
        · rw [if_neg h2] at hone
          refine Or.inl ⟨hone, fun ino hmem => ?_⟩
          obtain ⟨hne, ⟨rfl, rfl⟩ | ⟨rfl, rfl⟩⟩ := mem_dotRecords.mp hmem
          · exact h1 ⟨rfl, hne⟩
          · exact h2 ⟨rfl, hne⟩
    · left
      rw [if_neg hdot]
      refine ⟨rfl, fun ino hmem => hdot ?_⟩
      obtain ⟨-, ⟨rfl, -⟩ | ⟨rfl, -⟩⟩ := mem_dotRecords.mp hmem <;> rfl
  unfold findMutThen findWith
  rcases hdots with ⟨hnone, habsent⟩ | ⟨cursor, hfound, hdes⟩
  · rw [hnone]
    dsimp only
    cases hhash : dir.root.hashOf target with
    | error e =>
        obtain rfl := Hasher.Ext4Hasher.hashOf_error hhash
        exact Or.inl rfl
    | ok hash =>
        obtain ⟨c, hfrom, hvisits⟩ := HTreeCursor.visits_fromHash h.ok.keys h.ok.levels hash
        dsimp only
        rw [hfrom]
        dsimp only
        rw [hvisits]
        rcases h.findIn_cases target ErrFindMut fun en hen => mem_slots_of_candidate hen with
          hpanic | ⟨hres, hno⟩ | ⟨en, d, cursor, hen, hd, hfind, hres⟩
        · exact Or.inl hpanic
        · refine Or.inr (Or.inl ⟨hres, fun ino hmem => ?_⟩)
          rcases List.mem_append.mp hmem with hdot | hleaf
          · exact habsent ino hdot
          · obtain ⟨en, hen, e, he, heq⟩ := mem_recordsIn.mp hleaf
            cases heq
            exact hno en (h.ok.mem_candidates hen he hhash) e he rfl
        · obtain ⟨hwhole, hdrops⟩ := h.destroy_leaf hen hd hfind
          exact Or.inr (Or.inr ⟨_, hres, Or.inl hwhole, hdrops⟩)
  · rw [hfound]
    exact Or.inr (Or.inr ⟨_, rfl, hdes⟩)

end HashedDir

end RustExt4.Directory.HTree
