/-
  RustExt4.Transaction.InodeTable

  `get_inode` (`transaction/event.rs`), by which a commit finds the record of an inode.  It
  computes the place by itself, and not as `Manager::get` does: the offset in the block is
  divided by the record size and multiplied again.  The two agree where records fill a
  block, and no two inodes share a byte.

  So a commit that changes the records by their numbers, as `Disk` has them, is one that
  changes them in the blocks of the inode tables.
-/
import Mathlib.Tactic.IntervalCases
import RustExt4.Inode.Manager
import RustExt4.Transaction.InodeOps

namespace RustExt4.Transaction

open Inode (Tables RecordRange addBlocks)
open Inode.Manager (locate)

variable {fs fs' : Tables} {len : Nat → Nat} {ino ino' : Nat}

/-- The place of a record, as `get_inode` computes it. -/
def getInodeRange (fs : Tables) (ino : Nat) : Except Fault RecordRange :=
  match InodeNumber.intoBgidIndex fs.sb ino with
  | none => .error .panic
  | some (blockGroup, indexInGrp) => do
    let byteOffsetInGroup := indexInGrp * fs.sb.inodeSize
    let inodeTableStart ← fs.getBlockGroup blockGroup
    let lba ← addBlocks inodeTableStart (byteOffsetInGroup / fs.blkSize.val)
    -- a division by zero
    if fs.sb.inodeSize = 0 then .error .panic
    else
      let offsetInBlock := byteOffsetInGroup % fs.blkSize.val / fs.sb.inodeSize
      return { lba := lba, start := offsetInBlock * fs.sb.inodeSize
               stop := offsetInBlock * fs.sb.inodeSize + fs.sb.inodeSize }

/-- `get_inode` -/
def getInode (fs : Tables) (ino : Nat) : Except Fault (Bytes × RecordRange) := do
  let range ← getInodeRange fs ino
  let blk ← fs.getBlock range.lba
  return (blk, range)

/-- The numbers of the inodes. -/
def HasInode (fs : Tables) (ino : Nat) : Prop :=
  1 ≤ ino ∧ ino ≤ fs.sb.bgCount * fs.sb.inodesPerGroup

instance (fs : Tables) (ino : Nat) : Decidable (HasInode fs ino) :=
  inferInstanceAs (Decidable (_ ∧ _))

/-- Each group's inode table has blocks of its own, `len g` of them, that hold the records of
    the group. -/
structure TablesApart (fs : Tables) (len : Nat → Nat) : Prop where
  room : ∀ g < fs.sb.bgCount, fs.sb.inodesPerGroup * fs.sb.inodeSize ≤ len g * fs.blkSize.val
  apart : ∀ g < fs.sb.bgCount, ∀ g' < fs.sb.bgCount, g ≠ g' → ∀ first first',
    fs.inodeTableFirstBlock g = some first → fs.inodeTableFirstBlock g' = some first' →
      Disjoint (Set.Ico first (first + len g)) (Set.Ico first' (first' + len g'))

/-- Every group can be loaded, and the blocks of its table have numbers of 64 bits. -/
def TablesLoaded (fs : Tables) (len : Nat → Nat) : Prop :=
  ∀ g < fs.sb.bgCount, ∃ first, fs.inodeTableFirstBlock g = some first ∧ first + len g ≤ 2 ^ 64

/-! ## The places -/

/-- Both paths find one place, and fail in the same way. -/
theorem getInodeRange_eq (h : fs.Whole) (ino : Nat) : getInodeRange fs ino = locate fs ino := by
  unfold getInodeRange locate
  have hpos := h.inodeSize_pos
  cases InodeNumber.intoBgidIndex fs.sb ino with
  | none => rfl
  | some x =>
      -- The division by the record size loses nothing.
      dsimp only
      rw [h.blkSize_eq, PackedSlots.mul_mod_block, PackedSlots.offset_div_mul hpos]
      simp only [if_neg (Nat.ne_of_gt hpos)]

/-- The number of an inode splits into a group and an index there. -/
theorem HasInode.intoBgidIndex (h : HasInode fs ino) :
    ∃ g i, InodeNumber.intoBgidIndex fs.sb ino = some (g, i) ∧ g < fs.sb.bgCount ∧
      i < fs.sb.inodesPerGroup := by
  obtain ⟨hpos, hle⟩ := h
  have hipg : 0 < fs.sb.inodesPerGroup := by
    refine Nat.pos_of_ne_zero fun h0 => ?_
    rw [h0, Nat.mul_zero] at hle
    omega
  refine ⟨_, _, InodeNumber.intoBgidIndex_eq_some.mpr ⟨hipg, hpos, rfl, rfl⟩, ?_, Nat.mod_lt _ hipg⟩
  exact Nat.div_lt_of_lt_mul (by rw [Nat.mul_comm]; omega)

namespace TablesApart

variable (ha : TablesApart fs len) (h : fs.Whole)
include ha h

/-- The records of a group lie in the blocks of its table. -/
theorem block_lt {g i : Nat} (hg : g < fs.sb.bgCount) (hi : i < fs.sb.inodesPerGroup) :
    i / fs.perBlock < len g := by
  have hroom := ha.room g hg
  rw [h.blkSize_eq] at hroom
  exact PackedSlots.block_lt h.inodeSize_pos hroom hi

/-- Every inode has a place. -/
theorem exists_range (hl : TablesLoaded fs len) (hino : HasInode fs ino) :
    ∃ r, locate fs ino = .ok r := by
  obtain ⟨g, i, hinto, hg, hi⟩ := hino.intoBgidIndex
  obtain ⟨first, hfirst, hend⟩ := hl g hg
  have hlt := ha.block_lt h hg hi
  exact ⟨_, h.locate_of_lt hinto hg hfirst (by omega)⟩

/-- Two inodes have no byte in common. -/
theorem disjoint {r r' : RecordRange} (hne : ino ≠ ino') (hr : locate fs ino = .ok r)
    (hr' : locate fs ino' = .ok r') : Disjoint r.bytes r'.bytes := by
  obtain ⟨g, i, first, hinto, hg, hfirst, rfl⟩ := h.locate_ok hr
  obtain ⟨g', i', first', hinto', hg', hfirst', rfl⟩ := h.locate_ok hr'
  rw [Tables.bytes_slot, Tables.bytes_slot]
  by_cases hgg : g = g'
  · -- In one table the indexes differ.
    subst hgg
    obtain rfl : first = first' := Option.some.inj (hfirst.symm.trans hfirst')
    refine PackedSlots.disjoint_bytes first fun hii => hne ?_
    subst hii
    exact InodeNumber.intoBgidIndex_inj hinto hinto'
  · exact PackedSlots.disjoint_bytes_of_apart (ha.apart g hg g' hg' hgg first first' hfirst hfirst')
      (ha.block_lt h hg (InodeNumber.intoBgidIndex_lt hinto))
      (ha.block_lt h hg' (InodeNumber.intoBgidIndex_lt hinto'))

end TablesApart

/-- A commit finds the record of an inode where the file system reads it, in one block, and
    with tables that keep apart no two inodes share a byte. -/
theorem inode_records_located (fs : Tables) (hdvd : fs.sb.inodeSize ∣ fs.blkSize.val) :
    (∀ ino, HasInode fs ino → getInodeRange fs ino = locate fs ino ∧
      ∀ r, getInodeRange fs ino = .ok r →
        r.stop = r.start + fs.sb.inodeSize ∧ r.stop ≤ fs.blkSize.val) ∧
    ∀ len, TablesApart fs len →
      (∀ ino ino', HasInode fs ino → HasInode fs ino' → ino ≠ ino' → ∀ r r',
        getInodeRange fs ino = .ok r → getInodeRange fs ino' = .ok r' →
          Disjoint r.bytes r'.bytes) ∧
      (TablesLoaded fs len → ∀ ino, HasInode fs ino → ∃ r, getInodeRange fs ino = .ok r) := by
  have h : fs.Whole := ⟨hdvd⟩
  have heq := getInodeRange_eq h
  refine ⟨fun ino _ => ⟨heq ino, fun r hr => ?_⟩, fun len ha => ⟨?_, ?_⟩⟩
  · rw [heq] at hr
    exact h.inside hr
  · intro ino ino' _ _ hne r r' hr hr'
    rw [heq] at hr hr'
    exact ha.disjoint h hne hr hr'
  · intro hl ino hino
    rw [heq]
    exact ha.exists_range h hl hino

/-- Two groups of 16 inodes of 256 bytes, whose tables are blocks 5 and 9. -/
def twoTables : Tables where
  blkSize := ⟨4096, BlockSize.largest_supported⟩
  sb :=
    { isDirEntryVersion2 := true
      inodeSize := 256
      inodesPerGroup := 16
      featuresIncompatible := 0
      featuresReadonly := 0
      firstDataBlock := 0
      blocksPerGroup := 32768
      creatorOs := 0
      revLevel := 1
      bgCount := 2
      wantExtraIsize := 0
      firstDataBlock_le := SuperBlock.zero_firstDataBlock_le
      blocksPerGroup_pos := SuperBlock.groupOf32768_pos
      blocksPerGroup_lt := SuperBlock.groupOf32768_lt
      bgCount_lt := SuperBlock.twoGroups_lt }
  uuid := []
  inodeTableFirstBlock := fun g => if g = 0 then some 5 else if g = 1 then some 9 else none
  blocks := fun _ => some (List.replicate 4096 0)

theorem tablesApart_twoTables : TablesApart twoTables fun _ => 1 where
  room _ _ := show 16 * 256 ≤ 1 * 4096 by decide
  apart g hg g' hg' hne first first' h h' := by
    have hlt : g < 2 := hg
    have hlt' : g' < 2 := hg'
    rw [Set.disjoint_left]
    rintro b ⟨hlo, hhi⟩ ⟨hlo', hhi'⟩
    interval_cases g <;> interval_cases g' <;> cases h <;> cases h' <;> omega

theorem tablesLoaded_twoTables : TablesLoaded twoTables fun _ => 1 := by
  intro g hg
  have hlt : g < 2 := hg
  interval_cases g
  · exact ⟨5, rfl, by decide⟩
  · exact ⟨9, rfl, by decide⟩

/-- The first inodes of the two groups. -/
theorem inode_records_located_twoTables :
    twoTables.sb.inodeSize ∣ twoTables.blkSize.val ∧
      getInodeRange twoTables 17 = locate twoTables 17 ∧
      ∃ r r', getInodeRange twoTables 1 = .ok r ∧ getInodeRange twoTables 17 = .ok r' ∧
        Disjoint r.bytes r'.bytes := by
  have hdvd : twoTables.sb.inodeSize ∣ twoTables.blkSize.val := ⟨16, rfl⟩
  have h1 : HasInode twoTables 1 := by decide
  have h17 : HasInode twoTables 17 := by decide
  obtain ⟨hplace, htables⟩ := inode_records_located twoTables hdvd
  obtain ⟨happart, hfound⟩ := htables _ tablesApart_twoTables
  obtain ⟨r, hr⟩ := hfound tablesLoaded_twoTables 1 h1
  obtain ⟨r', hr'⟩ := hfound tablesLoaded_twoTables 17 h17
  exact ⟨hdvd, (hplace 17 h17).1, r, r', hr, hr', happart 1 17 h1 h17 (by decide) r r' hr hr'⟩

/-! ## Records in their blocks -/

/-- The bytes of a record that `Manager::get` hands to `from_bytes`. -/
def readRecord (fs : Tables) (ino : Nat) : Except Fault Bytes := do
  let r ← locate fs ino
  let inodeArr ← fs.getBlock r.lba
  r.get inodeArr

/-- A change of a record by a commit: `get_inode`, and `f` on what the `Manipulator` of the
    range is over. -/
def updateRecord (fs : Tables) (ino : Nat) (f : Bytes → Except Fault Bytes) :
    Except Fault Tables := do
  let (guard, range) ← getInode fs ino
  let raw ← range.get guard
  let raw ← f raw
  return fs.setBlock range.lba (LeBytes.splice guard range.start raw)

theorem manager_get_eq (fs : Tables) (ino : Nat) (hint : Option FileType) :
    Inode.Manager.get fs ino hint = readRecord fs ino >>= fun raw =>
      (Inode.fromBytes fs.sb fs.uuid raw ino hint).mapError .err := by
  rw [Inode.Manager.get, readRecord, bind_assoc]
  simp only [bind_assoc]

/-- The blocks have the size of a block. -/
def BlocksSized (fs : Tables) : Prop :=
  ∀ lba b, fs.blocks lba = some b → b.length = fs.blkSize.val

/-- The records of a disk by their numbers, in the blocks of tables that keep apart. -/
structure HoldsRecords (fs : Tables) (len : Nat → Nat) (inodes : Nat → Option Bytes) : Prop where
  whole : fs.Whole
  apart : TablesApart fs len
  loaded : TablesLoaded fs len
  sized : BlocksSized fs
  records : ∀ ino, HasInode fs ino → readRecord fs ino =
    match inodes ino with
    | none => .error (.err .ioError)
    | some raw => .ok raw

section Places
variable {r r' : RecordRange} {b raw : Bytes}

/-- What is read at a place. -/
theorem readRecord_eq (h : fs.Whole) (hsized : BlocksSized fs) (hr : locate fs ino = .ok r) :
    readRecord fs ino =
      match fs.blocks r.lba with
      | none => .error (.err .ioError)
      | some b => .ok (LeBytes.slice b r.start fs.sb.inodeSize) := by
  obtain ⟨hstop, hle⟩ := h.inside hr
  rw [readRecord, hr]
  show (fs.getBlock r.lba >>= r.get) = _
  unfold Tables.getBlock
  cases hb : fs.blocks r.lba with
  | none => rfl
  | some b =>
      have hfit := hsized r.lba b hb
      show r.get b = _
      rw [RecordRange.get, if_neg (by omega), hstop, Nat.add_sub_cancel_left]

/-- A commit changes what is read there, and fails where it cannot be read. -/
theorem updateRecord_eq (h : fs.Whole) (hsized : BlocksSized fs) (hr : locate fs ino = .ok r)
    (f : Bytes → Except Fault Bytes) :
    updateRecord fs ino f =
      match fs.blocks r.lba with
      | none => .error (.err .ioError)
      | some b => f (LeBytes.slice b r.start fs.sb.inodeSize) >>= fun raw =>
          .ok (fs.setBlock r.lba (LeBytes.splice b r.start raw)) := by
  obtain ⟨hstop, hle⟩ := h.inside hr
  rw [updateRecord, getInode, getInodeRange_eq h, hr]
  show ((fs.getBlock r.lba >>= fun blk => pure (blk, r)) >>= _) = _
  unfold Tables.getBlock
  cases hb : fs.blocks r.lba with
  | none => rfl
  | some b =>
      have hfit := hsized r.lba b hb
      show (r.get b >>= _) = _
      rw [RecordRange.get, if_neg (by omega), hstop, Nat.add_sub_cancel_left]
      rfl

theorem BlocksSized.setBlock (hsized : BlocksSized fs) (lba : Nat)
    (hb : b.length = fs.blkSize.val) : BlocksSized (fs.setBlock lba b) := by
  intro lba' b' hb'
  rw [Tables.blocks_setBlock, Function.update_apply] at hb'
  split at hb'
  · exact Option.some.inj hb' ▸ hb
  · exact hsized lba' b' hb'

/-- The record that was written is read. -/
theorem readRecord_setBlock_self (h : fs.Whole) (hsized : BlocksSized fs)
    (hr : locate fs ino = .ok r) (hb : fs.blocks r.lba = some b)
    (hraw : raw.length = fs.sb.inodeSize) :
    readRecord (fs.setBlock r.lba (LeBytes.splice b r.start raw)) ino = .ok raw := by
  obtain ⟨hstop, hle⟩ := h.inside hr
  have hfit : r.start + raw.length ≤ b.length := by rw [hsized _ _ hb]; omega
  have hlen := (LeBytes.length_splice hfit).trans (hsized _ _ hb)
  rw [readRecord_eq (h.setBlock r.lba _) (hsized.setBlock r.lba hlen) hr, Tables.blocks_setBlock,
    Function.update_self]
  show Except.ok (LeBytes.slice _ r.start fs.sb.inodeSize) = _
  rw [← hraw, LeBytes.slice_splice_self hfit]

/-- Ranges of one block that share no byte lie one behind the other. -/
theorem apart_of_disjoint (hd : Disjoint r.bytes r'.bytes) (hlba : r.lba = r'.lba)
    (hne : r.start < r.stop) (hne' : r'.start < r'.stop) :
    r.stop ≤ r'.start ∨ r'.stop ≤ r.start := by
  by_contra hover
  rw [Set.disjoint_left] at hd
  refine hd (a := (r.lba, max r.start r'.start)) ⟨rfl, ?_, ?_⟩ ⟨hlba, ?_, ?_⟩
  all_goals
    dsimp only
    omega

/-- A record that has no byte of the place is read as before. -/
theorem readRecord_setBlock_other (h : fs.Whole) (hsized : BlocksSized fs)
    (hr : locate fs ino = .ok r) (hr' : locate fs ino' = .ok r')
    (hd : Disjoint r.bytes r'.bytes) (hb : fs.blocks r.lba = some b)
    (hraw : raw.length = fs.sb.inodeSize) :
    readRecord (fs.setBlock r.lba (LeBytes.splice b r.start raw)) ino' = readRecord fs ino' := by
  obtain ⟨hstop, hle⟩ := h.inside hr
  obtain ⟨hstop', hle'⟩ := h.inside hr'
  have hpos := h.inodeSize_pos
  have hblen := hsized _ _ hb
  have hfit : r.start + raw.length ≤ b.length := by omega
  have hlen := LeBytes.length_splice hfit
  rw [readRecord_eq (h.setBlock r.lba _) (hsized.setBlock r.lba (hlen.trans hblen)) hr',
    readRecord_eq h hsized hr', Tables.blocks_setBlock]
  by_cases hlba : r'.lba = r.lba
  · -- The two lie in one block, one behind the other.
    have happ := apart_of_disjoint hd hlba.symm (by omega) (by omega)
    have hsame : LeBytes.SameOn (LeBytes.splice b r.start raw) b r'.start
        (r'.start + fs.sb.inodeSize) := LeBytes.splice_sameOn hfit (by omega)
    rw [hlba, Function.update_self, hb]
    show Except.ok (LeBytes.slice _ r'.start fs.sb.inodeSize) = _
    rw [LeBytes.slice_congr hsame (by omega) (by omega)]
  · rw [Function.update_of_ne hlba]
    rfl

end Places

namespace HoldsRecords

variable {inodes : Nat → Option Bytes} {raw raw' : Bytes}

/-- Tables that keep apart hold the records that are read from them. -/
theorem of_tables (h : fs.Whole) (ha : TablesApart fs len) (hl : TablesLoaded fs len)
    (hsized : BlocksSized fs) : HoldsRecords fs len fun ino => (readRecord fs ino).toOption where
  whole := h
  apart := ha
  loaded := hl
  sized := hsized
  records ino hino := by
    obtain ⟨r, hr⟩ := ha.exists_range h hl hino
    rw [readRecord_eq h hsized hr]
    cases fs.blocks r.lba <;> rfl

/-- Where the record of an inode lies, and what is there. -/
theorem place (hh : HoldsRecords fs len inodes) (hino : HasInode fs ino) :
    ∃ r, locate fs ino = .ok r ∧
      inodes ino = (fs.blocks r.lba).map fun b => LeBytes.slice b r.start fs.sb.inodeSize := by
  obtain ⟨r, hr⟩ := hh.apart.exists_range hh.whole hh.loaded hino
  refine ⟨r, hr, ?_⟩
  have hread := hh.records ino hino
  rw [readRecord_eq hh.whole hh.sized hr] at hread
  cases hb : fs.blocks r.lba with
  | none =>
      rw [hb] at hread
      cases hi : inodes ino with
      | none => rfl
      | some raw =>
          rw [hi] at hread
          cases hread
  | some b =>
      rw [hb] at hread
      cases hi : inodes ino with
      | none =>
          rw [hi] at hread
          cases hread
      | some raw =>
          rw [hi] at hread
          exact congrArg some (Except.ok.inj hread).symm

/-- A record that can be read is changed in its block, and no other record is. -/
theorem update (hh : HoldsRecords fs len inodes) (hino : HasInode fs ino)
    {f : Bytes → Except Fault Bytes} (hraw : inodes ino = some raw) (hf : f raw = .ok raw')
    (hlen : raw'.length = raw.length) :
    ∃ fs', updateRecord fs ino f = .ok fs' ∧ fs'.sb = fs.sb ∧
      HoldsRecords fs' len (Function.update inodes ino (some raw')) := by
  obtain ⟨r, hr, hplace⟩ := hh.place hino
  rw [hraw] at hplace
  obtain ⟨b, hb, rfl⟩ := Option.map_eq_some_iff.mp hplace.symm
  obtain ⟨hstop, hle⟩ := hh.whole.inside hr
  have hblen := hh.sized _ _ hb
  rw [LeBytes.length_slice (by omega)] at hlen
  have hsplice := LeBytes.length_splice (show r.start + raw'.length ≤ b.length by omega)
  refine ⟨fs.setBlock r.lba (LeBytes.splice b r.start raw'), ?_, rfl, hh.whole.setBlock _ _,
    ⟨hh.apart.room, hh.apart.apart⟩, hh.loaded, hh.sized.setBlock _ (hsplice.trans hblen), ?_⟩
  · rw [updateRecord_eq hh.whole hh.sized hr, hb]
    dsimp only
    rw [hf]
    rfl
  · intro ino' hino'
    by_cases heq : ino' = ino
    · subst heq
      rw [Function.update_self]
      exact readRecord_setBlock_self hh.whole hh.sized hr hb hlen
    · have hino0 : HasInode fs ino' := hino'
      obtain ⟨r', hr', -⟩ := hh.place hino0
      rw [Function.update_of_ne heq, readRecord_setBlock_other hh.whole hh.sized hr hr'
        (hh.apart.disjoint hh.whole (Ne.symm heq) hr hr') hb hlen]
      exact hh.records ino' hino0

/-- A commit's change of a record by number is its change of the block. -/
theorem updateInode {d : Disk} {f : Bytes → Except Fault Bytes}
    (hh : HoldsRecords fs len d.inodes) (hino : HasInode fs ino)
    (hf : ∀ raw raw', d.inodes ino = some raw → f raw = .ok raw' → raw'.length = raw.length) :
    match d.updateInode ino f with
    | .error e => updateRecord fs ino f = .error e
    | .ok d' => ∃ fs', updateRecord fs ino f = .ok fs' ∧ fs'.sb = fs.sb ∧
        HoldsRecords fs' len d'.inodes := by
  obtain ⟨r, hr, hplace⟩ := hh.place hino
  unfold Disk.updateInode
  cases hraw : d.inodes ino with
  | none =>
      rw [hraw] at hplace
      dsimp only
      rw [updateRecord_eq hh.whole hh.sized hr, Option.map_eq_none_iff.mp hplace.symm]
  | some raw =>
      dsimp only
      cases hfraw : f raw with
      | error e =>
          rw [hraw] at hplace
          obtain ⟨b, hb, rfl⟩ := Option.map_eq_some_iff.mp hplace.symm
          dsimp only
          rw [updateRecord_eq hh.whole hh.sized hr, hb]
          dsimp only
          rw [hfraw]
          rfl
      | ok raw' => exact hh.update hino hraw hfraw (hf raw raw' hraw hfraw)

end HoldsRecords

/-! ## A commit -/

/-- One record is changed in its block. -/
def RecordStep (fs fs' : Tables) : Prop := ∃ ino f, updateRecord fs ino f = .ok fs'

/-- An operation of a commit changes the blocks as it changes the records by their numbers. -/
theorem submitInodeOps_holds {sb : DescriptorSb} {d d' : Disk} {op : InodeOps}
    (hh : HoldsRecords fs len d.inodes) (hrec : d.HasRecords) (hwf : op.WF)
    (htarget : ∀ ino, op.target = some ino → HasInode fs ino)
    (h : submitInodeOps sb d op = .ok d') :
    ∃ fs', Relation.ReflGen RecordStep fs fs' ∧ fs'.sb = fs.sb ∧
      HoldsRecords fs' len d'.inodes ∧ d'.HasRecords := by
  rcases submitInodeOps_cases h with ⟨-, hd'⟩ | ⟨ino, raw, raw', ht, hraw, hon, hd'⟩
  · refine ⟨fs, .refl, rfl, ?_, ?_⟩
    · rwa [hd']
    · rwa [Disk.HasRecords, hd']
  · have hlen := hon.length_eq (hrec ino raw hraw) hwf
    obtain ⟨fs', hupdate, hsb, hh'⟩ :=
      hh.update (htarget ino ht) (f := fun _ => .ok raw') hraw rfl hlen
    refine ⟨fs', .single ⟨ino, _, hupdate⟩, hsb, by rwa [hd'], fun i x hx => ?_⟩
    rw [hd', Function.update_apply] at hx
    split at hx
    · exact Option.some.inj hx ▸ hon.isRecord (hrec ino raw hraw)
    · exact hrec i x hx

/-- The same for all operations of a commit: what the commit makes of the records is then in
    the blocks that `Manager::get` reads. -/
theorem submitAllInodeOps_holds {sb : DescriptorSb} {ops : List InodeOps} {d d' : Disk}
    (hh : HoldsRecords fs len d.inodes) (hrec : d.HasRecords) (hwf : ∀ op ∈ ops, op.WF)
    (htarget : ∀ op ∈ ops, ∀ ino, op.target = some ino → HasInode fs ino)
    (h : submitAllInodeOps sb ops d = .ok d') :
    ∃ fs', Relation.ReflTransGen RecordStep fs fs' ∧ fs'.sb = fs.sb ∧
      HoldsRecords fs' len d'.inodes := by
  induction ops generalizing d fs with
  | nil =>
      cases h
      exact ⟨fs, .refl, rfl, hh⟩
  | cons op ops ih =>
      obtain ⟨hop, hops⟩ := List.forall_mem_cons.mp hwf
      obtain ⟨ht, hts⟩ := List.forall_mem_cons.mp htarget
      unfold submitAllInodeOps at h
      split at h
      · cases h
      next d1 hstep =>
        obtain ⟨fs1, hone, hsb1, hh1, hrec1⟩ := submitInodeOps_holds hh hrec hop ht hstep
        have hts1 : ∀ op ∈ ops, ∀ ino, op.target = some ino → HasInode fs1 ino := by
          unfold HasInode
          rw [hsb1]
          exact hts
        obtain ⟨fs', hrest, hsb, hh'⟩ := ih hh1 hrec1 hops hts1 h
        exact ⟨fs', hone.to_reflTransGen.trans hrest, hsb.trans hsb1, hh'⟩

/-- `Manager::get` of an inode decodes its record. -/
theorem HoldsRecords.manager_get {inodes : Nat → Option Bytes} {raw : Bytes}
    (hh : HoldsRecords fs len inodes) (hino : HasInode fs ino) (hraw : inodes ino = some raw)
    (hint : Option FileType) :
    Inode.Manager.get fs ino hint =
      (Inode.fromBytes fs.sb fs.uuid raw ino hint).mapError .err := by
  rw [manager_get_eq, hh.records ino hino, hraw]
  rfl

end RustExt4.Transaction
