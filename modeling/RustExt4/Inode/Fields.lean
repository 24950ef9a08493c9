/-
  RustExt4.Inode.Fields

  The fields of an inode record that a commit writes and `Inode::from_bytes` reads, as
  one value.  The setters of `inode/raw.rs` write windows of one packed record, some of
  them in two parts, and the block map in two layouts.  Each setter changes its own field
  of the value and no other.
-/
import RustExt4.Crc
import RustExt4.Inode.Links

namespace RustExt4.Inode

open LeBytes (DiffersIn SameOn)

/-! ## `Inode::from_bytes` -/

/-- The bits that `InodeFlag` knows. -/
def inodeFlagBits : Nat := 0x806FFFFF

/-- The bits that `InodeMode` knows. -/
def inodeModeBits : Nat := 0o7777

/-- `Ext4FeatureReadOnly::METADATA_CSUM` -/
def featureMetadataCsum : Nat := 0x0400

namespace Manipulator

/-- `mode(fs).get`, with a high part on file systems of the Hurd -/
def getMode (sb : SuperBlock) (raw : Bytes) : Nat :=
  (if sb.creatorOs = 1 then ByteRw.readU16 raw 0x76 else 0) * 2 ^ 16 + ByteRw.readU16 raw 0x0

/-- `size(fs).get` -/
def getSize (sb : SuperBlock) (raw : Bytes) : Nat :=
  getCompoundU64 raw 0x4 0x6C (decide (0 < sb.revLevel) && detectType raw == .regularFile)

def generation (raw : Bytes) : Nat := ByteRw.readU32 raw 0x64

end Manipulator

/-- `checksum().get`, with a high part where the record is large enough. -/
def Manipulator.checksum (raw : Bytes) : Nat :=
  (if 0x80 < raw.length then ByteRw.readU16 raw 0x82 else 0) * 2 ^ 16 + ByteRw.readU16 raw 0x7C

/-- `calculate_checksum`: the record with its two checksum halves as zeros, behind the UUID of
    the file system, the number of the inode and its generation.  The machine is
    little-endian. -/
def Manipulator.calculateChecksum (sb : SuperBlock) (uuid raw : Bytes) (ino : Nat) : Option Nat :=
  if containsFlag sb.featuresReadonly featureMetadataCsum then
    let hash := Crc32c.write Crc32c.default uuid
    let hash := Crc32c.write hash (LeBytes.leBytes 4 ino)
    let hash := Crc32c.write hash (LeBytes.leBytes 4 (Manipulator.generation raw))
    let hash := Crc32c.write hash (raw.take 0x7C)
    let hash := Crc32c.write hash (LeBytes.leBytes 2 0)
    let hash := Crc32c.write hash (LeBytes.slice raw 0x7E 4)
    let hash := Crc32c.write hash (LeBytes.leBytes 2 0)
    some (Crc32c.write hash (raw.drop 0x84))
  else none

/-- `Inode`, with the data under its lock. -/
structure Loaded where
  ino : Nat
  ftype : FileType
  flags : Nat
  generation : Nat
  size : Nat
  linksCount : Nat
  mode : Nat
  addresses : RawInodeAddressingMode
  deriving DecidableEq, Repr

/-- `Inode::from_bytes` -/
def fromBytes (sb : SuperBlock) (uuid raw : Bytes) (ino : Nat) (type_ : Option FileType) :
    Except FsError Loaded :=
  if (Manipulator.calculateChecksum sb uuid raw ino).all (· == Manipulator.checksum raw) then
    if type_.all (· == Manipulator.detectType raw) then
      .ok
        { ino := ino
          ftype := Manipulator.detectType raw
          flags := Manipulator.flags raw &&& inodeFlagBits
          generation := Manipulator.generation raw
          size := Manipulator.getSize sb raw
          linksCount := Manipulator.linksCount raw
          mode := Manipulator.getMode sb raw &&& inodeModeBits
          addresses := Manipulator.getAddressingMode sb raw }
    else .error (.invalidFs "Directory entry is corrupted (FileType is differ).")
  else .error (.invalidFs "Failed to verify inode checksum.")

/-! ## The record as a value -/

/-- The fields of a record.  `fixed` are those that no operation of a commit on an existing
    inode writes: the type and mode, the flags, and the generation. -/
@[ext]
structure Fields where
  fixed : Nat × Nat × Nat
  linksCount : Nat
  size : Nat
  blocks : Nat
  addresses : RawInodeAddressingMode

def fieldsOf (sb : SuperBlock) (raw : Bytes) : Fields where
  fixed := (ByteRw.readU16 raw 0, Manipulator.flags raw, Manipulator.generation raw)
  linksCount := Manipulator.linksCount raw
  size := Manipulator.getSize sb raw
  blocks := Manipulator.getBlocks sb raw
  addresses := Manipulator.getAddressingMode sb raw

/-- A block map with the sizes of its types: 15 words, or three counts and 48 bytes. -/
def RawInodeAddressingMode.WF : RawInodeAddressingMode → Prop
  | .legacy addresses => addresses.length = 15 ∧ ∀ v ∈ addresses, v < 2 ^ 32
  | .extent entriesCnt maxEntriesCnt depth b =>
    entriesCnt < 2 ^ 16 ∧ maxEntriesCnt < 2 ^ 16 ∧ depth < 2 ^ 16 ∧ b.length = 48

/-! ## Two-part fields -/

section Compound
variable {raw raw' : Bytes} {lo hi v : Nat} {useHi : Bool}

theorem setCompoundU64_differsIn (h : setCompoundU64 raw lo hi useHi v = some raw') :
    DiffersIn [(lo, lo + 4), (hi, hi + 4)] raw raw' := by
  have hlow : ∀ (b : Bytes) (x : Nat),
      DiffersIn [(lo, lo + 4), (hi, hi + 4)] b (ByteRw.writeU32 b lo x) := fun b x =>
    (DiffersIn.writeLe 4 x).mono (by simp)
  have hhigh : ∀ (b : Bytes) (x : Nat),
      DiffersIn [(lo, lo + 4), (hi, hi + 4)] b (ByteRw.writeU32 b hi x) := fun b x =>
    (DiffersIn.writeLe 4 x).mono (by simp)
  unfold setCompoundU64 at h
  split at h
  · obtain rfl := Option.some.inj h
    exact (hhigh _ _).trans (hlow _ _)
  · split at h
    · obtain rfl := Option.some.inj h
      exact hlow _ _
    · cases h

/-- The value is read back; without a high part it has to fit the low one. -/
theorem getCompoundU64_set (h : setCompoundU64 raw lo hi useHi v = some raw') (hv : v < 2 ^ 64)
    (hlo : lo + 4 ≤ hi) (hlen : hi + 4 ≤ raw.length) : getCompoundU64 raw' lo hi useHi = v := by
  unfold setCompoundU64 at h
  split at h
  next huse =>
    obtain rfl := Option.some.inj h
    rw [getCompoundU64, huse, if_pos rfl, ByteRw.readU32_writeU32_ne (by omega),
      ByteRw.readU32_writeU32 (by omega),
      ByteRw.readU32_writeU32 (by rw [ByteRw.length_writeU32]; omega)]
    simp only [splitU64, mergeU32]
    omega
  next huse =>
    split at h
    next hhigh =>
      obtain rfl := Option.some.inj h
      rw [getCompoundU64, if_neg huse, ByteRw.readU32_writeU32 (by omega)]
      simp only [splitU64, mergeU32] at hhigh ⊢
      omega
    next => cases h

theorem getCompoundU64_congr (hlo : SameOn raw' raw lo (lo + 4))
    (hhi : SameOn raw' raw hi (hi + 4)) :
    getCompoundU64 raw' lo hi useHi = getCompoundU64 raw lo hi useHi := by
  rw [getCompoundU64, getCompoundU64, ByteRw.readU32_congr hlo, ByteRw.readU32_congr hhi]

end Compound

/-! ## The block map -/

section Addresses
variable {sb : SuperBlock} {raw raw' : Bytes}

theorem writeWords_differsIn (p : Nat) (vs : List Nat) :
    DiffersIn [(p, p + 4 * vs.length)] raw (Manipulator.writeWords raw p vs) := by
  induction vs generalizing raw p with
  | nil => exact .refl _ raw
  | cons v vs ih =>
      have hone : DiffersIn [(p, p + 4)] raw (ByteRw.writeU32 raw p v) := .writeLe 4 v
      refine ⟨(ih (p + 4)).length.trans hone.length, fun q hq => ?_⟩
      have hq := hq _ List.mem_cons_self
      rw [List.length_cons] at hq
      rw [Manipulator.writeWords, (ih (p + 4)).same q (by simp; omega),
        hone.same q (by simp; omega)]

theorem readU32_writeWords (vs : List Nat) (hvs : ∀ v ∈ vs, v < 2 ^ 32) (p : Nat)
    (hlen : p + 4 * vs.length ≤ raw.length) :
    (List.range vs.length).map
      (fun i => ByteRw.readU32 (Manipulator.writeWords raw p vs) (p + 4 * i)) = vs := by
  induction vs generalizing raw p with
  | nil => rfl
  | cons v vs ih =>
      rw [List.length_cons] at hlen
      have hhead : ByteRw.readU32 (Manipulator.writeWords raw p (v :: vs)) p = v := by
        have hsame : SameOn (Manipulator.writeWords (ByteRw.writeU32 raw p v) (p + 4) vs)
            (ByteRw.writeU32 raw p v) p (p + 4) :=
          (writeWords_differsIn (p + 4) vs).sameOn (by simp)
        rw [Manipulator.writeWords, ByteRw.readU32_congr hsame,
          ByteRw.readU32_writeU32 (by omega), Nat.mod_eq_of_lt (hvs v List.mem_cons_self)]
      have htail := @ih (ByteRw.writeU32 raw p v)
        (fun w hw => hvs w (List.mem_cons_of_mem _ hw)) (p + 4)
        (by rw [ByteRw.length_writeU32]; omega)
      rw [List.length_cons, List.range_succ_eq_map, List.map_cons, List.map_map, Nat.mul_zero,
        Nat.add_zero, hhead]
      refine congrArg (v :: ·) (Eq.trans (List.map_congr_left fun i _ => ?_) htail)
      simp only [Function.comp_apply, Manipulator.writeWords, Nat.mul_succ]
      congr 1
      omega

theorem setAddresses_differsIn {mode : RawInodeAddressingMode} (hwf : mode.WF)
    (hraw : IsRecord raw) (h : Manipulator.setAddresses sb raw mode = some raw') :
    DiffersIn [(0x28, 0x64)] raw raw' := by
  unfold IsRecord at hraw
  have hwrite : ∀ (b : Bytes) (p v : Nat), 0x28 ≤ p → p + 2 ≤ 0x64 →
      DiffersIn [(0x28, 0x64)] b (ByteRw.writeU16 b p v) := fun b p v h1 h2 =>
    ⟨ByteRw.length_writeU16 .., fun q hq =>
      LeBytes.writeLe_getD (by have := hq _ List.mem_cons_self; omega)⟩
  unfold Manipulator.setAddresses at h
  dsimp only at h
  split at h
  · cases h
  · split at h
    next entriesCnt maxEntriesCnt depth b _ =>
      obtain rfl := Option.some.inj h
      obtain ⟨-, -, -, hb⟩ := hwf
      have hheader := ((((hwrite raw 0x28 0xF30A (by decide) (by decide)).trans
        (hwrite _ 0x2a entriesCnt (by decide) (by decide))).trans
        (hwrite _ 0x2c maxEntriesCnt (by decide) (by decide))).trans
        (hwrite _ 0x2e depth (by decide) (by decide))).trans
        (hwrite _ 0x30 0 (by decide) (by decide))
      refine hheader.trans ⟨LeBytes.length_splice ?_, fun q hq => LeBytes.splice_getD ?_ ?_⟩
      · rw [hheader.length, hb]
        omega
      · rw [hheader.length, hb]
        omega
      · have := hq _ List.mem_cons_self
        omega
    next addresses _ =>
      obtain rfl := Option.some.inj h
      have hwords := @writeWords_differsIn raw 0x28 addresses
      rwa [hwf.1] at hwords
    next => cases h

/-- The block map is read back in the layout that the flags of the record name. -/
theorem getAddressingMode_setAddresses {mode : RawInodeAddressingMode} (hwf : mode.WF)
    (hraw : IsRecord raw) (h : Manipulator.setAddresses sb raw mode = some raw') :
    Manipulator.getAddressingMode sb raw' = mode := by
  have hdiff := setAddresses_differsIn hwf hraw h
  have hflags : Manipulator.flags raw' = Manipulator.flags raw :=
    ByteRw.readU32_congr (hdiff.sameOn (by decide))
  unfold IsRecord at hraw
  unfold Manipulator.setAddresses at h
  dsimp only at h
  rw [Manipulator.getAddressingMode, hflags]
  split at h
  · cases h
  next hassert =>
    split at h
    next entriesCnt maxEntriesCnt depth b hext =>
      -- An extent root.
      obtain rfl := Option.some.inj h
      obtain ⟨h1, h2, h3, hb⟩ := hwf
      have hfeature : containsFlag sb.featuresIncompatible featureExtents = true := by
        rw [hext] at hassert
        simpa using hassert
      rw [hfeature, hext, Bool.true_and, if_pos rfl]
      generalize hheader : ByteRw.writeU16 (ByteRw.writeU16 (ByteRw.writeU16 (ByteRw.writeU16
        (ByteRw.writeU16 raw 0x28 0xF30A) 0x2a entriesCnt) 0x2c maxEntriesCnt) 0x2e depth)
        0x30 0 = r
      have hlen : r.length = raw.length := by rw [← hheader]; simp
      have hfit : 0x34 + b.length ≤ r.length := by omega
      have hslice : LeBytes.slice (LeBytes.splice r 0x34 b) 0x34 48 = b :=
        hb ▸ LeBytes.slice_splice_self hfit
      have hread : ∀ p, p + 2 ≤ 0x34 →
          ByteRw.readU16 (LeBytes.splice r 0x34 b) p = ByteRw.readU16 r p := fun p hp =>
        ByteRw.readU16_congr (LeBytes.splice_sameOn hfit (Or.inl hp))
      rw [hslice, hread _ (by decide), hread _ (by decide), hread _ (by decide), ← hheader]
      simp (disch := first | omega | simp; omega) only [ByteRw.readU16_writeU16_ne,
        ByteRw.readU16_writeU16]
      rw [Nat.mod_eq_of_lt h1, Nat.mod_eq_of_lt h2, Nat.mod_eq_of_lt h3]
    next addresses hext =>
      -- Fifteen words.
      obtain rfl := Option.some.inj h
      obtain ⟨hlen, hlt⟩ := hwf
      rw [hext, Bool.and_false, if_neg Bool.false_ne_true]
      have hwords := @readU32_writeWords raw addresses hlt 0x28 (by omega)
      rw [hlen] at hwords
      rw [hwords]
    next => cases h

end Addresses

/-! ## Each setter and its field -/

/-- No window reaches into `lo..hi`. -/
abbrev Clear (ws : List (Nat × Nat)) (lo hi : Nat) : Prop := ∀ w ∈ ws, hi ≤ w.1 ∨ w.2 ≤ lo

section Setters
variable {sb : SuperBlock} {raw raw' : Bytes} {ws : List (Nat × Nat)}

theorem detectType_congr (h : DiffersIn ws raw raw') (hw : Clear ws 0 2) :
    Manipulator.detectType raw' = Manipulator.detectType raw := by
  unfold Manipulator.detectType
  rw [ByteRw.readU16_congr (h.sameOn hw)]

theorem fixed_congr (h : DiffersIn ws raw raw') (hw : Clear ws 0 2) (hw' : Clear ws 0x20 0x24)
    (hw'' : Clear ws 0x64 0x68) : (fieldsOf sb raw').fixed = (fieldsOf sb raw).fixed := by
  simp only [fieldsOf, Manipulator.flags, Manipulator.generation,
    ByteRw.readU16_congr (h.sameOn hw), ByteRw.readU32_congr (h.sameOn hw'),
    ByteRw.readU32_congr (h.sameOn hw'')]

theorem linksCount_congr (h : DiffersIn ws raw raw') (hw : Clear ws 0x1A 0x1C) :
    Manipulator.linksCount raw' = Manipulator.linksCount raw := ByteRw.readU16_congr (h.sameOn hw)

theorem getSize_congr (h : DiffersIn ws raw raw') (hw : Clear ws 0 2) (hw' : Clear ws 0x4 0x8)
    (hw'' : Clear ws 0x6C 0x70) : Manipulator.getSize sb raw' = Manipulator.getSize sb raw := by
  rw [Manipulator.getSize, detectType_congr h hw,
    getCompoundU64_congr (h.sameOn hw') (h.sameOn hw''), Manipulator.getSize]

theorem getBlocks_congr (h : DiffersIn ws raw raw') (hw : Clear ws 0x1C 0x20)
    (hw' : Clear ws 0x74 0x78) : Manipulator.getBlocks sb raw' = Manipulator.getBlocks sb raw :=
  getCompoundU64_congr (h.sameOn hw) (h.sameOn hw')

theorem getAddressingMode_congr (hraw : IsRecord raw) (h : DiffersIn ws raw raw')
    (hw : Clear ws 0x20 0x24) (hw' : Clear ws 0x28 0x64) :
    Manipulator.getAddressingMode sb raw' = Manipulator.getAddressingMode sb raw := by
  unfold IsRecord at hraw
  have hsame := h.sameOn hw'
  have hlen := h.length
  have hflags : Manipulator.flags raw' = Manipulator.flags raw :=
    ByteRw.readU32_congr (h.sameOn hw)
  have hwords : ∀ i ∈ List.range 15,
      ByteRw.readU32 raw' (0x28 + 4 * i) = ByteRw.readU32 raw (0x28 + 4 * i) := by
    intro i hi
    rw [List.mem_range] at hi
    exact ByteRw.readU32_congr (hsame.mono (by omega) (by omega))
  have hcount : ∀ p, 0x28 ≤ p → p + 2 ≤ 0x64 → ByteRw.readU16 raw' p = ByteRw.readU16 raw p :=
    fun p h1 h2 => ByteRw.readU16_congr (hsame.mono h1 h2)
  rw [Manipulator.getAddressingMode, Manipulator.getAddressingMode, hflags,
    List.map_congr_left hwords, hcount 0x2a (by decide) (by decide),
    hcount 0x2c (by decide) (by decide), hcount 0x2e (by decide) (by decide),
    LeBytes.slice_congr (hsame.mono (by decide) (by decide)) (by omega) (by omega)]

theorem fieldsOf_setLinksCount {v : Nat} (hraw : IsRecord raw) (hv : v < 2 ^ 16) :
    fieldsOf sb (Manipulator.setLinksCount raw v) = { fieldsOf sb raw with linksCount := v } := by
  have h : DiffersIn [(0x1A, 0x1C)] raw (Manipulator.setLinksCount raw v) := .writeLe 2 v
  apply Fields.ext
  · exact fixed_congr h (by decide) (by decide) (by decide)
  · exact linksCount_setLinksCount hraw hv
  · exact getSize_congr h (by decide) (by decide) (by decide)
  · exact getBlocks_congr h (by decide) (by decide)
  · exact getAddressingMode_congr hraw h (by decide) (by decide)

theorem fieldsOf_setDeletionTime (hraw : IsRecord raw) (v : Nat) :
    fieldsOf sb (Manipulator.setDeletionTime raw v) = fieldsOf sb raw := by
  have h : DiffersIn [(0x14, 0x18)] raw (Manipulator.setDeletionTime raw v) := .writeLe 4 v
  apply Fields.ext
  · exact fixed_congr h (by decide) (by decide) (by decide)
  · exact linksCount_congr h (by decide)
  · exact getSize_congr h (by decide) (by decide) (by decide)
  · exact getBlocks_congr h (by decide) (by decide)
  · exact getAddressingMode_congr hraw h (by decide) (by decide)

theorem fieldsOf_setSize {v : Nat} (hraw : IsRecord raw)
    (h : Manipulator.setSize sb raw v = some raw') (hv : v < 2 ^ 64) :
    fieldsOf sb raw' = { fieldsOf sb raw with size := v } := by
  have hdiff := setCompoundU64_differsIn h
  unfold IsRecord at hraw
  apply Fields.ext
  · exact fixed_congr hdiff (by decide) (by decide) (by decide)
  · exact linksCount_congr hdiff (by decide)
  · -- The type, which says whether there is a high part, is as before.
    show Manipulator.getSize sb raw' = v
    rw [Manipulator.getSize, detectType_congr hdiff (by decide)]
    exact getCompoundU64_set h hv (by decide) (by omega)
  · exact getBlocks_congr hdiff (by decide) (by decide)
  · exact getAddressingMode_congr hraw hdiff (by decide) (by decide)

theorem fieldsOf_setBlocks {v : Nat} (hraw : IsRecord raw)
    (h : Manipulator.setBlocks sb raw v = some raw') (hv : v < 2 ^ 64) :
    fieldsOf sb raw' = { fieldsOf sb raw with blocks := v } := by
  have hdiff := setCompoundU64_differsIn h
  unfold IsRecord at hraw
  apply Fields.ext
  · exact fixed_congr hdiff (by decide) (by decide) (by decide)
  · exact linksCount_congr hdiff (by decide)
  · exact getSize_congr hdiff (by decide) (by decide) (by decide)
  · exact getCompoundU64_set h hv (by decide) (by omega)
  · exact getAddressingMode_congr hraw hdiff (by decide) (by decide)

theorem fieldsOf_setAddresses {mode : RawInodeAddressingMode} (hraw : IsRecord raw)
    (hwf : mode.WF) (h : Manipulator.setAddresses sb raw mode = some raw') :
    fieldsOf sb raw' = { fieldsOf sb raw with addresses := mode } := by
  have hdiff := setAddresses_differsIn hwf hraw h
  apply Fields.ext
  · exact fixed_congr hdiff (by decide) (by decide) (by decide)
  · exact linksCount_congr hdiff (by decide)
  · exact getSize_congr hdiff (by decide) (by decide) (by decide)
  · exact getBlocks_congr hdiff (by decide) (by decide)
  · exact getAddressingMode_setAddresses hwf hraw h

end Setters

/-! ## A new record -/

section Init
variable {sb : SuperBlock} {raw raw' : Bytes}

/-- The block map that `Manipulator::init` writes. -/
def initAddresses (sb : SuperBlock) (ftype : FileType) : RawInodeAddressingMode :=
  if containsFlag sb.featuresIncompatible featureExtents &&
      (ftype == .directory || ftype == .regularFile) then
    .extent 0 4 0 (List.replicate 48 0)
  else .legacy (List.replicate 15 0)

theorem initAddresses_wf (sb : SuperBlock) (ftype : FileType) : (initAddresses sb ftype).WF := by
  unfold initAddresses
  split
  · exact ⟨by decide, by decide, by decide, rfl⟩
  · exact ⟨rfl, by decide⟩

/-- The steps of `Manipulator::init` behind the mode. -/
theorem init_eq_some {ftype : FileType} (h : Manipulator.init sb raw ftype = some raw') :
    ∃ raw1 flag raw2, raw1.length = raw.length ∧
      Manipulator.setAddresses sb (ByteRw.writeU32 raw1 0x20 flag) (initAddresses sb ftype) =
        some raw2 ∧
      raw' = if 0x80 < sb.inodeSize then ByteRw.writeU16 raw2 0x80 sb.wantExtraIsize else raw2 := by
  unfold Manipulator.init at h
  dsimp only at h
  obtain ⟨mode, _, h⟩ := Option.bind_eq_some_iff.mp h
  obtain ⟨type, _, h⟩ := Option.bind_eq_some_iff.mp h
  obtain ⟨raw1, hmode, h⟩ := Option.bind_eq_some_iff.mp h
  obtain ⟨raw2, haddr, rfl⟩ := Option.map_eq_some_iff.mp h
  refine ⟨raw1, _, raw2, ?_, haddr, rfl⟩
  unfold setCompoundU32 at hmode
  split at hmode
  · cases hmode
    simp
  · split at hmode
    · cases hmode
      simp
    · cases hmode

theorem length_setAddresses_init {ftype : FileType} {raw1 raw2 : Bytes} {flag : Nat}
    (hraw : IsRecord raw1)
    (h : Manipulator.setAddresses sb (ByteRw.writeU32 raw1 0x20 flag) (initAddresses sb ftype) =
      some raw2) : raw2.length = raw1.length := by
  have hflags : IsRecord (ByteRw.writeU32 raw1 0x20 flag) := by
    rwa [IsRecord, ByteRw.length_writeU32]
  have hdiff := setAddresses_differsIn (initAddresses_wf sb ftype) hflags h
  rw [hdiff.length, ByteRw.length_writeU32]

/-- A new record has an empty block map. -/
theorem getAddressingMode_init {ftype : FileType} (hraw : IsRecord raw)
    (h : Manipulator.init sb raw ftype = some raw') :
    Manipulator.getAddressingMode sb raw' = initAddresses sb ftype := by
  obtain ⟨raw1, flag, raw2, hlen, haddr, rfl⟩ := init_eq_some h
  have h1 : IsRecord raw1 := by rwa [IsRecord, hlen]
  have hflags : IsRecord (ByteRw.writeU32 raw1 0x20 flag) := by
    rwa [IsRecord, ByteRw.length_writeU32]
  have hread : Manipulator.getAddressingMode sb raw2 = initAddresses sb ftype :=
    getAddressingMode_setAddresses (initAddresses_wf sb ftype) hflags haddr
  have h2 : IsRecord raw2 := by rwa [IsRecord, length_setAddresses_init h1 haddr]
  split
  · have hdiff : LeBytes.DiffersIn [(0x80, 0x82)] raw2
        (ByteRw.writeU16 raw2 0x80 sb.wantExtraIsize) := .writeLe 2 _
    rw [getAddressingMode_congr h2 hdiff (by decide) (by decide), hread]
  · exact hread

theorem length_init {ftype : FileType} (hraw : IsRecord raw)
    (h : Manipulator.init sb raw ftype = some raw') : raw'.length = raw.length := by
  obtain ⟨raw1, flag, raw2, hlen, haddr, rfl⟩ := init_eq_some h
  have h1 : IsRecord raw1 := by rwa [IsRecord, hlen]
  have hlen2 := (length_setAddresses_init h1 haddr).trans hlen
  split
  · rw [ByteRw.length_writeU16, hlen2]
  · exact hlen2

end Init

end RustExt4.Inode
