/-
  RustExt4.Directory.BlockInv

  Well-formed directory blocks: the records tile the block, each with room for
  its name, and the live names are valid.  Insertion and removal replace the
  contents of one window of the tiling, so that every other record stays as it
  is; both iterators visit the positions of the tiling.
-/
import RustExt4.Directory.Block
import RustExt4.Lib.RecordTiling

namespace RustExt4.Directory

open DirectoryEntryDispatch
open LeBytes (SameOn)
open RecordTiling (RecordFormat Tiles)

/-- The entry in the record at `pos`. -/
def entryAt (v2 : Bool) (b : Bytes) (pos : Nat) : DirEntry :=
  { inode := getInode b pos, name := nameBytes v2 b pos, ty := getFileType v2 b pos }

/-! ## The record format -/

theorem getNameLen_congr {v2 : Bool} {b b' : Bytes} {p : Nat} (h : SameOn b' b (p + 6) (p + 8)) :
    getNameLen v2 b' p = getNameLen v2 b p := by
  unfold getNameLen
  cases v2 with
  | true => exact ByteRw.readU8_congr (h.mono (Nat.le_refl _) (by omega))
  | false => exact ByteRw.readU16_congr h

theorem getFileType_congr {v2 : Bool} {b b' : Bytes} {p : Nat}
    (h : SameOn b' b (p + 7) (p + 8)) : getFileType v2 b' p = getFileType v2 b p := by
  unfold getFileType
  rw [ByteRw.readU8_congr h]

theorem nameBytes_congr {v2 : Bool} {b b' : Bytes} {p : Nat} (hlen : b'.length = b.length)
    (h : SameOn b' b (p + 6) (p + 8 + getNameLen v2 b p))
    (hend : p + 8 + getNameLen v2 b p ≤ b.length) : nameBytes v2 b' p = nameBytes v2 b p := by
  unfold nameBytes
  rw [getNameLen_congr (h.mono (Nat.le_refl _) (by omega))]
  exact LeBytes.slice_congr (h.mono (by omega) (Nat.le_refl _)) (by omega) hend

/-- A record reads the same where its header and its name do. -/
theorem entryAt_congr {v2 : Bool} {b b' : Bytes} {p : Nat} (hlen : b'.length = b.length)
    (hinode : SameOn b' b p (p + 4)) (hname : SameOn b' b (p + 6) (p + 8 + getNameLen v2 b p))
    (hend : p + 8 + getNameLen v2 b p ≤ b.length) : entryAt v2 b' p = entryAt v2 b p := by
  unfold entryAt
  rw [nameBytes_congr hlen hname hend, getFileType_congr (hname.mono (by omega) (by omega)),
    show getInode b' p = getInode b p from ByteRw.readU32_congr hinode]

/-- Directory records: their lengths are multiples of 4 with room for the name,
    and a record with inode number 0 is unused. -/
def format (v2 : Bool) : RecordFormat DirEntry where
  len := getEntryLen
  Ok b p := 4 ∣ getEntryLen b p ∧ 8 + getNameLen v2 b p ≤ getEntryLen b p
  view b p := if getInode b p = 0 then none else some (entryAt v2 b p)
  len_pos := by
    rintro b p ⟨-, h⟩
    omega
  congr := by
    rintro b b' p hlen hsame ⟨h4, hname⟩ hend
    have hl : getEntryLen b' p = getEntryLen b p :=
      ByteRw.readU16_congr (hsame.mono (by omega) (by omega))
    have hn : getNameLen v2 b' p = getNameLen v2 b p :=
      getNameLen_congr (hsame.mono (by omega) (by omega))
    have hi : getInode b' p = getInode b p :=
      ByteRw.readU32_congr (hsame.mono (Nat.le_refl p) (by omega))
    refine ⟨hl, by rw [hl, hn]; exact ⟨h4, hname⟩, ?_⟩
    rw [hi, entryAt_congr hlen (hsame.mono (Nat.le_refl p) (by omega))
      (hsame.mono (by omega) (by omega)) (by omega)]

theorem format_ok {v2 : Bool} {b : Bytes} {p : Nat} :
    (format v2).Ok b p ↔ 4 ∣ getEntryLen b p ∧ 8 + getNameLen v2 b p ≤ getEntryLen b p :=
  Iff.rfl

@[simp] theorem format_len (v2 : Bool) (b : Bytes) (p : Nat) :
    (format v2).len b p = getEntryLen b p := rfl

theorem view_unused {v2 : Bool} {b : Bytes} {p : Nat} (h : getInode b p = 0) :
    (format v2).view b p = none := if_pos h

theorem view_used {v2 : Bool} {b : Bytes} {p : Nat} (h : getInode b p ≠ 0) :
    (format v2).view b p = some (entryAt v2 b p) := if_neg h

namespace DirectoryBlock

/-- The positions of the records. -/
def positions (d : DirectoryBlock) : List Nat :=
  RecordTiling.walk (format d.isVersion2) d.inner d.blkSize 0

/-- The live entries in position order. -/
def live (d : DirectoryBlock) : List (Nat × DirEntry) :=
  RecordTiling.live (format d.isVersion2) d.inner d.positions

/-- The records tile the block and the live names are valid.  The block sizes of
    the source are 1024, 2048 and 4096. -/
structure WellFormed (d : DirectoryBlock) : Prop where
  blkSize_lt : d.blkSize < 2 ^ 16
  tiles : Tiles (format d.isVersion2) d.inner 0 d.positions d.blkSize
  names : ∀ e ∈ d.live, utf8Valid e.2.name

theorem positions_eq {d : DirectoryBlock} {ps : List Nat}
    (h : Tiles (format d.isVersion2) d.inner 0 ps d.blkSize) : d.positions = ps :=
  h.walk_eq

/-! ## Iteration -/

theorem iterMut_next {d : DirectoryBlock} {p : Nat} (ppos : Option Nat)
    (hok : (format d.isVersion2).Ok d.inner p) (hend : p + getEntryLen d.inner p ≤ d.blkSize) :
    DirectoryBlockIteratorMut.next d { pos := p, ppos := ppos } =
      (some (.ok { ppos := ppos, pos := p }),
        { pos := p + getEntryLen d.inner p, ppos := some p }) := by
  have hname := hok.2
  rw [DirectoryBlockIteratorMut.next, if_pos ⟨rfl, by simp only; omega⟩,
    if_pos ⟨hend, by simp only; omega⟩]

theorem iterMut_end (d : DirectoryBlock) (ppos : Option Nat) :
    DirectoryBlockIteratorMut.next d { pos := d.blkSize, ppos := ppos } =
      (none, { pos := d.blkSize, ppos := ppos }) := by
  rw [DirectoryBlockIteratorMut.next, if_neg]
  simp

/-- `iter_mut` visits every record. -/
theorem collect_iterMut {d : DirectoryBlock} {a : Nat} {ps : List Nat} (ppos : Option Nat)
    (h : Tiles (format d.isVersion2) d.inner a ps d.blkSize) :
    DirectoryBlockIteratorMut.collect d { pos := a, ppos := ppos } = .ok ps := by
  induction ps generalizing a ppos with
  | nil =>
      obtain rfl : a = d.blkSize := h
      exact DirectoryBlockIteratorMut.collect_of_none (iterMut_end d ppos)
  | cons p ps ih =>
      obtain ⟨rfl, hok, hrest⟩ := h
      have hih := ih (some a) hrest
      rw [format_len] at hih
      rw [DirectoryBlockIteratorMut.collect_of_some (iterMut_next ppos hok hrest.le), hih]
      rfl

theorem iter_next {d : DirectoryBlock} {p : Nat} (hok : (format d.isVersion2).Ok d.inner p)
    (hend : p + getEntryLen d.inner p ≤ d.blkSize) :
    DirectoryBlockIterator.next d { pos := p } =
      if getInode d.inner p ≠ 0 then
        (.ok (some (.ok p)), { pos := p + getEntryLen d.inner p })
      else DirectoryBlockIterator.next d { pos := p + getEntryLen d.inner p } := by
  have hname := hok.2
  have hread : d.readEntryAt p = .ok () := by
    rw [readEntryAt, if_neg (by omega)]
  rw [DirectoryBlockIterator.next, if_pos ⟨rfl, by simp only; omega⟩]
  simp only [hread]
  rw [if_neg (by omega)]

theorem iter_end (d : DirectoryBlock) :
    DirectoryBlockIterator.next d { pos := d.blkSize } = (.ok none, { pos := d.blkSize }) := by
  rw [DirectoryBlockIterator.next, if_neg]
  simp

/-- `iter` visits the live records, from any state that goes on as position `a` does. -/
theorem collect_iter_from {d : DirectoryBlock} {a : Nat} {ps : List Nat}
    {it : DirectoryBlockIterator} (h : Tiles (format d.isVersion2) d.inner a ps d.blkSize)
    (hit : DirectoryBlockIterator.next d it = DirectoryBlockIterator.next d { pos := a }) :
    DirectoryBlockIterator.collect d it =
      .ok ((RecordTiling.live (format d.isVersion2) d.inner ps).map Prod.fst) := by
  induction ps generalizing a it with
  | nil =>
      obtain rfl : a = d.blkSize := h
      exact DirectoryBlockIterator.collect_of_none (hit.trans (iter_end d))
  | cons p ps ih =>
      obtain ⟨rfl, hok, hrest⟩ := h
      rw [format_len] at hrest
      have hnext := hit.trans (iter_next hok hrest.le)
      by_cases hlive : getInode d.inner a = 0
      · rw [if_neg (not_not.mpr hlive)] at hnext
        rw [ih hrest hnext, RecordTiling.live_cons_none (view_unused hlive)]
      · rw [if_pos hlive] at hnext
        rw [DirectoryBlockIterator.collect_of_some hnext, ih hrest rfl,
          RecordTiling.live_cons_some (view_used hlive)]
        rfl

theorem collect_iter {d : DirectoryBlock} {ps : List Nat}
    (h : Tiles (format d.isVersion2) d.inner 0 ps d.blkSize) :
    DirectoryBlockIterator.collect d {} =
      .ok ((RecordTiling.live (format d.isVersion2) d.inner ps).map Prod.fst) :=
  collect_iter_from h rfl

/-! ## Writing an entry -/

/-- The entry that `insert_entry` stores. -/
def newEntry (d : DirectoryBlock) (entry : Bytes) (de : Option FileType) (child : Nat) : DirEntry :=
  { inode := child, name := entry
    ty := if d.isVersion2 then de.map .fromFileType else none }

/-- `d'` holds the entry `e` in the record at `p`, of the same length as before,
    and differs from `d` in the header and the name of that record only. -/
structure Wrote (d d' : DirectoryBlock) (p : Nat) (e : DirEntry) : Prop where
  version : d'.isVersion2 = d.isVersion2
  length : d'.inner.length = d.inner.length
  same : ∀ {lo hi}, hi ≤ p ∨ p + 8 + e.name.length ≤ lo → SameOn d'.inner d.inner lo hi
  entryLen : getEntryLen d'.inner p = getEntryLen d.inner p
  nameLen : getNameLen d.isVersion2 d'.inner p = e.name.length
  entry : entryAt d.isVersion2 d'.inner p = e

/-- The type and the length of the name are in bytes 6 and 7 of the record. -/
theorem setType_setNameLen {v2 : Bool} {de : Option Ext4De} (hde : v2 = true → de ≠ none)
    {b : Bytes} {p n : Nat} (hn : n ≤ 255) (hend : p + 8 ≤ b.length) :
    ∃ b2, setType v2 b p de = .ok b2 ∧ ∃ b3,
      (if v2 then ByteRw.writeU8 b2 (p + 6) n else ByteRw.writeU16 b2 (p + 6) n) = b3 ∧
      b3.length = b.length ∧ (∀ {lo hi}, hi ≤ p + 6 ∨ p + 8 ≤ lo → SameOn b3 b lo hi) ∧
      getNameLen v2 b3 p = n ∧ getFileType v2 b3 p = if v2 then de else none := by
  -- V1 has a two byte length and no type; V2 splits the two bytes.
  cases v2 with
  | false =>
      refine ⟨b, rfl, _, rfl, ByteRw.length_writeU16 .., ByteRw.writeU16_sameOn, ?_, rfl⟩
      exact (ByteRw.readU16_writeU16 (by omega)).trans (Nat.mod_eq_of_lt (by omega))
  | true =>
      obtain ⟨de, rfl⟩ := Option.ne_none_iff_exists'.mp (hde rfl)
      refine ⟨_, rfl, _, rfl, ?_, ?_, ?_, ?_⟩
      · rw [if_pos rfl, ByteRw.length_writeU8, ByteRw.length_writeU8]
      · intro lo hi h
        exact (ByteRw.writeU8_sameOn (by omega)).trans (ByteRw.writeU8_sameOn (by omega))
      · have hlen := ByteRw.length_writeU8 b (p + 7) de.toU8
        exact (ByteRw.readU8_writeU8 (by omega)).trans (Nat.mod_eq_of_lt (by omega))
      · -- The length is written after the type, next to it.
        have hkeep : ByteRw.readU8 (ByteRw.writeU8 (ByteRw.writeU8 b (p + 7) de.toU8) (p + 6) n)
            (p + 7) = de.toU8 := by
          rw [ByteRw.readU8_congr (ByteRw.writeU8_sameOn (by omega)),
            ByteRw.readU8_writeU8 (by omega), Nat.mod_eq_of_lt de.toU8_lt]
        simp only [getFileType, if_true, hkeep, Ext4De.tryFrom_toU8]

theorem put_spec (d : DirectoryBlock) (p : Nat) {child : Nat} {entry : Bytes}
    {de : Option FileType} (hde : d.isVersion2 = true → de ≠ none) (hlen : entry.length ≤ 255)
    (hend : p + 8 + entry.length ≤ d.blkSize)
    (hchild : child < 2 ^ 32) :
    ∃ d', d.put p entry de child = .ok d' ∧ Wrote d d' p (d.newEntry entry de child) := by
  obtain ⟨b, v2⟩ := d
  simp only [blkSize] at hend
  -- The inode number, the type, the length and the name are written one after the other, each where
  -- the ones before it are not.
  have hb1 : (setInode b p child).length = b.length := ByteRw.length_writeU32 ..
  have hs1 : ∀ {lo hi}, hi ≤ p ∨ p + 4 ≤ lo → SameOn (setInode b p child) b lo hi :=
    ByteRw.writeU32_sameOn
  have hr1 : getInode (setInode b p child) p = child := by
    rw [getInode, setInode, ByteRw.readU32_writeU32 (by omega), Nat.mod_eq_of_lt hchild]
  obtain ⟨b2, htype, b3, hb3, hlen3, hs3, hn3, ht3⟩ := setType_setNameLen
    (show v2 = true → de.map Ext4De.fromFileType ≠ none by simpa using hde) hlen
    (show p + 8 ≤ (setInode b p child).length by omega)
  have hname : setName v2 b2 p entry = .ok (LeBytes.splice b3 (p + 8) entry) := by
    have hb2 : b2.length = b.length := by
      rw [← hb1, ← hlen3, ← hb3]
      cases v2 <;> simp
    rw [setName, hb3, if_pos ⟨by split <;> omega, by omega⟩]
  have hfit : p + 8 + entry.length ≤ b3.length := by omega
  have hs4 := @LeBytes.splice_sameOn b3 (p + 8)
  refine ⟨{ inner := LeBytes.splice b3 (p + 8) entry, isVersion2 := v2 }, ?_, ?_⟩
  · simp only [put, htype, hname]
  · have hn4 : getNameLen v2 (LeBytes.splice b3 (p + 8) entry) p = entry.length := by
      rw [getNameLen_congr (hs4 hfit (by omega)), hn3]
    refine ⟨rfl, ?_, ?_, ?_, hn4, ?_⟩
    · rw [LeBytes.length_splice hfit, hlen3, hb1]
    · intro lo hi hw
      simp only [newEntry] at hw
      exact (hs4 hfit (by omega)).trans ((hs3 (by omega)).trans (hs1 (by omega)))
    · exact ByteRw.readU16_congr
        ((hs4 hfit (by omega)).trans ((hs3 (by omega)).trans (hs1 (by omega))))
    · have hi4 : getInode (LeBytes.splice b3 (p + 8) entry) p = child := by
        rw [← hr1]
        exact ByteRw.readU32_congr ((hs4 hfit (by omega)).trans (hs3 (by omega)))
      have ht4 : getFileType v2 (LeBytes.splice b3 (p + 8) entry) p =
          if v2 then de.map Ext4De.fromFileType else none := by
        rw [getFileType_congr (hs4 hfit (by omega)), ht3]
      simp only [entryAt, newEntry, nameBytes, hi4, ht4, hn4, LeBytes.slice_splice_self hfit]

/-- `split` cuts the record at `p` in two, and changes the two length fields only. -/
theorem split_spec (d : DirectoryBlock) (p : Nat)
    (hend : p + getEntryLen d.inner p ≤ d.blkSize)
    (hlen : entrySize (getNameLen d.isVersion2 d.inner p) + 8 ≤ getEntryLen d.inner p) :
    ∃ b, split d.isVersion2 d.inner p =
        .ok (b, p + entrySize (getNameLen d.isVersion2 d.inner p)) ∧
      b.length = d.inner.length ∧
      (∀ {lo hi}, (hi ≤ p + 4 ∨ p + 6 ≤ lo) →
        (hi ≤ p + entrySize (getNameLen d.isVersion2 d.inner p) + 4 ∨
          p + entrySize (getNameLen d.isVersion2 d.inner p) + 6 ≤ lo) → SameOn b d.inner lo hi) ∧
      getEntryLen b p = entrySize (getNameLen d.isVersion2 d.inner p) ∧
      getEntryLen b (p + entrySize (getNameLen d.isVersion2 d.inner p)) =
        getEntryLen d.inner p - entrySize (getNameLen d.isVersion2 d.inner p) := by
  have hsize := (entrySize_spec (getNameLen d.isVersion2 d.inner p)).1
  have hlt : getEntryLen d.inner p < 2 ^ 16 := ByteRw.readU16_lt ..
  unfold blkSize at hend
  -- Only how far the name takes the record matters from here on.
  generalize hn : entrySize (getNameLen d.isVersion2 d.inner p) = n at hlen hsize ⊢
  refine ⟨_, by rw [split, hn, if_pos ⟨by omega, by omega⟩], ?_, ?_, ?_, ?_⟩
  · rw [setEntryLen, setEntryLen, ByteRw.length_writeU16, ByteRw.length_writeU16]
  · intro lo hi h1 h2
    exact (ByteRw.writeU16_sameOn (by omega)).trans (ByteRw.writeU16_sameOn (by omega))
  · rw [getEntryLen, setEntryLen, ByteRw.readU16_congr (ByteRw.writeU16_sameOn (by omega)),
      setEntryLen, ByteRw.readU16_writeU16 (by omega), Nat.mod_eq_of_lt (by omega)]
  · rw [getEntryLen, setEntryLen, ByteRw.readU16_writeU16 (by
      rw [setEntryLen, ByteRw.length_writeU16]; omega), Nat.mod_eq_of_lt (by omega)]

/-! ## Insertion -/

/-- The records of `d` at the positions `ps` fill `[a, c)`. -/
abbrev TilesIn (d : DirectoryBlock) (a : Nat) (ps : List Nat) (c : Nat) : Prop :=
  Tiles (format d.isVersion2) d.inner a ps c

/-- The live entries of `d` at the positions `ps`. -/
abbrev liveIn (d : DirectoryBlock) (ps : List Nat) : List (Nat × DirEntry) :=
  RecordTiling.live (format d.isVersion2) d.inner ps

/-- An entry stored in a record without a live entry. -/
theorem tiles_put {d d' : DirectoryBlock} {p : Nat} {e : DirEntry} {l r : List Nat}
    (hw : Wrote d d' p e) (hl : d.TilesIn 0 l p) (hok : 4 ∣ getEntryLen d.inner p)
    (hsize : entrySize e.name.length ≤ getEntryLen d.inner p) (hinode : e.inode ≠ 0)
    (hr : d.TilesIn (p + getEntryLen d.inner p) r d.blkSize) :
    d'.TilesIn 0 (l ++ [p] ++ r) d'.blkSize ∧
      d'.liveIn (l ++ [p] ++ r) = d.liveIn l ++ (p, e) :: d.liveIn r := by
  have hbig := (entrySize_spec e.name.length).1
  have hblk : d'.blkSize = d.blkSize := hw.length
  have hlive : getInode d'.inner p ≠ 0 := by
    have := congrArg DirEntry.inode hw.entry
    rw [show getInode d'.inner p = e.inode from this]
    exact hinode
  -- What was the record is now one live record of the same length.
  have hmid : Tiles (format d.isVersion2) d'.inner p [p] (p + getEntryLen d.inner p) := by
    refine ⟨rfl, format_ok.mpr ?_, ?_⟩
    · rw [hw.entryLen, hw.nameLen]
      exact ⟨hok, by omega⟩
    · rw [format_len, hw.entryLen]
      rfl
  obtain ⟨ht, hlv⟩ := RecordTiling.tiles_replace hw.length hl hr (Nat.le_refl _)
    (hw.same (Or.inl (Nat.le_refl p))) (hw.same (by omega)) hmid
  unfold TilesIn liveIn
  rw [hw.version, hblk]
  refine ⟨ht, ?_⟩
  rw [hlv, RecordTiling.live_cons_some (view_used hlive), hw.entry, RecordTiling.live_nil]
  simp

/-- A used record with slack, cut in two. -/
theorem tiles_split {d : DirectoryBlock} {b : Bytes} {p : Nat} {l r : List Nat}
    (hl : d.TilesIn 0 l p) (hok : (format d.isVersion2).Ok d.inner p)
    (hr : d.TilesIn (p + getEntryLen d.inner p) r d.blkSize)
    (hlen : entrySize (getNameLen d.isVersion2 d.inner p) + 8 ≤ getEntryLen d.inner p)
    (hused : getInode d.inner p ≠ 0)
    (hsplit : split d.isVersion2 d.inner p =
      .ok (b, p + entrySize (getNameLen d.isVersion2 d.inner p))) :
    let q := p + entrySize (getNameLen d.isVersion2 d.inner p)
    let d' : DirectoryBlock := { d with inner := b }
    d'.blkSize = d.blkSize ∧ getEntryLen b q = p + getEntryLen d.inner p - q ∧
      d'.TilesIn 0 (l ++ [p]) q ∧ d'.TilesIn (p + getEntryLen d.inner p) r d'.blkSize ∧
      d'.liveIn (l ++ [p]) = d.liveIn (l ++ [p]) ∧ d'.liveIn r = d.liveIn r := by
  intro q d'
  obtain ⟨h4, hname⟩ := format_ok.mp hok
  have hle : p + getEntryLen d.inner p ≤ d.blkSize := hr.le
  -- The one record becomes two: the first keeps its entry, the second takes the slack.
  obtain ⟨b', hsplit', hlenb, hsame, hl1, hl2⟩ := split_spec d p hle hlen
  rw [hsplit] at hsplit'
  cases hsplit'
  have hsz := entrySize_spec (getNameLen d.isVersion2 d.inner p)
  have hlp := hl.le
  have hq : q = p + entrySize (getNameLen d.isVersion2 d.inner p) := rfl
  have hpre := hl.congr hlenb (hsame (by omega) (by omega)) (by unfold blkSize at hle; omega)
  have hsuf := hr.congr hlenb (hsame (by omega) (by omega)) (Nat.le_refl _)
  have hentry : entryAt d.isVersion2 b p = entryAt d.isVersion2 d.inner p := by
    unfold blkSize at hle
    exact entryAt_congr hlenb (hsame (by omega) (by omega)) (hsame (by omega) (by omega)) (by omega)
  have hn : getNameLen d.isVersion2 b p = getNameLen d.isVersion2 d.inner p :=
    getNameLen_congr (hsame (by omega) (by omega))
  have hused' : getInode b p ≠ 0 := by
    rw [show getInode b p = getInode d.inner p from
      ByteRw.readU32_congr (hsame (by omega) (by omega))]
    exact hused
  refine ⟨hlenb, by rw [hl2]; omega, ?_, ?_, ?_, hsuf.2⟩
  · refine RecordTiling.tiles_append.mpr ⟨p, hpre.1, rfl, format_ok.mpr ?_, ?_⟩
    · rw [hl1, hn]
      exact ⟨hsz.2.2, hsz.1⟩
    · rw [format_len, hl1]
      rfl
  · rw [show d'.blkSize = d.blkSize from hlenb]
    exact hsuf.1
  · unfold liveIn
    rw [RecordTiling.live_append, RecordTiling.live_append, hpre.2,
      RecordTiling.live_cons_some (view_used hused),
      RecordTiling.live_cons_some (view_used hused'), hentry]
    rfl

/-- The record at `p` takes an entry of this size, as it is or after a split. -/
def Takes (d : DirectoryBlock) (p size : Nat) : Prop :=
  d.takesUnused p size = true ∨ d.takesSplit p size = true

/-- The loop passes over records that do not take the entry. -/
theorem insertFrom_skip {d : DirectoryBlock} {a m : Nat} {l : List Nat} (ppos : Option Nat)
    (entry : Bytes) (de : Option FileType) (child : Nat) (hl : d.TilesIn a l m)
    (hm : m ≤ d.blkSize) (hno : ∀ p ∈ l, ¬ d.Takes p (entrySize entry.length)) :
    ∃ ppos', d.insertFrom { pos := a, ppos := ppos } entry de child =
      d.insertFrom { pos := m, ppos := ppos' } entry de child := by
  induction l generalizing a ppos with
  | nil =>
      obtain rfl : a = m := hl
      exact ⟨ppos, rfl⟩
  | cons p l ih =>
      obtain ⟨rfl, hok, hrest⟩ := hl
      have hle := hrest.le
      rw [format_len] at hle hrest
      have hp := hno a List.mem_cons_self
      obtain ⟨ppos', hih⟩ := ih (some a) hrest fun p hp => hno p (List.mem_cons_of_mem _ hp)
      refine ⟨ppos', ?_⟩
      rw [insertFrom_of_some entry de child (iterMut_next ppos hok (by omega)),
        if_neg fun h => hp (Or.inl h), if_neg fun h => hp (Or.inr h), hih]

/-- What a successful insertion does: one live entry more, in a record of its own. -/
structure Inserted (d d' : DirectoryBlock) (e : DirEntry) : Prop where
  version : d'.isVersion2 = d.isVersion2
  blkSize : d'.blkSize = d.blkSize
  tiles : ∃ ps, d'.TilesIn 0 ps d'.blkSize
  live : ∃ l p r, d.live = l ++ r ∧ d'.live = l ++ (p, e) :: r

theorem insertFrom_unused {d : DirectoryBlock} {p child : Nat} (ppos : Option Nat)
    {entry : Bytes} {de : Option FileType} {l r : List Nat}
    (hde : d.isVersion2 = true → de ≠ none) (hlen : entry.length ≤ 255) (hchild : child < 2 ^ 32)
    (hne : child ≠ 0) (hl : d.TilesIn 0 l p)
    (hr : d.TilesIn p (p :: r) d.blkSize)
    (htake : d.takesUnused p (entrySize entry.length) = true) :
    ∃ d', d.insertFrom { pos := p, ppos := ppos } entry de child = .ok (true, d') ∧
      Wrote d d' p (d.newEntry entry de child) ∧ d'.TilesIn 0 (l ++ p :: r) d'.blkSize ∧
      d.liveIn (l ++ p :: r) = d.liveIn l ++ d.liveIn r ∧
      d'.liveIn (l ++ p :: r) = d.liveIn l ++ (p, d.newEntry entry de child) :: d.liveIn r := by
  obtain ⟨-, hok, hrest⟩ := hr
  rw [format_len] at hrest
  -- The record is unused, so its whole length is there for the entry.
  have htake' := htake
  simp only [takesUnused, decide_eq_true_eq] at htake'
  obtain ⟨hunused, -, hsize⟩ := htake'
  have hbig := (entrySize_spec entry.length).1
  have hle := hrest.le
  obtain ⟨d', hput, hw⟩ := put_spec d p hde hlen (by omega) hchild
  have hins := insertFrom_of_some entry de child (iterMut_next ppos hok hle)
  obtain ⟨ht, hlv⟩ := tiles_put hw hl hok.1 hsize hne hrest
  rw [show l ++ [p] ++ r = l ++ p :: r by simp] at ht hlv
  refine ⟨d', ?_, hw, ht, ?_, hlv⟩
  · rw [hins, if_pos htake, hput]
    rfl
  · unfold liveIn
    rw [RecordTiling.live_append, RecordTiling.live_cons_none (view_unused hunused)]

theorem insertFrom_split {d : DirectoryBlock} {p child : Nat} (ppos : Option Nat)
    {entry : Bytes} {de : Option FileType} {l r : List Nat}
    (hde : d.isVersion2 = true → de ≠ none) (hlen : entry.length ≤ 255) (hchild : child < 2 ^ 32)
    (hne : child ≠ 0) (hl : d.TilesIn 0 l p)
    (hr : d.TilesIn p (p :: r) d.blkSize)
    (htake : d.takesSplit p (entrySize entry.length) = true) :
    let q := p + entrySize (getNameLen d.isVersion2 d.inner p)
    ∃ d', d.insertFrom { pos := p, ppos := ppos } entry de child = .ok (true, d') ∧
      d'.isVersion2 = d.isVersion2 ∧ d'.blkSize = d.blkSize ∧
      getEntryLen d'.inner p = entrySize (getNameLen d.isVersion2 d.inner p) ∧
      SameOn d'.inner d.inner 0 (p + 4) ∧ SameOn d'.inner d.inner (p + 6) (p + 8) ∧
      getNameLen d.isVersion2 d'.inner q = entry.length ∧
      entryAt d.isVersion2 d'.inner q = d.newEntry entry de child ∧
      d'.TilesIn 0 (l ++ [p] ++ q :: r) d'.blkSize ∧
      d'.liveIn (l ++ [p] ++ q :: r) =
        d.liveIn (l ++ [p]) ++ (q, d.newEntry entry de child) :: d.liveIn r := by
  intro q
  obtain ⟨-, hok, hrest⟩ := hr
  rw [format_len] at hrest
  have htake' := htake
  simp only [takesSplit, decide_eq_true_eq] at htake'
  obtain ⟨hused, hsize⟩ := htake'
  have hbig := entrySize_spec entry.length
  have hsz := entrySize_spec (getNameLen d.isVersion2 d.inner p)
  have hle := hrest.le
  have hnot : d.takesUnused p (entrySize entry.length) = false := by
    simp [takesUnused, hused]
  -- The record is cut behind its own name, and the entry goes into the second part.
  obtain ⟨b, hsplit, -, hsame, hl1, -⟩ := split_spec d p hle (by omega)
  obtain ⟨hblk, hq, hl', hr', hlv1, hlv2⟩ := tiles_split hl hok hrest (by omega) hused hsplit
  have hqp : q = p + entrySize (getNameLen d.isVersion2 d.inner p) := rfl
  change getEntryLen b q = p + getEntryLen d.inner p - q at hq
  obtain ⟨d', hput, hw⟩ := put_spec { d with inner := b } q hde hlen
    (by rw [hblk]; omega) hchild
  have hqend : q + getEntryLen b q = p + getEntryLen d.inner p := by omega
  obtain ⟨ht, hlv⟩ := tiles_put hw hl' (by
      rw [hq]
      have h4 := hok.1
      omega) (by simp only [newEntry]; omega) hne (by
      simp only [hqend]
      exact hr')
  -- The iterator stands on the first part when the cut is made.
  have hins := insertFrom_of_some entry de child (iterMut_next ppos hok hle)
  rw [show l ++ [p] ++ [q] ++ r = l ++ [p] ++ q :: r by simp] at ht hlv
  refine ⟨d', ?_, hw.version, hw.length.trans hblk, ?_, ?_, ?_, hw.nameLen,
    hw.entry, ht, ?_⟩
  · rw [hins, if_neg (by simp [hnot]), if_pos htake, hsplit]
    simp only
    rw [hput]
    rfl
  · exact (ByteRw.readU16_congr (hw.same (by omega))).trans hl1
  · exact (hw.same (by omega)).trans (hsame (by omega) (by omega))
  · exact (hw.same (by omega)).trans (hsame (by omega) (by omega))
  · rw [hlv, hlv1, hlv2]
    rfl

theorem WellFormed.inserted {d d' : DirectoryBlock} {e : DirEntry} (h : d.WellFormed)
    (hi : Inserted d d' e) (hname : utf8Valid e.name) : d'.WellFormed := by
  obtain ⟨ps, hps⟩ := hi.tiles
  refine ⟨by rw [hi.blkSize]; exact h.blkSize_lt, by rwa [positions_eq hps], ?_⟩
  obtain ⟨l, p, r, hd, hd'⟩ := hi.live
  intro x hx
  rw [hd', List.mem_append, List.mem_cons] at hx
  rcases hx with hx | rfl | hx
  · exact h.names x (by rw [hd]; exact List.mem_append_left r hx)
  · exact hname
  · exact h.names x (by rw [hd]; exact List.mem_append_right l hx)

theorem insertEntry_of_not_takes {d : DirectoryBlock} {entry : Bytes} {ps : List Nat}
    (de : Option FileType) (child : Nat) (h : d.TilesIn 0 ps d.blkSize)
    (hno : ∀ p ∈ ps, ¬ d.Takes p (entrySize entry.length)) :
    d.insertEntry entry de child = .ok (false, d) := by
  obtain ⟨ppos, hskip⟩ := insertFrom_skip none entry de child h (Nat.le_refl _) hno
  rw [insertEntry, hskip, insertFrom_of_none entry de child (iterMut_end d ppos)]

/-- The loop comes to the first record that takes the entry. -/
theorem insertEntry_first {d : DirectoryBlock} {entry : Bytes} (de : Option FileType)
    (child : Nat) (h : d.TilesIn 0 d.positions d.blkSize)
    (htakes : ∃ p ∈ d.positions, d.Takes p (entrySize entry.length)) :
    ∃ l p r ppos, d.positions = l ++ p :: r ∧ d.Takes p (entrySize entry.length) ∧
      d.TilesIn 0 l p ∧ d.TilesIn p (p :: r) d.blkSize ∧
      d.insertEntry entry de child = d.insertFrom { pos := p, ppos := ppos } entry de child := by
  -- The first record that takes the entry is the one the iterator stops at.
  cases hfind : d.positions.find? fun p =>
      d.takesUnused p (entrySize entry.length) || d.takesSplit p (entrySize entry.length) with
  | none =>
      obtain ⟨p, hp, htake⟩ := htakes
      have hno := List.find?_eq_none.mp hfind p hp
      rw [Bool.or_eq_true] at hno
      exact absurd htake hno
  | some p =>
      obtain ⟨htake, l, r, hps, hbefore⟩ := List.find?_eq_some_iff_append.mp hfind
      rw [hps] at h
      obtain ⟨m, hl, hr⟩ := RecordTiling.tiles_append.mp h
      obtain rfl : m = p := hr.1
      obtain ⟨ppos, hskip⟩ := insertFrom_skip none entry de child hl hr.le (by
        intro q hq hqt
        have := hbefore q hq
        rcases hqt with hqt | hqt <;> simp [hqt] at this)
      exact ⟨l, m, r, ppos, hps, (Bool.or_eq_true _ _).mp htake, hl, hr, hskip⟩

/-- `insert_entry` returns; it stores the entry in the first record that takes it,
    and where there is none it changes nothing. -/
theorem insertEntry_spec {d : DirectoryBlock} {entry : Bytes} {child : Nat}
    {de : Option FileType} (hde : d.isVersion2 = true → de ≠ none)
    (h : d.TilesIn 0 d.positions d.blkSize) (hlen : entry.length ≤ 255) (hchild : child < 2 ^ 32)
    (hne : child ≠ 0) :
    ((∀ p ∈ d.positions, ¬ d.Takes p (entrySize entry.length)) ∧
      d.insertEntry entry de child = .ok (false, d)) ∨
    ∃ d', d.insertEntry entry de child = .ok (true, d') ∧
      Inserted d d' (d.newEntry entry de child) := by
  by_cases htakes : ∃ p ∈ d.positions, d.Takes p (entrySize entry.length)
  · obtain ⟨l, p, r, ppos, hps, htake, hl, hr, hrun⟩ := insertEntry_first de child h htakes
    have hlive : d.live = d.liveIn (l ++ p :: r) := by rw [live, hps]
    refine Or.inr ?_
    rw [hrun]
    -- Either the record was unused, or it was live and is cut in two.
    rcases htake with htake | htake
    · obtain ⟨d', hins, hw, ht, hlv, hlv'⟩ := insertFrom_unused ppos hde hlen hchild hne hl hr htake
      rw [← hlive] at hlv
      rw [← positions_eq ht] at hlv'
      exact ⟨d', hins, hw.version, hw.length, ⟨_, ht⟩, _, _, _, hlv, hlv'⟩
    · obtain ⟨d', hins, hv, hb, -, -, -, -, -, ht, hlv⟩ :=
        insertFrom_split ppos hde hlen hchild hne hl hr htake
      have hold : d.live = d.liveIn (l ++ [p]) ++ d.liveIn r := by
        rw [hlive, ← RecordTiling.live_append, List.append_assoc, List.singleton_append]
      rw [← positions_eq ht] at hlv
      exact ⟨d', hins, hv, hb, ⟨_, ht⟩, _, _, _, hold, hlv⟩
  · have hno : ∀ p ∈ d.positions, ¬ d.Takes p (entrySize entry.length) :=
      fun p hp htake => htakes ⟨p, hp, htake⟩
    exact Or.inl ⟨hno, insertEntry_of_not_takes de child h hno⟩

/-- An insertion that returns has found no record for an entry of that name, whatever its
    type, or has put the entry down. -/
theorem insertFrom_ok {d d' : DirectoryBlock} {it : DirectoryBlockIteratorMut} {entry : Bytes}
    {de : Option FileType} {child : Nat} {r : Bool}
    (h : d.insertFrom it entry de child = .ok (r, d')) :
    (r = false ∧ d' = d ∧ ∀ de', d.insertFrom it entry de' child = .ok (false, d)) ∨
      ∃ b p, DirectoryBlock.put { d with inner := b } p entry de child = .ok d' := by
  have hmap : ∀ {x : Except Fault DirectoryBlock}, x.map (true, ·) = .ok (r, d') → x = .ok d' := by
    intro x hx
    cases x with
    | error e => cases hx
    | ok d1 =>
        cases hx
        rfl
  -- On the records that are passed over.
  induction it using insertFrom.induct d entry with
  | case1 it it' hnext =>
      rw [insertFrom_of_none entry de child hnext] at h
      cases h
      exact Or.inl ⟨rfl, rfl, fun de' => insertFrom_of_none entry de' child hnext⟩
  | case2 it e it' hnext =>
      rw [insertFrom_of_error entry de child hnext] at h
      cases h
  | case3 it cursor it' hnext hunused =>
      rw [insertFrom_of_some entry de child hnext, if_pos hunused] at h
      exact Or.inr ⟨d.inner, cursor.pos, hmap h⟩
  | case4 it cursor it' hnext hunused hsplit e hbad =>
      rw [insertFrom_of_some entry de child hnext, if_neg hunused, if_pos hsplit, hbad] at h
      cases h
  | case5 it cursor it' hnext hunused hsplit b target hok =>
      rw [insertFrom_of_some entry de child hnext, if_neg hunused, if_pos hsplit, hok] at h
      exact Or.inr ⟨b, target, hmap h⟩
  | case6 it cursor it' hnext hunused hsplit ih =>
      rw [insertFrom_of_some entry de child hnext, if_neg hunused, if_neg hsplit] at h
      rcases ih h with ⟨hr, hd, hrun⟩ | hput
      · refine Or.inl ⟨hr, hd, fun de' => ?_⟩
        rw [insertFrom_of_some entry de' child hnext, if_neg hunused, if_neg hsplit]
        exact hrun de'
      · exact Or.inr hput

theorem insertEntry_version {d d' : DirectoryBlock} {entry : Bytes} {de : Option FileType}
    {child : Nat} {r : Bool} (h : d.insertEntry entry de child = .ok (r, d')) :
    d'.isVersion2 = d.isVersion2 := by
  rcases insertFrom_ok h with ⟨-, rfl, -⟩ | ⟨b, p, hput⟩
  · rfl
  · unfold put at hput
    split at hput
    case h_1 => cases hput
    case h_2 =>
      split at hput
      case h_1 => cases hput
      case h_2 =>
        cases hput
        rfl

/-- Without a type for V2 records, `set_type` panics: the call returns only where an
    entry of that name finds no record. -/
theorem insertFrom_none {d d' : DirectoryBlock} {it : DirectoryBlockIteratorMut} {entry : Bytes}
    {child : Nat} {r : Bool} (hv : d.isVersion2 = true)
    (h : d.insertFrom it entry none child = .ok (r, d')) (de : Option FileType) :
    r = false ∧ d' = d ∧ d.insertFrom it entry de child = .ok (false, d) := by
  rcases insertFrom_ok h with ⟨hr, hd, hrun⟩ | ⟨b, p, hput⟩
  · exact ⟨hr, hd, hrun de⟩
  · simp [put, setType, hv] at hput

/-! ## Removal -/

/-- What a removal does: the entry `e` of the record at `p` is gone. -/
structure Removed (d d' : DirectoryBlock) (p : Nat) (e : DirEntry) : Prop where
  version : d'.isVersion2 = d.isVersion2
  blkSize : d'.blkSize = d.blkSize
  tiles : ∃ ps, d'.TilesIn 0 ps d'.blkSize
  live : ∃ l r, d.live = l ++ (p, e) :: r ∧ d'.live = l ++ r

theorem WellFormed.removed {d d' : DirectoryBlock} {p : Nat} {e : DirEntry} (h : d.WellFormed)
    (hr : Removed d d' p e) : d'.WellFormed := by
  obtain ⟨ps, hps⟩ := hr.tiles
  refine ⟨by rw [hr.blkSize]; exact h.blkSize_lt, by rwa [positions_eq hps], ?_⟩
  obtain ⟨l, r, hd, hd'⟩ := hr.live
  intro x hx
  rw [hd', List.mem_append] at hx
  refine h.names x ?_
  rw [hd, List.mem_append]
  exact hx.imp_right (List.mem_cons_of_mem _)

/-- The removed entry was the last live one of a window whose other live entries stay. -/
theorem Removed.of_window {d d' : DirectoryBlock} {lo hi p : Nat} {e : DirEntry}
    {l mid mid' r : List Nat} {x : List (Nat × DirEntry)} (hv : d'.isVersion2 = d.isVersion2)
    (hlen : d'.inner.length = d.inner.length) (hl : d.TilesIn 0 l lo) (hmid : d.TilesIn lo mid hi)
    (hr : d.TilesIn hi r d.blkSize) (hbefore : SameOn d'.inner d.inner 0 lo)
    (hafter : SameOn d'.inner d.inner hi d.blkSize)
    (hmid' : Tiles (format d.isVersion2) d'.inner lo mid' hi)
    (hold : d.liveIn mid = x ++ [(p, e)])
    (hnew : RecordTiling.live (format d.isVersion2) d'.inner mid' = x) : Removed d d' p e := by
  have hall : d.TilesIn 0 (l ++ mid ++ r) d.blkSize :=
    RecordTiling.tiles_append.mpr ⟨hi, RecordTiling.tiles_append.mpr ⟨lo, hl, hmid⟩, hr⟩
  obtain ⟨ht, hlv⟩ := RecordTiling.tiles_replace hlen hl hr (Nat.le_refl _) hbefore hafter hmid'
  have hblk : d'.blkSize = d.blkSize := hlen
  have ht' : d'.TilesIn 0 (l ++ mid' ++ r) d'.blkSize := by
    rw [hblk, TilesIn, hv]
    exact ht
  refine ⟨hv, hblk, ⟨_, ht'⟩, d.liveIn l ++ x, d.liveIn r, ?_, ?_⟩
  · unfold liveIn at hold
    rw [DirectoryBlock.live, positions_eq hall, RecordTiling.live_append, RecordTiling.live_append,
      hold]
    simp
  · rw [DirectoryBlock.live, positions_eq ht', hv, hlv, hnew]

/-- Without a record before it, a destroyed record stays as an unused one. -/
theorem destroy_first {d : DirectoryBlock} {p : Nat} {r : List Nat} (hl : d.TilesIn 0 [] p)
    (hr : d.TilesIn p (p :: r) d.blkSize) (hused : getInode d.inner p ≠ 0) :
    Removed d (d.destroy { ppos := none, pos := p }).2 p (entryAt d.isVersion2 d.inner p) := by
  obtain ⟨-, hok, hrest⟩ := hr
  obtain ⟨h4, hname⟩ := format_ok.mp hok
  rw [format_len] at hrest
  have hle := hrest.le
  unfold blkSize at hle
  have hsame : ∀ {lo hi}, hi ≤ p ∨ p + 4 ≤ lo → SameOn (setInode d.inner p 0) d.inner lo hi :=
    ByteRw.writeU32_sameOn
  have hunused : getInode (setInode d.inner p 0) p = 0 := ByteRw.readU32_writeU32 (by omega)
  have hel : getEntryLen (setInode d.inner p 0) p = getEntryLen d.inner p :=
    ByteRw.readU16_congr (hsame (by omega))
  have hn : getNameLen d.isVersion2 (setInode d.inner p 0) p = getNameLen d.isVersion2 d.inner p :=
    getNameLen_congr (hsame (by omega))
  -- It keeps its length, and is dead.
  have hmid' : Tiles (format d.isVersion2) (setInode d.inner p 0) p [p]
      (p + getEntryLen d.inner p) := by
    refine ⟨rfl, format_ok.mpr ?_, by rw [format_len, hel]; rfl⟩
    rw [hel, hn]
    exact ⟨h4, hname⟩
  exact Removed.of_window rfl (ByteRw.length_writeU32 ..) hl
    (show d.TilesIn p [p] (p + getEntryLen d.inner p) from ⟨rfl, hok, rfl⟩) hrest
    (hsame (by omega)) (hsame (by omega)) hmid' (RecordTiling.live_cons_some (view_used hused))
    (RecordTiling.live_cons_none (view_unused hunused))

/-- With a record before it, a destroyed record becomes part of that record. -/
theorem destroy_next {d : DirectoryBlock} {pp p : Nat} {l r : List Nat} (hblk : d.blkSize < 2 ^ 16)
    (hlp : d.TilesIn 0 (l ++ [pp]) p) (hr : d.TilesIn p (p :: r) d.blkSize)
    (hused : getInode d.inner p ≠ 0) :
    Removed d (d.destroy { ppos := some pp, pos := p }).2 p (entryAt d.isVersion2 d.inner p) := by
  obtain ⟨m, hl, rfl, hokp, hpp⟩ := RecordTiling.tiles_append.mp hlp
  obtain ⟨-, hok, hrest⟩ := hr
  obtain ⟨h4, hname⟩ := format_ok.mp hok
  obtain ⟨h4p, hnamep⟩ := format_ok.mp hokp
  rw [format_len] at hrest hpp
  have hp : m + getEntryLen d.inner m = p := hpp
  have hle := hrest.le
  have hle' := hle
  unfold blkSize at hle'
  have hi0 : (setInode d.inner p 0).length = d.inner.length := ByteRw.length_writeU32 ..
  have hs0 : ∀ {lo hi}, hi ≤ p ∨ p + 4 ≤ lo → SameOn (setInode d.inner p 0) d.inner lo hi :=
    ByteRw.writeU32_sameOn
  have hlen0 : getEntryLen (setInode d.inner p 0) m = getEntryLen d.inner m :=
    ByteRw.readU16_congr (hs0 (by omega))
  -- The record before it swallows it.
  have hd' : (d.destroy { ppos := some m, pos := p }).2.inner = setEntryLen (setInode d.inner p 0) m
      (getEntryLen d.inner m + getEntryLen d.inner p) := by
    simp only [destroy, hlen0]
  have hs1 : ∀ {lo hi}, (hi ≤ m + 4 ∨ m + 6 ≤ lo) → hi ≤ p ∨ p + 4 ≤ lo →
      SameOn (d.destroy { ppos := some m, pos := p }).2.inner d.inner lo hi := by
    intro lo hi h1 h2
    rw [hd']
    exact (ByteRw.writeU16_sameOn (by omega)).trans (hs0 h2)
  have hel : getEntryLen (d.destroy { ppos := some m, pos := p }).2.inner m =
      getEntryLen d.inner m + getEntryLen d.inner p := by
    rw [hd', getEntryLen, setEntryLen, ByteRw.readU16_writeU16 (by omega),
      Nat.mod_eq_of_lt (by omega)]
  have hn : getNameLen d.isVersion2 (d.destroy { ppos := some m, pos := p }).2.inner m =
      getNameLen d.isVersion2 d.inner m := getNameLen_congr (hs1 (by omega) (by omega))
  have hent : entryAt d.isVersion2 (d.destroy { ppos := some m, pos := p }).2.inner m =
      entryAt d.isVersion2 d.inner m :=
    entryAt_congr (by rw [hd', setEntryLen, ByteRw.length_writeU16, hi0])
      (hs1 (by omega) (by omega)) (hs1 (by omega) (by omega)) (by omega)
  have hino : getInode (d.destroy { ppos := some m, pos := p }).2.inner m = getInode d.inner m :=
    ByteRw.readU32_congr (hs1 (by omega) (by omega))
  have hmid' : Tiles (format d.isVersion2) (d.destroy { ppos := some m, pos := p }).2.inner m [m]
      (p + getEntryLen d.inner p) := by
    refine ⟨rfl, format_ok.mpr ?_, ?_⟩
    · rw [hel, hn]
      exact ⟨by omega, by omega⟩
    · rw [format_len, hel]
      show _ = _
      omega
  refine Removed.of_window rfl (by rw [hd', setEntryLen, ByteRw.length_writeU16, hi0]) hl
    (show d.TilesIn m ([m] ++ [p]) (p + getEntryLen d.inner p) from
      ⟨rfl, hokp, by rw [format_len]; exact hp, hok, rfl⟩)
    hrest (hs1 (by omega) (by omega)) (hs1 (by omega) (by omega)) hmid' (x := d.liveIn [m]) ?_ ?_
  · unfold liveIn
    rw [RecordTiling.live_append, RecordTiling.live_cons_some (view_used hused)]
    rfl
  · unfold liveIn RecordTiling.live
    simp only [List.filterMap_cons, List.filterMap_nil, format, hino, hent]

theorem destroy_spec {d : DirectoryBlock} {p : Nat} {l r : List Nat} (hblk : d.blkSize < 2 ^ 16)
    (hl : d.TilesIn 0 l p) (hr : d.TilesIn p (p :: r) d.blkSize) (hused : getInode d.inner p ≠ 0) :
    Removed d (d.destroy { ppos := l.getLast?, pos := p }).2 p
      (entryAt d.isVersion2 d.inner p) := by
  cases hlast : l.getLast? with
  | none =>
      rw [List.getLast?_eq_none_iff.mp hlast] at hl
      exact destroy_first hl hr hused
  | some pp =>
      obtain ⟨l', rfl⟩ := List.getLast?_eq_some_iff.mp hlast
      exact destroy_next hblk hl hr hused

theorem destroy_fst (d : DirectoryBlock) (cursor : DirectoryBlockIteratorMutCursor) :
    (d.destroy cursor).1 = getInode d.inner cursor.pos := by
  unfold destroy
  split <;> rfl

/-- The removal loop passes over a record that is unused or has another name. -/
theorem removeFrom_pass {d : DirectoryBlock} {p : Nat} {ppos : Option Nat} {target name : Bytes}
    (hok : (format d.isVersion2).Ok d.inner p) (hle : p + getEntryLen d.inner p ≤ d.blkSize)
    (hname : getName d.isVersion2 d.inner p = .ok name)
    (hno : ¬ (name = target ∧ getInode d.inner p ≠ 0)) :
    d.removeFrom { pos := p, ppos := ppos } target =
      d.removeFrom { pos := p + getEntryLen d.inner p, ppos := some p } target := by
  rw [removeFrom_of_some target (iterMut_next ppos hok hle), hname]
  exact if_neg hno

/-- It destroys the live record of that name. -/
theorem removeFrom_found {d : DirectoryBlock} {p : Nat} {ppos : Option Nat} {target : Bytes}
    (hok : (format d.isVersion2).Ok d.inner p) (hle : p + getEntryLen d.inner p ≤ d.blkSize)
    (hname : getName d.isVersion2 d.inner p = .ok target) (hused : getInode d.inner p ≠ 0) :
    d.removeFrom { pos := p, ppos := ppos } target =
      .ok (some (getInode d.inner p), (d.destroy { ppos := ppos, pos := p }).2) := by
  rw [removeFrom_of_some target (iterMut_next ppos hok hle), hname]
  dsimp only
  rw [if_pos ⟨rfl, hused⟩, destroy_fst]

/-- The record is live and has the name. -/
def Hit (d : DirectoryBlock) (target : Bytes) (p : Nat) : Prop :=
  nameBytes d.isVersion2 d.inner p = target ∧ getInode d.inner p ≠ 0

/-- An unused record whose name is not valid UTF-8. -/
def Stale (d : DirectoryBlock) (p : Nat) : Prop :=
  getInode d.inner p = 0 ∧ utf8Valid (nameBytes d.isVersion2 d.inner p) = false

instance (d : DirectoryBlock) (target : Bytes) : DecidablePred (d.Hit target) := fun _ =>
  inferInstanceAs (Decidable (_ ∧ _))

instance (d : DirectoryBlock) : DecidablePred d.Stale := fun _ =>
  inferInstanceAs (Decidable (_ ∧ _))

/-- Up to the live record of the name, and up to the end where there is none, the names of
    the records are valid. -/
def DecodesBefore (d : DirectoryBlock) (target : Bytes) : List Nat → Prop
  | [] => True
  | p :: ps => ¬ d.Stale p ∧ (d.Hit target p ∨ d.DecodesBefore target ps)

instance decDecodesBefore (d : DirectoryBlock) (target : Bytes) :
    (ps : List Nat) → Decidable (d.DecodesBefore target ps)
  | [] => inferInstanceAs (Decidable True)
  | p :: ps =>
    have := decDecodesBefore d target ps
    inferInstanceAs (Decidable (¬ d.Stale p ∧ (d.Hit target p ∨ d.DecodesBefore target ps)))

/-- The removal loop stops at the first live record of that name; an unused record
    whose name is not valid stops it earlier with a panic. -/
theorem removeFrom_spec {d : DirectoryBlock} (h : d.WellFormed) (target : Bytes) {a : Nat}
    {l ps : List Nat} (hl : d.TilesIn 0 l a) (hps : d.TilesIn a ps d.blkSize) :
    (d.removeFrom { pos := a, ppos := l.getLast? } target = .error .panic ∧
      ¬ d.DecodesBefore target ps) ∨
    (d.DecodesBefore target ps ∧
      ((d.removeFrom { pos := a, ppos := l.getLast? } target = .ok (none, d) ∧
        ∀ e ∈ d.liveIn ps, e.2.name ≠ target) ∨
      ∃ p e d', d.removeFrom { pos := a, ppos := l.getLast? } target = .ok (some e.inode, d') ∧
        e.name = target ∧ Removed d d' p e)) := by
  -- On the records left; `l` are those the iterator has passed.
  induction ps generalizing a l with
  | nil =>
      obtain rfl : a = d.blkSize := hps
      exact Or.inr ⟨trivial, Or.inl ⟨removeFrom_of_none target (iterMut_end d _), by simp⟩⟩
  | cons p ps ih =>
      have hall := RecordTiling.tiles_append.mpr ⟨a, hl, hps⟩
      obtain ⟨rfl, hok, hrest⟩ := id hps
      rw [format_len] at hrest
      have hle := hrest.le
      have hbound : a + 8 + getNameLen d.isVersion2 d.inner a ≤ d.inner.length := by
        have := (format_ok.mp hok).2
        unfold blkSize at hle
        omega
      have hview : getInode d.inner a ≠ 0 →
          (a, entryAt d.isVersion2 d.inner a) ∈ d.live := by
        intro hused
        rw [live, positions_eq hall]
        exact RecordTiling.mem_live.mpr ⟨by simp, view_used hused⟩
      by_cases hvalid : utf8Valid (nameBytes d.isVersion2 d.inner a) = true
      · have hname : getName d.isVersion2 d.inner a = .ok (nameBytes d.isVersion2 d.inner a) :=
          if_pos ⟨hbound, hvalid⟩
        have hfresh : ¬ d.Stale a := fun hstale => Bool.noConfusion (hvalid.symm.trans hstale.2)
        by_cases hfound : nameBytes d.isVersion2 d.inner a = target ∧ getInode d.inner a ≠ 0
        · exact Or.inr ⟨⟨hfresh, Or.inl hfound⟩, Or.inr ⟨a, _, _,
            removeFrom_found hok hle (hfound.1 ▸ hname) hfound.2, hfound.1,
            destroy_spec h.blkSize_lt hl hps hfound.2⟩⟩
        · have hstep : d.removeFrom { pos := a, ppos := l.getLast? } target = _ :=
            removeFrom_pass hok hle hname hfound
          have hl' : d.TilesIn 0 (l ++ [a]) (a + getEntryLen d.inner a) :=
            RecordTiling.tiles_append.mpr ⟨a, hl, rfl, hok, rfl⟩
          have hih := ih hl' hrest
          rw [List.getLast?_concat] at hih
          rw [hstep]
          rcases hih with ⟨hpanic, hbad⟩ | ⟨hgood, ⟨hnone, hno⟩ | hsome⟩
          · exact Or.inl ⟨hpanic, fun hdec => hdec.2.elim hfound hbad⟩
          · refine Or.inr ⟨⟨hfresh, Or.inr hgood⟩, Or.inl ⟨hnone, ?_⟩⟩
            by_cases hused : getInode d.inner a = 0
            · unfold liveIn
              rwa [RecordTiling.live_cons_none (view_unused hused)]
            · unfold liveIn
              rw [RecordTiling.live_cons_some (view_used hused)]
              intro e he
              rcases List.mem_cons.mp he with rfl | he
              · exact fun hname => hfound ⟨hname, hused⟩
              · exact hno e he
          · exact Or.inr ⟨⟨hfresh, Or.inr hgood⟩, Or.inr hsome⟩
      · have hstep := removeFrom_of_some target (iterMut_next l.getLast? hok hle)
        rw [getName, if_neg fun hc => hvalid hc.2] at hstep
        have hunused : getInode d.inner a = 0 := by
          by_contra hused
          exact hvalid (h.names _ (hview hused))
        exact Or.inl ⟨hstep, fun hdec => hdec.1 ⟨hunused, by simpa using hvalid⟩⟩

end DirectoryBlock
end RustExt4.Directory
