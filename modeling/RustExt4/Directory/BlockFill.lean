/-
  RustExt4.Directory.BlockFill

  A cleared block that is filled by one insertion after the other: only the last
  record has room to spare, so that an entry fits exactly when the rounded sizes
  of all entries so far, its own included, stay within the block.
-/
import RustExt4.Directory.BlockInv

namespace RustExt4.Directory

open DirectoryEntryDispatch
open LeBytes (SameOn)
open RecordTiling (Tiles)

namespace DirectoryBlock

/-- The live entries without their positions. -/
def liveEntries (d : DirectoryBlock) : List DirEntry := d.live.map Prod.snd

/-- All records are used, and only the last one, at `q`, is longer than its name needs. -/
structure Packed (d : DirectoryBlock) (l : List Nat) (q : Nat) : Prop where
  tiles : d.TilesIn 0 (l ++ [q]) d.blkSize
  used : ∀ p ∈ l ++ [q], getInode d.inner p ≠ 0
  tight : ∀ p ∈ l, getEntryLen d.inner p = entrySize (getNameLen d.isVersion2 d.inner p)

/-- Where the last record of a packed block could be cut. -/
def fill (d : DirectoryBlock) (q : Nat) : Nat := q + entrySize (getNameLen d.isVersion2 d.inner q)

variable {d : DirectoryBlock} {l : List Nat} {q child : Nat} {entry : Bytes}
  {de : Option FileType}

theorem Packed.end_eq (h : Packed d l q) : q + getEntryLen d.inner q = d.blkSize := by
  obtain ⟨m, -, rfl, -, hend⟩ := RecordTiling.tiles_append.mp h.tiles
  exact hend

theorem Packed.takes_iff (h : Packed d l q) {p size : Nat} (hsize : 0 < size) (hp : p ∈ l ++ [q]) :
    d.Takes p size ↔ p = q ∧ d.fill q + size ≤ d.blkSize := by
  have hused := h.used p hp
  have hend := h.end_eq
  have hnot : d.takesUnused p size = false := by simp [takesUnused, hused]
  have hsplit : d.takesSplit p size = true ↔
      size + entrySize (getNameLen d.isVersion2 d.inner p) ≤ getEntryLen d.inner p := by
    simp [takesSplit, hused]
  rw [Takes, hnot, hsplit, fill]
  constructor
  · rintro (hf | hfit)
    · cases hf
    · rcases List.mem_append.mp hp with hpl | hpq
      · rw [h.tight p hpl] at hfit
        omega
      · obtain rfl := List.mem_singleton.mp hpq
        exact ⟨rfl, by omega⟩
  · rintro ⟨rfl, hfit⟩
    exact Or.inr (by omega)

/-- An insertion into a packed block. -/
theorem Packed.insert (h : Packed d l q) (hde : d.isVersion2 = true → de ≠ none)
    (hlen : entry.length ≤ 255) (hchild : child < 2 ^ 32) (hne : child ≠ 0)
    (hfit : d.fill q + entrySize entry.length ≤ d.blkSize) :
    ∃ d', d.insertEntry entry de child = .ok (true, d') ∧ d'.isVersion2 = d.isVersion2 ∧
      d'.blkSize = d.blkSize ∧ Packed d' (l ++ [q]) (d.fill q) ∧
      d'.fill (d.fill q) = d.fill q + entrySize entry.length ∧
      d'.liveEntries = d.liveEntries ++ [d.newEntry entry de child] := by
  have hsize := entrySize_spec entry.length
  obtain ⟨m, hl, hr⟩ := RecordTiling.tiles_append.mp h.tiles
  obtain rfl : m = q := hr.1
  have hsz := entrySize_spec (getNameLen d.isVersion2 d.inner m)
  -- Only the last record has slack, and it has enough.
  have htake : d.takesSplit m (entrySize entry.length) = true := by
    have hused := h.used m (by simp)
    have hend := h.end_eq
    simp only [takesSplit, decide_eq_true_eq]
    exact ⟨hused, by unfold fill at hfit; omega⟩
  have hle := hl.le
  have hno : ∀ p ∈ l, ¬ d.Takes p (entrySize entry.length) := by
    intro p hp htakes
    have hne := ((h.takes_iff (by omega) (List.mem_append_left _ hp)).mp htakes).1
    have hlt := (List.pairwise_append.mp h.tiles.sorted.2).2.2 p hp m (by simp)
    omega
  obtain ⟨ppos, hskip⟩ := insertFrom_skip none entry de child hl hr.le hno
  obtain ⟨d', hins, hv, hb, hlm, hs1, hs2, hn, hent, ht, hlv⟩ :=
    insertFrom_split ppos hde hlen hchild hne hl hr htake
  have hnew := congrArg (List.map Prod.snd) hlv
  rw [← positions_eq ht, List.map_append] at hnew
  refine ⟨d', by rw [insertEntry, hskip, hins], hv, hb, ⟨ht, ?_, ?_⟩, ?_, ?_⟩
  · intro p hp
    rcases List.mem_append.mp hp with hp | hp
    · have hpm : p ≤ m := by
        rcases List.mem_append.mp hp with hp | hp
        · have := (hl.mem hp).2
          omega
        · exact Nat.le_of_eq (List.mem_singleton.mp hp)
      rw [show getInode d'.inner p = getInode d.inner p from
        ByteRw.readU32_congr (hs1.mono (by omega) (by omega))]
      exact h.used p hp
    · rw [List.mem_singleton.mp hp]
      have := congrArg DirEntry.inode hent
      exact fun h0 => hne (this.symm.trans h0)
  · intro p hp
    rw [hv]
    rcases List.mem_append.mp hp with hp | hp
    · obtain ⟨hok, hpm⟩ := hl.mem hp
      have h8 := (format_ok.mp hok).2
      rw [format_len] at hpm
      rw [show getEntryLen d'.inner p = getEntryLen d.inner p from
        ByteRw.readU16_congr (hs1.mono (by omega) (by omega)),
        getNameLen_congr (hs1.mono (by omega) (by omega)), h.tight p hp]
    · rw [List.mem_singleton.mp hp, hlm, getNameLen_congr hs2]
  · change getNameLen d.isVersion2 d'.inner (d.fill m) = entry.length at hn
    rw [fill, hv, hn]
  · rw [← positions_eq h.tiles] at hnew
    exact hnew

/-- An entry that passes the end of a packed block changes nothing. -/
theorem Packed.insert_full (h : Packed d l q)
    (hfull : d.blkSize < d.fill q + entrySize entry.length) :
    d.insertEntry entry de child = .ok (false, d) := by
  refine insertEntry_of_not_takes de child h.tiles fun p hp htakes => ?_
  have hsize := entrySize_spec entry.length
  have := ((h.takes_iff (by omega) hp).mp htakes).2
  omega

/-! ## The cleared block -/

/-- `clear` makes one unused record; bytes 6 and 7 of the old content stay. -/
theorem clear_spec (hlo : 8 ≤ d.blkSize) (hhi : d.blkSize < 2 ^ 16) :
    d.clear.blkSize = d.blkSize ∧ getInode d.clear.inner 0 = 0 ∧
      getEntryLen d.clear.inner 0 = d.blkSize ∧ SameOn d.clear.inner d.inner 6 d.blkSize := by
  -- Three writes: the inode number, the length, and half of the inode number again.
  have hl1 : (ByteRw.writeU32 d.inner 0 0).length = d.inner.length := ByteRw.length_writeU32 ..
  have hl2 : (ByteRw.writeU16 (ByteRw.writeU32 d.inner 0 0) 4 d.blkSize).length =
      d.inner.length := by rw [ByteRw.length_writeU16, hl1]
  unfold blkSize at hlo hhi hl2 ⊢
  refine ⟨by rw [clear, ByteRw.length_writeU16]; exact hl2, ?_, ?_, ?_⟩
  · -- The last write is to the low half of the inode number, which is 0 already.
    have hadd : ∀ b : Bytes, LeBytes.readLe b 0 4 =
        LeBytes.readLe b 0 2 + 256 ^ 2 * LeBytes.readLe b 2 2 := fun b => LeBytes.readLe_add b 0 2 2
    have hsplit := hadd (ByteRw.writeU32 d.inner 0 0)
    have hread := hadd d.clear.inner
    have hzero : LeBytes.readLe (ByteRw.writeU32 d.inner 0 0) 0 4 = 0 :=
      ByteRw.readU32_writeU32 (by omega)
    have hhigh : LeBytes.readLe d.clear.inner 2 2 =
        LeBytes.readLe (ByteRw.writeU32 d.inner 0 0) 2 2 :=
      LeBytes.readLe_congr ((ByteRw.writeU16_sameOn (by omega)).trans
        (ByteRw.writeU16_sameOn (by omega)))
    have hlow : LeBytes.readLe d.clear.inner 0 2 = 0 :=
      ByteRw.readU16_writeU16 (by rw [ByteRw.length_writeU16]; omega)
    change LeBytes.readLe d.clear.inner 0 4 = 0
    omega
  · rw [getEntryLen, clear, ByteRw.readU16_congr (ByteRw.writeU16_sameOn (by omega)), blkSize,
      ByteRw.readU16_writeU16 (by omega), Nat.mod_eq_of_lt hhi]
  · exact (ByteRw.writeU16_sameOn (by omega)).trans
      ((ByteRw.writeU16_sameOn (by omega)).trans (ByteRw.writeU32_sameOn (by omega)))

/-- The one record of a cleared block is well-formed where the stale name length fits. -/
theorem clear_tiles (hlo : 8 ≤ d.blkSize) (hhi : d.blkSize < 2 ^ 16) (h4 : 4 ∣ d.blkSize)
    (hname : 8 + getNameLen d.isVersion2 d.inner 0 ≤ d.blkSize) :
    d.clear.TilesIn 0 [0] d.clear.blkSize := by
  obtain ⟨hblk, -, hlen, hsame⟩ := clear_spec hlo hhi
  refine ⟨rfl, format_ok.mpr ?_, ?_⟩
  · rw [hlen, getNameLen_congr (hsame.mono (by omega) (by omega))]
    exact ⟨h4, hname⟩
  · rw [format_len, hlen, hblk, Nat.zero_add]
    rfl

theorem clear_live (hlo : 8 ≤ d.blkSize) (hhi : d.blkSize < 2 ^ 16)
    (ht : d.clear.TilesIn 0 [0] d.clear.blkSize) : d.clear.liveEntries = [] := by
  rw [liveEntries, live, positions_eq ht,
    RecordTiling.live_cons_none (view_unused (clear_spec hlo hhi).2.1)]
  rfl

/-- A stale name length that does not fit is an error at the first insertion. -/
theorem clear_insert_error (hlo : 8 ≤ d.blkSize) (hhi : d.blkSize < 2 ^ 16)
    (hname : ¬ 8 + getNameLen d.isVersion2 d.inner 0 ≤ d.blkSize) :
    d.clear.insertEntry entry de child = .error (.err ErrDirectoryBlock) := by
  obtain ⟨hblk, -, hlen, hsame⟩ := clear_spec hlo hhi
  have hn : getNameLen d.clear.isVersion2 d.clear.inner 0 = getNameLen d.isVersion2 d.inner 0 :=
    getNameLen_congr (hsame.mono (by omega) (by omega))
  have hnext : DirectoryBlockIteratorMut.next d.clear {} =
      (some (.error ErrDirectoryBlock), { stopped := true }) := by
    rw [DirectoryBlockIteratorMut.next, if_pos ⟨rfl, by simp only; omega⟩, if_neg]
    rw [hn, hlen]
    omega
  exact insertFrom_of_error entry de child hnext

/-- A stale checksum type keeps every entry out. -/
theorem clear_insert_checkSum (hlo : 8 ≤ d.blkSize) (hhi : d.blkSize < 2 ^ 16)
    (ht : d.clear.TilesIn 0 [0] d.clear.blkSize)
    (hsum : getFileType d.isVersion2 d.inner 0 = some .checkSum) :
    d.clear.insertEntry entry de child = .ok (false, d.clear) := by
  obtain ⟨hblk, hino, hlen, hsame⟩ := clear_spec hlo hhi
  have hty : getFileType d.clear.isVersion2 d.clear.inner 0 = some .checkSum := by
    rw [show d.clear.isVersion2 = d.isVersion2 from rfl,
      getFileType_congr (hsame.mono (by omega) (by omega)), hsum]
  refine insertEntry_of_not_takes de child ht fun p hp htakes => ?_
  obtain rfl := List.mem_singleton.mp hp
  rcases htakes with htake | htake
  · simp [takesUnused, hty] at htake
  · simp [takesSplit, hino] at htake

/-- The first entry of a cleared block takes its one record. -/
theorem clear_insert (hhi : d.blkSize < 2 ^ 16) (hde : d.isVersion2 = true → de ≠ none)
    (hlen : entry.length ≤ 255) (hchild : child < 2 ^ 32) (hne : child ≠ 0)
    (hfit : entrySize entry.length ≤ d.blkSize) (ht : d.clear.TilesIn 0 [0] d.clear.blkSize)
    (hsum : getFileType d.isVersion2 d.inner 0 ≠ some .checkSum) :
    ∃ d', d.clear.insertEntry entry de child = .ok (true, d') ∧ d'.isVersion2 = d.isVersion2 ∧
      d'.blkSize = d.blkSize ∧ Packed d' [] 0 ∧ d'.fill 0 = entrySize entry.length ∧
      d'.liveEntries = [d.newEntry entry de child] := by
  have hsize := entrySize_spec entry.length
  have hlo : 8 ≤ d.blkSize := by omega
  obtain ⟨hblk, hino, hel, hsame⟩ := clear_spec hlo hhi
  have htake : d.clear.takesUnused 0 (entrySize entry.length) = true := by
    simp only [takesUnused, decide_eq_true_eq]
    refine ⟨hino, ?_, by rw [hel]; exact hfit⟩
    rw [show d.clear.isVersion2 = d.isVersion2 from rfl,
      getFileType_congr (hsame.mono (by omega) (by omega))]
    exact hsum
  obtain ⟨d', hins, hw, ht', -, hlv⟩ :=
    insertFrom_unused none (show d.clear.isVersion2 = true → de ≠ none from hde) hlen hchild hne
      (show d.clear.TilesIn 0 [] 0 from rfl) ht htake
  have hused : getInode d'.inner 0 ≠ 0 := by
    have := congrArg DirEntry.inode hw.entry
    exact fun h0 => hne (this.symm.trans h0)
  refine ⟨d', hins, hw.version, hw.length.trans hblk, ⟨ht', ?_, by simp⟩, ?_, ?_⟩
  · intro p hp
    rw [List.nil_append, List.mem_singleton] at hp
    rw [hp]
    exact hused
  · rw [fill, hw.version, hw.nameLen]
    exact Nat.zero_add _
  · rw [← positions_eq ht'] at hlv
    exact congrArg (List.map Prod.snd) hlv

/-- The one record of a packed block, as an iteration gives it. -/
theorem Packed.single {e : DirEntry} (h : Packed d [] 0) (hlive : d.liveEntries = [e]) :
    DirectoryBlockIterator.collect d {} = .ok [0] ∧ entryAt d.isVersion2 d.inner 0 = e := by
  have ht : d.TilesIn 0 [0] d.blkSize := h.tiles
  have hone : RecordTiling.live (format d.isVersion2) d.inner [0] =
      [(0, entryAt d.isVersion2 d.inner 0)] :=
    RecordTiling.live_cons_some (view_used (h.used 0 (by simp)))
  constructor
  · rw [collect_iter ht, hone]
    rfl
  · rw [liveEntries, live, positions_eq ht, hone] at hlive
    exact (List.cons.inj hlive).1

/-- A cleared block takes any first entry exactly where the two bytes that `clear` does not
    write, 6 and 7, are a name length that fits the block and not the type of a checksum. -/
theorem clear_usable_iff (d : DirectoryBlock)
    (hsize : d.blkSize = 1024 ∨ d.blkSize = 2048 ∨ d.blkSize = 4096) :
    (DirectoryBlockIterator.collect d.clear {} = .ok [] ∧
      ∀ (entry : Bytes) (ft : FileType) (child : Nat), 1 ≤ entry.length → entry.length ≤ 255 →
        child < 2 ^ 32 → child ≠ 0 →
        ∃ d', d.clear.insertEntry entry (some ft) child = .ok (true, d') ∧
          DirectoryBlockIterator.collect d' {} = .ok [0] ∧
          entryAt d'.isVersion2 d'.inner 0 = d.newEntry entry (some ft) child) ↔
      8 + getNameLen d.isVersion2 d.inner 0 ≤ d.blkSize ∧
        getFileType d.isVersion2 d.inner 0 ≠ some .checkSum := by
  have h4 : 4 ∣ d.blkSize := by omega
  constructor
  · rintro ⟨-, hinsert⟩
    obtain ⟨d', hins, -⟩ := hinsert [0x61] .regularFile 1 (by decide) (by decide) (by decide)
      (by decide)
    have hname : 8 + getNameLen d.isVersion2 d.inner 0 ≤ d.blkSize := by
      by_contra hlong
      rw [clear_insert_error (by omega) (by omega) hlong] at hins
      cases hins
    refine ⟨hname, fun hsum => ?_⟩
    have ht := clear_tiles (by omega) (by omega) h4 hname
    rw [clear_insert_checkSum (by omega) (by omega) ht hsum] at hins
    cases hins
  · rintro ⟨hname, hsum⟩
    have ht := clear_tiles (by omega) (by omega) h4 hname
    -- The cleared block has the one record, and that is unused.
    have hunused : (format d.clear.isVersion2).view d.clear.inner 0 = none :=
      view_unused (clear_spec (by omega) (by omega)).2.1
    refine ⟨?_, fun entry ft child hpos hlen hchild hne => ?_⟩
    · rw [collect_iter ht, RecordTiling.live_cons_none hunused]
      rfl
    · have hfit := entrySize_spec entry.length
      obtain ⟨d', hins, -, -, hpacked, -, hlive⟩ := clear_insert (by omega)
        (fun _ => Option.some_ne_none ft) hlen hchild hne (by omega) ht hsum
      obtain ⟨hiter, hentry⟩ := hpacked.single hlive
      exact ⟨d', hins, hiter, hentry⟩

/-- A block of zeros. -/
theorem clear_usable_iff_zeros : ∃ d',
    (clear { inner := List.replicate 1024 0, isVersion2 := true }).insertEntry [0x61]
      (some .regularFile) 12 = .ok (true, d') ∧
      DirectoryBlockIterator.collect d' {} = .ok [0] := by
  have hcond : 8 + getNameLen true (List.replicate 1024 0) 0 ≤ 1024 ∧
      getFileType true (List.replicate 1024 0) 0 ≠ some .checkSum := by decide +kernel
  have hiff := clear_usable_iff { inner := List.replicate 1024 0, isVersion2 := true }
    (Or.inl (List.length_replicate ..))
  rw [blkSize, List.length_replicate] at hiff
  obtain ⟨d', hins, hiter, -⟩ := (hiff.mpr hcond).2 [0x61] .regularFile 12 (by decide) (by decide)
    (by decide) (by decide)
  exact ⟨d', hins, hiter⟩

/-- What is left of a checksum record at the start of a block keeps every entry out. -/
theorem clear_keeps_checkSum : ¬ ∀ d : DirectoryBlock,
    d.blkSize = 1024 ∨ d.blkSize = 2048 ∨ d.blkSize = 4096 →
    ∀ (entry : Bytes) (ft : FileType) (child : Nat), 1 ≤ entry.length → entry.length ≤ 255 →
      child < 2 ^ 32 → child ≠ 0 →
      ∃ d', d.clear.insertEntry entry (some ft) child = .ok (true, d') := by
  intro hall
  have hlen : ([0, 0, 0, 0, 12, 0, 0, 0xDE] ++ List.replicate 1016 0 : Bytes).length = 1024 := by
    rw [List.length_append, List.length_replicate]
    rfl
  obtain ⟨d', hins⟩ := hall
    { inner := [0, 0, 0, 0, 12, 0, 0, 0xDE] ++ List.replicate 1016 0, isVersion2 := true }
    (Or.inl hlen) [0x61] .regularFile 12 (by decide) (by decide) (by decide) (by decide)
  have hsum : getFileType true ([0, 0, 0, 0, 12, 0, 0, 0xDE] ++ List.replicate 1016 0) 0 =
    some .checkSum := by decide +kernel
  have hname : 8 + getNameLen true ([0, 0, 0, 0, 12, 0, 0, 0xDE] ++ List.replicate 1016 0) 0 ≤
    1024 := by decide +kernel
  rw [clear_insert_checkSum (by rw [blkSize, hlen]; decide) (by rw [blkSize, hlen]; decide)
    (clear_tiles (by rw [blkSize, hlen]; decide) (by rw [blkSize, hlen]; decide)
      (by rw [blkSize, hlen]; decide) (by rw [blkSize, hlen]; exact hname)) hsum] at hins
  cases hins

end DirectoryBlock
end RustExt4.Directory
