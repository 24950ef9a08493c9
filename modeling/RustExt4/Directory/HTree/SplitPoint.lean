/-
  RustExt4.Directory.HTree.SplitPoint

  The search for the split point in `split_data` (`directory/htree/node.rs`).  It
  adds up the names of the entries and needs more than half a block of them, while
  `insert_entry` refuses a name for want of one gap that is large enough: a block
  whose gaps are many and small can refuse a name and have no split point.
-/
import RustExt4.Directory.HTree.Split

namespace RustExt4.Directory.HTree

open DirectoryEntryDispatch

/-! ## The split point -/

/-- The entries that `split_data` has collected and sorted when it looks for the split
    point. -/
def collected (hashOf : Bytes → Nat) (dblk : DirectoryBlock) (en : DirEntry) :
    Except Fault (List (Nat × DirEntry)) :=
  (gather (fun name => .ok (hashOf name)) dblk {} []).map
    (SortedMap.insert (hashOf en.name) en)

/-- The search finds an index that leaves entries on both sides. -/
def HasSplitPoint (hashOf : Bytes → Nat) (dblk : DirectoryBlock) (en : DirEntry) : Prop :=
  ∃ entries newHash idx, collected hashOf dblk en = .ok entries ∧
    findHalf dblk.blkSize entries 0 u32Max 0 = some (newHash, idx) ∧ 0 < idx ∧
    idx < entries.length

/-- The bytes that the search counts for an entry. -/
def nameSize (e : DirEntry) : Nat := e.name.length + 8

variable {hashOf : Bytes → Nat} {d : DirectoryBlock} {en : DirEntry}

theorem collected_eq (hd : d.WellFormed) (hashOf : Bytes → Nat) (en : DirEntry) :
    collected hashOf d en = .ok (entryMap hashOf d en) := by
  have hgather : gather (fun name => .ok (hashOf name)) d {} [] =
      .ok (SortedMap.insertAll (hashKey hashOf) d.liveEntries []) :=
    (gather_live hd).mpr ⟨fun e _ => ⟨_, rfl⟩, rfl⟩
  rw [collected, hgather, Except.map, insert_entryMap]

/-- The search ends where the sum passes half the block. -/
theorem findHalf_isSome_iff {blkSize used phash idx : Nat} {entries : List (Nat × DirEntry)}
    (hused : used ≤ blkSize / 2) :
    (findHalf blkSize entries used phash idx).isSome ↔
      blkSize / 2 < used + ((entries.map Prod.snd).map nameSize).sum := by
  induction entries generalizing used phash idx with
  | nil =>
      simp only [findHalf, List.map_nil, List.sum_nil, Option.isSome_none, Bool.false_eq_true,
        false_iff]
      omega
  | cons x entries ih =>
      obtain ⟨hash, en⟩ := x
      rw [findHalf, List.map_cons, List.map_cons, List.sum_cons, nameSize]
      by_cases hcut : blkSize / 2 < used + (en.name.length + 8)
      · rw [if_pos hcut]
        apply iff_of_true rfl
        dsimp only
        omega
      · rw [if_neg hcut, ih (Nat.le_of_not_lt hcut), Nat.add_assoc]

/-- With distinct hashes the map holds each entry once. -/
theorem sum_entryMap (hashes : ((allEntries d en).map (hashKey hashOf)).Nodup) :
    (((entryMap hashOf d en).map Prod.snd).map nameSize).sum =
      ((allEntries d en).map nameSize).sum := by
  have hperm := (SortedMap.insertAll_perm (m := []) (K := Nat) (by
    rw [List.map_nil, List.nil_append]
    exact hashes)).map Prod.snd
  rw [List.nil_append, List.map_map] at hperm
  have hid : (allEntries d en).map (Prod.snd ∘ fun e => (hashKey hashOf e, e)) =
      allEntries d en := List.map_id _
  rw [hid] at hperm
  exact (hperm.map nameSize).sum_nat

theorem findHalf_entryMap (hashes : ((allEntries d en).map (hashKey hashOf)).Nodup) :
    (findHalf d.blkSize (entryMap hashOf d en) 0 u32Max 0).isSome ↔
      d.blkSize / 2 < ((allEntries d en).map nameSize).sum := by
  rw [← sum_entryMap hashes, findHalf_isSome_iff (Nat.zero_le _), Nat.zero_add]

/-! ## Small gaps -/

/-- The name of `n` times a letter. -/
def repeated (n : Nat) (c : Char) : Bytes := nameOf (List.replicate n c)

theorem length_repeated (n : Nat) {c : Char} (h : (String.utf8EncodeChar c).length = 1) :
    (repeated n c).length = n := length_nameOf_replicate n h

/-- A record of a regular file. -/
def fileRecord (ino lenLo lenHi : UInt8) (name : Bytes) (pad : Nat) : Bytes :=
  [ino, 0, 0, 0, lenLo, lenHi, name.length.toUInt8, 1] ++ name ++ List.replicate pad 0

@[simp] theorem length_fileRecord (ino lenLo lenHi : UInt8) (name : Bytes) (pad : Nat) :
    (fileRecord ino lenLo lenHi name pad).length = 8 + name.length + pad := by
  simp only [fileRecord, List.length_append, List.length_cons, List.length_nil,
    List.length_replicate]

/-- Three names of 75 bytes with two of 252 bytes between them. -/
def fiveInserts : List Op :=
  [.insert (repeated 75 'a') .regularFile 12, .insert (repeated 252 'b') .regularFile 13,
    .insert (repeated 75 'c') .regularFile 14, .insert (repeated 252 'd') .regularFile 15,
    .insert (repeated 75 'e') .regularFile 16]

/-- The block after the insertions. -/
def fiveFiles : DirectoryBlock where
  isVersion2 := true
  inner := fileRecord 12 84 0 (repeated 75 'a') 1 ++ fileRecord 13 4 1 (repeated 252 'b') 0 ++
    fileRecord 14 84 0 (repeated 75 'c') 1 ++ fileRecord 15 4 1 (repeated 252 'd') 0 ++
    fileRecord 16 80 1 (repeated 75 'e') 253

/-- The first long name is gone, and its record belongs to the one before it. -/
def fourFiles : DirectoryBlock where
  isVersion2 := true
  inner := fileRecord 12 88 1 (repeated 75 'a') 1 ++ fileRecord 0 4 1 (repeated 252 'b') 0 ++
    fileRecord 14 84 0 (repeated 75 'c') 1 ++ fileRecord 15 4 1 (repeated 252 'd') 0 ++
    fileRecord 16 80 1 (repeated 75 'e') 253

/-- Both are gone: no gap is larger than 260 bytes. -/
def threeFiles : DirectoryBlock where
  isVersion2 := true
  inner := fileRecord 12 88 1 (repeated 75 'a') 1 ++ fileRecord 0 4 1 (repeated 252 'b') 0 ++
    fileRecord 14 88 1 (repeated 75 'c') 1 ++ fileRecord 0 4 1 (repeated 252 'd') 0 ++
    fileRecord 16 80 1 (repeated 75 'e') 253

/-- The record at `p` of a block with types: its length, its name and its inode. -/
structure RecordIs (d : DirectoryBlock) (p len : Nat) (name : Bytes) (ino : Nat) : Prop where
  version : d.isVersion2 = true
  len_eq : getEntryLen d.inner p = len
  ok : 4 ∣ len ∧ 8 + name.length ≤ len ∧ p + len ≤ d.blkSize
  name_eq : getNameLen true d.inner p = name.length ∧ nameBytes true d.inner p = name
  inode_eq : getInode d.inner p = ino

namespace RecordIs

variable {p len ino : Nat} {name target : Bytes} {ppos : Option Nat}

/-- A record reads as it was written, whatever stands before and after it. -/
theorem of_fileRecord (d : DirectoryBlock) (pre : Bytes) {post : Bytes} {ino lenLo lenHi : UInt8}
    {pad : Nat} (hinner : d.inner = pre ++ (fileRecord ino lenLo lenHi name pad ++ post))
    (hv : d.isVersion2 = true) (hp : pre.length = p) (hname : name.length ≤ 255)
    (hlen : lenLo.toNat + 256 * lenHi.toNat = len)
    (hok : 4 ∣ len ∧ 8 + name.length ≤ len ∧ p + len ≤ d.blkSize) :
    RecordIs d p len name ino.toNat := by
  subst hp
  rw [← List.append_assoc] at hinner
  have hmoved : LeBytes.Moved d.inner pre.length (fileRecord ino lenLo lenHi name pad) 0
      (8 + name.length + pad) := by
    rw [hinner, ← length_fileRecord ino lenLo lenHi name pad]
    exact LeBytes.moved_append _ _ _
  have hnameLen : getNameLen true d.inner pre.length = name.length := by
    have h6 : LeBytes.byteAt d.inner (pre.length + 6) = name.length.toUInt8.toNat :=
      congrArg UInt8.toNat (hmoved 6 (by omega))
    rw [getNameLen, if_pos rfl, ByteRw.readU8, h6]
    exact Nat.mod_eq_of_lt (by omega)
  refine ⟨hv, ?_, hok, ⟨hnameLen, ?_⟩, ?_⟩
  · have h4 := LeBytes.readLe_moved (hmoved.window (i := 4) (m := 2) (by omega))
    rw [getEntryLen, ByteRw.readU16, h4, ← hlen]
    rfl
  · rw [nameBytes, hnameLen, hinner,
      LeBytes.slice_append _ _ (by rw [length_fileRecord]; omega), fileRecord]
    exact List.take_left ..
  · have h0 := LeBytes.readLe_moved (hmoved.window (i := 0) (m := 4) (by omega))
    rw [Nat.add_zero] at h0
    rw [getInode, ByteRw.readU32, h0]
    rfl

theorem format_ok (h : RecordIs d p len name ino) : (format d.isVersion2).Ok d.inner p := by
  rw [Directory.format_ok, h.version, h.len_eq, h.name_eq.1]
  exact ⟨h.ok.1, h.ok.2.1⟩

theorem getName_eq (h : RecordIs d p len name ino) (hvalid : utf8Valid name = true) :
    getName d.isVersion2 d.inner p = .ok name := by
  have hle := h.ok
  rw [h.version, getName, h.name_eq.1, h.name_eq.2, if_pos]
  exact ⟨by unfold DirectoryBlock.blkSize at hle; omega, hvalid⟩

theorem pass (h : RecordIs d p len name ino) (hvalid : utf8Valid name = true)
    (hne : name ≠ target) : d.removeFrom { pos := p, ppos := ppos } target =
      d.removeFrom { pos := p + len, ppos := some p } target := by
  have hle : p + getEntryLen d.inner p ≤ d.blkSize := h.len_eq ▸ h.ok.2.2
  rw [DirectoryBlock.removeFrom_pass h.format_ok hle (h.getName_eq hvalid) fun hc => hne hc.1,
    h.len_eq]

theorem found (h : RecordIs d p len name ino) (hvalid : utf8Valid name = true) (hused : ino ≠ 0) :
    d.removeFrom { pos := p, ppos := ppos } name =
      .ok (some ino, (d.destroy { ppos := ppos, pos := p }).2) := by
  have hle : p + getEntryLen d.inner p ≤ d.blkSize := h.len_eq ▸ h.ok.2.2
  rw [DirectoryBlock.removeFrom_found h.format_ok hle (h.getName_eq hvalid) (h.inode_eq ▸ hused),
    h.inode_eq]

/-- A used record with too small a gap takes no entry. -/
theorem not_takes {size : Nat} (h : RecordIs d p len name ino) (hused : ino ≠ 0)
    (hgap : len < size + entrySize name.length) : ¬ d.Takes p size := by
  unfold DirectoryBlock.Takes DirectoryBlock.takesUnused DirectoryBlock.takesSplit
  rw [h.version, h.len_eq, h.name_eq.1, h.inode_eq]
  rintro (htakes | htakes)
  · exact hused (of_decide_eq_true htakes).1
  · exact absurd (of_decide_eq_true htakes).2 (Nat.not_le_of_lt hgap)

end RecordIs

theorem repeated_valid (n : Nat) (c : Char) : utf8Valid (repeated n c) = true :=
  utf8Valid_of_chars _

theorem repeated_ne {m n : Nat} {c c' : Char} (hc : (String.utf8EncodeChar c).length = 1)
    (hc' : (String.utf8EncodeChar c').length = 1) (h : m ≠ n) : repeated m c ≠ repeated n c' := by
  intro heq
  have hlen := congrArg List.length heq
  rw [length_repeated m hc, length_repeated n hc'] at hlen
  exact h hlen

theorem fiveFiles_blkSize : fiveFiles.blkSize = 1024 := by
  simp (disch := decide) only [DirectoryBlock.blkSize, fiveFiles, List.length_append,
    length_fileRecord, length_repeated]

theorem fourFiles_blkSize : fourFiles.blkSize = 1024 := by
  simp (disch := decide) only [DirectoryBlock.blkSize, fourFiles, List.length_append,
    length_fileRecord, length_repeated]

theorem threeFiles_blkSize : threeFiles.blkSize = 1024 := by
  simp (disch := decide) only [DirectoryBlock.blkSize, threeFiles, List.length_append,
    length_fileRecord, length_repeated]

/-- A record with a name of one letter, in a block of 1024 bytes. -/
theorem RecordIs.of_repeated {p len n pad : Nat} {c : Char} {post : Bytes}
    {ino lenLo lenHi : UInt8} (d : DirectoryBlock) (pre : Bytes)
    (hc : (String.utf8EncodeChar c).length = 1)
    (hinner : d.inner = pre ++ (fileRecord ino lenLo lenHi (repeated n c) pad ++ post))
    (hv : d.isVersion2 = true) (hblk : d.blkSize = 1024) (hp : pre.length = p) (hn : n ≤ 255)
    (hlen : lenLo.toNat + 256 * lenHi.toNat = len) (hok : 4 ∣ len ∧ 8 + n ≤ len ∧ p + len ≤ 1024) :
    RecordIs d p len (repeated n c) ino.toNat := by
  refine .of_fileRecord d pre hinner hv hp ?_ hlen ?_ <;> rw [length_repeated n hc]
  · exact hn
  · rwa [hblk]

theorem fiveFiles_records : RecordIs fiveFiles 0 84 (repeated 75 'a') 12 ∧
    RecordIs fiveFiles 84 260 (repeated 252 'b') 13 := by
  constructor
  · exact .of_repeated fiveFiles [] rfl (by simp only [fiveFiles, List.append_assoc]; rfl) rfl
      fiveFiles_blkSize rfl (by decide) rfl (by decide)
  · refine .of_repeated fiveFiles (fileRecord 12 84 0 (repeated 75 'a') 1) rfl
      (by simp only [fiveFiles, List.append_assoc]; rfl) rfl fiveFiles_blkSize ?_ (by decide) rfl ?_
    · rw [length_fileRecord, length_repeated 75 rfl]
    · decide

theorem fourFiles_records : RecordIs fourFiles 0 344 (repeated 75 'a') 12 ∧
    RecordIs fourFiles 344 84 (repeated 75 'c') 14 ∧
    RecordIs fourFiles 428 260 (repeated 252 'd') 15 := by
  refine ⟨?_, ?_, ?_⟩
  · exact .of_repeated fourFiles [] rfl (by simp only [fourFiles, List.append_assoc]; rfl) rfl
      fourFiles_blkSize rfl (by decide) rfl (by decide)
  · refine .of_repeated fourFiles
      (fileRecord 12 88 1 (repeated 75 'a') 1 ++ fileRecord 0 4 1 (repeated 252 'b') 0) rfl
      (by simp only [fourFiles, List.append_assoc]; rfl) rfl fourFiles_blkSize ?_ (by decide) rfl ?_
    · simp (disch := decide) only [List.length_append, length_fileRecord, length_repeated]
    · decide
  · refine .of_repeated fourFiles
      (fileRecord 12 88 1 (repeated 75 'a') 1 ++ fileRecord 0 4 1 (repeated 252 'b') 0 ++
        fileRecord 14 84 0 (repeated 75 'c') 1) rfl
      (by simp only [fourFiles, List.append_assoc]; rfl) rfl fourFiles_blkSize ?_ (by decide) rfl ?_
    · simp (disch := decide) only [List.length_append, length_fileRecord, length_repeated]
    · decide

/-- The records of the block with small gaps. -/
theorem threeFiles_records : RecordIs threeFiles 0 344 (repeated 75 'a') 12 ∧
    RecordIs threeFiles 344 344 (repeated 75 'c') 14 ∧
    RecordIs threeFiles 688 336 (repeated 75 'e') 16 := by
  refine ⟨?_, ?_, ?_⟩
  · exact .of_repeated threeFiles [] rfl (by simp only [threeFiles, List.append_assoc]; rfl) rfl
      threeFiles_blkSize rfl (by decide) rfl (by decide)
  · refine .of_repeated threeFiles
      (fileRecord 12 88 1 (repeated 75 'a') 1 ++ fileRecord 0 4 1 (repeated 252 'b') 0) rfl
      (by simp only [threeFiles, List.append_assoc]; rfl) rfl threeFiles_blkSize ?_ (by decide)
      rfl ?_
    · simp (disch := decide) only [List.length_append, length_fileRecord, length_repeated]
    · decide
  · refine .of_repeated threeFiles
      (fileRecord 12 88 1 (repeated 75 'a') 1 ++ fileRecord 0 4 1 (repeated 252 'b') 0 ++
        fileRecord 14 88 1 (repeated 75 'c') 1 ++ fileRecord 0 4 1 (repeated 252 'd') 0) rfl
      (by rw [List.append_nil]; rfl) rfl threeFiles_blkSize ?_ (by decide) rfl ?_
    · simp (disch := decide) only [List.length_append, length_fileRecord, length_repeated]
    · decide

theorem remove_fiveFiles :
    fiveFiles.removeEntry (repeated 252 'b') = .ok (some 13, fourFiles) := by
  obtain ⟨h0, h1⟩ := fiveFiles_records
  have hd : (fiveFiles.destroy { ppos := some 0, pos := 84 }).2 = fourFiles := by decide +kernel
  rw [← hd]
  exact (h0.pass (repeated_valid 75 'a') (repeated_ne rfl rfl (by decide))).trans
    (h1.found (repeated_valid 252 'b') (by decide))

theorem remove_fourFiles :
    fourFiles.removeEntry (repeated 252 'd') = .ok (some 15, threeFiles) := by
  obtain ⟨h0, h1, h2⟩ := fourFiles_records
  have hd : (fourFiles.destroy { ppos := some 344, pos := 428 }).2 = threeFiles := by
    decide +kernel
  rw [← hd]
  exact (h0.pass (repeated_valid 75 'a') (repeated_ne rfl rfl (by decide))).trans
    ((h1.pass (repeated_valid 75 'c') (repeated_ne rfl rfl (by decide))).trans
      (h2.found (repeated_valid 252 'd') (by decide)))

theorem threeFiles_tiles : threeFiles.TilesIn 0 [0, 344, 688] threeFiles.blkSize := by
  obtain ⟨h0, h1, h2⟩ := threeFiles_records
  refine ⟨rfl, h0.format_ok, ?_⟩
  rw [format_len, h0.len_eq]
  refine ⟨rfl, h1.format_ok, ?_⟩
  rw [format_len, h1.len_eq]
  refine ⟨rfl, h2.format_ok, ?_⟩
  rw [format_len, h2.len_eq, threeFiles_blkSize]
  rfl

theorem threeFiles_liveEntries : threeFiles.liveEntries =
    [{ inode := 12, name := repeated 75 'a', ty := some .regularFile },
      { inode := 14, name := repeated 75 'c', ty := some .regularFile },
      { inode := 16, name := repeated 75 'e', ty := some .regularFile }] := by
  have hlive : threeFiles.liveEntries =
      (RecordTiling.live (format true) threeFiles.inner [0, 344, 688]).map Prod.snd := by
    rw [DirectoryBlock.liveEntries, DirectoryBlock.live,
      DirectoryBlock.positions_eq threeFiles_tiles]
    rfl
  rw [hlive]
  decide +kernel

theorem threeFiles_wellFormed : threeFiles.WellFormed := by
  refine ⟨by decide +kernel, ?_, fun x hx => ?_⟩
  · rw [DirectoryBlock.positions_eq threeFiles_tiles]
    exact threeFiles_tiles
  · have hmem : x.2 ∈ threeFiles.liveEntries := List.mem_map_of_mem hx
    rw [threeFiles_liveEntries] at hmem
    simp only [List.mem_cons, List.not_mem_nil, or_false] at hmem
    rcases hmem with h | h | h <;> rw [h] <;> exact repeated_valid 75 _

/-- A name of 255 bytes finds no gap. -/
theorem threeFiles_full (de : FileType) :
    threeFiles.insertEntry (repeated 255 'n') (some de) 17 = .ok (false, threeFiles) := by
  obtain ⟨h0, h1, h2⟩ := threeFiles_records
  apply DirectoryBlock.insertEntry_of_not_takes _ _ threeFiles_tiles
  have hsmall {p len ino : Nat} {c : Char} (h : RecordIs threeFiles p len (repeated 75 c) ino)
      (hc : (String.utf8EncodeChar c).length = 1) (hused : ino ≠ 0) (hgap : len ≤ 344) :
      ¬ threeFiles.Takes p (entrySize (repeated 255 'n').length) := by
    apply h.not_takes hused
    rw [length_repeated 75 hc, length_repeated 255 rfl]
    exact Nat.lt_of_le_of_lt hgap (by decide)
  simp only [List.mem_cons, List.not_mem_nil, or_false, forall_eq_or_imp, forall_eq]
  exact ⟨hsmall h0 rfl (by decide) (by decide), hsmall h1 rfl (by decide) (by decide),
    hsmall h2 rfl (by decide) (by decide)⟩

/-- The two calls between which the block has its five files. -/
def scatteringOps : List Op :=
  fiveInserts ++ [.remove (repeated 252 'b'), .remove (repeated 252 'd')]

theorem insertOk_repeated {n ino : Nat} {c : Char} (hc : (String.utf8EncodeChar c).length = 1)
    (hn : 1 ≤ n ∧ n ≤ 255) (hino : ino ≠ 0 ∧ ino < 2 ^ 32) : InsertOk (repeated n c) ino := by
  refine ⟨?_, ?_, repeated_valid n c, hino.1, hino.2⟩
  · rw [length_repeated n hc]
    exact hn.1
  · rw [length_repeated n hc]
    exact hn.2

theorem scatteringOps_ok : ∀ op ∈ scatteringOps, op.Ok := by
  intro op hop
  rcases List.mem_append.mp hop with hop | hop
  · simp only [fiveInserts, List.mem_cons, List.not_mem_nil, or_false] at hop
    rcases hop with rfl | rfl | rfl | rfl | rfl <;>
      exact insertOk_repeated rfl (by decide) (by decide)
  · simp only [List.mem_cons, List.not_mem_nil, or_false] at hop
    rcases hop with rfl | rfl <;> exact True.intro

theorem run_fiveInserts :
    (DirectoryBlock.clear { inner := List.replicate 1024 0, isVersion2 := true }).run fiveInserts =
      fiveFiles := by
  decide +kernel

theorem run_scatteringOps :
    (DirectoryBlock.clear { inner := List.replicate 1024 0, isVersion2 := true }).run
      scatteringOps = threeFiles := by
  rw [scatteringOps, DirectoryBlock.run_append, run_fiveInserts, DirectoryBlock.run_cons,
    DirectoryBlock.step_remove remove_fiveFiles, DirectoryBlock.run_cons,
    DirectoryBlock.step_remove remove_fourFiles]
  exact List.foldl_nil

/-- The entry that does not fit. -/
def longFile : DirEntry :=
  { inode := 17, name := repeated 255 'n', ty := some .regularFile }

/-! ## When a full leaf has a split point -/

/-- The search finds a split point if and only if the names of the block and the new one
    take more than half a block. -/
theorem hasSplitPoint_iff (hd : d.WellFormed) (hblk : SupportedBlkSize d.blkSize)
    (hnames : ∀ e ∈ allEntries d en, e.name.length ≤ 255)
    (hashes : ((allEntries d en).map (hashKey hashOf)).Nodup) :
    HasSplitPoint hashOf d en ↔ d.blkSize / 2 < ((allEntries d en).map nameSize).sum := by
  rw [← findHalf_entryMap hashes]
  constructor
  · rintro ⟨entries, newHash, idx, hcol, hfind, -, -⟩
    rw [collected_eq hd] at hcol
    cases hcol
    rw [hfind]
    rfl
  · intro hsome
    obtain ⟨⟨newHash, idx⟩, hfind⟩ := Option.isSome_iff_exists.mp hsome
    obtain ⟨k, hk, hlt, hpos, -, -⟩ := findHalf_spec (Nat.zero_le _) hfind
    rw [Nat.zero_add] at hk
    subst hk
    refine ⟨_, newHash, idx, collected_eq hd hashOf en, hfind, hpos fun x hx => ?_, hlt⟩
    -- One name is less than half of the smallest block.
    have hname : x.2.name.length ≤ 255 := by
      apply hnames
      exact (SortedMap.mem_insertAll hx).resolve_right List.not_mem_nil
    have hhalf : 512 ≤ d.blkSize / 2 := by
      rcases hblk with h | h | h <;> rw [h] <;> decide
    omega

/-- The full leaf of five files has a split point. -/
theorem hasSplitPoint_fullLeaf : ∃ d : DirectoryBlock, d.WellFormed ∧
    HasSplitPoint (Hasher.hashOf md4Seed) d longFile := by
  obtain ⟨d, hd, -, hblk, hlive, -⟩ := exists_fullLeaf
  refine ⟨d, hd, (hasSplitPoint_iff hd (Or.inl hblk) ?_ ?_).mpr ?_⟩
  · intro e he
    rcases List.mem_append.mp he with he | he
    · exact leafEntries_length hlive e he
    · rw [List.mem_singleton.mp he]
      exact Nat.le_of_eq (length_repeated 255 rfl)
  · rw [allEntries, hlive]
    decide +kernel
  · rw [allEntries, hlive, hblk]
    simp (disch := decide) only [leafEntries, longFile, nameSize, List.cons_append, List.nil_append,
      List.map_cons, List.map_nil, length_nameOf_replicate, length_repeated]
    decide

/-- The block of three files that a name of 255 bytes does not fit, and the names take
    exactly half of it. -/
theorem not_hasSplitPoint_threeFiles : (∀ op ∈ scatteringOps, op.Ok) ∧
    (DirectoryBlock.clear { inner := List.replicate 1024 0, isVersion2 := true }).run
      scatteringOps = threeFiles ∧ threeFiles.WellFormed ∧ threeFiles.blkSize = 1024 ∧
    InsertOk longFile.name longFile.inode ∧
    threeFiles.insertEntry longFile.name (some .regularFile) longFile.inode =
      .ok (false, threeFiles) ∧
    ((allEntries threeFiles longFile).map (hashKey (Hasher.hashOf md4Seed))).Nodup ∧
    ¬ HasSplitPoint (Hasher.hashOf md4Seed) threeFiles longFile := by
  have hashes : ((allEntries threeFiles longFile).map (hashKey (Hasher.hashOf md4Seed))).Nodup := by
    rw [allEntries, threeFiles_liveEntries]
    decide +kernel
  refine ⟨scatteringOps_ok, run_scatteringOps, threeFiles_wellFormed, threeFiles_blkSize,
    insertOk_repeated rfl (by decide) (by decide), threeFiles_full .regularFile, hashes, ?_⟩
  rintro ⟨entries, newHash, idx, hcol, hfind, -, -⟩
  rw [collected_eq threeFiles_wellFormed] at hcol
  cases hcol
  have hsome := (findHalf_entryMap hashes).mp (by rw [hfind]; rfl)
  rw [allEntries, threeFiles_liveEntries, threeFiles_blkSize] at hsome
  exact absurd hsome (by decide +kernel)

end RustExt4.Directory.HTree
