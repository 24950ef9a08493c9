/-
  RustExt4.Directory.Linear

  The scheme of a directory without an index (`directory/linear.rs`), over the blocks of
  the directory in the order of its file.  A search goes through all of them; an addition
  takes the first record that has room, and a new block where none has.  So the scheme
  keeps a directory as a list of records, whatever their names are.

  Where the blocks lie on the device, and the events by which a directory grows, are left
  out here; the allocator has a list of blocks that it hands out one by one.
-/
import RustExt4.Directory.BlockFill
import RustExt4.Directory.BlockRuns
import RustExt4.Directory.HTree.Find
import RustExt4.Directory.Operations

namespace RustExt4.Directory

open DirectoryEntryDispatch
open Transaction (Event)

/-! ## The scheme -/

namespace LinearScheme

def findEntry (target : Bytes) : List DirectoryBlock → Except Fault (Nat × Option FileType)
  | [] => .error (.err .noEntry)
  | d :: ds =>
    match d.findFrom {} none target with
    | .error e => .error e
    | .ok (some (_, p)) => .ok (getInode d.inner p,
        (getFileType d.isVersion2 d.inner p).map Ext4De.intoFileType)
    | .ok none => findEntry target ds

/-- The search of `remove_entry`: the place of the block in the file, and the cursor. -/
def locate (target : Bytes) :
    List DirectoryBlock → Except Fault (Nat × DirectoryBlockIteratorMutCursor)
  | [] => .error (.err .noEntry)
  | d :: ds =>
    match d.findMutFrom {} target with
    | .error e => .error e
    | .ok (some cursor) => .ok (0, cursor)
    | .ok none => (locate target ds).map fun r => (r.1 + 1, r.2)

def destroy (cursor : DirectoryBlockIteratorMutCursor) :
    Nat → List DirectoryBlock → Nat × List DirectoryBlock
  | _, [] => (0, [])
  | 0, d :: ds => ((d.destroy cursor).1, (d.destroy cursor).2 :: ds)
  | i + 1, d :: ds => ((destroy cursor i ds).1, d :: (destroy cursor i ds).2)

/-- The turns of `add_entry` behind the last block: each takes a new block and clears it. -/
def grow (isVersion2 : Bool) (entry : Bytes) (de : FileType) (child : Nat) :
    List Bytes → Except Fault Unit × List DirectoryBlock × List Bytes
  | [] => (.error (.err .fsFull), [], [])
  | b :: free =>
    let d : DirectoryBlock := DirectoryBlock.clear { inner := b, isVersion2 := isVersion2 }
    match d.insertEntry entry (some de) child with
    | .error e => (.error e, [d], free)
    | .ok (true, d) => (.ok (), [d], free)
    | .ok (false, d) =>
      match grow isVersion2 entry de child free with
      | (r, ds, free) => (r, d :: ds, free)

def addEntry (isVersion2 : Bool) (entry : Bytes) (de : FileType) (child : Nat) (free : List Bytes) :
    List DirectoryBlock → Except Fault Unit × List DirectoryBlock × List Bytes
  | [] => grow isVersion2 entry de child free
  | d :: ds =>
    match d.insertEntry entry (some de) child with
    | .error e => (.error e, d :: ds, free)
    | .ok (true, d) => (.ok (), d :: ds, free)
    | .ok (false, d) =>
      match addEntry isVersion2 entry de child free ds with
      | (r, ds, free) => (r, d :: ds, free)

end LinearScheme

/-! ## One block -/

namespace DirectoryBlock

variable {d d' : DirectoryBlock} {target entry : Bytes} {de : FileType} {child : Nat}

theorem WellFormed.findMut_some (h : d.WellFormed) {cursor : DirectoryBlockIteratorMutCursor}
    (hfind : d.findMutFrom {} target = .ok (some cursor)) :
    ∃ p e, e.name = target ∧ (d.destroy cursor).1 = e.inode ∧
      Removed d (d.destroy cursor).2 p e := by
  have hrem : d.removeEntry target =
      .ok (some (d.destroy cursor).1, (d.destroy cursor).2) := by
    rw [removeEntry, removeFrom_eq, hfind]
    rfl
  rcases removeEntry_spec h target with
    ⟨hpanic, -⟩ | ⟨-, ⟨hnone, -⟩ | ⟨p, e, d', hsome, hname, hd'⟩⟩
  · rw [hrem] at hpanic
    cases hpanic
  · rw [hrem] at hnone
    cases hnone
  · rw [hrem] at hsome
    simp only [Except.ok.injEq, Prod.mk.injEq, Option.some.injEq] at hsome
    obtain ⟨hino, rfl⟩ := hsome
    exact ⟨p, e, hname, hino, hd'⟩

theorem WellFormed.findMut_none (h : d.WellFormed) (hfind : d.findMutFrom {} target = .ok none) :
    ∀ e ∈ d.live, e.2.name ≠ target := by
  have hrem : d.removeEntry target = .ok (none, d) := by
    rw [removeEntry, removeFrom_eq, hfind]
    rfl
  rcases removeEntry_spec h target with
    ⟨hpanic, -⟩ | ⟨-, ⟨-, hno⟩ | ⟨p, e, d', hsome, -⟩⟩
  · rw [hrem] at hpanic
    cases hpanic
  · exact hno
  · rw [hrem] at hsome
    cases hsome

/-- The one error is the panic at a name that does not decode. -/
theorem WellFormed.findMut_error (h : d.WellFormed) {e : Fault}
    (hfind : d.findMutFrom {} target = .error e) : e = .panic := by
  have hrem : d.removeEntry target = .error e := by
    rw [removeEntry, removeFrom_eq, hfind]
    rfl
  rcases removeEntry_spec h target with
    ⟨hpanic, -⟩ | ⟨-, ⟨hnone, -⟩ | ⟨p, e', d', hsome, -⟩⟩
  · rw [hrem] at hpanic
    cases hpanic
    rfl
  · rw [hrem] at hnone
    cases hnone
  · rw [hrem] at hsome
    cases hsome

/-- The length of a name has one byte, and `set_name` unwraps the conversion. -/
theorem put_long (hv2 : d.isVersion2 = true) (hlong : 255 < entry.length) (p : Nat) :
    d.put p entry (some de) child = .error .panic := by
  unfold put
  rw [hv2]
  simp only [setType, if_pos, Option.map_some, setName]
  rw [if_neg fun hfit => absurd hfit.1 (by omega)]

theorem insertFrom_long {it : DirectoryBlockIteratorMut} {found : Bool}
    (hv2 : d.isVersion2 = true) (hlong : 255 < entry.length)
    (h : d.insertFrom it entry (some de) child = .ok (found, d')) : found = false ∧ d' = d := by
  rcases insertFrom_ok h with ⟨hfound, hd, -⟩ | ⟨b, p, hput⟩
  · exact ⟨hfound, hd⟩
  · rw [put_long (d := { d with inner := b }) hv2 hlong p] at hput
    cases hput

/-- What `insert_entry` does where it returns, for a name of any length. -/
theorem WellFormed.insert_cases (h : d.WellFormed) (hv2 : d.isVersion2 = true)
    (hchild : child ≠ 0 ∧ child < 2 ^ 32) {found : Bool}
    (hins : d.insertEntry entry (some de) child = .ok (found, d')) :
    (found = false ∧ d' = d) ∨
      (found = true ∧ Inserted d d' (d.newEntry entry (some de) child)) := by
  by_cases hlen : entry.length ≤ 255
  · have hde : d.isVersion2 = true → some de ≠ none := fun _ => Option.some_ne_none de
    rcases insertEntry_spec hde h.tiles hlen hchild.2 hchild.1 with
      ⟨-, hno⟩ | ⟨d1, hyes, hd1⟩
    · rw [hins] at hno
      cases hno
      exact Or.inl ⟨rfl, rfl⟩
    · rw [hins] at hyes
      cases hyes
      exact Or.inr ⟨rfl, hd1⟩
  · exact Or.inl (insertFrom_long hv2 (by omega) hins)

/-- Where a record takes a name that is too long, the record is cut and filled up to the
    length of the name, whose conversion panics. -/
theorem WellFormed.insertEntry_long (h : d.WellFormed) (hv2 : d.isVersion2 = true)
    (hlong : 255 < entry.length)
    (htakes : ∃ p ∈ d.positions, d.Takes p (entrySize entry.length)) :
    d.insertEntry entry (some de) child = .error .panic := by
  obtain ⟨l, p, r, ppos, -, htake, -, hr, hrun⟩ :=
    insertEntry_first (some de) child h.tiles htakes
  obtain ⟨-, hok, hrest⟩ := hr
  have hle := hrest.le
  rw [format_len] at hle
  have hins := insertFrom_of_some entry (some de) child (iterMut_next ppos hok hle)
  rw [hrun, hins]
  dsimp only
  by_cases hunused : d.takesUnused p (entrySize entry.length) = true
  · rw [if_pos hunused, put_long hv2 hlong]
    rfl
  · have hsplit : d.takesSplit p (entrySize entry.length) = true := htake.resolve_left hunused
    have hroom := hsplit
    simp only [takesSplit, decide_eq_true_eq] at hroom
    have hbig := (entrySize_spec entry.length).1
    -- The record is cut before the name is looked at.
    obtain ⟨b, hcut, -⟩ := split_spec d p hle (by omega)
    have hput : DirectoryBlock.put { d with inner := b }
        (p + entrySize (getNameLen d.isVersion2 d.inner p)) entry (some de) child =
          .error .panic := put_long (d := { d with inner := b }) hv2 hlong _
    rw [if_neg hunused, if_pos hsplit, hcut]
    dsimp only
    rw [hput]
    rfl

/-- A name that fits is written into the record that takes it, for whatever inode. -/
theorem WellFormed.insertEntry_short (h : d.WellFormed) (hshort : entry.length ≤ 255)
    (hchild : child < 2 ^ 32)
    (htakes : ∃ p ∈ d.positions, d.Takes p (entrySize entry.length)) :
    ∃ d', d.insertEntry entry (some de) child = .ok (true, d') := by
  obtain ⟨l, p, r, ppos, -, htake, -, hr, hrun⟩ :=
    insertEntry_first (some de) child h.tiles htakes
  obtain ⟨-, hok, hrest⟩ := hr
  have hle := hrest.le
  rw [format_len] at hle
  have hins := insertFrom_of_some entry (some de) child (iterMut_next ppos hok hle)
  have hbig := (entrySize_spec entry.length).1
  rw [hrun, hins]
  dsimp only
  -- An unused record takes the entry whole; a live one gives its slack.
  by_cases hunused : d.takesUnused p (entrySize entry.length) = true
  · have hroom := hunused
    simp only [takesUnused, decide_eq_true_eq] at hroom
    obtain ⟨d', hput, -⟩ := put_spec d p (fun _ => Option.some_ne_none de) hshort
      (by omega) hchild
    rw [if_pos hunused, hput]
    exact ⟨d', rfl⟩
  · have hsplit : d.takesSplit p (entrySize entry.length) = true := htake.resolve_left hunused
    have hroom := hsplit
    simp only [takesSplit, decide_eq_true_eq] at hroom
    obtain ⟨b, hcut, hb, -⟩ := split_spec d p hle (by omega)
    obtain ⟨d', hput, -⟩ := put_spec { d with inner := b } _
      (fun _ => Option.some_ne_none de) hshort
      (show p + entrySize (getNameLen d.isVersion2 d.inner p) + 8 + entry.length ≤ b.length by
        unfold blkSize at hle
        omega) hchild
    rw [if_neg hunused, if_pos hsplit, hcut]
    dsimp only
    rw [hput]
    exact ⟨d', rfl⟩

/-- An insertion that returns has put the name into the first record that takes it, or there
    is none. -/
theorem WellFormed.insert_takes (h : d.WellFormed) (hv2 : d.isVersion2 = true)
    (hchild : child ≠ 0 ∧ child < 2 ^ 32) {found : Bool}
    (hins : d.insertEntry entry (some de) child = .ok (found, d')) :
    (found = false ∧ d' = d ∧ ∀ p ∈ d.positions, ¬ d.Takes p (entrySize entry.length)) ∨
      (found = true ∧ Inserted d d' (d.newEntry entry (some de) child) ∧
        ∃ p ∈ d.positions, d.Takes p (entrySize entry.length)) := by
  by_cases htakes : ∃ p ∈ d.positions, d.Takes p (entrySize entry.length)
  · by_cases hshort : entry.length ≤ 255
    · obtain ⟨d1, hyes⟩ :=
        @WellFormed.insertEntry_short d entry de child h hshort hchild.2 htakes
      rw [hyes] at hins
      cases hins
      rcases h.insert_cases hv2 hchild hyes with ⟨hf, -⟩ | ⟨-, hd⟩
      · cases hf
      · exact Or.inr ⟨rfl, hd, htakes⟩
    · rw [@WellFormed.insertEntry_long d entry de child h hv2 (by omega) htakes] at hins
      cases hins
  · have hno : ∀ p ∈ d.positions, ¬ d.Takes p (entrySize entry.length) :=
      fun p hp htake => htakes ⟨p, hp, htake⟩
    rw [insertEntry_of_not_takes (some de) child h.tiles hno] at hins
    cases hins
    exact Or.inl ⟨rfl, rfl, hno⟩

/-- `insert_entry` stores the name or leaves the block as it is, and returns: just for names
    that fit the byte of their length, and for longer ones that no record has room for. -/
theorem WellFormed.refuses_iff (h : d.WellFormed) (hv2 : d.isVersion2 = true) (entry : Bytes)
    (de : FileType) (hchild : child < 2 ^ 32) :
    ((∃ d', d.insertEntry entry (some de) child = .ok (true, d') ∧
        (child ≠ 0 → Inserted d d' (d.newEntry entry (some de) child))) ∨
      d.insertEntry entry (some de) child = .ok (false, d)) ↔
      entry.length ≤ 255 ∨ ∀ p ∈ d.positions, ¬ d.Takes p (entrySize entry.length) := by
  -- A short name is inserted or refused; a long one is refused where nothing takes it.
  by_cases hshort : entry.length ≤ 255
  · apply iff_of_true _ (Or.inl hshort)
    by_cases htakes : ∃ p ∈ d.positions, d.Takes p (entrySize entry.length)
    · obtain ⟨d', hrun⟩ := @WellFormed.insertEntry_short d entry de child h hshort hchild htakes
      refine Or.inl ⟨d', hrun, fun hne => ?_⟩
      obtain ⟨hf, -⟩ | ⟨-, hd⟩ := h.insert_cases hv2 ⟨hne, hchild⟩ hrun
      · cases hf
      · exact hd
    · exact Or.inr (insertEntry_of_not_takes (some de) child h.tiles
        fun p hp htake => htakes ⟨p, hp, htake⟩)
  · by_cases htakes : ∃ p ∈ d.positions, d.Takes p (entrySize entry.length)
    · have hpanic := @WellFormed.insertEntry_long d entry de child h hv2 (by omega) htakes
      obtain ⟨p, hp, htake⟩ := htakes
      apply iff_of_false
      · rintro (⟨d', hrun, -⟩ | hrun)
        all_goals
          rw [hpanic] at hrun
          cases hrun
      · rintro (hlen | hno)
        · exact hshort hlen
        · exact hno p hp htake
    · have hno : ∀ p ∈ d.positions, ¬ d.Takes p (entrySize entry.length) :=
        fun p hp htake => htakes ⟨p, hp, htake⟩
      exact iff_of_true (Or.inr (insertEntry_of_not_takes (some de) child h.tiles hno))
        (Or.inr hno)

/-- A name of 1100 bytes finds no record in a block of 1024 bytes. -/
theorem refuses_iff_tooBig :
    (∃ d', emptyBlock.insertEntry (List.replicate 1100 97) (some .regularFile) 12 =
        .ok (true, d') ∧ ((12 : Nat) ≠ 0 → Inserted emptyBlock d'
          (emptyBlock.newEntry (List.replicate 1100 97) (some .regularFile) 12))) ∨
      emptyBlock.insertEntry (List.replicate 1100 97) (some .regularFile) 12 =
        .ok (false, emptyBlock) := by
  apply (emptyBlock_wellFormed.refuses_iff rfl (List.replicate 1100 97) .regularFile
    (by decide)).mpr
  rw [positions_emptyBlock, List.length_replicate]
  refine Or.inr fun p hp => ?_
  obtain rfl := List.mem_singleton.mp hp
  unfold Takes
  decide

/-- A name of 256 bytes in the same block is a panic, after the record got its inode. -/
theorem insertEntry_of_256 :
    emptyBlock.WellFormed ∧ emptyBlock.isVersion2 = true ∧
      emptyBlock.insertEntry (List.replicate 256 97) (some .regularFile) 12 =
        .error .panic := by
  refine ⟨emptyBlock_wellFormed, rfl, ?_⟩
  apply emptyBlock_wellFormed.insertEntry_long rfl
  · rw [List.length_replicate]
    decide
  · rw [positions_emptyBlock, List.length_replicate]
    exact ⟨0, List.mem_singleton_self 0, Or.inl (by decide)⟩

/-- The live entries of a block, as the records of a directory. -/
def nameRecords (d : DirectoryBlock) : List (Bytes × Nat) :=
  d.live.map fun x => (x.2.name, x.2.inode)

theorem Removed.nameRecords {p : Nat} {e : DirEntry} (h : Removed d d' p e) :
    ∃ l r, d'.nameRecords = l ++ r ∧ d.nameRecords = l ++ (e.name, e.inode) :: r := by
  obtain ⟨l, r, hd, hd'⟩ := h.live
  refine ⟨l.map fun x => (x.2.name, x.2.inode), r.map fun x => (x.2.name, x.2.inode), ?_, ?_⟩
  · rw [DirectoryBlock.nameRecords, hd', List.map_append]
  · rw [DirectoryBlock.nameRecords, hd, List.map_append, List.map_cons]

theorem Inserted.nameRecords {e : DirEntry} (h : Inserted d d' e) :
    ∃ l r, d.nameRecords = l ++ r ∧ d'.nameRecords = l ++ (e.name, e.inode) :: r := by
  obtain ⟨l, p, r, hd, hd'⟩ := h.live
  refine ⟨l.map fun x => (x.2.name, x.2.inode), r.map fun x => (x.2.name, x.2.inode), ?_, ?_⟩
  · rw [DirectoryBlock.nameRecords, hd, List.map_append]
  · rw [DirectoryBlock.nameRecords, hd', List.map_append, List.map_cons]

/-- A live entry has the number of an inode. -/
theorem nameRecords_inode {name : Bytes} {ino : Nat} (h : (name, ino) ∈ d.nameRecords) :
    ino ≠ 0 ∧ ino < 2 ^ 32 := by
  obtain ⟨x, hx, heq⟩ := List.mem_map.mp h
  obtain ⟨p, e⟩ := x
  cases heq
  obtain ⟨-, hview⟩ := RecordTiling.mem_live.mp hx
  have hused : getInode d.inner p ≠ 0 := by
    intro hzero
    rw [view_unused hzero] at hview
    cases hview
  rw [view_used hused] at hview
  cases hview
  exact ⟨hused, ByteRw.readU32_lt ..⟩

/-- The length of a V2 name has one byte. -/
theorem nameRecords_short (hv2 : d.isVersion2 = true) {name : Bytes} {ino : Nat}
    (h : (name, ino) ∈ d.nameRecords) : name.length ≤ 255 := by
  obtain ⟨x, hx, heq⟩ := List.mem_map.mp h
  obtain ⟨p, e⟩ := x
  cases heq
  obtain ⟨-, hview⟩ := RecordTiling.mem_live.mp hx
  have hused : getInode d.inner p ≠ 0 := by
    intro hzero
    rw [view_unused hzero] at hview
    cases hview
  rw [view_used hused] at hview
  cases hview
  have hlen : (nameBytes d.isVersion2 d.inner p).length ≤ getNameLen d.isVersion2 d.inner p := by
    rw [nameBytes, LeBytes.slice, List.length_take]
    exact Nat.min_le_left ..
  have hbyte : getNameLen d.isVersion2 d.inner p < 2 ^ 8 := by
    rw [getNameLen, hv2]
    exact ByteRw.readU8_lt ..
  exact Nat.le_of_lt_succ (Nat.lt_of_le_of_lt hlen hbyte)

/-- A cleared block is well-formed and has no entries. -/
theorem clear_wellFormed (hv2 : d.isVersion2 = true)
    (hsize : d.blkSize = 1024 ∨ d.blkSize = 2048 ∨ d.blkSize = 4096) :
    d.clear.WellFormed ∧ d.clear.nameRecords = [] := by
  have hnameLen : getNameLen d.isVersion2 d.inner 0 < 2 ^ 8 := by
    rw [getNameLen, hv2]
    exact ByteRw.readU8_lt ..
  have ht := clear_tiles (d := d) (by omega) (by omega) (by omega) (by omega)
  have hempty := clear_live (by omega) (by omega) ht
  have hblk : d.clear.blkSize = d.blkSize := (clear_spec (by omega) (by omega)).1
  have hlive : d.clear.live = [] := List.map_eq_nil_iff.mp hempty
  refine ⟨⟨by omega, by rwa [positions_eq ht], fun x hx => ?_⟩, by rw [nameRecords, hlive]; rfl⟩
  rw [hlive] at hx
  cases hx

end DirectoryBlock

/-! ## The blocks of a directory -/

namespace LinearScheme

/-- The records of a directory, in the order of a search. -/
def records (ds : List DirectoryBlock) : List (Bytes × Nat) :=
  ds.flatMap DirectoryBlock.nameRecords

variable {target entry : Bytes} {de : FileType} {child : Nat} {ds ds' : List DirectoryBlock}

theorem locate_ok {i : Nat} {cursor : DirectoryBlockIteratorMutCursor}
    (h : locate target ds = .ok (i, cursor)) :
    ∃ l d r, ds = l ++ d :: r ∧ i = l.length ∧ d.findMutFrom {} target = .ok (some cursor) := by
  -- On the blocks; the index counts those without the name.
  induction ds generalizing i with
  | nil => cases h
  | cons d ds ih =>
      rw [locate] at h
      split at h
      case h_1 => cases h
      case h_2 c hfind =>
        cases h
        exact ⟨[], d, ds, rfl, rfl, hfind⟩
      case h_3 =>
        cases hrest : locate target ds with
        | error e =>
            rw [hrest] at h
            cases h
        | ok x =>
            rw [hrest] at h
            cases h
            obtain ⟨l, d', r, rfl, hi, hfind⟩ := ih hrest
            exact ⟨d :: l, d', r, rfl, by rw [List.length_cons, hi], hfind⟩

theorem locate_noEntry (hds : ∀ d ∈ ds, d.WellFormed)
    (h : locate target ds = .error (.err .noEntry)) (ino : Nat) :
    (target, ino) ∉ records ds := by
  induction ds with
  | nil => exact List.not_mem_nil
  | cons d ds ih =>
      have hd := hds d List.mem_cons_self
      intro hmem
      rw [locate] at h
      split at h
      case h_1 e hfind =>
        -- No search of a well-formed block ends with `NoEntry`.
        cases h
        cases hd.findMut_error hfind
      case h_2 => cases h
      case h_3 hfind =>
        have hrest : locate target ds = .error (.err .noEntry) := by
          cases hrest : locate target ds with
          | error e =>
              rw [hrest] at h
              cases h
              rfl
          | ok x =>
              rw [hrest] at h
              cases h
        rw [records, List.flatMap_cons, List.mem_append] at hmem
        rcases hmem with hhere | hthere
        · obtain ⟨x, hx, heq⟩ := List.mem_map.mp hhere
          cases heq
          exact hd.findMut_none hfind x hx rfl
        · exact ih (fun d' hd' => hds d' (List.mem_cons_of_mem _ hd')) hrest hthere

theorem destroy_append (cursor : DirectoryBlockIteratorMutCursor) (l : List DirectoryBlock)
    (d : DirectoryBlock) (r : List DirectoryBlock) :
    destroy cursor l.length (l ++ d :: r) =
      ((d.destroy cursor).1, l ++ (d.destroy cursor).2 :: r) := by
  induction l with
  | nil => rfl
  | cons x l ih => rw [List.length_cons, List.cons_append, destroy, ih, List.cons_append]

/-- The removal of what a search has found takes one record out. -/
theorem destroy_ok {i : Nat} {cursor : DirectoryBlockIteratorMutCursor}
    (hds : ∀ d ∈ ds, d.WellFormed ∧ d.isVersion2 = true)
    (h : locate target ds = .ok (i, cursor)) :
    (∀ d ∈ (destroy cursor i ds).2, d.WellFormed ∧ d.isVersion2 = true) ∧
      ∃ l r, records (destroy cursor i ds).2 = l ++ r ∧
        records ds = l ++ (target, (destroy cursor i ds).1) :: r := by
  obtain ⟨l, d, r, rfl, rfl, hfind⟩ := locate_ok h
  obtain ⟨hwf, hv2⟩ := hds d (List.mem_append_right _ List.mem_cons_self)
  obtain ⟨p, e, rfl, hino, hd⟩ := hwf.findMut_some hfind
  rw [destroy_append]
  constructor
  · -- Destroying an entry keeps the blocks well formed.
    intro d' hd'
    rcases List.mem_append.mp hd' with hl | hr
    · exact hds d' (List.mem_append_left _ hl)
    · rcases List.mem_cons.mp hr with rfl | hr
      · exact ⟨hwf.removed hd, hd.version.trans hv2⟩
      · exact hds d' (List.mem_append_right _ (List.mem_cons_of_mem _ hr))
  · obtain ⟨l', r', hafter, hbefore⟩ := hd.nameRecords
    -- What is destroyed is one record of block `d`.
    refine ⟨records l ++ l', r' ++ records r, ?_, ?_⟩
    · rw [records, List.flatMap_append, List.flatMap_cons, hafter]
      simp only [records, List.append_assoc]
    · rw [records, List.flatMap_append, List.flatMap_cons, hbefore, hino]
      simp only [records, List.append_assoc, List.cons_append]

/-- The block in which the name finds room, and those before it, which stay as they are. -/
theorem grow_ok {free free' : List Bytes}
    (hfree : ∀ b ∈ free, b.length = 1024 ∨ b.length = 2048 ∨ b.length = 4096)
    (hname : utf8Valid entry = true) (hchild : child ≠ 0 ∧ child < 2 ^ 32)
    (h : grow true entry de child free = (.ok (), ds', free')) :
    (∀ d ∈ ds', d.WellFormed ∧ d.isVersion2 = true) ∧ free' ⊆ free ∧
      records ds' = [(entry, child)] := by
  -- On the blocks the allocator hands out: one that does not take the entry stays in the list,
  -- empty.
  induction free generalizing ds' with
  | nil => cases h
  | cons b free ih =>
      obtain ⟨hwf, hempty⟩ := DirectoryBlock.clear_wellFormed
        (d := { inner := b, isVersion2 := true }) rfl (hfree b List.mem_cons_self)
      rw [grow] at h
      split at h
      case h_1 => cases h
      case h_2 d hins =>
        cases h
        rcases hwf.insert_cases rfl hchild hins with ⟨hf, -⟩ | ⟨-, hd⟩
        · cases hf
        · obtain ⟨l, r, hold, hnew⟩ := hd.nameRecords
          rw [hempty] at hold
          obtain ⟨rfl, rfl⟩ := List.append_eq_nil_iff.mp hold.symm
          refine ⟨fun d' hd' => ?_, List.subset_cons_self .., ?_⟩
          · rw [List.mem_singleton.mp hd']
            exact ⟨hwf.inserted hd hname, hd.version⟩
          · rw [records, List.flatMap_singleton, hnew]
            rfl
      case h_3 d hins =>
        cases hrest : grow true entry de child free with
        | mk r rest =>
            rw [hrest] at h
            cases h
            obtain ⟨hds, hsub, hrecs⟩ :=
              ih (fun b' hb' => hfree b' (List.mem_cons_of_mem _ hb')) hrest
            rcases hwf.insert_cases rfl hchild hins with ⟨-, rfl⟩ | ⟨hf, -⟩
            · refine ⟨fun d' hd' => ?_, List.subset_cons_of_subset b hsub, ?_⟩
              · rcases List.mem_cons.mp hd' with rfl | hd'
                · exact ⟨hwf, rfl⟩
                · exact hds d' hd'
              · rw [records, List.flatMap_cons, hempty]
                exact hrecs
            · cases hf

/-- Where no block takes the entry, the new ones are empty. -/
theorem grow_error {free free' : List Bytes} {e : Fault}
    (hfree : ∀ b ∈ free, b.length = 1024 ∨ b.length = 2048 ∨ b.length = 4096)
    (hchild : child ≠ 0 ∧ child < 2 ^ 32)
    (h : grow true entry de child free = (.error e, ds', free')) : records ds' = [] := by
  induction free generalizing ds' with
  | nil =>
      cases h
      rfl
  | cons b free ih =>
      obtain ⟨hwf, hempty⟩ := DirectoryBlock.clear_wellFormed
        (d := { inner := b, isVersion2 := true }) rfl (hfree b List.mem_cons_self)
      rw [grow] at h
      split at h
      case h_1 =>
        cases h
        rw [records, List.flatMap_singleton, hempty]
      case h_2 => cases h
      case h_3 d hins =>
        cases hrest : grow true entry de child free with
        | mk r rest =>
            rw [hrest] at h
            cases h
            rcases hwf.insert_cases rfl hchild hins with ⟨-, rfl⟩ | ⟨hf, -⟩
            · rw [records, List.flatMap_cons, hempty]
              exact ih (fun b' hb' => hfree b' (List.mem_cons_of_mem _ hb')) hrest
            · cases hf

/-- An addition that fails leaves the records. -/
theorem addEntry_error {free free' : List Bytes} {e : Fault}
    (hfree : ∀ b ∈ free, b.length = 1024 ∨ b.length = 2048 ∨ b.length = 4096)
    (hchild : child ≠ 0 ∧ child < 2 ^ 32)
    (hds : ∀ d ∈ ds, d.WellFormed ∧ d.isVersion2 = true)
    (h : addEntry true entry de child free ds = (.error e, ds', free')) :
    records ds' = records ds := by
  induction ds generalizing ds' with
  | nil => exact grow_error hfree hchild h
  | cons d ds ih =>
      obtain ⟨hwf, hv2⟩ := hds d List.mem_cons_self
      rw [addEntry] at h
      split at h
      case h_1 =>
        cases h
        rfl
      case h_2 => cases h
      case h_3 d1 hins =>
        cases hadd : addEntry true entry de child free ds with
        | mk r rest =>
            rw [hadd] at h
            cases h
            rcases hwf.insert_cases hv2 hchild hins with ⟨-, rfl⟩ | ⟨hf, -⟩
            · rw [records, records, List.flatMap_cons, List.flatMap_cons]
              exact congrArg _ (ih (fun d' hd' => hds d' (List.mem_cons_of_mem _ hd')) hadd)
            · cases hf

/-- An addition that returns has added one record. -/
theorem addEntry_ok {free free' : List Bytes}
    (hfree : ∀ b ∈ free, b.length = 1024 ∨ b.length = 2048 ∨ b.length = 4096)
    (hname : utf8Valid entry = true) (hchild : child ≠ 0 ∧ child < 2 ^ 32)
    (hds : ∀ d ∈ ds, d.WellFormed ∧ d.isVersion2 = true)
    (h : addEntry true entry de child free ds = (.ok (), ds', free')) :
    (∀ d ∈ ds', d.WellFormed ∧ d.isVersion2 = true) ∧ free' ⊆ free ∧
      ∃ l r, records ds = l ++ r ∧
        records ds' = l ++ (entry, child) :: r := by
  -- On the blocks; past the last one the directory grows.
  induction ds generalizing ds' with
  | nil =>
      obtain ⟨hwf, hsub, hrecs⟩ := grow_ok hfree hname hchild h
      exact ⟨hwf, hsub, [], [], rfl, hrecs⟩
  | cons d ds ih =>
      obtain ⟨hwf, hv2⟩ := hds d List.mem_cons_self
      have hrest : ∀ d ∈ ds, d.WellFormed ∧ d.isVersion2 = true :=
        fun d' hd' => hds d' (List.mem_cons_of_mem _ hd')
      rw [addEntry] at h
      split at h
      case h_1 => cases h
      -- This block takes the entry.
      case h_2 d1 hins =>
        cases h
        rcases hwf.insert_cases hv2 hchild hins with ⟨hf, -⟩ | ⟨-, hd⟩
        · cases hf
        · obtain ⟨l, r, hold, hnew⟩ := hd.nameRecords
          refine ⟨fun d' hd' => ?_, List.Subset.refl _, l, r ++ records ds, ?_, ?_⟩
          · rcases List.mem_cons.mp hd' with rfl | hd'
            · exact ⟨hwf.inserted hd hname, hd.version.trans hv2⟩
            · exact hrest d' hd'
          · rw [records, List.flatMap_cons, hold, List.append_assoc]
            rfl
          · rw [records, List.flatMap_cons, hnew, List.append_assoc]
            rfl
      -- This block is full, and the next ones are tried.
      case h_3 d1 hins =>
        cases hadd : addEntry true entry de child free ds with
        | mk r rest =>
            rw [hadd] at h
            cases h
            obtain ⟨hds', hsub, l, r, hold, hnew⟩ := ih hrest hadd
            rcases hwf.insert_cases hv2 hchild hins with ⟨-, rfl⟩ | ⟨hf, -⟩
            · refine ⟨fun d' hd' => ?_, hsub, d1.nameRecords ++ l, r, ?_, ?_⟩
              · rcases List.mem_cons.mp hd' with rfl | hd'
                · exact ⟨hwf, hv2⟩
                · exact hds' d' hd'
              · rw [records, List.flatMap_cons, List.append_assoc, ← hold]
                rfl
              · rw [records, List.flatMap_cons, List.append_assoc, ← hnew]
                rfl
            · cases hf

end LinearScheme

end RustExt4.Directory
