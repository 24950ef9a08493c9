/-
  RustExt4.Directory.HTree.Insert

  Insertion of a name into a hashed directory (`directory/htree/node.rs`,
  `DirDxRoot::insert` with `insert_at` and `split_data`), and what a split does to
  the index.  The new key lies between the entries of the two halves, and the slot
  behind the last one that the cursor visited is where it belongs: a lookup goes on
  to find every entry.
-/
import RustExt4.Directory.HTree.Lookup
import RustExt4.Directory.HTree.Split

namespace RustExt4.Directory.HTree

open Predecessor (Nondecreasing)

/-! ## The slots of the index -/

namespace DirDxRoot

/-- The loop of `insert_at`: the slots from `n` down to `at_` go one to the right. -/
def shiftSlots (at_ : Nat) : Nat → Bytes → Bytes
  | 0, raw => raw
  | i + 1, raw =>
    if at_ ≤ i then
      let raw := ByteRw.writeU32 raw (0x28 + 8 * i) (ByteRw.readU32 raw (0x28 + 8 * i - 8))
      let raw := ByteRw.writeU32 raw (0x2c + 8 * i) (ByteRw.readU32 raw (0x2c + 8 * i - 8))
      shiftSlots at_ i raw
    else raw

/-- The bytes once the loop is done; at the end of the slots it does not run. -/
def makeRoom (root : DirDxRoot) (at_ : Nat) : Bytes :=
  if at_ < root.climit.count then shiftSlots at_ root.climit.count root.raw else root.raw

/-- `insert_at`; the inner error hands the entry back.  A write of a slot behind the end of
    the block panics. -/
def insertAt (root : DirDxRoot) (at_ : Nat) (entry : DxEntry) :
    Except Fault (Except DxEntry DirDxRoot) :=
  if at_ = 0 then .error .panic
  else if root.climit.limit ≤ at_ then .ok (.error entry)
  else if root.raw.length < 0x28 + 8 * max at_ root.climit.count then .error .panic
  else
    let raw := root.makeRoom at_
    let raw := ByteRw.writeU32 raw (0x28 + 8 * at_ - 8) entry.hash
    let raw := ByteRw.writeU32 raw (0x2c + 8 * at_ - 8) entry.block
    .ok (.ok { root with raw := ByteRw.writeU16 raw 0x22 (root.climit.count + 1) })

/-- A slot behind the first one. -/
def readSlot (raw : Bytes) (index : Nat) : DxEntry where
  hash := ByteRw.readU32 raw (0x28 + 8 * index - 8)
  block := ByteRw.readU32 raw (0x2c + 8 * index - 8)

def writeSlot (raw : Bytes) (index : Nat) (entry : DxEntry) : Bytes :=
  ByteRw.writeU32 (ByteRw.writeU32 raw (0x28 + 8 * index - 8) entry.hash)
    (0x2c + 8 * index - 8) entry.block

@[simp] theorem length_writeSlot (raw : Bytes) (index : Nat) (entry : DxEntry) :
    (writeSlot raw index entry).length = raw.length := by
  simp [writeSlot]

variable {raw : Bytes} {i j at_ n : Nat} {entry : DxEntry}

theorem readSlot_writeSlot (hi : 1 ≤ i) (hfit : 0x28 + 8 * i ≤ raw.length)
    (hhash : entry.hash < 2 ^ 32) (hblock : entry.block < 2 ^ 32) :
    readSlot (writeSlot raw i entry) i = entry := by
  have hb : ByteRw.readU32 (writeSlot raw i entry) (0x2c + 8 * i - 8) = entry.block := by
    rw [writeSlot, ByteRw.readU32_writeU32 (by rw [ByteRw.length_writeU32]; omega)]
    exact Nat.mod_eq_of_lt hblock
  have hh : ByteRw.readU32 (writeSlot raw i entry) (0x28 + 8 * i - 8) = entry.hash := by
    rw [writeSlot, ByteRw.readU32_congr (ByteRw.writeU32_sameOn (by omega)),
      ByteRw.readU32_writeU32 (by omega)]
    exact Nat.mod_eq_of_lt hhash
  rw [readSlot, hh, hb]

theorem writeSlot_sameOn {lo hi : Nat} (h : hi ≤ 0x28 + 8 * i - 8 ∨ 0x30 + 8 * i - 8 ≤ lo)
    (raw : Bytes) (entry : DxEntry) : LeBytes.SameOn (writeSlot raw i entry) raw lo hi :=
  (ByteRw.writeU32_sameOn (by omega)).trans (ByteRw.writeU32_sameOn (by omega))

theorem readSlot_writeSlot_ne (hi : 1 ≤ i) (hj : 1 ≤ j) (hne : j ≠ i) (raw : Bytes)
    (entry : DxEntry) : readSlot (writeSlot raw i entry) j = readSlot raw j := by
  have hsame : LeBytes.SameOn (writeSlot raw i entry) raw (0x28 + 8 * j - 8)
      (0x30 + 8 * j - 8) := writeSlot_sameOn (by omega) raw entry
  rw [readSlot, readSlot, ByteRw.readU32_congr (hsame.mono (by omega) (by omega)),
    ByteRw.readU32_congr (hsame.mono (by omega) (by omega))]

/-- One round of the loop copies a slot over the next one. -/
theorem shiftSlots_succ (h : at_ ≤ i) (hi : 1 ≤ i) (raw : Bytes) :
    shiftSlots at_ (i + 1) raw = shiftSlots at_ i (writeSlot raw (i + 1) (readSlot raw i)) := by
  rw [shiftSlots, if_pos h]
  dsimp only
  -- The block is read after the hash is written, eight bytes behind it.
  rw [ByteRw.readU32_congr (ByteRw.writeU32_sameOn (by omega)), writeSlot, readSlot]
  dsimp only
  rw [show 0x28 + 8 * (i + 1) - 8 = 0x28 + 8 * i by omega,
    show 0x2c + 8 * (i + 1) - 8 = 0x2c + 8 * i by omega]

/-- The loop moves the slots from `at_` up to `n` and nothing else. -/
theorem shiftSlots_spec (hat : 1 ≤ at_) (hfit : 0x28 + 8 * n ≤ raw.length) :
    (shiftSlots at_ n raw).length = raw.length ∧
      LeBytes.SameOn (shiftSlots at_ n raw) raw 0 0x28 ∧
      ∀ j, 1 ≤ j → readSlot (shiftSlots at_ n raw) j =
        if at_ < j ∧ j ≤ n then readSlot raw (j - 1) else readSlot raw j := by
  -- On the rounds left, from the last slot down.
  induction n generalizing raw with
  | zero =>
      refine ⟨rfl, LeBytes.SameOn.refl _ _ _, fun j hj => ?_⟩
      rw [if_neg (by omega)]
      rfl
  | succ i ih =>
      by_cases hle : at_ ≤ i
      · rw [shiftSlots_succ hle (by omega)]
        have hfit' : 0x28 + 8 * i ≤ (writeSlot raw (i + 1) (readSlot raw i)).length := by
          rw [length_writeSlot]
          omega
        obtain ⟨hlen, hsame, hread⟩ := ih hfit'
        refine ⟨by rw [hlen, length_writeSlot],
          hsame.trans (writeSlot_sameOn (by omega) raw _), fun j hj => ?_⟩
        rw [hread j hj]
        by_cases hlast : j = i + 1
        · -- The rounds that are still to come do not reach the slot written first.
          subst hlast
          rw [if_neg (by omega), if_pos (by omega),
            readSlot_writeSlot hj hfit (ByteRw.readU32_lt ..) (ByteRw.readU32_lt ..)]
          rfl
        · have hframe := readSlot_writeSlot_ne (by omega : 1 ≤ i + 1) hj hlast raw (readSlot raw i)
          by_cases hin : at_ < j ∧ j ≤ i
          · rw [if_pos hin, if_pos (by omega),
              readSlot_writeSlot_ne (by omega) (by omega) (by omega)]
          · rw [if_neg hin, if_neg (by omega), hframe]
      · -- Below the place of insertion the loop writes nothing.
        have hid : shiftSlots at_ (i + 1) raw = raw := by rw [shiftSlots, if_neg hle]
        rw [hid]
        refine ⟨rfl, LeBytes.SameOn.refl _ _ _, fun j hj => ?_⟩
        rw [if_neg (by omega)]

variable {root : DirDxRoot}

theorem slot_eq_readSlot (hi : i ≠ 0) : root.slot i = readSlot root.raw i := if_neg hi

theorem makeRoom_spec (hat : 1 ≤ at_) (hfit : 0x28 + 8 * root.climit.count ≤ root.raw.length) :
    (root.makeRoom at_).length = root.raw.length ∧
      LeBytes.SameOn (root.makeRoom at_) root.raw 0 0x28 ∧
      ∀ j, 1 ≤ j → readSlot (root.makeRoom at_) j =
        if at_ < j ∧ j ≤ root.climit.count then root.slot (j - 1) else root.slot j := by
  have hmoved : (root.makeRoom at_).length = root.raw.length ∧
      LeBytes.SameOn (root.makeRoom at_) root.raw 0 0x28 ∧
      ∀ j, 1 ≤ j → readSlot (root.makeRoom at_) j =
        if at_ < j ∧ j ≤ root.climit.count then readSlot root.raw (j - 1)
        else readSlot root.raw j := by
    unfold makeRoom
    split
    · exact shiftSlots_spec hat hfit
    · refine ⟨rfl, LeBytes.SameOn.refl _ _ _, fun j hj => ?_⟩
      rw [if_neg (by omega)]
  obtain ⟨hlen, hsame, hread⟩ := hmoved
  refine ⟨hlen, hsame, fun j hj => ?_⟩
  rw [hread j hj]
  split
  · rw [slot_eq_readSlot (by omega)]
  · rw [slot_eq_readSlot (by omega)]

/-- A slot and the count are written: the rest of the header stays. -/
theorem head_sameOn {lo hi : Nat} (hat : 1 ≤ at_) (h : hi ≤ 0x22 ∨ 0x24 ≤ lo ∧ hi ≤ 0x28)
    (raw : Bytes) (entry : DxEntry) (count : Nat) :
    LeBytes.SameOn (ByteRw.writeU16 (writeSlot raw at_ entry) 0x22 count) raw lo hi := by
  have hcount : LeBytes.SameOn (ByteRw.writeU16 (writeSlot raw at_ entry) 0x22 count)
      (writeSlot raw at_ entry) lo hi := ByteRw.writeU16_sameOn (by omega)
  exact hcount.trans (writeSlot_sameOn (by omega) raw entry)

theorem insertAt_ok (hat : 1 ≤ at_) (hlimit : at_ < root.climit.limit)
    (hfit : 0x28 + 8 * max at_ root.climit.count ≤ root.raw.length) (entry : DxEntry) :
    ∃ root', root.insertAt at_ entry = .ok (.ok root') := by
  rw [insertAt, if_neg (by omega), if_neg (by omega), if_neg (by omega)]
  exact ⟨_, rfl⟩

/-- `insert_at` puts the entry between the slots before `at_` and the others. -/
theorem insertAt_spec {root' : DirDxRoot} (hcount : at_ ≤ root.climit.count)
    (hlt : root.climit.count + 1 < 2 ^ 16) (hhash : entry.hash < 2 ^ 32)
    (hblock : entry.block < 2 ^ 32) (hins : root.insertAt at_ entry = .ok (.ok root')) :
    root'.hasher = root.hasher ∧ root'.raw.length = root.raw.length ∧
      LeBytes.SameOn root'.raw root.raw 0 0x22 ∧
      root'.climit = { root.climit with count := root.climit.count + 1 } ∧
      root'.slots = root.slots.insertIdx at_ entry := by
  -- The slots move up, the entry goes to its place, and the count is written over the old one.
  obtain ⟨hat, hfit, hhasher, hraw⟩ : 1 ≤ at_ ∧ 0x28 + 8 * root.climit.count ≤ root.raw.length ∧
      root'.hasher = root.hasher ∧ root'.raw =
        ByteRw.writeU16 (writeSlot (root.makeRoom at_) at_ entry) 0x22 (root.climit.count + 1) := by
    unfold insertAt at hins
    split at hins
    case isTrue => cases hins
    case isFalse hat =>
      split at hins
      case isTrue => cases hins
      case isFalse =>
        split at hins
        case isTrue => cases hins
        case isFalse hfit =>
          obtain rfl := Except.ok.inj (Except.ok.inj hins)
          refine ⟨by omega, by omega, rfl, ?_⟩
          dsimp only
          rw [writeSlot]
  obtain ⟨hlen, hsame, hread⟩ := @makeRoom_spec at_ root hat hfit
  -- Nothing else of the head changes.
  have hhead : ∀ {lo hi : Nat}, hi ≤ 0x22 ∨ 0x24 ≤ lo ∧ hi ≤ 0x28 →
      LeBytes.SameOn root'.raw root.raw lo hi := by
    intro lo hi h
    rw [hraw]
    apply (head_sameOn hat h (root.makeRoom at_) entry (root.climit.count + 1)).trans
    exact hsame.mono (Nat.zero_le lo) (by omega)
  have hclimit : root'.climit = { root.climit with count := root.climit.count + 1 } := by
    have hcnt : ByteRw.readU16 root'.raw 0x22 = root.climit.count + 1 := by
      rw [hraw, ByteRw.readU16_writeU16 (by rw [length_writeSlot, hlen]; omega)]
      exact Nat.mod_eq_of_lt hlt
    rw [climit, hcnt, ByteRw.readU16_congr (hhead (by omega)),
      ByteRw.readU32_congr (hhead (by omega))]
    rfl
  -- Slot 0 is read from the head and every other slot from the entries.
  have hslot : ∀ j, j ≤ root.climit.count → root'.slot j =
      if j < at_ then root.slot j else if j = at_ then entry else root.slot (j - 1) := by
    intro j hj
    by_cases h0 : j = 0
    · subst h0
      rw [if_pos (by omega), slot, slot, if_pos rfl, if_pos rfl, hclimit]
    · have hframe : readSlot root'.raw j =
          readSlot (writeSlot (root.makeRoom at_) at_ entry) j := by
        rw [hraw, readSlot, readSlot, ByteRw.readU32_congr (ByteRw.writeU16_sameOn (by omega)),
          ByteRw.readU32_congr (ByteRw.writeU16_sameOn (by omega))]
      rw [slot_eq_readSlot h0, hframe]
      by_cases heq : j = at_
      · rw [if_neg (by omega), if_pos heq, heq]
        exact readSlot_writeSlot hat (by omega) hhash hblock
      · rw [readSlot_writeSlot_ne hat (by omega) heq, hread j (by omega)]
        by_cases hlt : j < at_
        · rw [if_neg (by omega), if_pos hlt]
        · rw [if_pos (by omega), if_neg hlt, if_neg heq]
  have hlen' : root'.raw.length = root.raw.length := by
    rw [hraw, ByteRw.length_writeU16, length_writeSlot, hlen]
  refine ⟨hhasher, hlen', hhead (Or.inl (Nat.le_refl _)), hclimit,
    List.ext_getElem? fun j => ?_⟩
  -- The slots are listed up to the count, which is never none.
  have hentries : root'.entries j =
      if j = 0 ∨ j < root.climit.count + 1 then some (root'.slot j) else none := by
    rw [entries, hclimit]
  rw [← entries_eq, List.getElem?_insertIdx, hentries, length_slots,
    Nat.max_eq_right (by omega : 1 ≤ root.climit.count), ← entries_eq, ← entries_eq]
  by_cases hj : j ≤ root.climit.count
  · rw [if_pos (by omega), hslot j hj]
    by_cases hlt : j < at_
    · rw [if_pos hlt, if_pos hlt, entries, if_pos (by omega)]
    · rw [if_neg hlt, if_neg hlt]
      by_cases heq : j = at_
      · rw [if_pos heq, if_pos heq, if_pos (by omega)]
      · rw [if_neg heq, if_neg heq, entries, if_pos (by omega)]
  · rw [if_neg (by omega), if_neg (by omega), if_neg (by omega), entries, if_neg (by omega)]

end DirDxRoot

def ErrCorruptedHTree : FsError := .invalidFs "Corrupted htree"

/-- `HTreeCursor::insert`, at the slot behind the last one visited. -/
def HTreeCursor.insert (root : DirDxRoot) (c : HTreeCursor) (en : DxEntry) :
    Except Fault DirDxRoot :=
  match root.insertAt c.pos en with
  | .error e => .error e
  | .ok (.error _) => .error (.err ErrCorruptedHTree)
  | .ok (.ok root') => .ok root'

theorem HTreeCursor.insert_ok {root root' : DirDxRoot} {c : HTreeCursor} {en : DxEntry}
    (h : c.insert root en = .ok root') : root.insertAt c.pos en = .ok (.ok root') := by
  unfold HTreeCursor.insert at h
  split at h
  case h_1 => cases h
  case h_2 => cases h
  case h_3 root1 hins =>
    cases h
    exact hins

/-! ## The insertion of a name -/

/-- A hashed directory: its index and its leaf blocks, by their numbers in the file of the
    directory.  The index is block 0 of the file, and `tail` is the number that
    `cursor_last_mut` stands at, behind the last block. -/
structure HashedDir where
  root : DirDxRoot
  leafs : Nat → Option DirectoryBlock
  tail : Nat
  tail_pos : 0 < tail
  root_block : leafs 0 = none
  unmapped : ∀ fba, tail ≤ fba → leafs fba = none

namespace HashedDir

/-- A changed leaf block. -/
def store (dir : HashedDir) (fba : Nat) (d : DirectoryBlock) : HashedDir where
  root := dir.root
  leafs := fun x => if x = fba then (dir.leafs fba).map fun _ => d else dir.leafs x
  tail := dir.tail
  tail_pos := dir.tail_pos
  root_block := by
    split
    case isTrue h => rw [← h, dir.root_block, Option.map_none]
    case isFalse => exact dir.root_block
  unmapped := fun x hx => by
    split
    case isTrue h => rw [← h, dir.unmapped x hx, Option.map_none]
    case isFalse => exact dir.unmapped x hx

/-- A new leaf block behind the last one. -/
def append (dir : HashedDir) (d : DirectoryBlock) : HashedDir where
  root := dir.root
  leafs := fun x => if x = dir.tail then some d else dir.leafs x
  tail := dir.tail + 1
  tail_pos := Nat.succ_pos _
  root_block := by rw [if_neg dir.tail_pos.ne, dir.root_block]
  unmapped := fun x hx => by rw [if_neg (by omega), dir.unmapped x (by omega)]

/-- How the loop over the slots ends: with the name in a leaf block, or with the cursor
    behind the last slot that it has visited. -/
inductive Tried
  | inserted (dir : HashedDir)
  | full (dir : HashedDir) (cursor : HTreeCursor) (lastDxEn : Option DxEntry)

/-- The loop of `insert`. -/
def insertLoop (dir : HashedDir) (entry : Bytes) (de : FileType) (child : Nat)
    (cursor : HTreeCursor) (lastDxEn : Option DxEntry) : Except Fault Tried :=
  match _h : cursor.next dir.root with
  | none => .ok (.full dir cursor lastDxEn)
  | some (dxEn, cursor') =>
    match dir.leafs dxEn.block with
    | none => .error .panic
    | some dblk =>
      match dblk.insertEntry entry (some de) child with
      | .error e => .error e
      | .ok (true, dblk') => .ok (.inserted (dir.store dxEn.block dblk'))
      | .ok (false, dblk') =>
        insertLoop (dir.store dxEn.block dblk') entry de child cursor' (some dxEn)
termination_by dir.root.slots.length - cursor.pos
decreasing_by
  have hlt : dir.root.slots.length - cursor'.pos < dir.root.slots.length - cursor.pos :=
    HTreeCursor.next_pos_lt _h
  exact hlt

/-- `split_data`: with the index, and with the new block at the end of the file.  The number
    of a file block has 32 bits. -/
def splitData (dir : HashedDir) (cursor : HTreeCursor) (en : DirEntry) (dxEn : DxEntry)
    (newBlk : Except Fault Bytes) : Except Fault HashedDir :=
  match dir.leafs dxEn.block with
  | none => .error .panic
  | some dblk =>
    match gather dir.root.hashOf dblk {} [] with
    | .error e => .error e
    | .ok gathered =>
      match dir.root.hashOf en.name with
      | .error e => .error e
      | .ok hash =>
        let entries := SortedMap.insert hash en gathered
        if 2 ^ 32 ≤ dir.tail then .error .panic
        else
          match newBlk with
          | .error e => .error e
          | .ok newBlk =>
            match findHalf dblk.blkSize entries 0 u32Max 0 with
            | none => .error .panic
            | some (newHash, splitPos) =>
              match cursor.insert dir.root { hash := newHash, block := dir.tail } with
              | .error e => .error e
              | .ok root =>
                match putEntries dblk.clear ((entries.map Prod.snd).take splitPos) with
                | .error e => .error e
                | .ok old =>
                  match putEntries (DirectoryBlock.clear
                      { inner := newBlk, isVersion2 := dblk.isVersion2 })
                      ((entries.map Prod.snd).drop splitPos) with
                  | .error e => .error e
                  | .ok new => .ok (({ dir with root := root }.store dxEn.block old).append new)

/-- `insert`.  The dot entries are in the root block.  `verify` has checked that the limit
    is `R_ENTRIES + 1`; an index that is full but for one slot is `todo!()` in
    `try_split`. -/
def insert (dir : HashedDir) (entry : Bytes) (de : FileType) (child : Nat)
    (newBlk : Except Fault Bytes) : Except Fault HashedDir :=
  if entry = [46] then
    .ok { dir with root := { dir.root with raw := ByteRw.writeU32 dir.root.raw 0x0 child } }
  else if entry = [46, 46] then
    .ok { dir with root := { dir.root with raw := ByteRw.writeU32 dir.root.raw 0xC child } }
  else
    match dir.root.hashOf entry with
    | .error e => .error e
    | .ok hash =>
      match HTreeCursor.fromHash dir.root hash with
      | .error e => .error e
      | .ok cursor =>
        if dir.root.climit.count + 1 = dir.root.climit.limit then .error .panic
        else
          match dir.insertLoop entry de child cursor none with
          | .error e => .error e
          | .ok (.inserted dir') => .ok dir'
          | .ok (.full _ _ none) => .error .panic
          | .ok (.full dir' cursor' (some dxEn)) =>
            dir'.splitData cursor'
              { inode := child, name := entry, ty := some (.fromFileType de) } dxEn newBlk

variable {dir dir' : HashedDir} {entry : Bytes} {de : FileType} {child : Nat}
  {c c' : HTreeCursor} {last : Option DxEntry}

theorem insertLoop_of_none (h : c.next dir.root = none) :
    dir.insertLoop entry de child c last = .ok (.full dir c last) := by
  rw [insertLoop]
  split
  case h_1 => rfl
  case h_2 heq =>
    rw [h] at heq
    cases heq

theorem insertLoop_of_some {dxEn : DxEntry} (h : c.next dir.root = some (dxEn, c')) :
    dir.insertLoop entry de child c last =
      match dir.leafs dxEn.block with
      | none => .error .panic
      | some dblk =>
        match dblk.insertEntry entry (some de) child with
        | .error e => .error e
        | .ok (true, dblk') => .ok (.inserted (dir.store dxEn.block dblk'))
        | .ok (false, dblk') =>
          insertLoop (dir.store dxEn.block dblk') entry de child c' (some dxEn) := by
  rw [insertLoop]
  split <;> rename_i heq <;> rw [h] at heq <;> cases heq
  rfl

@[simp] theorem store_root (fba : Nat) (d : DirectoryBlock) :
    (dir.store fba d).root = dir.root := rfl

@[simp] theorem append_root (d : DirectoryBlock) : (dir.append d).root = dir.root := rfl

theorem store_self {fba : Nat} {d : DirectoryBlock} (h : dir.leafs fba = some d) :
    dir.store fba d = dir := by
  have hleafs : (dir.store fba d).leafs = dir.leafs := by
    funext x
    simp only [store]
    split
    case isTrue hx => rw [hx, h, Option.map_some]
    case isFalse => rfl
  cases dir
  simpa only [store, mk.injEq, true_and, and_true] using hleafs

/-- Where the loop ends behind the slots, each leaf block visited has refused the name and
    is as it was. -/
theorem insertLoop_full (hleafs : ∀ en ∈ dir.root.slots, ∃ d, dir.leafs en.block = some d ∧
      d.WellFormed) (hen : InsertOk entry child)
    (h : dir.insertLoop entry de child c last = .ok (.full dir' c' last')) :
    dir' = dir ∧ c'.pos = c.pos + (c.visits dir.root).length ∧
      last' = (c.visits dir.root).getLast?.or last := by
  -- On the leafs the cursor has still to visit.
  induction c using HTreeCursor.visits.induct dir.root generalizing last with
  | case1 c hnone =>
      rw [insertLoop_of_none hnone] at h
      cases h
      rw [HTreeCursor.visits_of_none hnone]
      exact ⟨rfl, rfl, rfl⟩
  | case2 c n c1 hnext ih =>
      obtain ⟨hpos, hn⟩ := HTreeCursor.next_eq_some hnext
      obtain ⟨d, hd, hwf⟩ := hleafs n (List.mem_of_getElem? hn)
      rw [insertLoop_of_some hnext] at h
      simp only [hd] at h
      -- A leaf that takes the entry ends the loop, which is not the outcome at hand.
      rcases hwf.insert hen de with hins | ⟨d', hins, -⟩
      · simp only [hins, store_self hd] at h
        obtain ⟨rfl, hpos', rfl⟩ := ih h
        rw [HTreeCursor.visits_of_some hnext, List.length_cons, List.getLast?_cons, hpos', hpos]
        refine ⟨rfl, by omega, ?_⟩
        cases (c1.visits dir'.root).getLast? <;> rfl
      · simp only [hins] at h
        cases h

end HashedDir
end RustExt4.Directory.HTree
