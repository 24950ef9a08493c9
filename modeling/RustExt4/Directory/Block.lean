/-
  RustExt4.Directory.Block

  A block of directory records (`directory/block.rs`): the two iterators, the
  insertion of an entry, and the removal of the record a cursor stands on.
-/
import RustExt4.Directory.Entry

namespace RustExt4.Directory

open DirectoryEntryDispatch

structure DirectoryBlock where
  inner : Bytes
  isVersion2 : Bool
  deriving DecidableEq, Repr

namespace DirectoryBlock

/-- `BLK_SIZE` -/
def blkSize (d : DirectoryBlock) : Nat := d.inner.length

/-- `read_entry_at`: whether the name of the entry at `pos` fits the block. -/
def readEntryAt (d : DirectoryBlock) (pos : Nat) : Except Unit Unit :=
  if d.blkSize - pos - 8 < getNameLen d.isVersion2 d.inner pos then .error () else .ok ()

/-- `clear`; the second 16-bit write goes to the inode number. -/
def clear (d : DirectoryBlock) : DirectoryBlock :=
  { d with
    inner := ByteRw.writeU16 (ByteRw.writeU16 (ByteRw.writeU32 d.inner 0 0) 4 d.blkSize) 0 0 }

end DirectoryBlock

/-! ## Reading -/

structure DirectoryBlockIterator where
  pos : Nat := 0
  stopped : Bool := false
  deriving DecidableEq, Repr

namespace DirectoryBlockIterator

/-- `next`: an entry is given by its position.  `assert_ne!(entry_len, 0)` is the
    panic. -/
def next (d : DirectoryBlock) (it : DirectoryBlockIterator) :
    Except Fault (Option (Except FsError Nat)) × DirectoryBlockIterator :=
  if it.stopped = false ∧ it.pos + 8 ≤ d.blkSize then
    match d.readEntryAt it.pos with
    | .error _ => (.ok (some (.error .fixme)), { it with stopped := true })
    | .ok _ =>
      if getEntryLen d.inner it.pos = 0 then (.error .panic, it)
      else if getInode d.inner it.pos ≠ 0 then
        (.ok (some (.ok it.pos)), { it with pos := it.pos + getEntryLen d.inner it.pos })
      else next d { it with pos := it.pos + getEntryLen d.inner it.pos }
  else (.ok none, it)
termination_by d.blkSize - it.pos

theorem next_pos_lt {d : DirectoryBlock} {it it' : DirectoryBlockIterator} {p : Nat}
    (h : next d it = (.ok (some (.ok p)), it')) : it.pos < it'.pos ∧ it.pos < d.blkSize := by
  induction it using next.induct d with
  | case1 it hin _ hread =>
      rw [next, if_pos hin, hread] at h
      cases h
  | case2 it hin _ hread hzero =>
      rw [next, if_pos hin, hread] at h
      simp only [if_pos hzero] at h
      cases h
  | case3 it hin _ hread hzero hlive =>
      rw [next, if_pos hin, hread] at h
      simp only [if_neg hzero, if_pos hlive] at h
      cases h
      exact ⟨by simp only; omega, by omega⟩
  | case4 it hin _ hread hzero hlive ih =>
      rw [next, if_pos hin, hread] at h
      simp only [if_neg hzero, if_neg hlive] at h
      have := ih h
      simp only at this
      exact ⟨by omega, by omega⟩
  | case5 it hout =>
      rw [next, if_neg hout] at h
      cases h

/-- `for entry in iter { let entry = entry?; .. }` -/
def collect (d : DirectoryBlock) (it : DirectoryBlockIterator) : Except Fault (List Nat) :=
  match _h : next d it with
  | (.error e, _) => .error e
  | (.ok none, _) => .ok []
  | (.ok (some (.error e)), _) => .error (.err e)
  | (.ok (some (.ok p)), it') => (collect d it').map (p :: ·)
termination_by d.blkSize - it.pos
decreasing_by
  have := next_pos_lt _h
  omega

theorem collect_of_some {d : DirectoryBlock} {it it' : DirectoryBlockIterator} {p : Nat}
    (h : next d it = (.ok (some (.ok p)), it')) : collect d it = (collect d it').map (p :: ·) := by
  rw [collect]
  split <;> rename_i heq <;> rw [h] at heq <;> cases heq
  rfl

theorem collect_of_none {d : DirectoryBlock} {it it' : DirectoryBlockIterator}
    (h : next d it = (.ok none, it')) : collect d it = .ok [] := by
  rw [collect]
  split <;> rename_i heq <;> rw [h] at heq <;> cases heq

end DirectoryBlockIterator

/-! ## Reading and writing -/

structure DirectoryBlockIteratorMut where
  pos : Nat := 0
  ppos : Option Nat := none
  stopped : Bool := false
  deriving DecidableEq, Repr

structure DirectoryBlockIteratorMutCursor where
  ppos : Option Nat
  pos : Nat
  deriving DecidableEq, Repr

def ErrDirectoryBlock : FsError := .invalidFs "Directory block is corrupted"

namespace DirectoryBlockIteratorMut

/-- `next` -/
def next (d : DirectoryBlock) (it : DirectoryBlockIteratorMut) :
    Option (Except FsError DirectoryBlockIteratorMutCursor) × DirectoryBlockIteratorMut :=
  if it.stopped = false ∧ it.pos + 8 ≤ d.blkSize then
    if it.pos + getEntryLen d.inner it.pos ≤ d.blkSize ∧
        getNameLen d.isVersion2 d.inner it.pos + 8 ≤ getEntryLen d.inner it.pos then
      (some (.ok { ppos := it.ppos, pos := it.pos }),
        { it with ppos := some it.pos, pos := it.pos + getEntryLen d.inner it.pos })
    else (some (.error ErrDirectoryBlock), { it with stopped := true })
  else (none, it)

theorem next_pos_lt {d : DirectoryBlock} {it it' : DirectoryBlockIteratorMut}
    {cursor : DirectoryBlockIteratorMutCursor} (h : next d it = (some (.ok cursor), it')) :
    it.pos < it'.pos ∧ it.pos < d.blkSize := by
  unfold next at h
  split at h
  case isTrue hin =>
    split at h
    case isTrue hrec =>
      cases h
      exact ⟨by simp only; omega, by omega⟩
    case isFalse => cases h
  case isFalse => cases h

/-- `while let Some(entry) = iter.next() { let entry = entry?; .. }` -/
def collect (d : DirectoryBlock) (it : DirectoryBlockIteratorMut) : Except Fault (List Nat) :=
  match _h : next d it with
  | (none, _) => .ok []
  | (some (.error e), _) => .error (.err e)
  | (some (.ok cursor), it') => (collect d it').map (cursor.pos :: ·)
termination_by d.blkSize - it.pos
decreasing_by
  have := next_pos_lt _h
  omega

theorem collect_of_some {d : DirectoryBlock} {it it' : DirectoryBlockIteratorMut}
    {cursor : DirectoryBlockIteratorMutCursor} (h : next d it = (some (.ok cursor), it')) :
    collect d it = (collect d it').map (cursor.pos :: ·) := by
  rw [collect]
  split <;> rename_i heq <;> rw [h] at heq <;> cases heq
  rfl

theorem collect_of_none {d : DirectoryBlock} {it it' : DirectoryBlockIteratorMut}
    (h : next d it = (none, it')) : collect d it = .ok [] := by
  rw [collect]
  split <;> rename_i heq <;> rw [h] at heq <;> cases heq

end DirectoryBlockIteratorMut

namespace DirectoryBlock

/-- `set_inode`, `set_type` and `set_name` on the record that takes the entry. -/
def put (d : DirectoryBlock) (pos : Nat) (entry : Bytes) (de : Option FileType) (child : Nat) :
    Except Fault DirectoryBlock :=
  match setType d.isVersion2 (setInode d.inner pos child) pos (de.map Ext4De.fromFileType) with
  | .error e => .error e
  | .ok b =>
    match setName d.isVersion2 b pos entry with
    | .error e => .error e
    | .ok b => .ok { d with inner := b }

/-- An unused record that is not a checksum and has room for the entry. -/
def takesUnused (d : DirectoryBlock) (pos size : Nat) : Bool :=
  getInode d.inner pos = 0 ∧ getFileType d.isVersion2 d.inner pos ≠ some .checkSum ∧
    size ≤ getEntryLen d.inner pos

/-- A used record that has room for the entry after its own name. -/
def takesSplit (d : DirectoryBlock) (pos size : Nat) : Bool :=
  getInode d.inner pos ≠ 0 ∧
    size + entrySize (getNameLen d.isVersion2 d.inner pos) ≤ getEntryLen d.inner pos

/-- The loop of `insert_entry`. -/
def insertFrom (d : DirectoryBlock) (it : DirectoryBlockIteratorMut) (entry : Bytes)
    (de : Option FileType) (child : Nat) : Except Fault (Bool × DirectoryBlock) :=
  match _h : DirectoryBlockIteratorMut.next d it with
  | (none, _) => .ok (false, d)
  | (some (.error e), _) => .error (.err e)
  | (some (.ok cursor), it') =>
    if d.takesUnused cursor.pos (entrySize entry.length) then
      (d.put cursor.pos entry de child).map (true, ·)
    else if d.takesSplit cursor.pos (entrySize entry.length) then
      match split d.isVersion2 d.inner cursor.pos with
      | .error e => .error e
      | .ok (b, target) => (DirectoryBlock.put { d with inner := b } target entry de child).map
          (true, ·)
    else d.insertFrom it' entry de child
termination_by d.blkSize - it.pos
decreasing_by
  have := DirectoryBlockIteratorMut.next_pos_lt _h
  omega

theorem insertFrom_of_none {d : DirectoryBlock} {it it' : DirectoryBlockIteratorMut}
    (entry : Bytes) (de : Option FileType) (child : Nat)
    (h : DirectoryBlockIteratorMut.next d it = (none, it')) :
    d.insertFrom it entry de child = .ok (false, d) := by
  rw [insertFrom]
  split <;> rename_i heq <;> rw [h] at heq <;> cases heq

theorem insertFrom_of_error {d : DirectoryBlock} {it it' : DirectoryBlockIteratorMut}
    {e : FsError} (entry : Bytes) (de : Option FileType) (child : Nat)
    (h : DirectoryBlockIteratorMut.next d it = (some (.error e), it')) :
    d.insertFrom it entry de child = .error (.err e) := by
  rw [insertFrom]
  split <;> rename_i heq <;> rw [h] at heq <;> cases heq
  rfl

theorem insertFrom_of_some {d : DirectoryBlock} {it it' : DirectoryBlockIteratorMut}
    {cursor : DirectoryBlockIteratorMutCursor} (entry : Bytes) (de : Option FileType) (child : Nat)
    (h : DirectoryBlockIteratorMut.next d it = (some (.ok cursor), it')) :
    d.insertFrom it entry de child =
      if d.takesUnused cursor.pos (entrySize entry.length) then
        (d.put cursor.pos entry de child).map (true, ·)
      else if d.takesSplit cursor.pos (entrySize entry.length) then
        match split d.isVersion2 d.inner cursor.pos with
        | .error e => .error e
        | .ok (b, target) => (DirectoryBlock.put { d with inner := b } target entry de child).map
            (true, ·)
      else d.insertFrom it' entry de child := by
  rw [insertFrom]
  split <;> rename_i heq <;> rw [h] at heq <;> cases heq
  rfl

def insertEntry (d : DirectoryBlock) (entry : Bytes) (de : Option FileType) (child : Nat) :
    Except Fault (Bool × DirectoryBlock) :=
  d.insertFrom {} entry de child

/-- `destroy`: the number of the inode that the record named, and the block. -/
def destroy (d : DirectoryBlock) (cursor : DirectoryBlockIteratorMutCursor) :
    Nat × DirectoryBlock :=
  let b := setInode d.inner cursor.pos 0
  match cursor.ppos with
  | none => (getInode d.inner cursor.pos, { d with inner := b })
  | some ppos => (getInode d.inner cursor.pos,
      { d with inner := setEntryLen b ppos (getEntryLen b ppos + getEntryLen d.inner cursor.pos) })

/-- The loop over one block in `LinearScheme::remove_entry` and in
    `DirDxRoot::find_mut_then` with `destroy`. -/
def removeFrom (d : DirectoryBlock) (it : DirectoryBlockIteratorMut) (target : Bytes) :
    Except Fault (Option Nat × DirectoryBlock) :=
  match _h : DirectoryBlockIteratorMut.next d it with
  | (none, _) => .ok (none, d)
  | (some (.error e), _) => .error (.err e)
  | (some (.ok cursor), it') =>
    match getName d.isVersion2 d.inner cursor.pos with
    | .error e => .error e
    | .ok name =>
      if name = target ∧ getInode d.inner cursor.pos ≠ 0 then
        .ok (some (d.destroy cursor).1, (d.destroy cursor).2)
      else d.removeFrom it' target
termination_by d.blkSize - it.pos
decreasing_by
  have := DirectoryBlockIteratorMut.next_pos_lt _h
  omega

theorem removeFrom_of_none {d : DirectoryBlock} {it it' : DirectoryBlockIteratorMut}
    (target : Bytes) (h : DirectoryBlockIteratorMut.next d it = (none, it')) :
    d.removeFrom it target = .ok (none, d) := by
  rw [removeFrom]
  split <;> rename_i heq <;> rw [h] at heq <;> cases heq

theorem removeFrom_of_error {d : DirectoryBlock} {it it' : DirectoryBlockIteratorMut}
    {e : FsError} (target : Bytes)
    (h : DirectoryBlockIteratorMut.next d it = (some (.error e), it')) :
    d.removeFrom it target = .error (.err e) := by
  rw [removeFrom]
  split <;> rename_i heq <;> rw [h] at heq <;> cases heq
  rfl

theorem removeFrom_of_some {d : DirectoryBlock} {it it' : DirectoryBlockIteratorMut}
    {cursor : DirectoryBlockIteratorMutCursor} (target : Bytes)
    (h : DirectoryBlockIteratorMut.next d it = (some (.ok cursor), it')) :
    d.removeFrom it target =
      match getName d.isVersion2 d.inner cursor.pos with
      | .error e => .error e
      | .ok name =>
        if name = target ∧ getInode d.inner cursor.pos ≠ 0 then
          .ok (some (d.destroy cursor).1, (d.destroy cursor).2)
        else d.removeFrom it' target := by
  rw [removeFrom]
  split <;> rename_i heq <;> rw [h] at heq <;> cases heq
  rfl

def removeEntry (d : DirectoryBlock) (target : Bytes) :
    Except Fault (Option Nat × DirectoryBlock) :=
  d.removeFrom {} target

end DirectoryBlock
end RustExt4.Directory
