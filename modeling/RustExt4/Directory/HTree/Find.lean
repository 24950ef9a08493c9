/-
  RustExt4.Directory.HTree.Find

  Lookup by name in a hashed directory (`directory/htree/node.rs`,
  `DirDxRoot::find_then` and `find_mut_then`).  Both walk the slots of the cursor
  and search the leaf block of each; they differ in the iterator over the block.
  The one of `find_then` passes over unused records, the one of `find_mut_then`
  does not, and its loop decodes the name before it looks at the inode number.
-/
import RustExt4.Directory.BlockInv
import RustExt4.Directory.HTree.Cursor
import RustExt4.Inode.Extent.Cached

namespace RustExt4.Directory

open DirectoryEntryDispatch

namespace DirectoryBlock

/-- The loop of `find_then` over one block: the entry and the one before it. -/
def findFrom (d : DirectoryBlock) (it : DirectoryBlockIterator) (prev : Option Nat)
    (target : Bytes) : Except Fault (Option (Option Nat × Nat)) :=
  match _h : DirectoryBlockIterator.next d it with
  | (.error e, _) => .error e
  | (.ok none, _) => .ok none
  | (.ok (some (.error e)), _) => .error (.err e)
  | (.ok (some (.ok pos)), it') =>
    match getName d.isVersion2 d.inner pos with
    | .error e => .error e
    | .ok name =>
      if name = target ∧ getInode d.inner pos ≠ 0 then .ok (some (prev, pos))
      else d.findFrom it' (some pos) target
termination_by d.blkSize - it.pos
decreasing_by
  have := DirectoryBlockIterator.next_pos_lt _h
  omega

theorem findFrom_of_none {d : DirectoryBlock} {it it' : DirectoryBlockIterator} (prev : Option Nat)
    (target : Bytes) (h : DirectoryBlockIterator.next d it = (.ok none, it')) :
    d.findFrom it prev target = .ok none := by
  rw [findFrom]
  split <;> rename_i heq <;> rw [h] at heq <;> cases heq

theorem findFrom_of_some {d : DirectoryBlock} {it it' : DirectoryBlockIterator} {pos : Nat}
    (prev : Option Nat) (target : Bytes)
    (h : DirectoryBlockIterator.next d it = (.ok (some (.ok pos)), it')) :
    d.findFrom it prev target =
      match getName d.isVersion2 d.inner pos with
      | .error e => .error e
      | .ok name =>
        if name = target ∧ getInode d.inner pos ≠ 0 then .ok (some (prev, pos))
        else d.findFrom it' (some pos) target := by
  rw [findFrom]
  split <;> rename_i heq <;> rw [h] at heq <;> cases heq
  rfl

/-- The loop of `find_mut_then` over one block: the cursor that it hands on. -/
def findMutFrom (d : DirectoryBlock) (it : DirectoryBlockIteratorMut) (target : Bytes) :
    Except Fault (Option DirectoryBlockIteratorMutCursor) :=
  match _h : DirectoryBlockIteratorMut.next d it with
  | (none, _) => .ok none
  | (some (.error e), _) => .error (.err e)
  | (some (.ok cursor), it') =>
    match getName d.isVersion2 d.inner cursor.pos with
    | .error e => .error e
    | .ok name =>
      if name = target ∧ getInode d.inner cursor.pos ≠ 0 then .ok (some cursor)
      else d.findMutFrom it' target
termination_by d.blkSize - it.pos
decreasing_by
  have := DirectoryBlockIteratorMut.next_pos_lt _h
  omega

theorem findMutFrom_of_none {d : DirectoryBlock} {it it' : DirectoryBlockIteratorMut}
    (target : Bytes) (h : DirectoryBlockIteratorMut.next d it = (none, it')) :
    d.findMutFrom it target = .ok none := by
  rw [findMutFrom]
  split <;> rename_i heq <;> rw [h] at heq <;> cases heq

theorem findMutFrom_of_error {d : DirectoryBlock} {it it' : DirectoryBlockIteratorMut}
    {e : FsError} (target : Bytes)
    (h : DirectoryBlockIteratorMut.next d it = (some (.error e), it')) :
    d.findMutFrom it target = .error (.err e) := by
  rw [findMutFrom]
  split <;> rename_i heq <;> rw [h] at heq <;> cases heq
  rfl

theorem findMutFrom_of_some {d : DirectoryBlock} {it it' : DirectoryBlockIteratorMut}
    {cursor : DirectoryBlockIteratorMutCursor} (target : Bytes)
    (h : DirectoryBlockIteratorMut.next d it = (some (.ok cursor), it')) :
    d.findMutFrom it target =
      match getName d.isVersion2 d.inner cursor.pos with
      | .error e => .error e
      | .ok name =>
        if name = target ∧ getInode d.inner cursor.pos ≠ 0 then .ok (some cursor)
        else d.findMutFrom it' target := by
  rw [findMutFrom]
  split <;> rename_i heq <;> rw [h] at heq <;> cases heq
  rfl

/-- A removal is the search of `find_mut_then`, with `destroy` on what it finds. -/
theorem removeFrom_eq (d : DirectoryBlock) (it : DirectoryBlockIteratorMut) (target : Bytes) :
    d.removeFrom it target = (d.findMutFrom it target).map fun
      | none => (none, d)
      | some cursor => (some (d.destroy cursor).1, (d.destroy cursor).2) := by
  -- The two searches go through the same records, and differ in what they do at the one they find.
  induction it using findMutFrom.induct d target with
  | case1 it it' hnext =>
      rw [removeFrom_of_none target hnext, findMutFrom_of_none target hnext]
      rfl
  | case2 it e it' hnext =>
      rw [removeFrom_of_error target hnext, findMutFrom_of_error target hnext]
      rfl
  | case3 it cursor it' hnext e hname =>
      rw [removeFrom_of_some target hnext, findMutFrom_of_some target hnext, hname]
      rfl
  | case4 it cursor it' hnext name hname hfound =>
      rw [removeFrom_of_some target hnext, findMutFrom_of_some target hnext, hname]
      dsimp only
      rw [if_pos hfound, if_pos hfound]
      rfl
  | case5 it cursor it' hnext name hname hfound ih =>
      rw [removeFrom_of_some target hnext, findMutFrom_of_some target hnext, hname]
      dsimp only
      rw [if_neg hfound, if_neg hfound, ih]

end DirectoryBlock

namespace HTree

open Block Inode.Extent

variable {ρ : Type}

/-! ## Leaf blocks -/

/-- `get_initialized` -/
def getInitialized : AddressingOutput → Option Nat
  | .initialized lba => some lba
  | .uninitialized => none

/-- `dispatch_cursor!(inode, fs, fba, |mut c| c.current())`, with the tree as the drop of
    the cursor leaves it.  A read cursor has no transaction. -/
def currentAt (fs : FileSystem) (ino : Nat) (t : ExtentTree) (fba : Nat) :
    Except Fault (Option AddressingOutput × ExtentTree) :=
  match t.cursorFromFba fs [] (fun _ => []) ino fba with
  | (.error e, _) => .error e
  | (.ok (), c) =>
    match c.current with
    | .error e => .error e
    | .ok o => c.drop.map (o, ·)

def ErrUninitialized : FsError := .invalidFs "Uninitialized data block in directory"

/-- The block of an index entry, by `blocks.get` as by `blocks.get_mut`; `noBlock` is the
    error for a file block that is not mapped. -/
def dataBlock (noBlock : FsError) (fs : FileSystem) (ino : Nat) (t : ExtentTree) (fba : Nat) :
    Except Fault (Nat × DirectoryBlock × ExtentTree) :=
  match currentAt fs ino t fba with
  | .error e => .error e
  | .ok (none, _) => .error (.err noBlock)
  | .ok (some n, t) =>
    match getInitialized n with
    | none => .error (.err ErrUninitialized)
    | some lba =>
      match fs.blocks lba with
      | none => .error (.err .ioError)
      | some b => .ok (lba, { inner := b, isVersion2 := fs.sb.isDirEntryVersion2 }, t)

/-! ## The two lookups -/

/-- The loop over index entries; `search` is the loop over one block. -/
def findIn (search : DirectoryBlock → Except Fault (Option ρ)) (noBlock : FsError)
    (fs : FileSystem) (ino : Nat) :
    List DxEntry → ExtentTree → Except Fault (Option (Nat × ρ) × ExtentTree)
  | [], t => .ok (none, t)
  | en :: ens, t =>
    match dataBlock noBlock fs ino t en.block with
    | .error e => .error e
    | .ok (lba, d, t) =>
      match search d with
      | .error e => .error e
      | .ok (some r) => .ok (some (lba, r), t)
      | .ok none => findIn search noBlock fs ino ens t

/-- `"."` and `".."` -/
def isDot (target : Bytes) : Bool := target = [46] ∨ target = [46, 46]

/-- What `find_then` and `find_mut_then` share.  The dot names are looked for in the root
    block first, and then like any other name. -/
def findWith (search : DirectoryBlock → Except Fault (Option ρ)) (noBlock : FsError)
    (root : DirDxRoot) (fs : FileSystem) (ino : Nat) (t : ExtentTree) (target : Bytes) :
    Except Fault (Option (Nat × ρ) × ExtentTree) :=
  match findIn search noBlock fs ino (if isDot target then [{ hash := 0, block := 0 }] else []) t
  with
  | .error e => .error e
  | .ok (some r, t) => .ok (some r, t)
  | .ok (none, t) =>
    match root.hashOf target with
    | .error e => .error e
    | .ok hash =>
      match HTreeCursor.fromHash root hash with
      | .error e => .error e
      | .ok cursor => findIn search noBlock fs ino (cursor.visits root) t

/-- `find_then`: the block of the entry, the entry before it in the block, and the entry. -/
def findThen (root : DirDxRoot) (fs : FileSystem) (ino : Nat) (t : ExtentTree) (target : Bytes) :
    Except Fault (Option (Nat × Option Nat × Nat) × ExtentTree) :=
  findWith (fun d => d.findFrom {} none target) .noEntry root fs ino t target

def ErrFindMut : FsError :=
  .invalidFs "Fail to index the logical block number during find_mut_then"

/-- `find_mut_then`: the block of the entry and the cursor on it. -/
def findMutThen (root : DirDxRoot) (fs : FileSystem) (ino : Nat) (t : ExtentTree)
    (target : Bytes) :
    Except Fault (Option (Nat × DirectoryBlockIteratorMutCursor) × ExtentTree) :=
  findWith (fun d => d.findMutFrom {} target) ErrFindMut root fs ino t target

end HTree
end RustExt4.Directory
