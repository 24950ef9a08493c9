/-
  RustExt4.Inode.Extent.Cursor

  Cursors over an extent tree (`inode/extent/cursor.rs` and the functions of
  `inode/extent/mod.rs` that open them), and the loops over file blocks that use
  them (`file.rs`).  The lock of the tree's cache is taken to be free, as it is
  where no two cursors of one inode are opened or dropped at the same time.
-/
import RustExt4.Inode.Extent.Path

namespace RustExt4.Inode.Extent

open StateExcept
open Transaction (Event)

inductive AddressingOutput
  | uninitialized
  | initialized (lba : Nat)
  deriving DecidableEq, Repr

/-- Where `l` puts a file block that it contains. -/
def Leaf.address (l : Leaf) (fba : Nat) : AddressingOutput :=
  if l.isInit then .initialized (l.start + (fba - l.block)) else .uninitialized

namespace Cursor

/-- `current`, of both cursors. -/
def current (c : Cursor) : Except Fault (Option AddressingOutput) :=
  c.getLeaf.map fun en =>
    en.bind fun l => if l.contains c.fba then some (l.address c.fba) else none

/-- `self.fba += n` -/
def advance (n : Nat) : CursorM Unit := do
  let c ← get
  if c.fba + n < 2 ^ 32 then modify fun c => { c with fba := c.fba + n } else throw .panic

/-- `Cursor::move_next` -/
def moveNext : CursorM Unit := do
  let c ← get
  match ← lift c.getLeaf with
  | none => pure ()
  | some l => do
    advance 1
    let c ← get
    if c.fba < l.block ∨ l.block + l.len ≤ c.fba then Path.load c.fba else pure ()

/-- `CursorMut::move_next_many` -/
def moveNextMany (n : Nat) : CursorM Unit := do
  let c ← get
  match ← lift c.getLeaf with
  | none => pure ()
  | some l => do
    advance n
    let c ← get
    if l.contains c.fba then pure () else Path.loadMut c.fba

/-- Where `or_allocated_many` would like the new blocks; the block itself where it
    is mapped. -/
def hope (c : Cursor) : Option Leaf → Except Fault (Nat ⊕ Nat)
  | some l =>
    if l.contains c.fba then
      if l.isInit then .ok (.inl (l.start + (c.fba - l.block)))
      -- `todo!("Uninitialized extent")`
      else .error .panic
    else if l.isInit = false then .error .panic
    else if c.fba < l.block then
      -- `start + (fba - start)`
      if c.fba < l.start then .error .panic else .ok (.inr c.fba)
    else
      -- `start - (fba - block)`
      if l.start < c.fba - l.block then .error .panic else .ok (.inr (l.start - (c.fba - l.block)))
  | none =>
    match c.path.leafs.getLast? with
    | none => (Path.inoGroup c.fs.sb c.path.ino).map .inr
    | some (lba, _) => .ok (.inr lba)

/-- `or_allocated_many`, with the fuel of the insertion. -/
def orAllocatedMany (fuel size : Nat) (isMeta : Bool) : CursorM (Nat × Nat) := do
  let c ← get
  let leaf ← lift c.getLeaf
  match ← lift (c.hope leaf) with
  | .inl lba => pure (lba, 1)
  | .inr hope => do
    let (lba, len) ← Path.allocate c.path.ino size hope
    -- `len.try_into().unwrap()`
    if 2 ^ 16 ≤ len then throw .panic
    else do
      let n ← Path.insert fuel { block := c.fba, start := lba, len := len, isInit := true }
      if isMeta then (List.range len).forM fun i => Path.getMutNoload (n + i)
      pure (n, len)

/-- `or_allocated` -/
def orAllocated (fuel : Nat) (isMeta : Bool) : CursorM Nat := do
  let (n, _) ← orAllocatedMany fuel 1 isMeta
  pure n

/-- The loop of `remove_after`. -/
def removeLoop (until_ : Nat) : Nat → CursorM Unit
  | 0 => throw .outOfFuel
  | n + 1 => do
    let c ← get
    match ← lift c.getLeaf with
    | none => pure ()
    | some l =>
      if l.block + l.len < until_ then pure ()
      -- `try_into().unwrap()`
      else if 2 ^ 16 ≤ until_ - l.block then throw .panic
      else do
        Path.truncateLast (until_ - l.block)
        removeLoop until_ n

/-- `remove_after` -/
def removeAfter (fuel : Nat) : CursorM Unit := do
  let c ← get
  Path.loadPathToLast
  removeLoop c.fba fuel

/-- The loop of `File::for_each_lba_mut`: the blocks that it hands to its callback. -/
def lbas (fuel : Nat) : Nat → CursorM (List Nat)
  | 0 => pure []
  | n + 1 => do
    let lba ← orAllocated fuel false
    if n ≠ 0 then moveNextMany 1
    let rest ← lbas fuel n
    pure (lba :: rest)

/-- `Drop` of both cursors: the tree as it is left, with its cache. -/
def drop (c : Cursor) : Except Fault ExtentTree :=
  c.getLeaf.map fun en =>
    match en with
    | some l => { c.path.root with cache := some l }
    | none => c.path.root

end Cursor

namespace ExtentTree

/-- The cursor before its path is loaded. -/
def emptyCursor (t : ExtentTree) (fs : FileSystem) (events : List Event) (noload : Nat → Bytes)
    (ino fba : Nat) : Cursor :=
  { fba := fba, path := { ino := ino, root := t }, fs := fs, events := events, noload := noload }

/-- The start of `cursor_from_fba` and `cursor_from_fba_mut`: the cached extent
    where it contains the block, else a path that is loaded. -/
def openAt (t : ExtentTree) (load : Nat → CursorM Unit) (c : Cursor) : Except Fault Unit × Cursor :=
  match t.cache with
  | some l =>
    if l.contains c.fba then (.ok (), { c with path := { c.path with cache := some l } })
    else load c.fba c
  | none => load c.fba c

/-- `cursor_from_fba` -/
def cursorFromFba (t : ExtentTree) (fs : FileSystem) (events : List Event)
    (noload : Nat → Bytes) (ino fba : Nat) : Except Fault Unit × Cursor :=
  t.openAt Path.load (t.emptyCursor fs events noload ino fba)

/-- `cursor_from_fba_mut` -/
def cursorFromFbaMut (t : ExtentTree) (fs : FileSystem) (events : List Event)
    (noload : Nat → Bytes) (ino fba : Nat) : Except Fault Unit × Cursor :=
  t.openAt Path.loadMut (t.emptyCursor fs events noload ino fba)

/-- `cursor_last_mut` -/
def cursorLastMut (t : ExtentTree) (fs : FileSystem) (events : List Event)
    (noload : Nat → Bytes) (ino : Nat) : Except Fault Unit × Cursor :=
  match Path.loadLast (t.emptyCursor fs events noload ino 0) with
  | (.error e, c) => (.error e, c)
  | (.ok none, c) => (.ok (), c)
  | (.ok (some fba), c) => Cursor.moveNextMany 1 { c with fba := fba }

/-- `File::for_each_lba_mut`, up to the drop of its cursor. -/
def forEachLbaMut (t : ExtentTree) (fs : FileSystem) (events : List Event) (noload : Nat → Bytes)
    (ino st len fuel : Nat) : Except Fault (List Nat) × Cursor :=
  match t.cursorFromFbaMut fs events noload ino st with
  | (.error e, c) => (.error e, c)
  | (.ok (), c) => Cursor.lbas fuel len c

end ExtentTree
end RustExt4.Inode.Extent
