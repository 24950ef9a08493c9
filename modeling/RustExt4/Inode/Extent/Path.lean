/-
  RustExt4.Inode.Extent.Path

  The path from the root of an extent tree to an extent, and the operations on
  it (`inode/extent/path.rs`).  The nodes below the root are blocks of the file
  system, so a path holds their numbers and the index in each; their content is
  read from and written to the cached blocks.
-/
import RustExt4.Block.Allocator
import RustExt4.Inode.Extent.Node
import RustExt4.Lib.StateExcept

namespace RustExt4.Inode.Extent

open StateExcept
open Transaction (Event)

/-- `Path`.  `leafs` holds at most five nodes, the one after the root first. -/
structure Path where
  ino : Nat
  root : ExtentTree
  rootIdx : Option Nat := none
  leafs : List (Nat × Option Nat) := []
  cache : Option Leaf := none

/-- A cursor, with all that its calls can change.  `noload` is what `get_mut_noload`
    finds for a block: zeros, or the content that the cache still holds. -/
structure Cursor where
  fba : Nat
  path : Path
  fs : FileSystem
  events : List Event
  noload : Nat → Bytes

abbrev CursorM := StateExcept Cursor Fault

/-- `unwrap` -/
def unwrap {α : Type} : Option α → Except Fault α
  | some a => .ok a
  | none => .error .panic

/-- `idx.and_then(|idx| node.get(idx))` -/
def ExtentHeader.getAt (h : ExtentHeader) : Option Nat → Except Fault (Option Entry)
  | some i => h.get i
  | none => .ok none

namespace Cursor

/-! ## The nodes of the path -/

/-- `Path::len` -/
def len (c : Cursor) : Nat := 1 + c.path.leafs.length

/-- `Path::get` and `Path::get_mut`, unwrapped: the node and its index at a level of
    the path, the root at level 0. -/
def level (c : Cursor) : Nat → Except Fault (ExtentHeader × Option Nat)
  | 0 => .ok (.tree c.path.root, c.path.rootIdx)
  | at_ + 1 =>
    match c.path.leafs[at_]? with
    | none => .error .panic
    | some (lba, idx) =>
      match c.fs.blocks lba with
      | none => .error .panic
      | some b => .ok (.node b, idx)

/-- Write through a node of the path. -/
def store (c : Cursor) (at_ : Nat) (h : ExtentHeader) : Cursor :=
  match at_, h with
  | 0, .tree t => { c with path := { c.path with root := t } }
  | at_ + 1, .node b =>
    match c.path.leafs[at_]? with
    | some (lba, _) =>
      { c with fs := { c.fs with blocks := Function.update c.fs.blocks lba (some b) } }
    | none => c
  | _, _ => c

/-- Set the index at a level of the path. -/
def setIdx (c : Cursor) (at_ : Nat) (idx : Option Nat) : Cursor :=
  match at_ with
  | 0 => { c with path := { c.path with rootIdx := idx } }
  | at_ + 1 =>
    { c with path := { c.path with leafs := c.path.leafs.modify at_ fun n => (n.1, idx) } }

/-- `Path::get_leaf` -/
def getLeaf (c : Cursor) : Except Fault (Option Leaf) :=
  match c.path.cache with
  | some l => .ok (some l)
  | none =>
    match c.level (c.len - 1) with
    | .error e => .error e
    | .ok (node, idx) =>
      match node.getAt idx with
      | .error e => .error e
      | .ok en => .ok (en.bind Entry.getLeaf)

end Cursor

namespace Path

/-- `Leafs::push` -/
def push (n : Nat × Option Nat) : CursorM Unit := do
  let c ← get
  if c.path.leafs.length < 5 then
    modify fun c => { c with path := { c.path with leafs := c.path.leafs ++ [n] } }
  else throw .panic

/-- `fs.blocks.get(..).and_then(Node::from_bytes)`; `get_mut` finds the same content. -/
def node (lba : Nat) : CursorM ExtentHeader := do
  let c ← get
  match c.fs.blocks lba with
  | some b => lift (ExtentHeader.fromBytes b)
  | none => throw (.err .ioError)

/-- The loop of the load functions: go down `n` nodes from the entry, taking the
    index that `pick` gives in each.  The entry under the last index is returned. -/
def descend (pick : ExtentHeader → Except Fault (Option Nat)) :
    Nat → Option Entry → CursorM (Option Entry)
  | 0, last => pure last
  | _ + 1, none => pure none
  | n + 1, some ext => do
    let lba ← lift (unwrap ext.nextNode)
    let nd ← node lba
    let index ← lift (pick nd)
    let last ← lift (nd.getAt index)
    push (lba, index)
    descend pick n last

/-- `index = Some(node.get_entries_cnt() as usize - 1)` -/
def pickLast (h : ExtentHeader) : Except Fault (Option Nat) :=
  if h.entriesCnt = 0 then .error .panic else .ok (some (h.entriesCnt - 1))

/-- `leafs.clear()` and `root.1 = root_index` -/
def start (rootIndex : Option Nat) : CursorM (Option Entry) := do
  modify fun c => { c with path := { c.path with rootIdx := rootIndex } }
  let c ← get
  lift ((ExtentHeader.tree c.path.root).getAt rootIndex)

def clearLeafs : CursorM Unit :=
  modify fun c => { c with path := { c.path with leafs := [] } }

def clearCache : CursorM Unit :=
  modify fun c => { c with path := { c.path with cache := none } }

/-- `Path::load` of a mutable path.  It leaves the cache of the path alone. -/
def loadMut (fba : Nat) : CursorM Unit := do
  clearLeafs
  let c ← get
  let rootIndex ← lift ((ExtentHeader.tree c.path.root).binarySearch fba)
  let last ← start rootIndex
  let _ ← descend (fun h => h.binarySearch fba) c.path.root.depth last
  pure ()

/-- `Path::load` of a read-only path. -/
def load (fba : Nat) : CursorM Unit := do
  loadMut fba
  clearCache

/-- `Path::load_last` -/
def loadLast : CursorM (Option Nat) := do
  clearLeafs
  let c ← get
  if c.path.root.entriesCnt = 0 then do
    modify fun c => { c with path := { c.path with rootIdx := none } }
    pure none
  else do
    let first ← start (some (c.path.root.entriesCnt - 1))
    let last ← descend pickLast c.path.root.depth first
    let leaf ← lift (unwrap ((last.or first).bind Entry.getLeaf))
    let fba ← lift leaf.lastFba
    pure (some fba)

/-- `Path::load_path_to_last` -/
def loadPathToLast : CursorM Unit := do
  clearLeafs
  let c ← get
  let rootIndex :=
    if c.path.root.entriesCnt = 0 then none else some (c.path.root.entriesCnt - 1)
  let first ← start rootIndex
  let _ ← descend pickLast c.path.root.depth first
  clearCache

/-! ## Insertion -/

/-- The merge of `insert_leaf`: the extent under the index together with the new one. -/
def merged (new : Leaf) : Option Entry → Except Fault (Option Leaf)
  | some (.leaf l) =>
    if l.block + l.len = new.block ∧ l.start + l.len = new.start then
      -- `len + new.len` is a sum of `u16`.
      if 2 ^ 16 ≤ l.len + new.len then .error .panic
      else if l.len + new.len ≤ 0x8000 ∧ l.isInit then
        .ok (some { l with len := l.len + new.len })
      else .ok none
    else .ok none
  | _ => .ok none

/-- The loop of `insert_leaf` that passes a new first key up to the parents, from
    level `n - 1` on. -/
def fixKeys (updatedStart : Nat) : Nat → Nat → CursorM Unit
  | 0, _ => pure ()
  | n + 1, pos =>
    if pos ≠ 0 then pure ()
    else do
      let c ← get
      let (nd, idx) ← lift (c.level n)
      let pos ← lift (unwrap idx)
      let en ← lift (nd.get pos)
      let prev ← lift (unwrap (en.bind Entry.getInternal))
      let nd ← lift
        (nd.replaceAt (.internal { block := updatedStart, nextNode := prev.nextNode }) pos)
      modify (·.store n nd)
      fixKeys updatedStart n pos

/-- The index at which `insert_leaf` puts the new extent. -/
def insertPos (new : Leaf) (leaf : Option Leaf) (index : Option Nat) : Except Fault Nat :=
  match leaf with
  | none => .ok 0
  | some l => (unwrap index).map fun i => if l.block < new.block then i + 1 else i

/-- `Path::insert_leaf` -/
def insertLeaf (new : Leaf) : CursorM (Option Leaf) := do
  let c ← get
  let leaf ← lift c.getLeaf
  if leaf.any fun l => l.block == new.block then
    throw (.err (.invalidFs "Extent tree is corrupted"))
  else do
    let (nd, index) ← lift (c.level (c.len - 1))
    let cur ← lift (nd.getAt index)
    match ← lift (merged new cur) with
    | some l => do
      let i ← lift (unwrap index)
      let nd ← lift (nd.replaceAt (.leaf l) i)
      modify (·.store (c.len - 1) nd)
      pure none
    | none =>
      if nd.isFull then pure (some new)
      else do
        let pos ← lift (insertPos new leaf index)
        modify (·.setIdx (c.len - 1) (some pos))
        let nd ← lift (nd.insertAt (.leaf new) pos)
        modify (·.store (c.len - 1) nd)
        fixKeys new.block (c.len - 1) pos
        pure none

/-- `fs.blocks.allocate` -/
def allocate (ino size hope : Nat) : CursorM (Nat × Nat) := fun c =>
  match c.fs.allocate c.events ino size hope with
  | (r, fs, events) => (r, { c with fs := fs, events := events })

/-- `fs.blocks.deallocate` -/
def deallocate (ino lba size : Nat) : CursorM Unit := fun c =>
  match c.fs.deallocate c.events ino lba size with
  | (r, events) => (r, { c with events := events })

/-- `fs.blocks.get_mut_noload` -/
def getMutNoload (lba : Nat) : CursorM Unit :=
  modify fun c =>
    { c with fs := { c.fs with blocks := Function.update c.fs.blocks lba (some (c.noload lba)) } }

/-- Change the content of a block. -/
def writeBlock (lba : Nat) (b : Bytes) : CursorM Unit :=
  modify fun c =>
    { c with fs := { c.fs with blocks := Function.update c.fs.blocks lba (some b) } }

/-- The header of a new node. -/
def initNode (blkSize depth : Nat) (b : Bytes) : Bytes :=
  let b := ByteRw.writeU16 b 0 0xF30A
  let b := ByteRw.writeU16 b 2 0
  let b := ByteRw.writeU16 b 4 ((blkSize - 16) / 12)
  ByteRw.writeU16 b 6 depth

/-- `(ino - 1) / inodes_per_group` -/
def inoGroup (sb : SuperBlock) (ino : Nat) : Except Fault Nat :=
  if ino = 0 ∨ sb.inodesPerGroup = 0 then .error .panic
  else .ok ((ino - 1) / sb.inodesPerGroup)

/-- `for i in 0..n`: the entries `from_ ..` of one node are put at the end of another. -/
def moveEntries (src : ExtentHeader) (from_ : Nat) : Nat → Nat → ExtentHeader →
    Except Fault ExtentHeader
  | _, 0, dst => .ok dst
  | i, n + 1, dst =>
    match src.get (from_ + i) with
    | .ok (some en) =>
      match dst.insertAt en i with
      | .ok dst => moveEntries src from_ (i + 1) n dst
      | .error e => .error e
    | _ => .error .panic

/-- `Path::grow_extent`: the entries of the root move to a new node. -/
def growExtent : CursorM Unit := do
  let c ← get
  let root := ExtentHeader.tree c.path.root
  let group ← lift (inoGroup c.fs.sb c.path.ino)
  let en ← lift (root.get 0)
  let (lba, _) ← allocate c.path.ino 1 ((en.bind Entry.nextNode).getD group)
  getMutNoload lba
  let c ← get
  let nd ← lift (moveEntries root 0 0 c.path.root.entriesCnt
    (.node (initNode c.fs.blkSize c.path.root.depth (c.noload lba))))
  writeBlock lba nd.bytes
  let en ← lift (nd.get 0)
  let first ← lift (unwrap en)
  let root ← lift ((ExtentHeader.tree
    { c.path.root with entriesCnt := 0, depth := c.path.root.depth + 1 }).insertAt
    (.internal { block := first.firstBlock, nextNode := lba }) 0)
  modify (·.store 0 root)

/-- `Path::insert_internal` -/
def insertInternal (ext : Internal) (at_ : Nat) : CursorM Bool := do
  let c ← get
  let (nd, idx) ← lift (c.level at_)
  if nd.isFull then pure false
  else do
    let cur ← lift (nd.getAt idx)
    let loc ← lift (match idx with
      | none => .ok 0
      | some i => (unwrap cur).map fun e => if e.firstBlock < ext.block then i + 1 else i)
    let nd ← lift (nd.insertAt (.internal ext) loc)
    modify (·.store at_ nd)
    pure true

/-- The key of the new node in `split_at`. -/
def splitKey (new : Leaf) (en : ExtentHeader) (idx : Option Nat) : Except Fault Nat :=
  if en.maxEntriesCnt = 0 then .error .panic
  else if idx = some (en.maxEntriesCnt - 1) then .ok new.block
  else
    match unwrap idx with
    | .error e => .error e
    | .ok i =>
      match en.get (i + 1) with
      | .error e => .error e
      | .ok none => .error (.err (.invalidFs "Corrupted Extent Tree"))
      | .ok (some e) => .ok e.firstBlock

/-- `for _ in at..self.len()`: the blocks for the new nodes. -/
def allocateNodes : Nat → CursorM (List Nat)
  | 0 => pure []
  | n + 1 => do
    let c ← get
    let (lba, _) ← allocate c.path.ino 1 0
    getMutNoload lba
    let lbas ← allocateNodes n
    pure (lba :: lbas)

/-- The leaf node arm in `split_at`: the entries after the index move to the new node. -/
def splitLeaf (lba at_ : Nat) : CursorM Unit := do
  let c ← get
  let (ext, _) ← lift (c.level at_)
  let b ← lift (unwrap (c.fs.blocks lba))
  writeBlock lba (initNode c.fs.blkSize ext.depth b)
  let c ← get
  let (ext, idx) ← lift (c.level at_)
  let base ← lift (unwrap idx)
  let b ← lift (unwrap (c.fs.blocks lba))
  -- `ext.get_entries_cnt() as usize - base - 1`
  if ext.entriesCnt < base + 1 then throw .panic
  else do
    let nd ← lift (moveEntries ext (base + 1) 0 (ext.entriesCnt - base - 1) (.node b))
    writeBlock lba nd.bytes
    modify (·.store at_ (ext.setEntriesCnt (base + 1)))

/-- `Path::split_at`.  Levels above the leaf node are `todo!()` in the source. -/
def splitAt (new : Leaf) (at_ : Nat) : CursorM (Bool × List Nat) := do
  let c ← get
  let (en, idx) ← lift (c.level (c.len - 1))
  let insertIdx ← lift (splitKey new en idx)
  let blocks ← allocateNodes (c.len - at_)
  match blocks with
  | [] => throw .panic
  | lba :: _ =>
    if at_ ≠ c.len - 1 then throw .panic
    else do
      splitLeaf lba at_
      if at_ = 0 then throw .panic
      else do
        let done ← insertInternal { block := insertIdx, nextNode := lba } (at_ - 1)
        if done then pure (decide (insertIdx ≤ new.block), blocks)
        else throw (.err (.invalidFs "Extent Tree is corrupted."))

/-- `(0..self.len()).rev().find(..)`: the deepest node below level `n` that is not
    full. -/
def findLevel (c : Cursor) : Nat → Except Fault (Option Nat)
  | 0 => .ok none
  | n + 1 =>
    match c.level n with
    | .error e => .error e
    | .ok (nd, _) => if nd.isFull then findLevel c n else .ok (some n)

/-- The repair of the path in `do_insert` after a split. -/
def fixPath (level : Nat) (blks : List Nat) : CursorM Unit := do
  let c ← get
  let (_, idx) ← lift (c.level level)
  modify (·.setIdx level (some ((idx.map (· + 1)).getD 0)))
  blks.forM fun blk => do
    let nd ← node blk
    let c ← get
    let idx := if nd.entriesCnt = 0 then none else some (nd.entriesCnt - 1)
    if level < c.path.leafs.length then
      modify fun c => { c with path := { c.path with leafs := c.path.leafs.set level (blk, idx) } }
    else throw .panic

/-- Every `Err` becomes `FsError::IoError`. -/
def toIoError : Fault → Fault
  | .err _ => .err .ioError
  | e => e

/-- `Path::do_insert` -/
def doInsert : Nat → Leaf → CursorM (Option Leaf)
  | 0, _ => throw .outOfFuel
  | n + 1, new => do
    match ← insertLeaf new with
    | none => pure none
    | some new => do
      let c ← get
      match ← lift (findLevel c c.len) with
      | none => do
        growExtent
        pure (some new)
      | some level => do
        let (needFix, blks) ← mapError toIoError (splitAt new (c.len - level - 1))
        if needFix then fixPath level blks
        doInsert n new

/-- `Path::insert` -/
def insert : Nat → Leaf → CursorM Nat
  | 0, _ => throw .outOfFuel
  | n + 1, leaf => do
    match ← doInsert (n + 1) leaf with
    | none => pure leaf.start
    | some l => do
      loadMut leaf.block
      insert n l

/-! ## Truncation -/

/-- The loop of `move_prev_with_cleanup`, on a path of `n` nodes below the root;
    whether the path has to be filled again. -/
def cleanup : Nat → CursorM Bool
  | 0 => do
    let c ← get
    match c.path.rootIdx with
    | none => pure false
    | some 0 => do
      modify (·.setIdx 0 none)
      pure false
    | some (i + 1) => do
      modify (·.setIdx 0 (some i))
      pure true
  | n + 1 => do
    let c ← get
    match c.path.leafs.getLast? with
    | none => throw .panic
    | some (lba, idx) =>
      match idx with
      | none => pure false
      | some (i + 1) => do
        modify (·.setIdx (n + 1) (some i))
        pure true
      | some 0 => do
        let (pNode, _) ← lift (c.level (n + 1))
        modify fun c => { c with path := { c.path with leafs := c.path.leafs.dropLast } }
        if pNode.entriesCnt = 0 then do
          let c ← get
          let (nd, idx) ← lift (c.level n)
          let i ← lift (unwrap idx)
          if i + 1 ≠ nd.entriesCnt then throw .panic
          else do
            let en ← lift (nd.get i)
            let next ← lift (unwrap (en.bind Entry.nextNode))
            if next ≠ lba then throw .panic
            else do
              deallocate c.path.ino lba 1
              modify (·.store n (nd.setEntriesCnt i))
              if i ≠ 0 then pure true else cleanup n
        else cleanup n

/-- `Path::move_prev_with_cleanup` -/
def movePrevWithCleanup : CursorM Unit := do
  let orig ← get
  if ← cleanup orig.path.leafs.length then do
    let c ← get
    let (nd, idx) ← lift (c.level (c.len - 1))
    let last ← lift (nd.getAt idx)
    let _ ← descend pickLast (orig.len - c.len) last
    pure ()
  else pure ()

/-- What `truncate_last` does once the blocks are given back. -/
def truncateEntry (leaf : Leaf) (newLen : Nat) : CursorM Unit := do
  let c ← get
  let (nd, idx) ← lift (c.level (c.len - 1))
  if newLen ≠ 0 then do
    let i ← lift (unwrap idx)
    let nd ← lift (nd.replaceAt (.leaf { leaf with len := newLen }) i)
    modify (·.store (c.len - 1) nd)
  else do
    modify (·.store (c.len - 1) (nd.setEntriesCnt (nd.entriesCnt - 1)))
    movePrevWithCleanup

/-- `Path::truncate_last` -/
def truncateLast (newLen : Nat) : CursorM Unit := do
  let c ← get
  let en ← lift c.getLeaf
  let leaf ← lift (unwrap en)
  clearCache
  if leaf.isInit then
    if leaf.len < newLen then throw .panic
    else deallocate c.path.ino (leaf.start + newLen) (leaf.len - newLen)
  truncateEntry leaf newLen

end Path
end RustExt4.Inode.Extent
