/-
  RustExt4.Directory.HTree.Node

  The split of a full leaf block of a hashed directory
  (`directory/htree/node.rs`, `DirDxRoot::split_data`).  The hash function, which
  may panic, the new block and the outcome of the insertion into the index blocks are
  parameters: the leaf blocks depend on them in no other way.  The `BTreeMap` is a
  `SortedMap`.
-/
import RustExt4.Directory.Block
import RustExt4.Lib.SortedMap

namespace RustExt4.Directory.HTree

open DirectoryEntryDispatch

/-- The hash of a name, where there is one. -/
def hashVal (hashOf : Bytes → Except Fault Nat) (name : Bytes) : Nat :=
  (hashOf name).toOption.getD 0

theorem hashVal_eq {hashOf : Bytes → Except Fault Nat} {name : Bytes} {hash : Nat}
    (h : hashOf name = .ok hash) : hashVal hashOf name = hash := by
  rw [hashVal, h]
  rfl

/-- Gather and sort the entries in the last block. -/
def gather (hashOf : Bytes → Except Fault Nat) (dblk : DirectoryBlock) (it : DirectoryBlockIterator)
    (entries : List (Nat × DirEntry)) : Except Fault (List (Nat × DirEntry)) :=
  match _h : DirectoryBlockIterator.next dblk it with
  | (.error e, _) => .error e
  | (.ok none, _) => .ok entries
  | (.ok (some (.error e)), _) => .error (.err e)
  | (.ok (some (.ok pos)), it') =>
    match getName dblk.isVersion2 dblk.inner pos with
    | .error e => .error e
    | .ok name =>
      match hashOf name with
      | .error e => .error e
      | .ok hash =>
        gather hashOf dblk it' (SortedMap.insert hash
          { inode := getInode dblk.inner pos, name := name
            ty := getFileType dblk.isVersion2 dblk.inner pos } entries)
termination_by dblk.blkSize - it.pos
decreasing_by
  have := DirectoryBlockIterator.next_pos_lt _h
  omega

theorem gather_of_none {hashOf : Bytes → Except Fault Nat} {dblk : DirectoryBlock}
    {it it' : DirectoryBlockIterator} {entries : List (Nat × DirEntry)}
    (h : DirectoryBlockIterator.next dblk it = (.ok none, it')) :
    gather hashOf dblk it entries = .ok entries := by
  rw [gather]
  split <;> rename_i heq <;> rw [h] at heq <;> cases heq

theorem gather_of_some {hashOf : Bytes → Except Fault Nat} {dblk : DirectoryBlock}
    {it it' : DirectoryBlockIterator} {pos : Nat} {entries : List (Nat × DirEntry)}
    (h : DirectoryBlockIterator.next dblk it = (.ok (some (.ok pos)), it')) :
    gather hashOf dblk it entries =
      match getName dblk.isVersion2 dblk.inner pos with
      | .error e => .error e
      | .ok name =>
        match hashOf name with
        | .error e => .error e
        | .ok hash =>
          gather hashOf dblk it' (SortedMap.insert hash
            { inode := getInode dblk.inner pos, name := name
              ty := getFileType dblk.isVersion2 dblk.inner pos } entries) := by
  rw [gather]
  split <;> rename_i heq <;> rw [h] at heq <;> cases heq
  rfl

/-- Find half of entry by size: the hash at which the new block starts and the
    number of entries that stay in the old one. -/
def findHalf (blkSize : Nat) : List (Nat × DirEntry) → Nat → Nat → Nat → Option (Nat × Nat)
  | [], _, _, _ => none
  | (hash, en) :: entries, used, phash, idx =>
    if blkSize / 2 < used + (en.name.length + 8) then
      -- Handle hash collision
      some (if phash = hash then hash + 1 else hash, idx)
    else findHalf blkSize entries (used + (en.name.length + 8)) hash (idx + 1)

/-- Put entries into a block; the boolean result of `insert_entry` is dropped. -/
def putEntries (dblk : DirectoryBlock) : List DirEntry → Except Fault DirectoryBlock
  | [] => .ok dblk
  | en :: ens =>
    match dblk.insertEntry en.name (en.ty.map Ext4De.intoFileType) en.inode with
    | .error e => .error e
    | .ok (_, dblk') => putEntries dblk' ens

/-- `split_data`: the old and the new leaf block.  `newBlk` is the allocated block
    with what the cache holds for it, `insertDx` the insertion of the new index
    entry by its hash. -/
def splitData (hashOf : Bytes → Except Fault Nat) (insertDx : Nat → Except Fault Unit)
    (newBlk : Except Fault Bytes) (dblk : DirectoryBlock) (en : DirEntry) :
    Except Fault (DirectoryBlock × DirectoryBlock) :=
  match gather hashOf dblk {} [] with
  | .error e => .error e
  | .ok gathered =>
    match hashOf en.name with
    | .error e => .error e
    | .ok hash =>
      -- the new entry takes its place among the old ones, by hash
      let entries := SortedMap.insert hash en gathered
      match newBlk with
      | .error e => .error e
      | .ok newBlk =>
        match findHalf dblk.blkSize entries 0 u32Max 0 with
        | none => .error .panic
        | some (newHash, splitPos) =>
          match insertDx newHash with
          | .error e => .error e
          | .ok () =>
            -- the lower half goes back to the leaf, the upper half to the new block
            match putEntries dblk.clear ((entries.map Prod.snd).take splitPos) with
            | .error e => .error e
            | .ok old =>
              match putEntries (DirectoryBlock.clear
                  { inner := newBlk, isVersion2 := dblk.isVersion2 })
                  ((entries.map Prod.snd).drop splitPos) with
              | .error e => .error e
              | .ok new => .ok (old, new)

end RustExt4.Directory.HTree
