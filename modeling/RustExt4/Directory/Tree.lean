/-
  RustExt4.Directory.Tree

  Creation and removal of directory entries (`directory/mod.rs`, `create_entry` and
  `do_remove_entry`), each with the commit of its transaction, and the `Drop` of an
  inode (`inode/mod.rs`).  The link counts stand in two places: in the inode objects
  that are alive in memory, and in the records on disk, which change at the commit.

  Of the directory schemes the model has what they do to the entries: an addition or a
  removal can fail, and can lose other entries (a split of a full leaf does), but makes
  none up.
-/
import RustExt4.Transaction.Links
import RustExt4.Inode.Allocator

namespace RustExt4

open Transaction (Event Disk Applied)

/-- An `Inode` in memory. -/
structure InodeObject where
  ftype : FileType
  linksCount : Nat
  deriving DecidableEq

/-- A live directory entry. -/
structure Dirent where
  dir : Nat
  name : String
  ino : Nat
  deriving DecidableEq

structure FileTree where
  sb : DescriptorSb
  inodes : Inode.Allocator
  disk : Disk
  /-- the inode objects that are alive, by number -/
  objects : Nat → Option InodeObject
  entries : List Dirent

namespace FileTree

/-- `Manager::get`: the object that is alive, or a new one from the record. -/
def get (s : FileTree) (ino : Nat) : Option InodeObject :=
  match s.objects ino with
  | some o => some o
  | none => (s.disk.inodes ino).map fun raw =>
    { ftype := Inode.Manipulator.detectType raw, linksCount := Inode.Manipulator.linksCount raw }

/-! ## Directory schemes -/

/-- The events by which a directory grows. -/
def Grows : Event → Prop
  | .blockAllocationOnBg .. | .inodeSetSize .. => True
  | _ => False

/-- `Scheme::add_entry`, which succeeds or fails. -/
inductive AddEntry (entries : List Dirent) (e : Dirent) :
    Bool → List Event → List Dirent → Prop
  | ok {events : List Event} {entries' : List Dirent} (hgrows : ∀ ev ∈ events, Grows ev)
      (h : entries' ⊆ e :: entries) : AddEntry entries e true events entries'
  | err {events : List Event} {entries' : List Dirent} (hgrows : ∀ ev ∈ events, Grows ev)
      (h : entries' ⊆ entries) : AddEntry entries e false events entries'

/-- `Scheme::remove_entry` of a name that it finds. -/
def RemoveEntry (entries : List Dirent) (e : Dirent) (entries' : List Dirent) : Prop :=
  e ∈ entries ∧ entries' ⊆ entries.erase e

/-! ## `Directory::create_entry` -/

/-- `Manager::allocate`: a number without an object, and the events of the allocator. -/
def Allocate (s : FileTree) (ftype : FileType) (ino : Nat) (inodes : Inode.Allocator)
    (events : List Event) : Prop :=
  s.inodes.allocate [] ftype = (.ok ino, inodes, events) ∧ s.objects ino = none

/-- The call in a fresh transaction, with the events that it leaves.  `dots` tells of a
    directory that it has got its entries `.` and `..`.  An object that is made for a
    call which fails then is dropped with it. -/
inductive CreateEntry (s : FileTree) (dir : Nat) (name : String) :
    FileType → Bool → List Event → FileTree → Prop
  /-- the directory is to be removed, or has the name -/
  | refused {ftype : FileType} : CreateEntry s dir name ftype false [] s
  | noInode {ftype : FileType} {e : Fault} {inodes : Inode.Allocator} {events : List Event}
      (h : s.inodes.allocate [] ftype = (.error e, inodes, events)) :
      CreateEntry s dir name ftype false events { s with inodes := inodes }
  /-- "Inode object is not cleaned up" -/
  | notCleanedUp {ftype : FileType} {ino : Nat} {inodes : Inode.Allocator} {events : List Event}
      (h : s.inodes.allocate [] ftype = (.ok ino, inodes, events))
      (halive : (s.objects ino).isSome) :
      CreateEntry s dir name ftype false events { s with inodes := inodes }
  | noEntry {ino : Nat} {inodes : Inode.Allocator} {events events1 : List Event}
      {entries : List Dirent} (h : s.Allocate .regularFile ino inodes events)
      (hadd : AddEntry s.entries ⟨dir, name, ino⟩ false events1 entries) :
      CreateEntry s dir name .regularFile false (events ++ events1)
        { s with inodes := inodes, entries := entries }
  | file {ino : Nat} {inodes : Inode.Allocator} {events events1 : List Event}
      {entries : List Dirent} (h : s.Allocate .regularFile ino inodes events)
      (hadd : AddEntry s.entries ⟨dir, name, ino⟩ true events1 entries) :
      CreateEntry s dir name .regularFile false (events ++ events1 ++ [.inodeAddLink ino])
        { s with
          inodes := inodes, entries := entries
          objects := Function.update s.objects ino (some ⟨.regularFile, 1⟩) }
  | noDot {ino : Nat} {inodes : Inode.Allocator} {events events1 : List Event}
      {entries : List Dirent} (h : s.Allocate .directory ino inodes events)
      (hdot : AddEntry s.entries ⟨ino, ".", ino⟩ false events1 entries) :
      CreateEntry s dir name .directory false (events ++ events1)
        { s with inodes := inodes, entries := entries }
  | noDotDot {ino : Nat} {inodes : Inode.Allocator} {events events1 events2 : List Event}
      {entries1 entries : List Dirent} (h : s.Allocate .directory ino inodes events)
      (hdot : AddEntry s.entries ⟨ino, ".", ino⟩ true events1 entries1)
      (hdotdot : AddEntry entries1 ⟨ino, "..", dir⟩ false events2 entries) :
      CreateEntry s dir name .directory false (events ++ events1 ++ events2)
        { s with inodes := inodes, entries := entries }
  | noDirectoryEntry {ino : Nat} {inodes : Inode.Allocator}
      {events events1 events2 events3 : List Event} {entries1 entries2 entries : List Dirent}
      (h : s.Allocate .directory ino inodes events)
      (hdot : AddEntry s.entries ⟨ino, ".", ino⟩ true events1 entries1)
      (hdotdot : AddEntry entries1 ⟨ino, "..", dir⟩ true events2 entries2)
      (hadd : AddEntry entries2 ⟨dir, name, ino⟩ false events3 entries) :
      CreateEntry s dir name .directory true
        (events ++ events1 ++ events2 ++ [.inodeAddLink ino, .inodeAddLink dir] ++ events3)
        { s with inodes := inodes, entries := entries }
  /-- the object of the directory itself keeps its count -/
  | directory {ino : Nat} {inodes : Inode.Allocator}
      {events events1 events2 events3 : List Event} {entries1 entries2 entries : List Dirent}
      (h : s.Allocate .directory ino inodes events)
      (hdot : AddEntry s.entries ⟨ino, ".", ino⟩ true events1 entries1)
      (hdotdot : AddEntry entries1 ⟨ino, "..", dir⟩ true events2 entries2)
      (hadd : AddEntry entries2 ⟨dir, name, ino⟩ true events3 entries) :
      CreateEntry s dir name .directory true
        (events ++ events1 ++ events2 ++ [.inodeAddLink ino, .inodeAddLink dir] ++ events3 ++
          [.inodeAddLink ino])
        { s with
          inodes := inodes, entries := entries
          objects := Function.update s.objects ino (some ⟨.directory, 2⟩) }

/-! ## `Directory::remove_entry` -/

/-- The call in a fresh transaction, with the events that it leaves. -/
inductive RemovesEntry (s : FileTree) (dir : Nat) (name : String) :
    List Event → FileTree → Prop
  | noEntry {entries : List Dirent} (h : entries ⊆ s.entries) :
      RemovesEntry s dir name [] { s with entries := entries }
  /-- the entry is gone when `get` fails -/
  | unread {ino : Nat} {entries : List Dirent}
      (h : RemoveEntry s.entries ⟨dir, name, ino⟩ entries) :
      RemovesEntry s dir name [] { s with entries := entries }
  /-- "Invalid inode.links_count" -/
  | invalid {ino : Nat} {o : InodeObject} {entries : List Dirent}
      (h : RemoveEntry s.entries ⟨dir, name, ino⟩ entries) (hget : s.get ino = some o)
      (hlinks : o.linksCount = 0 ∨ (o.ftype = .directory ∧ o.linksCount ≠ 2)) :
      RemovesEntry s dir name []
        { s with entries := entries, objects := Function.update s.objects ino (some o) }
  | directory {ino : Nat} {o : InodeObject} {entries : List Dirent}
      (h : RemoveEntry s.entries ⟨dir, name, ino⟩ entries) (hget : s.get ino = some o)
      (hlinks : o.ftype = .directory ∧ o.linksCount = 2) :
      -- As dot points to the directory itself, its count goes down twice.
      RemovesEntry s dir name [.inodeRmLink ino, .inodeRmLink dir, .inodeRmLink ino]
        { s with
          entries := entries
          objects := Function.update s.objects ino (some { o with linksCount := 0 }) }
  | file {ino : Nat} {o : InodeObject} {entries : List Dirent}
      (h : RemoveEntry s.entries ⟨dir, name, ino⟩ entries) (hget : s.get ino = some o)
      (hlinks : o.ftype ≠ .directory ∧ o.linksCount ≠ 0) :
      RemovesEntry s dir name [.inodeRmLink ino]
        { s with
          entries := entries
          objects := Function.update s.objects ino
            (some { o with linksCount := o.linksCount - 1 }) }

/-! ## `Drop` of an inode -/

/-- The events of `remove_after`. -/
def Shrinks : Event → Prop
  | .blockDeallocationOnBg .. => True
  | _ => False

/-- `remove_orphan`; an inode that is not in the map is `todo!()`. -/
def removeOrphan (d : Disk) (cur : Nat) : Option (Disk × Event) :=
  match d.orphanedInode cur with
  | some (pred, succ) =>
    some ({ d with orphanedInode := LinkedMap.unlink d.orphanedInode cur pred succ },
      .inodeUpdateOrphanLink pred succ)
  | none => none

/-! ## Runs -/

inductive Action
  | createEntry (dir : Nat) (name : String) (ftype : FileType) (dots : Bool)
  | removeEntry (dir : Nat) (name : String)
  /-- `open_entry`, or a call of `get` by another way to a named inode -/
  | openEntry (ino : Nat)
  /-- the last reference to an inode object is released -/
  | drop (ino : Nat)

/-- A call with the commit of its transaction.  The object of the directory is alive. -/
inductive Step : FileTree → Action → FileTree → Prop
  | createEntry {s s1 : FileTree} {dir : Nat} {name : String} {ftype : FileType} {dots : Bool}
      {events : List Event} {d' : Disk} (hdir : (s.objects dir).isSome)
      (h : CreateEntry s dir name ftype dots events s1) (happ : Applied s.sb events s.disk d') :
      Step s (.createEntry dir name ftype dots) { s1 with disk := d' }
  | removeEntry {s s1 : FileTree} {dir : Nat} {name : String} {events : List Event} {d' : Disk}
      (hdir : (s.objects dir).isSome) (h : RemovesEntry s dir name events s1)
      (happ : Applied s.sb events s.disk d') :
      Step s (.removeEntry dir name) { s1 with disk := d' }
  | openEntry {s : FileTree} {e : Dirent} {o : InodeObject} (h : e ∈ s.entries)
      (hget : s.get e.ino = some o) :
      Step s (.openEntry e.ino) { s with objects := Function.update s.objects e.ino (some o) }
  | drop {s : FileTree} {ino : Nat} {o : InodeObject} (h : s.objects ino = some o)
      (hlinks : o.linksCount ≠ 0) :
      Step s (.drop ino) { s with objects := Function.update s.objects ino none }
  /-- the inode is given back in a transaction of its own -/
  | dropUnlinked {s : FileTree} {ino : Nat} {o : InodeObject} {truncated events : List Event}
      {orphan : Event} {d d' : Disk} {inodes : Inode.Allocator} (h : s.objects ino = some o)
      (hlinks : o.linksCount = 0) (htrunc : ∀ ev ∈ truncated, Shrinks ev)
      (hdealloc : s.inodes.deallocate truncated ino o.ftype = (.ok (), events))
      (horphan : removeOrphan s.disk ino = some (d, orphan))
      (happ : Applied s.sb (events ++ [orphan]) d d')
      (hpost : s.inodes.applyPostludes ((events ++ [orphan]).flatMap Event.postludes) =
        .ok inodes) :
      Step s (.drop ino)
        { s with
          inodes := inodes, disk := d'
          objects := Function.update s.objects ino none }

/-- No directory is created as far as its entries `.` and `..`, and none is removed. -/
def NoDirectory (s : FileTree) : Action → Prop
  | .createEntry _ _ ftype dots => ftype = .directory → dots = false
  | .removeEntry dir name => ∀ e ∈ s.entries, e.dir = dir → e.name = name →
      s.get e.ino ≠ some ⟨.directory, 2⟩
  | .openEntry _ => True
  | .drop _ => True

/-- Every inode object that is alive has the link count of its record. -/
def Agree (s : FileTree) : Prop :=
  ∀ ino o, s.objects ino = some o → s.disk.links ino = some o.linksCount

end FileTree
end RustExt4
