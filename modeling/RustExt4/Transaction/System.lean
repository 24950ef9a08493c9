/-
  RustExt4.Transaction.System

  Open transactions over the two allocators, the cached blocks and the superblock.
  A commit is two kinds of steps: the write-back of the events, and after the
  write-out the postludes one by one, between which other transactions may act.

  `BlockGroup` of the source is two records here, one with the counter of each
  allocator.
-/
import RustExt4.Block.Allocator
import RustExt4.Inode.Allocator
import RustExt4.Transaction.Flush
import Mathlib.Logic.Relation

namespace RustExt4.Transaction

/-- What is shared by all transactions. -/
structure Store where
  sb : DescriptorSb
  fs : FileSystem
  inodes : Inode.Allocator
  disk : Disk

/-- A transaction holds its events until they are written back, and then the
    postludes that have not run yet. -/
inductive Tx
  | active (events : List Event)
  | flushed (postludes : List PostludeOps)

/-- The events that concern an inode's record only. -/
def Event.OnRecord : Event → Prop
  | .inodeSetSize .. | .inodeAddLink _ | .inodeRmLink _ | .inodeUpdateOrphanLink .. => True
  | _ => False

/-- A call with a transaction, or a part of its commit.  A call of an allocator may
    fail; a write-back or a postlude that fails ends the run. -/
inductive Call : Store → Tx → Store → Tx → Prop
  | allocate {c : Store} {events events' : List Event} {ino size hope : Nat}
      {r : Except Fault (Nat × Nat)} {fs' : FileSystem}
      (h : c.fs.allocate events ino size hope = (r, fs', events')) :
      Call c (.active events) { c with fs := fs' } (.active events')
  | deallocate {c : Store} {events events' : List Event} {ino lba size : Nat}
      {r : Except Fault Unit} (h : c.fs.deallocate events ino lba size = (r, events')) :
      Call c (.active events) c (.active events')
  | allocateInode {c : Store} {events events' : List Event} {de : FileType}
      {r : Except Fault Nat} {inodes' : Inode.Allocator}
      (h : c.inodes.allocate events de = (r, inodes', events')) :
      Call c (.active events) { c with inodes := inodes' } (.active events')
  | deallocateInode {c : Store} {events events' : List Event} {ino : Nat} {de : FileType}
      {r : Except Fault Unit} (h : c.inodes.deallocate events ino de = (r, events')) :
      Call c (.active events) c (.active events')
  /-- a method of `Transaction` that the allocators do not use -/
  | record {c : Store} {events : List Event} {e : Event} (h : e.OnRecord) :
      Call c (.active events) c (.active (events ++ [e]))
  /-- `Events::apply_on_disk`; the block layer finds the bitmaps that it has written. -/
  | flush {c : Store} {events : List Event} {w : WritebackGroup} {order : List Nat} {d' : Disk}
      (hw : WritebackGroup.compress c.sb.toSuperBlock events (.new c.disk.blocks) = some w)
      (horder : IterationOrder w order)
      (h : flush c.sb w order { c.disk with blocks := w.blocks } = .ok d') :
      Call c (.active events) { c with disk := d', fs := { c.fs with blocks := d'.blocks } }
        (.flushed w.postludes)
  /-- `Collector::done`, at a freed range of blocks -/
  | blockPostlude {c : Store} {bgid ofs count : Nat} {postludes : List PostludeOps}
      {fs' : FileSystem} (h : c.fs.applyDeallocationOnCore bgid ofs count = .ok fs') :
      Call c (.flushed (.blockDeallocation bgid ofs count :: postludes)) { c with fs := fs' }
        (.flushed postludes)
  /-- `Collector::done`, at a freed inode -/
  | inodePostlude {c : Store} {ino : Nat} {postludes : List PostludeOps}
      {inodes' : Inode.Allocator} (h : c.inodes.applyDeallocationOnCore ino = .ok inodes') :
      Call c (.flushed (.inodeDeallocation ino :: postludes)) { c with inodes := inodes' }
        (.flushed postludes)

structure System where
  store : Store
  /-- the transactions that are not done -/
  txs : List Tx

/-- One step of one transaction. -/
inductive System.Step : System → System → Prop
  | openTx (s : System) : Step s { s with txs := .active [] :: s.txs }
  | call {c c' : Store} {tx tx' : Tx} {l l' : List Tx} (h : Call c tx c' tx') :
      Step ⟨c, l ++ tx :: l'⟩ ⟨c', l ++ tx' :: l'⟩
  | done {c : Store} {l l' : List Tx} : Step ⟨c, l ++ .flushed [] :: l'⟩ ⟨c, l ++ l'⟩

/-- A run of any number of steps, in any order of the transactions. -/
def System.Run : System → System → Prop := Relation.ReflTransGen System.Step

end RustExt4.Transaction
