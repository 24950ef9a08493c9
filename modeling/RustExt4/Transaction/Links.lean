/-
  RustExt4.Transaction.Links

  The link counts on disk over a commit: only three of the operations on inode records
  change one, and the write-back makes them in the order of the events.
-/
import RustExt4.Transaction.InodeOps

namespace RustExt4.Transaction

open Inode (IsRecord SameLinks Manipulator.linksCount Manipulator.setLinksCount)

variable {sb : DescriptorSb} {d d' : Disk}

/-- The link count of an inode's record, where the record can be read. -/
def Disk.links (d : Disk) (ino : Nat) : Option Nat :=
  (d.inodes ino).map Manipulator.linksCount

/-- The link counts after that of `ino`, which must be readable, has changed. -/
def changeLinks (links : Nat → Option Nat) (ino : Nat) (f : Nat → Nat) :
    Option (Nat → Option Nat) :=
  (links ino).map fun n => Function.update links ino (some (f n))

/-- What an operation makes of the link counts. -/
def InodeOps.onLinks (links : Nat → Option Nat) : InodeOps → Option (Nat → Option Nat)
  | .addLink ino => changeLinks links ino (· + 1)
  | .rmLink ino => changeLinks links ino (· - 1)
  | .init ino _ => changeLinks links ino fun _ => 0
  | _ => some links

/-- A record that is replaced. -/
theorem links_update {ino : Nat} {raw raw' : Bytes} {f : Nat → Nat} (hraw : d.inodes ino = some raw)
    (hlinks : Manipulator.linksCount raw' = f (Manipulator.linksCount raw))
    (hd' : d'.inodes = Function.update d.inodes ino (some raw')) :
    changeLinks d.links ino f = some d'.links := by
  rw [changeLinks, Disk.links, hraw, Option.map_some, Option.map_some, Option.some.injEq]
  funext i
  rw [Disk.links, hd', Function.update_apply, Function.update_apply]
  split
  next => rw [Option.map_some, hlinks]
  next => rfl

theorem hasRecords_update {ino : Nat} {raw' : Bytes} (h : d.HasRecords) (hraw' : IsRecord raw')
    (hd' : d'.inodes = Function.update d.inodes ino (some raw')) : d'.HasRecords := by
  intro i raw hraw
  rw [hd', Function.update_apply] at hraw
  split at hraw
  · cases hraw
    exact hraw'
  · exact h i raw hraw

theorem links_of_sameLinks {ino : Nat} {raw raw' : Bytes} (h : d.HasRecords)
    (hraw : d.inodes ino = some raw) (hsame : SameLinks raw raw')
    (hd' : d'.inodes = Function.update d.inodes ino (some raw')) :
    d'.HasRecords ∧ some d.links = some d'.links := by
  refine ⟨hasRecords_update h (hsame.isRecord (h ino raw hraw)) hd', congrArg some ?_⟩
  funext i
  rw [Disk.links, Disk.links, hd', Function.update_apply]
  split
  next heq => rw [heq, hraw, Option.map_some, Option.map_some, hsame.linksCount]
  next => rfl

/-- One operation. -/
theorem submitInodeOps_links {op : InodeOps} (hrec : d.HasRecords)
    (h : submitInodeOps sb d op = .ok d') : d'.HasRecords ∧ op.onLinks d.links = some d'.links := by
  rcases submitInodeOps_cases h with ⟨ht, hd'⟩ | ⟨ino, raw, raw', ht, hraw, hop, hd'⟩
  · cases op with
    | updateOrphanLink pred succ =>
        have hlinks : d'.links = d.links := funext fun i => by rw [Disk.links, hd', Disk.links]
        exact ⟨by rwa [Disk.HasRecords, hd'], congrArg some hlinks.symm⟩
    | _ => cases ht
  have hr := hrec ino raw hraw
  cases op with
  | addLink i =>
      cases ht
      obtain ⟨hlt, rfl⟩ := hop
      exact ⟨hasRecords_update hrec (Inode.isRecord_setLinksCount hr) hd',
        links_update hraw (Inode.linksCount_setLinksCount hr hlt) hd'⟩
  | rmLink i =>
      cases ht
      obtain ⟨hpos, rfl⟩ := hop
      have hlt : Manipulator.linksCount raw < 2 ^ 16 := ByteRw.readU16_lt raw 0x1A
      -- With its last link the record joins the orphan list.
      have hr' : IsRecord (if Manipulator.linksCount raw = 1
          then Inode.Manipulator.setDeletionTime raw d.lastOrphan else raw) := by
        split
        · exact (Inode.sameLinks_setDeletionTime d.lastOrphan).isRecord hr
        · exact hr
      exact ⟨hasRecords_update hrec (Inode.isRecord_setLinksCount hr') hd',
        links_update hraw (Inode.linksCount_setLinksCount hr' (by omega)) hd'⟩
  | init i ftype =>
      cases ht
      obtain ⟨hr', hzero⟩ := Inode.linksCount_init hr hop
      exact ⟨hasRecords_update hrec hr' hd', links_update hraw hzero hd'⟩
  | setSize i size address =>
      obtain ⟨raw1, hsize, haddr⟩ := hop
      have h1 := Inode.sameLinks_setSize hsize
      exact links_of_sameLinks hrec hraw (h1.trans (.setAddresses (h1.isRecord hr) haddr)) hd'
  | updateOrphanLink pred succ =>
      obtain rfl := hop
      exact links_of_sameLinks hrec hraw (Inode.sameLinks_setDeletionTime succ) hd'
  | setBlock i cnt =>
      exact links_of_sameLinks hrec hraw (Inode.sameLinks_setBlocks hop) hd'

/-- What operations make of the link counts, in order. -/
def opsOnLinks : List InodeOps → (Nat → Option Nat) → Option (Nat → Option Nat)
  | [], links => some links
  | op :: ops, links => (op.onLinks links).bind (opsOnLinks ops)

theorem opsOnLinks_append (ops ops' : List InodeOps) (links : Nat → Option Nat) :
    opsOnLinks (ops ++ ops') links = (opsOnLinks ops links).bind (opsOnLinks ops') := by
  induction ops generalizing links with
  | nil => rfl
  | cons op ops ih =>
      rw [List.cons_append, opsOnLinks, opsOnLinks, Option.bind_assoc]
      exact congrArg _ (funext ih)

theorem submitAllInodeOps_links {ops : List InodeOps} (hrec : d.HasRecords)
    (h : submitAllInodeOps sb ops d = .ok d') :
    d'.HasRecords ∧ opsOnLinks ops d.links = some d'.links := by
  induction ops generalizing d with
  | nil =>
      cases h
      exact ⟨hrec, rfl⟩
  | cons op ops ih =>
      unfold submitAllInodeOps at h
      split at h
      · cases h
      next d1 hop =>
        obtain ⟨hrec1, hlinks⟩ := submitInodeOps_links hrec hop
        obtain ⟨hrec', hlinks'⟩ := ih hrec1 h
        exact ⟨hrec', by rw [opsOnLinks, hlinks, Option.bind_some, hlinks']⟩

/-! ## A commit -/

/-- What the events make of the link counts. -/
def linksAfter (inodesPerGroup : Nat) (events : List Event) (links : Nat → Option Nat) :
    Option (Nat → Option Nat) :=
  opsOnLinks (events.flatMap (Event.inodeOps inodesPerGroup)) links

theorem linksAfter_append (n : Nat) (es es' : List Event) (links : Nat → Option Nat) :
    linksAfter n (es ++ es') links = (linksAfter n es links).bind (linksAfter n es') := by
  rw [linksAfter, List.flatMap_append, opsOnLinks_append]
  rfl

theorem linksAfter_addLink (n ino : Nat) (links : Nat → Option Nat) :
    linksAfter n [.inodeAddLink ino] links = changeLinks links ino (· + 1) :=
  Option.bind_fun_some _

theorem linksAfter_rmLink (n ino : Nat) (links : Nat → Option Nat) :
    linksAfter n [.inodeRmLink ino] links = changeLinks links ino (· - 1) :=
  Option.bind_fun_some _

/-- The events of the inode allocator make a record without links. -/
theorem linksAfter_allocate {n g lba i : Nat} {de : FileType} {links : Nat → Option Nat} :
    linksAfter n [.inodeAllocationOnBg g lba i de, .freeInodesCountDecOnSb] links =
      changeLinks links (g * n + i % 2 ^ 32 + 1) fun _ => 0 := Option.bind_fun_some _

theorem changeLinks_some {links links' : Nat → Option Nat} {ino : Nat} {f : Nat → Nat}
    (h : changeLinks links ino f = some links') :
    ∃ n, links ino = some n ∧ links' = Function.update links ino (some (f n)) := by
  obtain ⟨n, hn, rfl⟩ := Option.map_eq_some_iff.mp h
  exact ⟨n, hn, rfl⟩

theorem submitSb_inodes {sbDelta : Option SbDelta} (h : submitSb sb sbDelta d = .ok d') :
    d'.inodes = d.inodes := by
  unfold submitSb at h
  split at h
  · cases h
    rfl
  · obtain ⟨inodes, _, h⟩ := bind_ok h
    obtain ⟨blocks, _, h⟩ := bind_ok h
    cases h
    rfl

theorem Applied.links {events : List Event} (h : Applied sb events d d') (hrec : d.HasRecords) :
    d'.HasRecords ∧ linksAfter sb.inodesPerGroup events d.links = some d'.links := by
  obtain ⟨w, order, hw, ⟨hnodup, -⟩, hflush⟩ := h
  obtain ⟨-, blocks, -, rfl⟩ := WritebackGroup.compress_eq_some.mp hw
  obtain ⟨d1, hgroups, hflush⟩ := bind_ok hflush
  obtain ⟨d2, hops, hsb⟩ := bind_ok hflush
  have hinodes1 : d1.inodes = d.inodes := (submitBlockGroups_spec hnodup hgroups).inodes
  have hrec1 : d1.HasRecords := by rwa [Disk.HasRecords, hinodes1]
  have hlinks1 : d1.links = d.links := by
    funext ino
    rw [Disk.links, hinodes1, Disk.links]
  obtain ⟨hrec2, hlinks2⟩ := submitAllInodeOps_links hrec1 hops
  have hinodes' := submitSb_inodes hsb
  refine ⟨by rwa [Disk.HasRecords, hinodes'], ?_⟩
  have hlinks' : d'.links = d2.links := by
    funext ino
    rw [Disk.links, hinodes', Disk.links]
  rw [hlinks', ← hlinks2, hlinks1]
  rfl

end RustExt4.Transaction
