/-
  RustExt4.Directory.Operations

  `create_entry`, `do_remove_entry` and `rename` (`directory/mod.rs`), over any way in
  which a directory stores its entries.  A scheme finds the record of a name, takes a
  record that it has found out of its block, and adds one; around that the operations
  hand out and load inodes, check and change link counts, and record events.  What an
  operation has done before it fails stays done.
-/
import RustExt4.Directory.Entry
import RustExt4.Directory.Tree
import RustExt4.Lib.StateExcept

namespace RustExt4.Directory

open StateExcept
open Transaction (Event)

/-- What `get_scheme` gives for the directories of a file system, by the number of the
    directory.  `σ` is what they store, and `ρ` a record that a search has found.  Each
    `remove_entry` is a search that hands the record to `destroy`. -/
structure Scheme (σ ρ : Type) where
  /-- `find_entry` -/
  findEntry : Nat → Bytes → σ → Except Fault (Nat × Option FileType)
  /-- the search of `remove_entry` -/
  locate : Nat → Bytes → σ → Except Fault ρ
  /-- `destroy`, with the inode number that the record had -/
  destroy : ρ → σ → Nat × σ
  /-- `add_entry`, which may record events -/
  addEntry : Nat → Bytes → FileType → Nat → StateExcept (σ × List Event) Fault Unit
  /-- `Inode::new`: the inode starts without blocks -/
  newInode : Nat → σ → σ

/-- The file system while a transaction is open. -/
structure Session (σ : Type) where
  store : σ
  inodes : Inode.Allocator
  /-- the inode objects that are alive, by number -/
  objects : Nat → Option InodeObject
  /-- `Inode::from_bytes` on the record on disk -/
  records : Nat → Except Fault InodeObject
  events : List Event

namespace Session

variable {σ : Type}

/-- The link count of an inode, as `get` would show it. -/
def links (w : Session σ) (ino : Nat) : Option Nat :=
  match w.objects ino with
  | some o => some o.linksCount
  | none => (w.records ino).toOption.map InodeObject.linksCount

/-- `Manager::get` -/
def getInode (ino : Nat) : StateExcept (Session σ) Fault InodeObject := fun w =>
  match w.objects ino with
  | some o => (.ok o, w)
  | none =>
    match w.records ino with
    | .error e => (.error e, w)
    | .ok o => (.ok o, { w with objects := Function.update w.objects ino (some o) })

/-- A loaded object has the count of its record. -/
theorem links_getInode (ino n : Nat) (w : Session σ) :
    (getInode ino w).2.links n = w.links n := by
  unfold getInode
  split
  case h_1 => rfl
  case h_2 hnone =>
    split
    case h_1 => rfl
    case h_2 o hload =>
      unfold links
      by_cases hn : n = ino
      · subst hn
        simp only [Function.update_self, hnone, hload, Except.toOption, Option.map_some]
      · simp only [Function.update_of_ne hn]

theorem getInode_frame (ino : Nat) (w : Session σ) :
    (getInode ino w).2.store = w.store ∧ (getInode ino w).2.events = w.events := by
  unfold getInode
  split
  case h_1 => exact ⟨rfl, rfl⟩
  case h_2 => split <;> exact ⟨rfl, rfl⟩

end Session

def ErrLinksCount : FsError := .invalidFs "Invalid inode.links_count"

def ErrNotCleanedUp : FsError := .invalidFs "Inode object is not cleaned up"

namespace Scheme

variable {σ ρ : Type} (S : Scheme σ ρ)

/-- `Scheme::remove_entry` -/
def removeEntry (dir : Nat) (entry : Bytes) : StateExcept (Session σ) Fault Nat := fun w =>
  match S.locate dir entry w.store with
  | .error e => (.error e, w)
  | .ok r => (.ok (S.destroy r w.store).1, { w with store := (S.destroy r w.store).2 })

/-- `Scheme::add_entry` in the transaction -/
def addRecord (dir : Nat) (entry : Bytes) (de : FileType) (child : Nat) :
    StateExcept (Session σ) Fault Unit := fun w =>
  match S.addEntry dir entry de child (w.store, w.events) with
  | (r, store, events) => (r, { w with store := store, events := events })

/-! ## `Directory::do_remove_entry` -/

/-- The link count of the inode without the entry, and the events for it. -/
def dropLinks (dir ino : Nat) (o : InodeObject) : Except Fault (InodeObject × List Event) :=
  match o.linksCount, o.ftype with
  | 1, .regularFile => .ok ({ o with linksCount := 0 }, [.inodeRmLink ino])
  -- As dot points to the directory itself, its count goes down twice.
  | 2, .directory => .ok ({ o with linksCount := 0 },
      [.inodeRmLink ino, .inodeRmLink dir, .inodeRmLink ino])
  | 0, _ => .error (.err ErrLinksCount)
  | _, .directory => .error (.err ErrLinksCount)
  | n + 1, _ => .ok ({ o with linksCount := n }, [.inodeRmLink ino])

/-- `do_remove_entry`.  The object of the inode stays alive with the caller; where the call
    fails it is released, which is a step of its own. -/
def doRemoveEntry (dir : Nat) (entry : Bytes) :
    StateExcept (Session σ) Fault (Nat × InodeObject) := do
  let ino ← S.removeEntry dir entry
  let o ← Session.getInode ino
  let (o, events) ← lift (dropLinks dir ino o)
  modify fun w => { w with
    objects := Function.update w.objects ino (some o), events := w.events ++ events }
  pure (ino, o)

variable {S} in
theorem removeEntry_ok {dir ino : Nat} {entry : Bytes} {w w' : Session σ}
    (h : S.removeEntry dir entry w = (.ok ino, w')) : ∃ r, S.locate dir entry w.store = .ok r ∧
      ino = (S.destroy r w.store).1 ∧ w' = { w with store := (S.destroy r w.store).2 } := by
  unfold removeEntry at h
  split at h
  case h_1 => cases h
  case h_2 r hloc =>
    cases h
    exact ⟨r, hloc, rfl, rfl⟩

/-- Whatever becomes of the call, a record that was found is gone, and nothing else. -/
theorem doRemoveEntry_store (dir : Nat) (entry : Bytes) (w : Session σ) :
    (∃ e, S.locate dir entry w.store = .error e ∧ S.doRemoveEntry dir entry w = (.error e, w)) ∨
      ∃ r, S.locate dir entry w.store = .ok r ∧
        (S.doRemoveEntry dir entry w).2.store = (S.destroy r w.store).2 := by
  unfold doRemoveEntry
  cases hloc : S.locate dir entry w.store with
  | error e =>
      left
      refine ⟨e, rfl, bind_of_error ?_⟩
      rw [removeEntry, hloc]
  | ok r =>
      right
      refine ⟨r, rfl, ?_⟩
      have hrem : S.removeEntry dir entry w =
          (.ok (S.destroy r w.store).1, { w with store := (S.destroy r w.store).2 }) := by
        rw [removeEntry, hloc]
      rw [bind_of_ok hrem, bind_apply]
      have hframe := (Session.getInode_frame (S.destroy r w.store).1
        { w with store := (S.destroy r w.store).2 }).1
      split
      case h_1 o w1 hget =>
        rw [hget] at hframe
        rw [bind_apply, lift_apply]
        cases dropLinks dir (S.destroy r w.store).1 o with
        | error e => exact hframe
        | ok x => exact hframe
      case h_2 e w1 hget =>
        rw [hget] at hframe
        exact hframe

/-! ## `Directory::rename` -/

/-- The removal of the target: `NoEntry` is no error. -/
def removeOld (dir : Nat) (newEntry : Bytes) :
    StateExcept (Session σ) Fault (Option (Nat × InodeObject)) := fun w =>
  match S.doRemoveEntry dir newEntry w with
  | (.error (.err .noEntry), w) => (.ok none, w)
  | (.error e, w) => (.error e, w)
  | (.ok old, w) => (.ok (some old), w)

/-- `rename`, up to the drop of the inode that had the name.  The target is removed from
    `dir`, and `done` is the commit of the transaction. -/
def rename (done : Session σ → Except Fault Unit) (dir : Nat) (entry : Bytes) (newDir : Nat)
    (newEntry : Bytes) : StateExcept (Session σ) Fault Unit := do
  let ino ← S.removeEntry dir entry
  let _ ← S.removeOld dir newEntry
  let inode ← Session.getInode ino
  S.addRecord newDir newEntry inode.ftype ino
  let w ← StateExcept.get
  lift (done w)

/-! ## `Directory::create_entry` -/

/-- `Manager::allocate` with `into_fs_object`. -/
def allocate (ftype : FileType) : StateExcept (Session σ) Fault Nat := fun w =>
  match w.inodes.allocate w.events ftype with
  | (.error e, inodes, events) => (.error e, { w with inodes := inodes, events := events })
  | (.ok ino, inodes, events) =>
    let w := { w with inodes := inodes, events := events }
    if (w.objects ino).isSome then (.error (.err ErrNotCleanedUp), w)
    -- The other types are `todo!()`.
    else if ftype ≠ .regularFile ∧ ftype ≠ .directory then (.error .panic, w)
    else (.ok ino, { w with
      store := S.newInode ino w.store
      objects := Function.update w.objects ino (some { ftype := ftype, linksCount := 1 }) })

/-- `child_dir.inode.rw.write().links_count += 1` -/
def addLink (ino : Nat) (w : Session σ) : Session σ :=
  { w with objects := Function.update w.objects ino ((w.objects ino).map fun o =>
      { o with linksCount := o.linksCount + 1 }) }

/-- The entries of a new directory. -/
def addDots (dir ino : Nat) : StateExcept (Session σ) Fault Unit := do
  S.addRecord ino [46] .directory ino
  S.addRecord ino [46, 46] .directory dir
  modify fun w => { addLink ino w with
    events := w.events ++ [.inodeAddLink ino, .inodeAddLink dir] }

/-- The part of `create_entry` behind the allocation. -/
def linkNew (dir : Nat) (entry : Bytes) (ftype : FileType) (ino : Nat) :
    StateExcept (Session σ) Fault Unit := do
  if ftype = .directory then S.addDots dir ino
  S.addRecord dir entry ftype ino
  modify fun w => { w with events := w.events ++ [.inodeAddLink ino] }

/-- `Drop` of the only reference to an inode object.  `reclaim` is what it does, in a
    transaction of its own, to an inode that nothing links to. -/
def release (reclaim : Nat → Session σ → Session σ) (ino : Nat) (w : Session σ) : Session σ :=
  match w.objects ino with
  | none => w
  | some o =>
    let w := { w with objects := Function.update w.objects ino none }
    if o.linksCount = 0 then reclaim ino w else w

/-- `create_entry`, on a directory whose object is alive. -/
def createEntry (reclaim : Nat → Session σ → Session σ) (dir : Nat) (entry : Bytes)
    (ftype : FileType) : StateExcept (Session σ) Fault Nat := fun w =>
  match w.objects dir with
  | none => (.error .panic, w)
  | some self =>
    if self.linksCount = 0 then (.error (.err .pendingRemoval), w)
    else
      match S.findEntry dir entry w.store with
      | .ok _ => (.error (.err .exist), w)
      | .error (.err _) =>
        match S.allocate ftype w with
        | (.error e, w) => (.error e, w)
        | (.ok ino, w) =>
          match S.linkNew dir entry ftype ino w with
          | (.ok (), w) => (.ok ino, w)
          | (.error e, w) => (.error e, release reclaim ino w)
      | .error e => (.error e, w)

end Scheme

/-! ## Directories as maps -/

/-- The records of the directories before and after one of them has got the record `x`. -/
def AddsOne (recs recs' : Nat → List (Bytes × Nat)) (dir : Nat) (x : Bytes × Nat) : Prop :=
  (∃ l r, recs dir = l ++ r ∧ recs' dir = l ++ x :: r) ∧ ∀ d, d ≠ dir → recs' d = recs d

/-- A list of records that is a map: no name occurs twice. -/
def IsMap (recs : List (Bytes × Nat)) : Prop := (recs.map Prod.fst).Nodup

instance : DecidablePred IsMap := fun recs =>
  inferInstanceAs (Decidable (recs.map Prod.fst).Nodup)

/-- The name has this number afterwards, and the other names are as they were. -/
def SetsName (recs recs' : List (Bytes × Nat)) (name : Bytes) (ino : Nat) : Prop :=
  ∀ n i, (n, i) ∈ recs' ↔ (n = name ∧ i = ino) ∨ (n ≠ name ∧ (n, i) ∈ recs)

theorem SetsName.congr {recs recs' recs1 recs1' : List (Bytes × Nat)} {name : Bytes} {ino : Nat}
    (h : recs.Perm recs1) (h' : recs'.Perm recs1') :
    SetsName recs recs' name ino ↔ SetsName recs1 recs1' name ino := by
  simp only [SetsName, h.mem_iff, h'.mem_iff]

/-- One record more sets its name where the name had no other number. -/
theorem setsName_of_insert {recs recs' : List (Bytes × Nat)} {name : Bytes} {ino : Nat}
    (h : ∃ l r, recs = l ++ r ∧ recs' = l ++ (name, ino) :: r) :
    SetsName recs recs' name ino ↔ ∀ i, (name, i) ∈ recs → i = ino := by
  obtain ⟨l, r, rfl, rfl⟩ := h
  have hmem : ∀ n i, (n, i) ∈ l ++ (name, ino) :: r ↔
      (n, i) ∈ l ++ r ∨ (n = name ∧ i = ino) := by
    intro n i
    simp only [List.mem_append, List.mem_cons, Prod.mk.injEq]
    tauto
  constructor
  · intro hsets i hi
    rcases (hsets name i).mp ((hmem name i).mpr (Or.inl hi)) with ⟨-, heq⟩ | ⟨hne, -⟩
    · exact heq
    · exact absurd rfl hne
  · intro honly n i
    rw [hmem]
    constructor
    · rintro (hi | hnew)
      · by_cases hn : n = name
        · subst hn
          exact Or.inl ⟨rfl, honly i hi⟩
        · exact Or.inr ⟨hn, hi⟩
      · exact Or.inl hnew
    · rintro (hnew | ⟨-, hi⟩)
      · exact Or.inr hnew
      · exact Or.inl hi

/-- A scheme that keeps directories as lists of records, each a name with an inode number: a
    search finds a record of the name if there is one, and `destroy` takes out the record that
    was found.  An addition may lose others: `Sets` tells of the state before when one that
    returns sets its name and leaves the other names. -/
structure Scheme.SetsRecords {σ ρ : Type} (S : Scheme σ ρ) (Inv : σ → Prop)
    (recs : σ → Nat → List (Bytes × Nat)) (Sets : σ → Nat → Bytes → Nat → Prop) : Prop where
  inode {s : σ} {dir ino : Nat} {name : Bytes} (hs : Inv s) (h : (name, ino) ∈ recs s dir) :
    ino ≠ 0 ∧ ino < 2 ^ 32
  locate_ok {s : σ} {dir : Nat} {name : Bytes} {r : ρ} (hs : Inv s)
    (h : S.locate dir name s = .ok r) : Inv (S.destroy r s).2 ∧
      AddsOne (recs (S.destroy r s).2) (recs s) dir (name, (S.destroy r s).1)
  locate_noEntry {s : σ} {dir : Nat} {name : Bytes} (hs : Inv s)
    (h : S.locate dir name s = .error (.err .noEntry)) : ∀ ino, (name, ino) ∉ recs s dir
  addEntry_ok {s s' : σ} {dir child : Nat} {name : Bytes} {de : FileType} {evs evs' : List Event}
    (hs : Inv s) (hmap : IsMap (recs s dir)) (hname : utf8Valid name = true)
    (hchild : child ≠ 0 ∧ child < 2 ^ 32)
    (h : S.addEntry dir name de child (s, evs) = (.ok (), s', evs')) :
    (∀ d, d ≠ dir → recs s' d = recs s d) ∧
      (SetsName (recs s dir) (recs s' dir) name child ↔ Sets s dir name child)

end RustExt4.Directory
