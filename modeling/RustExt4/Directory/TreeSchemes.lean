/-
  RustExt4.Directory.TreeSchemes

  What `Tree.lean` takes of the directory schemes, for the two that there are.  An addition
  under either of them that returns leaves records that were there or the new one; one to a
  linear directory that fails leaves the records that were there.  The directory grows by a
  cursor that allocates and by `set_size`, and what these record are blocks and sizes.

  What an addition to a hashed directory leaves that fails is a parameter here as in
  `Schemes.lean`.
-/
import RustExt4.Directory.Schemes
import RustExt4.Directory.Tree
import RustExt4.Inode.Extent.Recording

namespace RustExt4.Directory

open DirectoryEntryDispatch
open HTree (HashedDir)
open Transaction (Event)

/-! ## Records -/

theorem HTreeScheme.addEntry_subset {s : Dirs} {body : Option HashedDir} (hs : s.Inv)
    (hbody : s.BodyOk (.htree body)) {entry : Bytes} {de : FileType} {child : Nat}
    (hvalid : utf8Valid entry = true) (hshort : entry.length ≤ 255)
    (hchild : child ≠ 0 ∧ child < 2 ^ 32) {dir' : HashedDir} {free' : List Bytes}
    (h : addEntry s entry de child body = .ok (dir', free')) :
    dir'.records ⊆ (entry, child) :: (DirBody.htree body).records := by
  obtain ⟨dir, free, -, hwhole, hrecs, hnew, hins⟩ := addEntry_eq_ok hs hbody h
  rw [← hrecs]
  exact hwhole.insert_subset hs.blkSize hvalid hshort hchild hnew hins

section
variable {failed : Nat → Bytes → Dirs → Dirs} {s s' : Dirs} {dir child : Nat} {name : Bytes}
  {de : FileType} {evs evs' : List Event}

/-- An addition that returns changes its directory alone, and makes up no record. -/
theorem dirsScheme_addEntry_subset (hs : s.Inv) (hvalid : utf8Valid name = true)
    (hshort : name.length ≤ 255) (hchild : child ≠ 0 ∧ child < 2 ^ 32)
    (h : (dirsScheme failed).addEntry dir name de child (s, evs) = (.ok (), s', evs')) :
    (∀ d, d ≠ dir → s'.records d = s.records d) ∧
      s'.records dir ⊆ (name, child) :: s.records dir := by
  have hbody := hs.bodies dir
  cases hdir : s.dirs dir with
  | linear ds =>
      simp only [dirsScheme, hdir, hs.version] at h
      rw [hdir] at hbody
      have hbefore : s.records dir = LinearScheme.records ds := congrArg DirBody.records hdir
      cases hadd : LinearScheme.addEntry true name de child s.free ds with
      | mk r rest =>
          rw [hadd] at h
          cases h
          obtain ⟨-, -, l, r, hold, hnew⟩ := LinearScheme.addEntry_ok
            (fun b hb => (hs.free b hb).symm ▸ hs.blkSize) hvalid hchild hbody hadd
          refine ⟨fun d hne => Dirs.records_update_of_ne hne, fun x hx => ?_⟩
          have hx : x ∈ LinearScheme.records rest.1 :=
            (congrArg (x ∈ ·) Dirs.records_update_self).mp hx
          rw [hnew] at hx
          rw [hbefore, hold]
          exact List.perm_middle.mem_iff.mp hx
  | htree body =>
      rw [hdir] at hbody
      have hbefore : s.records dir = (DirBody.htree body).records := congrArg DirBody.records hdir
      cases hadd : HTreeScheme.addEntry s name de child body with
      | error e =>
          simp only [dirsScheme, hdir, hadd] at h
          cases h
      | ok x =>
          simp only [dirsScheme, hdir, hadd] at h
          cases h
          refine ⟨fun d hne => Dirs.records_update_of_ne hne, ?_⟩
          have hafter : Dirs.records { s.update dir (.htree (some x.1)) with free := x.2 } dir =
              x.1.records := Dirs.records_update_self
          rw [hafter, hbefore]
          exact HTreeScheme.addEntry_subset hs hbody hvalid hshort hchild hadd

/-- One to a linear directory that fails changes no record. -/
theorem dirsScheme_addEntry_error (hs : s.Inv) (hchild : child ≠ 0 ∧ child < 2 ^ 32)
    {ds : List DirectoryBlock} (hdir : s.dirs dir = .linear ds) {e : Fault}
    (h : (dirsScheme failed).addEntry dir name de child (s, evs) = (.error e, s', evs')) (d : Nat) :
    s'.records d = s.records d := by
  have hbody := hs.bodies dir
  rw [hdir] at hbody
  simp only [dirsScheme, hdir, hs.version] at h
  cases hadd : LinearScheme.addEntry true name de child s.free ds with
  | mk r rest =>
      rw [hadd] at h
      cases h
      have hsame := LinearScheme.addEntry_error
        (fun b hb => (hs.free b hb).symm ▸ hs.blkSize) hchild hbody hadd
      by_cases hd : d = dir
      · rw [hd, show s.records dir = LinearScheme.records ds from congrArg DirBody.records hdir,
          ← hsame]
        exact Dirs.records_update_self
      · exact Dirs.records_update_of_ne hd

end

end RustExt4.Directory

namespace RustExt4.FileTree

open Directory (Dirs dirsScheme DirectoryBlock)
open Inode.Extent (Cursor CursorM Allocates)
open Inode (RawInodeAddressingMode)
open Transaction (Event)

/-! ## Events -/

/-- What goes through the allocator records allocations of blocks. -/
theorem grows_of_allocates {α : Type} {x : CursorM α} (h : Allocates x) (c : Cursor) :
    ∃ new, (x c).2.events = c.events ++ new ∧ ∀ ev ∈ new, Grows ev := by
  have hrun := h c
  generalize (x c).2 = c' at hrun ⊢
  induction hrun with
  | refl => exact ⟨[], (List.append_nil _).symm, fun _ hev => absurd hev List.not_mem_nil⟩
  | @tail c1 c2 _ hstep ih =>
      obtain ⟨new, hnew, hgrows⟩ := ih
      cases hstep with
      | same hsame => exact ⟨new, hsame.events.trans hnew, hgrows⟩
      | allocate ino hope hpos hsize =>
          obtain ⟨new', hnew', hall⟩ := c1.fs.allocate_allocations c1.events ino _ hope
          refine ⟨new ++ new', ?_, fun ev hev => ?_⟩
          · rw [← List.append_assoc, ← hnew]
            exact hnew'
          · rcases List.mem_append.mp hev with hev | hev
            · exact hgrows ev hev
            · obtain ⟨g, lba, ofs, count, rfl⟩ := hall ev hev
              trivial

/-- One more block of a directory: `or_allocated`, and `set_size`. -/
theorem grows_of_newBlock (fuel : Nat) (isMeta : Bool) (c : Cursor) (ino size : Nat)
    (address : RawInodeAddressingMode) :
    ∃ new, (Cursor.orAllocated fuel isMeta c).2.events ++ [.inodeSetSize ino size address] =
      c.events ++ new ∧ ∀ ev ∈ new, Grows ev := by
  obtain ⟨new, hnew, hgrows⟩ := grows_of_allocates (Allocates.bind
    (Cursor.orAllocatedMany_allocates fuel (Nat.le_refl 1) (by decide) isMeta)
    fun x => .pure x.1) c
  refine ⟨new ++ [.inodeSetSize ino size address], ?_, fun ev hev => ?_⟩
  · rw [← List.append_assoc, ← hnew]
    rfl
  · rcases List.mem_append.mp hev with hev | hev
    · exact hgrows ev hev
    · rw [List.mem_singleton.mp hev]
      trivial

/-! ## Entries -/

/-- `str::as_bytes` -/
def nameBytes (name : String) : Bytes := name.toByteArray.data.toList

theorem nameBytes_inj {n n' : String} : nameBytes n = nameBytes n' ↔ n = n' := by
  rw [nameBytes, nameBytes, Array.toList_inj, ← ByteArray.ext_iff, String.toByteArray_inj]

theorem nameBytes_valid (n : String) : Directory.utf8Valid (nameBytes n) = true := by
  have hbytes : (nameBytes n).toByteArray = n.toByteArray := by
    apply ByteArray.ext
    rw [List.data_toByteArray, nameBytes, Array.toArray_toList]
  rw [Directory.utf8Valid, hbytes]
  exact decide_eq_true n.isValidUTF8

/-- The entries of the tree are the records of the directories. -/
def Views (entries : List Dirent) (s : Dirs) : Prop :=
  ∀ e : Dirent, e ∈ entries ↔ (nameBytes e.name, e.ino) ∈ s.records e.dir

variable {failed : Nat → Bytes → Dirs → Dirs} {s s' : Dirs} {dir child : Nat} {name : String}
  {de : FileType} {evs evs' events : List Event} {entries entries' : List Dirent}

/-- An addition under one of the two schemes that returns is one of `Tree.lean`. -/
theorem addEntry_ok_of_scheme (hs : s.Inv) (hshort : (nameBytes name).length ≤ 255)
    (hchild : child ≠ 0 ∧ child < 2 ^ 32)
    (h : (dirsScheme failed).addEntry dir (nameBytes name) de child (s, evs) = (.ok (), s', evs'))
    (hview : Views entries s) (hview' : Views entries' s') (hgrows : ∀ ev ∈ events, Grows ev) :
    AddEntry entries ⟨dir, name, child⟩ true events entries' := by
  obtain ⟨hother, hsub⟩ :=
    Directory.dirsScheme_addEntry_subset hs (nameBytes_valid name) hshort hchild h
  refine .ok hgrows fun e he => ?_
  have hrec := (hview' e).mp he
  rw [List.mem_cons]
  by_cases hdir : e.dir = dir
  · rw [hdir] at hrec
    rcases List.mem_cons.mp (hsub hrec) with heq | hold
    · obtain ⟨hname, hino⟩ := Prod.mk.inj heq
      left
      cases e
      exact (Dirent.mk.injEq ..).mpr ⟨hdir, nameBytes_inj.mp hname, hino⟩
    · exact Or.inr ((hview e).mpr (hdir ▸ hold))
  · rw [hother _ hdir] at hrec
    exact Or.inr ((hview e).mpr hrec)

/-- So is one to a linear directory that fails. -/
theorem addEntry_err_of_scheme (hs : s.Inv) (hchild : child ≠ 0 ∧ child < 2 ^ 32)
    {ds : List DirectoryBlock} (hdir : s.dirs dir = .linear ds) {e : Fault}
    (h : (dirsScheme failed).addEntry dir (nameBytes name) de child (s, evs) =
      (.error e, s', evs'))
    (hview : Views entries s) (hview' : Views entries' s') (hgrows : ∀ ev ∈ events, Grows ev) :
    AddEntry entries ⟨dir, name, child⟩ false events entries' := by
  refine .err hgrows fun en hen => (hview en).mpr ?_
  rw [← Directory.dirsScheme_addEntry_error hs hchild hdir h]
  exact (hview' en).mp hen

/-- A removal of a name that is found, from a directory without a second record of it. -/
theorem removeEntry_of_scheme (hs : s.Inv) (hmap : Directory.IsMap (s.records dir))
    {r : Nat × Nat × Directory.DirectoryBlockIteratorMutCursor}
    (hloc : (dirsScheme failed).locate dir (nameBytes name) s = .ok r)
    (hview : Views entries s) (hview' : Views entries' ((dirsScheme failed).destroy r s).2) :
    RemoveEntry entries ⟨dir, name, ((dirsScheme failed).destroy r s).1⟩ entries' := by
  obtain ⟨-, ⟨l1, l2, hafter, hbefore⟩, hother⟩ :=
    (Directory.dirsScheme_setsRecords failed).locate_ok hs hloc
  rw [Directory.IsMap, hbefore, List.map_append, List.map_cons, List.nodup_middle,
    List.nodup_cons] at hmap
  refine ⟨(hview _).mpr (hbefore ▸ List.mem_append_right _ List.mem_cons_self), fun e he => ?_⟩
  have hrec := (hview' e).mp he
  by_cases hdir : e.dir = dir
  · rw [hdir, hafter] at hrec
    refine (List.mem_erase_of_ne fun heq => hmap.1 ?_).mpr ((hview e).mpr ?_)
    · -- The name has no other record.
      rw [heq] at hrec
      rw [← List.map_append]
      exact List.mem_map_of_mem hrec
    · rw [hdir, hbefore]
      exact List.perm_middle.mem_iff.mpr (List.mem_cons_of_mem _ hrec)
  · refine (List.mem_erase_of_ne fun heq => hdir (congrArg Dirent.dir heq)).mpr ((hview e).mpr ?_)
    rw [hother _ hdir]
    exact hrec

end RustExt4.FileTree
