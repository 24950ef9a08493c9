/-
  RustExt4.Directory.TreeRuns

  Link counts in memory and on disk over runs.  What carries the agreement is that a
  number without an object is handed out: an inode that is named or alive is in use, or
  its count is 0 in both places.
-/
import RustExt4.Directory.Tree
import RustExt4.Inode.AllocatorRuns

namespace RustExt4.FileTree

open Transaction (Event Disk Applied linksAfter linksAfter_append linksAfter_allocate
  linksAfter_addLink linksAfter_rmLink changeLinks_some)
open Inode (Allocator)

variable {s s' : FileTree} {dir ino : Nat} {name : String} {events : List Event}

/-- The bit of the inode's number is set. -/
def Used (s : FileTree) (ino : Nat) : Prop :=
  ∃ g i, InodeNumber.intoBgidIndex s.inodes.sb ino = some (g, i) ∧ s.inodes.bit g i = some true

/-- The inode is in use, or nothing links to it. -/
def Sound (s : FileTree) (ino : Nat) : Prop := s.Used ino ∨ s.disk.links ino = some 0

/-- A directory tree: its names are those of inodes in use. -/
structure WellFormed (s : FileTree) : Prop where
  inodes : s.inodes.Inv
  inodesSb : s.inodes.sb = s.sb.toSuperBlock
  records : s.disk.HasRecords
  named : ∀ e ∈ s.entries, s.Sound e.ino
  alive : ∀ ino o, s.objects ino = some o → s.Sound ino

/-! ## Events without links -/

theorem linksAfter_of_keeps {n : Nat} {links : Nat → Option Nat}
    (h : ∀ ev ∈ events, Grows ev ∨ Shrinks ev) : linksAfter n events links = some links := by
  induction events with
  | nil => rfl
  | cons ev events ih =>
      have hone : linksAfter n [ev] links = some links := by
        have hev := h ev List.mem_cons_self
        cases ev <;> first | rfl | exact absurd hev (by simp [Grows, Shrinks])
      rw [← List.singleton_append, linksAfter_append, hone, Option.bind_some,
        ih fun ev' hev' => h ev' (List.mem_cons_of_mem ev hev')]

theorem AddEntry.linksAfter {entries entries' : List Dirent} {e : Dirent} {ok : Bool}
    (h : AddEntry entries e ok events entries') (n : Nat) (links : Nat → Option Nat) :
    linksAfter n events links = some links := by
  cases h with
  | ok hgrows _ => exact linksAfter_of_keeps fun ev hev => Or.inl (hgrows ev hev)
  | err hgrows _ => exact linksAfter_of_keeps fun ev hev => Or.inl (hgrows ev hev)

theorem AddEntry.mem {entries entries' : List Dirent} {e e' : Dirent} {ok : Bool}
    (h : AddEntry entries e ok events entries') (he' : e' ∈ entries') :
    e' ∈ entries ∨ (ok = true ∧ e' = e) := by
  cases h with
  | ok _ hsub =>
      rcases List.mem_cons.mp (hsub he') with heq | hmem
      · exact Or.inr ⟨rfl, heq⟩
      · exact Or.inl hmem
  | err _ hsub => exact Or.inl (hsub he')

/-! ## Numbers -/

/-- Taking a number leaves the others in use. -/
theorem used_of_flips {g i : Nat} {inodes' : Allocator} {disk' : Disk}
    {objects' : Nat → Option InodeObject} {entries' : List Dirent}
    (hf : Allocator.Flips s.inodes inodes' g i true) {x : Nat}
    (h : s.Used x ∨ x = g * s.inodes.sb.inodesPerGroup + i + 1) :
    Used ⟨s.sb, inodes', disk', objects', entries'⟩ x := by
  rcases h with ⟨g', i', hinto, hbit⟩ | rfl
  · refine ⟨g', i', by rw [← hinto, ← hf.sb], ?_⟩
    rw [hf.bits g' i', hbit]
    split <;> rfl
  · refine ⟨g, i, by rw [← hf.intoBgidIndex, ← hf.sb], ?_⟩
    rw [hf.bits g i, if_pos ⟨rfl, rfl⟩]

/-- A number that is handed out was not in use. -/
theorem not_used_of_flips {g i : Nat} {inodes' : Allocator}
    (hf : Allocator.Flips s.inodes inodes' g i true) :
    ¬ s.Used (g * s.inodes.sb.inodesPerGroup + i + 1) := by
  rintro ⟨g', i', hinto, hbit⟩
  rw [hf.intoBgidIndex] at hinto
  cases hinto
  rw [hf.old] at hbit
  cases hbit

theorem get_links (h : s.Agree) {o : InodeObject} (hget : s.get ino = some o) :
    s.disk.links ino = some o.linksCount := by
  unfold FileTree.get at hget
  split at hget
  next o' ho =>
    cases hget
    exact h ino o ho
  next =>
    obtain ⟨raw, hraw, rfl⟩ := Option.map_eq_some_iff.mp hget
    rw [Disk.links, hraw]
    rfl

/-! ## One change at a time -/

structure Inv (s : FileTree) : Prop where
  wf : s.WellFormed
  agree : s.Agree

namespace Inv

/-- A commit that changes no link count, and entries that are lost. -/
theorem committed (h : s.Inv) {d' : Disk} {entries' : List Dirent} (hrec : d'.HasRecords)
    (hlinks : d'.links = s.disk.links) (hsub : entries' ⊆ s.entries) :
    Inv { s with disk := d', entries := entries' } := by
  have hsound : ∀ x, s.Sound x → Sound { s with disk := d', entries := entries' } x := by
    intro x hx
    unfold Sound at hx ⊢
    rw [hlinks]
    exact hx
  exact
    { wf :=
        { inodes := h.wf.inodes
          inodesSb := h.wf.inodesSb
          records := hrec
          named := fun e he => hsound _ (h.wf.named e (hsub he))
          alive := fun x o hx => hsound _ (h.wf.alive x o hx) }
      agree := fun x o hx => by
        rw [hlinks]
        exact h.agree x o hx }

theorem insertObject (h : s.Inv) {o : InodeObject} (hsound : s.Sound ino)
    (hlinks : s.disk.links ino = some o.linksCount) :
    Inv { s with objects := Function.update s.objects ino (some o) } := by
  have hobjects : ∀ x o', Function.update s.objects ino (some o) x = some o' →
      (x = ino ∧ o' = o) ∨ s.objects x = some o' := by
    intro x o' hx
    rw [Function.update_apply] at hx
    split at hx
    next heq => exact Or.inl ⟨heq, (Option.some.inj hx).symm⟩
    next => exact Or.inr hx
  refine ⟨{ h.wf with alive := fun x o' hx => ?_ }, fun x o' hx => ?_⟩
  · rcases hobjects x o' hx with ⟨rfl, -⟩ | hx
    · exact hsound
    · exact h.wf.alive x o' hx
  · rcases hobjects x o' hx with ⟨rfl, rfl⟩ | hx
    · exact hlinks
    · exact h.agree x o' hx

theorem dropObject (h : s.Inv) (ino : Nat) :
    Inv { s with objects := Function.update s.objects ino none } := by
  have hobjects : ∀ x o', Function.update s.objects ino none x = some o' →
      s.objects x = some o' := by
    intro x o' hx
    rw [Function.update_apply] at hx
    split at hx
    next => cases hx
    next => exact hx
  exact ⟨{ h.wf with alive := fun x o' hx => h.wf.alive x o' (hobjects x o' hx) },
    fun x o' hx => h.agree x o' (hobjects x o' hx)⟩

/-- A commit that sets the count of one inode in use, which has the object `o` then. -/
theorem relinked (h : s.Inv) {d' : Disk} {entries' : List Dirent} {o : InodeObject}
    (hrec : d'.HasRecords)
    (hlinks : d'.links = Function.update s.disk.links ino (some o.linksCount))
    (hused : s.Used ino) (hsub : entries' ⊆ s.entries) :
    Inv { s with
      disk := d', entries := entries'
      objects := Function.update s.objects ino (some o) } := by
  have hsound : ∀ x, s.Sound x → Sound { s with
      disk := d', entries := entries'
      objects := Function.update s.objects ino (some o) } x := by
    intro x hx
    by_cases hxi : x = ino
    · subst hxi
      exact Or.inl hused
    · refine hx.imp id fun h0 => ?_
      dsimp only
      rwa [hlinks, Function.update_of_ne hxi]
  -- The other objects stay as they were.
  have hobjects : ∀ x ≠ ino, Function.update s.objects ino (some o) x = s.objects x :=
    fun x hx => Function.update_of_ne hx ..
  refine ⟨⟨h.wf.inodes, h.wf.inodesSb, hrec, fun e he => hsound _ (h.wf.named e (hsub he)),
    fun x o' hx => ?_⟩, fun x o' hx => ?_⟩
  · by_cases hxi : x = ino
    · subst hxi
      exact Or.inl hused
    · exact hsound x (h.wf.alive x o' ((hobjects x hxi).symm.trans hx))
  · dsimp only at hx ⊢
    rw [hlinks]
    by_cases hxi : x = ino
    · subst hxi
      rw [Function.update_self] at hx ⊢
      cases hx
      rfl
    · rw [Function.update_of_ne hxi]
      exact h.agree x o' ((hobjects x hxi).symm.trans hx)

/-- A number that is taken, with the count `k` in its record and in its object, if that
    is alive. -/
theorem taken (h : s.Inv) {g i k : Nat} {inodes' : Allocator} {d' : Disk}
    {objects' : Nat → Option InodeObject} {entries' : List Dirent}
    (hf : Allocator.Flips s.inodes inodes' g i true)
    (hino : ino = g * s.inodes.sb.inodesPerGroup + i + 1) (hrec : d'.HasRecords)
    (hlinks : d'.links = Function.update s.disk.links ino (some k))
    (hentries : ∀ e ∈ entries', e ∈ s.entries ∨ e.ino = ino)
    (hobjects : ∀ x ≠ ino, objects' x = s.objects x)
    (hobject : ∀ o, objects' ino = some o → o.linksCount = k) :
    Inv ⟨s.sb, inodes', d', objects', entries'⟩ := by
  -- The inode taken is in use now, whatever its links are.
  have hused : Used ⟨s.sb, inodes', d', objects', entries'⟩ ino :=
    used_of_flips hf (Or.inr hino)
  have hsound : ∀ x ≠ ino, s.Sound x → Sound ⟨s.sb, inodes', d', objects', entries'⟩ x := by
    intro x hx hs
    refine hs.imp (fun hu => used_of_flips hf (Or.inl hu)) fun h0 => ?_
    dsimp only
    rwa [hlinks, Function.update_of_ne hx]
  refine ⟨⟨h.wf.inodes.flips hf, hf.sb.trans h.wf.inodesSb, hrec, fun e he => ?_,
    fun x o hx => ?_⟩, fun x o hx => ?_⟩
  · by_cases hxi : e.ino = ino
    · exact hxi ▸ Or.inl hused
    · exact hsound _ hxi (h.wf.named e ((hentries e he).resolve_right hxi))
  · by_cases hxi : x = ino
    · exact hxi ▸ Or.inl hused
    · exact hsound x hxi (h.wf.alive x o ((hobjects x hxi).symm.trans hx))
  · dsimp only at hx ⊢
    rw [hlinks]
    by_cases hxi : x = ino
    · subst hxi
      rw [Function.update_self, hobject o hx]
    · rw [Function.update_of_ne hxi]
      exact h.agree x o ((hobjects x hxi).symm.trans hx)

/-- An object of a number that was not in use has no link. -/
theorem object_of_taken (h : s.Inv) {g i : Nat} {inodes' : Allocator} {o : InodeObject}
    (hf : Allocator.Flips s.inodes inodes' g i true)
    (ho : s.objects (g * s.inodes.sb.inodesPerGroup + i + 1) = some o) : o.linksCount = 0 := by
  have h0 := (h.wf.alive _ o ho).resolve_left (not_used_of_flips hf)
  have hlinks := h.agree _ o ho
  rw [h0] at hlinks
  exact (Option.some.inj hlinks).symm

/-! ## Calls -/

theorem of_applied_nil (h : s.Inv) {d' : Disk} {entries' : List Dirent}
    (happ : Applied s.sb [] s.disk d') (hsub : entries' ⊆ s.entries) :
    Inv { s with disk := d', entries := entries' } := by
  obtain ⟨hrec, hlinks⟩ := happ.links h.wf.records
  exact h.committed hrec (Option.some.inj hlinks).symm hsub

/-- What the number, the events and the link counts are after an allocation. -/
theorem allocated (h : s.Inv) {ftype : FileType} {inodes' : Allocator} {rest : List Event}
    {d' : Disk} (halloc : s.inodes.allocate [] ftype = (.ok ino, inodes', events))
    (happ : Applied s.sb (events ++ rest) s.disk d') :
    ∃ g i, Allocator.Flips s.inodes inodes' g i true ∧
      ino = g * s.inodes.sb.inodesPerGroup + i + 1 ∧ d'.HasRecords ∧
      linksAfter s.sb.inodesPerGroup rest (Function.update s.disk.links ino (some 0)) =
        some d'.links := by
  rcases h.wf.inodes.allocate_cases [] ftype with ⟨g, i, lba, s', hf, hr⟩ | ⟨hr, -⟩
  · rw [halloc] at hr
    cases hr
    obtain ⟨hrec, hlinks⟩ := happ.links h.wf.records
    have hnum := (Allocator.number_le hf.lt hf.idx_lt).trans_lt h.wf.inodes.fits
    rw [linksAfter_append, List.nil_append, linksAfter_allocate,
      Nat.mod_eq_of_lt (show i < 2 ^ 32 by omega)] at hlinks
    obtain ⟨links1, hone, hlinks⟩ := Option.bind_eq_some_iff.mp hlinks
    obtain ⟨n, -, rfl⟩ := changeLinks_some hone
    rw [show s.sb.inodesPerGroup = s.inodes.sb.inodesPerGroup from
      congrArg SuperBlock.inodesPerGroup h.wf.inodesSb.symm] at hlinks ⊢
    exact ⟨g, i, hf, rfl, hrec, hlinks⟩
  · rw [halloc] at hr
    cases hr

theorem createEntry (h : s.Inv) {ftype : FileType} {dots : Bool} {s1 : FileTree} {d' : Disk}
    (hguard : ftype = .directory → dots = false)
    (hcall : CreateEntry s dir name ftype dots events s1)
    (happ : Applied s.sb events s.disk d') : Inv { s1 with disk := d' } := by
  cases hcall with
  | refused => exact h.of_applied_nil happ fun e he => he
  | noInode halloc =>
      rcases h.wf.inodes.allocate_cases [] ftype with ⟨g, i, lba, s', hf, hr⟩ | ⟨hr, -⟩
      · rw [halloc] at hr
        cases hr
      · rw [halloc] at hr
        cases hr
        exact h.of_applied_nil happ fun e he => he
  -- From here on an inode was taken, and what follows may leave it without an entry.
  | notCleanedUp halloc _ =>
      rw [← List.append_nil events] at happ
      obtain ⟨g, i, hf, rfl, hrec, hlinks⟩ := h.allocated halloc happ
      exact h.taken hf rfl hrec (Option.some.inj hlinks).symm (fun e he => Or.inl he)
        (fun _ _ => rfl) fun o ho => h.object_of_taken hf ho
  | noEntry halloc hadd | noDot halloc hadd =>
      obtain ⟨g, i, hf, rfl, hrec, hlinks⟩ := h.allocated halloc.1 happ
      rw [hadd.linksAfter] at hlinks
      exact h.taken hf rfl hrec (Option.some.inj hlinks).symm
        (fun e he => Or.inl ((hadd.mem he).resolve_right (by simp))) (fun _ _ => rfl)
        fun o ho => h.object_of_taken hf ho
  | noDotDot halloc hdot hdotdot =>
      rw [List.append_assoc] at happ
      obtain ⟨g, i, hf, rfl, hrec, hlinks⟩ := h.allocated halloc.1 happ
      rw [linksAfter_append, hdot.linksAfter, Option.bind_some, hdotdot.linksAfter] at hlinks
      refine h.taken hf rfl hrec (Option.some.inj hlinks).symm (fun e he => ?_) (fun _ _ => rfl)
        fun o ho => h.object_of_taken hf ho
      refine (hdot.mem ((hdotdot.mem he).resolve_right (by simp))).imp id ?_
      rintro ⟨-, rfl⟩
      rfl
  | file halloc hadd =>
      rw [List.append_assoc] at happ
      obtain ⟨g, i, hf, rfl, hrec, hlinks⟩ := h.allocated halloc.1 happ
      rw [linksAfter_append, hadd.linksAfter, Option.bind_some, linksAfter_addLink] at hlinks
      obtain ⟨n, hn, hlinks⟩ := changeLinks_some hlinks
      rw [Function.update_self] at hn
      cases hn
      rw [Function.update_idem] at hlinks
      refine h.taken hf rfl hrec hlinks (fun e he => ?_) (fun x hx => Function.update_of_ne hx ..)
        fun o ho => ?_
      · refine (hadd.mem he).imp id ?_
        rintro ⟨-, rfl⟩
        rfl
      · dsimp only at ho
        rw [Function.update_self] at ho
        cases ho
        rfl
  -- excluded by the guard
  | noDirectoryEntry => exact absurd (hguard rfl) (by simp)
  | directory => exact absurd (hguard rfl) (by simp)

theorem removesEntry (h : s.Inv) {s1 : FileTree} {d' : Disk}
    (hguard : NoDirectory s (.removeEntry dir name))
    (hcall : RemovesEntry s dir name events s1)
    (happ : Applied s.sb events s.disk d') : Inv { s1 with disk := d' } := by
  cases hcall with
  | noEntry hsub => exact h.of_applied_nil happ hsub
  | unread hremove => exact h.of_applied_nil happ fun e he => List.mem_of_mem_erase (hremove.2 he)
  | @invalid ino o entries hremove hget hlinks =>
      have hentries := h.of_applied_nil happ fun e he => List.mem_of_mem_erase (hremove.2 he)
      obtain ⟨hrec, hsame⟩ := happ.links h.wf.records
      refine hentries.insertObject ?_ ?_
      · have hsound := h.wf.named _ hremove.1
        refine hsound.imp id fun h0 => ?_
        dsimp only
        rw [← Option.some.inj hsame]
        exact h0
      · dsimp only
        rw [← Option.some.inj hsame]
        exact get_links h.agree hget
  | @directory ino o entries hremove hget hlinks =>
      obtain ⟨ftype, n⟩ := o
      obtain ⟨rfl, rfl⟩ := hlinks
      exact absurd hget (hguard _ hremove.1 rfl rfl)
  | @file ino o entries hremove hget hlinks =>
      obtain ⟨hrec, hchange⟩ := happ.links h.wf.records
      have hcount := get_links h.agree hget
      rw [linksAfter_rmLink] at hchange
      obtain ⟨n, hn, hlinks'⟩ := changeLinks_some hchange
      rw [hcount] at hn
      cases hn
      refine h.relinked hrec hlinks' ?_ fun e he => List.mem_of_mem_erase (hremove.2 he)
      -- An inode whose last link went keeps its bit until the object is dropped.
      refine (h.wf.named _ hremove.1).resolve_right fun h0 => hlinks.2 ?_
      exact Option.some.inj (hcount.symm.trans h0)

/-- The postludes of blocks pass the inode allocator by. -/
theorem applyPostludes_shrinks {inodes : Allocator} {truncated : List Event}
    (h : ∀ ev ∈ truncated, Shrinks ev) (ps : List Transaction.PostludeOps) :
    inodes.applyPostludes (truncated.flatMap Event.postludes ++ ps) =
      inodes.applyPostludes ps := by
  induction truncated with
  | nil => rfl
  | cons ev truncated ih =>
      have hrest := ih fun ev' hev' => h ev' (List.mem_cons_of_mem ev hev')
      have hev := h ev List.mem_cons_self
      cases ev <;> first | exact hrest | exact absurd hev id

/-- A freed number was that of an inode without links. -/
theorem freed (h : s.Inv) {g i : Nat} {inodes' : Allocator} {d' : Disk}
    (hf : Allocator.Flips s.inodes inodes' g i false)
    (hinto : InodeNumber.intoBgidIndex s.inodes.sb ino = some (g, i)) (hrec : d'.HasRecords)
    (hlinks : d'.links = s.disk.links) (h0 : s.disk.links ino = some 0) :
    Inv ⟨s.sb, inodes', d', Function.update s.objects ino none, s.entries⟩ := by
  have hsound : ∀ x, s.Sound x →
      Sound ⟨s.sb, inodes', d', Function.update s.objects ino none, s.entries⟩ x := by
    intro x hx
    by_cases hxi : x = ino
    · subst hxi
      refine Or.inr ?_
      dsimp only
      rw [hlinks, h0]
    · refine hx.imp ?_ fun hzero => ?_
      · rintro ⟨g', i', hinto', hbit⟩
        refine ⟨g', i', by rw [← hinto', ← hf.sb], ?_⟩
        rw [hf.bits g' i', if_neg, hbit]
        rintro ⟨rfl, rfl⟩
        exact hxi (InodeNumber.intoBgidIndex_inj hinto' hinto)
      · dsimp only
        rwa [hlinks]
  have hobjects : ∀ x o, Function.update s.objects ino none x = some o → s.objects x = some o := by
    intro x o hx
    rw [Function.update_apply] at hx
    split at hx
    next => cases hx
    next => exact hx
  refine ⟨⟨h.wf.inodes.flips hf, hf.sb.trans h.wf.inodesSb, hrec,
    fun e he => hsound _ (h.wf.named e he),
    fun x o hx => hsound x (h.wf.alive x o (hobjects x o hx))⟩, fun x o hx => ?_⟩
  dsimp only
  rw [hlinks]
  exact h.agree x o (hobjects x o hx)

theorem dropUnlinked (h : s.Inv) {o : InodeObject} {truncated : List Event} {orphan : Event}
    {d d' : Disk} {inodes' : Allocator} (ho : s.objects ino = some o) (h0 : o.linksCount = 0)
    (htrunc : ∀ ev ∈ truncated, Shrinks ev)
    (hdealloc : s.inodes.deallocate truncated ino o.ftype = (.ok (), events))
    (horphan : removeOrphan s.disk ino = some (d, orphan))
    (happ : Applied s.sb (events ++ [orphan]) d d')
    (hpost : s.inodes.applyPostludes ((events ++ [orphan]).flatMap Event.postludes) =
      .ok inodes') :
    Inv { s with
      inodes := inodes', disk := d'
      objects := Function.update s.objects ino none } := by
  obtain ⟨g, i, lba, rfl⟩ := Allocator.deallocate_events hdealloc
  unfold removeOrphan at horphan
  split at horphan
  next pred succ _ =>
    cases horphan
    obtain ⟨hrec, hlinks⟩ := happ.links h.wf.records
    -- Blocks that are given back change no links and leave no postlude for inodes.
    rw [List.append_assoc, linksAfter_append,
      linksAfter_of_keeps fun ev hev => Or.inr (htrunc ev hev), Option.bind_some] at hlinks
    rw [List.append_assoc, List.flatMap_append, applyPostludes_shrinks htrunc] at hpost
    simp only [List.cons_append, List.nil_append, List.flatMap_cons, List.flatMap_nil,
      Event.postludes, Allocator.applyPostludes] at hpost
    split at hpost
    · cases hpost
    next inodes1 hfree =>
      cases hpost
      obtain ⟨g', i', hinto, hf⟩ := Allocator.applyDeallocationOnCore_flips hfree
      refine h.freed hf hinto hrec (Option.some.inj hlinks).symm ?_
      rw [h.agree ino o ho, h0]
  next => cases horphan

end Inv

/-! ## Runs -/

theorem Step.inv {a : Action} (h : s.Inv) (hguard : s.NoDirectory a) (hstep : Step s a s') :
    s'.Inv := by
  cases hstep with
  | createEntry _ hcall happ => exact h.createEntry hguard hcall happ
  | removeEntry _ hcall happ => exact h.removesEntry hguard hcall happ
  | openEntry he hget => exact h.insertObject (h.wf.named _ he) (get_links h.agree hget)
  | drop => exact h.dropObject _
  | dropUnlinked ho h0 htrunc hdealloc horphan happ hpost =>
      exact h.dropUnlinked ho h0 htrunc hdealloc horphan happ hpost

/-- As long as no directory is created or removed, every inode object that is alive has
    the link count of its record. -/
theorem agree_of_run (hwf : s.WellFormed) (hagree : s.Agree)
    (hrun : Runs.Run Step NoDirectory s s') : s'.Agree :=
  (hrun.invariant (fun _ _ _ h hguard hstep => hstep.inv h hguard) ⟨hwf, hagree⟩).agree

/-- The part of `NoDirectory` that can be told before the call. -/
def FilesOnly (s : FileTree) : Action → Prop
  | .createEntry _ _ ftype _ => ftype ≠ .directory
  | .removeEntry dir name => ∀ e ∈ s.entries, e.dir = dir → e.name = name →
      ∀ o, s.get e.ino = some o → o.ftype ≠ .directory
  | .openEntry _ => True
  | .drop _ => True

theorem FilesOnly.noDirectory {a : Action} (h : s.FilesOnly a) : s.NoDirectory a := by
  cases a with
  | createEntry => exact fun hdir => absurd hdir h
  | removeEntry => exact fun e he hdir hname hget => h e he hdir hname _ hget rfl
  | openEntry | drop => trivial

/-- So the counts agree in every run whose calls create and remove files only. -/
theorem agree_of_filesOnly (hwf : s.WellFormed) (hagree : s.Agree)
    (hrun : Runs.Run Step FilesOnly s s') : s'.Agree :=
  (hrun.invariant (fun _ _ _ h hguard hstep => hstep.inv h hguard.noDirectory)
    ⟨hwf, hagree⟩).agree

/-! ## A root directory -/

/-- One group of eight inodes. -/
def rootOnlySb : DescriptorSb where
  isDirEntryVersion2 := true
  inodeSize := 128
  inodesPerGroup := 8
  featuresIncompatible := Inode.featureExtents
  featuresReadonly := 0
  firstDataBlock := 0
  blocksPerGroup := 32768
  creatorOs := 0
  revLevel := 1
  bgCount := 1
  wantExtraIsize := 0
  firstDataBlock_le := SuperBlock.zero_firstDataBlock_le
  blocksPerGroup_pos := SuperBlock.groupOf32768_pos
  blocksPerGroup_lt := SuperBlock.groupOf32768_lt
  bgCount_lt := SuperBlock.oneGroup_lt
  blocksCount := 32768
  inodesCount := 8
  blockDescSize := 32
  blkSize := 4096

/-- The last of the eight inodes is free. -/
def rootOnly : FileTree where
  sb := rootOnlySb
  inodes :=
    { sb := rootOnlySb.toSuperBlock
      groups := fun g => if g = 0 then some ⟨3, 1⟩ else none
      bitmap := fun g => if g = 0 then some [0x7f, 0xff] else none
      freeInodesCount := 1
      lastInodeBgId := 0 }
  disk :=
    { descs := fun g => if g = 0 then some ⟨100, 1, 1, 0⟩ else none
      blocks := fun lba =>
        if lba = 3 then some [0x7f, 0xff] else if lba = 4 then some [0xff, 0x03, 0, 0] else none
      inodes := fun ino => some (Inode.Manipulator.setLinksCount (List.replicate 128 0)
        (if ino = 2 then 2 else 0))
      orphanedInode := fun _ => none
      freeBlocksCount := 100, freeInodesCount := 1, lastOrphan := 0 }
  objects := fun ino => if ino = 2 then some ⟨.directory, 2⟩ else none
  entries := [⟨2, ".", 2⟩, ⟨2, "..", 2⟩]

theorem freeBits_rootOnly : rootOnly.inodes.freeBits 0 = {7} := by decide

theorem inodes_rootOnly : rootOnly.inodes.Inv where
  loaded := by
    intro g hg
    obtain rfl : g = 0 := Nat.lt_one_iff.mp hg
    exact ⟨rfl, rfl⟩
  padding := by
    intro g hg i hi
    obtain rfl : g = 0 := Nat.lt_one_iff.mp hg
    rw [freeBits_rootOnly, Finset.mem_singleton] at hi
    subst hi
    decide
  groupCount := by
    intro g hg bg hbg
    obtain rfl : g = 0 := Nat.lt_one_iff.mp hg
    cases hbg
    rw [freeBits_rootOnly]
    rfl
  total := by
    change 1 = ∑ g ∈ Finset.range 1, (rootOnly.inodes.freeBits g).card
    rw [Finset.sum_range_one, freeBits_rootOnly]
    rfl
  fits := by decide

theorem links_rootOnly (ino : Nat) :
    rootOnly.disk.links ino = some (if ino = 2 then 2 else 0) := by
  have hlt : (if ino = 2 then 2 else 0) < 2 ^ 16 := by split <;> decide
  refine congrArg some (Inode.linksCount_setLinksCount ?_ hlt)
  rw [Inode.IsRecord, List.length_replicate]

theorem wellFormed_rootOnly : rootOnly.WellFormed := by
  have hsound : rootOnly.Sound 2 := Or.inl ⟨0, 1, by decide, by decide⟩
  refine ⟨inodes_rootOnly, rfl, ?_, ?_, ?_⟩
  · intro ino raw hraw
    cases hraw
    refine Inode.isRecord_setLinksCount ?_
    rw [Inode.IsRecord, List.length_replicate]
  · intro e he
    simp only [rootOnly, List.mem_cons, List.not_mem_nil, or_false] at he
    rcases he with rfl | rfl <;> exact hsound
  · intro ino o ho
    simp only [rootOnly] at ho
    split at ho
    next heq => exact heq ▸ hsound
    next => cases ho

theorem agree_rootOnly : rootOnly.Agree := by
  intro ino o ho
  simp only [rootOnly] at ho
  split at ho
  next heq =>
    cases ho
    rw [links_rootOnly, if_pos heq]
  next => cases ho

/-- A file is created in it. -/
theorem agree_of_run_file : ∃ s, Runs.Run Step NoDirectory rootOnly s ∧
    s.objects 8 = some ⟨.regularFile, 1⟩ ∧ s.Agree := by
  obtain ⟨d', hd'⟩ := Transaction.ok_of_isOk (x := Transaction.commit rootOnly.sb
    [.inodeAllocationOnBg 0 3 7 .regularFile, .freeInodesCountDecOnSb, .inodeAddLink 8]
    rootOnly.disk) (by decide +kernel)
  have halloc : rootOnly.Allocate .regularFile 8 _ _ := ⟨rfl, rfl⟩
  have hadd : AddEntry rootOnly.entries ⟨2, "a", 8⟩ true [] (⟨2, "a", 8⟩ :: rootOnly.entries) :=
    .ok (by simp) (List.Subset.refl _)
  have hstep := Step.createEntry (s := rootOnly) rfl (.file halloc hadd)
    (Transaction.applied_of_commit hd')
  have hrun : Runs.Run Step NoDirectory rootOnly _ := .single (by intro h; cases h) hstep
  exact ⟨_, hrun, rfl, agree_of_run wellFormed_rootOnly agree_rootOnly hrun⟩

/-- A directory is created in it: the object of the root keeps its count of 2, and its
    record has 3 links then. -/
theorem parent_not_counted : ∃ s s', s.WellFormed ∧ s.Agree ∧
    Runs.Run Step (fun _ _ => True) s s' ∧ ¬ s'.Agree := by
  -- `.` makes the two blocks of the index, `..` and the name find room.
  let grown : List Event :=
    [.blockAllocationOnBg 8 0 4 10 1, .blockAllocationOnBg 8 0 4 11 1, .inodeSetSize 8 8192
      (.extent 1 4 0 ([0, 0, 0, 0, 2, 0, 0, 0, 10, 0, 0, 0] ++ List.replicate 36 0))]
  let events : List Event :=
    [.inodeAllocationOnBg 0 3 7 .directory, .freeInodesCountDecOnSb] ++ grown ++ [] ++
      [.inodeAddLink 8, .inodeAddLink 2] ++ [] ++ [.inodeAddLink 8]
  obtain ⟨d', hd'⟩ := Transaction.ok_of_isOk (x := Transaction.commit rootOnly.sb events
    rootOnly.disk) (by decide +kernel)
  have happ := Transaction.applied_of_commit hd'
  have halloc : rootOnly.Allocate .directory 8 _ _ := ⟨rfl, rfl⟩
  have hgrows : ∀ ev ∈ grown, Grows ev := by simp [grown, Grows]
  have hadd (es : List Dirent) (e : Dirent) : AddEntry es e true [] (e :: es) :=
    .ok (by simp) (List.Subset.refl (e :: es))
  have hstep := Step.createEntry (s := rootOnly) rfl
    (.directory halloc (.ok hgrows (List.Subset.refl (⟨8, ".", 8⟩ :: rootOnly.entries)))
      (hadd _ ⟨8, "..", 2⟩) (hadd _ ⟨2, "a", 8⟩)) happ
  refine ⟨_, _, wellFormed_rootOnly, agree_rootOnly, .single trivial hstep, fun hagree => ?_⟩
  have htwo : d'.links 2 = some 2 := hagree 2 ⟨.directory, 2⟩ rfl
  have hthree : (linksAfter rootOnly.sb.inodesPerGroup events rootOnly.disk.links).map (· 2) =
      some (some 3) := by
    decide +kernel
  rw [(happ.links wellFormed_rootOnly.records).2, Option.map_some, htwo] at hthree
  cases hthree

end RustExt4.FileTree
