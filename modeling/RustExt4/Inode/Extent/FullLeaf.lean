/-
  RustExt4.Inode.Extent.FullLeaf

  `Path::insert` of a run behind all extents where the last node has no slot.  A root of
  depth 0 grows, and a root of depth 1 that has a slot can take a second leaf node.  Every
  other tree ends in `todo!()` or in an error: `do_insert` counts levels from the root and
  hands `split_at` a level that is counted from the leaf nodes.
-/
import RustExt4.Inode.Extent.InsertLeaf
import RustExt4.Inode.Extent.Grow

namespace RustExt4.Inode.Extent

open StateExcept
open Transaction (Event)
open Predecessor (Ascending)

/-! ## The right edge of a sound tree -/

variable {c c' c'' : Cursor} {ls : List Leaf} {ns : List Nat} {L new : Leaf}

/-- What a path was before it is loaded does not matter. -/
theorem Path.atRight_of_load {fba : Nat}
    (ht : Tree c.fs.blocks c.path.root.depth (.tree c.path.root) ls ns)
    (hdepth : c.path.root.depth ≤ 5) (hcache : c.path.cache = none)
    (hle : ∀ l ∈ ls, l.block ≤ fba) :
    ∃ c', loadMut fba c = (.ok (), c') ∧ c'.AtRight ls ns ∧
      c' = atPath c c'.path.rootIdx c'.path.leafs :=
  ⟨_, loadMut_right ht hdepth hle, ⟨ht, rfl, rfl, hcache⟩, rfl⟩

/-- Levels of a path along the right edge. -/
theorem Cursor.AtRight.len (hat : c.AtRight ls ns) : c.len = c.path.root.depth + 1 := by
  rw [Cursor.len, hat.leafs, hat.tree.length_rightPath]
  omega

/-- The node blocks of the path are nodes of the tree, each at one level. -/
theorem Cursor.AtRight.nodup (hat : c.AtRight ls ns) (hnd : ns.Nodup) :
    (c.path.leafs.map Prod.fst).Nodup ∧ ∀ n ∈ c.path.leafs.map Prod.fst, n ∈ ns := by
  rw [hat.leafs]
  have hsub := hat.tree.rightPath_sublist
  exact ⟨hnd.sublist hsub, fun n hn => hsub.subset hn⟩

/-! ## The deepest level with a free slot -/

namespace Path

/-- The search finds a level that is not full, and all levels behind it are. -/
theorem findLevel_some {n k : Nat} (h : findLevel c n = .ok (some k)) :
    k < n ∧ (∃ nd idx, c.level k = .ok (nd, idx) ∧ nd.isFull = false) ∧
      ∀ j, k < j → j < n → ∃ nd idx, c.level j = .ok (nd, idx) ∧ nd.isFull = true := by
  induction n with
  | zero => cases h
  | succ n ih =>
      rw [findLevel] at h
      split at h
      next => cases h
      next nd idx hlevel =>
        split at h
        next hfull =>
          obtain ⟨hlt, hroom, hall⟩ := ih h
          refine ⟨by omega, hroom, fun j hj hjn => ?_⟩
          obtain rfl | hjn := Nat.eq_or_lt_of_le (Nat.le_of_lt_succ hjn)
          · exact ⟨nd, idx, hlevel, hfull⟩
          · exact hall j hj hjn
        next hroom =>
          cases h
          exact ⟨Nat.lt_succ_self _, ⟨nd, idx, hlevel, by simpa using hroom⟩,
            fun j hj hjn => by omega⟩

theorem findLevel_none {n : Nat} (h : findLevel c n = .ok none) :
    ∀ j < n, ∃ nd idx, c.level j = .ok (nd, idx) ∧ nd.isFull = true := by
  induction n with
  | zero => exact fun j hj => by omega
  | succ n ih =>
      rw [findLevel] at h
      split at h
      next => cases h
      next nd idx hlevel =>
        split at h
        next hfull =>
          intro j hj
          obtain rfl | hj := Nat.eq_or_lt_of_le (Nat.le_of_lt_succ hj)
          · exact ⟨nd, idx, hlevel, hfull⟩
          · exact ih h j hj
        next => cases h

/-! ## Splits that cannot succeed -/

/-- One new node: what `get_mut_noload` finds in the block that is allocated. -/
theorem allocateNodes_one (c : Cursor) :
    allocateNodes 1 c =
      match c.fs.allocate c.events c.path.ino 1 0 with
      | (.error e, fs, events) => (.error e, { c with fs := fs, events := events })
      | (.ok (lba, _), fs, events) => (.ok [lba],
          { c with
            fs := { fs with blocks := Function.update fs.blocks lba (some (c.noload lba)) }
            events := events }) := by
  rw [allocateNodes, get_bind, bind_apply, allocate]
  cases c.fs.allocate c.events c.path.ino 1 0 with
  | mk r rest => cases r <;> rfl

/-- The blocks that a new leaf node and the old one lie in. -/
theorem splitLeaf_keeps {lba at_ : Nat} (h : splitLeaf lba (at_ + 1) c = (.ok (), c')) :
    c'.path = c.path ∧ ∀ n, n ≠ lba → (∀ m ∈ c.path.leafs[at_]?, n ≠ m.1) →
      c'.fs.blocks n = c.fs.blocks n := by
  -- Taken apart in the order `splitLeaf` runs.
  unfold splitLeaf at h
  rw [get_bind] at h
  obtain ⟨x, hlevel, h⟩ := lift_bind_eq_ok h
  obtain ⟨b, hb, h⟩ := lift_bind_eq_ok h
  rw [writeBlock, modify_bind, get_bind] at h
  obtain ⟨⟨ext, idx⟩, hlevel', h⟩ := lift_bind_eq_ok h
  obtain ⟨base, hbase, h⟩ := lift_bind_eq_ok h
  obtain ⟨b', hb', h⟩ := lift_bind_eq_ok h
  split at h
  next => cases h
  next =>
    obtain ⟨nd, hmove, h⟩ := lift_bind_eq_ok h
    rw [writeBlock, modify_bind, modify_apply] at h
    obtain rfl := (Prod.mk.inj h).2
    constructor
    · -- the nodes are written through the path
      cases ext with
      | tree t => rfl
      | node b1 =>
          simp only [ExtentHeader.setEntriesCnt, Cursor.store]
          split <;> rfl
    · -- Two blocks are written: the new one, then the split node.
      intro n hlba hlast
      cases ext with
      | tree t => simp [ExtentHeader.setEntriesCnt, Cursor.store, Function.update_of_ne hlba]
      | node b1 =>
          simp only [ExtentHeader.setEntriesCnt, Cursor.store]
          cases hm : c.path.leafs[at_]? with
          | none => simp [Function.update_of_ne hlba]
          | some m =>
              have hne := hlast m hm
              simp [Function.update_of_ne hlba, Function.update_of_ne hne]

theorem level_congr {k : Nat} (hpath : c'.path = c.path)
    (hblocks : ∀ i m, k = i + 1 → c.path.leafs[i]? = some m → c'.fs.blocks m.1 = c.fs.blocks m.1) :
    c'.level k = c.level k := by
  cases k with
  | zero => rw [Cursor.level, Cursor.level, hpath]
  | succ i =>
      rw [Cursor.level, Cursor.level, hpath]
      cases hm : c.path.leafs[i]? with
      | none => rfl
      | some m =>
          obtain ⟨lba, idx⟩ := m
          simp only [hblocks i _ rfl hm]

theorem insertInternal_true {ext : Internal} {k : Nat}
    (h : insertInternal ext k c = (.ok true, c')) :
    ∃ nd idx, c.level k = .ok (nd, idx) ∧ nd.isFull = false := by
  unfold insertInternal at h
  rw [get_bind] at h
  obtain ⟨⟨nd, idx⟩, hlevel, h⟩ := lift_bind_eq_ok h
  dsimp only at h
  split at h
  next => cases h
  next hroom => exact ⟨nd, idx, hlevel, by simpa using hroom⟩

/-- A split that succeeds is one of the last node, and its parent has taken the new node. -/
theorem splitAt_eq_ok {at_ : Nat} {r : Bool × List Nat} (h : splitAt new at_ c = (.ok r, c')) :
    ∃ up key lba rest c1 c2 c3, at_ = up + 1 ∧ at_ = c.len - 1 ∧
      allocateNodes 1 c = (.ok (lba :: rest), c1) ∧ splitLeaf lba at_ c1 = (.ok (), c2) ∧
      insertInternal { block := key, nextNode := lba } up c2 = (.ok true, c3) := by
  unfold splitAt at h
  rw [get_bind] at h
  obtain ⟨⟨en, idx⟩, hlevel, h⟩ := lift_bind_eq_ok h
  obtain ⟨key, hkey, h⟩ := lift_bind_eq_ok h
  -- Every step of a split that succeeds has succeeded.
  obtain ⟨blocks, c1, halloc, h⟩ := bind_eq_ok h
  split at h
  next => cases h
  next lba rest =>
    split at h
    next => cases h
    next hat =>
      have hlast : at_ = c.len - 1 := not_not.mp hat
      have hone : c.len - at_ = 1 := by
        rw [hlast, Cursor.len]
        omega
      rw [hone] at halloc
      -- Only the leaf node itself is split: a longer run of new nodes is not written yet.
      obtain ⟨u, c2, hsplit, h⟩ := bind_eq_ok h
      split at h
      next => cases h
      next hpos =>
        obtain ⟨up, rfl⟩ := Nat.exists_eq_succ_of_ne_zero hpos
        obtain ⟨done, c3, hins, hdone⟩ := bind_eq_ok h
        cases done with
        | false => cases hdone
        | true => exact ⟨up, key, lba, rest, c1, c2, c3, rfl, hlast, halloc, hsplit, hins⟩

/-- No node of the path lies in a block that is still to be allocated. -/
def NewBlocks (c : Cursor) : Prop :=
  ∀ hope lba n fs events, c.fs.allocate c.events c.path.ino 1 hope = (.ok (lba, n), fs, events) →
    lba ∉ c.path.leafs.map Prod.fst

/-- The parent of a node that has been split had a slot. -/
theorem splitAt_parent {at_ : Nat} {r : Bool × List Nat} (hnew : NewBlocks c)
    (hnd : (c.path.leafs.map Prod.fst).Nodup) (h : splitAt new at_ c = (.ok r, c')) :
    ∃ up nd idx, at_ = up + 1 ∧ at_ = c.len - 1 ∧ c.level up = .ok (nd, idx) ∧
      nd.isFull = false := by
  obtain ⟨up, key, lba, rest, c1, c2, c3, rfl, hlast, halloc, hsplit, hins⟩ := splitAt_eq_ok h
  obtain ⟨nd, idx, hlevel, hroom⟩ := insertInternal_true hins
  refine ⟨up, nd, idx, rfl, hlast, ?_, hroom⟩
  obtain ⟨hpath, hkeeps⟩ := splitLeaf_keeps hsplit
  obtain ⟨x, fs, events, hfs, -, -, hblocks, -⟩ :=
    FileSystem.allocate_frame c.fs c.events c.path.ino 1 0
  rw [allocateNodes_one, hfs] at halloc
  cases x with
  | error e => cases halloc
  | ok x =>
      obtain ⟨lba', n⟩ := x
      have hfresh := hnew 0 lba' n fs events hfs
      cases halloc
      have hpath' : c2.path = c.path := hpath
      rw [← hlevel]
      refine (level_congr hpath' fun i m hi hm => ?_).symm
      -- The parent is neither the new node nor the one that is split.
      subst hi
      have hmem : m.1 ∈ c.path.leafs.map Prod.fst :=
        List.mem_map_of_mem (List.mem_of_getElem? hm)
      have hlba : m.1 ≠ lba := ne_of_mem_of_not_mem hmem hfresh
      have hother : ∀ m' ∈ c.path.leafs[i + 1]?, m.1 ≠ m'.1 := fun m' hm' heq => by
        have hidx := Cursor.leafs_index_inj hnd hm (Option.mem_def.mp hm') heq
        omega
      rw [hkeeps _ hlba hother]
      show Function.update fs.blocks lba _ m.1 = _
      rw [Function.update_of_ne hlba, hblocks]

/-! ## A last node without a slot -/

/-- The extent in front of a new run, which neither merges with it nor overflows its length. -/
structure Blocked (c : Cursor) (ls : List Leaf) (ns : List Nat) (L new : Leaf) : Prop where
  right : c.AtRight ls ns
  nodup : ns.Nodup
  last : ls.getLast? = some L
  lt : L.block < new.block
  not_merges : ¬ Merges L new
  len_lt : Follows L new → L.len + new.len < 2 ^ 16
  full : (rightNode c.fs.blocks c.path.root.depth (.tree c.path.root)).isFull = true

theorem Blocked.insertLeaf (hb : Blocked c ls ns L new) :
    Path.insertLeaf new c = (.ok (some new), c) :=
  insertLeaf_noSlot hb.right hb.nodup hb.last hb.lt hb.not_merges hb.len_lt hb.full

/-- Either the root grows or a node is split. -/
theorem Blocked.doInsert {n : Nat} {r : Option Leaf} (hb : Blocked c ls ns L new)
    (h : Path.doInsert (n + 1) new c = (.ok r, c')) :
    (findLevel c c.len = .ok none ∧ growExtent c = (.ok (), c') ∧ r = some new) ∨
      ∃ k x c1, findLevel c c.len = .ok (some k) ∧
        splitAt new (c.len - k - 1) c = (.ok x, c1) := by
  unfold Path.doInsert at h
  rw [bind_of_ok hb.insertLeaf] at h
  dsimp only at h
  rw [get_bind] at h
  obtain ⟨found, hfind, h⟩ := lift_bind_eq_ok h
  cases found with
  | none =>
      obtain ⟨u, c1, hgrow, h⟩ := bind_eq_ok h
      obtain ⟨hr, rfl⟩ := Prod.mk.inj h
      exact Or.inl ⟨hfind, hgrow, (Except.ok.inj hr).symm⟩
  | some k =>
      obtain ⟨x, c1, hsplit, -⟩ := bind_eq_ok h
      exact Or.inr ⟨k, x, c1, hfind, mapError_eq_ok.mp hsplit⟩

/-- A split that succeeds has a root of depth 1 with a slot above it. -/
theorem Blocked.root_of_split {k : Nat} {x : Bool × List Nat} (hb : Blocked c ls ns L new)
    (hnew : NewBlocks c) (hfind : findLevel c c.len = .ok (some k))
    (hsplit : splitAt new (c.len - k - 1) c = (.ok x, c')) :
    c.path.root.depth = 1 ∧ (ExtentHeader.tree c.path.root).isFull = false := by
  obtain ⟨hlt, -, hfull⟩ := findLevel_some hfind
  obtain ⟨up, nd, idx, hat, hlast, hup, hroom⟩ :=
    splitAt_parent hnew (hb.right.nodup hb.nodup).1 hsplit
  -- The search counts from the root, and the split from the leaf nodes.
  obtain rfl : k = 0 := by omega
  obtain rfl : up = 0 := by
    by_contra hpos
    obtain ⟨nd', idx', hlevel, hfull'⟩ := hfull up (by omega) (by omega)
    rw [hup] at hlevel
    cases hlevel
    rw [hroom] at hfull'
    cases hfull'
  have hlen := hb.right.len
  cases hup
  exact ⟨by omega, hroom⟩

/-! ## A root without a slot -/

section
variable {es : List Entry} {lba : Nat} {b : Bytes} {e : Entry}

/-- The right edge below a node with one entry. -/
theorem rightEdge_single {blocks : Nat → Option Bytes} {d key : Nat} {h : ExtentHeader}
    (hs : h.Shows (d + 1) [.internal ⟨key, lba⟩]) (hb : blocks lba = some b) :
    rightPath blocks (d + 1) h =
        (lba, some ((ExtentHeader.node b).entriesCnt - 1)) :: rightPath blocks d (.node b) ∧
      rightNode blocks (d + 1) h = rightNode blocks d (.node b) := by
  have hget : h.get (h.entriesCnt - 1) = .ok (some (.internal ⟨key, lba⟩)) := by
    rw [hs.get, hs.entriesCnt]
    rfl
  rw [rightPath, rightNode]
  simp only [hget, hb, and_self]

/-- The new node is on the right edge of the tree that has grown. -/
theorem Grown.rightEdge (hg : Grown c c' ns lba b e) :
    c'.fs.blocks lba = some b ∧
      rightPath c'.fs.blocks (c.path.root.depth + 1) (.tree c'.path.root) =
        (lba, some ((ExtentHeader.node b).entriesCnt - 1)) ::
          rightPath c'.fs.blocks c.path.root.depth (.node b) ∧
      rightNode c'.fs.blocks (c.path.root.depth + 1) (.tree c'.path.root) =
        rightNode c'.fs.blocks c.path.root.depth (.node b) := by
  have hb : c'.fs.blocks lba = some b := by
    rw [hg.blocks]
    exact Function.update_self ..
  exact ⟨hb, rightEdge_single hg.root hb⟩

/-- Neither the root nor the new node is full after a growth. -/
theorem Grown.slots (hr : c.Raisable es ns) (hg : Grown c c' ns lba b e) (hz : Sized c c' lba b)
    (hmax : c.path.root.maxEntriesCnt = 4) (hcnt : es.length ≤ 4) :
    (ExtentHeader.tree c'.path.root).isFull = false ∧ (ExtentHeader.node b).isFull = false := by
  have hroot : (ExtentHeader.tree c'.path.root).maxEntriesCnt = 4 := hz.root_max.trans hmax
  have hone : (ExtentHeader.tree c'.path.root).entriesCnt = 1 := hg.root.entriesCnt
  have hnode := (hg.node es hr.shows).entriesCnt
  have hblk := hr.blkSize
  rw [ExtentHeader.isFull, ExtentHeader.isFull, hroot, hone, hnode, hz.max]
  exact ⟨by decide, decide_eq_false (by omega)⟩

/-- Two nodes with the same entries have the same last node below them. -/
theorem rightNode_of_shows {d : Nat} {blocks : Nat → Option Bytes} {h h' : ExtentHeader}
    (hs : h.Shows (d + 1) es) (hs' : h'.Shows (d + 1) es)
    (ht : Tree blocks (d + 1) h ls ns) :
    rightNode blocks (d + 1) h' = rightNode blocks (d + 1) h := by
  obtain ⟨cs, ch, -, -, -, -, -, ⟨b, e, hb, -⟩, hlast⟩ := ht.lastChild
  have hlast' : h'.get (h'.entriesCnt - 1) = .ok (some (.internal ch.entry)) := by
    rw [hs'.get, hs'.entriesCnt, ← hs.entriesCnt, ← hs.get, hlast]
  rw [rightNode, rightNode]
  simp only [hlast, hlast', hb]

/-- The last node is as full as before when the tree has grown over it. -/
theorem Grown.blocked (hr : c.Raisable es ns) (hb : Blocked c ls ns L new)
    (hg : Grown c c' ns lba b e) (hz : Sized c c' lba b) (hdepth : 0 < c.path.root.depth)
    (hle : c.path.root.depth ≤ 4) (hall : ∀ l ∈ ls, l.block ≤ new.block) :
    ∃ c2, loadMut new.block c' = (.ok (), c2) ∧ Blocked c2 ls (lba :: ns) L new ∧
      c2.path.root = c'.path.root ∧
      c2.level 1 = .ok (.node b, some ((ExtentHeader.node b).entriesCnt - 1)) := by
  -- The cursor is loaded again, and comes to the right edge of the grown tree.
  have ht := hb.right.tree
  have ht' := hg.tree ht
  have hd : c'.path.root.depth = c.path.root.depth + 1 := hg.root.depth
  rw [← hd] at ht'
  obtain ⟨c2, hload, hat, hc2⟩ := atRight_of_load ht' (by omega)
    (hz.cache.trans hb.right.cache) hall
  obtain ⟨hlba, hpath, hnode⟩ := hg.rightEdge
  have hroot : c2.path.root = c'.path.root := by rw [hc2]
  have hblocks : c2.fs.blocks = c'.fs.blocks := by rw [hc2]
  have hsame : ∀ n ∈ ns, c'.fs.blocks n = c.fs.blocks n := fun n hn => by
    rw [hg.blocks]
    exact Function.update_of_ne (ne_of_mem_of_not_mem hn hg.fresh) _ _
  refine ⟨c2, hload, ?_, hroot, ?_⟩
  · -- The last leaf node is the old one, or the new one with the root's entries.
    refine ⟨hat, List.nodup_cons.mpr ⟨hg.fresh, hb.nodup⟩, hb.last, hb.lt, hb.not_merges,
      hb.len_lt, ?_⟩
    rw [hroot, hblocks, hd, hnode, ← hb.full, ← (ht.rightPath_congr hsame).2]
    have hs := hr.shows
    have hs' := hg.node es hs
    have htree := ht.congr hsame
    obtain ⟨d, hd'⟩ := Nat.exists_eq_succ_of_ne_zero hdepth.ne'
    rw [hd'] at hs hs' htree ⊢
    rw [rightNode_of_shows hs hs' htree]
  · have hleafs := hat.leafs
    rw [hroot, hblocks, hd, hpath] at hleafs
    rw [Cursor.level, hleafs]
    simp only [List.getElem?_cons_zero, hblocks, hlba]

/-- Where the last node has no slot, an insertion can only succeed with a root of depth 0
    or a root of depth 1 that has a slot. -/
theorem Blocked.insert {n x : Nat} (hb : Blocked c ls ns L new) (hnew : NewBlocks c)
    (hr : c.Raisable es ns) (hmax : c.path.root.maxEntriesCnt = 4) (hcnt : es.length ≤ 4)
    (hle : c.path.root.depth ≤ 4) (hall : ∀ l ∈ ls, l.block ≤ new.block)
    (h : Path.insert n new c = (.ok x, c')) :
    c.path.root.depth = 0 ∨
      c.path.root.depth = 1 ∧ (ExtentHeader.tree c.path.root).isFull = false := by
  by_contra hother
  have hsplits : ∀ k x c1, findLevel c c.len = .ok (some k) →
      splitAt new (c.len - k - 1) c ≠ (.ok x, c1) := fun k x c1 hfind hsplit =>
    hother (Or.inr (hb.root_of_split hnew hfind hsplit))
  cases n with
  | zero => cases h
  | succ n =>
      unfold Path.insert at h
      obtain ⟨r, c1, hdo, h⟩ := bind_eq_ok h
      rcases hb.doInsert hdo with ⟨-, hgrow, rfl⟩ | ⟨k, y, c2, hfind, hsplit⟩
      · -- The grown tree has its free slots too far up.
        obtain ⟨lba, b, e, hg, hz⟩ := growExtent_grown hr hgrow
        obtain ⟨hroot, hnode⟩ := hg.slots hr hz hmax hcnt
        obtain ⟨c2, hload, hb2, hroot2, hlevel⟩ := hg.blocked hr hb hz (by omega) hle hall
        have hlen : c2.len = c.path.root.depth + 2 := by
          rw [hb2.right.len, hroot2]
          exact congrArg (· + 1) hg.root.depth
        dsimp only at h
        rw [bind_of_ok hload] at h
        cases n with
        | zero => cases h
        | succ n =>
            unfold Path.insert at h
            obtain ⟨r2, c3, hdo2, -⟩ := bind_eq_ok h
            rcases hb2.doInsert hdo2 with ⟨hfind, -⟩ | ⟨k, y, c4, hfind, hsplit⟩
            · obtain ⟨nd, idx, hzero, hfull⟩ := findLevel_none hfind 0 (by omega)
              cases hzero
              rw [hroot2, hroot] at hfull
              cases hfull
            · obtain ⟨hlt, -, hbehind⟩ := findLevel_some hfind
              obtain ⟨up, -, -, -, -, -, -, -, hlast, -⟩ := splitAt_eq_ok hsplit
              obtain ⟨nd, idx, hone, hfull⟩ := hbehind 1 (by omega) (by omega)
              rw [hlevel] at hone
              cases hone
              rw [hnode] at hfull
              cases hfull
      · exact hsplits k y c2 hfind hsplit

end

end Path
end RustExt4.Inode.Extent
