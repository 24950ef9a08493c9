/-
  RustExt4.Inode.Extent.Append

  An append to a file: `Path::insert` of a new run behind all extents, on the path loaded
  for it.  The exact trees for which it goes through and maps the run.
-/
import RustExt4.Inode.Extent.SplitLeaf
import RustExt4.Inode.Extent.Truncation
import RustExt4.Block.BuddyRuns

namespace RustExt4.Inode.Extent

open StateExcept
open Transaction (Event)
open Predecessor (Ascending)

variable {c c' : Cursor} {ls : List Leaf} {ns : List Nat} {L new : Leaf}

/-- A sound tree in blocks that are not free, a new run behind its extents, and a mounted
    file system that has a block for a new node. -/
structure Cursor.Appendable (c : Cursor) (ls : List Leaf) (ns : List Nat) (new : Leaf) : Prop where
  sound : Sound c.fs.blocks c.path.root ls ns
  behind : new.Behind ls
  cache : c.path.cache = none
  mounted : BlockRuns.Mounted c.fs
  blkSize : 1024 ≤ c.fs.blkSize ∧ c.fs.blkSize ≤ 4096
  bitmap : c.fs.sb.blocksPerGroup ≤ 8 * c.fs.blkSize
  noload : ∀ lba, (c.noload lba).length = c.fs.blkSize
  inUse : ∀ n ∈ ns, n ∉ c.fs.buddies.free
  group : ∃ g, Path.inoGroup c.fs.sb c.path.ino = .ok g
  groups : c.fs.GroupsLoaded
  room : c.fs.buddies.free.Nonempty

namespace Cursor.Appendable

/-- A path that has been loaded leaves everything else as it was. -/
theorem atPath (ha : c.Appendable ls ns new) (i : Option Nat) (leafs : List (Nat × Option Nat)) :
    (Path.atPath c i leafs).Appendable ls ns new :=
  ⟨ha.sound, ha.behind, ha.cache, ha.mounted, ha.blkSize, ha.bitmap, ha.noload, ha.inUse,
    ha.group, ha.groups, ha.room⟩

/-- Where a block is free, wherever it lies, the allocator finds one. -/
theorem allocates (ha : c.Appendable ls ns new) (hope : Nat) :
    ∃ x fs events, c.fs.allocate c.events c.path.ino 1 hope = (.ok x, fs, events) := by
  -- The allocator's own search finds a block, since one is free.
  have hblk := ha.blkSize
  have hone : min 1 (c.fs.blkSize * 4) = 1 := by omega
  obtain ⟨r, buddies, htry, hnone, -⟩ :=
    Block.BlockGroupBuddy.tryAllocateAt_sized ha.mounted.buddy Nat.zero_lt_one (by decide)
      (some hope)
  unfold FileSystem.allocate
  rw [hone, htry]
  cases r with
  | none =>
      obtain ⟨x, s, o, hs, -⟩ := ha.room
      rw [hnone.mp rfl s] at hs
      cases hs
  | some y =>
      obtain ⟨lba, n⟩ := y
      obtain ⟨hsub, -, -⟩ := Block.BlockGroupBuddy.tryAllocateAt_takes ha.mounted.buddy
        Nat.zero_lt_one (by decide) htry
      have hpos := Block.BlockGroupBuddy.tryAllocateAt_pos Nat.zero_lt_one htry
      -- What it took was free, so its group has a descriptor.
      have hfree : lba ∈ c.fs.buddies.free := hsub ⟨Nat.le_refl lba, by omega⟩
      obtain ⟨g, i, hinto, hg, -, -⟩ :=
        SuperBlock.intoBgidIndex_of_hasBlock (ha.mounted.free lba hfree).1
      obtain ⟨bg, hbg, -⟩ := ha.groups g hg
      simp only [hinto, FileSystem.getBlockGroup, hbg]
      exact ⟨_, _, _, rfl⟩

/-- A block that is allocated for a node is none of the tree. -/
theorem fresh (ha : c.Appendable ls ns new) {hope lba n : Nat} {fs : FileSystem}
    {events : List Event}
    (halloc : c.fs.allocate c.events c.path.ino 1 hope = (.ok (lba, n), fs, events)) :
    lba ∉ ns ∧ lba ∈ c.fs.buddies.free := by
  have hblk := ha.blkSize
  have hfree := FileSystem.allocate_mem_free ha.mounted (Nat.le_refl 1) (by decide) (by omega)
    halloc
  exact ⟨fun hmem => ha.inUse lba hmem hfree, hfree⟩

theorem newBlocks (ha : c.Appendable ls ns new) (hat : c.AtRight ls ns) : Path.NewBlocks c := by
  intro hope lba n fs events halloc hmem
  exact (ha.fresh halloc).1 ((hat.nodup ha.sound.nodup).2 lba hmem)

/-- The header of a new leaf node. -/
theorem newNode (ha : c.Appendable ls ns new) (lba : Nat) :
    (ExtentHeader.node (Path.initNode c.fs.blkSize 0 (c.noload lba))).Shows 0 [] ∧
      ExtentHeader.fromBytes (Path.initNode c.fs.blkSize 0 (c.noload lba)) =
        .ok (.node (Path.initNode c.fs.blkSize 0 (c.noload lba))) ∧
      0 < (ExtentHeader.node (Path.initNode c.fs.blkSize 0 (c.noload lba))).maxEntriesCnt ∧
      (ExtentHeader.node (Path.initNode c.fs.blkSize 0 (c.noload lba))).Roomy := by
  have hblk := ha.blkSize
  obtain ⟨hempty, hmagic, hmax, hlen⟩ := ExtentHeader.initNode_spec (b := c.noload lba)
    (show 0 < 2 ^ 16 by decide) (show c.fs.blkSize < 2 ^ 16 by omega) (by rw [ha.noload]; omega)
  rw [ha.noload] at hlen
  refine ⟨hempty, hmagic, by omega, by rw [hempty.entriesCnt]; exact Nat.zero_le _, ?_, by omega⟩
  rw [hmax]
  show 12 + _ ≤ (Path.initNode c.fs.blkSize 0 (c.noload lba)).length
  omega

/-- A growth of the root is possible. -/
theorem raisable (ha : c.Appendable ls ns new)
    (ht : Tree c.fs.blocks c.path.root.depth (.tree c.path.root) ls ns) :
    ∃ es, c.Raisable es ns ∧ es.length ≤ 4 := by
  obtain ⟨es, hs, hne, hleafs⟩ := ht.exists_shows
  have hdepth := ha.sound.depth_le
  have hcnt : c.path.root.entriesCnt = es.length := hs.entriesCnt
  refine ⟨es, ⟨ha.mounted, ha.blkSize, ha.bitmap, ha.noload, hs, hne, by omega, fun l hl => ?_,
    ha.inUse, ha.sound.root_roomy, ha.sound.root_len⟩, hcnt ▸ ha.sound.root_cnt⟩
  -- What the root holds has been decoded from fifteen bits.
  obtain ⟨hd, -, hall⟩ := ExtentHeader.shows_iff.mp hs
  obtain ⟨i, hi⟩ := List.mem_iff_getElem?.mp hl
  obtain ⟨-, hdec⟩ := hall i _ hi
  refine ⟨ha.sound.len_pos l (hleafs l hl), ?_⟩
  rw [ExtentHeader.decode] at hdec
  split at hdec
  next =>
    obtain rfl := Entry.leaf.inj hdec
    exact Nat.mod_lt _ (by decide)
  next => cases hdec

end Cursor.Appendable

/-! ## A root of depth 0 that grows -/

/-- The grown tree is sound. -/
theorem Path.Grown.sound {es : List Entry} {lba : Nat} {b : Bytes} {e : Entry}
    (hs : Sound c.fs.blocks c.path.root ls ns)
    (ht : Tree c.fs.blocks c.path.root.depth (.tree c.path.root) ls ns) (hr : c.Raisable es ns)
    (hcnt : es.length ≤ 4) (hdepth : c.path.root.depth ≤ 3) (hg : Grown c c' ns lba b e)
    (hz : Sized c c' lba b) : Sound c'.fs.blocks c'.path.root ls (lba :: ns) := by
  have ht' := hg.tree ht
  have hd : c'.path.root.depth = c.path.root.depth + 1 := hg.root.depth
  have hone : c'.path.root.entriesCnt = 1 := hg.root.entriesCnt
  have hblk := hr.blkSize
  -- The grown tree shows the same extents one level up.
  rw [← hd] at ht'
  refine ⟨Or.inl ht', by omega, hs.ordered, hs.len_pos, hs.bound, hz.root_max.trans hs.root_max,
    hz.root_len.trans hs.root_len, by omega, List.nodup_cons.mpr ⟨hg.fresh, hs.nodup⟩, ?_⟩
  intro n hn b' hb'
  rw [hg.blocks] at hb'
  -- The new node has room for the root's entries, and every old node is as it was.
  obtain rfl | hn := List.mem_cons.mp hn
  · rw [Function.update_self] at hb'
    obtain rfl := Option.some.inj hb'
    have hlen : (ExtentHeader.node b).bytes.length = c.fs.blkSize := hz.length
    refine ⟨?_, ?_, ?_⟩
    · rw [(hg.node es hr.shows).entriesCnt, hz.max]
      omega
    · rw [hz.max, hlen]
      show 12 + _ ≤ _
      omega
    · rw [hz.max]
      omega
  · rw [Function.update_of_ne (ne_of_mem_of_not_mem hn hg.fresh)] at hb'
    exact hs.roomy n hn b' hb'

namespace Path

/-- In the blocks of the tree a run may have 0x8000 blocks. -/
theorem readsBack_node_iff {b : Bytes} (hi : new.isInit = true) :
    (ExtentHeader.node b).ReadsBack (.leaf new) ↔ new.len ≤ 2 ^ 15 := by
  rw [ExtentHeader.ReadsBack, if_pos hi]

/-- The root of depth 0 moves to a block, which has room for the run. -/
theorem insert_grown (ha : c.Appendable ls ns new) (hb : Blocked c ls ns L new)
    (hd : c.path.root.depth = 0) (n : Nat) :
    ∃ c', insert (n + 2) new c = (.ok new.start, c') ∧
      (c'.Extended ls new ↔ new.len ≤ 2 ^ 15) := by
  have ht := hb.right.tree
  obtain ⟨es, hr, hcnt⟩ := ha.raisable ht
  -- The root is the only level of the path.
  have hfull : (ExtentHeader.tree c.path.root).isFull = true := by
    have hright := hb.full
    rwa [hd] at hright
  have hfind : findLevel c c.len = .ok none := by
    have hlen : c.len = 1 := by rw [hb.right.len, hd]
    rw [hlen, findLevel, Cursor.level]
    simp only [hfull, if_true]
    rfl
  obtain ⟨g, hgroup⟩ := ha.group
  obtain ⟨e, rest, rfl⟩ := List.exists_cons_of_ne_nil hr.ne
  have hfirst : (ExtentHeader.tree c.path.root).get 0 = .ok (some e) := by rw [hr.shows.get]; rfl
  obtain ⟨x, fs, events, halloc⟩ := ha.allocates (((some e).bind Entry.nextNode).getD g)
  obtain ⟨c1, hgrow⟩ := exists_growExtent hr hgroup hfirst halloc
  obtain ⟨lba, b, e', hg, hz⟩ := growExtent_grown hr hgrow
  have hs1 := hg.sound ha.sound ht hr hcnt (by omega) hz
  have hd1 : c1.path.root.depth = 1 := hg.root.depth.trans (by rw [hd])
  have hle : ∀ l ∈ ls, l.block ≤ new.block := fun l hl => (ha.behind.lt ha.sound hl).le
  obtain ⟨c2, hload, hat, hc2⟩ := atRight_of_load
    (hs1.tree.resolve_right fun h => by cases h.2.2) (by omega) (hz.cache.trans hb.right.cache) hle
  have hs2 : Sound c2.fs.blocks c2.path.root ls (lba :: ns) := by rw [hc2]; exact hs1
  -- The last node is the new one.
  have hright : rightNode c2.fs.blocks c2.path.root.depth (.tree c2.path.root) = .node b := by
    rw [hc2]
    obtain ⟨-, -, hnode⟩ := hg.rightEdge
    rw [hd] at hnode
    show rightNode c1.fs.blocks c1.path.root.depth (.tree c1.path.root) = _
    rw [hd1]
    exact hnode
  have hroom : (rightNode c2.fs.blocks c2.path.root.depth (.tree c2.path.root)).isFull = false := by
    rw [hright]
    exact (hg.slots hr hz ha.sound.root_max hcnt).2
  obtain ⟨c3, hins, hiff⟩ := insertLeaf_room hs2 hat ha.behind hb.last hb.not_merges hb.len_lt hroom
  rw [hright, readsBack_node_iff ha.behind.init] at hiff
  refine ⟨c3, ?_, hiff⟩
  have hdo : doInsert (n + 2) new c = (.ok (some new), c1) := by
    unfold doInsert
    rw [bind_of_ok hb.insertLeaf]
    dsimp only
    rw [get_bind, lift_bind_of_ok hfind]
    dsimp only
    rw [bind_of_ok hgrow]
    rfl
  have hdo2 : doInsert (n + 1) new c2 = (.ok none, c3) := by
    unfold doInsert
    rw [bind_of_ok hins]
    rfl
  rw [insert, bind_of_ok hdo]
  dsimp only
  rw [bind_of_ok hload, insert, bind_of_ok hdo2]
  rfl

end Path

/-! ## A root of depth 1 with a slot -/

/-- The node that the run goes into, and the tree with it. -/
structure Path.Split (c c' : Cursor) (ns : List Nat) (lba : Nat) (es : List Entry) (new : Leaf)
    (b b' : Bytes) : Prop where
  blocks : c'.fs.blocks = Function.update c.fs.blocks lba (some b')
  fresh : lba ∉ ns
  root_like : (ExtentHeader.tree c.path.root).Like (.tree c'.path.root)
  root : (ExtentHeader.tree c'.path.root).Shows 1 (es ++ [.internal ⟨new.block, lba⟩])
  node_like : (ExtentHeader.node b).Like (.node b')
  node : (ExtentHeader.node b').Shows 0 [(ExtentHeader.node b).asRead (.leaf new)]
  magic : ExtentHeader.fromBytes b = .ok (.node b)
  roomy : (ExtentHeader.node b).Roomy
  max_pos : 0 < (ExtentHeader.node b).maxEntriesCnt

/-- The tree holds one more extent, in one more node. -/
theorem Path.Split.holds {es : List Entry} {lba : Nat} {b b' : Bytes} {x : Leaf}
    (hs : Sound c.fs.blocks c.path.root ls ns) (hd : c.path.root.depth = 1)
    (hshows : (ExtentHeader.tree c.path.root).Shows 1 es)
    (hroom : (ExtentHeader.tree c.path.root).isFull = false)
    (hlt : ∀ l ∈ ls, l.block < new.block) (h : Split c c' ns lba es new b b')
    (hx : (ExtentHeader.node b).asRead (.leaf new) = .leaf x) :
    c'.Holds (ls ++ [x]) (ns ++ [lba]) := by
  have ht : Tree c.fs.blocks 1 (.tree c.path.root) ls ns := by
    rw [← hd]
    exact hs.tree.resolve_right fun hempty => by
      have := hempty.1.depth.symm.trans hd
      cases this
  have hxblock : x.block = new.block := by
    have hfields := Entry.leaf.inj hx
    rw [← hfields]
  have hnode := h.node
  rw [hx] at hnode
  -- The new node holds the extent alone; no node of the old tree was written.
  have hblock : c'.fs.blocks lba = some b' := by
    rw [h.blocks]
    exact Function.update_self ..
  have hsame : ∀ n ∈ ns, c'.fs.blocks n = c.fs.blocks n := fun n hn => by
    rw [h.blocks]
    exact Function.update_of_ne (ne_of_mem_of_not_mem hn h.fresh) _ _
  have hd' : c'.path.root.depth = 1 := h.root.depth
  -- The root's new last child is that node, and its key is the extent's.
  have htree : Tree c'.fs.blocks c'.path.root.depth (.tree c'.path.root) (ls ++ [x])
      (ns ++ [lba]) := by
    rw [hd']
    refine ht.snocChild hshows h.root hsame hlt hblock (h.node_like.fromBytes h.magic)
      ⟨hnode, by simp, List.pairwise_singleton .., rfl⟩ (e := .leaf x) ?_ hxblock
    rw [hnode.get]
    rfl
  refine ⟨htree, fun hord hall => ⟨Or.inl htree, by omega, hord, fun l hl => (hall l hl).1,
    fun l hl => (hall l hl).2, h.root_like.1.trans hs.root_max,
    h.root_like.2.2.1.trans hs.root_len, ?_, ?_, ?_⟩⟩
  · -- The root had a slot for its entry.
    have hcnt : c'.path.root.entriesCnt = es.length + 1 := by
      have hentries : c'.path.root.entriesCnt = _ := h.root.entriesCnt
      rw [hentries, List.length_append]
      rfl
    have hold : c.path.root.entriesCnt = es.length := hshows.entriesCnt
    have hne : c.path.root.entriesCnt ≠ c.path.root.maxEntriesCnt := of_decide_eq_false hroom
    have := hs.root_cnt
    rw [hs.root_max] at hne
    omega
  · exact List.nodup_append.mpr ⟨hs.nodup, List.nodup_singleton lba, fun n hn m hm => by
      obtain rfl := List.mem_singleton.mp hm
      exact ne_of_mem_of_not_mem hn h.fresh⟩
  · intro n hn b1 hb1
    rcases List.mem_append.mp hn with hn | hn
    · rw [hsame n hn] at hb1
      exact hs.roomy n hn b1 hb1
    · obtain rfl := List.mem_singleton.mp hn
      obtain rfl := Option.some.inj (hblock.symm.trans hb1)
      refine ⟨?_, ?_, ?_⟩
      · rw [hnode.entriesCnt, h.node_like.maxEntriesCnt]
        exact h.max_pos
      · rw [h.node_like.base, h.node_like.maxEntriesCnt, h.node_like.length]
        exact h.roomy.capacity
      · rw [h.node_like.maxEntriesCnt]
        exact h.roomy.maxEntriesCnt_lt

namespace Path

/-- The last node of a tree of depth 1, which has no slot. -/
theorem Blocked.leafNode (hb : Blocked c ls ns L new)
    (hd : c.path.root.depth = 1) :
    ∃ es en p b i, (ExtentHeader.tree c.path.root).Shows 1 (es ++ [.internal en]) ∧
      c.path.rootIdx = some es.length ∧ c.path.leafs = [(p, some i)] ∧ p ∈ ns ∧
      c.fs.blocks p = some b ∧ (ExtentHeader.node b).depth = 0 ∧
      (ExtentHeader.node b).entriesCnt = i + 1 ∧
      (ExtentHeader.node b).maxEntriesCnt = i + 1 ∧ ∃ l ∈ ls, l.block = en.block := by
  have hfull := hb.full
  have hleafs := hb.right.leafs
  have ht := hb.right.tree
  rw [hd] at hfull hleafs ht
  obtain ⟨cs, ch, hs, -, hls, hns, -, hch, hlast⟩ := ht.lastChild
  obtain ⟨l, hl, hkey⟩ := hch.exists_key
  obtain ⟨b, e, hp, hm, ⟨hsub, hne, -⟩, -⟩ := hch
  -- The path ends in the last child, so what is said of the right edge is said of that node.
  simp only [rightPath, rightNode, hlast, hp] at hfull hleafs
  have hcnt : (ExtentHeader.node b).entriesCnt = ch.leafs.length :=
    hsub.entriesCnt.trans (List.length_map ..)
  have hpos : 0 < ch.leafs.length := List.length_pos_of_ne_nil hne
  have hmax : (ExtentHeader.node b).entriesCnt = (ExtentHeader.node b).maxEntriesCnt :=
    of_decide_eq_true hfull
  rw [List.map_append] at hs
  refine ⟨_, ch.entry, ch.entry.nextNode, b, _, hs, ?_, hleafs, ?_, hp, hsub.depth, ?_, ?_, l, ?_,
    hkey⟩
  · have hroot : c.path.root.entriesCnt = _ := hs.entriesCnt
    rw [hb.right.rootIdx, hroot, List.length_append]
    rfl
  · rw [hns]
    simp
  · omega
  · omega
  · rw [hls]
    exact List.mem_append_right _ hl

/-- The cursor with another root and an empty node in a block that has been allocated. -/
abbrev afterSplit (c : Cursor) (t : ExtentTree) (lba : Nat) (fs : FileSystem)
    (events : List Event) : Cursor :=
  { c with
    path := { c.path with root := t }
    fs := { fs with
      blocks := Function.update c.fs.blocks lba (some (initNode c.fs.blkSize 0 (c.noload lba))) }
    events := events }

/-- The split of a full last leaf node. -/
theorem splitAt_last {es : List Entry} {en : Internal} {p i lba m : Nat} {b : Bytes}
    {fs : FileSystem} {events : List Event} (ha : c.Appendable ls ns new)
    (hs : (ExtentHeader.tree c.path.root).Shows 1 (es ++ [.internal en]))
    (hidx : c.path.rootIdx = some es.length) (hleafs : c.path.leafs = [(p, some i)])
    (hb : c.fs.blocks p = some b) (hdepth : (ExtentHeader.node b).depth = 0)
    (hcnt : (ExtentHeader.node b).entriesCnt = i + 1)
    (hmax : (ExtentHeader.node b).maxEntriesCnt = i + 1) (hlen : 12 ≤ b.length)
    (hroom : (ExtentHeader.tree c.path.root).isFull = false) (hkey : en.block < new.block)
    (halloc : c.fs.allocate c.events c.path.ino 1 0 = (.ok (lba, m), fs, events))
    (hne : p ≠ lba) (hlba : lba < 2 ^ 48) :
    ∃ t, (ExtentHeader.tree c.path.root).Like (.tree t) ∧
      (ExtentHeader.tree t).Shows 1 (es ++ [.internal en] ++ [.internal ⟨new.block, lba⟩]) ∧
      splitAt new 1 c = (.ok (true, [lba]), afterSplit c t lba fs events) := by
  obtain ⟨hblk, hblocks⟩ : fs.blkSize = c.fs.blkSize ∧ fs.blocks = c.fs.blocks := by
    obtain ⟨r, fs', events', heq, h1, -, h2, -⟩ :=
      FileSystem.allocate_frame c.fs c.events c.path.ino 1 0
    rw [halloc] at heq
    cases heq
    exact ⟨h1, h2⟩
  have hclen : c.len = 2 := by rw [Cursor.len, hleafs]; rfl
  have hlevel : c.level (c.len - 1) = .ok (.node b, some i) := by
    rw [hclen, Cursor.level, hleafs]
    simp only [List.getElem?_cons_zero, hb]
  -- The index is the last one that the node can have.
  have hsplitKey : splitKey new (.node b) (some i) = .ok new.block := by
    rw [splitKey, hmax, if_neg (Nat.succ_ne_zero i), if_pos (by rw [Nat.add_sub_cancel])]
  have hnodes : allocateNodes 1 c = (.ok [lba], withBlock { c with fs := fs, events := events } lba
      (c.noload lba)) := by
    rw [allocateNodes_one, halloc]
  have hleaf : splitLeaf lba 1 (withBlock { c with fs := fs, events := events } lba
      (c.noload lba)) = (.ok (), _) :=
    splitLeaf_last (by rw [hleafs]; rfl) ((Function.update_of_ne hne _ _).trans (hblocks ▸ hb)) hcnt
      hlen (Function.update_self ..) hne
  have hroomy := ha.sound.root_roomy
  have henc : (ExtentHeader.tree c.path.root).Encodable (.internal ⟨new.block, lba⟩) := by
    have hbound := ha.behind.bound
    have hblock : new.block < 2 ^ 32 := by omega
    exact ⟨hs.depth.symm ▸ Nat.zero_lt_one, hblock, hlba⟩
  have hlevel0 : (withBlock (withBlock { c with fs := fs, events := events } lba (c.noload lba)) lba
      (initNode fs.blkSize (ExtentHeader.node b).depth (c.noload lba))).level 0 =
        .ok (.tree c.path.root, some es.length) := by
    rw [Cursor.level, ← hidx]
  obtain ⟨nd, hins, hlike, hshows⟩ := insertInternal_last hlevel0 hs rfl hroom hroomy
    (show (Entry.internal en).firstBlock < (⟨new.block, lba⟩ : Internal).block from hkey) henc
  cases nd with
  | node b => cases hlike
  | tree t =>
      refine ⟨t, hlike, hshows, ?_⟩
      unfold splitAt
      rw [get_bind, lift_bind_of_ok hlevel]
      dsimp only
      rw [lift_bind_of_ok hsplitKey, hclen, bind_of_ok hnodes]
      dsimp only
      rw [if_neg (not_not.mpr rfl), bind_of_ok hleaf, if_neg Nat.one_ne_zero, bind_of_ok hins,
        if_pos rfl, decide_eq_true (Nat.le_refl new.block), pure_apply]
      simp only [Cursor.store, afterSplit, Function.update_idem, hblocks, hblk, hdepth]

/-- The root has a slot for a second leaf node, which takes the run. -/
theorem insert_split (ha : c.Appendable ls ns new) (hb : Blocked c ls ns L new)
    (hd : c.path.root.depth = 1) (hroom : (ExtentHeader.tree c.path.root).isFull = false)
    (n : Nat) :
    ∃ c', insert (n + 2) new c = (.ok new.start, c') ∧
      (c'.Extended ls new ↔ new.len ≤ 2 ^ 15) := by
  -- The path is the root and one full leaf node under it.
  obtain ⟨es, en, p, b, i, hshows, hidx, hleafs, hp, hbp, hdepth, hcnt, hmax, l, hl, hkey⟩ :=
    hb.leafNode hd
  obtain ⟨es', hr, -⟩ := ha.raisable hb.right.tree
  obtain ⟨⟨lba, m⟩, fs, events, halloc⟩ := ha.allocates 0
  obtain ⟨hfresh, hfree⟩ := ha.fresh halloc
  have hlba := lba_lt_of_free hr hfree
  have hlen : 12 ≤ b.length := by
    have hcap := (ha.sound.roomy p hp b hbp).capacity
    have : 12 + 12 * (ExtentHeader.node b).maxEntriesCnt ≤ b.length := hcap
    omega
  have hlt : ∀ l ∈ ls, l.block < new.block := fun l hl => ha.behind.lt ha.sound hl
  -- The split moves nothing: the new node starts out empty.
  obtain ⟨t, hlike, hshows1, hsplit⟩ := splitAt_last ha hshows hidx hleafs hbp hdepth hcnt hmax hlen
    hroom (hkey ▸ hlt l hl) halloc (ne_of_mem_of_not_mem hp hfresh) hlba
  obtain ⟨hempty, hmagic, hmaxPos, hroomy⟩ := ha.newNode lba
  have hclen : c.len = 2 := by rw [Cursor.len, hleafs]; rfl
  have hfind : findLevel c c.len = .ok (some 0) := by
    have hone : c.level 1 = .ok (.node b, some i) := by
      rw [Cursor.level, hleafs]
      simp only [List.getElem?_cons_zero, hbp]
    have hfull : (ExtentHeader.node b).isFull = true := decide_eq_true (hcnt.trans hmax.symm)
    rw [hclen, findLevel, hone]
    simp only [hfull, if_true]
    rw [findLevel, Cursor.level]
    simp only [hroom, Bool.false_eq_true, if_false]
  -- The path is led into the empty node, where the second try inserts.
  have hfix : fixPath 0 [lba] (afterSplit c t lba fs events) = (.ok (), _) :=
    fixPath_empty hidx hleafs (Function.update_self ..) hmagic hempty.entriesCnt
  have hblock : new.block < 2 ^ 32 := by
    have hbound := ha.behind.bound
    omega
  have hidx1 : (atPath (afterSplit c t lba fs events) (some (es.length + 1))
      [(lba, none)]).path.rootIdx = some (es ++ [Entry.internal en]).length := by
    rw [List.length_append]
    rfl
  obtain ⟨b', t', c5, hins, rfl, hblocks5, hlikeN, hshowsN, hlikeR, hshowsR⟩ := insertLeaf_newNode
    hidx1 rfl (Function.update_self ..) ha.cache hempty hmaxPos hroomy
    ⟨hempty.depth, hblock, ha.behind.start_lt, ha.behind.len_lt⟩ hshows1
    ⟨hshows1.depth.symm ▸ Nat.zero_lt_one, hblock, hlba⟩
  refine ⟨c5, ?_, ?_⟩
  · have hdo : doInsert (n + 2) new c = (.ok none, c5) := by
      unfold doInsert
      rw [bind_of_ok hb.insertLeaf]
      dsimp only
      rw [get_bind, lift_bind_of_ok hfind, hclen]
      dsimp only
      rw [bind_of_ok (mapError_eq_ok.mpr hsplit)]
      dsimp only
      rw [if_pos rfl, bind_of_ok hfix]
      unfold doInsert
      rw [bind_of_ok hins]
      rfl
    rw [insert, bind_of_ok hdo]
    rfl
  -- What is left is one new child of the root, and the claim about it is the node's read back.
  · have hs : Split c c5 ns lba (es ++ [.internal en]) new
        (initNode c.fs.blkSize 0 (c.noload lba)) b' :=
      ⟨hblocks5.trans (Function.update_idem ..), hfresh, hlike.trans hlikeR, hshowsR, hlikeN,
        hshowsN, hmagic, hroomy, hmaxPos⟩
    obtain ⟨x, hx⟩ : ∃ x, (ExtentHeader.node (initNode c.fs.blkSize 0 (c.noload lba))).asRead
      (.leaf new) = .leaf x := ⟨_, rfl⟩
    obtain ⟨hord, hall⟩ := ha.behind.sound ha.sound
    have hholds := hs.holds ha.sound hd hshows hroom hlt hx
    rw [hholds.extended_iff hx ⟨hempty.depth, hblock, ha.behind.start_lt, ha.behind.len_lt⟩
      ha.behind.init hord hall (extends_snoc hord ha.behind.init) ha.behind.pos (Nat.le_refl _),
      readsBack_node_iff ha.behind.init]

/-- A path into an empty file. -/
theorem loadMut_empty {fba : Nat} (hs : (ExtentHeader.tree c.path.root).Shows 0 []) :
    loadMut fba c = (.ok (), atPath c none []) := by
  have hcnt : (ExtentHeader.tree c.path.root).entriesCnt = 0 := hs.entriesCnt
  have hdepth : c.path.root.depth = 0 := hs.depth
  have hsearch : (ExtentHeader.tree c.path.root).binarySearch fba = .ok none := by
    rw [ExtentHeader.binarySearch, hcnt]
    rfl
  rw [loadMut_eq]
  simp only [hsearch, ExtentHeader.getAt, hdepth]
  rfl

end Path

/-! ## Appends that go through -/

instance (L new : Leaf) : Decidable (Merges L new) := by
  unfold Merges
  infer_instance

/-- The trees that an append goes through for: the lengths of the last extent and of a run
    that follows it must be no more than a `u16` holds, a last node without a slot must be
    that of a root of depth 0, or lie below a root of depth 1 that has a slot, and the
    extent must be read back from the node that it goes into. -/
def Cursor.AppendFits (c : Cursor) (ls : List Leaf) (new : Leaf) : Prop :=
  let node := rightNode c.fs.blocks c.path.root.depth (.tree c.path.root)
  match ls.getLast? with
  | none => node.ReadsBack (.leaf new)
  | some L =>
    if Merges L new then node.ReadsBack (.leaf { L with len := L.len + new.len })
    else
      (Path.Follows L new → L.len + new.len < 2 ^ 16) ∧
        if node.isFull then
          new.len ≤ 2 ^ 15 ∧ (c.path.root.depth = 0 ∨
            c.path.root.depth = 1 ∧ (ExtentHeader.tree c.path.root).isFull = false)
        else node.ReadsBack (.leaf new)

/-- `Path::insert`, on the path loaded for the run. -/
def Path.append (fuel : Nat) (new : Leaf) : CursorM Nat := do
  loadMut new.block
  insert fuel new

/-- The run is mapped, and nothing else of the map has changed. -/
def Cursor.Appends (c : Cursor) (fuel : Nat) (ls : List Leaf) (new : Leaf) : Prop :=
  ∃ c', Path.append fuel new c = (.ok new.start, c') ∧ c'.Extended ls new

theorem Cursor.appends_iff_of_run {fuel : Nat} {r : Except Fault Nat} {P : Prop}
    (h : Path.append fuel new c = (r, c')) (hr : r = .ok new.start) (hP : c'.Extended ls new ↔ P) :
    c.Appends fuel ls new ↔ P := by
  subst hr
  rw [← hP]
  constructor
  · rintro ⟨c1, hrun, hext⟩
    obtain rfl := (Prod.mk.inj (h.symm.trans hrun)).2
    exact hext
  · exact fun hext => ⟨c', h, hext⟩

/-- A run that `insert_leaf` takes at once. -/
theorem Path.append_of_insertLeaf {c1 : Cursor} {n : Nat}
    (hload : loadMut new.block c = (.ok (), c1)) (hins : insertLeaf new c1 = (.ok none, c')) :
    append (n + 1) new c = (.ok new.start, c') := by
  have hdo : doInsert (n + 1) new c1 = (.ok none, c') := by
    unfold doInsert
    rw [bind_of_ok hins]
    rfl
  rw [append, bind_of_ok hload, insert, bind_of_ok hdo]
  rfl

theorem appends_empty_iff (ha : c.Appendable [] ns new) (n : Nat) :
    c.Appends (n + 1) [] new ↔
      (rightNode c.fs.blocks c.path.root.depth (.tree c.path.root)).ReadsBack (.leaf new) := by
  rcases ha.sound.tree with ht | ⟨hempty, -, rfl⟩
  · obtain ⟨l, e, hhead, -⟩ := ht.head
    cases hhead
  · have hd : c.path.root.depth = 0 := hempty.depth
    obtain ⟨c', hins, hiff⟩ := Path.insertLeaf_first (c := Path.atPath c none []) ha.sound ha.behind
      hempty rfl rfl ha.cache
    rw [hd]
    exact Cursor.appends_iff_of_run
      (Path.append_of_insertLeaf (Path.loadMut_empty hempty) hins) rfl hiff

/-- The path loaded for the run is the right edge of the tree. -/
theorem Cursor.Appendable.load (ha : c.Appendable ls ns new) (hne : ls ≠ []) :
    ∃ c1, Path.loadMut new.block c = (.ok (), c1) ∧ c1.AtRight ls ns ∧ c1.Appendable ls ns new ∧
      c1.fs = c.fs ∧ c1.path.root = c.path.root := by
  have ht := ha.sound.tree.resolve_right fun h => hne h.2.1
  have hdepth := ha.sound.depth_le
  obtain ⟨c1, hload, hat, hc1⟩ := Path.atRight_of_load ht (by omega) ha.cache
    fun l hl => (ha.behind.lt ha.sound hl).le
  have ha1 : c1.Appendable ls ns new := by
    rw [hc1]
    exact ha.atPath _ _
  exact ⟨c1, hload, hat, ha1, by rw [hc1], by rw [hc1]⟩

/-- A full last node anywhere else is in the way. -/
theorem Path.Blocked.not_insert {n x : Nat} (ha : c.Appendable ls ns new)
    (hb : Blocked c ls ns L new) (hzero : c.path.root.depth ≠ 0)
    (hone : ¬ (c.path.root.depth = 1 ∧ (ExtentHeader.tree c.path.root).isFull = false)) :
    Path.insert n new c ≠ (.ok x, c') := by
  intro h
  obtain ⟨es, hr, hcnt⟩ := ha.raisable hb.right.tree
  exact (hb.insert (ha.newBlocks hb.right) hr ha.sound.root_max hcnt ha.sound.depth_le
    (fun l hl => (ha.behind.lt ha.sound hl).le) h).elim hzero hone

/-- An append goes through, and maps the run, for exactly these trees. -/
theorem appends_iff (ha : c.Appendable ls ns new) (n : Nat) :
    c.Appends (n + 2) ls new ↔ c.AppendFits ls new := by
  -- Cases as in `AppendFits`: an empty tree, a merge, a full leaf node and a free slot.
  cases hlast : ls.getLast? with
  | none =>
      obtain rfl : ls = [] := List.getLast?_eq_none_iff.mp hlast
      exact appends_empty_iff ha (n + 1)
  | some L =>
      have hmem : L ∈ ls := List.mem_of_getLast? hlast
      have hlt := ha.behind.lt ha.sound hmem
      obtain ⟨c1, hload, hat, ha1, hfs, hroot⟩ := ha.load (List.ne_nil_of_mem hmem)
      have hfits : c.AppendFits ls new ↔ c1.AppendFits ls new := by
        rw [Cursor.AppendFits, Cursor.AppendFits, hfs, hroot]
      have hrun : ∀ {r : Except Fault Nat} {c2 : Cursor}, Path.insert (n + 2) new c1 = (r, c2) →
          Path.append (n + 2) new c = (r, c2) := fun h => by
        rw [Path.append, bind_of_ok hload, h]
      rw [hfits, Cursor.AppendFits, hlast]
      dsimp only
      by_cases hm : Merges L new
      · rw [if_pos hm]
        obtain ⟨c2, hins, hiff⟩ := Path.insertLeaf_merge ha1.sound hat ha1.behind hlast hm
        exact Cursor.appends_iff_of_run (Path.append_of_insertLeaf hload hins) rfl hiff
      · rw [if_neg hm]
        by_cases hlen : Path.Follows L new → L.len + new.len < 2 ^ 16
        · rw [and_iff_right hlen]
          split
          next hfull =>
            have hb : Path.Blocked c1 ls ns L new :=
              ⟨hat, ha.sound.nodup, hlast, hlt, hm, hlen, hfull⟩
            by_cases hzero : c1.path.root.depth = 0
            · obtain ⟨c2, hins, hiff⟩ := Path.insert_grown ha1 hb hzero n
              exact Cursor.appends_iff_of_run (hrun hins) rfl
                (hiff.trans (and_iff_left (Or.inl hzero)).symm)
            by_cases hone : c1.path.root.depth = 1 ∧ (ExtentHeader.tree c1.path.root).isFull = false
            · obtain ⟨c2, hins, hiff⟩ := Path.insert_split ha1 hb hone.1 hone.2 n
              exact Cursor.appends_iff_of_run (hrun hins) rfl
                (hiff.trans (and_iff_left (Or.inr hone)).symm)
            · refine iff_of_false ?_ fun h => h.2.elim hzero hone
              rintro ⟨c2, h, -⟩
              rw [Path.append, bind_of_ok hload] at h
              exact hb.not_insert ha1 hzero hone h
          next hroom =>
            obtain ⟨c2, hins, hiff⟩ := Path.insertLeaf_room ha1.sound hat ha1.behind hlast hm hlen
              (Bool.eq_false_of_not_eq_true hroom)
            exact Cursor.appends_iff_of_run (Path.append_of_insertLeaf hload hins) rfl hiff
        · -- The sum of the lengths is taken before it is compared.
          refine iff_of_false ?_ fun h => hlen h.1
          obtain ⟨hf, hge⟩ := Classical.not_imp.mp hlen
          have hpanic := Path.insertLeaf_panics hat ha.sound.nodup hlast hlt hf
            (Nat.le_of_not_lt hge)
          have hdo : Path.doInsert (n + 2) new c1 = (.error .panic, c1) := by
            unfold Path.doInsert
            rw [bind_of_error hpanic]
          rintro ⟨c2, h, -⟩
          rw [Path.append, bind_of_ok hload, Path.insert, bind_of_error hdo] at h
          cases h

/-! ## A slot in the root, and a full leaf node two levels below it -/

/-- A run behind the two extents of `treeOfTwo`. -/
theorem appendable_treeOfTwo :
    (ExtentHeader.treeOfTwo.emptyCursor BlockRuns.twoFree [] (fun _ => BlockRuns.bitmapBlock) 12
      20).Appendable twoExtents [] ⟨20, 300, 1, true⟩ where
  sound :=
    ⟨Or.inl (tree_treeOfTwo _), Nat.zero_le 4, ordered_twoExtents, by decide, by decide, rfl, rfl,
      by decide, List.nodup_nil, fun n hn => nomatch hn⟩
  behind := ⟨rfl, by decide, by decide, by decide, by decide, by decide⟩
  cache := rfl
  mounted := BlockRuns.mounted_twoFree
  blkSize := show 1024 ≤ 4096 ∧ 4096 ≤ 4096 by decide
  bitmap := show 32768 ≤ 8 * 4096 by decide
  noload _ := BlockRuns.length_bitmapBlock
  inUse n hn := nomatch hn
  group := ⟨0, by decide⟩
  groups := groupsLoaded_twoFree
  room := ⟨8, 8, 1, by decide, by decide, by decide⟩

theorem appends_iff_treeOfTwo :
    (ExtentHeader.treeOfTwo.emptyCursor BlockRuns.twoFree [] (fun _ => BlockRuns.bitmapBlock) 12
      20).Appends 2 twoExtents ⟨20, 300, 1, true⟩ := by
  have hlen : Path.Follows ⟨10, 200, 4, true⟩ ⟨20, 300, 1, true⟩ → 4 + 1 < 2 ^ 16 := fun _ => by
    decide
  exact (appends_iff appendable_treeOfTwo 0).mpr ⟨hlen, by decide⟩

/-- As many extents as a leaf node of 4096 bytes can have. -/
def fullLeafs : List Leaf := (List.range 340).map fun i => ⟨2 * i, 1000 + 2 * i, 1, true⟩

theorem mem_fullLeafs {l : Leaf} (hl : l ∈ fullLeafs) :
    l.len = 1 ∧ l.isInit = true ∧ l.block < 680 ∧ l.start < 1680 := by
  obtain ⟨i, hi, rfl⟩ := List.mem_map.mp hl
  have hlt := List.mem_range.mp hi
  exact ⟨rfl, rfl, show 2 * i < 680 by omega, show 1000 + 2 * i < 1680 by omega⟩

theorem ordered_fullLeafs : Ordered fullLeafs :=
  List.pairwise_map.mpr (List.pairwise_lt_range.imp fun {i j} hij =>
    ⟨show 2 * i < 2 * j by omega, show 2 * i + 1 ≤ 2 * j by omega⟩)

/-- A leaf node in block 101, below an index node in block 100. -/
def pathBlocks (b0 b1 : Bytes) (lba : Nat) : Option Bytes :=
  if lba = 100 then some b0 else if lba = 101 then some b1 else BlockRuns.twoFree.blocks lba

/-- A root and an index node of one entry each, above a full leaf node. -/
theorem exists_fullLeaf :
    ∃ (t : ExtentTree) (b0 b1 : Bytes), t.depth = 2 ∧ t.cache = none ∧
      Sound (pathBlocks b0 b1) t fullLeafs [100, 101] ∧
      (rightNode (pathBlocks b0 b1) 2 (.tree t)).isFull = true := by
  obtain ⟨b1, hlen1, hm1, hmax1, hs1⟩ := ExtentHeader.exists_node 4096 0 (fullLeafs.map .leaf)
    (by decide) (by decide) (by decide) (by simp [fullLeafs]) fun b hb e he => by
      obtain ⟨l, hl, rfl⟩ := List.mem_map.mp he
      obtain ⟨hlen, hinit, hblock, hstart⟩ := mem_fullLeafs hl
      exact ExtentHeader.encodable_of_init hb (by omega) (by omega) hinit (by omega)
  obtain ⟨b0, hlen0, hm0, hmax0, hs0⟩ := ExtentHeader.exists_node 4096 1 [.internal ⟨0, 101⟩]
    (by decide) (by decide) (by decide) (by simp) fun b hb e he => by
      obtain rfl := List.mem_singleton.mp he
      exact ⟨hb.symm ▸ Nat.zero_lt_one, by decide, by decide⟩
  obtain ⟨t, htd, htmax, htlen, htc, hts⟩ := ExtentHeader.exists_tree 2 [.internal ⟨0, 100⟩]
    (by simp) fun e he => by
      obtain rfl := List.mem_singleton.mp he
      exact ⟨Nat.zero_lt_two, by decide, by decide⟩
  have hasc := ordered_fullLeafs.ascending
  -- The tree, from the leaf node up.
  have htree1 : Tree (pathBlocks b0 b1) 0 (.node b1) fullLeafs [] :=
    ⟨hs1, by simp [fullLeafs], hasc, rfl⟩
  have htree0 : Tree (pathBlocks b0 b1) 1 (.node b0) fullLeafs [101] :=
    Tree.single hs0 rfl hm1 htree1 (by rw [hs1.get]; rfl) rfl
  have htree : Tree (pathBlocks b0 b1) 2 (.tree t) fullLeafs [100, 101] :=
    Tree.single hts rfl hm0 htree0 (by rw [hs0.get]; rfl) rfl
  have hcnt1 : (ExtentHeader.node b1).entriesCnt = 340 := hs1.entriesCnt.trans (by simp [fullLeafs])
  refine ⟨t, b0, b1, htd, htc, ⟨?_, by omega, ordered_fullLeafs, ?_, ?_, htmax, htlen, ?_, by simp,
    ?_⟩, ?_⟩
  · rw [htd]
    exact Or.inl htree
  · intro l hl
    have := (mem_fullLeafs hl).1
    omega
  · intro l hl
    obtain ⟨hlen, -, hblock, -⟩ := mem_fullLeafs hl
    omega
  · have hcnt : t.entriesCnt = 1 := hts.entriesCnt
    omega
  · intro n hn b hb
    -- Both nodes take all of their block.
    have hsize : ∀ b : Bytes, b.length = 4096 → (ExtentHeader.node b).maxEntriesCnt = 340 →
        (ExtentHeader.node b).entriesCnt ≤ 340 → (ExtentHeader.node b).Roomy :=
      fun b hlen hmax hcnt => ⟨by omega, show 12 + _ ≤ b.length by omega, by omega⟩
    simp only [List.mem_cons, List.not_mem_nil, or_false] at hn
    rcases hn with rfl | rfl
    · obtain rfl : b0 = b := Option.some.inj hb
      exact hsize b0 hlen0 hmax0 (by rw [hs0.entriesCnt]; decide)
    · obtain rfl : b1 = b := Option.some.inj hb
      exact hsize b1 hlen1 hmax1 hcnt1.le
  · rw [(Path.rightEdge_single hts rfl).2, (Path.rightEdge_single hs0 rfl).2]
    exact decide_eq_true (hcnt1.trans hmax1.symm)

/-- The deepest node with a slot is the index node, and `split_at` is told to split it. -/
theorem not_appends_fullLeaf :
    ∃ (c : Cursor) (ls : List Leaf) (ns : List Nat) (new : Leaf),
      c.Appendable ls ns new ∧ ∀ n, ¬ c.Appends n ls new := by
  obtain ⟨t, b0, b1, htd, htc, hsound, hfull⟩ := exists_fullLeaf
  have hmounted : BlockRuns.Mounted (fsOf (pathBlocks b0 b1)) := mounted_fsOf rfl
  have hlow : ∀ n ∈ [100, 101], n ∉ BlockRuns.twoFree.buddies.free := fun n hn hfree => by
    simp only [List.mem_cons, List.not_mem_nil, or_false] at hn
    have := BlockRuns.mem_free_twoFree hfree
    omega
  -- A far extent, so that it cannot be merged.
  have ha : (t.emptyCursor (fsOf (pathBlocks b0 b1)) [] (fun _ => BlockRuns.bitmapBlock) 12
      1000).Appendable fullLeafs [100, 101] ⟨1000, 5000, 1, true⟩ :=
    { sound := hsound
      behind := ⟨rfl, by decide, by decide, by decide, by decide, fun l hl => by
        obtain ⟨hlen, -, hblock, -⟩ := mem_fullLeafs hl
        show l.block + l.len ≤ 1000
        omega⟩
      cache := rfl
      mounted := hmounted
      blkSize := show 1024 ≤ 4096 ∧ 4096 ≤ 4096 by decide
      bitmap := show 32768 ≤ 8 * 4096 by decide
      noload := fun _ => BlockRuns.length_bitmapBlock
      inUse := hlow
      group := ⟨0, by show Path.inoGroup BlockRuns.twoFree.sb 12 = .ok 0; decide⟩
      groups := groupsLoaded_twoFree
      room := ⟨8, 8, 1, show BlockRuns.twoFree.buddies.backref 8 = some 1 by decide, by decide,
        by decide⟩ }
  refine ⟨_, _, _, _, ha, fun n => ?_⟩
  rintro ⟨c', h, -⟩
  obtain ⟨c1, hload, hat, ha1, hfs, hroot⟩ := ha.load (by simp [fullLeafs])
  have hdepth : c1.path.root.depth = 2 := by
    rw [hroot]
    exact htd
  have hnodeFull : (rightNode c1.fs.blocks c1.path.root.depth (.tree c1.path.root)).isFull =
      true := by
    rw [hfs, hdepth, hroot]
    exact hfull
  have hb : Path.Blocked c1 fullLeafs [100, 101] ⟨678, 1678, 1, true⟩ ⟨1000, 5000, 1, true⟩ :=
    ⟨hat, ha.sound.nodup, by decide +kernel, by decide, by decide, fun _ => by decide, hnodeFull⟩
  rw [Path.append, bind_of_ok hload] at h
  exact hb.not_insert ha1 (by omega) (fun h => by omega) h

end RustExt4.Inode.Extent
