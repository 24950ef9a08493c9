/-
  RustExt4.Inode.Extent.Grow

  `Path::grow_extent`: the entries of the root move to a new node, and the root
  keeps one entry for it.  The map of the tree stays, but nothing checks the depth
  before it goes up, and the load of a path holds five nodes at most.
-/
import RustExt4.Inode.Extent.Insertion
import RustExt4.Inode.Extent.Hint
import RustExt4.Inode.Extent.RightEdge

namespace RustExt4.Inode.Extent

open StateExcept
open Transaction (Event)
open Predecessor (Ascending IsPred)

/-! ## Nodes -/

namespace ExtentHeader

variable {h h' : ExtentHeader} {d : Nat} {es : List Entry} {e : Entry}

/-- A node with one entry. -/
theorem shows_one (hd : h.depth = d) (hcnt : h.entriesCnt = 1) (hget : h.get 0 = .ok (some e)) :
    h.Shows d [e] := by
  refine ⟨hd, hcnt, fun i => ?_⟩
  cases i with
  | zero => exact hget
  | succ i =>
      rw [get, if_neg (by omega)]
      rfl

/-- The blocks of the tree hold every length from 1 to 0x7fff, initialized or not. -/
theorem encodable_node_of_len {l : Leaf} {b : Bytes} (hd : (node b).depth = 0)
    (hb : l.block < 2 ^ 32) (hs : l.start < 2 ^ 48) (hpos : 0 < l.len) (hlen : l.len < 2 ^ 15) :
    (node b).Encodable (.leaf l) := by
  have hlen16 : l.len < 2 ^ 16 := hlen.trans (by decide)
  have hback : (node b).ReadsBack (.leaf l) := by
    show if l.isInit then l.len ≤ 2 ^ 15 else 0 < l.len ∧ l.len < 2 ^ 15
    split
    · exact hlen.le
    · exact ⟨hpos, hlen⟩
  exact ⟨hd, hb, hs, lenField_lt hlen16, (decodeLen_lenField hlen16).mpr hback⟩

/-- Entries that are read from a node are written back to any block of the same depth. -/
theorem Shows.encodable (hs : h.Shows d es) (he : e ∈ es) {b : Bytes} (hb : (node b).depth = d)
    (hlen : ∀ l, e = .leaf l → 0 < l.len ∧ l.len < 2 ^ 15) : (node b).Encodable e := by
  obtain ⟨hd, -, hall⟩ := shows_iff.mp hs
  obtain ⟨i, hi⟩ := List.mem_iff_getElem?.mp he
  obtain ⟨-, hdec⟩ := hall i e hi
  subst hdec
  have hblock := ByteRw.readU32_lt h.bytes (h.base + 12 * i)
  by_cases h0 : d = 0
  · rw [decode, if_pos (hd.trans h0)] at hlen ⊢
    obtain ⟨hpos, hlt⟩ := hlen _ rfl
    have hhi := ByteRw.readU16_lt h.bytes (h.base + 12 * i + 6)
    have hlo := ByteRw.readU32_lt h.bytes (h.base + 12 * i + 8)
    apply encodable_node_of_len (hb.trans h0) hblock _ hpos hlt
    simp only [mergeU32]
    omega
  · rw [decode, if_neg (by omega)]
    have hhi := ByteRw.readU16_lt h.bytes (h.base + 12 * i + 8)
    have hlo := ByteRw.readU32_lt h.bytes (h.base + 12 * i + 4)
    refine ⟨by omega, hblock, ?_⟩
    simp only [mergeU32]
    omega

theorem Shows.firstBlock_lt (hs : h.Shows d es) (he : e ∈ es) : e.firstBlock < 2 ^ 32 := by
  obtain ⟨-, -, hall⟩ := shows_iff.mp hs
  obtain ⟨i, hi⟩ := List.mem_iff_getElem?.mp he
  obtain ⟨-, hdec⟩ := hall i e hi
  subst hdec
  rw [decode]
  split <;> exact ByteRw.readU32_lt _ _

end ExtentHeader

/-! ## Trees -/

section
variable {blocks : Nat → Option Bytes} {h : ExtentHeader} {ls : List Leaf} {ns : List Nat}
  {d fba key n : Nat} {b : Bytes} {e : Entry} {l0 : Leaf}

/-- A node with one entry, over the tree of its child. -/
theorem Tree.single (hs : h.Shows (d + 1) [.internal ⟨key, n⟩]) (hb : blocks n = some b)
    (hm : ExtentHeader.fromBytes b = .ok (.node b)) (ht : Tree blocks d (.node b) ls ns)
    (hget : (ExtentHeader.node b).get 0 = .ok (some e)) (hkey : e.firstBlock = key) :
    Tree blocks (d + 1) h ls (n :: ns) := by
  refine ⟨[⟨⟨key, n⟩, ls, ns⟩], hs, by simp, List.pairwise_singleton .., by simp, by simp,
    fun c hc => ?_⟩
  obtain rfl := List.mem_singleton.mp hc
  exact ⟨b, e, hb, hm, ht, hget, hkey⟩

/-- The search in a tree with more levels than a path holds. -/
theorem Tree.descend_deep (ht : Tree blocks d h ls ns) (hasc : Ascending Leaf.block ls)
    (h0 : ls.head? = some l0) (hle : l0.block ≤ fba) :
    ∃ i e, h.binarySearch fba = .ok (some i) ∧ h.get i = .ok (some e) ∧
      ∀ c : Cursor, c.fs.blocks = blocks → c.path.leafs.length ≤ 5 → 5 < c.path.leafs.length + d →
        (Path.descend (fun h => h.binarySearch fba) d (some e) c).1 = .error .panic := by
  induction d generalizing h ls ns l0 with
  | zero =>
      obtain ⟨i, e, hsearch, hget, -⟩ := ht.search hasc h0 hle
      exact ⟨i, e, hsearch, hget, fun c _ hlen hdeep => by omega⟩
  | succ d ih =>
      obtain ⟨i, c, b, l1, pre, post, hsearch, hget, hb, hmagic, hsub, hascSub, hhead1, hle1, rfl,
        hpost⟩ := ht.child hasc h0 hle
      obtain ⟨i', e', hsearch', hget', hdesc⟩ := ih hsub hascSub hhead1 hle1
      refine ⟨i, _, hsearch, hget, fun c0 hblocks hlen hdeep => ?_⟩
      rw [Path.descend_internal, hblocks, hb]
      simp only [hmagic, hsearch', ExtentHeader.getAt, hget']
      split
      next hroom => exact hdesc _ hblocks (by simp; omega) (by simp; omega)
      next => rfl

end

/-! ## The growth -/

/-- A tree in blocks that are not free, on a mounted file system whose bitmaps take one
    block. -/
structure Cursor.Growable (c : Cursor) (ls : List Leaf) (ns : List Nat) : Prop where
  mounted : BlockRuns.Mounted c.fs
  blkSize : 1024 ≤ c.fs.blkSize ∧ c.fs.blkSize ≤ 4096
  bitmap : c.fs.sb.blocksPerGroup ≤ 8 * c.fs.blkSize
  noload : ∀ lba, (c.noload lba).length = c.fs.blkSize
  tree : Tree c.fs.blocks c.path.root.depth (.tree c.path.root) ls ns
  ascending : Ascending Leaf.block ls
  depth_le : c.path.root.depth ≤ 5
  lens : ∀ l ∈ ls, 0 < l.len ∧ l.len < 2 ^ 15
  inUse : ∀ n ∈ ns, n ∉ c.fs.buddies.free
  root_room : (ExtentHeader.tree c.path.root).Roomy
  root_len : c.path.root.b.length = 48

/-- The same of the root alone, which holds these entries. -/
structure Cursor.Raisable (c : Cursor) (es : List Entry) (ns : List Nat) : Prop where
  mounted : BlockRuns.Mounted c.fs
  blkSize : 1024 ≤ c.fs.blkSize ∧ c.fs.blkSize ≤ 4096
  bitmap : c.fs.sb.blocksPerGroup ≤ 8 * c.fs.blkSize
  noload : ∀ lba, (c.noload lba).length = c.fs.blkSize
  shows : (ExtentHeader.tree c.path.root).Shows c.path.root.depth es
  ne : es ≠ []
  depth_lt : c.path.root.depth < 2 ^ 16
  lens : ∀ l, .leaf l ∈ es → 0 < l.len ∧ l.len < 2 ^ 15
  inUse : ∀ n ∈ ns, n ∉ c.fs.buddies.free
  root_room : (ExtentHeader.tree c.path.root).Roomy
  root_len : c.path.root.b.length = 48

theorem Cursor.Growable.raisable {c : Cursor} {ls : List Leaf} {ns : List Nat}
    (hg : c.Growable ls ns) : ∃ es, c.Raisable es ns := by
  obtain ⟨es, hs, hne, hleafs⟩ := hg.tree.exists_shows
  have hdepth := hg.depth_le
  exact ⟨es, hg.mounted, hg.blkSize, hg.bitmap, hg.noload, hs, hne, by omega,
    fun l hl => hg.lens l (hleafs l hl), hg.inUse, hg.root_room, hg.root_len⟩

namespace Path

variable {c c' : Cursor} {es : List Entry} {ls : List Leaf} {ns : List Nat}

theorem allocate_eq_ok {ino size hope : Nat} {x : Nat × Nat}
    (h : allocate ino size hope c = (.ok x, c')) :
    ∃ fs events, c.fs.allocate c.events ino size hope = (.ok x, fs, events) ∧
      c' = { c with fs := fs, events := events } := by
  unfold allocate at h
  split at h
  next r fs events heq =>
    obtain ⟨rfl, rfl⟩ := Prod.mk.inj h
    exact ⟨fs, events, heq, rfl⟩

/-- The steps of a growth that succeeded. -/
theorem growExtent_eq_ok (h : growExtent c = (.ok (), c')) :
    ∃ hope lba n fs events nd e root,
      c.fs.allocate c.events c.path.ino 1 hope = (.ok (lba, n), fs, events) ∧
      moveEntries (.tree c.path.root) 0 0 c.path.root.entriesCnt
        (.node (initNode fs.blkSize c.path.root.depth (c.noload lba))) = .ok nd ∧
      nd.get 0 = .ok (some e) ∧
      (ExtentHeader.tree { c.path.root with
        entriesCnt := 0, depth := c.path.root.depth + 1 }).insertAt
          (.internal { block := e.firstBlock, nextNode := lba }) 0 = .ok root ∧
      c' = ({ c with
        fs := { fs with blocks := Function.update fs.blocks lba (some nd.bytes) }
        events := events } : Cursor).store 0 root := by
  unfold growExtent at h
  rw [get_bind] at h
  obtain ⟨group, -, h⟩ := lift_bind_eq_ok h
  obtain ⟨en, -, h⟩ := lift_bind_eq_ok h
  obtain ⟨⟨lba, n⟩, c1, halloc, h⟩ := bind_eq_ok h
  obtain ⟨fs, events, heq, rfl⟩ := allocate_eq_ok halloc
  simp only [getMutNoload, modify_bind, get_bind] at h
  obtain ⟨nd, hmove, h⟩ := lift_bind_eq_ok h
  rw [writeBlock, modify_bind] at h
  obtain ⟨en0, hget, h⟩ := lift_bind_eq_ok h
  obtain ⟨e, hsome, h⟩ := lift_bind_eq_ok h
  obtain ⟨root, hins, hend⟩ := lift_bind_eq_ok h
  obtain rfl : en0 = some e := by
    cases en0 with
    | none => cases hsome
    | some e0 => cases hsome; rfl
  refine ⟨_, lba, n, fs, events, nd, e, root, heq, hmove, hget, hins, ?_⟩
  have hstate := (Prod.mk.inj hend).2
  simp only [Function.update_idem] at hstate
  exact hstate.symm

/-- What a growth leaves: the entries of the root are in a new block, and the root has one
    entry for it. -/
structure Grown (c c' : Cursor) (ns : List Nat) (lba : Nat) (b : Bytes) (e : Entry) : Prop where
  blocks : c'.fs.blocks = Function.update c.fs.blocks lba (some b)
  fresh : lba ∉ ns
  magic : ExtentHeader.fromBytes b = .ok (.node b)
  node : ∀ es, (ExtentHeader.tree c.path.root).Shows c.path.root.depth es →
    (ExtentHeader.node b).Shows c.path.root.depth es
  first : (ExtentHeader.tree c.path.root).get 0 = .ok (some e)
  root : (ExtentHeader.tree c'.path.root).Shows (c.path.root.depth + 1)
    [.internal ⟨e.firstBlock, lba⟩]

/-- Where the new node lies and how large it is; the root keeps its size. -/
structure Sized (c c' : Cursor) (lba : Nat) (b : Bytes) : Prop where
  free : lba ∈ c.fs.buddies.free
  length : b.length = c.fs.blkSize
  max : (ExtentHeader.node b).maxEntriesCnt = (c.fs.blkSize - 16) / 12
  root_max : c'.path.root.maxEntriesCnt = c.path.root.maxEntriesCnt
  root_len : c'.path.root.b.length = c.path.root.b.length
  cache : c'.path.cache = c.path.cache

theorem lba_lt_of_free (hg : c.Raisable es ns) {x : Nat} (hx : x ∈ c.fs.buddies.free) :
    x < 2 ^ 48 := by
  have hlt := (hg.mounted.free x hx).1.2
  have hfirst := c.fs.sb.firstDataBlock_le
  have hmul : c.fs.sb.blocksPerGroup * c.fs.sb.bgCount ≤ 32768 * (2 ^ 32 - 1) :=
    Nat.mul_le_mul (by have := hg.bitmap; have := hg.blkSize; omega)
      (by have := c.fs.sb.bgCount_lt; omega)
  omega

/-- A new node takes all entries of another one, if they fit. -/
theorem moveEntries_all {src : ExtentHeader} {d blkSize : Nat} {es : List Entry} {b : Bytes}
    (hs : src.Shows d es) (hd : d < 2 ^ 16) (hblk : 28 ≤ blkSize ∧ blkSize < 2 ^ 16)
    (hlen : b.length = blkSize) (hfit : es.length ≤ (blkSize - 16) / 12)
    (hlens : ∀ l, .leaf l ∈ es → 0 < l.len ∧ l.len < 2 ^ 15) :
    ∃ b', moveEntries src 0 0 es.length (.node (initNode blkSize d b)) = .ok (.node b') ∧
      ExtentHeader.fromBytes b' = .ok (.node b') ∧ (ExtentHeader.node b').Shows d es ∧
      b'.length = blkSize ∧ (ExtentHeader.node b').maxEntriesCnt = (blkSize - 16) / 12 := by
  obtain ⟨hinit, hmagic, hmax, hlen'⟩ := ExtentHeader.initNode_spec (b := b) hd hblk.2 (by omega)
  have hcap : 12 + 12 * (ExtentHeader.node (initNode blkSize d b)).maxEntriesCnt ≤
      (initNode blkSize d b).length := by
    rw [hmax, hlen', hlen]
    omega
  have henc : ∀ e ∈ es, (ExtentHeader.node (initNode blkSize d b)).Encodable e := fun e he =>
    hs.encodable he hinit.depth fun l hl => hlens l (hl ▸ he)
  obtain ⟨nd, hmove, hlike, hshows⟩ := ExtentHeader.moveEntries_spec (k := 0) (n := es.length) hs
    hinit (by simp) (by rw [hmax]; simpa using hfit) hcap (by rw [hmax]; omega) henc
  cases nd with
  | tree t => cases hlike
  | node b' =>
      exact ⟨b', hmove, hlike.fromBytes hmagic, by simpa using hshows,
        hlike.length.trans (hlen'.trans hlen), hlike.maxEntriesCnt.trans hmax⟩

/-- The root with one entry, one level higher. -/
theorem insertAt_raised {t : ExtentTree} {i : Internal} (hroom : (ExtentHeader.tree t).Roomy)
    (hpos : 0 < t.entriesCnt) (hblock : i.block < 2 ^ 32) (hnext : i.nextNode < 2 ^ 48) :
    ∃ t', (ExtentHeader.tree { t with entriesCnt := 0, depth := t.depth + 1 }).insertAt
        (.internal i) 0 = .ok (.tree t') ∧
      (ExtentHeader.tree t').Shows (t.depth + 1) [.internal i] ∧
      t'.maxEntriesCnt = t.maxEntriesCnt ∧ t'.b.length = t.b.length := by
  have hempty : (ExtentHeader.tree { t with entriesCnt := 0, depth := t.depth + 1 }).Shows
      (t.depth + 1) [] :=
    ExtentHeader.shows_iff.mpr ⟨rfl, rfl, fun i e hi => nomatch hi⟩
  have hmax : 0 < t.maxEntriesCnt := Nat.lt_of_lt_of_le hpos hroom.entriesCnt_le
  obtain ⟨h', hins, hlike, hshows⟩ := ExtentHeader.insertAt_append hempty hmax hroom.capacity
    hroom.maxEntriesCnt_lt (e := .internal i) ⟨Nat.succ_pos _, hblock, hnext⟩
  cases h' with
  | node b => cases hlike
  | tree t' => exact ⟨t', hins, hshows, hlike.1, hlike.2.2.1⟩

/-- Once it has its block a growth goes through. -/
theorem growExtent_steps (hg : c.Raisable es ns) {hope lba n : Nat} {fs : FileSystem}
    {events : List Event}
    (halloc : c.fs.allocate c.events c.path.ino 1 hope = (.ok (lba, n), fs, events)) :
    ∃ b e t, moveEntries (.tree c.path.root) 0 0 c.path.root.entriesCnt
        (.node (initNode fs.blkSize c.path.root.depth (c.noload lba))) = .ok (.node b) ∧
      (ExtentHeader.node b).get 0 = .ok (some e) ∧
      (ExtentHeader.tree { c.path.root with
        entriesCnt := 0, depth := c.path.root.depth + 1 }).insertAt
          (.internal { block := e.firstBlock, nextNode := lba }) 0 = .ok (.tree t) ∧
      ∀ c1, c1 = ({ c with
        fs := { fs with blocks := Function.update fs.blocks lba (some b) }
        events := events } : Cursor).store 0 (.tree t) →
          Grown c c1 ns lba b e ∧ Sized c c1 lba b := by
  obtain ⟨hlow, hhigh⟩ := hg.blkSize
  have hfree := FileSystem.allocate_mem_free hg.mounted (Nat.le_refl 1) (by decide) (by omega)
    halloc
  obtain ⟨hblk, hblocks⟩ : fs.blkSize = c.fs.blkSize ∧ fs.blocks = c.fs.blocks := by
    obtain ⟨r, fs', events', heq, h1, -, h2, -⟩ :=
      FileSystem.allocate_frame c.fs c.events c.path.ino 1 hope
    rw [halloc] at heq
    cases heq
    exact ⟨h1, h2⟩
  have hs := hg.shows
  have hdepth := hg.depth_lt
  have hlens := hg.lens
  obtain ⟨e, rest, rfl⟩ := List.exists_cons_of_ne_nil hg.ne
  have hcnt : c.path.root.entriesCnt = (e :: rest).length := hs.entriesCnt
  -- The root has room for four entries.
  have hfour : (e :: rest).length ≤ 4 := by
    have hle : c.path.root.entriesCnt ≤ c.path.root.maxEntriesCnt := hg.root_room.entriesCnt_le
    have hcap : 0 + 12 * c.path.root.maxEntriesCnt ≤ c.path.root.b.length := hg.root_room.capacity
    rw [hg.root_len] at hcap
    omega
  obtain ⟨b, hmove, hmagic, hshows, hblen, hmax⟩ := moveEntries_all hs (by omega) (by omega)
    ((hg.noload lba).trans hblk.symm) (by omega) hlens
  obtain ⟨t, hins, hroot, hrmax, hrlen⟩ := insertAt_raised (i := ⟨e.firstBlock, lba⟩) hg.root_room
    (by rw [hcnt]; exact Nat.succ_pos _) (hs.firstBlock_lt List.mem_cons_self)
    (lba_lt_of_free hg hfree)
  rw [← hcnt] at hmove
  refine ⟨b, e, t, hmove, by rw [hshows.get]; rfl, hins, ?_⟩
  rintro c1 rfl
  refine ⟨⟨?_, fun hmem => hg.inUse lba hmem hfree, hmagic, fun es' hs' => hs'.unique hs ▸ hshows,
    by rw [hs.get]; rfl, hroot⟩,
    ⟨hfree, hblen.trans hblk, by rw [hmax, hblk], hrmax, hrlen, rfl⟩⟩
  show Function.update fs.blocks lba (some b) = Function.update c.fs.blocks lba (some b)
  rw [hblocks]

theorem growExtent_grown (hg : c.Raisable es ns) (h : growExtent c = (.ok (), c')) :
    ∃ lba b e, Grown c c' ns lba b e ∧ Sized c c' lba b := by
  obtain ⟨hope, lba, n, fs, events, nd, e, root, halloc, hmove, hget, hins, rfl⟩ :=
    growExtent_eq_ok h
  obtain ⟨b, e', t, hmove', hget', hins', hgrown⟩ := growExtent_steps hg halloc
  obtain rfl : ExtentHeader.node b = nd := Except.ok.inj (hmove'.symm.trans hmove)
  obtain rfl : e' = e := Option.some.inj (Except.ok.inj (hget'.symm.trans hget))
  obtain rfl : ExtentHeader.tree t = root := Except.ok.inj (hins'.symm.trans hins)
  exact ⟨lba, b, e', hgrown _ rfl⟩

/-- A growth fails only where the allocation does. -/
theorem exists_growExtent (hg : c.Raisable es ns) {group lba n : Nat} {en : Option Entry}
    {fs : FileSystem} {events : List Event} (hgroup : inoGroup c.fs.sb c.path.ino = .ok group)
    (hen : (ExtentHeader.tree c.path.root).get 0 = .ok en)
    (halloc : c.fs.allocate c.events c.path.ino 1 ((en.bind Entry.nextNode).getD group) =
      (.ok (lba, n), fs, events)) : ∃ c', growExtent c = (.ok (), c') := by
  obtain ⟨b, e, t, hmove, hget, hins, -⟩ := growExtent_steps hg halloc
  have hblock : allocate c.path.ino 1 ((en.bind Entry.nextNode).getD group) c =
      (.ok (lba, n), { c with fs := fs, events := events }) := by
    unfold allocate
    rw [halloc]
  unfold growExtent
  rw [get_bind, lift_bind_of_ok hgroup, lift_bind_of_ok hen, bind_of_ok hblock]
  simp only [getMutNoload, modify_bind, get_bind]
  rw [lift_bind_of_ok hmove, writeBlock, modify_bind, lift_bind_of_ok hget]
  exact ⟨_, (lift_bind_of_ok rfl _ _).trans (lift_bind_of_ok hins _ _)⟩

/-- The tree is one level deeper and has the same extents. -/
theorem Grown.tree {lba : Nat} {b : Bytes} {e : Entry} (h : Grown c c' ns lba b e)
    (ht : Tree c.fs.blocks c.path.root.depth (.tree c.path.root) ls ns) :
    Tree c'.fs.blocks (c.path.root.depth + 1) (.tree c'.path.root) ls (lba :: ns) := by
  obtain ⟨es, hs, hne, -⟩ := ht.exists_shows
  have hnode := h.node es hs
  have hfirst : (ExtentHeader.node b).get 0 = .ok (some e) := by
    rw [hnode.get, ← hs.get, h.first]
  have hsub : Tree c'.fs.blocks c.path.root.depth (.node b) ls ns := by
    apply Tree.congr (ht.of_shows h.node)
    intro n hn
    rw [h.blocks]
    exact Function.update_of_ne (ne_of_mem_of_not_mem hn h.fresh) _ _
  have hblock : c'.fs.blocks lba = some b := by
    rw [h.blocks]
    exact Function.update_self ..
  exact Tree.single h.root hblock h.magic hsub hfirst rfl

end Path

/-! ## The map after a growth -/

/-- `Path::load` followed by `get_leaf`. -/
def Cursor.leafAt (c : Cursor) (fba : Nat) : Except Fault (Option Leaf) :=
  match Path.load fba c with
  | (.ok (), c) => c.getLeaf
  | (.error e, _) => .error e

section
variable {c c' : Cursor} {ls : List Leaf} {ns : List Nat} {l0 : Leaf} {fba : Nat}

theorem Tree.leafAt (ht : Tree c.fs.blocks c.path.root.depth (.tree c.path.root) ls ns)
    (hdepth : c.path.root.depth ≤ 5) (hasc : Ascending Leaf.block ls) (h0 : ls.head? = some l0)
    (hle : l0.block ≤ fba) :
    ∃ i l, c.leafAt fba = .ok (some l) ∧ IsPred Leaf.block fba ls i l := by
  obtain ⟨c1, i, l, hload, -, -, -, -, hleaf, hpred⟩ := Path.load_spec fba ht hdepth hasc h0 hle
  refine ⟨i, l, ?_, hpred⟩
  rw [Cursor.leafAt, hload]
  exact hleaf

/-- Below a root of depth 6 no extent is found. -/
theorem Tree.leafAt_deep (ht : Tree c.fs.blocks c.path.root.depth (.tree c.path.root) ls ns)
    (hdepth : 5 < c.path.root.depth) (hasc : Ascending Leaf.block ls) (h0 : ls.head? = some l0)
    (hle : l0.block ≤ fba) : c.leafAt fba = .error .panic := by
  obtain ⟨i, e, hsearch, hget, hdesc⟩ := ht.descend_deep hasc h0 hle
  have hpanic := hdesc (Path.atPath c (some i) []) rfl (by simp) (by simpa using hdepth)
  have hload : (Path.load fba c).1 = .error .panic := by
    rw [Path.load, bind_apply, Path.loadMut_eq, hsearch]
    simp only [ExtentHeader.getAt, hget]
    generalize Path.descend _ _ _ _ = run at hpanic
    obtain ⟨r, c1⟩ := run
    obtain rfl : r = .error .panic := hpanic
    rfl
  rw [Cursor.leafAt]
  generalize Path.load fba c = run at hload
  obtain ⟨r, c1⟩ := run
  obtain rfl : r = .error .panic := hload
  rfl

/-- One entry in the root, one level more, a new node with the entries that the root had,
    and the same extent for every file block from the first one on. -/
structure Cursor.GrowsTo (c c' : Cursor) : Prop where
  depth : c'.path.root.depth = c.path.root.depth + 1
  entriesCnt : c'.path.root.entriesCnt = 1
  child : ∃ i b, (ExtentHeader.tree c'.path.root).get 0 = .ok (some (.internal i)) ∧
    c'.fs.blocks i.nextNode = some b ∧ ExtentHeader.fromBytes b = .ok (.node b) ∧
    (ExtentHeader.node b).depth = c.path.root.depth ∧
    (ExtentHeader.node b).entriesCnt = c.path.root.entriesCnt ∧
    ∀ j, (ExtentHeader.node b).get j = (ExtentHeader.tree c.path.root).get j
  leafAt : ∀ fba e, (ExtentHeader.tree c.path.root).get 0 = .ok (some e) →
    e.firstBlock ≤ fba → c'.leafAt fba = c.leafAt fba

/-- A growth keeps the map just where the new root is not too deep for a path. -/
theorem growExtent_growsTo_iff (hg : c.Growable ls ns) (h : Path.growExtent c = (.ok (), c')) :
    c.GrowsTo c' ↔ c.path.root.depth ≤ 4 := by
  obtain ⟨es, hraise⟩ := hg.raisable
  obtain ⟨lba, b, e, hgrown, -⟩ := Path.growExtent_grown hraise h
  have hdepth : c'.path.root.depth = c.path.root.depth + 1 := hgrown.root.depth
  have htree' := hgrown.tree hg.tree
  rw [← hdepth] at htree'
  obtain ⟨l0, e0, hhead, hget0, hkey⟩ := hg.tree.head
  constructor
  · intro hto
    by_contra hdeep
    have hfind := hto.leafAt l0.block e0 hget0 hkey.le
    obtain ⟨i, l, hbefore, -⟩ :=
      hg.tree.leafAt hg.depth_le hg.ascending hhead (Nat.le_refl l0.block)
    rw [htree'.leafAt_deep (by omega) hg.ascending hhead (Nat.le_refl _), hbefore] at hfind
    cases hfind
  · intro hle
    obtain ⟨es, hs, -⟩ := hg.tree.exists_shows
    have hnode := hgrown.node es hs
    refine ⟨hdepth, hgrown.root.entriesCnt, ⟨_, b, hgrown.root.get 0, ?_, hgrown.magic, hnode.depth,
      hnode.entriesCnt.trans hs.entriesCnt.symm, fun j => (hnode.get j).trans (hs.get j).symm⟩,
      fun fba e1 hget1 hle1 => ?_⟩
    · rw [hgrown.blocks]
      exact Function.update_self ..
    · obtain rfl : e0 = e1 := Option.some.inj (Except.ok.inj (hget0.symm.trans hget1))
      have hfba : l0.block ≤ fba := hkey ▸ hle1
      obtain ⟨i, l, hbefore, hpred⟩ := hg.tree.leafAt hg.depth_le hg.ascending hhead hfba
      obtain ⟨j, l', hafter, hpred'⟩ := htree'.leafAt (by omega) hg.ascending hhead hfba
      rw [hbefore, hafter, hpred.unique hpred']

end

/-! ## Two trees -/

/-- A cursor of the inode 12 over these blocks. -/
def growCursor (blocks : Nat → Option Bytes) (t : ExtentTree) : Cursor :=
  t.emptyCursor (fsOf blocks) [] (fun _ => BlockRuns.bitmapBlock) 12 0

theorem growable_growCursor {blocks : Nat → Option Bytes} {t : ExtentTree}
    (hbitmap : blocks 2 = BlockRuns.twoFree.blocks 2)
    (ht : Tree blocks t.depth (.tree t) ls ns) (hasc : Ascending Leaf.block ls) (hd : t.depth ≤ 5)
    (hlens : ∀ l ∈ ls, 0 < l.len ∧ l.len < 2 ^ 15) (hns : ∀ n ∈ ns, 100 ≤ n)
    (hcnt : t.entriesCnt ≤ 4) (hmax : t.maxEntriesCnt = 4) (hlen : t.b.length = 48) :
    (growCursor blocks t).Growable ls ns where
  mounted := mounted_fsOf hbitmap
  blkSize := show 1024 ≤ 4096 ∧ 4096 ≤ 4096 by decide
  bitmap := show 32768 ≤ 8 * 4096 by decide
  noload _ := BlockRuns.length_bitmapBlock
  tree := ht
  ascending := hasc
  depth_le := hd
  lens := hlens
  inUse n hn hfree := by
    have hlow := hns n hn
    obtain rfl | rfl := BlockRuns.mem_free_twoFree hfree <;> omega
  root_room := by
    refine ⟨show t.entriesCnt ≤ t.maxEntriesCnt by omega, ?_,
      show t.maxEntriesCnt < 2 ^ 16 by omega⟩
    show 0 + 12 * t.maxEntriesCnt ≤ t.b.length
    omega
  root_len := hlen

/-- The growth finds a block for its node. -/
theorem exists_growExtent_growCursor {blocks : Nat → Option Bytes} {t : ExtentTree} {key : Nat}
    (hg : (growCursor blocks t).Growable ls ns)
    (hen : (ExtentHeader.tree t).get 0 = .ok (some (.internal ⟨key, 100⟩))) :
    ∃ c', Path.growExtent (growCursor blocks t) = (.ok (), c') := by
  have hgroup : Path.inoGroup (growCursor blocks t).fs.sb 12 = .ok 0 := by
    show Path.inoGroup BlockRuns.twoFree.sb 12 = .ok 0
    decide
  obtain ⟨es, hraise⟩ := hg.raisable
  apply Path.exists_growExtent hraise hgroup hen
  have halloc := FileSystem.allocate_withBlocks BlockRuns.twoFree blocks [] 12 1 100
  rw [BlockRuns.allocate_twoFree] at halloc
  exact halloc

/-- A root over two leaf nodes, with two extents each. -/
theorem growsTo_twoLeafs : ∃ (c c' : Cursor) (ls : List Leaf) (ns : List Nat), ls.length = 4 ∧
    c.Growable ls ns ∧ Path.growExtent c = (.ok (), c') ∧ c.GrowsTo c' := by
  obtain ⟨t, b1, b2, htd, -, htmax, htlen, hts, -, -, -, -, ht⟩ := exists_twoLeafs
    ⟨0, 300, 5, true⟩ ⟨20, 400, 5, true⟩ [⟨10, 310, 5, true⟩] [⟨40, 410, 5, true⟩] (by decide)
    (List.pairwise_pair.mpr (by decide)) (List.pairwise_pair.mpr (by decide)) (by decide)
    (by decide) (by decide)
  have hg := @growable_growCursor _ _
    (fun lba => if lba = 100 ∨ lba = 200 then twoBlocks b1 b2 lba
      else BlockRuns.twoFree.blocks lba) t rfl
    (by
      rw [htd]
      refine ht.congr fun n hn => if_pos ?_
      simpa using hn)
    (by unfold Ascending; decide) (by omega) (by decide) (by decide)
    (show (ExtentHeader.tree t).entriesCnt ≤ 4 by rw [hts.entriesCnt]; decide) htmax htlen
  obtain ⟨c', hgrow⟩ := exists_growExtent_growCursor hg (hts.get 0)
  exact ⟨_, c', _, _, rfl, hg, hgrow, (growExtent_growsTo_iff hg hgrow).mpr
    (show t.depth ≤ 4 by omega)⟩

/-- A node with one entry: block 50 as the file's block 0, or the node in block `next`. -/
def chainNode (depth next : Nat) : Bytes :=
  [0x0A, 0xF3, 1, 0, 84, 1, UInt8.ofNat depth, 0, 0, 0, 0, 0] ++
    if depth = 0 then [0, 0, 0, 0, 1, 0, 0, 0, 50, 0, 0, 0]
    else [0, 0, 0, 0, UInt8.ofNat next, 0, 0, 0, 0, 0, 0, 0]

def chainLeaf : Leaf := ⟨0, 50, 1, true⟩

/-- Five nodes from block 100 on, one in each level. -/
def chainBlocks (lba : Nat) : Option Bytes :=
  if 100 ≤ lba ∧ lba < 105 then some (chainNode (104 - lba) (lba + 1))
  else BlockRuns.twoFree.blocks lba

/-- The root over them. -/
def chainRoot : ExtentTree :=
  { entriesCnt := 1
    depth := 5
    b := [0, 0, 0, 0, 100, 0, 0, 0, 0, 0, 0, 0] ++ List.replicate 36 0 }

/-- One level of a chain. -/
theorem Tree.chain {d : Nat} {h : ExtentHeader} {ns : List Nat} {b : Bytes} {lba : Nat}
    {blocks : Nat → Option Bytes} (hd : h.depth = d + 1) (hcnt : h.entriesCnt = 1)
    (hget : h.get 0 = .ok (some (.internal ⟨0, lba⟩))) (hb : blocks lba = some b)
    (hm : ExtentHeader.fromBytes b = .ok (.node b)) (ht : Tree blocks d (.node b) [chainLeaf] ns) :
    Tree blocks (d + 1) h [chainLeaf] (lba :: ns) := by
  obtain ⟨l, e, hhead, hget0, hkey⟩ := ht.head
  obtain rfl : chainLeaf = l := Option.some.inj hhead
  exact Tree.single (ExtentHeader.shows_one hd hcnt hget) hb hm ht hget0 hkey

/-- The last node of a chain. -/
theorem Tree.chainEnd {h : ExtentHeader} {blocks : Nat → Option Bytes} (hd : h.depth = 0)
    (hcnt : h.entriesCnt = 1) (hget : h.get 0 = .ok (some (.leaf chainLeaf))) :
    Tree blocks 0 h [chainLeaf] [] :=
  ⟨ExtentHeader.shows_one hd hcnt hget, by simp, List.pairwise_singleton .., rfl⟩

theorem tree_chainRoot :
    Tree chainBlocks 5 (.tree chainRoot) [chainLeaf] [100, 101, 102, 103, 104] := by
  have h0 : Tree chainBlocks 0 (.node (chainNode 0 105)) [chainLeaf] [] :=
    Tree.chainEnd rfl rfl (by decide +kernel)
  have h1 : Tree chainBlocks 1 (.node (chainNode 1 104)) [chainLeaf] [104] :=
    Tree.chain rfl rfl (by decide +kernel) rfl (by decide +kernel) h0
  have h2 : Tree chainBlocks 2 (.node (chainNode 2 103)) [chainLeaf] [103, 104] :=
    Tree.chain rfl rfl (by decide +kernel) rfl (by decide +kernel) h1
  have h3 : Tree chainBlocks 3 (.node (chainNode 3 102)) [chainLeaf] [102, 103, 104] :=
    Tree.chain rfl rfl (by decide +kernel) rfl (by decide +kernel) h2
  have h4 : Tree chainBlocks 4 (.node (chainNode 4 101)) [chainLeaf] [101, 102, 103, 104] :=
    Tree.chain rfl rfl (by decide +kernel) rfl (by decide +kernel) h3
  exact Tree.chain rfl rfl (by decide +kernel) rfl (by decide +kernel) h4

/-- A tree of depth 5 can be loaded, and no path of the grown one can. -/
theorem growExtent_chain_five :
    ∃ c', (growCursor chainBlocks chainRoot).Growable [chainLeaf] [100, 101, 102, 103, 104] ∧
      Path.growExtent (growCursor chainBlocks chainRoot) = (.ok (), c') ∧
      (growCursor chainBlocks chainRoot).leafAt 0 = .ok (some chainLeaf) ∧
      c'.leafAt 0 = .error .panic ∧ ¬ (growCursor chainBlocks chainRoot).GrowsTo c' := by
  have hg : (growCursor chainBlocks chainRoot).Growable [chainLeaf] [100, 101, 102, 103, 104] :=
    growable_growCursor rfl tree_chainRoot (List.pairwise_singleton ..) (by decide) (by decide)
      (by decide) (by decide) rfl rfl
  have hen : (ExtentHeader.tree chainRoot).get 0 = .ok (some (.internal ⟨0, 100⟩)) := by
    decide +kernel
  obtain ⟨c', hgrow⟩ := exists_growExtent_growCursor hg hen
  obtain ⟨es, hraise⟩ := hg.raisable
  obtain ⟨lba, b, e, hgrown, -⟩ := Path.growExtent_grown hraise hgrow
  have hdepth : c'.path.root.depth = 6 := hgrown.root.depth
  have htree := hgrown.tree hg.tree
  rw [show (growCursor chainBlocks chainRoot).path.root.depth + 1 = c'.path.root.depth
    from hdepth.symm] at htree
  have hlow : chainLeaf.block ≤ 0 := Nat.le_refl 0
  obtain ⟨i, l, hbefore, hpred⟩ := hg.tree.leafAt hg.depth_le hg.ascending rfl hlow
  obtain rfl : l = chainLeaf := List.mem_singleton.mp hpred.mem
  have hafter : c'.leafAt 0 = .error .panic :=
    htree.leafAt_deep (by omega) hg.ascending rfl hlow
  refine ⟨c', hg, hgrow, hbefore, hafter, fun hto => ?_⟩
  have hsame := hto.leafAt 0 _ hen (Nat.le_refl 0)
  rw [hbefore, hafter] at hsame
  cases hsame

end RustExt4.Inode.Extent
