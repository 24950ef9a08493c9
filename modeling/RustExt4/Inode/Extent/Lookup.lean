/-
  RustExt4.Inode.Extent.Lookup

  An extent tree reads as the map its extents stand for: the read cursor,
  opened at a file block and moved on, gives for every block what the extent
  that covers it says, whether the cursor began from a path or from the cached
  extent.
-/
import RustExt4.Inode.Extent.NodeInv
import RustExt4.Transaction.BlockSafety

namespace RustExt4.Inode.Extent

open StateExcept
open Transaction (Event)
open Predecessor (Ascending IsPred)

/-- The map that the extents stand for. -/
def lookup (ls : List Leaf) (x : Nat) : Option AddressingOutput :=
  (ls.find? (·.contains x)).map (·.address x)

/-- A tree with these extents, none of which overlap. -/
structure WellFormed (blocks : Nat → Option Bytes) (t : ExtentTree) (ls : List Leaf) : Prop where
  tree : ∃ ns, Tree blocks t.depth (.tree t) ls ns
  depth_le : t.depth ≤ 5
  disjoint : ls.Pairwise fun a b => ∀ x, ¬ (a.contains x ∧ b.contains x)
  bound : ∀ l ∈ ls, l.block + l.len < 2 ^ 32

theorem Leaf.not_both_contain {a b : Leaf}
    (h : a.block + a.len ≤ b.block ∨ b.block + b.len ≤ a.block) (x : Nat) :
    ¬ (a.contains x ∧ b.contains x) := by
  rintro ⟨ha, hb⟩
  have := Leaf.contains_iff.mp ha
  have := Leaf.contains_iff.mp hb
  omega

/-- In tree order the extents follow one another. -/
def Ordered (ls : List Leaf) : Prop :=
  ls.Pairwise fun a b => a.block < b.block ∧ a.block + a.len ≤ b.block

theorem Ordered.ascending {ls : List Leaf} (h : Ordered ls) : Ascending Leaf.block ls :=
  h.imp fun hab => hab.1

section
variable {ls : List Leaf} {l : Leaf} {x i : Nat}

/-- The predecessor of a block is the only extent that can cover it. -/
theorem Ordered.lookup_eq (h : Ordered ls) (hp : IsPred Leaf.block x ls i l) :
    lookup ls x = if l.contains x then some (l.address x) else none := by
  obtain ⟨l1, l2, rfl, -, hle, hgt⟩ := hp
  obtain ⟨-, hrest, hcross⟩ := List.pairwise_append.mp h
  have h1 : l1.find? (·.contains x) = none := by
    refine List.find?_eq_none.mpr fun a ha hc => ?_
    have := (hcross a ha l List.mem_cons_self).2
    have := (Leaf.contains_iff.mp hc).2
    omega
  have h2 : l2.find? (·.contains x) = none := by
    refine List.find?_eq_none.mpr fun b hb hc => ?_
    have := hgt b hb
    have := (Leaf.contains_iff.mp hc).1
    omega
  rw [lookup, List.find?_append, h1, Option.none_or, List.find?_cons, h2]
  cases l.contains x <;> simp

/-- An extent that covers a block is its predecessor. -/
theorem Ordered.isPred_of_mem (h : Ordered ls) (hl : l ∈ ls) (hc : l.contains x) :
    ∃ i, IsPred Leaf.block x ls i l := by
  obtain ⟨l1, l2, rfl⟩ := List.append_of_mem hl
  obtain ⟨hle, hlt⟩ := Leaf.contains_iff.mp hc
  refine ⟨l1.length, l1, l2, rfl, rfl, hle, fun b hb => ?_⟩
  have := (List.pairwise_cons.mp (List.pairwise_append.mp h).2.1).1 b hb
  omega

/-- An extent maps the blocks that it covers. -/
theorem Ordered.lookup_of_mem (h : Ordered ls) (hl : l ∈ ls) (hc : l.contains x) :
    lookup ls x = some (l.address x) := by
  obtain ⟨i, hp⟩ := h.isPred_of_mem hl hc
  rw [h.lookup_eq hp, if_pos hc]

theorem exists_of_lookup {a : AddressingOutput} (h : lookup ls x = some a) :
    ∃ l ∈ ls, l.contains x ∧ l.address x = a := by
  obtain ⟨l, hl, ha⟩ := Option.map_eq_some_iff.mp h
  exact ⟨l, List.mem_of_find?_eq_some hl, by simpa using List.find?_some hl, ha⟩

/-- No two extents cover the same block. -/
theorem Ordered.eq_of_contains {l' : Leaf} (h : Ordered ls) (hl : l ∈ ls) (hl' : l' ∈ ls)
    (hc : l.contains x) (hc' : l'.contains x) : l = l' := by
  obtain ⟨i, hp⟩ := h.isPred_of_mem hl hc
  obtain ⟨j, hp'⟩ := h.isPred_of_mem hl' hc'
  exact hp.unique hp'

end

/-! ## Loading a path -/

namespace Path

/-- The cursor with another path below its root. -/
abbrev atPath (c : Cursor) (i : Option Nat) (leafs : List (Nat × Option Nat)) : Cursor :=
  { c with path := { c.path with rootIdx := i, leafs := leafs } }

variable {c : Cursor} {ls : List Leaf} {ns : List Nat} {l0 : Leaf} {fba : Nat}

theorem loadMut_eq (fba : Nat) (c : Cursor) :
    loadMut fba c =
      match (ExtentHeader.tree c.path.root).binarySearch fba with
      | .error e => (.error e, atPath c c.path.rootIdx [])
      | .ok i =>
        match (ExtentHeader.tree c.path.root).getAt i with
        | .error e => (.error e, atPath c i [])
        | .ok e =>
          match descend (fun h => h.binarySearch fba) c.path.root.depth e (atPath c i []) with
          | (.ok _, c') => (.ok (), c')
          | (.error e, c') => (.error e, c') := by
  simp only [loadMut, clearLeafs, start, bind_apply, modify_apply, get_apply, lift_apply]
  cases (ExtentHeader.tree c.path.root).binarySearch fba with
  | error e => rfl
  | ok i =>
    dsimp only
    cases (ExtentHeader.tree c.path.root).getAt i with
    | error e => rfl
    | ok e =>
      dsimp only
      cases descend (fun h => h.binarySearch fba) c.path.root.depth e (atPath c i []) with
      | mk r c' => cases r <;> rfl

/-- Loading changes the path below the root only. -/
theorem loadMut_frame (fba : Nat) (c : Cursor) :
    ∃ i leafs, (loadMut fba c).2 = atPath c i leafs := by
  rw [loadMut_eq]
  split
  · exact ⟨_, _, rfl⟩
  next i _ =>
    split
    · exact ⟨_, _, rfl⟩
    next e _ =>
      obtain ⟨leafs, e', hc', -, -⟩ := descend_leads (fun h => h.binarySearch fba)
        c.path.root.depth e (atPath c i [])
      refine ⟨i, leafs, ?_⟩
      split
      next heq =>
        rw [heq] at hc'
        simpa [pushed] using hc'
      next heq =>
        rw [heq] at hc'
        simpa [pushed] using hc'

/-- A mutable path is loaded to the predecessor of a file block. -/
theorem loadMut_spec (fba : Nat) (ht : Tree c.fs.blocks c.path.root.depth (.tree c.path.root) ls ns)
    (hdepth : c.path.root.depth ≤ 5) (hasc : Ascending Leaf.block ls) (h0 : ls.head? = some l0)
    (hle : l0.block ≤ fba) :
    ∃ i leafs j l, loadMut fba c = (.ok (), atPath c i leafs) ∧
      (atPath c i leafs).Stands (some (.leaf l)) ∧ IsPred Leaf.block fba ls j l := by
  obtain ⟨i, e, hsearch, hget, hdesc⟩ := ht.search hasc h0 hle
  obtain ⟨c', j, l, hrun, hpred⟩ := hdesc (atPath c (some i) []) rfl (by simpa using hdepth)
  obtain ⟨leafs, e', hc', hleads, hr⟩ := descend_leads (fun h => h.binarySearch fba)
    c.path.root.depth (some e) (atPath c (some i) [])
  rw [hrun] at hc' hr
  obtain rfl := hr _ rfl
  simp only at hc'
  have hload : loadMut fba c = (.ok (), c') := by
    simp only [loadMut_eq, hsearch, ExtentHeader.getAt, hget, hrun]
  refine ⟨some i, leafs, j, l, by rw [hload, hc']; simp [pushed], ⟨some e, hget, ?_⟩, hpred⟩
  exact hleads

theorem load_spec (fba : Nat) (ht : Tree c.fs.blocks c.path.root.depth (.tree c.path.root) ls ns)
    (hdepth : c.path.root.depth ≤ 5) (hasc : Ascending Leaf.block ls) (h0 : ls.head? = some l0)
    (hle : l0.block ≤ fba) :
    ∃ c' j l, load fba c = (.ok (), c') ∧ c'.fba = c.fba ∧ c'.fs = c.fs ∧ c'.events = c.events ∧
      c'.path.root = c.path.root ∧ c'.getLeaf = .ok (some l) ∧ IsPred Leaf.block fba ls j l := by
  obtain ⟨i, leafs, j, l, hload, hstands, hpred⟩ := loadMut_spec fba ht hdepth hasc h0 hle
  let c' : Cursor := { c with path := { c.path with rootIdx := i, leafs := leafs, cache := none } }
  have hstands' : c'.Stands (some (.leaf l)) := hstands
  refine ⟨c', j, l, ?_, rfl, rfl, rfl, rfl, hstands'.getLeaf rfl, hpred⟩
  rw [load, bind_of_ok hload]
  rfl

end Path

/-! ## The walk of a read cursor -/

namespace Cursor

/-- The cursor is at `x` and has the predecessor of `x` in its hands. -/
structure At (fs : FileSystem) (events : List Event) (t : ExtentTree) (ls : List Leaf) (x : Nat)
    (c : Cursor) : Prop where
  fba : c.fba = x
  fs : c.fs = fs
  events : c.events = events
  root : c.path.root = t
  leaf : ∃ i l, c.getLeaf = .ok (some l) ∧ IsPred Leaf.block x ls i l

/-- `move_next`, `k` times. -/
def moves : Nat → CursorM Unit
  | 0 => pure ()
  | k + 1 => do
    moveNext
    moves k

variable {fs : FileSystem} {events : List Event} {t : ExtentTree} {ls : List Leaf} {c : Cursor}
  {x : Nat} {l0 : Leaf}

theorem At.current (h : c.At fs events t ls x) (ho : Ordered ls) :
    c.current = .ok (lookup ls x) := by
  obtain ⟨i, l, hleaf, hpred⟩ := h.leaf
  rw [Cursor.current, hleaf, ho.lookup_eq hpred, h.fba]
  rfl

/-- One step: the extent stays while it covers the next block, else the path is
    loaded again. -/
theorem At.moveNext (h : c.At fs events t ls x) (hwf : WellFormed fs.blocks t ls) (ho : Ordered ls)
    (h0 : ls.head? = some l0) (hle : l0.block ≤ x) (hx : x + 1 < 2 ^ 32) :
    ∃ c', Cursor.moveNext c = (.ok (), c') ∧ c'.At fs events t ls (x + 1) := by
  obtain ⟨i, l, hleaf, hpred⟩ := h.leaf
  obtain ⟨ns, ht⟩ := hwf.tree
  have hstep : Cursor.moveNext c =
      (if x + 1 < l.block ∨ l.block + l.len ≤ x + 1 then
        Path.load (x + 1) { c with fba := x + 1 }
      else (.ok (), { c with fba := x + 1 })) := by
    simp only [Cursor.moveNext, advance, bind_apply, get_apply, lift_apply, hleaf, h.fba, if_pos hx,
      modify_apply]
    split <;> rfl
  rw [hstep]
  split
  case isTrue hout =>
    obtain ⟨c', j, l', hload, hfba, hfs, hev, hroot, hleaf', hpred'⟩ :=
      Path.load_spec (c := { c with fba := x + 1 }) (x + 1) (by rw [h.fs, h.root]; exact ht)
        (by rw [h.root]; exact hwf.depth_le) ho.ascending h0 (show l0.block ≤ x + 1 by omega)
    exact ⟨c', hload, hfba, hfs.trans h.fs, hev.trans h.events, hroot.trans h.root, j, l', hleaf',
      hpred'⟩
  case isFalse hin =>
    refine ⟨_, rfl, rfl, h.fs, h.events, h.root, i, l, hleaf, ?_⟩
    -- Still inside the extent, so the next extent starts above.
    obtain ⟨l1, l2, rfl, hi, hlex, -⟩ := hpred
    refine ⟨l1, l2, rfl, hi, by omega, fun b hb => ?_⟩
    have := (List.pairwise_cons.mp (List.pairwise_append.mp ho).2.1).1 b hb
    omega

theorem At.moves (h : c.At fs events t ls x) (hwf : WellFormed fs.blocks t ls) (ho : Ordered ls)
    (h0 : ls.head? = some l0) (hle : l0.block ≤ x) {k : Nat} (hk : x + k < 2 ^ 32) :
    ∃ c', Cursor.moves k c = (.ok (), c') ∧ c'.At fs events t ls (x + k) := by
  induction k generalizing c x with
  | zero => exact ⟨c, rfl, h⟩
  | succ k ih =>
      obtain ⟨c1, h1, hat⟩ := h.moveNext hwf ho h0 hle (by omega)
      obtain ⟨c2, h2, hat2⟩ := ih hat (by omega) (by omega)
      refine ⟨c2, ?_, by rwa [show x + (k + 1) = x + 1 + k by omega]⟩
      rw [Cursor.moves, bind_of_ok h1]
      exact h2

end Cursor

variable {fs : FileSystem} {t : ExtentTree} {ls : List Leaf} {l0 : Leaf} {fba : Nat}

/-- A read cursor starts at the predecessor, from the cache or from the root. -/
theorem cursorFromFba_at (hwf : WellFormed fs.blocks t ls) (ho : Ordered ls)
    (h0 : ls.head? = some l0) (hle : l0.block ≤ fba) (hcache : ∀ l, t.cache = some l → l ∈ ls)
    (events : List Event) (noload : Nat → Bytes) (ino : Nat) :
    ∃ c, t.cursorFromFba fs events noload ino fba = (.ok (), c) ∧ c.At fs events t ls fba := by
  have hfresh : ∃ c, Path.load fba (t.emptyCursor fs events noload ino fba) = (.ok (), c) ∧
      c.At fs events t ls fba := by
    obtain ⟨ns, ht⟩ := hwf.tree
    obtain ⟨c', j, l, hload, hfba, hfs, hev, hroot, hleaf, hpred⟩ :=
      Path.load_spec (c := t.emptyCursor fs events noload ino fba) fba ht hwf.depth_le ho.ascending
        h0 hle
    exact ⟨c', hload, hfba, hfs, hev, hroot, j, l, hleaf, hpred⟩
  rw [ExtentTree.cursorFromFba, ExtentTree.openAt]
  split
  next l hl =>
    by_cases hc : l.contains (t.emptyCursor fs events noload ino fba).fba
    · rw [if_pos hc]
      obtain ⟨i, hpred⟩ := ho.isPred_of_mem (hcache l hl) hc
      exact ⟨_, rfl, rfl, rfl, rfl, rfl, i, l, Cursor.getLeaf_of_cache rfl, hpred⟩
    · rw [if_neg hc]
      exact hfresh
  · exact hfresh

/-- Below the first extent a read cursor cannot be opened: the search panics. -/
theorem cursorFromFba_below (hwf : WellFormed fs.blocks t ls) (ho : Ordered ls)
    (h0 : ls.head? = some l0) (hlt : fba < l0.block) (hcache : ∀ l, t.cache = some l → l ∈ ls)
    (events : List Event) (noload : Nat → Bytes) (ino : Nat) :
    (t.cursorFromFba fs events noload ino fba).1 = .error .panic := by
  obtain ⟨ns, ht⟩ := hwf.tree
  have hfresh : (Path.load fba (t.emptyCursor fs events noload ino fba)).1 = .error .panic := by
    have hload : Path.loadMut fba (t.emptyCursor fs events noload ino fba) =
        (.error .panic, t.emptyCursor fs events noload ino fba) := by
      rw [Path.loadMut_eq, show (t.emptyCursor fs events noload ino fba).path.root = t from rfl,
        ht.search_below ho.ascending h0 hlt]
      rfl
    rw [Path.load, bind_of_error hload]
  have hout : ∀ l ∈ ls, ¬ l.contains fba := by
    intro l hl hc
    obtain ⟨rest, rfl⟩ := List.head?_eq_some_iff.mp h0
    have hfrom := (Leaf.contains_iff.mp hc).1
    obtain rfl | hmem := List.mem_cons.mp hl
    · omega
    · have := ((List.pairwise_cons.mp ho).1 l hmem).1
      omega
  rw [ExtentTree.cursorFromFba, ExtentTree.openAt]
  split
  next l hl =>
    have hno : ¬ l.contains (t.emptyCursor fs events noload ino fba).fba := hout l (hcache l hl)
    rw [if_neg hno]
    exact hfresh
  · exact hfresh

/-! ## Trees of one level -/

/-- A child of a root of depth 1. -/
theorem leafNode_spec {b : Bytes} {l : Leaf} {ls : List Leaf}
    (hs : (ExtentHeader.node b).Shows 0 ((l :: ls).map .leaf))
    (hasc : Ascending Leaf.block (l :: ls))
    (blocks : Nat → Option Bytes) :
    Tree blocks 0 (.node b) (l :: ls) [] ∧
      (ExtentHeader.node b).get 0 = .ok (some (.leaf l)) :=
  ⟨⟨hs, List.cons_ne_nil _ _, hasc, rfl⟩, by rw [hs.get]; rfl⟩

/-- Two leaf nodes in blocks 100 and 200. -/
def twoBlocks (b1 b2 : Bytes) (lba : Nat) : Option Bytes :=
  if lba = 100 then some b1 else if lba = 200 then some b2 else none

/-- The file system with these blocks. -/
def fsOf (blocks : Nat → Option Bytes) : FileSystem := { BlockRuns.twoFree with blocks := blocks }

/-- It is mounted where the block bitmap is still there. -/
theorem mounted_fsOf {blocks : Nat → Option Bytes} (h : blocks 2 = BlockRuns.twoFree.blocks 2) :
    BlockRuns.Mounted (fsOf blocks) := by
  apply BlockRuns.mounted_twoFree.withBlocks
  intro g lba hlba
  simp only [FileSystem.bitmapLba, BlockRuns.twoFree] at hlba
  split at hlba
  next =>
    obtain rfl := Option.some.inj hlba
    exact h
  next => cases hlba

/-- There is a tree of two leaf nodes with these extents. -/
theorem exists_twoLeafs (l1 l2 : Leaf) (ls1 ls2 : List Leaf) (h12 : l1.block < l2.block)
    (hasc1 : Ascending Leaf.block (l1 :: ls1)) (hasc2 : Ascending Leaf.block (l2 :: ls2))
    (hlen1 : (l1 :: ls1).length ≤ 340) (hlen2 : (l2 :: ls2).length ≤ 340)
    (henc : ∀ l ∈ (l1 :: ls1) ++ (l2 :: ls2), l.block < 2 ^ 32 ∧ l.start < 2 ^ 48 ∧
      l.isInit = true ∧ l.len < 2 ^ 15) :
    ∃ t b1 b2, t.depth = 1 ∧ t.cache = none ∧ t.maxEntriesCnt = 4 ∧ t.b.length = 48 ∧
      (ExtentHeader.tree t).Shows 1 [.internal ⟨l1.block, 100⟩, .internal ⟨l2.block, 200⟩] ∧
      (ExtentHeader.node b1).Shows 0 ((l1 :: ls1).map .leaf) ∧
      (ExtentHeader.node b2).Shows 0 ((l2 :: ls2).map .leaf) ∧
      ExtentHeader.fromBytes b1 = .ok (.node b1) ∧ ExtentHeader.fromBytes b2 = .ok (.node b2) ∧
      Tree (twoBlocks b1 b2) 1 (.tree t) ((l1 :: ls1) ++ (l2 :: ls2)) [100, 200] := by
  have hleafs : ∀ ls : List Leaf, (∀ l ∈ ls, l.block < 2 ^ 32 ∧ l.start < 2 ^ 48 ∧
      l.isInit = true ∧ l.len < 2 ^ 15) → ls.length ≤ 340 →
      ∃ b : Bytes, ExtentHeader.fromBytes b = .ok (.node b) ∧
        (ExtentHeader.node b).Shows 0 (ls.map .leaf) := by
    intro ls hls hlen
    obtain ⟨b, -, hm, -, hs⟩ := ExtentHeader.exists_node 4096 0 (ls.map .leaf) (by decide)
      (by decide) (by decide) (by simpa using hlen)
      fun b hb e he => by
        obtain ⟨l, hl, rfl⟩ := List.mem_map.mp he
        obtain ⟨h1, h2, h3, h4⟩ := hls l hl
        exact ExtentHeader.encodable_of_init hb h1 h2 h3 h4
    exact ⟨b, hm, hs⟩
  obtain ⟨b1, hm1, hs1⟩ := hleafs (l1 :: ls1) (fun l hl => henc l (List.mem_append_left _ hl)) hlen1
  obtain ⟨b2, hm2, hs2⟩ :=
    hleafs (l2 :: ls2) (fun l hl => henc l (List.mem_append_right _ hl)) hlen2
  have hk1 := (henc l1 (by simp)).1
  have hk2 := (henc l2 (by simp)).1
  obtain ⟨t, htd, htmax, htlen, htc, hts⟩ := ExtentHeader.exists_tree 1
    [.internal ⟨l1.block, 100⟩, .internal ⟨l2.block, 200⟩] (by simp) fun e he => by
      simp only [List.mem_cons, List.not_mem_nil, or_false] at he
      rcases he with rfl | rfl
      · exact ⟨Nat.one_pos, hk1, show 100 < 2 ^ 48 by decide⟩
      · exact ⟨Nat.one_pos, hk2, show 200 < 2 ^ 48 by decide⟩
  refine ⟨t, b1, b2, htd, htc, htmax, htlen, hts, hs1, hs2, hm1, hm2,
    [⟨⟨l1.block, 100⟩, l1 :: ls1, []⟩, ⟨⟨l2.block, 200⟩, l2 :: ls2, []⟩], hts, by simp, ?_, by simp,
    by simp, fun c hc => ?_⟩
  · exact List.pairwise_pair.mpr h12
  · simp only [List.mem_cons, List.not_mem_nil, or_false] at hc
    rcases hc with rfl | rfl
    · obtain ⟨h1, h2⟩ := leafNode_spec hs1 hasc1 (twoBlocks b1 b2)
      exact ⟨b1, .leaf l1, rfl, hm1, h1, h2, rfl⟩
    · obtain ⟨h1, h2⟩ := leafNode_spec hs2 hasc2 (twoBlocks b1 b2)
      exact ⟨b2, .leaf l2, rfl, hm2, h1, h2, rfl⟩

/-! ## What a read cursor reads -/

/-- A read cursor opened at a file block and moved on `k` blocks reads what the map of
    the tree says there, from a path as from a cached extent of the tree. -/
theorem cursor_reads_lookup (hwf : WellFormed fs.blocks t ls) (ho : Ordered ls)
    (h0 : ls.head? = some l0) (hle : l0.block ≤ fba) (hcache : ∀ l, t.cache = some l → l ∈ ls)
    {k : Nat} (hk : fba + k < 2 ^ 32) (events : List Event) (noload : Nat → Bytes)
    (ino : Nat) :
    ∃ c0 c, t.cursorFromFba fs events noload ino fba = (.ok (), c0) ∧
      Cursor.moves k c0 = (.ok (), c) ∧ c.current = .ok (lookup ls (fba + k)) := by
  obtain ⟨c0, hopen, hat⟩ := cursorFromFba_at hwf ho h0 hle hcache events noload ino
  obtain ⟨c, hmoves, hat'⟩ := hat.moves hwf ho h0 hle hk
  exact ⟨c0, c, hopen, hmoves, hat'.current ho⟩

/-- The extents [0, 5) and [10, 15), read from block 3 on. -/
theorem cursor_reads_lookup_twoLeafs : ∃ (blocks : Nat → Option Bytes) (t : ExtentTree)
    (c0 c : Cursor), t.cursorFromFba (fsOf blocks) [] (fun _ => []) 12 3 = (.ok (), c0) ∧
      Cursor.moves 8 c0 = (.ok (), c) ∧ c.current = .ok (some (.initialized 301)) := by
  obtain ⟨t, b1, b2, htd, htc, -, -, -, -, -, -, -, ht⟩ := exists_twoLeafs
    { block := 0, start := 100, len := 5, isInit := true }
    { block := 10, start := 300, len := 5, isInit := true } [] []
    (by decide) (List.pairwise_singleton ..) (List.pairwise_singleton ..) (by decide) (by decide)
    (by decide)
  obtain ⟨c0, c, hopen, hmoves, hcur⟩ := @cursor_reads_lookup (fsOf (twoBlocks b1 b2)) t _ _ 3
    ⟨⟨_, by rw [htd]; exact ht⟩, by rw [htd]; decide,
      List.pairwise_pair.mpr (Leaf.not_both_contain (by decide)), by decide⟩
    (List.pairwise_pair.mpr (by decide)) rfl (by decide) (fun l hl => by rw [htc] at hl; cases hl)
    8 (by decide) [] (fun _ => []) 12
  exact ⟨_, t, c0, c, hopen, hmoves, hcur⟩

/-- Keys of a child that pass the next key of the parent: the extents [0, 5) and
    [20, 25) in one leaf node and [10, 15) in the next do not overlap, and block 20 is
    read as a hole. -/
theorem cursor_misses_extent : ∃ (blocks : Nat → Option Bytes) (t : ExtentTree) (ls : List Leaf)
    (c0 : Cursor), WellFormed blocks t ls ∧ (∃ l, ls.head? = some l ∧ l.block ≤ 20) ∧
      t.cache = none ∧ lookup ls 20 = some (.initialized 200) ∧
      t.cursorFromFba (fsOf blocks) [] (fun _ => []) 12 20 = (.ok (), c0) ∧
      c0.current = .ok none := by
  obtain ⟨t, b1, b2, htd, htc, -, -, hts, -, hs2, -, hm2, ht⟩ := exists_twoLeafs
    { block := 0, start := 100, len := 5, isInit := true }
    { block := 10, start := 300, len := 5, isInit := true }
    [{ block := 20, start := 200, len := 5, isInit := true }] []
    (by decide) (List.pairwise_pair.mpr (by decide)) (List.pairwise_singleton ..) (by decide)
    (by decide) (by decide)
  obtain ⟨i, e, hroot, hrootGet, hpred⟩ := ExtentHeader.binarySearch_spec 20 hts
    (List.pairwise_pair.mpr (by decide)) rfl (by decide)
  obtain rfl : Entry.internal ⟨10, 200⟩ = e := Option.some.inj (hpred.last (by decide)).2
  obtain ⟨j, e, hnode, hnodeGet, hpred⟩ := ExtentHeader.binarySearch_spec 20 hs2
    (List.pairwise_singleton ..) rfl (by decide)
  obtain rfl : Entry.leaf { block := 10, start := 300, len := 5, isInit := true } = e :=
    Option.some.inj (hpred.last (by decide)).2
  -- The search takes the second child, whose only extent ends at block 15.
  let c : Cursor := t.emptyCursor (fsOf (twoBlocks b1 b2)) [] (fun _ => []) 12 20
  let c0 : Cursor := { c with path := { c.path with rootIdx := some i, leafs := [(200, some j)] } }
  have hload : Path.loadMut 20 c = (.ok (), c0) := by
    rw [Path.loadMut_eq, show c.path.root = t from rfl]
    simp only [hroot, ExtentHeader.getAt, hrootGet, htd, Path.descend_internal]
    rw [show c.fs.blocks 200 = some b2 from rfl]
    simp only [hm2, hnode, hnodeGet]
    rfl
  have hopen : t.cursorFromFba (fsOf (twoBlocks b1 b2)) [] (fun _ => []) 12 20 = (.ok (), c0) := by
    rw [ExtentTree.cursorFromFba, ExtentTree.openAt, htc]
    exact (bind_of_ok hload).trans rfl
  have hstands : c0.Stands (some (.leaf { block := 10, start := 300, len := 5, isInit := true })) :=
    ⟨_, hrootGet, _, b2, _, rfl, rfl, rfl, hnodeGet, rfl⟩
  refine ⟨twoBlocks b1 b2, t, _, c0, ⟨⟨_, by rw [htd]; exact ht⟩, by rw [htd]; decide, ?_,
    by decide⟩, ⟨_, rfl, by decide⟩, htc, by decide, hopen, ?_⟩
  · exact List.Pairwise.imp (R := fun a b : Leaf => a.block + a.len ≤ b.block ∨
      b.block + b.len ≤ a.block) Leaf.not_both_contain (by decide)
  · rw [Cursor.current, hstands.getLeaf rfl]
    rfl

end RustExt4.Inode.Extent
