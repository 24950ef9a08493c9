/-
  RustExt4.Inode.Extent.Removal

  `Path::truncate_last` and `Path::move_prev_with_cleanup` on the right edge of a
  tree: the last extent becomes shorter or goes, and with the last extent of a
  leaf node go the node and the parents that have no other child.
-/
import RustExt4.Inode.Extent.Sound
import RustExt4.Inode.Extent.Insertion

namespace RustExt4.Inode.Extent

open StateExcept
open Transaction (Event)
open Predecessor (Ascending)
open LeBytes (SameOn)

/-! ## Trees along their right edge -/

/-- The tree of depth `d` under `h`: the extents of its last leaf node, which may be
    empty, those left of them, the blocks of the nodes, and the path to the last node. -/
def Edge (blocks : Nat → Option Bytes) :
    Nat → ExtentHeader → List Leaf → List Leaf → List Nat → List (Nat × Option Nat) → Prop
  | 0, h, pre, last, ns, path =>
    h.Shows 0 (last.map .leaf) ∧ Ascending Leaf.block last ∧ pre = [] ∧ ns = [] ∧ path = []
  | d + 1, h, pre, last, ns, path =>
    ∃ (cs : List Child) (c : Child) (b : Bytes) (pre' : List Leaf)
      (path' : List (Nat × Option Nat)),
      h.Shows (d + 1) ((cs ++ [c]).map fun c => .internal c.entry) ∧
      Ascending (fun c => c.entry.block) (cs ++ [c]) ∧ (∀ c ∈ cs, c.Holds blocks d) ∧
      blocks c.entry.nextNode = some b ∧ ExtentHeader.fromBytes b = .ok (.node b) ∧
      Edge blocks d (.node b) pre' last c.nodes path' ∧
      (∀ l, (pre' ++ last).head? = some l → l.block = c.entry.block) ∧
      pre = cs.flatMap Child.leafs ++ pre' ∧
      ns = cs.flatMap (fun c => c.entry.nextNode :: c.nodes) ++ c.entry.nextNode :: c.nodes ∧
      path = (c.entry.nextNode, some ((ExtentHeader.node b).entriesCnt - 1)) :: path'

section
variable {blocks : Nat → Option Bytes} {d : Nat} {h : ExtentHeader} {ls pre last : List Leaf}
  {ns : List Nat} {path : List (Nat × Option Nat)}

theorem Tree.edge (ht : Tree blocks d h ls ns) :
    ∃ pre last, ls = pre ++ last ∧ last ≠ [] ∧
      (rightNode blocks d h).Shows 0 (last.map .leaf) ∧
      Edge blocks d h pre last ns (rightPath blocks d h) := by
  -- On the depth; the edge goes down through the last child.
  induction d generalizing h ls ns with
  | zero =>
      obtain ⟨hs, hne, hasc, hns⟩ := ht
      exact ⟨[], ls, rfl, hne, hs, hs, hasc, rfl, hns, rfl⟩
  | succ d ih =>
      obtain ⟨cs, c, hs, hkeys, rfl, rfl, hcs, ⟨b, e, hb, hm, hsub, hget, hkey⟩, hlast⟩ :=
        ht.lastChild
      obtain ⟨pre', last, hsplit, hne, hnode, hedge⟩ := ih hsub
      obtain ⟨l0, e0, hhead, hget0, hkey0⟩ := hsub.head
      refine ⟨cs.flatMap Child.leafs ++ pre', last, by rw [hsplit, List.append_assoc], hne, ?_,
        cs, c, b, pre', _, hs, hkeys, hcs, hb, hm, hedge, fun l hl => ?_, rfl, rfl, ?_⟩
      · simp only [rightNode, hlast, hb]
        exact hnode
      · rw [← hsplit, hhead] at hl
        rw [hget] at hget0
        obtain rfl : e = e0 := Option.some.inj (Except.ok.inj hget0)
        exact Option.some.inj hl ▸ hkey0.symm.trans hkey
      · simp only [rightPath, hlast, hb]

/-- The last index of each node leads down the right edge. -/
theorem Tree.descend_last (ht : Tree blocks d h ls ns) :
    ∃ e, h.get (h.entriesCnt - 1) = .ok (some e) ∧
      ∀ c : Cursor, c.fs.blocks = blocks → c.path.leafs.length + d ≤ 5 →
        ∃ r, Path.descend Path.pickLast d (some e) c =
          (.ok r, Path.pushed c (rightPath blocks d h)) := by
  -- On the depth.
  induction d generalizing h ls ns with
  | zero =>
      obtain ⟨hs, hne, -, -⟩ := ht
      have hpos : 0 < ls.length := List.length_pos_iff.mpr hne
      have hlast : h.get (h.entriesCnt - 1) = .ok (some (.leaf (ls.getLast hne))) := by
        rw [hs.get, hs.entriesCnt, List.length_map, List.getElem?_map, List.getLast_eq_getElem,
          List.getElem?_eq_getElem (by omega)]
        rfl
      refine ⟨.leaf (ls.getLast hne), hlast, fun c _ _ => ⟨some (.leaf (ls.getLast hne)), ?_⟩⟩
      simp [Path.descend, Path.pushed, rightPath]
  | succ d ih =>
      obtain ⟨cs, c, -, -, -, -, -, ⟨b, e, hb, hm, hsub, -, -⟩, hlast⟩ := ht.lastChild
      obtain ⟨e', hget', hdesc⟩ := ih hsub
      refine ⟨_, hlast, fun c0 hblocks hlen => ?_⟩
      -- The child has an entry to go on with.
      have hcnt : (ExtentHeader.node b).entriesCnt ≠ 0 := by
        obtain ⟨es, hs, hne, -⟩ := hsub.exists_shows
        rw [hs.entriesCnt]
        exact fun h0 => hne (List.length_eq_zero_iff.mp h0)
      have hpick : Path.pickLast (.node b) = .ok (some ((ExtentHeader.node b).entriesCnt - 1)) :=
        if_neg hcnt
      obtain ⟨r, hrun⟩ := hdesc (Path.pushed c0 [(c.entry.nextNode, _)]) hblocks (by simp; omega)
      refine ⟨r, ?_⟩
      rw [Path.descend_internal, hblocks, hb]
      simp only [hm, hpick, ExtentHeader.getAt, hget']
      rw [if_pos (by omega), hrun]
      simp [Path.pushed, rightPath, hlast, hb]

/-- With an extent in the last node it is a tree. -/
theorem Edge.tree (he : Edge blocks d h pre last ns path) (hne : last ≠ []) :
    Tree blocks d h (pre ++ last) ns := by
  induction d generalizing h pre ns path with
  | zero =>
      obtain ⟨hs, hasc, rfl, rfl, -⟩ := he
      exact ⟨hs, hne, hasc, rfl⟩
  | succ d ih =>
      obtain ⟨cs, c, b, pre', path', hs, hkeys, hcs, hb, hm, hsub, hkey, rfl, rfl, -⟩ := he
      have ht := ih hsub
      obtain ⟨l0, e0, hhead, hget0, hkey0⟩ := ht.head
      rw [List.append_assoc]
      exact Tree.of_lastChild hs hkeys hcs
        ⟨b, e0, hb, hm, ht, hget0, hkey0.trans (hkey l0 hhead)⟩

theorem Edge.ascending (he : Edge blocks d h pre last ns path) : Ascending Leaf.block last := by
  induction d generalizing h pre ns path with
  | zero => exact he.2.1
  | succ d ih =>
      obtain ⟨cs, c, b, pre', path', -, -, -, -, -, hsub, -⟩ := he
      exact ih hsub

/-- What the path of an edge consists of. -/
theorem Edge.length_path (he : Edge blocks d h pre last ns path) : path.length = d := by
  induction d generalizing h pre ns path with
  | zero => obtain ⟨-, -, -, -, rfl⟩ := he; rfl
  | succ d ih =>
      obtain ⟨cs, c, b, pre', path', -, -, -, -, -, hsub, -, -, -, rfl⟩ := he
      rw [List.length_cons, ih hsub]

theorem Edge.mem_path (he : Edge blocks d h pre last ns path) :
    ∀ n ∈ path, n.1 ∈ ns := by
  induction d generalizing h pre ns path with
  | zero =>
      obtain ⟨-, -, -, -, rfl⟩ := he
      exact fun n hn => nomatch hn
  | succ d ih =>
      obtain ⟨cs, c, b, pre', path', -, -, -, -, -, hsub, -, -, rfl, rfl⟩ := he
      intro n hn
      apply List.mem_append_right
      rcases List.mem_cons.mp hn with rfl | hn
      · exact List.mem_cons_self
      · exact List.mem_cons_of_mem _ (ih hsub n hn)

/-- Another last node can take the place of the one in its block, also an empty one. -/
theorem Edge.replace (he : Edge blocks (d + 1) h pre last ns path) (hnd : ns.Nodup) :
    ∃ p b path0, path = path0 ++ [(p, some (last.length - 1))] ∧ blocks p = some b ∧
      ExtentHeader.fromBytes b = .ok (.node b) ∧ (ExtentHeader.node b).Shows 0 (last.map .leaf) ∧
      ∀ b' last', ExtentHeader.fromBytes b' = .ok (.node b') →
        (ExtentHeader.node b').Shows 0 (last'.map .leaf) → Ascending Leaf.block last' →
        (∀ l, last'.head? = some l → ∃ l0, last.head? = some l0 ∧ l.block = l0.block) →
        Edge (Function.update blocks p (some b')) (d + 1) h pre last' ns
          (path0 ++ [(p, some (last'.length - 1))]) := by
  -- On the depth; at depth 0 the child is the node that is exchanged.
  induction d generalizing h pre ns path with
  | zero =>
      obtain ⟨cs, c, b, pre', path', hs, hkeys, hcs, hb, hm, ⟨hsub, hasc, rfl, hnil, rfl⟩, hkey,
        rfl, rfl, rfl⟩ := he
      obtain ⟨-, -, hcross⟩ := List.nodup_append.mp hnd
      have hcnt : (ExtentHeader.node b).entriesCnt = last.length := by
        rw [hsub.entriesCnt, List.length_map]
      refine ⟨c.entry.nextNode, b, [], by rw [hcnt]; rfl, hb, hm, hsub, ?_⟩
      intro b' last' hm' hs' hasc' hhead
      have hcnt' : (ExtentHeader.node b').entriesCnt = last'.length := by
        rw [hs'.entriesCnt, List.length_map]
      refine ⟨cs, c, b', [], [], hs, hkeys, fun c' hc' => (hcs c' hc').congr fun n hn => ?_,
        Function.update_self .., hm', ⟨hs', hasc', rfl, hnil, rfl⟩, fun l hl => ?_, rfl, rfl, ?_⟩
      · refine Function.update_of_ne (hcross n ?_ _ List.mem_cons_self) _ _
        exact List.mem_flatMap.mpr ⟨c', hc', List.mem_cons.mpr hn⟩
      · obtain ⟨l0, hl0, heq⟩ := hhead l hl
        exact heq.trans (hkey l0 hl0)
      · rw [hcnt']
        rfl
  | succ d ih =>
      obtain ⟨cs, c, b, pre', path', hs, hkeys, hcs, hb, hm, hsub, hkey, rfl, rfl, rfl⟩ := he
      obtain ⟨-, hnd2, hcross⟩ := List.nodup_append.mp hnd
      obtain ⟨hself, hndc⟩ := List.nodup_cons.mp hnd2
      obtain ⟨p, bp, path0, rfl, hbp, hmp, hsp, hrep⟩ := ih hsub hndc
      have hp : p ∈ c.nodes :=
        hsub.mem_path _ (List.mem_append_right _ (List.mem_singleton.mpr rfl))
      refine ⟨p, bp, _ :: path0, rfl, hbp, hmp, hsp, ?_⟩
      intro b' last' hm' hs' hasc' hhead
      refine ⟨cs, c, b, pre', _, hs, hkeys, fun c' hc' => (hcs c' hc').congr fun n hn => ?_, ?_, hm,
        hrep b' last' hm' hs' hasc' hhead, fun l hl => ?_, rfl, rfl, rfl⟩
      · -- The nodes left of the edge are not the one that is exchanged.
        refine Function.update_of_ne (hcross n ?_ p (List.mem_cons_of_mem _ hp)) _ _
        exact List.mem_flatMap.mpr ⟨c', hc', List.mem_cons.mpr hn⟩
      · rw [Function.update_of_ne (ne_of_mem_of_not_mem hp hself).symm, hb]
      · cases pre' with
        | nil =>
            obtain ⟨l0, hl0, heq⟩ := hhead l hl
            exact heq.trans (hkey l0 hl0)
        | cons l1 pre' => exact hkey l hl

end

/-! ## Fewer entries -/

namespace ExtentHeader

variable {h : ExtentHeader} {d k : Nat} {es : List Entry}

/-- A smaller count leaves the first entries. -/
theorem setEntriesCnt_shows (hs : h.Shows d es) (hne : es ≠ []) (hk : k ≤ es.length) :
    h.Like (h.setEntriesCnt k) ∧ (h.setEntriesCnt k).Shows d (es.take k) := by
  obtain ⟨hd, hcnt, hall⟩ := shows_iff.mp hs
  -- The count is in the header, before every entry.
  have hin := (hall 0 _ (List.getElem?_eq_getElem (List.length_pos_iff.mpr hne))).1
  have hset : h.Like (h.setEntriesCnt k) ∧ (h.setEntriesCnt k).entriesCnt = k ∧
      ∀ lo hi, h.base ≤ lo → SameOn (h.setEntriesCnt k).bytes h.bytes lo hi := by
    cases h with
    | tree t => exact ⟨⟨rfl, rfl, rfl, rfl⟩, rfl, fun lo hi _ => SameOn.refl t.b lo hi⟩
    | node b =>
        have hlt : (node b).entriesCnt < 2 ^ 16 := ByteRw.readU16_lt b 2
        exact like_setEntriesCnt (by omega) (by omega)
  obtain ⟨hl, hcnt', hsame⟩ := hset
  refine ⟨hl, shows_iff.mpr ⟨hl.depth.trans hd, ?_, fun i e hi => ?_⟩⟩
  · rw [hcnt', List.length_take]
    omega
  · -- Only entries below the count are read.
    have hik : i < k := by
      by_contra hge
      rw [List.getElem?_take_eq_none (by omega)] at hi
      cases hi
    rw [List.getElem?_take_of_lt hik] at hi
    obtain ⟨hlen, hdec⟩ := hall i e hi
    rw [hl.base, hl.length, decode_congr hl (hsame _ _ (by omega))]
    exact ⟨hlen, hdec⟩

theorem readsBack_shorter {v n block start : Nat} (hv : v < 2 ^ 16) (hpos : 0 < n)
    (hn : n ≤ (h.decodeLen v).1) :
    n < 2 ^ 16 ∧ h.ReadsBack (.leaf ⟨block, start, n, (h.decodeLen v).2⟩) := by
  cases h with
  | tree t =>
      have hmod : n ≤ v % 2 ^ 15 := hn
      exact ⟨by omega, show n < 2 ^ 15 by omega⟩
  | node b =>
      by_cases hfull : v ≤ 2 ^ 15
      · simp only [ReadsBack, decodeLen, if_pos hfull, if_true] at hn ⊢
        omega
      · simp only [ReadsBack, decodeLen, if_neg hfull, Bool.false_eq_true, if_false] at hn ⊢
        omega

theorem Shows.len_lt {l : Leaf} (hs : h.Shows 0 es) (hl : .leaf l ∈ es) : l.len < 2 ^ 16 := by
  obtain ⟨hd, -, hall⟩ := shows_iff.mp hs
  obtain ⟨i, hi⟩ := List.mem_iff_getElem?.mp hl
  obtain ⟨-, hdec⟩ := hall i _ hi
  rw [decode, if_pos hd] at hdec
  obtain rfl := Entry.leaf.inj hdec
  have hv := ByteRw.readU16_lt h.bytes (h.base + 12 * i + 4)
  cases h with
  | tree t =>
      show _ % 2 ^ 15 < 2 ^ 16
      omega
  | node b =>
      simp only [decodeLen]
      split <;> dsimp only <;> omega

/-- A shorter extent is read back where the longer one was. -/
theorem Shows.encodable_shorter {l : Leaf} {n : Nat} (hs : h.Shows 0 es) (hl : .leaf l ∈ es)
    (hpos : 0 < n) (hn : n ≤ l.len) : h.Encodable (.leaf { l with len := n }) := by
  obtain ⟨hd, -, hall⟩ := shows_iff.mp hs
  obtain ⟨i, hi⟩ := List.mem_iff_getElem?.mp hl
  obtain ⟨-, hdec⟩ := hall i _ hi
  rw [decode, if_pos hd] at hdec
  obtain rfl := Entry.leaf.inj hdec
  have hhi := ByteRw.readU16_lt h.bytes (h.base + 12 * i + 6)
  have hlo := ByteRw.readU32_lt h.bytes (h.base + 12 * i + 8)
  obtain ⟨hn16, hback⟩ := readsBack_shorter (ByteRw.readU16_lt ..) hpos hn
  refine ⟨hd, ByteRw.readU32_lt .., ?_, lenField_lt hn16, (decodeLen_lenField hn16).mpr hback⟩
  simp only [mergeU32]
  omega

end ExtentHeader

/-! ## What a removal changes -/

namespace Cursor

/-- The cursor keeps its position, its file and the depth of its root. -/
structure Kept (c c' : Cursor) : Prop where
  fba : c'.fba = c.fba
  ino : c'.path.ino = c.path.ino
  depth : c'.path.root.depth = c.path.root.depth
  sb : c'.fs.sb = c.fs.sb
  groups : c'.fs.blockGroups = c.fs.blockGroups
  cache : c.path.cache = none → c'.path.cache = none

variable {c c' c'' : Cursor} {k j : Nat} {nd nd' : ExtentHeader} {idx : Option Nat}

theorem Kept.refl (c : Cursor) : c.Kept c := ⟨rfl, rfl, rfl, rfl, rfl, id⟩

theorem Kept.trans (h : c.Kept c') (h' : c'.Kept c'') : c.Kept c'' :=
  ⟨h'.fba.trans h.fba, h'.ino.trans h.ino, h'.depth.trans h.depth, h'.sb.trans h.sb,
    h'.groups.trans h.groups, fun h0 => h'.cache (h.cache h0)⟩

theorem Kept.groupsLoaded (h : c.Kept c') (hg : c.fs.GroupsLoaded) : c'.fs.GroupsLoaded := by
  unfold FileSystem.GroupsLoaded at hg ⊢
  rw [h.sb, h.groups]
  exact hg

theorem store_leafs (c : Cursor) (k : Nat) (nd : ExtentHeader) :
    (c.store k nd).path.leafs = c.path.leafs := by
  cases k <;> cases nd <;> try rfl
  simp only [store]
  split <;> rfl

/-- A node that is written over one of its kind. -/
theorem store_kept (hlevel : c.level k = .ok (nd, idx)) (hlike : nd.Like nd') :
    c.Kept (c.store k nd') := by
  cases k with
  | zero =>
      obtain ⟨rfl, rfl⟩ := Prod.mk.inj (Except.ok.inj hlevel)
      cases nd' with
      | node b => cases hlike
      | tree t => exact ⟨rfl, rfl, hlike.2.1, rfl, rfl, id⟩
  | succ k =>
      cases nd' with
      | tree t => exact Kept.refl c
      | node b =>
          simp only [store]
          split
          · exact ⟨rfl, rfl, rfl, rfl, rfl, id⟩
          · exact Kept.refl c

theorem setIdx_kept (c : Cursor) (k : Nat) (idx : Option Nat) : c.Kept (c.setIdx k idx) := by
  cases k <;> exact ⟨rfl, rfl, rfl, rfl, rfl, id⟩

theorem len_setIdx (c : Cursor) (k : Nat) (idx : Option Nat) : (c.setIdx k idx).len = c.len := by
  cases k with
  | zero => rfl
  | succ k => simp [setIdx, len]

/-- It is found at its level. -/
theorem level_store (hlevel : c.level k = .ok (nd, idx)) (hlike : nd.Like nd') :
    (c.store k nd').level k = .ok (nd', idx) := by
  cases k with
  | zero =>
      obtain ⟨rfl, rfl⟩ := Prod.mk.inj (Except.ok.inj hlevel)
      cases nd' with
      | node b => cases hlike
      | tree t => rfl
  | succ k =>
      simp only [level] at hlevel
      split at hlevel
      next => cases hlevel
      next lba idx' hleaf =>
        split at hlevel
        next => cases hlevel
        next b hb =>
          obtain ⟨rfl, rfl⟩ := Prod.mk.inj (Except.ok.inj hlevel)
          cases nd' with
          | tree t => cases hlike
          | node b' => simp only [store, hleaf, level, Function.update_self]

/-- The block of the level is the only one that changes. -/
theorem store_blocks (c : Cursor) (k : Nat) (nd : ExtentHeader) {n : Nat}
    (hn : ∀ x, c.path.leafs[k - 1]? = some x → 0 < k → n ≠ x.1) :
    (c.store k nd).fs.blocks n = c.fs.blocks n := by
  cases k with
  | zero => cases nd <;> rfl
  | succ k =>
      cases nd with
      | tree t => rfl
      | node b =>
          simp only [store]
          split
          next lba idx hleaf => exact Function.update_of_ne (hn _ hleaf (Nat.succ_pos k)) _ _
          next => rfl

/-- No block occurs twice in the path. -/
theorem leafs_index_inj (hnd : (c.path.leafs.map Prod.fst).Nodup) {i j : Nat}
    {x y : Nat × Option Nat} (hx : c.path.leafs[i]? = some x) (hy : c.path.leafs[j]? = some y)
    (hxy : x.1 = y.1) : i = j := by
  have hi : (c.path.leafs.map Prod.fst)[i]? = some x.1 := by
    rw [List.getElem?_map, hx]
    rfl
  have hj : (c.path.leafs.map Prod.fst)[j]? = some x.1 := by
    rw [List.getElem?_map, hy, hxy]
    rfl
  exact (List.getElem?_inj (List.getElem?_eq_some_iff.mp hi).1 hnd).mp (hi.trans hj.symm)

/-- The levels above are the same, if no block occurs twice in the path. -/
theorem level_store_of_lt (hjk : j < k) (hnd : (c.path.leafs.map Prod.fst).Nodup) :
    (c.store k nd).level j = c.level j := by
  cases j with
  | zero =>
      cases k with
      | zero => exact absurd hjk (Nat.lt_irrefl 0)
      | succ k =>
          cases nd with
          | tree t => rfl
          | node b =>
              simp only [store, level]
              split <;> rfl
  | succ j =>
      simp only [level, store_leafs]
      cases hleaf : c.path.leafs[j]? with
      | none => rfl
      | some x =>
          obtain ⟨lba, idx⟩ := x
          dsimp only
          rw [store_blocks c k nd]
          intro y hy _ heq
          -- A path goes through no node twice.
          have hsame := leafs_index_inj hnd hleaf hy heq
          omega

end Cursor

/-! ## Empty nodes -/

namespace Path

variable {c : Cursor} {k i lba : Nat} {front rest : List (Nat × Option Nat)} {nd : ExtentHeader}
  {b : Bytes} {e : Internal}

/-- The cursor with a shorter path. -/
abbrev popped (c : Cursor) (front : List (Nat × Option Nat)) (events : List Event) : Cursor :=
  { c with path := { c.path with leafs := front }, events := events }

theorem level_popped (hleafs : c.path.leafs = front ++ rest) (hk : k ≤ front.length)
    (events : List Event) : (popped c front events).level k = c.level k := by
  cases k with
  | zero => rfl
  | succ k => simp only [Cursor.level, hleafs, List.getElem?_append_left hk]

/-- One round of the loop at an empty node: it is given back, and the loop goes on with
    the parent only if that has no other child. -/
theorem cleanup_succ (hleafs : c.path.leafs = front ++ [(lba, some 0)]) (hlen : front.length = k)
    (hb : c.fs.blocks lba = some b) (hcnt : (ExtentHeader.node b).entriesCnt = 0)
    (hlevel : c.level k = .ok (nd, some i)) (hi : i + 1 = nd.entriesCnt)
    (hget : nd.get i = .ok (some (.internal e))) (hnext : e.nextNode = lba)
    (hg : c.fs.GroupsLoaded) (hhas : c.fs.sb.HasBlock lba) :
    ∃ new, new.flatMap (Event.freed c.fs.sb) = [lba] ∧
      cleanup (k + 1) c =
        if i ≠ 0 then
          (.ok true, (popped c front (c.events ++ new)).store k (nd.setEntriesCnt i))
        else cleanup k ((popped c front (c.events ++ new)).store k (nd.setEntriesCnt i)) := by
  have hone : ∀ x ∈ Set.Ico lba (lba + 1), c.fs.sb.HasBlock x := fun x hx =>
    Nat.le_antisymm (Nat.le_of_lt_succ hx.2) hx.1 ▸ hhas
  -- The emptied node is given back.
  obtain ⟨new, hrun, hfreed⟩ := FileSystem.deallocate_covers hg c.path.ino hone c.events
  have hlast : c.path.leafs.getLast? = some (lba, some 0) := by rw [hleafs]; simp
  have hdrop : c.path.leafs.dropLast = front := by rw [hleafs]; simp
  have hbottom : c.level (k + 1) = .ok (.node b, some 0) := by
    simp only [Cursor.level, hleafs]
    rw [List.getElem?_append_right (by omega), hlen, Nat.sub_self]
    simp only [List.getElem?_cons_zero, hb]
  -- Its parent is the last node of the path now.
  have hparent := (level_popped hleafs hlen.ge c.events).trans hlevel
  refine ⟨new, hfreed, ?_⟩
  rw [cleanup, get_bind, hlast]
  dsimp only
  rw [lift_bind_of_ok hbottom, modify_bind, hcnt, if_pos rfl, get_bind, hdrop,
    lift_bind_of_ok hparent]
  dsimp only
  rw [lift_bind_of_ok (show unwrap (some i) = .ok i from rfl), if_neg (not_not.mpr hi),
    lift_bind_of_ok hget, lift_bind_of_ok (show unwrap _ = .ok e.nextNode from rfl),
    if_neg (not_not.mpr hnext)]
  -- And the slot that led to it is the parent's last.
  have hfree : deallocate c.path.ino lba 1 (popped c front c.events) =
      (.ok (), popped c front (c.events ++ new)) := by
    unfold deallocate
    rw [hrun]
  rw [bind_of_ok hfree, modify_bind]
  split <;> rfl

/-- The part of the tree from level `k` on has lost empty nodes. -/
structure Swept (c c1 : Cursor) (k : Nat) (front : List (Nat × Option Nat)) (ns : List Nat)
    (h h1 : ExtentHeader) (new : List Event) : Prop where
  kept : c.Kept c1
  events : c1.events = c.events ++ new
  freed : ∀ n ∈ new.flatMap (Event.freed c.fs.sb), n ∈ ns
  like : h.Like h1
  above : ∀ j < k, c1.level j = c.level j
  blocks : ∀ n, n ∉ front.map Prod.fst → n ∉ ns → c1.fs.blocks n = c.fs.blocks n

theorem level_append {c : Cursor} {k : Nat} {front path : List (Nat × Option Nat)} {lba : Nat}
    {idx : Option Nat} {b : Bytes} (hleafs : c.path.leafs = front ++ (lba, idx) :: path)
    (hlen : front.length = k) (hb : c.fs.blocks lba = some b) :
    c.level (k + 1) = .ok (.node b, idx) := by
  simp only [Cursor.level, hleafs]
  rw [List.getElem?_append_right (by omega), hlen, Nat.sub_self]
  simp only [List.getElem?_cons_zero, hb]

theorem block_of_level {c : Cursor} {k : Nat} {front path : List (Nat × Option Nat)} {lba : Nat}
    {idx idx' : Option Nat} {nd : ExtentHeader}
    (hleafs : c.path.leafs = front ++ (lba, idx) :: path) (hlen : front.length = k)
    (hlevel : c.level (k + 1) = .ok (nd, idx')) :
    ∃ b, c.fs.blocks lba = some b ∧ nd = .node b ∧ idx' = idx := by
  simp only [Cursor.level, hleafs] at hlevel
  rw [List.getElem?_append_right (by omega), hlen, Nat.sub_self] at hlevel
  simp only [List.getElem?_cons_zero] at hlevel
  cases hb : c.fs.blocks lba with
  | none =>
      rw [hb] at hlevel
      cases hlevel
  | some b =>
      rw [hb] at hlevel
      obtain ⟨rfl, rfl⟩ := Prod.mk.inj (Except.ok.inj hlevel)
      exact ⟨b, rfl, rfl, rfl⟩

/-- Below level `k` the loop takes the empty last node of a tree out: it ends where a parent
    keeps another child, or comes to level `k` with no entry left. -/
theorem cleanup_edge {d : Nat} {h : ExtentHeader} {pre : List Leaf} {ns : List Nat}
    {path : List (Nat × Option Nat)} (he : Edge c.fs.blocks d h pre [] ns path)
    (hlevel : c.level k = .ok (h, some (h.entriesCnt - 1))) (hleafs : c.path.leafs = front ++ path)
    (hlen : front.length = k) (hnd : (front.map Prod.fst ++ ns).Nodup)
    (hg : c.fs.GroupsLoaded) (hhas : ∀ n ∈ ns, c.fs.sb.HasBlock n) :
    ∃ c1 h1 new, Swept c c1 k front ns h h1 new ∧
      (pre ≠ [] ∧ cleanup (k + d) c = (.ok true, c1) ∧
          (∃ path1 idx1, c1.path.leafs = front ++ path1 ∧ c1.level k = .ok (h1, idx1)) ∧
          (∃ ns1, Tree c1.fs.blocks d h1 pre ns1) ∧
          (∃ nd i, c1.level (c1.len - 1) = .ok (nd, some i) ∧ nd.get i = .ok none) ∨
        pre = [] ∧ cleanup (k + d) c = cleanup k c1 ∧ c1.path.leafs = front ∧
          c1.level k = .ok (h1, some 0) ∧ h1.entriesCnt = 0) := by
  induction d generalizing k h pre ns front path with
  | zero =>
      obtain ⟨hs, -, rfl, rfl, rfl⟩ := he
      have hcnt : h.entriesCnt = 0 := hs.entriesCnt
      rw [hcnt] at hlevel
      refine ⟨c, h, [], ⟨Cursor.Kept.refl c, by simp, fun n hn => (nomatch hn),
        ExtentHeader.Like.refl h, fun _ _ => rfl, fun _ _ _ => rfl⟩,
        Or.inr ⟨rfl, rfl, by simpa using hleafs, hlevel, hcnt⟩⟩
  | succ d ih =>
      obtain ⟨cs, ch, b, pre', path', hs, hkeys, hcs, hb, hm, hsub, hkey, rfl, rfl, rfl⟩ := he
      -- The child is at the next level, and the path down to it has no block twice.
      have hlevel' := level_append hleafs hlen hb
      let front' := front ++ [(ch.entry.nextNode, some ((ExtentHeader.node b).entriesCnt - 1))]
      have hfront' : front'.map Prod.fst = front.map Prod.fst ++ [ch.entry.nextNode] := by
        simp [front']
      obtain ⟨hndf, hndn, hcross⟩ := List.nodup_append.mp hnd
      obtain ⟨-, hndc, hcross'⟩ := List.nodup_append.mp hndn
      obtain ⟨hself, hndc⟩ := List.nodup_cons.mp hndc
      have hnd' : (front'.map Prod.fst ++ ch.nodes).Nodup := by
        rw [hfront', List.append_assoc]
        exact hnd.sublist (List.Sublist.append_left (List.sublist_append_right _ _) _)
      obtain ⟨c1, h1, new, hsw, hcase⟩ :=
        @ih (k + 1) front' (.node b) pre' ch.nodes path' hsub hlevel'
        (by rw [hleafs, List.append_assoc]; rfl) (by simp [front', hlen]) hnd'
        fun n hn => hhas n (by simp [hn])
      -- The trees left of the child keep their blocks.
      have hleft : ∀ n ∈ cs.flatMap (fun c => c.entry.nextNode :: c.nodes),
          c1.fs.blocks n = c.fs.blocks n := by
        intro n hn
        apply hsw.blocks n
        · rw [hfront', List.mem_append, List.mem_singleton]
          rintro (hmem | rfl)
          · exact hcross n hmem n (by simp [hn]) rfl
          · exact hcross' _ hn _ List.mem_cons_self rfl
        · exact fun hmem => hcross' n hn n (List.mem_cons_of_mem _ hmem) rfl
      have hcs1 : ∀ c' ∈ cs, c'.Holds c1.fs.blocks d := fun c' hc' =>
        (hcs c' hc').congr fun n hn =>
          hleft n (List.mem_flatMap.mpr ⟨c', hc', List.mem_cons.mpr hn⟩)
      have hblocks1 : ∀ n, n ∉ front.map Prod.fst →
          n ∉ cs.flatMap (fun c => c.entry.nextNode :: c.nodes) ++ ch.entry.nextNode :: ch.nodes →
          c1.fs.blocks n = c.fs.blocks n := by
        intro n hn1 hn2
        apply hsw.blocks n
        · rw [hfront', List.mem_append, List.mem_singleton]
          rintro (hmem | rfl)
          · exact hn1 hmem
          · exact hn2 (by simp)
        · exact fun hmem => hn2 (by simp [hmem])
      have hcnt : h.entriesCnt = cs.length + 1 := by
        rw [hs.entriesCnt, List.length_map, List.length_append, List.length_singleton]
      have hlevel1 : c1.level k = .ok (h, some cs.length) := by
        rw [hsw.above k (Nat.lt_succ_self k), hlevel, hcnt]
        rfl
      rw [show k + (d + 1) = k + 1 + d by omega]
      rcases hcase with ⟨hpre, hrun, ⟨path1, idx1, hleafs1, hlev1⟩, ⟨ns1, htree1⟩, hbottom⟩ |
        ⟨rfl, hrun, hleafs1, hlev1, hempty⟩
      · -- The child keeps extents, so nothing happens at level `k`.
        have hleafs1' : c1.path.leafs = front ++
            (ch.entry.nextNode, some ((ExtentHeader.node b).entriesCnt - 1)) :: path1 := by
          rw [hleafs1, List.append_assoc]
          rfl
        obtain ⟨b1, hb1, rfl, -⟩ := block_of_level hleafs1' hlen hlev1
        obtain ⟨l0, e0, hhead, hget0, hkey0⟩ := htree1.head
        rw [List.append_nil] at hkey
        have hholds : Child.Holds c1.fs.blocks d { ch with leafs := pre', nodes := ns1 } :=
          ⟨b1, e0, hb1, hsw.like.fromBytes hm, htree1, hget0, hkey0.trans (hkey l0 hhead)⟩
        have htree := Tree.of_lastChild hs hkeys hcs1 hholds
        refine ⟨c1, h, new, ⟨hsw.kept, hsw.events, fun n hn => ?_, ExtentHeader.Like.refl h,
          fun j hj => hsw.above j (by omega), hblocks1⟩, Or.inl ⟨?_, hrun,
          ⟨_, _, hleafs1', hlevel1⟩, ⟨_, htree⟩, hbottom⟩⟩
        · have := hsw.freed n hn
          simp [this]
        · simp [hpre]
      · -- The child is empty: it goes, and with it the last entry of the parent.
        obtain ⟨b1, hb1, rfl, hidx⟩ := @block_of_level _ _ _ [] _ _ _ _ hleafs1 hlen hlev1
        have hleafs1' : c1.path.leafs = front ++ [(ch.entry.nextNode, some 0)] := by
          rw [hleafs1, hidx]
        have hget : h.get cs.length = .ok (some (.internal ch.entry)) := by
          rw [hs.get]
          simp
        obtain ⟨new2, hfreed2, hstep⟩ := cleanup_succ hleafs1' hlen hb1 hempty hlevel1 hcnt.symm
          hget rfl (hsw.kept.groupsLoaded hg) (by rw [hsw.kept.sb]; exact hhas _ (by simp))
        obtain ⟨hlike, hshows⟩ := ExtentHeader.setEntriesCnt_shows hs (by simp) (k := cs.length)
          (by simp)
        have htake : ((cs ++ [ch]).map fun c => Entry.internal c.entry).take cs.length =
            cs.map fun c => Entry.internal c.entry := by simp
        rw [htake] at hshows
        have hlevelp := (level_popped hleafs1' hlen.ge (c1.events ++ new2)).trans hlevel1
        let c2 := (popped c1 front (c1.events ++ new2)).store k (h.setEntriesCnt cs.length)
        have hleafs2 : c2.path.leafs = front := Cursor.store_leafs ..
        have hlevel2 : c2.level k = .ok (h.setEntriesCnt cs.length, some cs.length) :=
          Cursor.level_store hlevelp hlike
        have hfront : ∀ n, n ∉ front.map Prod.fst → c2.fs.blocks n = c1.fs.blocks n := by
          intro n hn
          apply Cursor.store_blocks
          intro x hx _ heq
          exact hn (List.mem_map.mpr ⟨x, List.mem_of_getElem? hx, heq.symm⟩)
        have hsw2 : Swept c c2 k front (cs.flatMap (fun c => c.entry.nextNode :: c.nodes) ++
            ch.entry.nextNode :: ch.nodes) h (h.setEntriesCnt cs.length) (new ++ new2) := by
          have hkept : c1.Kept (popped c1 front (c1.events ++ new2)) :=
            ⟨rfl, rfl, rfl, rfl, rfl, id⟩
          refine ⟨(hsw.kept.trans hkept).trans (Cursor.store_kept hlevelp hlike), ?_, ?_, hlike,
            fun j hj => ?_, fun n hn1 hn2 => (hfront n hn1).trans (hblocks1 n hn1 hn2)⟩
          · rw [Cursor.store_events, hsw.events, List.append_assoc]
          · intro n hn
            rw [List.flatMap_append, ← hsw.kept.sb, hfreed2, hsw.kept.sb] at hn
            rcases List.mem_append.mp hn with hn | hn
            · have := hsw.freed n hn
              simp [this]
            · obtain rfl := List.mem_singleton.mp hn
              simp
          · rw [Cursor.level_store_of_lt hj hndf, level_popped hleafs1' (by omega),
              hsw.above j (by omega)]
        refine ⟨c2, _, new ++ new2, hsw2, ?_⟩
        rw [hrun, hstep]
        by_cases hne : cs = []
        · subst hne
          exact Or.inr ⟨rfl, rfl, hleafs2, hlevel2, hshows.entriesCnt⟩
        · left
          have hcs2 : ∀ c' ∈ cs, c'.Holds c2.fs.blocks d := fun c' hc' =>
            (hcs1 c' hc').congr fun n hn => by
              apply hfront
              intro hmem
              have hin : n ∈ cs.flatMap (fun c => c.entry.nextNode :: c.nodes) :=
                List.mem_flatMap.mpr ⟨c', hc', List.mem_cons.mpr hn⟩
              exact hcross n hmem n (List.mem_append_left _ hin) rfl
          have htree : Tree c2.fs.blocks (d + 1) (h.setEntriesCnt cs.length)
              (cs.flatMap Child.leafs) (cs.flatMap fun c => c.entry.nextNode :: c.nodes) :=
            ⟨cs, hshows, hne, hkeys.sublist (List.sublist_append_left _ _), rfl, rfl, hcs2⟩
          have hbottom : c2.len - 1 = k := by
            rw [Cursor.len, hleafs2, hlen]
            omega
          refine ⟨?_, if_pos (by simpa using hne), ⟨[], _, by simpa using hleafs2, hlevel2⟩,
            ⟨_, by simpa using htree⟩, _, _, by rw [hbottom]; exact hlevel2, ?_⟩
          · obtain ⟨l, e, hhead, -⟩ := htree.head
            rw [List.append_nil]
            intro hnil
            rw [hnil] at hhead
            cases hhead
          · rw [hshows.get]
            simp

end Path

/-! ## The last node -/

namespace Cursor

variable {c : Cursor} {pre last last' m : List Leaf} {ns : List Nat} {L : Leaf} {k n : Nat}
  {nd nd' : ExtentHeader} {idx : Option Nat}

theorem setIdx_self (hlevel : c.level k = .ok (nd, idx)) : c.setIdx k idx = c := by
  cases k with
  | zero =>
      obtain ⟨-, rfl⟩ := Prod.mk.inj (Except.ok.inj hlevel)
      rfl
  | succ k =>
      simp only [level] at hlevel
      split at hlevel
      next => cases hlevel
      next lba idx' hleaf =>
        split at hlevel
        next => cases hlevel
        next b hb =>
          obtain ⟨-, rfl⟩ := Prod.mk.inj (Except.ok.inj hlevel)
          -- The index that is set is the one the path has there.
          have hsame : (c.path.leafs.modify k fun n => (n.1, idx')) = c.path.leafs := by
            apply List.ext_getElem?
            intro j
            rw [List.getElem?_modify]
            by_cases hj : k = j
            · subst hj
              simp [hleaf]
            · simp [hj]
          simp only [setIdx, hsame]

theorem setIdx_last {p : Nat} {front : List (Nat × Option Nat)}
    (hleafs : c.path.leafs = front ++ [(p, idx)]) (idx' : Option Nat) :
    c.setIdx (c.len - 1) idx' =
      { c with path := { c.path with leafs := front ++ [(p, idx')] } } := by
  have hlen : c.len - 1 = front.length + 1 := by
    rw [len, hleafs, List.length_append, List.length_singleton]
    omega
  have hmodify : ∀ front : List (Nat × Option Nat),
      ((front ++ [(p, idx)]).modify front.length fun n => (n.1, idx')) = front ++ [(p, idx')] := by
    intro front
    induction front with
    | nil => rfl
    | cons x front ih => simp [ih]
  rw [hlen]
  simp only [setIdx, hleafs, hmodify]

/-- The tree of the cursor has these extents, or its root is empty. -/
def Maps (c : Cursor) (ls : List Leaf) : Prop :=
  ls = [] ∧ c.path.root.entriesCnt = 0 ∨
    ∃ ns, Tree c.fs.blocks c.path.root.depth (.tree c.path.root) ls ns

/-- The node at the end of a path along the right edge, and what takes its place: the
    root, or the block that the last node of the tree lies in. -/
theorem setLast
    (he : Edge c.fs.blocks c.path.root.depth (.tree c.path.root) pre last ns c.path.leafs)
    (hroot : c.path.rootIdx = some (c.path.root.entriesCnt - 1)) (hnd : ns.Nodup) :
    ∃ nd, c.level (c.len - 1) = .ok (nd, some (last.length - 1)) ∧
      nd.Shows 0 (last.map .leaf) ∧
      (nd = .tree c.path.root ∧
          (∀ t, c.store (c.len - 1) (.tree t) = { c with path := { c.path with root := t } }) ∨
        ∃ p b, p ∈ ns ∧ c.fs.blocks p = some b ∧ nd = .node b ∧
          ∀ b', c.store (c.len - 1) (.node b') =
            { c with fs := { c.fs with blocks := Function.update c.fs.blocks p (some b') } }) ∧
      ∀ nd' last', nd.Like nd' → nd'.Shows 0 (last'.map .leaf) → Ascending Leaf.block last' →
        (∀ l, last'.head? = some l → ∃ l0, last.head? = some l0 ∧ l.block = l0.block) →
        ∀ c1, c1 = (c.store (c.len - 1) nd').setIdx (c.len - 1) (some (last'.length - 1)) →
          Edge c1.fs.blocks c1.path.root.depth (.tree c1.path.root) pre last' ns c1.path.leafs ∧
          c1.path.rootIdx = some (c1.path.root.entriesCnt - 1) := by
  -- The last node is the root, or the node at the end of the path.
  cases hd : c.path.root.depth with
  | zero =>
      rw [hd] at he
      obtain ⟨hs, hasc, rfl, rfl, hleafs⟩ := he
      have hlen : c.len - 1 = 0 := by rw [len, hleafs]; rfl
      have hcnt : c.path.root.entriesCnt = last.length :=
        hs.entriesCnt.trans (List.length_map ..)
      rw [hlen]
      refine ⟨.tree c.path.root, ?_, hs, Or.inl ⟨rfl, fun _ => rfl⟩, ?_⟩
      · rw [level, hroot, hcnt]
      · rintro nd' last' hlike hs' hasc' hhead c1 rfl
        cases nd' with
        | node b => cases hlike
        | tree t =>
            have hcnt' : t.entriesCnt = last'.length := hs'.entriesCnt.trans (List.length_map ..)
            have hd' : t.depth = 0 := hlike.2.1.trans hd
            constructor
            · show Edge c.fs.blocks t.depth (.tree t) [] last' [] c.path.leafs
              rw [hd', hleafs]
              exact ⟨hs', hasc', rfl, rfl, rfl⟩
            · show some (last'.length - 1) = some (t.entriesCnt - 1)
              rw [hcnt']
  | succ d =>
      rw [hd] at he
      have hmem := he.mem_path
      obtain ⟨p, b, front, hleafs, hb, hm, hs, hrep⟩ := he.replace hnd
      have hlast : c.path.leafs.getLast? = some (p, some (last.length - 1)) := by
        rw [hleafs]
        simp
      have hp : p ∈ ns := hmem _ (List.mem_of_getLast? hlast)
      refine ⟨.node b, level_last hlast hb, hs,
        Or.inr ⟨p, b, hp, hb, rfl, fun b' => store_last hlast⟩, ?_⟩
      rintro nd' last' hlike hs' hasc' hhead c1 rfl
      cases nd' with
      | tree t => cases hlike
      | node b' =>
          rw [store_last hlast]
          have hset := setIdx_last (c := { c with
            fs := { c.fs with blocks := Function.update c.fs.blocks p (some b') } }) hleafs
            (some (last'.length - 1))
          have hlen : Cursor.len { c with
              fs := { c.fs with blocks := Function.update c.fs.blocks p (some b') } } = c.len := rfl
          rw [hlen] at hset
          rw [hset]
          refine ⟨?_, hroot⟩
          show Edge _ c.path.root.depth (.tree c.path.root) pre last' ns _
          rw [hd]
          exact hrep b' last' (hlike.fromBytes hm) hs' hasc' hhead

/-- The path of the cursor is the right edge of a tree in blocks of loaded groups. -/
structure OnEdge (c : Cursor) (pre last : List Leaf) (ns : List Nat) : Prop where
  edge : Edge c.fs.blocks c.path.root.depth (.tree c.path.root) pre last ns c.path.leafs
  rootIdx : c.path.rootIdx = some (c.path.root.entriesCnt - 1)
  cache : c.path.cache = none
  nodup : ns.Nodup
  groups : c.fs.GroupsLoaded
  nodes : ∀ n ∈ ns, c.fs.sb.HasBlock n
  data : ∀ l ∈ last, l.isInit = true → ∀ x ∈ Set.Ico l.start (l.start + l.len), c.fs.sb.HasBlock x

theorem OnEdge.setLast (h : c.OnEdge pre last ns) :
    ∃ nd, c.level (c.len - 1) = .ok (nd, some (last.length - 1)) ∧
      nd.Shows 0 (last.map .leaf) ∧
      ∀ nd' last', nd.Like nd' → nd'.Shows 0 (last'.map .leaf) → Ascending Leaf.block last' →
        (∀ l, last'.head? = some l → ∃ l0, last.head? = some l0 ∧ l.block = l0.block) →
        (∀ l ∈ last', l.isInit = true → ∀ x ∈ Set.Ico l.start (l.start + l.len),
          c.fs.sb.HasBlock x) →
        ((c.store (c.len - 1) nd').setIdx (c.len - 1) (some (last'.length - 1))).OnEdge
          pre last' ns := by
  obtain ⟨hedge, hroot, hcache, hnd, hg, hnodes, hdata⟩ := h
  obtain ⟨nd, hlevel, hs, -, hset⟩ := Cursor.setLast hedge hroot hnd
  refine ⟨nd, hlevel, hs, fun nd' last' hlike hs' hasc' hhead hdata' => ?_⟩
  obtain ⟨hedge', hroot'⟩ := hset nd' last' hlike hs' hasc' hhead _ rfl
  have hkept := (store_kept hlevel hlike).trans
    (setIdx_kept (c.store (c.len - 1) nd') (c.len - 1) (some (last'.length - 1)))
  refine ⟨hedge', hroot', hkept.cache hcache, hnd, hkept.groupsLoaded hg, ?_, ?_⟩
  · rw [hkept.sb]
    exact hnodes
  · rw [hkept.sb]
    exact hdata'

/-- The leaf of the path is the last extent. -/
theorem OnEdge.getLeaf (h : c.OnEdge pre (m ++ [L]) ns) : c.getLeaf = .ok (some L) := by
  obtain ⟨nd, hlevel, hs, -⟩ := h.setLast
  have hget : nd.getAt (some ((m ++ [L]).length - 1)) = .ok (some (.leaf L)) := by
    rw [ExtentHeader.getAt, hs.get]
    simp
  simp only [Cursor.getLeaf, h.cache, hlevel, hget]
  rfl

end Cursor

/-- The blocks of an initialized extent from its `n`-th block on. -/
def Leaf.tail (l : Leaf) (n : Nat) : List Nat :=
  if l.isInit then List.range' (l.start + n) (l.len - n) else []

namespace Path

variable {c : Cursor} {pre m : List Leaf} {ns : List Nat} {L : Leaf} {n : Nat}

/-- The blocks behind the new end are given back before the last node is written. -/
theorem truncateLast_eq (h : c.OnEdge pre (m ++ [L]) ns) (hn : n ≤ L.len) :
    ∃ (new : List Event) (c1 : Cursor), new.flatMap (Event.freed c.fs.sb) = L.tail n ∧
      c1.OnEdge pre (m ++ [L]) ns ∧ c.Kept c1 ∧ c1.events = c.events ++ new ∧
      ∀ nd, c1.level (c1.len - 1) = .ok (nd, some m.length) →
        (0 < n → ∀ nd', nd.replaceAt (.leaf { L with len := n }) m.length = .ok nd' →
          truncateLast n c = (.ok (), c1.store (c1.len - 1) nd')) ∧
        (n = 0 → truncateLast n c =
          movePrevWithCleanup (c1.store (c1.len - 1) (nd.setEntriesCnt (nd.entriesCnt - 1)))) := by
  have hdata : L.isInit = true → ∀ x ∈ Set.Ico (L.start + n) (L.start + n + (L.len - n)),
      c.fs.sb.HasBlock x := fun hi x hx =>
    h.data L (by simp) hi x ⟨by have := hx.1; omega, by have := hx.2; omega⟩
  obtain ⟨new, hfreed, hrun⟩ : ∃ new : List Event, new.flatMap (Event.freed c.fs.sb) = L.tail n ∧
      (L.isInit = true → c.fs.deallocate c.events c.path.ino (L.start + n) (L.len - n) =
        (.ok (), c.events ++ new)) ∧ (L.isInit = false → new = []) := by
    cases hi : L.isInit with
    | false => exact ⟨[], by simp [Leaf.tail, hi], by simp, fun _ => rfl⟩
    | true =>
        obtain ⟨new, hrun, hfreed⟩ :=
          FileSystem.deallocate_covers h.groups c.path.ino (hdata hi) c.events
        exact ⟨new, by rw [hfreed, Leaf.tail, if_pos hi], fun _ => hrun, by simp⟩
  let c1 : Cursor := { c with path := { c.path with cache := none }, events := c.events ++ new }
  have hedge : c1.OnEdge pre (m ++ [L]) ns :=
    ⟨h.edge, h.rootIdx, rfl, h.nodup, h.groups, h.nodes, h.data⟩
  refine ⟨new, c1, hfreed, hedge, ⟨rfl, rfl, rfl, rfl, rfl, fun _ => rfl⟩, rfl, fun nd hnd => ?_⟩
  -- Both ways to the last node.
  have hrest : ∀ r : Except Fault Unit × Cursor, r = truncateEntry L n c1 →
      (0 < n → ∀ nd', nd.replaceAt (.leaf { L with len := n }) m.length = .ok nd' →
        r = (.ok (), c1.store (c1.len - 1) nd')) ∧
      (n = 0 → r =
        movePrevWithCleanup (c1.store (c1.len - 1) (nd.setEntriesCnt (nd.entriesCnt - 1)))) := by
    rintro r rfl
    rw [truncateEntry, get_bind, lift_bind_of_ok hnd]
    dsimp only
    constructor
    · intro hpos nd' hrep
      rw [if_pos (by omega), lift_bind_of_ok (show unwrap (some m.length) = .ok m.length from rfl),
        lift_bind_of_ok hrep]
      rfl
    · intro hzero
      rw [if_neg (by omega), modify_bind]
  apply hrest
  unfold truncateLast
  rw [get_bind, lift_bind_of_ok h.getLeaf, lift_bind_of_ok (show unwrap (some L) = .ok L from rfl),
    clearCache, modify_bind]
  by_cases hi : L.isInit = true
  · have hdealloc : deallocate c.path.ino (L.start + n) (L.len - n)
        { c with path := { c.path with cache := none } } = (.ok (), c1) := by
      unfold deallocate
      rw [hrun.1 hi]
    rw [if_pos hi, if_neg (Nat.not_lt.mpr hn), bind_of_ok hdealloc]
  · obtain rfl := hrun.2 (by simpa using hi)
    rw [if_neg hi]
    have hsame : c1 = { c with path := { c.path with cache := none } } := by simp [c1]
    rw [hsame]

/-- The last extent becomes shorter. -/
theorem truncateLast_pos (h : c.OnEdge pre (m ++ [L]) ns) (hpos : 0 < n) (hn : n ≤ L.len) :
    ∃ (c' : Cursor) (new : List Event), truncateLast n c = (.ok (), c') ∧
      c'.OnEdge pre (m ++ [{ L with len := n }]) ns ∧ c.Kept c' ∧ c'.events = c.events ++ new ∧
      new.flatMap (Event.freed c.fs.sb) = L.tail n := by
  obtain ⟨new, c1, hfreed, hedge, hkept, hev, hsteps⟩ := truncateLast_eq h hn
  obtain ⟨nd, hlevel, hs, hset⟩ := hedge.setLast
  have hidx : (m ++ [L]).length - 1 = m.length := by simp
  rw [hidx] at hlevel
  obtain ⟨nd', hrep, hlike, hs'⟩ := ExtentHeader.replaceAt_spec hs (i := m.length) (by simp)
    (hs.encodable_shorter (List.mem_map_of_mem (by simp)) hpos hn)
  -- The last entry alone changes, and keeps its block.
  have hmap : ((m ++ [L]).map Entry.leaf).set m.length (.leaf { L with len := n }) =
      (m ++ [{ L with len := n }]).map .leaf := by simp
  rw [hmap] at hs'
  have hedge' := hset nd' (m ++ [{ L with len := n }]) hlike hs' (by
    have hasc := hedge.edge.ascending
    simpa [Ascending, List.pairwise_append] using hasc) (by
    intro l hl
    cases m with
    | nil => exact ⟨L, rfl, by cases hl; rfl⟩
    | cons l0 m => exact ⟨l, hl, rfl⟩) (by
    intro l hl hi x hx
    rcases List.mem_append.mp hl with hl | hl
    · exact hedge.data l (List.mem_append_left _ hl) hi x hx
    · obtain rfl := List.mem_singleton.mp hl
      have hlow : L.start ≤ x := hx.1
      have hhigh : x < L.start + n := hx.2
      exact hedge.data L (by simp) hi x ⟨hlow, by omega⟩)
  have hstored := Cursor.level_store hlevel hlike
  rw [List.length_append, List.length_singleton, Nat.add_sub_cancel,
    Cursor.setIdx_self hstored] at hedge'
  refine ⟨_, new, (hsteps nd hlevel).1 hpos nd' hrep, hedge',
    hkept.trans (Cursor.store_kept hlevel hlike), ?_, hfreed⟩
  rw [Cursor.store_events, hev]

/-- An index above 0 in the last node ends the loop at once. -/
theorem cleanup_pos {nd : ExtentHeader} {i : Nat}
    (hlevel : c.level c.path.leafs.length = .ok (nd, some (i + 1))) :
    cleanup c.path.leafs.length c = (.ok true, c.setIdx c.path.leafs.length (some i)) := by
  rcases List.eq_nil_or_concat c.path.leafs with hnil | ⟨front, ⟨lba, idx⟩, hconcat⟩
  · rw [hnil] at hlevel ⊢
    obtain ⟨-, hroot⟩ := Prod.mk.inj (Except.ok.inj hlevel)
    show cleanup 0 c = _
    rw [cleanup, get_bind, hroot]
    rfl
  · rw [List.concat_eq_append] at hconcat
    have hlen : c.path.leafs.length = front.length + 1 := by
      rw [hconcat, List.length_append, List.length_singleton]
    rw [hlen] at hlevel ⊢
    obtain ⟨b, -, -, hidx⟩ := @block_of_level _ _ _ [] _ _ _ _ hconcat rfl hlevel
    rw [cleanup, get_bind, hconcat, List.getLast?_append, List.getLast?_singleton]
    dsimp only [Option.or]
    rw [← hidx]
    rfl

/-- The node at the end of the path without its last extent. -/
theorem truncateLast_zero_eq (h : c.OnEdge pre (m ++ [L]) ns) :
    ∃ (c2 : Cursor) (new : List Event) (nd : ExtentHeader),
      truncateLast 0 c = movePrevWithCleanup c2 ∧
      c2.level (c2.len - 1) = .ok (nd, some m.length) ∧ nd.Shows 0 (m.map .leaf) ∧
      (c2.setIdx (c2.len - 1) (some (m.length - 1))).OnEdge pre m ns ∧ c.Kept c2 ∧
      c2.events = c.events ++ new ∧ new.flatMap (Event.freed c.fs.sb) = L.tail 0 := by
  obtain ⟨new, c1, hfreed, hedge, hkept, hev, hsteps⟩ := truncateLast_eq h (Nat.zero_le _)
  obtain ⟨nd, hlevel, hs, hset⟩ := hedge.setLast
  have hidx : (m ++ [L]).length - 1 = m.length := by simp
  rw [hidx] at hlevel
  obtain ⟨hlike, hs'⟩ := ExtentHeader.setEntriesCnt_shows hs (by simp) (k := m.length) (by simp)
  rw [← List.map_take, List.take_left] at hs'
  -- The last entry is cut off by the count; the index still points behind the new end.
  have hcnt : nd.entriesCnt - 1 = m.length := by rw [hs.entriesCnt, List.length_map, hidx]
  have hedge' := hset _ m hlike hs' (hedge.edge.ascending.sublist (List.sublist_append_left _ _))
    (fun x hx => ⟨x, by rw [List.head?_append, hx]; rfl, rfl⟩)
    fun x hx => hedge.data x (List.mem_append_left _ hx)
  have hlen : (c1.store (c1.len - 1) (nd.setEntriesCnt m.length)).len = c1.len := by
    rw [Cursor.len, Cursor.store_leafs]
    rfl
  refine ⟨c1.store (c1.len - 1) (nd.setEntriesCnt m.length), new, _, ?_, ?_, hs', ?_,
    hkept.trans (Cursor.store_kept hlevel hlike), ?_, hfreed⟩
  · rw [(hsteps nd hlevel).2 rfl, hcnt]
  · rw [hlen]
    exact Cursor.level_store hlevel hlike
  · rw [hlen]
    exact hedge'
  · rw [Cursor.store_events, hev]

/-- The last extent goes, and its node has others. -/
theorem truncateLast_zero (h : c.OnEdge pre (m ++ [L]) ns) (hm : m ≠ []) :
    ∃ (c' : Cursor) (new : List Event), truncateLast 0 c = (.ok (), c') ∧
      c'.OnEdge pre m ns ∧ c.Kept c' ∧ c'.events = c.events ++ new ∧
      new.flatMap (Event.freed c.fs.sb) = L.tail 0 := by
  obtain ⟨c2, new, nd, hrun, hlevel, hs, hedge, hkept, hev, hfreed⟩ := truncateLast_zero_eq h
  -- The node has an entry left, so `cleanup` only moves the index.
  obtain ⟨i, hi⟩ : ∃ i, m.length = i + 1 :=
    Nat.exists_eq_succ_of_ne_zero fun h0 => hm (List.length_eq_zero_iff.mp h0)
  have hlen : c2.len - 1 = c2.path.leafs.length := by
    rw [Cursor.len]
    omega
  rw [hi, Nat.add_sub_cancel] at hedge
  rw [hlen] at hlevel hedge
  rw [hi] at hlevel
  obtain ⟨nd3, hlevel3, hs3, -⟩ := hedge.setLast
  have hget : nd3.getAt (some (m.length - 1)) = .ok (m.map Entry.leaf)[m.length - 1]? := hs3.get _
  refine ⟨_, new, ?_, hedge, hkept.trans (Cursor.setIdx_kept ..), ?_, hfreed⟩
  · rw [hrun, movePrevWithCleanup, get_bind, bind_of_ok (cleanup_pos hlevel), if_pos rfl, get_bind,
      lift_bind_of_ok hlevel3]
    dsimp only
    rw [lift_bind_of_ok hget, Cursor.len_setIdx, Nat.sub_self]
    rfl
  · rw [Cursor.setIdx_events, hev]

/-- The last extent of a node goes, and the node with it.  The cursor is left without an
    extent, whatever is left of the tree. -/
theorem truncateLast_last (h : c.OnEdge pre [L] ns) :
    ∃ (c' : Cursor) (new : List Event) (rm : List Nat), truncateLast 0 c = (.ok (), c') ∧
      c'.getLeaf = .ok none ∧ c'.Maps pre ∧ c.Kept c' ∧ c'.events = c.events ++ new ∧
      new.flatMap (Event.freed c.fs.sb) = L.tail 0 ++ rm ∧ ∀ n ∈ rm, n ∈ ns := by
  obtain ⟨c2, new, nd, hrun, hlevel, hs, hedge, hkept, hev, hfreed⟩ :=
    truncateLast_zero_eq (m := []) h
  have hlevel' : c2.level (c2.len - 1) = .ok (nd, some 0) := hlevel
  have hedge' : c2.OnEdge pre [] ns := Cursor.setIdx_self hlevel' ▸ hedge
  -- The node is empty, so it goes, and with it every parent it was the only child of.
  have htop : c2.level 0 =
      .ok (.tree c2.path.root, some ((ExtentHeader.tree c2.path.root).entriesCnt - 1)) := by
    rw [Cursor.level, hedge'.rootIdx]
    rfl
  obtain ⟨c3, h1, new2, hsw, hcase⟩ := cleanup_edge hedge'.edge htop
    (show c2.path.leafs = [] ++ c2.path.leafs from rfl) rfl hedge'.nodup hedge'.groups hedge'.nodes
  have hleafs := hedge'.edge.length_path
  rw [Nat.zero_add, ← hleafs] at hcase
  have hcache := hsw.kept.cache hedge'.cache
  have hev3 : c3.events = c.events ++ (new ++ new2) := by
    rw [hsw.events, hev, List.append_assoc]
  have hfreed3 : (new ++ new2).flatMap (Event.freed c.fs.sb) =
      L.tail 0 ++ new2.flatMap (Event.freed c2.fs.sb) := by
    rw [List.flatMap_append, hfreed, hkept.sb]
  rcases hcase with ⟨hpre, hclean, ⟨path1, idx1, -, hlev1⟩, ⟨ns1, htree⟩, nd3, i, hbottom, hget⟩ |
    ⟨rfl, hclean, hleafs3, hlev1, hempty⟩
  · -- The loop ended at a parent, with the index behind its last entry.
    obtain rfl : .tree c3.path.root = h1 := (Prod.mk.inj (Except.ok.inj hlev1)).1
    have hend : ∀ n, descend pickLast n none c3 = (.ok none, c3) := by
      intro n
      cases n <;> rfl
    refine ⟨c3, new ++ new2, _, ?_, ?_, Or.inr ⟨ns1, ?_⟩, hkept.trans hsw.kept, hev3, hfreed3,
      hsw.freed⟩
    · rw [hrun, movePrevWithCleanup, get_bind, bind_of_ok hclean, if_pos rfl, get_bind,
        lift_bind_of_ok hbottom]
      dsimp only
      rw [lift_bind_of_ok (show nd3.getAt (some i) = .ok none from hget), bind_of_ok (hend _)]
      rfl
    · have hget' : nd3.getAt (some i) = .ok none := hget
      simp only [Cursor.getLeaf, hcache, hbottom, hget']
      rfl
    · rw [hsw.kept.depth, ← hleafs]
      exact htree
  · -- The loop ended at the root, which is empty.
    obtain ⟨rfl, hroot⟩ := Prod.mk.inj (Except.ok.inj hlev1)
    have hzero : cleanup 0 c3 = (.ok false, c3.setIdx 0 none) := by
      rw [cleanup, get_bind, hroot]
      rfl
    refine ⟨c3.setIdx 0 none, new ++ new2, _, ?_, ?_, Or.inl ⟨rfl, hempty⟩,
      (hkept.trans hsw.kept).trans (Cursor.setIdx_kept ..), hev3, hfreed3, hsw.freed⟩
    · rw [hrun, movePrevWithCleanup, get_bind, bind_of_ok (hclean.trans hzero)]
      rfl
    · have hlen : (c3.setIdx 0 none).len - 1 = 0 := by
        rw [Cursor.len_setIdx, Cursor.len, hleafs3]
        rfl
      have hnone : (c3.setIdx 0 none).path.cache = none := hcache
      rw [Cursor.getLeaf, hnone]
      dsimp only
      rw [hlen]
      rfl

end Path

end RustExt4.Inode.Extent
