/-
  RustExt4.Inode.Extent.InsertLeaf

  `Path::insert_leaf` of a run behind all extents, on a path along the right edge: a merge
  with the last extent, the slot behind it, or a node without a slot.  The tree then maps
  the run just where its length is read back from the entry as it was written.
-/
import RustExt4.Inode.Extent.Removal

namespace RustExt4.Inode.Extent

open StateExcept
open Transaction (Event)
open Predecessor (Ascending)

/-! ## The last node -/

variable {c c' : Cursor} {ls ls0 last : List Leaf} {ns : List Nat} {L new y x : Leaf}
  {nd nd' : ExtentHeader}

/-- The tree holds these extents in these nodes, and is sound where they make sense. -/
structure Cursor.Holds (c : Cursor) (ls : List Leaf) (ns : List Nat) : Prop where
  tree : Tree c.fs.blocks c.path.root.depth (.tree c.path.root) ls ns
  sound : Ordered ls → (∀ l ∈ ls, 0 < l.len ∧ l.block + l.len < 2 ^ 32) →
    Sound c.fs.blocks c.path.root ls ns

/-- The entries of the root. -/
theorem Sound.root_roomy (hs : Sound c.fs.blocks c.path.root ls ns) :
    (ExtentHeader.tree c.path.root).Roomy :=
  ⟨hs.root_cnt.trans hs.root_max.ge, by
    show 0 + 12 * c.path.root.maxEntriesCnt ≤ c.path.root.b.length
    rw [hs.root_max, hs.root_len], by
    show c.path.root.maxEntriesCnt < 2 ^ 16
    rw [hs.root_max]
    decide⟩

/-- The end of the path is the last node. -/
theorem Cursor.AtRight.level (hat : c.AtRight ls ns) :
    c.level (c.len - 1) =
      .ok (rightNode c.fs.blocks c.path.root.depth (.tree c.path.root),
        some ((rightNode c.fs.blocks c.path.root.depth (.tree c.path.root)).entriesCnt - 1)) := by
  have hleafs := hat.leafs
  have ht := hat.tree
  cases hd : c.path.root.depth with
  | zero =>
      rw [hd] at hleafs
      have hlen : c.len - 1 = 0 := by rw [Cursor.len, hleafs]; rfl
      rw [hlen, Cursor.level, hat.rootIdx]
      rfl
  | succ d =>
      rw [hd] at hleafs ht
      obtain ⟨p, b, hlast, hb, hnode⟩ := ht.rightPath_last
      rw [← hleafs] at hlast
      rw [Cursor.level_last hlast hb, hnode]

/-- The last node of a path along the right edge, and what a node that takes its place
    leaves of the tree. -/
theorem Sound.setLast (hs : Sound c.fs.blocks c.path.root ls ns) (hat : c.AtRight ls ns) :
    ∃ nd pre m L, ls = pre ++ (m ++ [L]) ∧ c.level (c.len - 1) = .ok (nd, some m.length) ∧
      nd = rightNode c.fs.blocks c.path.root.depth (.tree c.path.root) ∧
      nd.Shows 0 ((m ++ [L]).map .leaf) ∧ nd.Roomy ∧
      ∀ nd' last', nd.Like nd' → nd'.Shows 0 (last'.map .leaf) → Ascending Leaf.block last' →
        last'.head?.map Leaf.block = (m ++ [L]).head?.map Leaf.block →
        last'.length ≤ nd.maxEntriesCnt →
        (c.store (c.len - 1) nd').Holds (pre ++ last') ns := by
  obtain ⟨pre, last, rfl, hne, -, hedge⟩ := hat.tree.edge
  rw [← hat.leafs] at hedge
  obtain ⟨nd, hlevel, hshows, hplace, hset⟩ := Cursor.setLast hedge hat.rootIdx hs.nodup
  have hnode : nd = rightNode c.fs.blocks c.path.root.depth (.tree c.path.root) :=
    (Prod.mk.inj (Except.ok.inj (hlevel.symm.trans hat.level))).1
  have hroomy : nd.Roomy := by
    obtain ⟨rfl, -⟩ | ⟨p, b, hp, hb, rfl, -⟩ := hplace
    · exact hs.root_roomy
    · exact hs.roomy p hp b hb
  obtain ⟨m, L, rfl⟩ : ∃ m L, last = m ++ [L] :=
    ⟨last.dropLast, last.getLast hne, (List.dropLast_append_getLast hne).symm⟩
  rw [List.length_append, List.length_singleton, Nat.add_sub_cancel] at hlevel
  refine ⟨nd, pre, m, L, rfl, hlevel, hnode, hshows, hroomy, ?_⟩
  intro nd' last' hlike hshows' hasc hhead hmax
  have hhead' : ∀ l, last'.head? = some l →
      ∃ l0, (m ++ [L]).head? = some l0 ∧ l.block = l0.block := by
    intro l hl
    rw [hl] at hhead
    obtain ⟨l0, hl0, heq⟩ := Option.map_eq_some_iff.mp hhead.symm
    exact ⟨l0, hl0, heq.symm⟩
  have hne' : last' ≠ [] := by
    rintro rfl
    cases m <;> cases hhead
  obtain ⟨hedge', -⟩ := hset nd' last' hlike hshows' hasc hhead' _ rfl
  have htree := hedge'.tree hne'
  -- The index of the path does not matter for the tree.
  have hidx : ∀ (c : Cursor) (k : Nat) (i : Option Nat),
      (c.setIdx k i).fs = c.fs ∧ (c.setIdx k i).path.root = c.path.root := by
    intro c k i
    cases k <;> exact ⟨rfl, rfl⟩
  rw [(hidx _ _ _).1, (hidx _ _ _).2] at htree
  have hcnt' : nd'.entriesCnt = last'.length := hshows'.entriesCnt.trans (List.length_map ..)
  have hroomy' : nd'.Roomy := by
    refine ⟨?_, ?_, ?_⟩
    · rw [hcnt', hlike.maxEntriesCnt]
      exact hmax
    · rw [hlike.base, hlike.maxEntriesCnt, hlike.length]
      exact hroomy.capacity
    · rw [hlike.maxEntriesCnt]
      exact hroomy.maxEntriesCnt_lt
  refine ⟨htree, fun hord hall => ?_⟩
  have hpos : ∀ l ∈ pre ++ last', 0 < l.len := fun l hl => (hall l hl).1
  have hbound : ∀ l ∈ pre ++ last', l.block + l.len < 2 ^ 32 := fun l hl => (hall l hl).2
  obtain ⟨rfl, hstore⟩ | ⟨p, b, hp, hb, rfl, hstore⟩ := hplace
  · cases nd' with
    | node b => cases hlike
    | tree t =>
        rw [hstore] at htree ⊢
        have hcnt : t.entriesCnt ≤ 4 := by
          have hle : last'.length ≤ c.path.root.maxEntriesCnt := hmax
          rw [hs.root_max] at hle
          exact hcnt'.trans_le hle
        exact ⟨Or.inl htree, hlike.2.1.trans_le hs.depth_le, hord, hpos, hbound,
          hlike.1.trans hs.root_max, hlike.2.2.1.trans hs.root_len, hcnt, hs.nodup, hs.roomy⟩
  · cases nd' with
    | tree t => cases hlike
    | node b' =>
        rw [hstore] at htree ⊢
        refine ⟨Or.inl htree, hs.depth_le, hord, hpos, hbound, hs.root_max, hs.root_len,
          hs.root_cnt, hs.nodup, fun n hn b1 hb1 => ?_⟩
        dsimp only at hb1
        by_cases hnp : n = p
        · rw [hnp, Function.update_self] at hb1
          exact Option.some.inj hb1 ▸ hroomy'
        · rw [Function.update_of_ne hnp] at hb1
          exact hs.roomy n hn b1 hb1

/-! ## What the tree then maps -/

/-- A new run behind all extents. -/
structure Leaf.Behind (new : Leaf) (ls : List Leaf) : Prop where
  init : new.isInit = true
  pos : 0 < new.len
  len_lt : new.len < 2 ^ 16
  start_lt : new.start < 2 ^ 48
  bound : new.block + new.len < 2 ^ 32
  behind : ∀ l ∈ ls, l.block + l.len ≤ new.block

/-- The tree has become one with the new run, and nothing else of its map has changed. -/
def Cursor.Extended (c : Cursor) (ls : List Leaf) (new : Leaf) : Prop :=
  ∃ ls' ns', Sound c.fs.blocks c.path.root ls' ns' ∧ Extends ls new ls'

/-- A tree has the extents of its bytes. -/
theorem Sound.leafs_eq {ls' : List Leaf} {ns' : List Nat}
    (hs : Sound c.fs.blocks c.path.root ls' ns')
    (ht : Tree c.fs.blocks c.path.root.depth (.tree c.path.root) ls ns) : ls' = ls := by
  obtain ht' | ⟨hempty, -, -⟩ := hs.tree
  · exact (ht'.unique ht).1
  · obtain ⟨es, hshows, hne, -⟩ := ht.exists_shows
    exact absurd (hshows.unique hempty) hne

/-- An initialized extent that is not read back as one is not initialized. -/
theorem ExtentHeader.readsBack_of_init (hy : y.isInit = true)
    (hx : nd.asRead (.leaf y) = .leaf x) (hinit : x.isInit = true) : nd.ReadsBack (.leaf y) := by
  have hf : y.lenField = y.len := by rw [Leaf.lenField, if_pos hy]
  simp only [asRead, Entry.leaf.injEq] at hx
  subst hx
  rw [hf] at hinit
  cases nd with
  | tree t => exact of_decide_eq_true hinit
  | node b =>
      rw [ReadsBack, if_pos hy]
      by_contra hlarge
      simp only [decodeLen, if_neg hlarge] at hinit
      cases hinit

/-- The run is mapped if and only if the extent that it went into is read back. -/
theorem Cursor.Holds.extended_iff (hh : c.Holds (ls0 ++ [x]) ns)
    (hx : nd.asRead (.leaf y) = .leaf x) (hkind : nd.OfKind (.leaf y)) (hy : y.isInit = true)
    (hord : Ordered (ls0 ++ [y]))
    (hall : ∀ l ∈ ls0 ++ [y], 0 < l.len ∧ l.block + l.len < 2 ^ 32)
    (hext : Extends ls new (ls0 ++ [y])) (hpos : 0 < new.len) (hle : y.block ≤ new.block) :
    c.Extended ls new ↔ nd.ReadsBack (.leaf y) := by
  constructor
  · rintro ⟨ls', ns', hs, hmap, -⟩
    obtain rfl := hs.leafs_eq hh.tree
    -- The first block of the run is answered by the extent that holds it.
    obtain ⟨l, hl, hc, haddr⟩ := exists_of_lookup (hmap 0 hpos)
    obtain ⟨-, -, hcross⟩ := List.pairwise_append.mp hord
    rcases List.mem_append.mp hl with hl | hl
    · have hbefore := (hcross l hl y List.mem_cons_self).2
      have hin := Leaf.contains_iff.mp hc
      omega
    · obtain rfl := List.mem_singleton.mp hl
      refine ExtentHeader.readsBack_of_init hy hx ?_
      by_contra hinit
      rw [Leaf.address, if_neg hinit] at haddr
      cases haddr
  · intro hreads
    have hsame := (ExtentHeader.asRead_eq_iff hkind).mpr hreads
    obtain rfl := Entry.leaf.inj (hsame.symm.trans hx)
    exact ⟨_, ns, hh.sound hord hall, hext⟩

/-! ## `insert_leaf` -/

namespace Path

/-- The new run follows the extent in the file and on the device. -/
def Follows (L new : Leaf) : Prop := L.block + L.len = new.block ∧ L.start + L.len = new.start

theorem merged_of_merges (hm : Merges L new) :
    merged new (some (.leaf L)) = .ok (some { L with len := L.len + new.len }) := by
  obtain ⟨hblock, hstart, hi, hlen⟩ := hm
  rw [merged, if_pos ⟨hblock, hstart⟩, if_neg (by omega), if_pos ⟨hlen, hi⟩]

/-- The sum of the lengths is no `u16`. -/
theorem merged_of_overflow (hf : Follows L new) (hlen : 2 ^ 16 ≤ L.len + new.len) :
    merged new (some (.leaf L)) = .error .panic := by
  obtain ⟨hblock, hstart⟩ := hf
  rw [merged, if_pos ⟨hblock, hstart⟩, if_pos hlen]

theorem merged_of_not_merges (hm : ¬ Merges L new)
    (hlen : Follows L new → L.len + new.len < 2 ^ 16) :
    merged new (some (.leaf L)) = .ok none := by
  rw [merged]
  split
  next hadj =>
    have hlt := hlen hadj
    rw [if_neg (by omega), if_neg]
    exact fun h => hm ⟨hadj.1, hadj.2, h.2, h.1⟩
  next => rfl

variable {c : Cursor} {nd nd' : ExtentHeader} {i : Nat}

section
variable (hlevel : c.level (c.len - 1) = .ok (nd, some i)) (hget : nd.get i = .ok (some (.leaf L)))
  (hcache : c.path.cache = none) (hlt : L.block < new.block)
include hlevel hget hcache hlt

/-- Up to the merge. -/
theorem insertLeaf_eq :
    insertLeaf new c =
      (do
        match ← lift (merged new (some (.leaf L))) with
        | some l => do
          let nd ← lift (nd.replaceAt (.leaf l) i)
          modify (·.store (c.len - 1) nd)
          pure none
        | none =>
          if nd.isFull then pure (some new)
          else do
            modify (·.setIdx (c.len - 1) (some (i + 1)))
            let nd ← lift (nd.insertAt (.leaf new) (i + 1))
            modify (·.store (c.len - 1) nd)
            fixKeys new.block (c.len - 1) (i + 1)
            pure none : CursorM (Option Leaf)) c := by
  -- The path stands on the last extent, which starts before the new one.
  have hleaf : c.getLeaf = .ok (some L) := by
    simp only [Cursor.getLeaf, hcache, hlevel, ExtentHeader.getAt, hget]
    rfl
  have hother : (some L).any (fun l => l.block == new.block) = false := by
    simpa using hlt.ne
  have hpos : insertPos new (some L) (some i) = .ok (i + 1) := by
    show Except.map _ (.ok i) = _
    simp only [Except.map, if_pos hlt]
  unfold insertLeaf
  rw [get_bind, lift_bind_of_ok hleaf, if_neg (by rw [hother]; exact Bool.false_ne_true),
    lift_bind_of_ok hlevel]
  dsimp only
  rw [lift_bind_of_ok (show nd.getAt (some i) = .ok (some (.leaf L)) from hget), hpos]
  rfl

theorem insertLeaf_merges (hm : Merges L new)
    (hrep : nd.replaceAt (.leaf { L with len := L.len + new.len }) i = .ok nd') :
    insertLeaf new c = (.ok none, c.store (c.len - 1) nd') := by
  rw [insertLeaf_eq hlevel hget hcache hlt, lift_bind_of_ok (merged_of_merges hm)]
  dsimp only
  rw [lift_bind_of_ok hrep]
  rfl

theorem insertLeaf_overflow (hf : Follows L new) (hlen : 2 ^ 16 ≤ L.len + new.len) :
    insertLeaf new c = (.error .panic, c) := by
  rw [insertLeaf_eq hlevel hget hcache hlt]
  exact bind_of_error (by rw [lift_apply, merged_of_overflow hf hlen])

theorem insertLeaf_full (hm : ¬ Merges L new)
    (hlen : Follows L new → L.len + new.len < 2 ^ 16) (hfull : nd.isFull = true) :
    insertLeaf new c = (.ok (some new), c) := by
  rw [insertLeaf_eq hlevel hget hcache hlt, lift_bind_of_ok (merged_of_not_merges hm hlen)]
  dsimp only
  rw [if_pos hfull]
  rfl

theorem insertLeaf_slot (hm : ¬ Merges L new)
    (hlen : Follows L new → L.len + new.len < 2 ^ 16) (hfull : nd.isFull = false)
    (hins : nd.insertAt (.leaf new) (i + 1) = .ok nd') :
    insertLeaf new c =
      (.ok none, (c.setIdx (c.len - 1) (some (i + 1))).store (c.len - 1) nd') := by
  rw [insertLeaf_eq hlevel hget hcache hlt, lift_bind_of_ok (merged_of_not_merges hm hlen)]
  dsimp only
  rw [if_neg (by rw [hfull]; exact Bool.false_ne_true), modify_bind, lift_bind_of_ok hins,
    modify_bind]
  -- The new extent is not the first one of its node, and no key changes.
  cases c.len - 1 <;> rfl

end

/-- An empty node takes the extent as its first one, and the parents get its key. -/
theorem insertLeaf_empty (hlevel : c.level (c.len - 1) = .ok (nd, none))
    (hcache : c.path.cache = none) (hfull : nd.isFull = false)
    (hins : nd.insertAt (.leaf new) 0 = .ok nd') :
    insertLeaf new c =
      (do
        fixKeys new.block (c.len - 1) 0
        pure none : CursorM (Option Leaf))
        ((c.setIdx (c.len - 1) (some 0)).store (c.len - 1) nd') := by
  have hleaf : c.getLeaf = .ok none := by
    simp only [Cursor.getLeaf, hcache, hlevel, ExtentHeader.getAt]
    rfl
  unfold insertLeaf
  rw [get_bind, lift_bind_of_ok hleaf, if_neg (by simp), lift_bind_of_ok hlevel]
  dsimp only
  rw [lift_bind_of_ok (show nd.getAt none = .ok none from rfl),
    lift_bind_of_ok (show merged new none = .ok none from rfl)]
  dsimp only
  rw [if_neg (by rw [hfull]; exact Bool.false_ne_true),
    lift_bind_of_ok (show insertPos new none none = .ok 0 from rfl), modify_bind,
    lift_bind_of_ok hins, modify_bind]

end Path

/-! ## A merge, a free slot -/

section
variable {c : Cursor} {ls : List Leaf} {ns : List Nat} {L new : Leaf}

/-- An extent with the same first block may take the place of the last one. -/
theorem ascending_last {m : List Leaf} (h : Ascending Leaf.block (m ++ [L]))
    (hx : new.block = L.block) : Ascending Leaf.block (m ++ [new]) := by
  obtain ⟨hm, -, hcross⟩ := List.pairwise_append.mp h
  refine List.pairwise_append.mpr ⟨hm, List.pairwise_singleton .., fun a ha b hb => ?_⟩
  obtain rfl := List.mem_singleton.mp hb
  rw [hx]
  exact hcross a ha L List.mem_cons_self

/-- The last extent may become longer. -/
theorem Ordered.lengthen {n : Nat} (ho : Ordered (ls ++ [L])) :
    Ordered (ls ++ [{ L with len := n }]) := by
  obtain ⟨hls, -, hcross⟩ := List.pairwise_append.mp ho
  refine List.pairwise_append.mpr ⟨hls, List.pairwise_singleton .., fun a ha b hb => ?_⟩
  obtain rfl := List.mem_singleton.mp hb
  exact hcross a ha L List.mem_cons_self

theorem Leaf.Behind.sound (hb : new.Behind ls) (hs : Sound c.fs.blocks c.path.root ls ns) :
    Ordered (ls ++ [new]) ∧ ∀ l ∈ ls ++ [new], 0 < l.len ∧ l.block + l.len < 2 ^ 32 := by
  refine ⟨hs.ordered.snoc hs.len_pos hb.behind, fun l hl => ?_⟩
  rcases List.mem_append.mp hl with hl | hl
  · exact ⟨hs.len_pos l hl, hs.bound l hl⟩
  · obtain rfl := List.mem_singleton.mp hl
    exact ⟨hb.pos, hb.bound⟩

theorem Leaf.Behind.lt (hb : new.Behind ls) (hs : Sound c.fs.blocks c.path.root ls ns)
    (hL : L ∈ ls) : L.block < new.block := by
  have := hb.behind L hL
  have := hs.len_pos L hL
  omega

/-- An entry read from a node is of its kind. -/
theorem ExtentHeader.Shows.ofKind {h : ExtentHeader} {es : List Entry} {l : Leaf}
    (hs : h.Shows 0 es) (hl : .leaf l ∈ es) : h.OfKind (.leaf l) ∧ l.len ≤ 2 ^ 15 := by
  obtain ⟨hd, -, hall⟩ := shows_iff.mp hs
  obtain ⟨i, hi⟩ := List.mem_iff_getElem?.mp hl
  obtain ⟨-, hdec⟩ := hall i _ hi
  rw [decode, if_pos hd] at hdec
  obtain rfl := Entry.leaf.inj hdec
  have hhi := ByteRw.readU16_lt h.bytes (h.base + 12 * i + 6)
  have hlo := ByteRw.readU32_lt h.bytes (h.base + 12 * i + 8)
  have hv := ByteRw.readU16_lt h.bytes (h.base + 12 * i + 4)
  have hlen : (h.decodeLen (ByteRw.readU16 h.bytes (h.base + 12 * i + 4))).1 ≤ 2 ^ 15 := by
    cases h with
    | tree t =>
        show _ % 2 ^ 15 ≤ 2 ^ 15
        omega
    | node b =>
        simp only [decodeLen]
        split <;> dsimp only <;> omega
  refine ⟨⟨hd, ByteRw.readU32_lt .., ?_, by dsimp only; omega⟩, hlen⟩
  simp only [mergeU32]
  omega

/-- A merge with the last extent. -/
theorem Path.insertLeaf_merge (hs : Sound c.fs.blocks c.path.root ls ns) (hat : c.AtRight ls ns)
    (hb : new.Behind ls) (hL : ls.getLast? = some L) (hm : Merges L new) :
    ∃ c', insertLeaf new c = (.ok none, c') ∧
      (c'.Extended ls new ↔
        (rightNode c.fs.blocks c.path.root.depth (.tree c.path.root)).ReadsBack
          (.leaf { L with len := L.len + new.len })) := by
  -- The last extent is an entry of a leaf node, and that node is the one the path ends in.
  obtain ⟨nd, pre, m, L', rfl, hlevel, hnode, hshows, hroomy, hset⟩ := hs.setLast hat
  obtain rfl : L' = L := by simpa using hL
  have hmem : Entry.leaf L' ∈ (m ++ [L']).map .leaf := by simp
  obtain ⟨⟨hd, hblock, hstart, -⟩, -⟩ := hshows.ofKind hmem
  have hlen := hm.2.2.2
  have hkind : nd.OfKind (.leaf { L' with len := L'.len + new.len }) :=
    ⟨hd, hblock, hstart, by dsimp only; omega⟩
  obtain ⟨nd', hrep, hlike, hshows'⟩ := ExtentHeader.replaceAt_reads hshows
    (i := m.length) (by simp) hkind
  have hget : nd.get m.length = .ok (some (.leaf L')) := by
    rw [hshows.get]
    simp
  -- What is read back of the longer extent.
  obtain ⟨x, hx⟩ : ∃ x, nd.asRead (.leaf { L' with len := L'.len + new.len }) = .leaf x := ⟨_, rfl⟩
  have hxblock : x.block = L'.block := by
    have := Entry.leaf.inj hx
    rw [← this]
  have hset' : ((m ++ [L']).map Entry.leaf).set m.length (.leaf x) = (m ++ [x]).map .leaf := by
    simp
  rw [hx, hset'] at hshows'
  have ho : Ordered ((pre ++ m) ++ [L']) := by simpa using hs.ordered
  have ho' := ho.lengthen (n := L'.len + new.len)
  -- Only a length changed, so the keys and the count are as they were.
  have hle : (m ++ [x]).length ≤ nd.maxEntriesCnt := by
    have hcnt := hshows.entriesCnt
    have := hroomy.entriesCnt_le
    simp only [List.length_map, List.length_append, List.length_singleton] at hcnt ⊢
    omega
  have hasc : Ascending Leaf.block (m ++ [x]) :=
    ascending_last (hs.ordered.ascending.sublist (List.sublist_append_right _ _)) hxblock
  have hholds := hset nd' (m ++ [x]) hlike hshows' hasc
    (by cases m <;> simp [hxblock]) hle
  rw [← List.append_assoc] at hholds
  have hlt : L'.block < new.block := hb.lt hs (by simp)
  refine ⟨_, insertLeaf_merges hlevel hget hat.cache hlt hm hrep, ?_⟩
  rw [← hnode]
  refine hholds.extended_iff hx hkind hm.2.2.1 ho' ?_ ?_ hb.pos hlt.le
  · have hbound := hb.bound
    have hadj := hm.1
    -- `x` is last in the list the tree holds now.
    intro l hl
    rcases List.mem_append.mp hl with hl | hl
    · have hl' : l ∈ pre ++ (m ++ [L']) := by
        rw [← List.append_assoc]
        exact List.mem_append_left _ hl
      exact ⟨hs.len_pos l hl', hs.bound l hl'⟩
    · obtain rfl := List.mem_singleton.mp hl
      exact ⟨Nat.add_pos_right _ hb.pos, by dsimp only; omega⟩
  · rw [← List.append_assoc]
    exact extends_merge hm ho ho'

/-- A free slot behind the last extent. -/
theorem Path.insertLeaf_room (hs : Sound c.fs.blocks c.path.root ls ns) (hat : c.AtRight ls ns)
    (hb : new.Behind ls) (hL : ls.getLast? = some L) (hm : ¬ Merges L new)
    (hlen : Follows L new → L.len + new.len < 2 ^ 16)
    (hroom : (rightNode c.fs.blocks c.path.root.depth (.tree c.path.root)).isFull = false) :
    ∃ c', insertLeaf new c = (.ok none, c') ∧
      (c'.Extended ls new ↔
        (rightNode c.fs.blocks c.path.root.depth (.tree c.path.root)).ReadsBack (.leaf new)) := by
  obtain ⟨nd, pre, m, L', rfl, hlevel, hnode, hshows, hroomy, hset⟩ := hs.setLast hat
  obtain rfl : L' = L := by simpa using hL
  rw [← hnode] at hroom ⊢
  have hget : nd.get m.length = .ok (some (.leaf L')) := by
    rw [hshows.get]
    simp
  have hcnt : nd.entriesCnt = ((m ++ [L']).map Entry.leaf).length := hshows.entriesCnt
  have hlt : ((m ++ [L']).map Entry.leaf).length < nd.maxEntriesCnt := by
    have hne : nd.entriesCnt ≠ nd.maxEntriesCnt := by simpa [ExtentHeader.isFull] using hroom
    have := hroomy.entriesCnt_le
    omega
  have hkind : nd.OfKind (.leaf new) := by
    have hbound := hb.bound
    exact ⟨hshows.depth, by omega, hb.start_lt, hb.len_lt⟩
  obtain ⟨nd', hins, hlike, hshows'⟩ := ExtentHeader.insertAt_append_reads hshows hlt
    hroomy.capacity hroomy.maxEntriesCnt_lt hkind
  obtain ⟨x, hx⟩ : ∃ x, nd.asRead (.leaf new) = .leaf x := ⟨_, rfl⟩
  have hxblock : x.block = new.block := by
    have hfields := Entry.leaf.inj hx
    rw [← hfields]
  rw [hx, ← List.map_singleton, ← List.map_append] at hshows'
  have hpos : ((m ++ [L']).map Entry.leaf).length = m.length + 1 := by simp
  rw [hpos] at hins hlt
  obtain ⟨hord, hall⟩ := hb.sound hs
  have hasc : Ascending Leaf.block (m ++ [L'] ++ [x]) := by
    apply ascending_last _ hxblock
    have hsub : (m ++ [L'] ++ [new]).Sublist (pre ++ (m ++ [L']) ++ [new]) := by
      rw [List.append_assoc pre]
      exact List.sublist_append_right _ _
    exact hord.ascending.sublist hsub
  have hmax : (m ++ [L'] ++ [x]).length ≤ nd.maxEntriesCnt := by
    rw [List.length_append, List.length_append, List.length_singleton, List.length_singleton]
    exact hlt
  have hholds := hset nd' (m ++ [L'] ++ [x]) hlike hshows' hasc (by cases m <;> rfl) hmax
  rw [← List.append_assoc] at hholds
  refine ⟨_, insertLeaf_slot hlevel hget hat.cache (hb.lt hs (by simp)) hm hlen hroom hins, ?_⟩
  -- The index of the new entry is set before the node is written.
  obtain ⟨hblocks, hroot⟩ := Cursor.store_setIdx c (c.len - 1) (some (m.length + 1)) nd'
  rw [Cursor.Extended, hblocks, hroot]
  exact hholds.extended_iff hx hkind hb.init hord hall (extends_snoc hord hb.init) hb.pos
    (Nat.le_refl _)

/-- The last extent is the one under the last index. -/
theorem Cursor.AtRight.lastExtent (hat : c.AtRight ls ns) (hnd : ns.Nodup)
    (hL : ls.getLast? = some L) :
    ∃ nd i, nd = rightNode c.fs.blocks c.path.root.depth (.tree c.path.root) ∧
      c.level (c.len - 1) = .ok (nd, some i) ∧ nd.get i = .ok (some (.leaf L)) := by
  obtain ⟨pre, last, rfl, hne, -, hedge⟩ := hat.tree.edge
  rw [← hat.leafs] at hedge
  obtain ⟨nd, hlevel, hshows, -⟩ := Cursor.setLast hedge hat.rootIdx hnd
  have hnode := (Prod.mk.inj (Except.ok.inj (hlevel.symm.trans hat.level))).1
  obtain ⟨m, L', rfl⟩ : ∃ m L, last = m ++ [L] :=
    ⟨last.dropLast, last.getLast hne, (List.dropLast_append_getLast hne).symm⟩
  obtain rfl : L' = L := by simpa using hL
  refine ⟨nd, _, hnode, hlevel, ?_⟩
  rw [hshows.get]
  simp

/-- The last node has no slot. -/
theorem Path.insertLeaf_noSlot (hat : c.AtRight ls ns) (hnd : ns.Nodup)
    (hL : ls.getLast? = some L) (hlt : L.block < new.block) (hm : ¬ Merges L new)
    (hlen : Follows L new → L.len + new.len < 2 ^ 16)
    (hfull : (rightNode c.fs.blocks c.path.root.depth (.tree c.path.root)).isFull = true) :
    insertLeaf new c = (.ok (some new), c) := by
  obtain ⟨nd, i, hnode, hlevel, hget⟩ := hat.lastExtent hnd hL
  rw [← hnode] at hfull
  exact insertLeaf_full hlevel hget hat.cache hlt hm hlen hfull

/-- The lengths of the last extent and of the run that follows it are added before they are
    compared with what an extent can have. -/
theorem Path.insertLeaf_panics (hat : c.AtRight ls ns) (hnd : ns.Nodup)
    (hL : ls.getLast? = some L) (hlt : L.block < new.block) (hf : Follows L new)
    (hlen : 2 ^ 16 ≤ L.len + new.len) : insertLeaf new c = (.error .panic, c) := by
  obtain ⟨nd, i, -, hlevel, hget⟩ := hat.lastExtent hnd hL
  exact insertLeaf_overflow hlevel hget hat.cache hlt hf hlen

/-- The first extent of a file. -/
theorem Path.insertLeaf_first (hs : Sound c.fs.blocks c.path.root [] []) (hb : new.Behind [])
    (hempty : (ExtentHeader.tree c.path.root).Shows 0 []) (hidx : c.path.rootIdx = none)
    (hleafs : c.path.leafs = []) (hcache : c.path.cache = none) :
    ∃ c', insertLeaf new c = (.ok none, c') ∧
      (c'.Extended [] new ↔ (ExtentHeader.tree c.path.root).ReadsBack (.leaf new)) := by
  -- An empty tree has its root for the last node.
  have hlen : c.len - 1 = 0 := by rw [Cursor.len, hleafs]; rfl
  have hlevel : c.level (c.len - 1) = .ok (.tree c.path.root, none) := by
    rw [hlen, Cursor.level, hidx]
  have hkind : (ExtentHeader.tree c.path.root).OfKind (.leaf new) := by
    have hbound := hb.bound
    exact ⟨hempty.depth, by omega, hb.start_lt, hb.len_lt⟩
  have hmax : 0 < (ExtentHeader.tree c.path.root).maxEntriesCnt := by
    show 0 < c.path.root.maxEntriesCnt
    rw [hs.root_max]
    decide
  have hroomy := hs.root_roomy
  obtain ⟨nd', hins, hlike, hshows'⟩ := ExtentHeader.insertAt_append_reads hempty hmax
    hroomy.capacity hroomy.maxEntriesCnt_lt hkind
  obtain ⟨x, hx⟩ : ∃ x, (ExtentHeader.tree c.path.root).asRead (.leaf new) = .leaf x := ⟨_, rfl⟩
  rw [hx] at hshows'
  have hfull : (ExtentHeader.tree c.path.root).isFull = false := by
    have hcnt : (ExtentHeader.tree c.path.root).entriesCnt = 0 := hempty.entriesCnt
    rw [ExtentHeader.isFull, hcnt]
    exact decide_eq_false hmax.ne
  have hrun := insertLeaf_empty hlevel hcache hfull hins
  cases nd' with
  | node b => cases hlike
  | tree t =>
      rw [hlen] at hrun
      obtain ⟨hord, hall⟩ := hb.sound hs
      have hd : t.depth = 0 := hlike.2.1.trans hempty.depth
      -- The root alone is a tree with the one extent.
      have htree : Tree c.fs.blocks t.depth (.tree t) [x] [] := by
        rw [hd]
        exact ⟨hshows', by simp, List.pairwise_singleton .., rfl⟩
      refine ⟨_, hrun, ?_⟩
      have hholds : Cursor.Holds ((c.setIdx 0 (some 0)).store 0 (.tree t)) ([] ++ [x]) [] := by
        refine ⟨htree, fun hord hall => ⟨Or.inl htree, ?_, hord, fun l hl => (hall l hl).1,
          fun l hl => (hall l hl).2, hlike.1.trans hs.root_max, hlike.2.2.1.trans hs.root_len, ?_,
          List.nodup_nil, fun n hn => (by cases hn)⟩⟩
        · show t.depth ≤ 4
          omega
        · show (ExtentHeader.tree t).entriesCnt ≤ 4
          rw [hshows'.entriesCnt]
          simp
      exact hholds.extended_iff hx hkind hb.init hord hall (extends_snoc hord hb.init) hb.pos
        (Nat.le_refl _)

end

end RustExt4.Inode.Extent
