/-
  RustExt4.Inode.Extent.SplitLeaf

  The split of a full last leaf node below a root that has a slot.  No entry moves: the
  new node stays empty until the run goes into it, and the root gets an entry for it.
-/
import RustExt4.Inode.Extent.FullLeaf

namespace RustExt4.Inode.Extent

open StateExcept
open Transaction (Event)
open Predecessor (Ascending)

variable {c c' : Cursor} {ls : List Leaf} {ns : List Nat} {L new : Leaf}

/-! ## A tree with one more node -/

/-- The root of a tree gets an entry for a tree behind it. -/
theorem Tree.snocChild {blocks blocks' : Nat → Option Bytes} {d : Nat} {h h' : ExtentHeader}
    {ls' : List Leaf} {ns' : List Nat} {es : List Entry} {i : Internal} {b : Bytes} {e : Entry}
    (ht : Tree blocks (d + 1) h ls ns) (hs : h.Shows (d + 1) es)
    (hs' : h'.Shows (d + 1) (es ++ [.internal i])) (heq : ∀ n ∈ ns, blocks' n = blocks n)
    (hkey : ∀ l ∈ ls, l.block < i.block) (hb : blocks' i.nextNode = some b)
    (hm : ExtentHeader.fromBytes b = .ok (.node b)) (hsub : Tree blocks' d (.node b) ls' ns')
    (hget : (ExtentHeader.node b).get 0 = .ok (some e)) (he : e.firstBlock = i.block) :
    Tree blocks' (d + 1) h' (ls ++ ls') (ns ++ i.nextNode :: ns') := by
  obtain ⟨cs, hcs, -, hkeys, rfl, rfl, hall⟩ := ht
  obtain rfl := hs.unique hcs
  have hold : ∀ c ∈ cs, c.Holds blocks d := hall
  refine ⟨cs ++ [⟨i, ls', ns'⟩], by simpa using hs', by simp, ?_, by simp, by simp, ?_⟩
  · refine List.pairwise_append.mpr ⟨hkeys, List.pairwise_singleton .., fun c hc c' hc' => ?_⟩
    obtain rfl := List.mem_singleton.mp hc'
    -- The key of a child is the first block of an extent.
    obtain ⟨l, hl, hlk⟩ := (hold c hc).exists_key
    exact hlk.symm.trans_lt (hkey l (List.mem_flatMap.mpr ⟨c, hc, hl⟩))
  · intro c hc
    rcases List.mem_append.mp hc with hc | hc
    · exact (hold c hc).congr fun n hn =>
        heq n (List.mem_flatMap.mpr ⟨c, hc, List.mem_cons.mpr hn⟩)
    · obtain rfl := List.mem_singleton.mp hc
      exact ⟨b, e, hb, hm, hsub, hget, he⟩

/-! ## Steps of the split -/

theorem ExtentHeader.setEntriesCnt_self {h : ExtentHeader} (hlen : h.base ≤ h.bytes.length) :
    h.setEntriesCnt h.entriesCnt = h := by
  cases h with
  | tree t => rfl
  | node b =>
      have h12 : 12 ≤ b.length := hlen
      exact congrArg ExtentHeader.node (LeBytes.writeLe_readLe (by omega))

namespace Path

/-- The cursor with another content of one block. -/
abbrev withBlock (c : Cursor) (lba : Nat) (b : Bytes) : Cursor :=
  { c with fs := { c.fs with blocks := Function.update c.fs.blocks lba (some b) } }

theorem level_withBlock {k p lba : Nat} {idx : Option Nat} {b b' : Bytes}
    (hleaf : c.path.leafs[k]? = some (p, idx)) (hb : c.fs.blocks p = some b) (hne : p ≠ lba) :
    (withBlock c lba b').level (k + 1) = .ok (.node b, idx) := by
  rw [Cursor.level, hleaf]
  simp only [Function.update_of_ne hne, hb]

/-- Behind the last index there is nothing to move. -/
theorem splitLeaf_last {k p lba i : Nat} {b b0 : Bytes}
    (hleaf : c.path.leafs[k]? = some (p, some i)) (hb : c.fs.blocks p = some b)
    (hcnt : (ExtentHeader.node b).entriesCnt = i + 1) (hlen : 12 ≤ b.length)
    (hb0 : c.fs.blocks lba = some b0) (hne : p ≠ lba) :
    splitLeaf lba (k + 1) c =
      (.ok (), withBlock c lba (initNode c.fs.blkSize (ExtentHeader.node b).depth b0)) := by
  have hlevel : c.level (k + 1) = .ok (.node b, some i) := by
    rw [Cursor.level, hleaf]
    simp only [hb]
  -- Its count is set to what it was.
  have hself : (ExtentHeader.node b).setEntriesCnt (i + 1) = .node b := by
    rw [← hcnt]
    exact ExtentHeader.setEntriesCnt_self hlen
  unfold splitLeaf
  rw [get_bind, lift_bind_of_ok hlevel]
  dsimp only
  rw [lift_bind_of_ok (show unwrap (c.fs.blocks lba) = .ok b0 by rw [hb0]; rfl), writeBlock,
    modify_bind, get_bind, lift_bind_of_ok (level_withBlock hleaf hb hne)]
  dsimp only
  rw [lift_bind_of_ok (show unwrap (some i) = .ok i from rfl),
    lift_bind_of_ok (show unwrap _ = .ok _ by rw [Function.update_self]; rfl), hcnt,
    if_neg (by omega), show i + 1 - i - 1 = 0 by omega, hself]
  -- And its bytes are written back as they were.
  have hkeep : Function.update (Function.update c.fs.blocks lba
      (some (initNode c.fs.blkSize (ExtentHeader.node b).depth b0))) p (some b) =
      Function.update c.fs.blocks lba
        (some (initNode c.fs.blkSize (ExtentHeader.node b).depth b0)) := by
    rw [Function.update_eq_self_iff, Function.update_of_ne hne, hb]
  rw [lift_bind_of_ok (show moveEntries _ _ 0 0 _ = .ok _ from rfl), writeBlock, modify_bind,
    modify_apply]
  simp only [Cursor.store, hleaf, ExtentHeader.bytes, Function.update_idem, hkeep]

/-- The new entry goes behind the last one. -/
theorem insertInternal_last {k j d : Nat} {nd : ExtentHeader} {es : List Entry} {en : Entry}
    {ext : Internal} (hlevel : c.level k = .ok (nd, some j)) (hs : nd.Shows d (es ++ [en]))
    (hj : es.length = j) (hroom : nd.isFull = false) (hr : nd.Roomy)
    (hlt : en.firstBlock < ext.block) (he : nd.Encodable (.internal ext)) :
    ∃ nd', insertInternal ext k c = (.ok true, c.store k nd') ∧ nd.Like nd' ∧
      nd'.Shows d (es ++ [en] ++ [.internal ext]) := by
  have hcnt := hs.entriesCnt
  have hlen : (es ++ [en]).length = j + 1 := by rw [List.length_append, hj]; rfl
  have hmax : (es ++ [en]).length < nd.maxEntriesCnt := by
    have hne : nd.entriesCnt ≠ nd.maxEntriesCnt := by simpa [ExtentHeader.isFull] using hroom
    have := hr.entriesCnt_le
    omega
  -- The slot after the last one is free, so nothing is shifted.
  obtain ⟨nd', hins, hlike, hs'⟩ := ExtentHeader.insertAt_append hs hmax hr.capacity
    hr.maxEntriesCnt_lt he
  rw [hlen] at hins
  have hget : nd.getAt (some j) = .ok (some en) := by
    show nd.get j = _
    rw [hs.get, ← hj]
    simp
  refine ⟨nd', ?_, hlike, hs'⟩
  -- The key is greater than the last entry's.
  have hloc : (unwrap (some en)).map (fun e => if e.firstBlock < ext.block then j + 1 else j) =
      .ok (j + 1) := by
    show Except.ok (if en.firstBlock < ext.block then j + 1 else j) = _
    rw [if_pos hlt]
  unfold insertInternal
  rw [get_bind, lift_bind_of_ok hlevel]
  dsimp only
  rw [if_neg (by rw [hroom]; exact Bool.false_ne_true), lift_bind_of_ok hget,
    lift_bind_of_ok hloc, lift_bind_of_ok hins]
  rfl

/-- The path goes on to the new node, which is empty. -/
theorem fixPath_empty {p lba j : Nat} {idx : Option Nat} {b : Bytes}
    (hidx : c.path.rootIdx = some j) (hleafs : c.path.leafs = [(p, idx)])
    (hb : c.fs.blocks lba = some b) (hmagic : ExtentHeader.fromBytes b = .ok (.node b))
    (hempty : (ExtentHeader.node b).entriesCnt = 0) :
    fixPath 0 [lba] c = (.ok (), atPath c (some (j + 1)) [(lba, none)]) := by
  -- The index of the root moves on by one, to the new entry.
  have hlevel : c.level 0 = .ok (.tree c.path.root, some j) := by rw [Cursor.level, hidx]
  have hnode : node lba (c.setIdx 0 (some (j + 1))) =
      (.ok (.node b), c.setIdx 0 (some (j + 1))) := by
    have hb' : (c.setIdx 0 (some (j + 1))).fs.blocks lba = some b := hb
    rw [node, get_bind, hb']
    dsimp only
    rw [hmagic]
    rfl
  unfold fixPath
  rw [get_bind, lift_bind_of_ok hlevel]
  dsimp only
  rw [modify_bind]
  have hone : ∀ f : Nat → CursorM Unit, [lba].forM f = (f lba >>= fun _ => pure ()) := fun f => rfl
  rw [hone]
  -- The path's leaf node becomes the new block, whose index is none as it is empty.
  refine (bind_of_ok
    (show _ = (Except.ok (), atPath c (some (j + 1)) [(lba, none)]) from ?_)).trans rfl
  refine (bind_of_ok hnode).trans ?_
  rw [get_bind, hempty, if_pos rfl]
  have hlen : 0 < (c.setIdx 0 (some (j + 1))).path.leafs.length := by
    show 0 < c.path.leafs.length
    rw [hleafs]
    exact Nat.zero_lt_one
  rw [if_pos hlen, modify_apply]
  simp only [Cursor.setIdx, hleafs, List.set_cons_zero]

theorem fixKeys_root {nd nd' : ExtentHeader} {i : Internal} {start j : Nat}
    (hlevel : c.level 0 = .ok (nd, some j)) (hget : nd.get j = .ok (some (.internal i)))
    (hrep : nd.replaceAt (.internal { block := start, nextNode := i.nextNode }) j = .ok nd') :
    fixKeys start 1 0 c = (.ok (), c.store 0 nd') := by
  rw [fixKeys, if_neg (not_not.mpr rfl), get_bind, lift_bind_of_ok hlevel]
  dsimp only
  rw [lift_bind_of_ok (show unwrap (some j) = .ok j from rfl), lift_bind_of_ok hget,
    lift_bind_of_ok (show unwrap _ = .ok i from rfl), lift_bind_of_ok hrep]
  rfl

/-- The run becomes the first extent of the new node, and the root keeps its key. -/
theorem insertLeaf_newNode {lba : Nat} {b : Bytes} {es : List Entry}
    (hidx : c.path.rootIdx = some es.length) (hleafs : c.path.leafs = [(lba, none)])
    (hb : c.fs.blocks lba = some b) (hcache : c.path.cache = none)
    (hs : (ExtentHeader.node b).Shows 0 []) (hmax : 0 < (ExtentHeader.node b).maxEntriesCnt)
    (hr : (ExtentHeader.node b).Roomy) (hkind : (ExtentHeader.node b).OfKind (.leaf new))
    (hroot : (ExtentHeader.tree c.path.root).Shows 1 (es ++ [.internal ⟨new.block, lba⟩]))
    (he : (ExtentHeader.tree c.path.root).Encodable (.internal ⟨new.block, lba⟩)) :
    ∃ b' t c', insertLeaf new c = (.ok none, c') ∧ c'.path.root = t ∧
      c'.fs.blocks = Function.update c.fs.blocks lba (some b') ∧
      (ExtentHeader.node b).Like (.node b') ∧
      (ExtentHeader.node b').Shows 0 [(ExtentHeader.node b).asRead (.leaf new)] ∧
      (ExtentHeader.tree c.path.root).Like (.tree t) ∧
      (ExtentHeader.tree t).Shows 1 (es ++ [.internal ⟨new.block, lba⟩]) := by
  -- The path stands on no entry, so the extent goes to the slot 0.
  have hlen : c.len - 1 = 1 := by rw [Cursor.len, hleafs]; rfl
  have hlevel : c.level (c.len - 1) = .ok (.node b, none) := by
    rw [hlen, Cursor.level, hleafs]
    simp only [List.getElem?_cons_zero, hb]
  have hfull : (ExtentHeader.node b).isFull = false := by
    rw [ExtentHeader.isFull, hs.entriesCnt]
    exact decide_eq_false hmax.ne
  obtain ⟨nd, hins, hlike, hshows⟩ := ExtentHeader.insertAt_append_reads hs hmax hr.capacity
    hr.maxEntriesCnt_lt hkind
  -- An entry of slot 0 sends its key up to the root, which has it already.
  obtain ⟨rd, hrep, hlikeR, hshowsR⟩ := ExtentHeader.replaceAt_spec hroot
    (i := es.length) (by simp) he
  rw [List.set_append_right _ _ (Nat.le_refl _), Nat.sub_self, List.set_cons_zero] at hshowsR
  have hget : (ExtentHeader.tree c.path.root).get es.length =
      .ok (some (.internal ⟨new.block, lba⟩)) := by
    rw [hroot.get]
    simp
  cases nd with
  | tree t => cases hlike
  | node b' =>
      cases rd with
      | node b => cases hlikeR
      | tree t =>
          have hrun := insertLeaf_empty hlevel hcache hfull hins
          have hstate : (c.setIdx (c.len - 1) (some 0)).store (c.len - 1) (.node b') =
              withBlock (atPath c (some es.length) [(lba, some 0)]) lba b' := by
            rw [hlen]
            simp only [Cursor.setIdx, Cursor.store, hleafs, List.modify_zero_cons,
              List.getElem?_cons_zero, ← hidx]
          rw [hstate, hlen] at hrun
          have hfix : fixKeys new.block 1 0 (withBlock (atPath c (some es.length) [(lba, some 0)])
              lba b') = (.ok (), _) := fixKeys_root rfl hget hrep
          rw [bind_of_ok hfix] at hrun
          exact ⟨b', t, _, hrun, rfl, rfl, hlike, hshows, hlikeR, hshowsR⟩

end Path
end RustExt4.Inode.Extent
