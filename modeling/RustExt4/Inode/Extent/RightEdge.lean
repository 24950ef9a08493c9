/-
  RustExt4.Inode.Extent.RightEdge

  The right edge of an extent tree: the nodes on the way to its last extent.  A
  path loaded for a file block behind all extents is this edge, and the last
  node can be exchanged without touching the rest of the tree.
-/
import RustExt4.Inode.Extent.Lookup

namespace RustExt4.Inode.Extent

open StateExcept
open Predecessor (Ascending IsPred)

/-! ## The tree reads its own blocks only -/

/-- Blocks that are no nodes of the tree do not matter. -/
theorem Tree.congr {blocks blocks' : Nat → Option Bytes} {d : Nat} {h : ExtentHeader}
    {ls : List Leaf} {ns : List Nat} (ht : Tree blocks d h ls ns)
    (heq : ∀ n ∈ ns, blocks' n = blocks n) : Tree blocks' d h ls ns := by
  induction d generalizing h ls ns with
  | zero => exact ht
  | succ d ih =>
      obtain ⟨cs, hs, hne, hkeys, rfl, rfl, hc⟩ := ht
      have hmem : ∀ c ∈ cs, ∀ n, n = c.entry.nextNode ∨ n ∈ c.nodes → blocks' n = blocks n := by
        intro c hmem n hn
        exact heq n (List.mem_flatMap.mpr ⟨c, hmem, List.mem_cons.mpr hn⟩)
      refine ⟨cs, hs, hne, hkeys, rfl, rfl, fun c hcs => ?_⟩
      obtain ⟨b, e, hb, hm, hsub, hget, hkey⟩ := hc c hcs
      exact ⟨b, e, (hmem c hcs _ (Or.inl rfl)).trans hb, hm,
        ih hsub fun n hn => hmem c hcs n (Or.inr hn), hget, hkey⟩

/-- A tree is what its top node shows. -/
theorem Tree.of_shows {blocks : Nat → Option Bytes} {d : Nat} {h h' : ExtentHeader}
    {ls : List Leaf} {ns : List Nat} (ht : Tree blocks d h ls ns)
    (hs : ∀ es, h.Shows d es → h'.Shows d es) : Tree blocks d h' ls ns := by
  cases d with
  | zero => exact ⟨hs _ ht.1, ht.2⟩
  | succ d =>
      obtain ⟨cs, hcs, hrest⟩ := ht
      exact ⟨cs, hs _ hcs, hrest⟩

/-! ## The right edge -/

/-- The nodes below `h` on the way to the last extent, each with its last index. -/
def rightPath (blocks : Nat → Option Bytes) : Nat → ExtentHeader → List (Nat × Option Nat)
  | 0, _ => []
  | d + 1, h =>
    match h.get (h.entriesCnt - 1) with
    | .ok (some (.internal i)) =>
      match blocks i.nextNode with
      | some b =>
        (i.nextNode, some ((ExtentHeader.node b).entriesCnt - 1)) :: rightPath blocks d (.node b)
      | none => []
    | _ => []

/-- The node that holds the last extent. -/
def rightNode (blocks : Nat → Option Bytes) : Nat → ExtentHeader → ExtentHeader
  | 0, h => h
  | d + 1, h =>
    match h.get (h.entriesCnt - 1) with
    | .ok (some (.internal i)) =>
      match blocks i.nextNode with
      | some b => rightNode blocks d (.node b)
      | none => h
    | _ => h

section
variable {blocks : Nat → Option Bytes} {d : Nat} {h : ExtentHeader} {ls : List Leaf}
  {ns : List Nat}

/-- The child is a tree in its block, with the key of its entry. -/
def Child.Holds (blocks : Nat → Option Bytes) (d : Nat) (c : Child) : Prop :=
  ∃ b e, blocks c.entry.nextNode = some b ∧ ExtentHeader.fromBytes b = .ok (.node b) ∧
    Tree blocks d (.node b) c.leafs c.nodes ∧ (ExtentHeader.node b).get 0 = .ok (some e) ∧
    e.firstBlock = c.entry.block

/-- The last child of a node and what lies left of it. -/
theorem Tree.lastChild (ht : Tree blocks (d + 1) h ls ns) :
    ∃ (cs : List Child) (c : Child),
      h.Shows (d + 1) ((cs ++ [c]).map fun c => .internal c.entry) ∧
      Ascending (fun c => c.entry.block) (cs ++ [c]) ∧
      ls = cs.flatMap Child.leafs ++ c.leafs ∧
      ns = cs.flatMap (fun c => c.entry.nextNode :: c.nodes) ++ c.entry.nextNode :: c.nodes ∧
      (∀ c ∈ cs, c.Holds blocks d) ∧ c.Holds blocks d ∧
      h.get (h.entriesCnt - 1) = .ok (some (.internal c.entry)) := by
  obtain ⟨cs, hs, hne, hkeys, rfl, rfl, hc⟩ := ht
  rcases List.eq_nil_or_concat cs with rfl | ⟨cs, c, rfl⟩
  · exact absurd rfl hne
  · rw [List.concat_eq_append] at hs hkeys hc ⊢
    refine ⟨cs, c, hs, hkeys, by simp, by simp, fun c' hc' => hc c' (List.mem_append_left _ hc'),
      hc c (by simp), ?_⟩
    rw [hs.get, hs.entriesCnt]
    simp

/-- A last child with the same entry can take the place of the last one. -/
theorem Tree.of_lastChild {cs : List Child} {c : Child} {leafs : List Leaf} {nodes : List Nat}
    (hs : h.Shows (d + 1) ((cs ++ [c]).map fun c => .internal c.entry))
    (hkeys : Ascending (fun c => c.entry.block) (cs ++ [c])) (hcs : ∀ c ∈ cs, c.Holds blocks d)
    (hc : Child.Holds blocks d { c with leafs := leafs, nodes := nodes }) :
    Tree blocks (d + 1) h (cs.flatMap Child.leafs ++ leafs)
      (cs.flatMap (fun c => c.entry.nextNode :: c.nodes) ++ c.entry.nextNode :: nodes) := by
  refine ⟨cs ++ [{ c with leafs := leafs, nodes := nodes }], by simpa using hs, by simp,
    by simpa [Ascending, List.pairwise_append] using hkeys, by simp, by simp, fun c' hc' => ?_⟩
  rcases List.mem_append.mp hc' with hc1 | hc1
  · exact hcs c' hc1
  · obtain rfl := List.mem_singleton.mp hc1
    exact hc

theorem Child.Holds.congr {blocks' : Nat → Option Bytes} {c : Child} (hc : c.Holds blocks d)
    (heq : ∀ n, n = c.entry.nextNode ∨ n ∈ c.nodes → blocks' n = blocks n) :
    c.Holds blocks' d := by
  obtain ⟨b, e, hb, hm, hsub, hrest⟩ := hc
  exact ⟨b, e, (heq _ (Or.inl rfl)).trans hb, hm, hsub.congr fun n hn => heq n (Or.inr hn), hrest⟩

/-- The key of a child is the first block of one of its extents. -/
theorem Child.Holds.exists_key {c : Child} (hc : c.Holds blocks d) :
    ∃ l ∈ c.leafs, l.block = c.entry.block := by
  obtain ⟨b, e, -, -, hsub, hget, hkey⟩ := hc
  obtain ⟨l, e', hhead, hget', hkey'⟩ := hsub.head
  rw [hget] at hget'
  cases hget'
  exact ⟨l, List.mem_of_mem_head? hhead, hkey'.symm.trans hkey⟩

/-- The edge has one node for each level. -/
theorem Tree.length_rightPath (ht : Tree blocks d h ls ns) :
    (rightPath blocks d h).length = d := by
  induction d generalizing h ls ns with
  | zero => rfl
  | succ d ih =>
      obtain ⟨cs, c, -, -, -, -, -, ⟨b, e, hb, -, hsub, -⟩, hlast⟩ := ht.lastChild
      simp only [rightPath, hlast, hb, List.length_cons, ih hsub]

/-- The nodes of the edge are nodes of the tree, in order. -/
theorem Tree.rightPath_sublist (ht : Tree blocks d h ls ns) :
    ((rightPath blocks d h).map Prod.fst).Sublist ns := by
  induction d generalizing h ls ns with
  | zero => exact List.nil_sublist _
  | succ d ih =>
      obtain ⟨cs, c, -, -, -, rfl, -, ⟨b, e, hb, -, hsub, -⟩, hlast⟩ := ht.lastChild
      simp only [rightPath, hlast, hb, List.map_cons]
      exact ((ih hsub).cons_cons _).trans (List.sublist_append_right _ _)

/-- The edge does not change with blocks that are no nodes of the tree. -/
theorem Tree.rightPath_congr (ht : Tree blocks d h ls ns) {blocks' : Nat → Option Bytes}
    (heq : ∀ n ∈ ns, blocks' n = blocks n) :
    rightPath blocks' d h = rightPath blocks d h ∧
      rightNode blocks' d h = rightNode blocks d h := by
  induction d generalizing h ls ns with
  | zero => exact ⟨rfl, rfl⟩
  | succ d ih =>
      obtain ⟨cs, c, -, -, -, rfl, -, ⟨b, e, hb, -, hsub, -⟩, hlast⟩ := ht.lastChild
      obtain ⟨h1, h2⟩ := ih hsub fun n hn => heq n (by simp [hn])
      have hb' := (heq c.entry.nextNode (by simp)).trans hb
      simp only [rightPath, rightNode, hlast, hb, hb', h1, h2, and_self]

/-- Behind all extents a search goes down the right edge. -/
theorem Tree.descend_right (ht : Tree blocks d h ls ns) {fba : Nat}
    (hle : ∀ l ∈ ls, l.block ≤ fba) :
    ∃ e L, ls.getLast? = some L ∧ h.binarySearch fba = .ok (some (h.entriesCnt - 1)) ∧
      h.get (h.entriesCnt - 1) = .ok (some e) ∧
      ∀ c : Cursor, c.fs.blocks = blocks → c.path.leafs.length + d ≤ 5 →
        Path.descend (fun h => h.binarySearch fba) d (some e) c =
          (.ok (some (.leaf L)), Path.pushed c (rightPath blocks d h)) := by
  induction d generalizing h ls ns with
  | zero =>
      obtain ⟨hs, hne, hasc, -⟩ := ht
      obtain ⟨l0, rest, rfl⟩ := List.exists_cons_of_ne_nil hne
      have hasc' : Ascending Entry.firstBlock ((l0 :: rest).map .leaf) := List.pairwise_map.mpr hasc
      obtain ⟨i, e, hsearch, hget, hpred⟩ := ExtentHeader.binarySearch_spec fba hs hasc' rfl
        (hle l0 List.mem_cons_self)
      obtain ⟨l, rfl, hpred'⟩ := hpred.of_map
      obtain ⟨hi, hlast⟩ := hpred'.last hle
      obtain rfl : i = h.entriesCnt - 1 := by
        rw [hs.entriesCnt, List.length_map]
        omega
      refine ⟨_, l, hlast, hsearch, hget, fun c _ _ => ?_⟩
      simp [Path.descend, Path.pushed, rightPath]
  | succ d ih =>
      obtain ⟨cs, c, hs, hkeys, rfl, rfl, hcs, hc, hlast⟩ := ht.lastChild
      have hkeys' : Ascending Entry.firstBlock ((cs ++ [c]).map fun c => .internal c.entry) :=
        List.pairwise_map.mpr hkeys
      have hall : ∀ e ∈ (cs ++ [c]).map (fun c => Entry.internal c.entry), e.firstBlock ≤ fba := by
        intro e he
        obtain ⟨c', hc', rfl⟩ := List.mem_map.mp he
        show c'.entry.block ≤ fba
        rcases List.mem_append.mp hc' with hc1 | hc1
        · obtain ⟨l, hl, hkey⟩ := (hcs c' hc1).exists_key
          exact hkey ▸ hle l (List.mem_append_left _ (List.mem_flatMap.mpr ⟨c', hc1, hl⟩))
        · obtain rfl := List.mem_singleton.mp hc1
          obtain ⟨l, hl, hkey⟩ := hc.exists_key
          exact hkey ▸ hle l (List.mem_append_right _ hl)
      obtain ⟨b, e, hb, hm, hsub, -, -⟩ := hc
      obtain ⟨e0, hhead⟩ :
          ∃ e0, ((cs ++ [c]).map fun c => Entry.internal c.entry).head? = some e0 := by
        cases cs <;> exact ⟨_, rfl⟩
      obtain ⟨i, e1, hsearch, hget, hpred⟩ := ExtentHeader.binarySearch_spec fba hs hkeys' hhead
        (hall e0 (List.mem_of_mem_head? hhead))
      obtain ⟨hi, -⟩ := hpred.last hall
      obtain rfl : i = h.entriesCnt - 1 := by
        rw [hs.entriesCnt]
        omega
      obtain ⟨e2, L, hL, hsearch2, hget2, hdesc⟩ :=
        ih hsub fun l hl => hle l (List.mem_append_right _ hl)
      refine ⟨.internal c.entry, L, by rw [List.getLast?_append, hL]; rfl, hsearch, hlast,
        fun c0 hblocks hlen => ?_⟩
      rw [Path.descend_internal, hblocks, hb]
      simp only [hm, hsearch2, ExtentHeader.getAt, hget2]
      rw [if_pos (by omega)]
      refine (hdesc (Path.pushed c0 _) hblocks (by simp; omega)).trans ?_
      simp [Path.pushed, rightPath, hlast, hb]

/-- The last node of the edge holds the last extents. -/
theorem Tree.rightPath_last (ht : Tree blocks (d + 1) h ls ns) :
    ∃ p b, (rightPath blocks (d + 1) h).getLast? =
        some (p, some ((ExtentHeader.node b).entriesCnt - 1)) ∧
      blocks p = some b ∧ rightNode blocks (d + 1) h = .node b := by
  induction d generalizing h ls ns with
  | zero =>
      obtain ⟨cs, c, -, -, -, -, -, ⟨b, e, hb, -⟩, hlast⟩ := ht.lastChild
      exact ⟨c.entry.nextNode, b, by simp [rightPath, hlast, hb], hb,
        by simp [rightNode, hlast, hb]⟩
  | succ d ih =>
      obtain ⟨cs, c, -, -, -, -, -, ⟨b, e, hb, -, hsub, -⟩, hlast⟩ := ht.lastChild
      obtain ⟨p, bp, hpath, hbp, hnode⟩ := ih hsub
      have hpath' : rightPath blocks (d + 1 + 1) h =
          (c.entry.nextNode, some ((ExtentHeader.node b).entriesCnt - 1)) ::
            rightPath blocks (d + 1) (.node b) := by
        rw [rightPath]
        simp only [hlast, hb]
      refine ⟨p, bp, by rw [hpath', List.getLast?_cons, hpath]; rfl, hbp, ?_⟩
      rw [rightNode]
      simp only [hlast, hb, hnode]

end

end RustExt4.Inode.Extent
