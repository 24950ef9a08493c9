/-
  RustExt4.Inode.Extent.Truncation

  `CursorMut::remove_after`.  The loop compares the end of the last extent with
  the cut by `<`, so an extent that ends at the cut, or that has been cut there, is
  cut again for ever; and it stops where a leaf node has become empty below a
  parent with other children.  The depth of the root never goes back.
-/
import RustExt4.Inode.Extent.Removal
import RustExt4.Inode.Extent.Grow

namespace RustExt4.Inode.Extent

open StateExcept
open Transaction (Event)
open Predecessor (Ascending)

/-! ## The loop -/

namespace Cursor

variable {c : Cursor} {pre last m ls : List Leaf} {ns : List Nat} {L : Leaf} {until_ : Nat}

theorem removeLoop_none (h : c.getLeaf = .ok none) (n : Nat) :
    removeLoop until_ (n + 1) c = (.ok (), c) := by
  rw [removeLoop, get_bind, lift_bind_of_ok h]
  rfl

/-- One round at an extent that reaches the cut. -/
theorem removeLoop_succ (h : c.getLeaf = .ok (some L)) (hlen : L.len < 2 ^ 16)
    (hcut : until_ ≤ L.block + L.len) {c' : Cursor}
    (hrun : Path.truncateLast (until_ - L.block) c = (.ok (), c')) (n : Nat) :
    removeLoop until_ (n + 1) c = removeLoop until_ n c' := by
  rw [removeLoop, get_bind, lift_bind_of_ok h]
  dsimp only
  rw [if_neg (by omega), if_neg (by omega), bind_of_ok hrun]

theorem OnEdge.len_lt (h : c.OnEdge pre (m ++ [L]) ns) : L.len < 2 ^ 16 := by
  obtain ⟨nd, -, hs, -⟩ := h.setLast
  exact hs.len_lt (List.mem_map_of_mem (by simp))

/-- An extent of the last node that ends at the cut or behind it, and starts before it, is
    cut in every round from some round on. -/
theorem removeLoop_stuck (h : c.OnEdge pre last ns) (hord : Ordered last)
    (hbad : ∃ l ∈ last, l.block < until_ ∧ until_ ≤ l.block + l.len) (fuel : Nat) :
    (removeLoop until_ fuel c).1 = .error .outOfFuel := by
  induction fuel generalizing c last with
  | zero => rfl
  | succ n ih =>
      obtain ⟨l, hl, hlow, hhigh⟩ := hbad
      obtain ⟨m, L, rfl⟩ : ∃ m L, last = m ++ [L] := by
        rcases List.eq_nil_or_concat last with rfl | ⟨m, L, hconcat⟩
        · cases hl
        · exact ⟨m, L, hconcat.trans (List.concat_eq_append ..)⟩
      obtain ⟨hordm, -, hcross⟩ := List.pairwise_append.mp hord
      rcases List.mem_append.mp hl with hmem | hmem
      · -- The last extent is behind the cut and goes.
        have hbehind := (hcross l hmem L (List.mem_singleton.mpr rfl)).2
        have hm : m ≠ [] := List.ne_nil_of_mem hmem
        obtain ⟨c', new, hrun, hedge, -⟩ := Path.truncateLast_zero h hm
        rw [removeLoop_succ h.getLeaf h.len_lt (by omega)
          (by rw [show until_ - L.block = 0 by omega]; exact hrun)]
        exact ih hedge hordm ⟨l, hmem, hlow, hhigh⟩
      · -- The last extent is cut through: a round shortens it and comes back to it.
        obtain rfl := List.mem_singleton.mp hmem
        obtain ⟨c', new, hrun, hedge, -⟩ :=
          Path.truncateLast_pos h (n := until_ - l.block) (by omega) (by omega)
        rw [removeLoop_succ h.getLeaf h.len_lt hhigh hrun]
        apply ih hedge
        · refine List.pairwise_append.mpr ⟨hordm, List.pairwise_singleton .., fun a ha b hb => ?_⟩
          obtain rfl := List.mem_singleton.mp hb
          exact hcross a ha l (List.mem_singleton.mpr rfl)
        · refine ⟨{ l with len := until_ - l.block }, by simp, hlow, ?_⟩
          show until_ ≤ l.block + (until_ - l.block)
          omega

/-- Without such an extent the extents of the last node that start at the cut or behind it
    go, and nothing else but empty nodes. -/
theorem removeLoop_done (h : c.OnEdge pre last ns) (hne : last ≠ []) (hord : Ordered last)
    (hgood : ∀ l ∈ last, ¬ (l.block < until_ ∧ until_ ≤ l.block + l.len)) {fuel : Nat}
    (hfuel : last.length < fuel) :
    ∃ (c' : Cursor) (new : List Event) (rm : List Nat), removeLoop until_ fuel c = (.ok (), c') ∧
      c'.Maps (pre ++ last.filter (·.block < until_)) ∧ c.Kept c' ∧ c'.events = c.events ++ new ∧
      (new.flatMap (Event.freed c.fs.sb)).Perm
        ((last.filter (until_ ≤ ·.block)).flatMap (·.tail 0) ++ rm) ∧ ∀ n ∈ rm, n ∈ ns := by
  induction last using List.reverseRecOn generalizing c fuel with
  | nil => exact absurd rfl hne
  | append_singleton m L ih =>
      obtain ⟨hordm, -, hcross⟩ := List.pairwise_append.mp hord
      obtain ⟨n, rfl⟩ : ∃ n, fuel = n + 1 := ⟨fuel - 1, by omega⟩
      rw [List.length_append, List.length_singleton] at hfuel
      by_cases hcut : until_ ≤ L.block
      · -- The last extent goes.
        have hkeep : (m ++ [L]).filter (·.block < until_) = m.filter (·.block < until_) := by
          simp [hcut]
        have hgone : (m ++ [L]).filter (until_ ≤ ·.block) = m.filter (until_ ≤ ·.block) ++ [L] := by
          simp [hcut]
        rw [hkeep, hgone]
        have hround : ∀ c1, Path.truncateLast 0 c = (.ok (), c1) →
            removeLoop until_ (n + 1) c = removeLoop until_ n c1 := fun c1 hrun =>
          removeLoop_succ h.getLeaf h.len_lt (by omega)
            (by rw [show until_ - L.block = 0 by omega]; exact hrun) n
        by_cases hm : m = []
        · subst hm
          obtain ⟨c1, new, rm, hrun, hnone, hmaps, hkept, hev, hfreed, hrm⟩ :=
            Path.truncateLast_last h
          obtain ⟨k, rfl⟩ : ∃ k, n = k + 1 := ⟨n - 1, by omega⟩
          refine ⟨c1, new, rm, (hround c1 hrun).trans (removeLoop_none hnone k),
            by simpa using hmaps, hkept, hev, ?_, hrm⟩
          rw [hfreed]
          simp
        · obtain ⟨c1, new1, hrun, hedge, hkept1, hev1, hfreed1⟩ := Path.truncateLast_zero h hm
          obtain ⟨c', new, rm, hrest, hmaps, hkept, hev, hfreed, hrm⟩ := ih hedge hm hordm
            (fun l hl => hgood l (List.mem_append_left _ hl)) (show m.length < n by omega)
          refine ⟨c', new1 ++ new, rm, (hround c1 hrun).trans hrest, hmaps, hkept1.trans hkept, ?_,
            ?_, hrm⟩
          · rw [hev, hev1, List.append_assoc]
          · rw [List.flatMap_append, hfreed1, ← hkept1.sb]
            rw [List.flatMap_append, List.flatMap_singleton, List.append_assoc]
            exact (hfreed.append_left _).trans (List.perm_append_comm_assoc ..)
      · -- It starts before the cut, so it ends there too, and the loop stops.
        have hend : L.block + L.len < until_ := by
          have := hgood L (by simp)
          omega
        have hall : ∀ l ∈ m ++ [L], l.block < until_ := by
          intro l hl
          rcases List.mem_append.mp hl with hl | hl
          · have := (hcross l hl L (List.mem_singleton.mpr rfl)).1
            omega
          · obtain rfl := List.mem_singleton.mp hl
            omega
        have hkeep : (m ++ [L]).filter (·.block < until_) = m ++ [L] :=
          List.filter_eq_self.mpr fun l hl => decide_eq_true (hall l hl)
        have hgone : (m ++ [L]).filter (until_ ≤ ·.block) = [] :=
          List.filter_eq_nil_iff.mpr fun l hl => by simpa using hall l hl
        rw [hkeep, hgone]
        refine ⟨c, [], [], ?_, Or.inr ⟨ns, h.edge.tree (by simp)⟩, Kept.refl c, by simp, by simp,
          fun n hn => nomatch hn⟩
        rw [removeLoop, get_bind, lift_bind_of_ok h.getLeaf]
        dsimp only
        rw [if_pos hend]
        rfl

/-! ## From a whole tree -/

/-- A tree, or the root of an empty file, in blocks of loaded groups. -/
structure Removable (c : Cursor) (ls : List Leaf) (ns : List Nat) : Prop where
  tree : Tree c.fs.blocks c.path.root.depth (.tree c.path.root) ls ns ∨
    c.path.root.entriesCnt = 0 ∧ ls = [] ∧ ns = []
  depth_le : c.path.root.depth ≤ 5
  ordered : Ordered ls
  len_pos : ∀ l ∈ ls, 0 < l.len
  nodup : ns.Nodup
  groups : c.fs.GroupsLoaded
  nodes : ∀ n ∈ ns, c.fs.sb.HasBlock n
  data : ∀ l ∈ ls, l.isInit = true → ∀ x ∈ Set.Ico l.start (l.start + l.len), c.fs.sb.HasBlock x

/-- The cursor with the right edge as its path. -/
abbrev atRight (c : Cursor) : Cursor :=
  { c with path := { c.path with
      rootIdx := some (c.path.root.entriesCnt - 1)
      leafs := rightPath c.fs.blocks c.path.root.depth (.tree c.path.root)
      cache := none } }

/-- `load_path_to_last` takes the right edge. -/
theorem loadPathToLast_edge (ht : Tree c.fs.blocks c.path.root.depth (.tree c.path.root) ls ns)
    (hdepth : c.path.root.depth ≤ 5) :
    Path.loadPathToLast c = (.ok (), c.atRight) := by
  obtain ⟨e, hget, hdesc⟩ := ht.descend_last
  have hcnt : c.path.root.entriesCnt ≠ 0 := by
    obtain ⟨es, hs, hne, -⟩ := ht.exists_shows
    intro h0
    exact hne (List.length_eq_zero_iff.mp (hs.entriesCnt.symm.trans h0))
  obtain ⟨r, hrun⟩ := hdesc (Path.atPath c (some (c.path.root.entriesCnt - 1)) []) rfl
    (by simpa using hdepth)
  have hget' : (ExtentHeader.tree c.path.root).getAt (some (c.path.root.entriesCnt - 1)) =
      .ok (some e) := hget
  simp only [Path.loadPathToLast, Path.clearLeafs, Path.start, Path.clearCache, bind_apply,
    modify_apply, get_apply, lift_apply, if_neg hcnt, hget', hrun]
  rfl

/-- An empty root ends the removal at once. -/
theorem removeAfter_empty (h0 : c.path.root.entriesCnt = 0) (n : Nat) :
    removeAfter (n + 1) c = (.ok (), { c with path := { c.path with
      rootIdx := none, leafs := [], cache := none } }) := by
  have hnone : ∀ d c1, Path.descend Path.pickLast d none c1 = (.ok none, c1) := by
    intro d c1
    cases d <;> rfl
  have hload : Path.loadPathToLast c = (.ok (), { c with path := { c.path with
      rootIdx := none, leafs := [], cache := none } }) := by
    simp only [Path.loadPathToLast, Path.clearLeafs, Path.start, Path.clearCache, bind_apply,
      modify_apply, get_apply, lift_apply, if_pos h0, ExtentHeader.getAt, hnone]
  rw [removeAfter, get_bind, bind_of_ok hload]
  exact removeLoop_none rfl n

theorem removeAfter_eq (ht : Tree c.fs.blocks c.path.root.depth (.tree c.path.root) ls ns)
    (hdepth : c.path.root.depth ≤ 5) (fuel : Nat) :
    removeAfter fuel c = removeLoop c.fba fuel c.atRight := by
  rw [removeAfter, get_bind, bind_of_ok (loadPathToLast_edge ht hdepth)]

/-- The path that the loop starts with. -/
theorem Removable.onEdge (h : c.Removable (pre ++ last) ns)
    (ht : Tree c.fs.blocks c.path.root.depth (.tree c.path.root) (pre ++ last) ns)
    (hlast : (rightNode c.fs.blocks c.path.root.depth (.tree c.path.root)).Shows 0
      (last.map .leaf)) :
    last ≠ [] ∧ c.atRight.OnEdge pre last ns := by
  obtain ⟨pre', last', hsplit, hne, hnode, hedge⟩ := ht.edge
  have hinj : Function.Injective Entry.leaf := fun a b hab => Entry.leaf.inj hab
  obtain rfl : last = last' := List.map_injective_iff.mpr hinj (hlast.unique hnode)
  obtain rfl : pre = pre' := List.append_cancel_right hsplit
  exact ⟨hne, hedge, rfl, rfl, h.nodup, h.groups, h.nodes,
    fun l hl => h.data l (List.mem_append_right _ hl)⟩

/-- A removal that ends: the extents of the last leaf node that start at the cut or behind
    it are gone. -/
theorem Removable.done (h : c.Removable (pre ++ last) ns)
    (hlast : pre ++ last ≠ [] →
      (rightNode c.fs.blocks c.path.root.depth (.tree c.path.root)).Shows 0 (last.map .leaf))
    (hgood : ∀ l ∈ last, ¬ (l.block < c.fba ∧ c.fba ≤ l.block + l.len)) {fuel : Nat}
    (hfuel : last.length < fuel) :
    ∃ (c' : Cursor) (new : List Event) (rm : List Nat), removeAfter fuel c = (.ok (), c') ∧
      c'.Maps (pre ++ last.filter (·.block < c.fba)) ∧ c.Kept c' ∧ c'.events = c.events ++ new ∧
      (new.flatMap (Event.freed c.fs.sb)).Perm
        ((last.filter (c.fba ≤ ·.block)).flatMap (·.tail 0) ++ rm) ∧ ∀ n ∈ rm, n ∈ ns := by
  rcases h.tree with ht | ⟨h0, hnil, rfl⟩
  · obtain ⟨l0, -, hhead, -⟩ := ht.head
    obtain ⟨hne, hedge⟩ := h.onEdge ht (hlast (List.ne_nil_of_mem (List.mem_of_mem_head? hhead)))
    have hord : Ordered last := List.Pairwise.sublist (List.sublist_append_right _ _) h.ordered
    obtain ⟨c', new, rm, hrun, hmaps, hkept, hev, hfreed, hrm⟩ :=
      removeLoop_done hedge hne hord hgood hfuel
    -- Loading the path to the last extent reads only.
    have hright : c.Kept c.atRight := ⟨rfl, rfl, rfl, rfl, rfl, fun _ => rfl⟩
    exact ⟨c', new, rm, (removeAfter_eq ht h.depth_le fuel).trans hrun, hmaps,
      hright.trans hkept, hev, hfreed, hrm⟩
  · obtain ⟨rfl, rfl⟩ := List.append_eq_nil_iff.mp hnil
    obtain ⟨n, rfl⟩ : ∃ n, fuel = n + 1 := ⟨fuel - 1, by omega⟩
    exact ⟨_, [], [], removeAfter_empty h0 n, Or.inl ⟨rfl, h0⟩,
      ⟨rfl, rfl, rfl, rfl, rfl, fun _ => rfl⟩, by simp, by simp, fun n hn => nomatch hn⟩

theorem Removable.stuck (h : c.Removable (pre ++ last) ns)
    (hlast : pre ++ last ≠ [] →
      (rightNode c.fs.blocks c.path.root.depth (.tree c.path.root)).Shows 0 (last.map .leaf))
    (hbad : ∃ l ∈ last, l.block < c.fba ∧ c.fba ≤ l.block + l.len) (fuel : Nat) :
    (removeAfter fuel c).1 = .error .outOfFuel := by
  obtain ⟨l, hl, hcut⟩ := hbad
  have hne : pre ++ last ≠ [] := List.ne_nil_of_mem (List.mem_append_right _ hl)
  rcases h.tree with ht | ⟨-, hnil, -⟩
  · obtain ⟨-, hedge⟩ := h.onEdge ht (hlast hne)
    have hord : Ordered last := List.Pairwise.sublist (List.sublist_append_right _ _) h.ordered
    rw [removeAfter_eq ht h.depth_le]
    exact removeLoop_stuck hedge hord ⟨l, hl, hcut⟩ fuel
  · exact absurd hnil hne

/-! ## Truncation at any block -/

/-- The extents of the tree of a cursor are determined. -/
theorem Maps.unique {ls' : List Leaf} (h : c.Maps ls) (h' : c.Maps ls') : ls = ls' := by
  have hempty : ∀ {ls : List Leaf} {ns : List Nat}, c.path.root.entriesCnt = 0 →
      ¬ Tree c.fs.blocks c.path.root.depth (.tree c.path.root) ls ns := by
    intro ls ns h0 ht
    obtain ⟨es, hs, hne, -⟩ := ht.exists_shows
    exact hne (List.length_eq_zero_iff.mp (hs.entriesCnt.symm.trans h0))
  rcases h with ⟨rfl, h0⟩ | ⟨ns, ht⟩
  · rcases h' with ⟨rfl, -⟩ | ⟨ns', ht'⟩
    · rfl
    · exact absurd ht' (hempty h0)
  · rcases h' with ⟨-, h0⟩ | ⟨ns', ht'⟩
    · exact absurd ht (hempty h0)
    · exact (ht.unique ht').1

/-- `remove_after` ends, and if it succeeds nothing from the cut on is mapped and everything
    before it is mapped as it was. -/
def Truncates (c : Cursor) (ls : List Leaf) : Prop :=
  ∃ N, ∀ fuel ≥ N, (removeAfter fuel c).1 ≠ .error .outOfFuel ∧
    ∀ c', removeAfter fuel c = (.ok (), c') → ∃ ls', c'.Maps ls' ∧
      ∀ x, lookup ls' x = if x < c.fba then lookup ls x else none

theorem lookup_eq_none {x : Nat} : lookup ls x = none ↔ ∀ l ∈ ls, ¬ l.contains x := by
  simp [lookup]

/-- The map without the extents of the last node from the cut on. -/
theorem lookup_filter (hpre : ∀ l ∈ pre, l.block + l.len ≤ until_)
    (hgood : ∀ l ∈ last, ¬ (l.block < until_ ∧ until_ ≤ l.block + l.len)) (x : Nat) :
    lookup (pre ++ last.filter (·.block < until_)) x =
      if x < until_ then lookup (pre ++ last) x else none := by
  split
  next hx =>
    -- Below the cut the extents that go do not cover `x`.
    unfold lookup
    rw [List.find?_append, List.find?_append, List.find?_filter]
    congr 3
    funext l
    by_cases hc : l.contains x
    · have := (Leaf.contains_iff.mp hc).1
      have hlow : l.block < until_ := by omega
      simp [hc, hlow]
    · simp [hc]
  next hx =>
    rw [lookup_eq_none]
    intro l hl hc
    obtain ⟨hlow, hhigh⟩ := Leaf.contains_iff.mp hc
    rcases List.mem_append.mp hl with hl | hl
    · have := hpre l hl
      omega
    · obtain ⟨hmem, hcut⟩ := List.mem_filter.mp hl
      have := of_decide_eq_true hcut
      exact hgood l hmem ⟨this, by omega⟩

end Cursor

open Cursor in
/-- A truncation does what it should just where no extent of the last leaf node reaches the
    cut from before it, and no other leaf node has blocks from the cut on. -/
theorem truncates_iff {c : Cursor} {pre last : List Leaf} {ns : List Nat}
    (h : c.Removable (pre ++ last) ns)
    (hlast : pre ++ last ≠ [] →
      (rightNode c.fs.blocks c.path.root.depth (.tree c.path.root)).Shows 0 (last.map .leaf)) :
    c.Truncates (pre ++ last) ↔
      (∀ l ∈ last, ¬ (l.block < c.fba ∧ c.fba ≤ l.block + l.len)) ∧
        ∀ l ∈ pre, l.block + l.len ≤ c.fba := by
  constructor
  · rintro ⟨N, hends⟩
    have hgood : ∀ l ∈ last, ¬ (l.block < c.fba ∧ c.fba ≤ l.block + l.len) := fun l hl hcut =>
      (hends N (Nat.le_refl N)).1 (h.stuck hlast ⟨l, hl, hcut⟩ N)
    refine ⟨hgood, fun l hl => ?_⟩
    obtain ⟨c', new, rm, hrun, hmaps, -⟩ :=
      h.done hlast hgood (show last.length < max N (last.length + 1) by omega)
    obtain ⟨ls', hmaps', hlookup⟩ := (hends _ (Nat.le_max_left ..)).2 c' hrun
    rw [← hmaps.unique hmaps'] at hlookup
    by_contra hout
    -- The last block of the extent is still mapped.
    have hpos := h.len_pos l (List.mem_append_left _ hl)
    have hx := hlookup (l.block + l.len - 1)
    rw [if_neg (by omega), lookup_eq_none] at hx
    exact hx l (List.mem_append_left _ hl) (Leaf.contains_iff.mpr ⟨by omega, by omega⟩)
  · rintro ⟨hgood, hpre⟩
    refine ⟨last.length + 1, fun fuel hfuel => ?_⟩
    obtain ⟨c', new, rm, hrun, hmaps, -⟩ := h.done hlast hgood (show last.length < fuel by omega)
    rw [hrun]
    refine ⟨fun herr => (nomatch herr), fun c'' heq => ?_⟩
    obtain rfl : c' = c'' := (Prod.mk.inj heq).2
    exact ⟨_, hmaps, lookup_filter hpre hgood⟩

theorem groupsLoaded_twoFree : BlockRuns.twoFree.GroupsLoaded := by
  intro g hg
  obtain rfl : g = 0 := Nat.lt_one_iff.mp hg
  exact ⟨_, rfl, rfl⟩

/-- A cursor on the extents [0, 4) and [10, 14) in the root. -/
def twoCursor (fba : Nat) : Cursor :=
  ExtentHeader.treeOfTwo.emptyCursor BlockRuns.twoFree [] (fun _ => []) 12 fba

theorem tree_treeOfTwo (blocks : Nat → Option Bytes) :
    Tree blocks 0 (.tree ExtentHeader.treeOfTwo) twoExtents [] := by
  obtain ⟨ns, hs, hne, hasc, rfl⟩ := wellFormed_treeOfTwo.tree
  exact ⟨hs, hne, hasc, rfl⟩

/-- A root of its own, with data blocks in the one group of `twoFree`. -/
theorem removable_of_root {t : ExtentTree} {ls : List Leaf}
    (ht : Tree BlockRuns.twoFree.blocks t.depth (.tree t) ls []) (hdepth : t.depth ≤ 5)
    (ho : Ordered ls) (hlen : ∀ l ∈ ls, 0 < l.len ∧ l.start + l.len ≤ 32768) (fba : Nat) :
    (t.emptyCursor BlockRuns.twoFree [] (fun _ => []) 12 fba).Removable ls [] where
  tree := Or.inl ht
  depth_le := hdepth
  ordered := ho
  len_pos := fun l hl => (hlen l hl).1
  nodup := List.nodup_nil
  groups := groupsLoaded_twoFree
  nodes := fun n hn => nomatch hn
  data := by
    intro l hl _ x hx
    have hlow : l.start ≤ x := hx.1
    have hhigh : x < l.start + l.len := hx.2
    have hbound := (hlen l hl).2
    exact ⟨Nat.zero_le x, show x < 0 + 32768 * 1 by omega⟩

theorem removable_twoCursor (fba : Nat) : (twoCursor fba).Removable twoExtents [] :=
  removable_of_root (tree_treeOfTwo _) (Nat.zero_le 5) ordered_twoExtents (by decide) fba

theorem truncates_twoCursor : (twoCursor 6).Truncates twoExtents :=
  (@truncates_iff (twoCursor 6) [] twoExtents [] (removable_twoCursor 6)
    fun _ => (tree_treeOfTwo fun _ => none).1).mpr ⟨by decide, fun _ h => nomatch h⟩

/-- A cut inside the last extent, and one right at its end. -/
theorem not_truncates_twoCursor :
    ¬ (twoCursor 12).Truncates twoExtents ∧ ¬ (twoCursor 14).Truncates twoExtents := by
  have hstuck : ∀ fba, (∃ l ∈ twoExtents, l.block < fba ∧ fba ≤ l.block + l.len) →
      ¬ (twoCursor fba).Truncates twoExtents := by
    rintro fba hbad ⟨N, hends⟩
    apply (hends N (Nat.le_refl N)).1
    exact @Cursor.Removable.stuck (twoCursor fba) [] twoExtents [] (removable_twoCursor fba)
      (fun _ => (tree_treeOfTwo fun _ => none).1) hbad N
  exact ⟨hstuck 12 (by decide), hstuck 14 (by decide)⟩

/-! ## Truncation at block 0 -/

/-- The data blocks of an extent. -/
def Leaf.blocks (l : Leaf) : List Nat := List.range' l.start l.len

open Cursor in
/-- What `Drop for Inode` needs: an empty root of depth 0, and each data block and each node
    block given back once. -/
def Cursor.FreesAll (c : Cursor) (ls : List Leaf) (ns : List Nat) : Prop :=
  ∃ N, ∀ fuel ≥ N, ∃ (c' : Cursor) (new : List Event), removeAfter fuel c = (.ok (), c') ∧
    c'.path.root.entriesCnt = 0 ∧ c'.path.root.depth = 0 ∧ c'.events = c.events ++ new ∧
    (new.flatMap (Event.freed c.fs.sb)).Perm (ls.flatMap Leaf.blocks ++ ns)

/-- The right node of a tree shows the extents of the last leaf node. -/
theorem Cursor.Removable.exists_last {c : Cursor} {ls : List Leaf} {ns : List Nat}
    (h : c.Removable ls ns) :
    ∃ pre last, ls = pre ++ last ∧ (c.path.root.depth = 0 → pre = []) ∧ (pre ++ last ≠ [] →
      (rightNode c.fs.blocks c.path.root.depth (.tree c.path.root)).Shows 0
        (last.map .leaf)) := by
  rcases h.tree with ht | ⟨-, rfl, -⟩
  · obtain ⟨pre, last, rfl, -, hnode, hedge⟩ := ht.edge
    refine ⟨pre, last, rfl, fun hd => ?_, fun _ => hnode⟩
    rw [hd] at hedge
    exact hedge.2.2.1
  · exact ⟨[], [], rfl, fun _ => rfl, fun hne => absurd rfl hne⟩

/-- No step of the removal writes the depth. -/
theorem Cursor.FreesAll.depth {c : Cursor} {ls : List Leaf} {ns : List Nat}
    (hfrees : c.FreesAll ls ns) (h : c.Removable ls ns) (hfba : c.fba = 0) :
    c.path.root.depth = 0 := by
  obtain ⟨pre, last, rfl, -, hlast⟩ := h.exists_last
  obtain ⟨N, hfrees⟩ := hfrees
  obtain ⟨c', new, hrun, -, hzero, -⟩ := hfrees (max N (last.length + 1)) (Nat.le_max_left ..)
  obtain ⟨c'', -, -, hrun', -, hkept, -⟩ := h.done hlast (fun l _ hcut => by omega)
    (show last.length < max N (last.length + 1) by omega)
  obtain rfl : c' = c'' := (Prod.mk.inj (hrun.symm.trans hrun')).2
  exact hkept.depth.symm.trans hzero

/-- Block 0 and all behind it are given back just where the root holds the extents itself. -/
theorem freesAll_iff {c : Cursor} {ls : List Leaf} {ns : List Nat} (h : c.Removable ls ns)
    (hinit : ∀ l ∈ ls, l.isInit = true) (hfba : c.fba = 0) :
    c.FreesAll ls ns ↔ c.path.root.depth = 0 := by
  constructor
  · exact fun hfrees => hfrees.depth h hfba
  · intro hd
    obtain ⟨pre, last, rfl, hdepth, hlast⟩ := h.exists_last
    have hgood : ∀ l ∈ last, ¬ (l.block < c.fba ∧ c.fba ≤ l.block + l.len) := by
      intro l _ hcut
      omega
    -- Without index nodes the root holds every extent and no node is left to free.
    obtain rfl := hdepth hd
    have hns : ns = [] := by
      rcases h.tree with ht | ⟨-, -, hnil⟩
      · rw [hd] at ht
        exact ht.2.2.2
      · exact hnil
    subst hns
    refine ⟨last.length + 1, fun fuel hfuel => ?_⟩
    obtain ⟨c', new, rm, hrun, hmaps, hkept, hev, hfreed, hrm⟩ :=
      h.done hlast hgood (show last.length < fuel by omega)
    have hkeep : last.filter (·.block < c.fba) = [] := by simp [hfba]
    have hgone : last.filter (c.fba ≤ ·.block) = last := by simp [hfba]
    rw [hkeep] at hmaps
    have hdata : last.flatMap (·.tail 0) = last.flatMap Leaf.blocks :=
      List.flatMap_congr fun l hl => if_pos (hinit l hl)
    rw [hgone, hdata] at hfreed
    obtain rfl : rm = [] := List.eq_nil_iff_forall_not_mem.mpr fun n hn => nomatch hrm n hn
    refine ⟨c', new, hrun, ?_, hkept.depth.trans hd, hev, hfreed⟩
    rcases hmaps with ⟨-, h0⟩ | ⟨ns', ht⟩
    · exact h0
    · obtain ⟨l, -, hhead, -⟩ := ht.head
      cases hhead

theorem freesAll_twoCursor : (twoCursor 0).FreesAll twoExtents [] :=
  (freesAll_iff (removable_twoCursor 0) (by decide) rfl).mpr rfl

/-- Of two leaf nodes the first one stays, with its extent, and the depth is still 1. -/
theorem not_freesAll_twoLeafs : ∃ (c c' : Cursor) (l1 l2 : Leaf),
    c.Removable [l1, l2] [100, 200] ∧ l1.isInit = true ∧ l2.isInit = true ∧ c.fba = 0 ∧
      c.removeAfter 2 = (.ok (), c') ∧ c'.Maps [l1] ∧ c'.path.root.depth = 1 ∧
      ¬ c.FreesAll [l1, l2] [100, 200] := by
  obtain ⟨t, b1, b2, htd, -, -, -, hts, -, hs2, -, hm2, ht⟩ := exists_twoLeafs
    { block := 0, start := 300, len := 5, isInit := true }
    { block := 10, start := 400, len := 5, isInit := true } [] []
    (by decide) (List.pairwise_singleton ..) (List.pairwise_singleton ..) (by decide) (by decide)
    (by decide)
  -- Two leaf nodes of one extent each: the loop ends when the last one is empty.
  have hblock : ∀ n, n < 32768 → (fsOf (twoBlocks b1 b2)).sb.HasBlock n := fun n hn =>
    ⟨Nat.zero_le n, show n < 0 + 32768 * 1 by omega⟩
  let c : Cursor := t.emptyCursor (fsOf (twoBlocks b1 b2)) [] (fun _ => []) 12 0
  have hrem : c.Removable [{ block := 0, start := 300, len := 5, isInit := true },
      { block := 10, start := 400, len := 5, isInit := true }] [100, 200] :=
    { tree := Or.inl (show Tree _ t.depth (.tree t) _ _ by rw [htd]; exact ht)
      depth_le := show t.depth ≤ 5 by rw [htd]; decide
      ordered := List.pairwise_pair.mpr (by decide)
      len_pos := by decide
      nodup := by decide
      groups := groupsLoaded_twoFree
      nodes := fun n hn => hblock n (by simp at hn; omega)
      data := fun l hl _ x hx => hblock x (by
        have hhigh : x < l.start + l.len := hx.2
        have hbound : ∀ l ∈ [({ block := 0, start := 300, len := 5, isInit := true } : Leaf),
          { block := 10, start := 400, len := 5, isInit := true }],
          l.start + l.len ≤ 32768 := by decide
        have := hbound l hl
        omega) }
  have hright : (rightNode c.fs.blocks c.path.root.depth (.tree c.path.root)).Shows 0
      [.leaf { block := 10, start := 400, len := 5, isInit := true }] := by
    show (rightNode (twoBlocks b1 b2) t.depth (.tree t)).Shows 0 _
    have hget : (ExtentHeader.tree t).get ((ExtentHeader.tree t).entriesCnt - 1) =
        .ok (some (.internal ⟨10, 200⟩)) := by
      rw [hts.get, hts.entriesCnt]
      rfl
    rw [htd]
    simp only [rightNode, hget, twoBlocks]
    exact hs2
  obtain ⟨c', new, rm, hrun, hmaps, hkept, -⟩ := @Cursor.Removable.done c [_] [_] [100, 200] hrem
    (fun _ => hright) (fun l _ hcut => absurd hcut.1 (Nat.not_lt_zero _)) 2 (by decide)
  have hdepth : c.path.root.depth = 1 := htd
  refine ⟨c, c', _, _, hrem, rfl, rfl, rfl, hrun, hmaps, hkept.depth.trans hdepth, fun hfrees => ?_⟩
  have := hfrees.depth hrem rfl
  omega

end RustExt4.Inode.Extent
