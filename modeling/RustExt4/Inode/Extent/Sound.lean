/-
  RustExt4.Inode.Extent.Sound

  What an append to a file starts from and should lead to: a sound extent tree, the map
  that has the new run and is otherwise the same, and a path that is the right edge of
  its tree.
-/
import RustExt4.Inode.Extent.RightEdge

namespace RustExt4.Inode.Extent

open StateExcept
open Transaction (Event)
open Predecessor (Ascending IsPred)

/-! ## Sound trees -/

/-- The entries of a node fit it. -/
structure ExtentHeader.Roomy (h : ExtentHeader) : Prop where
  entriesCnt_le : h.entriesCnt ≤ h.maxEntriesCnt
  capacity : h.base + 12 * h.maxEntriesCnt ≤ h.bytes.length
  maxEntriesCnt_lt : h.maxEntriesCnt < 2 ^ 16

/-- A tree with these extents in these node blocks, or the root of an empty file. -/
structure Sound (blocks : Nat → Option Bytes) (t : ExtentTree) (ls : List Leaf) (ns : List Nat) :
    Prop where
  tree : Tree blocks t.depth (.tree t) ls ns ∨
    (ExtentHeader.tree t).Shows 0 [] ∧ ls = [] ∧ ns = []
  depth_le : t.depth ≤ 4
  ordered : Ordered ls
  len_pos : ∀ l ∈ ls, 0 < l.len
  bound : ∀ l ∈ ls, l.block + l.len < 2 ^ 32
  root_max : t.maxEntriesCnt = 4
  root_len : t.b.length = 48
  root_cnt : t.entriesCnt ≤ 4
  nodup : ns.Nodup
  roomy : ∀ n ∈ ns, ∀ b, blocks n = some b → (ExtentHeader.node b).Roomy

/-! ## The map after an append -/

/-- The new extent is mapped and nothing else has changed. -/
def Extends (ls : List Leaf) (new : Leaf) (ls' : List Leaf) : Prop :=
  (∀ i < new.len, lookup ls' (new.block + i) = some (.initialized (new.start + i))) ∧
    ∀ x, x < new.block ∨ new.block + new.len ≤ x → lookup ls' x = lookup ls x

section
variable {ls : List Leaf} {l new : Leaf} {x : Nat}

/-- The last extent answers for its blocks, the others for the rest. -/
theorem Ordered.lookup_append (ho : Ordered (ls ++ [l])) :
    lookup (ls ++ [l]) x = if l.contains x then some (l.address x) else lookup ls x := by
  obtain ⟨-, -, hcross⟩ := List.pairwise_append.mp ho
  rw [lookup, List.find?_append, List.find?_singleton]
  by_cases hc : l.contains x
  · have hnone : ls.find? (·.contains x) = none := by
      refine List.find?_eq_none.mpr fun a ha hca => ?_
      have := (hcross a ha l List.mem_cons_self).2
      have := (Leaf.contains_iff.mp hca).2
      have := (Leaf.contains_iff.mp hc).1
      omega
    simp [hnone, hc]
  · rw [if_neg hc, if_neg hc, Option.or_none, lookup]

/-- An extent behind all others. -/
theorem Ordered.snoc (ho : Ordered ls) (hpos : ∀ l ∈ ls, 0 < l.len)
    (hafter : ∀ l ∈ ls, l.block + l.len ≤ new.block) : Ordered (ls ++ [new]) := by
  refine List.pairwise_append.mpr ⟨ho, List.pairwise_singleton .., fun a ha b hb => ?_⟩
  obtain rfl := List.mem_singleton.mp hb
  have := hafter a ha
  have := hpos a ha
  exact ⟨by omega, by omega⟩

theorem extends_snoc (ho : Ordered (ls ++ [new])) (hi : new.isInit = true) :
    Extends ls new (ls ++ [new]) := by
  refine ⟨fun i hi' => ?_, fun x hx => ?_⟩
  · rw [ho.lookup_append, if_pos (Leaf.contains_iff.mpr ⟨by omega, by omega⟩), Leaf.address,
      if_pos hi, Nat.add_sub_cancel_left]
  · rw [ho.lookup_append, if_neg]
    intro hc
    have := Leaf.contains_iff.mp hc
    omega

/-- The two extents follow each other in the file and on the device, and one extent
    can hold both. -/
def Merges (l new : Leaf) : Prop :=
  l.block + l.len = new.block ∧ l.start + l.len = new.start ∧ l.isInit = true ∧
    l.len + new.len ≤ 0x8000

theorem extends_merge (hm : Merges l new)
    (ho : Ordered (ls ++ [l])) (ho' : Ordered (ls ++ [{ l with len := l.len + new.len }])) :
    Extends (ls ++ [l]) new (ls ++ [{ l with len := l.len + new.len }]) := by
  obtain ⟨hblock, hstart, hi, -⟩ := hm
  refine ⟨fun i hi' => ?_, fun x hx => ?_⟩
  · have hc : Leaf.contains { l with len := l.len + new.len } (new.block + i) = true :=
      Leaf.contains_iff.mpr ⟨show l.block ≤ new.block + i by omega,
        show new.block + i < l.block + (l.len + new.len) by omega⟩
    rw [ho'.lookup_append, if_pos hc, Leaf.address, if_pos hi]
    show some (AddressingOutput.initialized (l.start + (new.block + i - l.block))) = _
    congr 2
    omega
  · rw [ho.lookup_append, ho'.lookup_append]
    have hiff : (Leaf.contains { l with len := l.len + new.len } x = true) ↔ l.contains x := by
      rw [Leaf.contains_iff, Leaf.contains_iff]
      dsimp only
      omega
    by_cases hc : l.contains x
    · rw [if_pos hc, if_pos (hiff.mpr hc)]
      rfl
    · rw [if_neg hc, if_neg fun h => hc (hiff.mp h)]

end

/-! ## A path that is the right edge -/

namespace Cursor

variable {c : Cursor} {p at_ : Nat} {idx : Option Nat} {b b' : Bytes} {nd : ExtentHeader}

theorem level_last (hlast : c.path.leafs.getLast? = some (p, idx)) (hb : c.fs.blocks p = some b) :
    c.level (c.len - 1) = .ok (.node b, idx) := by
  obtain ⟨l, hl⟩ := List.getLast?_eq_some_iff.mp hlast
  have hlen : c.len - 1 = l.length + 1 := by
    rw [len, hl, List.length_append, List.length_singleton]
    omega
  rw [hlen, level, hl, List.getElem?_append_right (Nat.le_refl _), Nat.sub_self]
  simp only [List.getElem?_cons_zero, hb]

theorem store_last (hlast : c.path.leafs.getLast? = some (p, idx)) :
    c.store (c.len - 1) (.node b') =
      { c with fs := { c.fs with blocks := Function.update c.fs.blocks p (some b') } } := by
  obtain ⟨l, hl⟩ := List.getLast?_eq_some_iff.mp hlast
  have hlen : c.len - 1 = l.length + 1 := by
    rw [len, hl, List.length_append, List.length_singleton]
    omega
  rw [hlen]
  simp only [store]
  rw [hl, List.getElem?_append_right (Nat.le_refl _), Nat.sub_self]
  rfl

/-- The indices of the path do not matter where a node of it is written. -/
theorem store_setIdx (c : Cursor) (at_ : Nat) (idx : Option Nat) (nd : ExtentHeader) :
    ((c.setIdx at_ idx).store at_ nd).fs.blocks = (c.store at_ nd).fs.blocks ∧
      ((c.setIdx at_ idx).store at_ nd).path.root = (c.store at_ nd).path.root := by
  cases at_ with
  | zero => cases nd <;> exact ⟨rfl, rfl⟩
  | succ at_ =>
      cases nd with
      | tree t => exact ⟨rfl, rfl⟩
      | node b =>
          simp only [setIdx, store, List.getElem?_modify]
          cases c.path.leafs[at_]? <;> simp

end Cursor

/-- The cursor's path is the right edge of its tree. -/
structure Cursor.AtRight (c : Cursor) (ls : List Leaf) (ns : List Nat) : Prop where
  tree : Tree c.fs.blocks c.path.root.depth (.tree c.path.root) ls ns
  rootIdx : c.path.rootIdx = some (c.path.root.entriesCnt - 1)
  leafs : c.path.leafs = rightPath c.fs.blocks c.path.root.depth (.tree c.path.root)
  cache : c.path.cache = none

/-- A path loaded for a block behind all extents is the right edge. -/
theorem Path.loadMut_right {c : Cursor} {ls : List Leaf} {ns : List Nat} {fba : Nat}
    (ht : Tree c.fs.blocks c.path.root.depth (.tree c.path.root) ls ns)
    (hdepth : c.path.root.depth ≤ 5) (hle : ∀ l ∈ ls, l.block ≤ fba) :
    loadMut fba c = (.ok (), atPath c (some (c.path.root.entriesCnt - 1))
      (rightPath c.fs.blocks c.path.root.depth (.tree c.path.root))) := by
  obtain ⟨e, L, -, hsearch, hget, hdesc⟩ := ht.descend_right hle
  rw [loadMut_eq]
  simp only [hsearch, ExtentHeader.getAt, hget]
  rw [hdesc (atPath c _ []) rfl (by simpa using hdepth)]
  rfl

end RustExt4.Inode.Extent
