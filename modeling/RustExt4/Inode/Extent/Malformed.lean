/-
  RustExt4.Inode.Extent.Malformed

  `Path::load` on any root and any content of the blocks it comes to, as long as
  the numbers of entries fit.  A walk panics in three ways: where a search goes
  left until it has passed slot 0, at an extent that it meets above the last
  level, and at a sixth node.  Where the keys of a node ascend, the first of the
  three is every file block below the first key.
-/
import RustExt4.Inode.Extent.Insertion
import RustExt4.Inode.Extent.Lookup

namespace RustExt4.Inode.Extent

open StateExcept
open Predecessor (Ascending)

/-! ## One node -/

namespace ExtentHeader

variable {h : ExtentHeader} {fba l r : Nat}

/-- The entries lie within the bytes. -/
def Fits (h : ExtentHeader) : Prop := h.base + 12 * h.entriesCnt ≤ h.bytes.length

instance (h : ExtentHeader) : Decidable h.Fits := inferInstanceAs (Decidable (_ ≤ _))

/-- The slots that `binary_search` probes as long as it goes left: the middle of what is
    left, down to slot 0. -/
def leftProbes (r : Nat) : List Nat :=
  r / 2 :: if r / 2 = 0 then [] else leftProbes (r / 2 - 1)
termination_by r
decreasing_by omega

/-- Each of these slots holds a key above the file block, so that `m - 1` is taken at 0. -/
def OffLeft (h : ExtentHeader) (fba : Nat) : Prop :=
  0 < h.entriesCnt ∧ ∀ m ∈ leftProbes (h.entriesCnt - 1), fba < (h.slot m).firstBlock

theorem Fits.get (hf : h.Fits) {m : Nat} (hm : m < h.entriesCnt) :
    h.get m = .ok (some (h.slot m)) := by
  unfold Fits at hf
  exact get_slot hm (by omega)

/-- One probe of the search. -/
theorem Fits.searchFrom_eq (hf : h.Fits) (hlr : l ≤ r) (hr : r < h.entriesCnt) :
    h.searchFrom fba l r =
      if fba < (h.slot (l + (r - l) / 2)).firstBlock then
        if l + (r - l) / 2 = 0 then .error .panic
        else h.searchFrom fba l (l + (r - l) / 2 - 1)
      else h.searchFrom fba (l + (r - l) / 2 + 1) r := by
  rw [searchFrom, if_pos hlr, hf.get (by omega)]

/-- Once the search has gone right it ends at a slot. -/
theorem Fits.searchFrom_right (hf : h.Fits) (hl : 0 < l) (hlr : l ≤ r + 1)
    (hr : r < h.entriesCnt) :
    ∃ i, h.searchFrom fba l r = .ok i ∧ 0 < i ∧ i ≤ r + 1 := by
  -- The induction is on the number of slots that are left.
  induction hn : r + 1 - l using Nat.strong_induction_on generalizing l r with
  | _ n ih =>
      by_cases hle : l ≤ r
      · rw [hf.searchFrom_eq hle hr]
        split
        next hlt =>
          rw [if_neg (by omega)]
          obtain ⟨i, hi, hpos, hle'⟩ := ih (l + (r - l) / 2 - 1 + 1 - l) (by omega)
            (l := l) (r := l + (r - l) / 2 - 1) hl (by omega) (by omega) rfl
          exact ⟨i, hi, hpos, by omega⟩
        next hge =>
          obtain ⟨i, hi, hpos, hle'⟩ := ih (r + 1 - (l + (r - l) / 2 + 1)) (by omega)
            (l := l + (r - l) / 2 + 1) (r := r) (Nat.succ_pos _) (by omega) hr rfl
          exact ⟨i, hi, hpos, hle'⟩
      · refine ⟨l, ?_, hl, hlr⟩
        rw [searchFrom, if_neg hle]

/-- From slot 0 on it panics just where every probe goes left. -/
theorem Fits.searchFrom_zero (hf : h.Fits) (hr : r < h.entriesCnt) :
    (∀ m ∈ leftProbes r, fba < (h.slot m).firstBlock) ∧
        h.searchFrom fba 0 r = .error .panic ∨
      ¬ (∀ m ∈ leftProbes r, fba < (h.slot m).firstBlock) ∧
        ∃ i, h.searchFrom fba 0 r = .ok i ∧ 0 < i ∧ i ≤ r + 1 := by
  induction r using Nat.strong_induction_on with
  | _ r ih =>
      -- A search that goes left at every probe comes to probe 0, and steps below it.
      have hprobes := leftProbes.eq_1 r
      have hmid : 0 + (r - 0) / 2 = r / 2 := by omega
      rw [hf.searchFrom_eq (Nat.zero_le r) hr, hmid, hprobes]
      by_cases hlt : fba < (h.slot (r / 2)).firstBlock
      · rw [if_pos hlt]
        by_cases hzero : r / 2 = 0
        · rw [if_pos hzero, if_pos hzero]
          exact Or.inl ⟨fun m hm => List.mem_singleton.mp hm ▸ hlt, rfl⟩
        · rw [if_neg hzero, if_neg hzero]
          obtain ⟨hall, hrun⟩ | ⟨hnot, i, hrun, hpos, hle⟩ := ih (r / 2 - 1) (by omega) (by omega)
          · exact Or.inl ⟨List.forall_mem_cons.mpr ⟨hlt, hall⟩, hrun⟩
          · exact Or.inr ⟨fun hall => hnot (List.forall_mem_cons.mp hall).2, i, hrun, hpos,
              by omega⟩
      · rw [if_neg hlt]
        obtain ⟨i, hrun, hpos, hle⟩ :=
          @Fits.searchFrom_right h fba _ r hf (Nat.succ_pos (r / 2)) (by omega) hr
        exact Or.inr ⟨fun hall => hlt (List.forall_mem_cons.mp hall).1, i, hrun, hpos, hle⟩

/-- `binary_search` panics, finds no slot in an empty node, or gives a slot. -/
theorem Fits.binarySearch_cases (hf : h.Fits) (fba : Nat) :
    h.OffLeft fba ∧ h.binarySearch fba = .error .panic ∨
      ¬ h.OffLeft fba ∧ (h.entriesCnt = 0 ∧ h.binarySearch fba = .ok none ∨
        ∃ i < h.entriesCnt, h.binarySearch fba = .ok (some i)) := by
  unfold binarySearch OffLeft
  by_cases hpos : 0 < h.entriesCnt
  · rw [if_pos hpos]
    obtain ⟨hall, hrun⟩ | ⟨hnot, i, hrun, hi, hle⟩ :=
      @Fits.searchFrom_zero h fba (h.entriesCnt - 1) hf (by omega)
    · exact Or.inl ⟨⟨hpos, hall⟩, by rw [hrun]⟩
    · refine Or.inr ⟨fun hoff => hnot hoff.2, Or.inr ⟨i - 1, by omega, ?_⟩⟩
      rw [hrun]
      exact if_neg (by omega)
  · rw [if_neg hpos]
    exact Or.inr ⟨fun hoff => hpos hoff.1, Or.inl ⟨by omega, rfl⟩⟩

end ExtentHeader

/-! ## The walk -/

/-- The node below `h` that a walk to the file block comes to, if there is one and its
    magic is right. -/
def child (blocks : Nat → Option Bytes) (fba : Nat) (h : ExtentHeader) : Option ExtentHeader :=
  match h.binarySearch fba with
  | .ok (some i) =>
    (h.slot i).nextNode.bind fun lba =>
      (blocks lba).bind fun b => (ExtentHeader.fromBytes b).toOption
  | _ => none

/-- The nodes on the way down `n` levels. -/
def way (blocks : Nat → Option Bytes) (fba : Nat) : Nat → ExtentHeader → List ExtentHeader
  | 0, _ => []
  | n + 1, h =>
    match child blocks fba h with
    | none => []
    | some h' => h' :: way blocks fba n h'

/-- What a walk down `n` levels relies on; `k` nodes are in the path already. -/
structure Passable (blocks : Nat → Option Bytes) (fba n k : Nat) (h : ExtentHeader) : Prop where
  /-- Below `h` no search passes slot 0. -/
  searched : ∀ h' ∈ way blocks fba n h, ¬ h'.OffLeft fba
  /-- The path has room for the nodes. -/
  short : k + (way blocks fba n h).length ≤ 5
  /-- Nodes of depth 0 above the last level are empty. -/
  levels : ∀ i h', (h :: way blocks fba n h)[i]? = some h' → i < n → h'.depth = 0 →
    h'.entriesCnt = 0

variable {blocks : Nat → Option Bytes} {fba n k : Nat} {h h' : ExtentHeader}

theorem passable_of_stop (hk : k ≤ 5) (hway : way blocks fba n h = [])
    (hlevel : 0 < n → h.depth = 0 → h.entriesCnt = 0) : Passable blocks fba n k h := by
  refine ⟨by simp [hway], by simp [hway, hk], fun i h' hi hn hd => ?_⟩
  rw [hway] at hi
  cases i with
  | zero => exact Option.some.inj hi ▸ hlevel hn (Option.some.inj hi ▸ hd)
  | succ i => cases hi

theorem passable_succ (hchild : child blocks fba h = some h')
    (hlevel : h.depth = 0 → h.entriesCnt = 0) :
    Passable blocks fba (n + 1) k h ↔
      ¬ h'.OffLeft fba ∧ Passable blocks fba n (k + 1) h' := by
  have hway : way blocks fba (n + 1) h = h' :: way blocks fba n h' := by rw [way, hchild]
  constructor
  · rintro ⟨hs, hl, hd⟩
    rw [hway] at hs hl hd
    obtain ⟨hfirst, hrest⟩ := List.forall_mem_cons.mp hs
    refine ⟨hfirst, hrest, by rw [List.length_cons] at hl; omega, fun i x hi hn => ?_⟩
    exact hd (i + 1) x hi (by omega)
  · rintro ⟨hfirst, hs, hl, hd⟩
    refine ⟨by rw [hway]; exact List.forall_mem_cons.mpr ⟨hfirst, hs⟩,
      by rw [hway, List.length_cons]; omega, fun i x hi hn => ?_⟩
    rw [hway] at hi
    cases i with
    | zero => exact Option.some.inj hi ▸ hlevel
    | succ i => exact hd i x hi (by omega)

theorem ExtentHeader.slot_of_depth_zero (hd : h.depth = 0) (m : Nat) :
    (h.slot m).nextNode = none := by
  rw [slot, decode, if_pos hd]
  rfl

theorem ExtentHeader.slot_of_depth_pos (hd : h.depth ≠ 0) (m : Nat) :
    ∃ i, h.slot m = .internal i := by
  rw [slot, decode, if_neg hd]
  exact ⟨_, rfl⟩

theorem ExtentHeader.fromBytes_returns (b : Bytes) : Returns (ExtentHeader.fromBytes b) := by
  unfold fromBytes
  split <;> trivial

/-- The entry that a search gives is in its slot. -/
theorem ExtentHeader.Fits.getAt_some {i : Nat} {e : Option Entry} (hf : h.Fits)
    (hindex : h.binarySearch fba = .ok (some i)) (he : h.getAt (some i) = .ok e) :
    0 < h.entriesCnt ∧ e = some (h.slot i) := by
  obtain ⟨-, hrun⟩ | ⟨-, ⟨-, hrun⟩ | ⟨j, hj, hrun⟩⟩ := hf.binarySearch_cases fba
  · rw [hrun] at hindex
    cases hindex
  · rw [hrun] at hindex
    cases hindex
  · obtain rfl : j = i := Option.some.inj (Except.ok.inj (hrun.symm.trans hindex))
    exact ⟨by omega, Except.ok.inj (he.symm.trans (hf.get hj))⟩

theorem ExtentHeader.Fits.entriesCnt_of_none (hf : h.Fits)
    (hindex : h.binarySearch fba = .ok none) : h.entriesCnt = 0 := by
  obtain ⟨-, hrun⟩ | ⟨-, ⟨hzero, -⟩ | ⟨j, -, hrun⟩⟩ := hf.binarySearch_cases fba
  · rw [hrun] at hindex
    cases hindex
  · exact hzero
  · rw [hrun] at hindex
    cases hindex

/-- What comes of an index entry whose node is not there or has a wrong magic. -/
theorem descend_of_child_none {c : Cursor} {i : Nat} (hd : h.depth ≠ 0)
    (hindex : h.binarySearch fba = .ok (some i)) (hchild : child c.fs.blocks fba h = none) :
    Returns (Path.descend (fun h => h.binarySearch fba) (n + 1) (some (h.slot i)) c).1 := by
  obtain ⟨x, hx⟩ := ExtentHeader.slot_of_depth_pos hd i
  rw [child, hindex] at hchild
  dsimp only at hchild
  rw [hx] at hchild ⊢
  rw [Path.descend_internal]
  -- The child cannot be read, which is an error and no panic.
  have hread : ((c.fs.blocks x.nextNode).bind fun b => (ExtentHeader.fromBytes b).toOption) =
      none := hchild
  cases hblk : c.fs.blocks x.nextNode with
  | none => trivial
  | some b =>
      rw [hblk, Option.bind_some] at hread
      dsimp only
      have hreturns := ExtentHeader.fromBytes_returns b
      cases hmagic : ExtentHeader.fromBytes b with
      | error err =>
          rw [hmagic] at hreturns
          cases err with
          | err e => trivial
          | panic => exact hreturns
          | outOfFuel => exact hreturns
      | ok nd =>
          rw [hmagic] at hread
          cases hread

/-- An index entry with its node. -/
theorem descend_of_child {c : Cursor} {i : Nat} (hd : h.depth ≠ 0)
    (hindex : h.binarySearch fba = .ok (some i)) (hchild : child c.fs.blocks fba h = some h') :
    ∃ lba, Path.descend (fun h => h.binarySearch fba) (n + 1) (some (h.slot i)) c =
      match h'.binarySearch fba with
      | .error e => (.error e, c)
      | .ok index =>
        match h'.getAt index with
        | .error e => (.error e, c)
        | .ok last =>
          if c.path.leafs.length < 5 then
            Path.descend (fun h => h.binarySearch fba) n last (Path.pushed c [(lba, index)])
          else (.error .panic, c) := by
  obtain ⟨x, hx⟩ := ExtentHeader.slot_of_depth_pos hd i
  rw [child, hindex] at hchild
  dsimp only at hchild
  rw [hx] at hchild
  obtain ⟨b, hblk, hmagic⟩ := Option.bind_eq_some_iff.mp
    (show ((c.fs.blocks x.nextNode).bind fun b => (ExtentHeader.fromBytes b).toOption) = some h'
      from hchild)
  refine ⟨x.nextNode, ?_⟩
  rw [hx, Path.descend_internal, hblk]
  dsimp only
  cases hread : ExtentHeader.fromBytes b with
  | error err =>
      rw [hread] at hmagic
      cases hmagic
  | ok nd =>
      rw [hread] at hmagic
      obtain rfl : nd = h' := Option.some.inj hmagic
      rfl

/-- `descend` returns just where the walk below the node is passable, and panics elsewhere. -/
theorem descend_returns_iff (c : Cursor) (hk : c.path.leafs.length ≤ 5) (hf : h.Fits)
    (hfit : ∀ h' ∈ way c.fs.blocks fba n h, h'.Fits) {index : Option Nat} {e : Option Entry}
    (hindex : h.binarySearch fba = .ok index) (he : h.getAt index = .ok e) :
    Returns (Path.descend (fun h => h.binarySearch fba) n e c).1 ↔
      Passable c.fs.blocks fba n c.path.leafs.length h := by
  induction n generalizing h c index e with
  | zero =>
      have hpass : Passable c.fs.blocks fba 0 c.path.leafs.length h :=
        passable_of_stop hk rfl fun h0 => absurd h0 (Nat.lt_irrefl 0)
      exact iff_of_true (by rw [Path.descend]; trivial) hpass
  | succ n ih =>
      cases index with
      | none =>
          -- An empty node ends the walk.
          obtain rfl : none = e := Except.ok.inj he
          have hway : way c.fs.blocks fba (n + 1) h = [] := by rw [way, child, hindex]
          exact iff_of_true (by rw [Path.descend]; trivial)
            (passable_of_stop hk hway fun _ _ => hf.entriesCnt_of_none hindex)
      | some i =>
          obtain ⟨hpos, rfl⟩ := hf.getAt_some hindex he
          by_cases hd : h.depth = 0
          · -- An extent above the last level has no next node.
            have hnone := ExtentHeader.slot_of_depth_zero hd i
            refine iff_of_false ?_ fun hpass => ?_
            · rw [Path.descend, hnone]
              exact id
            · have hzero := hpass.levels 0 h rfl (Nat.succ_pos n) hd
              omega
          · cases hchild : child c.fs.blocks fba h with
            | none =>
                exact iff_of_true (descend_of_child_none hd hindex hchild)
                  (passable_of_stop hk (by rw [way, hchild]) fun _ h0 => absurd h0 hd)
            | some nd =>
                rw [way, hchild] at hfit
                obtain ⟨hndfit, hrest⟩ := List.forall_mem_cons.mp hfit
                rw [passable_succ hchild fun h0 => absurd h0 hd]
                obtain ⟨lba, hrun⟩ := descend_of_child (n := n) hd hindex hchild
                rw [hrun]
                obtain ⟨hoff, hsearch⟩ | ⟨hon, hfound⟩ := hndfit.binarySearch_cases fba
                · rw [hsearch]
                  exact iff_of_false id fun hpass => hpass.1 hoff
                · obtain ⟨index', last, hsearch, hget⟩ : ∃ index' last,
                      nd.binarySearch fba = .ok index' ∧ nd.getAt index' = .ok last := by
                    obtain ⟨-, hsearch⟩ | ⟨j, hj, hsearch⟩ := hfound
                    · exact ⟨none, none, hsearch, rfl⟩
                    · exact ⟨some j, _, hsearch, hndfit.get hj⟩
                  rw [hsearch]
                  dsimp only
                  rw [hget]
                  dsimp only
                  by_cases hlen : c.path.leafs.length < 5
                  · rw [if_pos hlen]
                    have hpushed := ih (Path.pushed c [(lba, index')])
                      (by rw [List.length_append, List.length_singleton]; exact hlen)
                      hndfit hrest hsearch hget
                    rw [hpushed, List.length_append, List.length_singleton]
                    exact (and_iff_right hon).symm
                  · rw [if_neg hlen]
                    refine iff_of_false id fun hpass => ?_
                    have hshort := hpass.2.short
                    omega

/-! ## The whole load -/

/-- The root and the nodes that the walk to the file block comes to. -/
def walk (c : Cursor) (fba : Nat) : List ExtentHeader :=
  .tree c.path.root :: way c.fs.blocks fba c.path.root.depth (.tree c.path.root)

/-- No search of the walk passes slot 0, there are five nodes at most below the root, and
    those of depth 0 above the last level are empty. -/
structure LoadsCleanly (c : Cursor) (fba : Nat) : Prop where
  searched : ∀ h ∈ walk c fba, ¬ h.OffLeft fba
  short : (walk c fba).length ≤ 6
  levels : ∀ i h, (walk c fba)[i]? = some h → i < c.path.root.depth → h.depth = 0 →
    h.entriesCnt = 0

/-- `Path::load` returns `Ok` or `Err` on the walks that are clean, and panics on the others. -/
theorem load_panics_iff {c : Cursor} (hfit : ∀ h ∈ walk c fba, h.Fits) :
    Returns (Path.load fba c).1 ↔ LoadsCleanly c fba := by
  obtain ⟨hroot, hbelow⟩ := List.forall_mem_cons.mp hfit
  -- The conditions on the root come apart from those below it.
  have hclean : LoadsCleanly c fba ↔ ¬ (ExtentHeader.tree c.path.root).OffLeft fba ∧
      Passable c.fs.blocks fba c.path.root.depth 0 (.tree c.path.root) := by
    constructor
    · rintro ⟨hs, hl, hd⟩
      obtain ⟨hfirst, hrest⟩ := List.forall_mem_cons.mp hs
      exact ⟨hfirst, hrest, by rw [walk, List.length_cons] at hl; omega, hd⟩
    · rintro ⟨hfirst, hs, hl, hd⟩
      exact ⟨List.forall_mem_cons.mpr ⟨hfirst, hs⟩, by rw [walk, List.length_cons]; omega, hd⟩
  have hload : (Path.load fba c).1 = (Path.loadMut fba c).1 := by
    rw [Path.load, bind_apply]
    cases hrun : Path.loadMut fba c with
    | mk r c' => cases r <;> rfl
  rw [hload, hclean, Path.loadMut_eq]
  obtain ⟨hoff, hsearch⟩ | ⟨hon, hfound⟩ := hroot.binarySearch_cases fba
  · rw [hsearch]
    exact iff_of_false id fun hclean => hclean.1 hoff
  · obtain ⟨index, last, hsearch, hget⟩ : ∃ index last,
        (ExtentHeader.tree c.path.root).binarySearch fba = .ok index ∧
          (ExtentHeader.tree c.path.root).getAt index = .ok last := by
      obtain ⟨-, hsearch⟩ | ⟨j, hj, hsearch⟩ := hfound
      · exact ⟨none, none, hsearch, rfl⟩
      · exact ⟨some j, _, hsearch, hroot.get hj⟩
    -- The search of the root has an index or none; either way the descent decides.
    have hdesc : Returns (Path.descend (fun h => h.binarySearch fba) c.path.root.depth last
        (Path.atPath c index [])).1 ↔
        Passable c.fs.blocks fba c.path.root.depth 0 (.tree c.path.root) :=
      descend_returns_iff (Path.atPath c index []) (Nat.zero_le 5) hroot hbelow hsearch hget
    rw [and_iff_right hon]
    refine Iff.trans ?_ hdesc
    rw [hsearch]
    dsimp only
    rw [hget]
    dsimp only
    cases Path.descend (fun h => h.binarySearch fba) c.path.root.depth last
      (Path.atPath c index []) with
    | mk r c' =>
        cases r with
        | ok u => rfl
        | error e => cases e <;> rfl

/-- A node with the extents at the file blocks 5 and 9. -/
def nodeAtFive : Bytes :=
  [0x0A, 0xF3, 2, 0, 84, 1, 0, 0, 0, 0, 0, 0, 5, 0, 0, 0, 1, 0, 0, 0, 44, 1, 0, 0,
    9, 0, 0, 0, 2, 0, 0, 0, 45, 1, 0, 0] ++ List.replicate 4060 0

/-- A root of depth 1: that node in block 100, and behind file block 20 the block 101, which
    cannot be read. -/
def rootAtFive : Cursor :=
  let t : ExtentTree :=
    { entriesCnt := 2
      depth := 1
      b := [5, 0, 0, 0, 100, 0, 0, 0, 0, 0, 0, 0, 20, 0, 0, 0, 101, 0, 0, 0, 0, 0, 0, 0] ++
        List.replicate 24 0 }
  let blocks := fun lba => if lba = 100 then some nodeAtFive else none
  t.emptyCursor { BlockRuns.twoFree with blocks := blocks } [] (fun _ => []) 12 0

theorem walk_rootAtFive :
    walk rootAtFive 3 = [.tree rootAtFive.path.root] ∧
      walk rootAtFive 9 = [.tree rootAtFive.path.root, .node nodeAtFive] := by
  decide +kernel

theorem rootAtFive_fits : (ExtentHeader.tree rootAtFive.path.root).Fits ∧
    (ExtentHeader.node nodeAtFive).Fits := by
  decide +kernel

/-- The search in two slots goes left at the first one only. -/
theorem offLeft_two {h : ExtentHeader} (hcnt : h.entriesCnt = 2) {fba : Nat} :
    h.OffLeft fba ↔ fba < (h.slot 0).firstBlock := by
  have hprobes : ExtentHeader.leftProbes (h.entriesCnt - 1) = [0] := by
    rw [hcnt, ExtentHeader.leftProbes]
    rfl
  rw [ExtentHeader.OffLeft, hprobes, List.forall_mem_singleton]
  exact and_iff_right (by omega)

theorem offLeft_rootAtFive (fba : Nat) :
    (ExtentHeader.tree rootAtFive.path.root).OffLeft fba ↔ fba < 5 := by
  rw [offLeft_two rfl, show ((ExtentHeader.tree rootAtFive.path.root).slot 0).firstBlock = 5
    by decide +kernel]

/-- A file block before the first extent of a sound tree makes the load panic. -/
theorem load_panics_rootAtFive :
    (∀ h ∈ walk rootAtFive 3, h.Fits) ∧ (Path.load 3 rootAtFive).1 = .error .panic := by
  obtain ⟨hroot, -⟩ := rootAtFive_fits
  have hoff := (offLeft_rootAtFive 3).mpr (by decide)
  obtain ⟨-, hsearch⟩ | ⟨hon, -⟩ := hroot.binarySearch_cases 3
  · refine ⟨?_, ?_⟩
    · rw [walk_rootAtFive.1]
      exact List.forall_mem_singleton.mpr hroot
    · rw [Path.load, bind_of_error (e := .panic) (by rw [Path.loadMut_eq, hsearch])]
  · exact absurd hoff hon

/-- The load for the second extent of the node. -/
theorem load_of_rootAtFive : Returns (Path.load 9 rootAtFive).1 := by
  obtain ⟨hroot, hnode⟩ := rootAtFive_fits
  have hwalk := walk_rootAtFive.2
  refine (load_panics_iff ?_).mpr ⟨?_, by rw [hwalk]; decide, fun i h hi hlt hd => ?_⟩
  · rw [hwalk]
    exact List.forall_mem_cons.mpr ⟨hroot, List.forall_mem_singleton.mpr hnode⟩
  · rw [hwalk]
    refine List.forall_mem_cons.mpr ⟨?_, List.forall_mem_singleton.mpr ?_⟩
    · rw [offLeft_rootAtFive]
      decide
    · rw [offLeft_two (by decide +kernel),
        show ((ExtentHeader.node nodeAtFive).slot 0).firstBlock = 5 by decide +kernel]
      decide
  · -- Above the last level there is the root, which has depth 1.
    obtain rfl : i = 0 := Nat.lt_one_iff.mp hlt
    rw [hwalk] at hi
    obtain rfl := Option.some.inj hi
    cases hd

/-! ## The search over ascending keys -/

namespace ExtentHeader

variable {h : ExtentHeader} {fba : Nat}

/-- The first blocks of the slots go up. -/
def Ascends (h : ExtentHeader) : Prop :=
  ∀ i j, i < j → j < h.entriesCnt → (h.slot i).firstBlock < (h.slot j).firstBlock

/-- What a caller of `binary_search` expects: the last slot whose first block is at most the
    file block, or the sign (`None` or slot 0) that every slot is above it. -/
def Locates (h : ExtentHeader) (fba : Nat) : Prop :=
  (∃ i, h.binarySearch fba = .ok (some i) ∧ i < h.entriesCnt ∧ (h.slot i).firstBlock ≤ fba ∧
      ∀ j, i < j → j < h.entriesCnt → fba < (h.slot j).firstBlock) ∨
    (∀ j, j < h.entriesCnt → fba < (h.slot j).firstBlock) ∧
      (h.binarySearch fba = .ok none ∨ h.binarySearch fba = .ok (some 0))

/-- The slots of a node, as a list. -/
def slots (h : ExtentHeader) : List Entry := (List.range h.entriesCnt).map h.slot

theorem slots_getElem? {i : Nat} (hi : i < h.entriesCnt) : h.slots[i]? = some (h.slot i) := by
  rw [slots, List.getElem?_map, List.getElem?_range hi]
  rfl

theorem Fits.shows_slots (hf : h.Fits) : h.Shows h.depth h.slots := by
  refine ⟨rfl, by rw [slots, List.length_map, List.length_range], fun i => ?_⟩
  by_cases hi : i < h.entriesCnt
  · rw [hf.get hi, slots_getElem? hi]
  · rw [ExtentHeader.get, if_neg hi, List.getElem?_eq_none]
    rw [slots, List.length_map, List.length_range]
    exact Nat.le_of_not_lt hi

theorem Ascends.slots (hasc : h.Ascends) : Ascending Entry.firstBlock h.slots := by
  apply List.pairwise_map.mpr
  apply List.Pairwise.imp_of_mem _ List.pairwise_lt_range
  intro i j _ hj hij
  exact hasc i j hij (List.mem_range.mp hj)

/-- No slot is below the first one. -/
theorem Ascends.first_le (hasc : h.Ascends) {j : Nat} (hj : j < h.entriesCnt) :
    (h.slot 0).firstBlock ≤ (h.slot j).firstBlock := by
  cases j with
  | zero => exact Nat.le_refl _
  | succ j => exact (hasc 0 (j + 1) (Nat.succ_pos j) hj).le

/-- In a node with ascending first blocks the search is exact from the first of them on;
    below it, it panics. -/
theorem locates_iff_first_le (hf : h.Fits) (hpos : 0 < h.entriesCnt) (hasc : h.Ascends) :
    h.Locates fba ↔ (h.slot 0).firstBlock ≤ fba := by
  have hfirst : h.slots.head? = some (h.slot 0) := by
    rw [List.head?_eq_getElem?]
    exact slots_getElem? hpos
  constructor
  · intro hloc
    by_contra hlt
    -- Every probe goes left, and at slot 0 the next bound is one below 0.
    have hpanic : h.binarySearch fba = .error .panic := by
      apply binarySearch_below fba hf.shows_slots
      · exact fun hnil => by rw [hnil] at hfirst; cases hfirst
      · intro e he
        obtain ⟨j, hj, rfl⟩ := List.mem_map.mp he
        have hge := hasc.first_le (List.mem_range.mp hj)
        omega
    rw [Locates, hpanic] at hloc
    obtain ⟨i, hrun, -⟩ | ⟨-, hrun | hrun⟩ := hloc
    all_goals cases hrun
  · intro hle
    obtain ⟨i, e, hrun, -, hpred⟩ := binarySearch_spec fba hf.shows_slots hasc.slots hfirst hle
    have hi : i < h.entriesCnt := by
      have hlt := (List.getElem?_eq_some_iff.mp hpred.getElem?).1
      rwa [slots, List.length_map, List.length_range] at hlt
    have he : e = h.slot i :=
      Option.some.inj (hpred.getElem?.symm.trans (slots_getElem? hi))
    refine Or.inl ⟨i, hrun, hi, he ▸ hpred.key_le, fun j hij hj => ?_⟩
    exact hpred.lt_key hij (slots_getElem? hj)

theorem rootAtFive_ascends :
    (tree rootAtFive.path.root).Fits ∧ 0 < (tree rootAtFive.path.root).entriesCnt ∧
      (tree rootAtFive.path.root).Ascends := by
  refine ⟨rootAtFive_fits.1, by decide, fun i j hij hj => ?_⟩
  have htwo : (tree rootAtFive.path.root).entriesCnt = 2 := rfl
  obtain ⟨rfl, rfl⟩ : i = 0 ∧ j = 1 := by omega
  decide +kernel

theorem locates_rootAtFive : (tree rootAtFive.path.root).Locates 21 := by
  obtain ⟨hfits, hpos, hasc⟩ := rootAtFive_ascends
  exact (locates_iff_first_le hfits hpos hasc).mpr (by decide +kernel)

/-- The search for file block 3 goes left of both entries. -/
theorem not_locates_rootAtFive :
    (tree rootAtFive.path.root).Fits ∧ 0 < (tree rootAtFive.path.root).entriesCnt ∧
      (tree rootAtFive.path.root).Ascends ∧
      (tree rootAtFive.path.root).binarySearch 3 = .error .panic ∧
      ¬ (tree rootAtFive.path.root).Locates 3 := by
  obtain ⟨hfits, hpos, hasc⟩ := rootAtFive_ascends
  have hpanic : (tree rootAtFive.path.root).binarySearch 3 = .error .panic := by
    obtain ⟨-, hrun⟩ | ⟨hon, -⟩ := hfits.binarySearch_cases 3
    · exact hrun
    · exact absurd ((offLeft_rootAtFive 3).mpr (by decide)) hon
  refine ⟨hfits, hpos, hasc, hpanic, fun hloc => ?_⟩
  rw [Locates, hpanic] at hloc
  obtain ⟨i, hrun, -⟩ | ⟨-, hrun | hrun⟩ := hloc
  all_goals cases hrun

end ExtentHeader

end RustExt4.Inode.Extent
