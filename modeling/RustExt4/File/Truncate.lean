/-
  RustExt4.File.Truncate

  `File::truncate` (`file.rs`).  It rounds the length up to a multiple of the block
  size in bytes, and hands that number to the cursor as a file block.
-/
import RustExt4.Inode.Extent.Cached
import RustExt4.Inode.Extent.Truncation
import RustExt4.Transaction.FlushSpec
import RustExt4.Lib.ExceptRun

namespace RustExt4.File

open StateExcept
open ExceptRun
open Inode (RawInodeAddressingMode)
open Inode.Extent
open Transaction (Event)

/-! ## The function -/

/-- A regular file that is open, with the file system that it belongs to. -/
structure OpenFile where
  ino : Nat
  size : Nat
  addresses : ExtentTree
  fs : FileSystem

/-- `InodeAddressingMode::as_raw` of an extent tree. -/
def asRaw (t : ExtentTree) : RawInodeAddressingMode :=
  .extent t.entriesCnt t.maxEntriesCnt t.depth t.b

/-- `Inode::set_size` -/
def setSize (size : Nat) (f : OpenFile) (events : List Event) : OpenFile × List Event :=
  if f.size ≠ size then
    ({ f with size := size }, events ++ [.inodeSetSize f.ino size (asRaw f.addresses)])
  else (f, events)

/-- `(until + BLK_SIZE) & !(BLK_SIZE - 1)` -/
def target (blkSize until_ : Nat) : Except Fault Nat :=
  if until_ + blkSize < 2 ^ 64 then
    .ok ((until_ + blkSize) &&& (2 ^ 64 - 1 - (blkSize - 1)))
  else .error .panic

/-- `truncate`, with the file as it returns.  What `done` writes are bitmaps, descriptors,
    the record and the superblock; the blocks of the tree are those the cursor leaves. -/
def truncate (fuel until_ : Nat) (f : OpenFile) : Except Fault (Nat × OpenFile) := do
  let target ← target f.fs.blkSize until_
  match f.addresses.cursorFromFbaMut f.fs [] (fun _ => []) f.ino (target % 2 ^ 32) with
  | (.error e, _) => throw e
  | (.ok (), c) =>
    match c.removeAfter fuel with
    | (.error e, _) => throw e
    | (.ok (), c) => do
      let addresses ← c.drop
      let (f, events) := setSize until_ { f with addresses := addresses, fs := c.fs } c.events
      let _ ← f.fs.commit events
      pure (f.size, f)

/-! ## The cut -/

theorem testBit_not_mask {m : Nat} (hm : m ≤ 64) (i : Nat) :
    (2 ^ 64 - 1 - (2 ^ m - 1)).testBit i = (decide (m ≤ i) && decide (i < 64)) := by
  have hpow : 2 ^ 64 = 2 ^ (64 - m) * 2 ^ m := by
    rw [← Nat.pow_add, Nat.sub_add_cancel hm]
  have hpos : 0 < 2 ^ m := Nat.two_pow_pos m
  have hmask : 2 ^ 64 - 1 - (2 ^ m - 1) = (2 ^ (64 - m) - 1) * 2 ^ m := by
    rw [Nat.sub_mul, Nat.one_mul, ← hpow]
    omega
  rw [hmask, Nat.testBit_mul_two_pow, Nat.testBit_two_pow_sub_one]
  grind

/-- The mask rounds down to a multiple of the block size. -/
theorem target_eq {m until_ : Nat} (hm : m ≤ 64) (h : until_ + 2 ^ m < 2 ^ 64) :
    target (2 ^ m) until_ = .ok ((until_ / 2 ^ m + 1) * 2 ^ m) := by
  have hpos : 0 < 2 ^ m := Nat.two_pow_pos m
  rw [target, if_pos h, ← Nat.add_div_right until_ hpos]
  refine congrArg Except.ok (Nat.eq_of_testBit_eq fun i => ?_)
  rw [Nat.testBit_and, testBit_not_mask hm, Nat.testBit_mul_two_pow, Nat.testBit_div_two_pow]
  by_cases hi : m ≤ i
  · by_cases hi64 : i < 64
    · simp [hi, hi64]
    · have hzero : (until_ + 2 ^ m).testBit i = false :=
        Nat.testBit_lt_two_pow (h.trans_le (Nat.pow_le_pow_right (by decide) (by omega)))
      simp [hi, hi64, hzero]
  · simp [hi]

/-! ## A removal that returns -/

/-- More fuel changes nothing. -/
theorem removeLoop_mono {until_ n m : Nat} {c c' : Cursor}
    (h : Cursor.removeLoop until_ n c = (.ok (), c')) (hle : n ≤ m) :
    Cursor.removeLoop until_ m c = (.ok (), c') := by
  induction n generalizing c m with
  | zero => cases h
  | succ n ih =>
      -- Both fuels make this round.
      obtain ⟨m, rfl⟩ : ∃ k, m = k + 1 := ⟨m - 1, by omega⟩
      rw [Cursor.removeLoop, get_bind] at h ⊢
      obtain ⟨leaf, hleaf, h⟩ := lift_bind_eq_ok h
      rw [lift_bind_of_ok hleaf]
      cases leaf with
      | none => exact h
      | some l =>
          dsimp only at h ⊢
          split at h
          next hstop => rwa [if_pos hstop]
          next hgo =>
            rw [if_neg hgo]
            split at h
            next => cases h
            next hlen =>
              rw [if_neg hlen]
              obtain ⟨u, c1, hcut, hrest⟩ := bind_eq_ok h
              rw [bind_of_ok hcut]
              exact ih hrest (by omega)

theorem removeAfter_mono {n m : Nat} {c c' : Cursor} (h : c.removeAfter n = (.ok (), c'))
    (hle : n ≤ m) : c.removeAfter m = (.ok (), c') := by
  rw [Cursor.removeAfter, get_bind] at h ⊢
  obtain ⟨u, c1, hload, hrest⟩ := bind_eq_ok h
  rw [bind_of_ok hload]
  exact removeLoop_mono hrest hle

/-! ## What a truncation keeps -/

/-- The cursor on a file before its path is loaded. -/
abbrev OpenFile.cursor (f : OpenFile) (fba : Nat) : Cursor :=
  f.addresses.emptyCursor f.fs [] (fun _ => []) f.ino fba

/-- The tree of the file has these extents. -/
def OpenFile.Maps (f : OpenFile) (ls : List Leaf) : Prop := (f.cursor 0).Maps ls

/-- The size is `until_`; a mapped block that starts before it is mapped as before, and no
    block is mapped that starts there or behind it. -/
structure TruncatedTo (f f' : OpenFile) (ls : List Leaf) (until_ : Nat) : Prop where
  size : f'.size = until_
  blocks : ∃ ls', f'.Maps ls' ∧ ∀ x,
    (x * f.fs.blkSize < until_ → ∀ a, lookup ls x = some a → lookup ls' x = some a) ∧
      (until_ ≤ x * f.fs.blkSize → lookup ls' x = none)

variable {f f' : OpenFile} {pre last : List Leaf} {ns : List Nat} {fuel until_ n : Nat}

/-- An opened cursor stands on the file's tree. -/
theorem OpenFile.opened {x : Nat} {c : Cursor}
    (h : f.addresses.cursorFromFbaMut f.fs [] (fun _ => []) f.ino x = (.ok (), c)) :
    c.fba = x ∧ c.fs = f.fs ∧ c.path.root = f.addresses := by
  have hload : ∀ c, Path.loadMut x (f.cursor x) = (.ok (), c) →
      c.fba = x ∧ c.fs = f.fs ∧ c.path.root = f.addresses := by
    intro c hrun
    obtain ⟨i, leafs, hframe⟩ := Path.loadMut_frame x (f.cursor x)
    rw [hrun] at hframe
    obtain rfl : c = _ := hframe
    exact ⟨rfl, rfl, rfl⟩
  rw [ExtentTree.cursorFromFbaMut, ExtentTree.openAt] at h
  split at h
  · split at h
    · obtain rfl := (Prod.mk.inj h).2
      exact ⟨rfl, rfl, rfl⟩
    · exact hload c h
  · exact hload c h

/-- The drop of the cursor changes no more than the cached extent. -/
theorem maps_of_drop {c : Cursor} {t : ExtentTree} {ls : List Leaf} (h : c.drop = .ok t)
    (hmaps : c.Maps ls) (hfs : f.fs = c.fs) (ht : f.addresses = t) : f.Maps ls := by
  -- A drop changes the cache alone.
  have hcache : ∃ k, t = { c.path.root with cache := k } := by
    rw [Cursor.drop] at h
    cases hleaf : c.getLeaf with
    | error e => rw [hleaf] at h; cases h
    | ok en =>
        rw [hleaf] at h
        obtain rfl := Except.ok.inj h
        cases en with
        | none => exact ⟨c.path.root.cache, rfl⟩
        | some l => exact ⟨some l, rfl⟩
  obtain ⟨k, rfl⟩ := hcache
  rcases hmaps with ⟨rfl, h0⟩ | ⟨ns, htree⟩
  · refine Or.inl ⟨rfl, ?_⟩
    show f.addresses.entriesCnt = 0
    rw [ht]
    exact h0
  · refine Or.inr ⟨ns, ?_⟩
    show Tree f.fs.blocks f.addresses.depth (.tree f.addresses) ls ns
    rw [hfs, ht]
    exact htree.of_cache

/-- A truncation that returns has cut at `target`, where no extent of the last leaf node
    reached the cut from before it. -/
theorem truncate_ok (h : truncate fuel until_ f = .ok (n, f'))
    (hrem : (f.cursor 0).Removable (pre ++ last) ns)
    (hlast : pre ++ last ≠ [] →
      (rightNode f.fs.blocks f.addresses.depth (.tree f.addresses)).Shows 0 (last.map .leaf)) :
    ∃ tgt, target f.fs.blkSize until_ = .ok tgt ∧ f'.size = until_ ∧
      (∀ l ∈ last, ¬ (l.block < tgt % 2 ^ 32 ∧ tgt % 2 ^ 32 ≤ l.block + l.len)) ∧
      f'.Maps (pre ++ last.filter (·.block < tgt % 2 ^ 32)) := by
  rw [truncate] at h
  obtain ⟨tgt, htgt, h⟩ := bind_eq_ok.mp h
  refine ⟨tgt, htgt, ?_⟩
  cases hopen : f.addresses.cursorFromFbaMut f.fs [] (fun _ => []) f.ino (tgt % 2 ^ 32) with
  | mk r c =>
  rw [hopen] at h
  cases r with
  | error e => cases h
  | ok u =>
  obtain ⟨hfba, hfs, hroot⟩ := OpenFile.opened hopen
  have hremc : c.Removable (pre ++ last) ns :=
    { tree := by rw [hfs, hroot]; exact hrem.tree
      depth_le := by rw [hroot]; exact hrem.depth_le
      ordered := hrem.ordered
      len_pos := hrem.len_pos
      nodup := hrem.nodup
      groups := by rw [hfs]; exact hrem.groups
      nodes := by rw [hfs]; exact hrem.nodes
      data := by rw [hfs]; exact hrem.data }
  have hlastc : pre ++ last ≠ [] →
      (rightNode c.fs.blocks c.path.root.depth (.tree c.path.root)).Shows 0 (last.map .leaf) := by
    rw [hfs, hroot]
    exact hlast
  dsimp only at h
  cases hcut : c.removeAfter fuel with
  | mk r c' =>
  rw [hcut] at h
  cases r with
  | error e => cases h
  | ok u =>
  -- An extent that is cut through would not let the loop end.
  have hgood : ∀ l ∈ last, ¬ (l.block < c.fba ∧ c.fba ≤ l.block + l.len) := by
    intro l hl hbad
    have hstuck := hremc.stuck hlastc ⟨l, hl, hbad⟩ fuel
    rw [hcut] at hstuck
    cases hstuck
  obtain ⟨c'', new, rm, hrun, hmaps, -⟩ :=
    hremc.done hlastc hgood (show last.length < max fuel (last.length + 1) by omega)
  obtain rfl : c' = c'' :=
    (Prod.mk.inj ((removeAfter_mono hcut (Nat.le_max_left ..)).symm.trans hrun)).2
  rw [hfba] at hgood hmaps
  dsimp only at h
  obtain ⟨t, hdrop, h⟩ := bind_eq_ok.mp h
  obtain ⟨fs, hcommit, h⟩ := bind_eq_ok.mp h
  obtain rfl : _ = f' := (Prod.mk.inj (Except.ok.inj h)).2
  refine ⟨?_, hgood, ?_⟩
  · rw [setSize]
    split
    · rfl
    next heq => exact not_not.mp heq
  · refine maps_of_drop hdrop hmaps ?_ ?_
    · rw [setSize]
      split <;> rfl
    · rw [setSize]
      split <;> rfl

/-! ## When it keeps the wanted blocks -/

/-- The blocks that start before the new end. -/
def wantedBlocks (blkSize until_ : Nat) : Nat := (until_ + blkSize - 1) / blkSize

theorem lt_wantedBlocks {blkSize : Nat} (hpos : 0 < blkSize) (x : Nat) :
    x < wantedBlocks blkSize until_ ↔ x * blkSize < until_ := by
  rw [wantedBlocks, Nat.lt_iff_add_one_le, Nat.le_div_iff_mul_le hpos, Nat.add_mul, Nat.one_mul]
  omega

/-- The map keeps the blocks below `k` and no others just where the extents that stay end
    at `k` at the latest and those that go start there or behind it. -/
theorem kept_iff {ls : List Leaf} {T k : Nat} (ho : Ordered (pre ++ last))
    (hpos : ∀ l ∈ pre ++ last, 0 < l.len) (hls : ls = pre ++ last.filter (·.block < T)) :
    (∀ x, (x < k → ∀ a, lookup (pre ++ last) x = some a → lookup ls x = some a) ∧
        (k ≤ x → lookup ls x = none)) ↔
      (∀ l ∈ pre, l.block + l.len ≤ k) ∧
        ∀ l ∈ last, if l.block < T then l.block + l.len ≤ k else k ≤ l.block := by
  have hsub : ls.Sublist (pre ++ last) := hls ▸ (List.filter_sublist ..).append_left pre
  have hmem : ∀ l, l ∈ ls ↔ l ∈ pre ∨ l ∈ last ∧ l.block < T := by
    intro l
    simp [hls]
  constructor
  · intro h
    have hends : ∀ l ∈ ls, l.block + l.len ≤ k := by
      intro l hl
      by_contra hgt
      have hlen := hpos l (hsub.subset hl)
      refine Cursor.lookup_eq_none.mp ((h (l.block + l.len - 1)).2 (by omega)) l hl ?_
      exact Leaf.contains_iff.mpr ⟨by omega, by omega⟩
    refine ⟨fun l hl => hends l ((hmem l).mpr (Or.inl hl)), fun l hl => ?_⟩
    split
    next hT => exact hends l ((hmem l).mpr (Or.inr ⟨hl, hT⟩))
    next hT =>
      by_contra hlt
      -- The first block of the extent is still mapped, so the extent has stayed.
      have hin : l ∈ pre ++ last := List.mem_append_right _ hl
      have hc : l.contains l.block :=
        Leaf.contains_iff.mpr ⟨Nat.le_refl _, by have := hpos l hin; omega⟩
      have hlook := (h l.block).1 (by omega) _ (ho.lookup_of_mem hin hc)
      obtain ⟨l', hl', hc', -⟩ := exists_of_lookup hlook
      obtain rfl := ho.eq_of_contains hin (hsub.subset hl') hc hc'
      rcases (hmem l).mp hl' with hpre | hstay
      · obtain ⟨-, -, hcross⟩ := List.pairwise_append.mp ho
        exact absurd (hcross l hpre l hl).1 (Nat.lt_irrefl _)
      · exact hT hstay.2
  · rintro ⟨hpre, hlast⟩ x
    constructor
    · intro hx a ha
      obtain ⟨l, hl, hc, rfl⟩ := exists_of_lookup ha
      have hord : Ordered ls := List.Pairwise.sublist hsub ho
      refine hord.lookup_of_mem ((hmem l).mpr ?_) hc
      rcases List.mem_append.mp hl with hl | hl
      · exact Or.inl hl
      · have hcond := hlast l hl
        have := (Leaf.contains_iff.mp hc).1
        split at hcond
        next hT => exact Or.inr ⟨hl, hT⟩
        next => omega
    · intro hx
      refine Cursor.lookup_eq_none.mpr fun l hl hc => ?_
      have := (Leaf.contains_iff.mp hc).2
      rcases (hmem l).mp hl with hl | ⟨hl, hT⟩
      · have := hpre l hl
        omega
      · have hcond := hlast l hl
        rw [if_pos hT] at hcond
        omega

/-- A truncation that returns keeps the wanted blocks and no others if and only if every
    extent is before the new end, those apart that go: they are in the last leaf node, start
    at block `until_` rounded up (in bytes) or behind it, and not before the new end. -/
theorem truncatedTo_iff {m : Nat} (hblk : f.fs.blkSize = 2 ^ m)
    (hrem : (f.cursor 0).Removable (pre ++ last) ns)
    (hlast : pre ++ last ≠ [] →
      (rightNode f.fs.blocks f.addresses.depth (.tree f.addresses)).Shows 0 (last.map .leaf))
    (h : truncate fuel until_ f = .ok (n, f')) :
    TruncatedTo f f' (pre ++ last) until_ ↔
      (∀ l ∈ pre, l.block + l.len ≤ wantedBlocks f.fs.blkSize until_) ∧
        ∀ l ∈ last,
          if l.block < (until_ / f.fs.blkSize + 1) * f.fs.blkSize % 2 ^ 32 then
            l.block + l.len ≤ wantedBlocks f.fs.blkSize until_
          else wantedBlocks f.fs.blkSize until_ ≤ l.block := by
  obtain ⟨tgt, htgt, hsize, -, hmaps⟩ := truncate_ok h hrem hlast
  have hpos : 0 < f.fs.blkSize := hblk ▸ Nat.two_pow_pos m
  -- The target is a number of bytes, rounded up.
  obtain rfl : tgt = (until_ / f.fs.blkSize + 1) * f.fs.blkSize := by
    have hfit : until_ + f.fs.blkSize < 2 ^ 64 := by
      by_contra hout
      rw [target, if_neg hout] at htgt
      cases htgt
    have hm : m ≤ 64 := by
      by_contra hgt
      have : 2 ^ 64 ≤ 2 ^ m := Nat.pow_le_pow_right (by decide) (by omega)
      omega
    rw [hblk, target_eq hm (hblk ▸ hfit)] at htgt
    rw [hblk]
    exact (Except.ok.inj htgt).symm
  rw [← kept_iff hrem.ordered hrem.len_pos rfl]
  constructor
  · rintro ⟨-, ls', hmaps', hblocks⟩ x
    obtain rfl := Cursor.Maps.unique hmaps hmaps'
    rw [lt_wantedBlocks hpos, ← Nat.not_lt, lt_wantedBlocks hpos, Nat.not_lt]
    exact hblocks x
  · intro hblocks
    refine ⟨hsize, _, hmaps, fun x => ?_⟩
    rw [← lt_wantedBlocks hpos, ← Nat.not_lt, ← lt_wantedBlocks hpos, Nat.not_lt]
    exact hblocks x

/-- The extents [0, 4) and [10, 14), and a size of 14 blocks. -/
def twoFile : OpenFile :=
  { ino := 12, size := 57344, addresses := ExtentHeader.treeOfTwo, fs := BlockRuns.twoFree }

theorem shows_twoFile : (rightNode twoFile.fs.blocks twoFile.addresses.depth
    (.tree twoFile.addresses)).Shows 0 (twoExtents.map .leaf) :=
  (tree_treeOfTwo fun _ => none).1

/-- The extents [0, 4) and [20480, 20484), with a hole of 80 MiB between them. -/
def farFile : OpenFile where
  ino := 12
  size := 83902464
  addresses :=
    { entriesCnt := 2
      b := [0, 0, 0, 0, 4, 0, 0, 0, 100, 0, 0, 0, 0, 80, 0, 0, 4, 0, 0, 0, 200, 0, 0, 0] ++
        List.replicate 24 0 }
  fs := BlockRuns.twoFree

/-- Its two extents. -/
def farExtents : List Leaf := [⟨0, 100, 4, true⟩, ⟨20480, 200, 4, true⟩]

theorem tree_farFile : Tree farFile.fs.blocks 0 (.tree farFile.addresses) farExtents [] := by
  refine ⟨ExtentHeader.shows_iff.mpr ⟨rfl, rfl, fun i e hi => ?_⟩, by decide,
    by unfold Predecessor.Ascending; decide, rfl⟩
  match i with
  | 0 => cases hi; decide +kernel
  | 1 => cases hi; decide +kernel
  | i + 2 => cases hi

/-- Truncated to four blocks: the extent behind the hole goes, the other one stays. -/
theorem truncatedTo_farFile : ∃ n f', truncate 3 16384 farFile = .ok (n, f') ∧
    TruncatedTo farFile f' farExtents 16384 := by
  have hok : (truncate 3 16384 farFile).isOk = true := by decide +kernel
  have hord : Ordered farExtents := by
    unfold Ordered
    decide
  obtain ⟨⟨n, f'⟩, hrun⟩ := Transaction.ok_of_isOk hok
  refine ⟨n, f', hrun, (@truncatedTo_iff farFile f' [] farExtents [] 3 16384 n 12 rfl
    (@removable_of_root farFile.addresses _ tree_farFile (Nat.zero_le 5) hord (by decide) 0)
    (fun _ => tree_farFile.1) hrun).mpr ⟨by decide, by decide⟩⟩

/-- Truncated to nothing: the cut is at file block 4096, and both extents stay. -/
theorem not_truncatedTo_twoFile : (twoFile.cursor 0).Removable twoExtents [] ∧
    ∃ n f', truncate 3 0 twoFile = .ok (n, f') ∧ ¬ TruncatedTo twoFile f' twoExtents 0 := by
  have hok : (truncate 3 0 twoFile).isOk = true := by decide +kernel
  obtain ⟨⟨n, f'⟩, hrun⟩ := Transaction.ok_of_isOk hok
  refine ⟨removable_twoCursor 0, n, f', hrun, ?_⟩
  rintro ⟨-, ls', hmaps', hblocks⟩
  obtain ⟨tgt, htgt, -, -, hmaps⟩ :=
    @truncate_ok twoFile f' [] twoExtents [] 3 0 n hrun (removable_twoCursor 0)
      fun _ => shows_twoFile
  obtain rfl : 4096 = tgt := Except.ok.inj htgt
  obtain rfl : ls' = twoExtents := Cursor.Maps.unique hmaps' hmaps
  exact absurd ((hblocks 0).2 (by decide)) (by decide)

end RustExt4.File
