/-
  RustExt4.Inode.Extent.Hint

  Where `or_allocated_many` would like the blocks of a hole.  Behind the extent
  before the hole the source goes `fba - block` blocks down from the start of the
  extent, where it would have to go up.
-/
import RustExt4.Inode.Extent.Insertion
import RustExt4.Inode.Extent.Lookup

namespace RustExt4.Inode.Extent

open StateExcept
open Transaction (Event)
open Predecessor (Ascending IsPred)

variable {fs : FileSystem} {t : ExtentTree} {ls : List Leaf} {l l0 : Leaf} {fba i : Nat}

/-- A mutable cursor at an unmapped block starts at its predecessor. -/
theorem cursorFromFbaMut_at (hwf : WellFormed fs.blocks t ls) (ho : Ordered ls)
    (hcache : ∀ l, t.cache = some l → l ∈ ls) (hp : IsPred Leaf.block fba ls i l)
    (hhole : lookup ls fba = none) (events : List Event) (noload : Nat → Bytes) (ino : Nat) :
    ∃ c, t.cursorFromFbaMut fs events noload ino fba = (.ok (), c) ∧ c.fba = fba ∧
      c.getLeaf = .ok (some l) := by
  let c0 := t.emptyCursor fs events noload ino fba
  have hfresh : ∃ c, Path.loadMut fba c0 = (.ok (), c) ∧ c.fba = fba ∧
      c.getLeaf = .ok (some l) := by
    obtain ⟨ns, ht⟩ := hwf.tree
    have hnil : ls ≠ [] := List.ne_nil_of_mem hp.mem
    obtain ⟨l0, rest, rfl⟩ := List.exists_cons_of_ne_nil hnil
    have hle : l0.block ≤ fba := by
      obtain rfl | hmem := List.mem_cons.mp hp.mem
      · exact hp.key_le
      · exact (((List.pairwise_cons.mp ho).1 l hmem).1.le).trans hp.key_le
    obtain ⟨i', leafs, j, l', hload, hstands, hpred⟩ :=
      Path.loadMut_spec (c := c0) fba ht hwf.depth_le ho.ascending rfl hle
    obtain rfl : l' = l := hpred.unique hp
    exact ⟨_, hload, rfl, hstands.getLeaf rfl⟩
  rw [ExtentTree.cursorFromFbaMut, ExtentTree.openAt]
  split
  next k hk =>
    have hout : ¬ k.contains c0.fba := by
      intro (hin : k.contains fba)
      obtain ⟨j, hpk⟩ := ho.isPred_of_mem (hcache k hk) hin
      rw [ho.lookup_eq hpk, if_pos hin] at hhole
      cases hhole
    rw [if_neg hout]
    exact hfresh
  next => exact hfresh

/-- The hint for the hole at `fba` is computed, and right behind the extent before the hole
    it is the block right behind that extent's blocks. -/
def HintSound (t : ExtentTree) (fs : FileSystem) (events : List Event) (noload : Nat → Bytes)
    (ino fba : Nat) : Prop :=
  ∃ c l hope, t.cursorFromFbaMut fs events noload ino fba = (.ok (), c) ∧
    c.getLeaf = .ok (some l) ∧ c.hope (some l) = .ok (.inr hope) ∧
    (fba = l.block + l.len → hope = l.start + l.len)

/-- The hint of a cursor behind an initialized extent. -/
theorem Cursor.hope_behind {c : Cursor} (hinit : l.isInit = true) (hle : l.block ≤ c.fba)
    (hout : ¬ l.contains c.fba) :
    c.hope (some l) =
      if l.start < c.fba - l.block then .error .panic
      else .ok (.inr (l.start - (c.fba - l.block))) := by
  rw [hope, if_neg hout, if_neg (by rw [hinit]; exact Bool.true_eq_false_eq_False),
    if_neg (by omega)]

/-- The cursor that the allocation of the hole starts from, and its hint. -/
theorem exists_hope (hwf : WellFormed fs.blocks t ls) (ho : Ordered ls)
    (hcache : ∀ l, t.cache = some l → l ∈ ls) (hinit : ∀ l ∈ ls, l.isInit = true)
    (hp : IsPred Leaf.block fba ls i l) (hhole : lookup ls fba = none) (events : List Event)
    (noload : Nat → Bytes) (ino : Nat) :
    ∃ c, t.cursorFromFbaMut fs events noload ino fba = (.ok (), c) ∧
      c.getLeaf = .ok (some l) ∧ c.hope (some l) =
        if l.start < fba - l.block then .error .panic
        else .ok (.inr (l.start - (fba - l.block))) := by
  obtain ⟨c, hopen, hfba, hleaf⟩ := cursorFromFbaMut_at hwf ho hcache hp hhole events noload ino
  have hout : ¬ l.contains c.fba := by
    intro hin
    rw [hfba] at hin
    rw [ho.lookup_eq hp, if_pos hin] at hhole
    cases hhole
  refine ⟨c, hopen, hleaf, ?_⟩
  rw [Cursor.hope_behind (hinit l hp.mem) (hfba ▸ hp.key_le) hout, hfba]

theorem HintSound.bounds {events : List Event} {noload : Nat → Bytes} {ino : Nat}
    (h : HintSound t fs events noload ino fba) (hwf : WellFormed fs.blocks t ls) (ho : Ordered ls)
    (hcache : ∀ l, t.cache = some l → l ∈ ls) (hinit : ∀ l ∈ ls, l.isInit = true)
    (hp : IsPred Leaf.block fba ls i l) (hhole : lookup ls fba = none) :
    fba - l.block ≤ l.start ∧ (fba = l.block + l.len → l.len = 0) := by
  obtain ⟨c, hopen, hleaf, hhope⟩ := exists_hope hwf ho hcache hinit hp hhole events noload ino
  obtain ⟨c', l', hope, hopen', hleaf', hhope', hnext⟩ := h
  obtain rfl : c = c' := congrArg Prod.snd (hopen.symm.trans hopen')
  obtain rfl : l = l' := Option.some.inj (Except.ok.inj (hleaf.symm.trans hleaf'))
  rw [hhope] at hhope'
  split at hhope'
  next => cases hhope'
  next hge =>
    obtain rfl := Sum.inr.inj (Except.ok.inj hhope')
    refine ⟨by omega, fun heq => ?_⟩
    have hup := hnext heq
    omega

/-- It is so only where the extent before the hole starts at least as far from block 0 as
    the hole is from the extent's first block, and the hole does not follow it directly. -/
theorem hintSound_iff (hwf : WellFormed fs.blocks t ls) (ho : Ordered ls)
    (hcache : ∀ l, t.cache = some l → l ∈ ls) (hinit : ∀ l ∈ ls, l.isInit = true)
    (hp : IsPred Leaf.block fba ls i l) (hhole : lookup ls fba = none) (events : List Event)
    (noload : Nat → Bytes) (ino : Nat) :
    HintSound t fs events noload ino fba ↔
      fba - l.block ≤ l.start ∧ (fba = l.block + l.len → l.len = 0) := by
  constructor
  · exact fun h => h.bounds hwf ho hcache hinit hp hhole
  · rintro ⟨hge, hnext⟩
    obtain ⟨c, hopen, hleaf, hhope⟩ := exists_hope hwf ho hcache hinit hp hhole events noload ino
    refine ⟨c, l, l.start - (fba - l.block), hopen, hleaf, ?_, fun heq => ?_⟩
    · rw [hhope, if_neg (by omega)]
    · have hzero := hnext heq
      omega

/-- The two extents of `treeOfTwo`. -/
def twoExtents : List Leaf := [⟨0, 100, 4, true⟩, ⟨10, 200, 4, true⟩]

theorem wellFormed_treeOfTwo :
    WellFormed BlockRuns.twoFree.blocks ExtentHeader.treeOfTwo twoExtents := by
  have hshows : (ExtentHeader.tree ExtentHeader.treeOfTwo).Shows 0 (twoExtents.map .leaf) := by
    refine ExtentHeader.shows_iff.mpr ⟨rfl, rfl, fun i e hi => ?_⟩
    match i with
    | 0 => cases hi; decide +kernel
    | 1 => cases hi; decide +kernel
    | i + 2 => cases hi
  refine ⟨⟨[], hshows, by decide, by unfold Ascending; decide, rfl⟩, by decide, ?_, by decide⟩
  exact List.pairwise_pair.mpr (Leaf.not_both_contain (Or.inl (by decide)))

theorem ordered_twoExtents : Ordered twoExtents := by
  unfold Ordered
  decide

theorem hintSound_treeOfTwo :
    HintSound ExtentHeader.treeOfTwo BlockRuns.twoFree [] (fun _ => []) 12 20 :=
  (hintSound_iff wellFormed_treeOfTwo ordered_twoExtents (fun _ h => nomatch h) (by decide)
    (i := 1) ⟨[⟨0, 100, 4, true⟩], [], rfl, rfl, by decide, fun _ h => nomatch h⟩
    (by decide +kernel) [] (fun _ => []) 12).mpr (by decide)

/-- Right behind an extent of four blocks at 100 the hint is 96, and far enough behind the
    last one it underflows. -/
theorem not_hintSound_treeOfTwo :
    ¬ HintSound ExtentHeader.treeOfTwo BlockRuns.twoFree [] (fun _ => []) 12 4 ∧
      ¬ HintSound ExtentHeader.treeOfTwo BlockRuns.twoFree [] (fun _ => []) 12 300 := by
  have hinit : ∀ l ∈ twoExtents, l.isInit = true := by decide
  constructor
  · intro h
    have hbounds := h.bounds wellFormed_treeOfTwo ordered_twoExtents (fun _ h => nomatch h) hinit
      (i := 0) ⟨[], [⟨10, 200, 4, true⟩], rfl, rfl, by decide, by decide⟩ (by decide +kernel)
    exact absurd (hbounds.2 rfl) (by decide)
  · intro h
    have hbounds := h.bounds wellFormed_treeOfTwo ordered_twoExtents (fun _ h => nomatch h) hinit
      (i := 1) ⟨[⟨0, 100, 4, true⟩], [], rfl, rfl, by decide, by decide⟩ (by decide +kernel)
    exact absurd hbounds.1 (by decide)

end RustExt4.Inode.Extent
