/-
  RustExt4.Inode.AllocatorRuns

  The inode allocator over runs: each counter is the number of clear bits that it
  stands for, a number that is handed out has had a clear bit, and there is one to
  hand out as long as any group has a clear bit.
-/
import RustExt4.Inode.Allocator
import RustExt4.Transaction.Deltas
import RustExt4.Lib.Runs
import Mathlib.Algebra.BigOperators.Group.Finset.Basic
import Mathlib.Algebra.Order.BigOperators.Group.Finset

namespace RustExt4.Inode

open Transaction (Event PostludeOps WritebackGroup bitAt setBit clearBit)

/-! ## Bits -/

theorem clearPos_spec : ∀ v : Fin 256, v.val ^^^ 255 ≠ 0 →
    clearPos v < 8 ∧ v.val.testBit (clearPos v) = false := by decide +kernel

theorem eq_255_of_xor : ∀ v : Fin 256, v.val ^^^ 255 = 0 → v.val = 255 := by decide +kernel

/-- The scan finds a clear bit if there is one. -/
theorem findFree_spec (l : List UInt8) (group : Nat) :
    (∃ k c, ∃ hk : k < l.length, c < 8 ∧ findFree l group = some ((group + k) * 8 + c) ∧
      l[k].toNat.testBit c = false) ∨
    (findFree l group = none ∧ ∀ b ∈ l, b.toNat = 255) := by
  induction l generalizing group with
  | nil => exact Or.inr ⟨rfl, by simp⟩
  | cons b l ih =>
      rw [findFree]
      by_cases hb : b.toNat ^^^ 255 = 0
      · have h255 := eq_255_of_xor ⟨b.toNat, b.toNat_lt⟩ hb
        rw [if_neg (not_not.mpr hb)]
        rcases ih (group + 1) with ⟨k, c, hk, hc, hfind, hbit⟩ | ⟨hnone, hall⟩
        · refine Or.inl ⟨k + 1, c, Nat.succ_lt_succ hk, hc, ?_, hbit⟩
          rw [hfind, Nat.add_assoc, Nat.add_comm 1 k]
        · exact Or.inr ⟨hnone, by simpa using ⟨h255, hall⟩⟩
      · obtain ⟨hc, hbit⟩ := clearPos_spec ⟨b.toNat, b.toNat_lt⟩ hb
        exact Or.inl ⟨0, _, Nat.zero_lt_succ _, hc, by rw [if_pos hb]; rfl, hbit⟩

theorem bitAt_of_byte {blk : Bytes} {k c : Nat} (hk : k < blk.length) (hc : c < 8) :
    bitAt blk (k * 8 + c) = blk[k].toNat.testBit c := by
  rw [bitAt, show (k * 8 + c) / 8 = k by omega, show (k * 8 + c) % 8 = c by omega,
    LeBytes.byteAt, List.getD_eq_getElem _ _ hk]

/-- The scan of a whole bitmap, on its bits. -/
theorem findFree_bits (blk : Bytes) :
    (∃ p < 8 * blk.length, findFree blk 0 = some p ∧ bitAt blk p = false) ∨
    (findFree blk 0 = none ∧ ∀ p < 8 * blk.length, bitAt blk p = true) := by
  rcases findFree_spec blk 0 with ⟨k, c, hk, hc, hfind, hbit⟩ | ⟨hnone, hall⟩
  · rw [Nat.zero_add] at hfind
    exact Or.inl ⟨_, by omega, hfind, by rw [bitAt_of_byte hk hc, hbit]⟩
  · refine Or.inr ⟨hnone, fun p hp => ?_⟩
    have hk : p / 8 < blk.length := by omega
    have h := bitAt_of_byte hk (Nat.mod_lt p (by decide))
    rw [show p / 8 * 8 + p % 8 = p by omega, hall _ (List.getElem_mem hk),
      Transaction.testBit_255] at h
    rw [h]
    exact decide_eq_true (Nat.mod_lt p (by decide))

namespace Allocator

variable {s s' : Allocator} {events : List Event} {de : FileType}

/-- The positions of a group's clear bits. -/
def freeBits (s : Allocator) (bgid : Nat) : Finset Nat :=
  match s.bitmap bgid with
  | some bitmap => (Finset.range (8 * bitmap.length)).filter fun i => bitAt bitmap i = false
  | none => ∅

theorem mem_freeBits {g i : Nat} : i ∈ s.freeBits g ↔ s.bit g i = some false := by
  unfold freeBits bit
  cases s.bitmap g with
  | none => simp
  | some bitmap =>
      rw [Finset.mem_filter, Finset.mem_range, Option.bind_some]
      split
      next h => simp [h]
      next h => simp [h]

/-- Bit `i` of group `g` is `v` from `s` to `s'`, and no other bit changes. -/
def BitSet (s s' : Allocator) (g i : Nat) (v : Bool) : Prop :=
  ∀ g' i', s'.bit g' i' = if g' = g ∧ i' = i then some v else s.bit g' i'

theorem bitSet_update {f : Bytes → Nat → Bytes} {v : Bool} {g i : Nat} {blk : Bytes}
    (hf : Transaction.Forces v (fun i q => q = i) 8 f) (hblk : s.bitmap g = some blk)
    (hi : i < 8 * blk.length) (hs' : s'.bitmap = Function.update s.bitmap g (some (f blk i))) :
    BitSet s s' g i v := by
  intro g' i'
  obtain ⟨hlen, hbits⟩ := hf blk i
  unfold bit
  rw [hs']
  by_cases hg : g' = g
  · subst hg
    rw [Function.update_self, hblk, Option.bind_some, Option.bind_some, hlen, hbits hi]
    by_cases hi' : i' = i
    · subst hi'
      rw [if_pos hi, if_pos rfl, if_pos ⟨rfl, rfl⟩]
    · simp only [hi', if_false, and_false]
  · rw [Function.update_of_ne hg, if_neg (fun h => hg h.1)]

theorem BitSet.freeBits {g i : Nat} {v : Bool} (h : BitSet s s' g i v) (g' : Nat) :
    s'.freeBits g' = if g' = g then
      (if v then (s.freeBits g).erase i else insert i (s.freeBits g)) else s.freeBits g' := by
  ext j
  rw [mem_freeBits, h g' j]
  by_cases hg : g' = g
  · subst hg
    by_cases hj : j = i
    · cases v <;> simp [hj]
    · cases v <;> simp [hj, mem_freeBits]
  · simp [hg, mem_freeBits]

/-- Bitmaps with their padding set, and counters that count their clear bits. -/
structure Inv (s : Allocator) : Prop where
  loaded : ∀ g < s.sb.bgCount, (s.groups g).isSome ∧ (s.bitmap g).isSome
  padding : ∀ g < s.sb.bgCount, ∀ i ∈ s.freeBits g, i < s.sb.inodesPerGroup
  groupCount : ∀ g < s.sb.bgCount, ∀ bg, s.groups g = some bg →
    bg.freeInodesCount = (s.freeBits g).card
  total : s.freeInodesCount = ∑ g ∈ Finset.range s.sb.bgCount, (s.freeBits g).card
  /-- The superblock's `inodes_count` is a `u32`. -/
  fits : s.sb.bgCount * s.sb.inodesPerGroup < 2 ^ 32

/-- The number of an inode is at most the number of inodes. -/
theorem number_le {g i : Nat} (hg : g < s.sb.bgCount) (hi : i < s.sb.inodesPerGroup) :
    g * s.sb.inodesPerGroup + i + 1 ≤ s.sb.bgCount * s.sb.inodesPerGroup := by
  have hmul := Nat.mul_le_mul_right s.sb.inodesPerGroup (Nat.succ_le_of_lt hg)
  rw [Nat.succ_mul] at hmul
  omega

theorem sum_card_lt {n ipg : Nat} (hpad : ∀ g < n, ∀ i ∈ s.freeBits g, i < ipg)
    (hfits : n * ipg < 2 ^ 32) : ∑ g ∈ Finset.range n, (s.freeBits g).card < 2 ^ 32 := by
  refine Nat.lt_of_le_of_lt (Finset.sum_le_card_nsmul _ _ ipg fun g hg => ?_) ?_
  · have hsub : s.freeBits g ⊆ Finset.range ipg :=
      fun i hi => Finset.mem_range.mpr (hpad g (Finset.mem_range.mp hg) i hi)
    simpa using Finset.card_le_card hsub
  · simpa using hfits

theorem Inv.sum_le (h : s.Inv) :
    ∑ g ∈ Finset.range s.sb.bgCount, (s.freeBits g).card < 2 ^ 32 := sum_card_lt h.padding h.fits

theorem card_le_sum {n g : Nat} (f : Nat → Nat) (hg : g < n) : f g ≤ ∑ g ∈ Finset.range n, f g :=
  Finset.single_le_sum (fun _ _ => Nat.zero_le _) (Finset.mem_range.mpr hg)

/-- A sum in which one summand changes. -/
theorem sum_change {n g : Nat} {f f' : Nat → Nat} (hg : g < n) (h : ∀ g' ≠ g, f' g' = f g') :
    ∑ g ∈ Finset.range n, f' g + f g = ∑ g ∈ Finset.range n, f g + f' g := by
  have hmem := Finset.mem_range.mpr hg
  have hrest : ∑ g' ∈ (Finset.range n).erase g, f' g' = ∑ g' ∈ (Finset.range n).erase g, f g' :=
    Finset.sum_congr rfl fun g' hg' => h g' (Finset.ne_of_mem_erase hg')
  rw [← Finset.add_sum_erase _ f hmem, ← Finset.add_sum_erase _ f' hmem, hrest]
  omega

/-- What a counter becomes when a bit becomes `v`. -/
def adjust : Bool → Nat → Nat
  | true, x => fetchSub x 1
  | false, x => fetchAdd x 1

/-- A bit that changes, with the counters of its group and of the superblock. -/
structure Flips (s s' : Allocator) (g i : Nat) (v : Bool) : Prop where
  lt : g < s.sb.bgCount
  idx_lt : i < s.sb.inodesPerGroup
  old : s.bit g i = some !v
  bits : BitSet s s' g i v
  sb : s'.sb = s.sb
  loaded : ∀ g', (s'.bitmap g').isSome = (s.bitmap g').isSome
  groups : ∃ bg, s.groups g = some bg ∧ s'.groups = Function.update s.groups g
    (some { bg with freeInodesCount := adjust v bg.freeInodesCount })
  total : s'.freeInodesCount = adjust v s.freeInodesCount

theorem Flips.card {g i : Nat} {v : Bool} (hf : Flips s s' g i v) :
    (s'.freeBits g).card = if v then (s.freeBits g).card - 1 else (s.freeBits g).card + 1 := by
  rw [hf.bits.freeBits, if_pos rfl]
  cases v with
  | true => exact Finset.card_erase_of_mem (mem_freeBits.mpr hf.old)
  | false =>
      refine Finset.card_insert_of_notMem fun hi => ?_
      have := mem_freeBits.mp hi
      rw [hf.old] at this
      cases this

theorem Flips.card_pos {g i : Nat} (hf : Flips s s' g i true) : 0 < (s.freeBits g).card :=
  Finset.card_pos.mpr ⟨i, mem_freeBits.mpr hf.old⟩

/-- Such a change keeps the counters right. -/
theorem Inv.flips (h : s.Inv) {g i : Nat} {v : Bool} (hf : Flips s s' g i v) : s'.Inv := by
  have hcard := hf.card
  have hother : ∀ g' ≠ g, (s'.freeBits g').card = (s.freeBits g').card := by
    intro g' hne
    rw [hf.bits.freeBits, if_neg hne]
  have hpad : ∀ g' < s.sb.bgCount, ∀ j ∈ s'.freeBits g', j < s.sb.inodesPerGroup := by
    intro g' hg' j hj
    by_cases hji : j = i
    · exact hji ▸ hf.idx_lt
    · refine h.padding g' hg' j ?_
      rw [mem_freeBits, hf.bits g' j, if_neg fun heq => hji heq.2] at hj
      exact mem_freeBits.mpr hj
  have hsum := sum_change hf.lt hother
  have hsum_lt := h.sum_le
  have hsum_lt' : ∑ g ∈ Finset.range s.sb.bgCount, (s'.freeBits g).card < 2 ^ 32 :=
    sum_card_lt hpad h.fits
  have hle := card_le_sum (fun g => (s.freeBits g).card) hf.lt
  have hle' := card_le_sum (fun g => (s'.freeBits g).card) hf.lt
  -- Neither counter wraps: both are sums of numbers of clear bits.
  have hadjust : ∀ x, (s.freeBits g).card ≤ x → x ≤ ∑ g ∈ Finset.range s.sb.bgCount,
      (s.freeBits g).card → adjust v x + (s.freeBits g).card = x + (s'.freeBits g).card := by
    intro x hx hxle
    cases v with
    | true =>
        have := hf.card_pos
        rw [if_pos rfl] at hcard
        rw [adjust, fetchSub_of_le (by omega) (by omega)]
        omega
    | false =>
        rw [if_neg Bool.false_ne_true] at hcard
        rw [adjust, fetchAdd_of_lt (by omega)]
        omega
  obtain ⟨bg, hbg, hgroups⟩ := hf.groups
  refine ⟨fun g' hg' => ?_, ?_, fun g' hg' bg' hbg' => ?_, ?_, ?_⟩
  · rw [hf.sb] at hg'
    obtain ⟨h1, h2⟩ := h.loaded g' hg'
    rw [hf.loaded, hgroups, Function.update_apply]
    split
    · exact ⟨rfl, h2⟩
    · exact ⟨h1, h2⟩
  · rw [hf.sb]
    exact hpad
  · rw [hf.sb] at hg'
    rw [hgroups, Function.update_apply] at hbg'
    split at hbg'
    next heq =>
      subst heq
      cases hbg'
      have hcount := h.groupCount g' hg' bg hbg
      have := hadjust bg.freeInodesCount (by omega) (by omega)
      dsimp only
      omega
    next hne => rw [h.groupCount g' hg' bg' hbg', hother g' hne]
  · rw [hf.sb, hf.total]
    have htotal := h.total
    have := hadjust s.freeInodesCount (by omega) (by omega)
    omega
  · rw [hf.sb]
    exact h.fits

/-! ## Allocation -/

theorem mem_scanOrder {n hint g : Nat} : g ∈ scanOrder n hint ↔ g < n := by
  rw [scanOrder, List.mem_map]
  constructor
  · rintro ⟨i, hi, rfl⟩
    exact Nat.mod_lt _ (by have := List.mem_range.mp hi; omega)
  · intro hg
    have hn : 0 < n := by omega
    refine ⟨(g + (n - hint % n)) % n, List.mem_range.mpr (Nat.mod_lt _ hn), ?_⟩
    have hh := Nat.mod_lt hint hn
    rw [Nat.add_mod_mod, ← Nat.add_assoc, Nat.add_comm hint g, Nat.add_assoc, Nat.add_mod,
      Nat.add_mod hint, Nat.mod_eq_of_lt hg]
    by_cases h0 : hint % n = 0
    · rw [h0, Nat.sub_zero, Nat.mod_self, Nat.zero_add, Nat.zero_mod, Nat.add_zero,
        Nat.mod_eq_of_lt hg]
    · rw [Nat.mod_eq_of_lt (show n - hint % n < n by omega),
        show hint % n + (n - hint % n) = n by omega, Nat.mod_self, Nat.add_zero,
        Nat.mod_eq_of_lt hg]

/-- The state after position `i` of group `g` was taken. -/
def taken (s : Allocator) (g i : Nat) (bg : InodeGroup) (bitmap : Bytes) : Allocator :=
  { s with bitmap := Function.update s.bitmap g (some (setBit bitmap i)) }.takeIno g bg

/-- The scan takes a clear bit of the groups it visits, if there is one. -/
theorem allocateIn_spec (h : s.Inv) (events : List Event) (de : FileType) {order : List Nat}
    (horder : ∀ g ∈ order, g < s.sb.bgCount) :
    (∃ g i bg bitmap, g ∈ order ∧ s.groups g = some bg ∧ s.bitmap g = some bitmap ∧
      i ∈ s.freeBits g ∧
      s.allocateIn events de order =
        (.ok (g * s.sb.inodesPerGroup + i + 1), s.taken g i bg bitmap, events ++
          [.inodeAllocationOnBg g bg.inodeBitmapLba i de, .freeInodesCountDecOnSb])) ∨
    (s.allocateIn events de order = (.error (.err .fsFull), s, events) ∧
      ∀ g ∈ order, s.freeBits g = ∅) := by
  induction order with
  | nil => exact Or.inr ⟨rfl, by simp⟩
  | cons g order ih =>
      have hg := horder g List.mem_cons_self
      have hrest := ih fun g' hg' => horder g' (List.mem_cons_of_mem g hg')
      obtain ⟨hgroup, hbitmap⟩ := h.loaded g hg
      obtain ⟨bg, hbg⟩ := Option.isSome_iff_exists.mp hgroup
      obtain ⟨bitmap, hblk⟩ := Option.isSome_iff_exists.mp hbitmap
      have hcount := h.groupCount g hg bg hbg
      rw [allocateIn, hbg]
      dsimp only
      by_cases hfree : 0 < bg.freeInodesCount
      · -- The counter is right, so the scan of the bitmap finds a bit.
        obtain ⟨j, hj⟩ := Finset.card_pos.mp (hcount ▸ hfree)
        have hjbit := mem_freeBits.mp hj
        rw [bit, hblk, Option.bind_some] at hjbit
        split at hjbit
        next hjlt =>
          rcases findFree_bits bitmap with ⟨i, hi, hfind, hbit⟩ | ⟨-, hall⟩
          · have hmem : i ∈ s.freeBits g := by
              rw [mem_freeBits, bit, hblk, Option.bind_some, if_pos hi, hbit]
            have hipg := h.padding g hg i hmem
            have hnum : g * s.sb.inodesPerGroup + i + 1 < 2 ^ 32 :=
              (number_le hg hipg).trans_lt h.fits
            have hmod : i % 2 ^ 32 = i := Nat.mod_eq_of_lt (by omega)
            refine Or.inl ⟨g, i, bg, bitmap, List.mem_cons_self, hbg, hblk, hmem, ?_⟩
            rw [if_pos hfree, getFreeIno, hblk]
            simp only [hfind, InodeNumber.fromBgidIndex, hmod, if_pos hnum]
            rfl
          · rw [hall j hjlt] at hjbit
            cases hjbit
        next => cases hjbit
      · rw [if_neg hfree]
        have hempty : s.freeBits g = ∅ := by
          rw [← Finset.card_eq_zero]
          omega
        rcases hrest with ⟨g', i, bg', bitmap', hg', hr⟩ | ⟨hfull, hall⟩
        · exact Or.inl ⟨g', i, bg', bitmap', List.mem_cons_of_mem g hg', hr⟩
        · exact Or.inr ⟨hfull, by simpa using ⟨hempty, hall⟩⟩

theorem bit_lt {g i : Nat} {bitmap : Bytes} {v : Bool} (hblk : s.bitmap g = some bitmap)
    (hbit : s.bit g i = some v) : i < 8 * bitmap.length := by
  rw [bit, hblk, Option.bind_some] at hbit
  split at hbit
  next hlt => exact hlt
  next => cases hbit

theorem Inv.taken_flips (h : s.Inv) {g i : Nat} {bg : InodeGroup} {bitmap : Bytes}
    (hg : g < s.sb.bgCount) (hbg : s.groups g = some bg) (hblk : s.bitmap g = some bitmap)
    (hi : i ∈ s.freeBits g) : Flips s (s.taken g i bg bitmap) g i true where
  lt := hg
  idx_lt := h.padding g hg i hi
  old := mem_freeBits.mp hi
  bits := bitSet_update Transaction.setBit_forces hblk (bit_lt hblk (mem_freeBits.mp hi)) rfl
  sb := rfl
  loaded := by
    intro g'
    simp only [taken, takeIno, Function.update_apply]
    split
    next heq => rw [heq, hblk]; rfl
    next => rfl
  groups := ⟨bg, hbg, rfl⟩
  total := rfl

/-- What a call of `allocate` does: it hands out a number whose bit was clear, or there
    is no clear bit and nothing changes. -/
def AllocateSpec (s : Allocator) (r : Except Fault Nat × Allocator × List Event) : Prop :=
  (∃ ino g i, r.1 = .ok ino ∧ 1 ≤ ino ∧ ino ≤ s.sb.bgCount * s.sb.inodesPerGroup ∧
    InodeNumber.intoBgidIndex s.sb ino = some (g, i) ∧ s.bit g i = some false ∧
    BitSet s r.2.1 g i true) ∨
  (r.1 = .error (.err .fsFull) ∧ r.2.1 = s ∧ ∀ g < s.sb.bgCount, s.freeBits g = ∅)

/-- A call takes a clear bit, with its events, or there is none and nothing changes. -/
theorem Inv.allocate_cases (h : s.Inv) (events : List Event) (de : FileType) :
    (∃ g i bg s', Flips s s' g i true ∧ s.allocate events de =
      (.ok (g * s.sb.inodesPerGroup + i + 1), s', events ++
        [.inodeAllocationOnBg g bg i de, .freeInodesCountDecOnSb])) ∨
    (s.allocate events de = (.error (.err .fsFull), s, events) ∧
      ∀ g < s.sb.bgCount, s.freeBits g = ∅) := by
  unfold Allocator.allocate
  by_cases h0 : s.freeInodesCount = 0
  · rw [if_pos h0]
    have hsum := h.total
    rw [h0, eq_comm, Finset.sum_eq_zero_iff] at hsum
    refine Or.inr ⟨rfl, fun g hg => ?_⟩
    exact Finset.card_eq_zero.mp (hsum g (Finset.mem_range.mpr hg))
  · rw [if_neg h0]
    have hscan : ∀ g ∈ scanOrder s.sb.bgCount s.lastInodeBgId, g < s.sb.bgCount :=
      fun g => mem_scanOrder.mp
    rcases allocateIn_spec h events de hscan with
      ⟨g, i, bg, bitmap, hg, hbg, hblk, hi, hr⟩ | ⟨hr, hall⟩
    · exact Or.inl ⟨g, i, _, _, h.taken_flips (mem_scanOrder.mp hg) hbg hblk hi, hr⟩
    · exact Or.inr ⟨hr, fun g hg => hall g (mem_scanOrder.mpr hg)⟩

/-- The number at position `i` of group `g`. -/
theorem Flips.intoBgidIndex {g i : Nat} {v : Bool} (hf : Flips s s' g i v) :
    InodeNumber.intoBgidIndex s.sb (g * s.sb.inodesPerGroup + i + 1) = some (g, i) :=
  InodeNumber.intoBgidIndex_of_pos hf.idx_lt

theorem Inv.allocate (h : s.Inv) (events : List Event) (de : FileType) :
    (s.allocate events de).2.1.Inv ∧ (s.allocate events de).2.1.sb = s.sb ∧
      s.AllocateSpec (s.allocate events de) := by
  rcases h.allocate_cases events de with ⟨g, i, bg, s', hf, hr⟩ | ⟨hr, hall⟩
  · rw [hr]
    have hnum := number_le hf.lt hf.idx_lt
    exact ⟨h.flips hf, hf.sb, Or.inl ⟨_, g, i, rfl, Nat.le_add_left 1 _, hnum,
      hf.intoBgidIndex, hf.old, hf.bits⟩⟩
  · rw [hr]
    exact ⟨h, rfl, Or.inr ⟨rfl, rfl, hall⟩⟩

/-- `allocate` returns `FsFull` exactly when no group has a clear bit. -/
theorem AllocateSpec.fsFull_iff {r : Except Fault Nat × Allocator × List Event}
    (h : s.AllocateSpec r) :
    r.1 = .error (.err .fsFull) ↔ ∀ g < s.sb.bgCount, ∀ i, s.bit g i ≠ some false := by
  rcases h with ⟨ino, g, i, hr, hpos, hle, hinto, hbit, -⟩ | ⟨hr, -, hall⟩
  · rw [hr]
    refine ⟨fun h => (by cases h), fun hno => absurd hbit (hno g ?_ i)⟩
    obtain ⟨hpos', -, rfl, -⟩ := InodeNumber.intoBgidIndex_eq_some.mp hinto
    exact (Nat.div_lt_iff_lt_mul hpos').mpr (by omega)
  · refine ⟨fun _ g hg i hi => ?_, fun _ => hr⟩
    have := mem_freeBits.mpr hi
    rw [hall g hg] at this
    cases this

/-! ## Deallocation -/

/-- A deallocation records the number's event and one for the superblock. -/
theorem deallocate_events {ino : Nat} {events' : List Event}
    (hok : s.deallocate events ino de = (.ok (), events')) :
    ∃ g i bg, events' = events ++
      [.inodeDeallocationOnBg ino g bg i de, .freeInodesCountIncOnSb] := by
  unfold deallocate at hok
  split at hok
  · cases hok
  · split at hok
    · cases hok
    · split at hok
      · cases hok
      · split at hok
        · cases hok
          exact ⟨_, _, _, rfl⟩
        · cases hok

/-- Giving a taken number back clears its bit. -/
theorem applyDeallocationOnCore_flips {ino : Nat} (hok : s.applyDeallocationOnCore ino = .ok s') :
    ∃ g i, InodeNumber.intoBgidIndex s.sb ino = some (g, i) ∧ Flips s s' g i false := by
  unfold applyDeallocationOnCore at hok
  split at hok
  · cases hok
  next g i hinto =>
    split at hok
    · cases hok
    next hg =>
      split at hok
      next bg bitmap hbg hblk =>
        split at hok
        next hbit =>
          cases hok
          obtain ⟨hpos, -, -, rfl⟩ := InodeNumber.intoBgidIndex_eq_some.mp hinto
          exact ⟨g, _, hinto,
            { lt := Nat.lt_of_not_le hg
              idx_lt := Nat.mod_lt _ hpos
              old := hbit
              bits := bitSet_update Transaction.clearBit_forces hblk (bit_lt hblk hbit) rfl
              sb := rfl
              loaded := fun g' => by
                simp only [Function.update_apply]
                split
                next heq => rw [heq, hblk]; rfl
                next => rfl
              groups := ⟨bg, hbg, rfl⟩
              total := rfl }⟩
        next => cases hok
      next => cases hok

/-- A deallocation that completes has cleared one bit, the one of its number. -/
theorem completeDeallocation_flips {blocks : Nat → Option Bytes} {ino : Nat}
    (hok : s.completeDeallocation blocks ino de = .ok s') :
    ∃ g i, InodeNumber.intoBgidIndex s.sb ino = some (g, i) ∧ Flips s s' g i false := by
  unfold completeDeallocation at hok
  split at hok
  · cases hok
  next evs hdealloc =>
    obtain ⟨g, i, bg, hevs⟩ := deallocate_events hdealloc
    rw [List.nil_append] at hevs
    rw [hevs] at hok
    split at hok
    · cases hok
    next w hw =>
      obtain ⟨-, blocks', -, rfl⟩ := WritebackGroup.compress_eq_some.mp hw
      simp only [WritebackGroup.new, List.flatMap_cons, List.flatMap_nil, Event.postludes,
        List.nil_append, List.append_nil, applyPostludes] at hok
      cases happly : s.applyDeallocationOnCore ino with
      | error e => simp [happly] at hok
      | ok s1 =>
          simp only [happly, Except.ok.injEq] at hok
          exact hok ▸ applyDeallocationOnCore_flips happly

/-! ## Runs -/

inductive Action
  /-- a call of `allocate` in a transaction that holds `events` -/
  | allocate (events : List Event) (de : FileType)
  /-- a deallocation that is committed; `blocks` are the cached blocks at that time -/
  | deallocate (blocks : Nat → Option Bytes) (ino : Nat) (de : FileType)

def Step (s : Allocator) (a : Action) (s' : Allocator) : Prop :=
  match a with
  | .allocate events de => s' = (s.allocate events de).2.1
  | .deallocate blocks ino de => s.completeDeallocation blocks ino de = .ok s'

theorem Step.inv {a : Action} (h : s.Inv) (hstep : s.Step a s') : s'.Inv ∧ s'.sb = s.sb := by
  cases a with
  | allocate events de =>
      obtain rfl := hstep
      obtain ⟨hinv, hsb, -⟩ := h.allocate events de
      exact ⟨hinv, hsb⟩
  | deallocate blocks ino de =>
      obtain ⟨g, i, -, hf⟩ := completeDeallocation_flips hstep
      exact ⟨h.flips hf, hf.sb⟩

/-- After every sequence of allocations and completed deallocations the counters are the
    numbers of clear bits, and a call of `allocate` hands out a number whose bit is
    clear, sets that bit only, and returns `FsFull` exactly when no bit is clear. -/
theorem inv_of_run (h : s.Inv) (hrun : Runs.Run Step (fun _ _ => True) s s')
    (events : List Event) (de : FileType) :
    s'.Inv ∧ s'.AllocateSpec (s'.allocate events de) ∧
      ((s'.allocate events de).1 = .error (.err .fsFull) ↔
        ∀ g < s'.sb.bgCount, ∀ i, s'.bit g i ≠ some false) := by
  have hinv : s'.Inv := hrun.invariant (fun _ _ _ h _ hstep => (hstep.inv h).1) h
  have hspec := (hinv.allocate events de).2.2
  exact ⟨hinv, hspec, hspec.fsFull_iff⟩

/-- One group of eight inodes in a bitmap of two bytes, the first one clear. -/
def oneInode : Allocator where
  sb :=
    { isDirEntryVersion2 := true, inodeSize := 256, inodesPerGroup := 8
      featuresIncompatible := 0, featuresReadonly := 0, firstDataBlock := 0
      blocksPerGroup := 32768, creatorOs := 0, revLevel := 1, bgCount := 1, wantExtraIsize := 32
      firstDataBlock_le := SuperBlock.zero_firstDataBlock_le
      blocksPerGroup_pos := SuperBlock.groupOf32768_pos
      blocksPerGroup_lt := SuperBlock.groupOf32768_lt
      bgCount_lt := SuperBlock.oneGroup_lt }
  groups := fun g => if g = 0 then some { inodeBitmapLba := 3, freeInodesCount := 1 } else none
  bitmap := fun g => if g = 0 then some [0xfe, 0xff] else none
  freeInodesCount := 1
  lastInodeBgId := 0

theorem freeBits_oneInode : oneInode.freeBits 0 = {0} := by decide

theorem inv_oneInode : oneInode.Inv where
  loaded := by
    intro g hg
    obtain rfl : g = 0 := Nat.lt_one_iff.mp hg
    exact ⟨rfl, rfl⟩
  padding := by
    intro g hg i hi
    obtain rfl : g = 0 := Nat.lt_one_iff.mp hg
    rw [freeBits_oneInode, Finset.mem_singleton] at hi
    subst hi
    decide
  groupCount := by
    intro g hg bg hbg
    obtain rfl : g = 0 := Nat.lt_one_iff.mp hg
    cases hbg
    rw [freeBits_oneInode]
    rfl
  total := by
    change 1 = ∑ g ∈ Finset.range 1, (oneInode.freeBits g).card
    rw [Finset.sum_range_one, freeBits_oneInode]
    rfl
  fits := by decide

/-- Inode 1 is handed out and given back; then there is one to hand out again. -/
theorem inv_of_run_oneInode : ∃ s : Allocator, s.bit 0 0 = some false ∧
    s.AllocateSpec (s.allocate [] .regularFile) := by
  let s1 := (oneInode.allocate [] .regularFile).2.1
  have h1 : Runs.Run Step (fun _ _ => True) oneInode s1 :=
    .single (a := .allocate [] .regularFile) trivial rfl
  have hok : (s1.completeDeallocation (fun _ => some [0x01]) 1 .regularFile).toOption.isSome := by
    decide
  cases h2 : s1.completeDeallocation (fun _ => some [0x01]) 1 .regularFile with
  | error e => rw [h2] at hok; cases hok
  | ok s2 =>
      obtain ⟨g, i, hinto, hf⟩ := completeDeallocation_flips h2
      rw [show InodeNumber.intoBgidIndex s1.sb 1 = some (0, 0) by decide] at hinto
      cases hinto
      refine ⟨s2, by rw [hf.bits 0 0, if_pos ⟨rfl, rfl⟩], ?_⟩
      exact (inv_of_run inv_oneInode
        (.tail (a := .deallocate (fun _ => some [0x01]) 1 .regularFile) h1 trivial h2)
        [] .regularFile).2.1

end Allocator
end RustExt4.Inode
