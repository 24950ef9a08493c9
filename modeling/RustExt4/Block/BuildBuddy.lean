/-
  RustExt4.Block.BuildBuddy

  The scan of a block bitmap that fills the allocator of a group
  (`block/mod.rs`): `find_zero`, `find_one`, and the loop of `build_buddy` that
  hands the runs of clear bits to `push_chunk`.  The chunks do not meet, and a
  block is in one of them exactly when its bit is clear.
-/
import RustExt4.Block.BuddyInv
import RustExt4.Inode.Allocator
import RustExt4.Transaction.Bitmap

namespace RustExt4.Block

open Inode (leadingZeros8)
open Transaction (bitAt testBit_255)

/-! ## `find_one` and `find_zero` -/

/-- `7 - (b & !(b - 1)).leading_zeros()` of a byte -/
def lowestSet (b : Nat) : Nat := 7 - leadingZeros8 (b &&& (b - 1 ^^^ 255))

/-- The loop that both searches share, over the bytes from `group` on: `view` gives the
    byte whose set bits are looked for. -/
def findSet (view : Nat → Nat → Nat) : List UInt8 → Nat → Option Nat
  | [], _ => none
  | b :: rest, group =>
    if view group b.toNat ≠ 0 then some (group * 8 + lowestSet (view group b.toNat))
    else findSet view rest (group + 1)

/-- The byte of `find_one`: in the first one the bits below the start are cleared. -/
def oneView (start group b : Nat) : Nat :=
  if group = start / 8 then b &&& (2 ^ (start % 8) - 1 ^^^ 255) else b

/-- The byte of `find_zero`: in the first one the bits below the start are set. -/
def zeroView (start group b : Nat) : Nat :=
  (if group = start / 8 then b ||| (2 ^ (start % 8) - 1) else b) ^^^ 255

def findOne (bitmap : Bytes) (start : Nat) : Option Nat :=
  findSet (oneView start) (bitmap.drop (start / 8)) (start / 8)

def findZero (bitmap : Bytes) (start : Nat) : Option Nat :=
  findSet (zeroView start) (bitmap.drop (start / 8)) (start / 8)

/-! ## `Manager::build_buddy` -/

/-- The chunks that the loop of `build_buddy` pushes from `pos` on, as the arguments of
    `push_chunk` in order.  The position goes up at each turn. -/
def buildBuddyFrom (sb : SuperBlock) (bgid : Nat) (bitmap : Bytes) (blocksCount : Nat) :
    Nat → Nat → Except Fault (List (Nat × Nat))
  | 0, pos => if pos < blocksCount then .error .outOfFuel else .ok []
  | fuel + 1, pos =>
    if pos < blocksCount then
      match findZero bitmap pos with
      | none => .ok []
      | some firstZero =>
        let one := (findOne bitmap firstZero).getD blocksCount
        if one < firstZero then .error .panic
        else
          match buildBuddyFrom sb bgid bitmap blocksCount fuel one with
          | .error e => .error e
          | .ok rest => .ok ((sb.fromBgidIndex bgid firstZero, one - firstZero) :: rest)
    else .ok []

def buildBuddy (sb : SuperBlock) (bgid : Nat) (bitmap : Bytes) (blocksCount : Nat) :
    Except Fault (List (Nat × Nat)) :=
  buildBuddyFrom sb bgid bitmap blocksCount blocksCount 0

/-! ## The searches -/

theorem lowestSet_byte : ∀ v : Fin 256, v.val ≠ 0 →
    lowestSet v < 8 ∧ v.val.testBit (lowestSet v) = true ∧
      ∀ j : Fin 8, j.val < lowestSet v → v.val.testBit j = false := by
  decide +kernel

theorem lowestSet_spec {b : Nat} (hb : b < 256) (h0 : b ≠ 0) :
    lowestSet b < 8 ∧ b.testBit (lowestSet b) = true ∧
      ∀ j < lowestSet b, b.testBit j = false := by
  obtain ⟨h8, hset, hlow⟩ := lowestSet_byte ⟨b, hb⟩ h0
  exact ⟨h8, hset, fun j hj => hlow ⟨j, hj.trans h8⟩ hj⟩

/-- Where the byte seen at `group` shows the bits of `P`, the search finds the first
    position of `P`. -/
theorem findSet_spec {view : Nat → Nat → Nat} {P : Nat → Bool} {l : List UInt8} {group : Nat}
    (hlt : ∀ g b, b < 256 → view g b < 256)
    (hview : ∀ k (hk : k < l.length) j, j < 8 →
      (view (group + k) l[k].toNat).testBit j = P ((group + k) * 8 + j)) :
    (∃ p, findSet view l group = some p ∧ group * 8 ≤ p ∧ p < (group + l.length) * 8 ∧
      P p = true ∧ ∀ q, group * 8 ≤ q → q < p → P q = false) ∨
    (findSet view l group = none ∧
      ∀ q, group * 8 ≤ q → q < (group + l.length) * 8 → P q = false) := by
  induction l generalizing group with
  | nil => exact Or.inr ⟨rfl, fun q h1 h2 => absurd h1 (Nat.not_le.mpr h2)⟩
  | cons b l ih =>
      have hhead : ∀ j, j < 8 → (view group b.toNat).testBit j = P (group * 8 + j) :=
        fun j hj => hview 0 (Nat.zero_lt_succ _) j hj
      have htail := @ih (group + 1) fun k hk j hj => by
        have h := hview (k + 1) (Nat.succ_lt_succ hk) j hj
        rw [show group + (k + 1) = group + 1 + k by omega] at h
        exact h
      rw [findSet, List.length_cons]
      by_cases hb : view group b.toNat = 0
      · rw [if_neg (not_not.mpr hb)]
        -- No position of the first byte is one of `P`.
        have hnone : ∀ q, group * 8 ≤ q → q < (group + 1) * 8 → P q = false := by
          intro q h1 h2
          have h := hhead (q - group * 8) (by omega)
          rw [hb, Nat.zero_testBit, show group * 8 + (q - group * 8) = q by omega] at h
          exact h.symm
        rcases htail with ⟨p, hfind, hlo, hhi, hp, hfirst⟩ | ⟨hfind, hall⟩
        · refine Or.inl ⟨p, hfind, by omega, by omega, hp, fun q h1 h2 => ?_⟩
          by_cases hq : q < (group + 1) * 8
          · exact hnone q h1 hq
          · exact hfirst q (by omega) h2
        · refine Or.inr ⟨hfind, fun q h1 h2 => ?_⟩
          by_cases hq : q < (group + 1) * 8
          · exact hnone q h1 hq
          · exact hall q (by omega) (by omega)
      · rw [if_pos hb]
        obtain ⟨h8, hset, hlow⟩ := lowestSet_spec (hlt group _ b.toNat_lt) hb
        refine Or.inl ⟨_, rfl, by omega, by omega, ?_, fun q h1 h2 => ?_⟩
        · exact (hhead _ h8).symm.trans hset
        · have h := hhead (q - group * 8) (by omega)
          rw [show group * 8 + (q - group * 8) = q by omega] at h
          exact h.symm.trans (hlow _ (by omega))

theorem testBit_mask {start j : Nat} (hj : j < 8) :
    (2 ^ (start % 8) - 1 ^^^ 255).testBit j = decide (start % 8 ≤ j) := by
  rw [Nat.testBit_xor, Nat.testBit_two_pow_sub_one, testBit_255]
  simp only [decide_eq_true hj, Bool.xor_true]
  by_cases h : j < start % 8
  · simp [h]
  · simp [h, Nat.not_lt.mp h]

theorem byte_lt {b c : Nat} (hb : b < 256) (hc : c < 256) : b ||| c < 256 ∧ b ^^^ c < 256 :=
  ⟨Nat.or_lt_two_pow (n := 8) hb hc, Nat.xor_lt_two_pow (n := 8) hb hc⟩

theorem mask_lt (start : Nat) : 2 ^ (start % 8) - 1 < 256 := by
  have h : 2 ^ (start % 8) ≤ 2 ^ 8 :=
    Nat.pow_le_pow_right (by decide) (Nat.mod_lt start (by decide)).le
  omega

section Searches

variable {bitmap : Bytes} {start : Nat}

/-- What the drop of whole bytes leaves are the bits from the start's byte on. -/
theorem testBit_drop {k j : Nat} (hk : k < (bitmap.drop (start / 8)).length) (hj : j < 8) :
    (bitmap.drop (start / 8))[k].toNat.testBit j = bitAt bitmap ((start / 8 + k) * 8 + j) := by
  rw [List.getElem_drop, bitAt, show ((start / 8 + k) * 8 + j) / 8 = start / 8 + k by omega,
    show ((start / 8 + k) * 8 + j) % 8 = j by omega, LeBytes.byteAt, List.getD_eq_getElem]

/-- The first set bit from the start on. -/
theorem findOne_spec (hstart : start ≤ 8 * bitmap.length) :
    (∃ p, findOne bitmap start = some p ∧ start ≤ p ∧ p < 8 * bitmap.length ∧
      bitAt bitmap p = true ∧ ∀ q, start ≤ q → q < p → bitAt bitmap q = false) ∨
    (findOne bitmap start = none ∧
      ∀ q, start ≤ q → q < 8 * bitmap.length → bitAt bitmap q = false) := by
  -- The scan of bytes, each seen through a mask in the first one.
  have h := @findSet_spec (oneView start) (fun q => bitAt bitmap q && decide (start ≤ q))
    (bitmap.drop (start / 8)) (start / 8) ?_ ?_
  · rw [List.length_drop] at h
    rcases h with ⟨p, hfind, hlo, hhi, hp, hfirst⟩ | ⟨hfind, hall⟩
    · rw [Bool.and_eq_true, decide_eq_true_eq] at hp
      refine Or.inl ⟨p, hfind, hp.2, by omega, hp.1, fun q h1 h2 => ?_⟩
      simpa [h1] using hfirst q (by omega) h2
    · refine Or.inr ⟨hfind, fun q h1 h2 => ?_⟩
      simpa [h1] using hall q (by omega) (by omega)
  · intro g b hb
    unfold oneView
    split
    · exact Nat.lt_of_le_of_lt Nat.and_le_left hb
    · exact hb
  · intro k hk j hj
    unfold oneView
    split
    next hg =>
      rw [Nat.testBit_and, testBit_mask hj, testBit_drop hk hj]
      congr 2
      exact propext (by omega)
    next hg =>
      rw [testBit_drop hk hj, decide_eq_true (by omega), Bool.and_true]

/-- The first clear bit from the start on. -/
theorem findZero_spec (hstart : start ≤ 8 * bitmap.length) :
    (∃ p, findZero bitmap start = some p ∧ start ≤ p ∧ p < 8 * bitmap.length ∧
      bitAt bitmap p = false ∧ ∀ q, start ≤ q → q < p → bitAt bitmap q = true) ∨
    (findZero bitmap start = none ∧
      ∀ q, start ≤ q → q < 8 * bitmap.length → bitAt bitmap q = true) := by
  -- The same scan, over the complement.
  have h := @findSet_spec (zeroView start) (fun q => !bitAt bitmap q && decide (start ≤ q))
    (bitmap.drop (start / 8)) (start / 8) ?_ ?_
  · rw [List.length_drop] at h
    rcases h with ⟨p, hfind, hlo, hhi, hp, hfirst⟩ | ⟨hfind, hall⟩
    · rw [Bool.and_eq_true, decide_eq_true_eq, Bool.not_eq_true'] at hp
      refine Or.inl ⟨p, hfind, hp.2, by omega, hp.1, fun q h1 h2 => ?_⟩
      simpa [h1] using hfirst q (by omega) h2
    · refine Or.inr ⟨hfind, fun q h1 h2 => ?_⟩
      simpa [h1] using hall q (by omega) (by omega)
  · intro g b hb
    unfold zeroView
    split
    · exact (byte_lt (byte_lt hb (mask_lt start)).1 (by decide)).2
    · exact (byte_lt hb (by decide)).2
  · intro k hk j hj
    unfold zeroView
    rw [Nat.testBit_xor, testBit_255, decide_eq_true hj, Bool.xor_true]
    split
    next hg =>
      rw [Nat.testBit_or, Nat.testBit_two_pow_sub_one, testBit_drop hk hj, Bool.not_or]
      congr 1
      rw [← decide_not]
      congr 1
      exact propext (by omega)
    next hg =>
      rw [testBit_drop hk hj, decide_eq_true (by omega), Bool.and_true]

end Searches

/-! ## The chunks -/

/-- The blocks of two chunks, as the arguments of `push_chunk`, are different. -/
def ChunksDisjoint (c c' : Nat × Nat) : Prop :=
  Disjoint (Set.Ico c.1 (c.1 + c.2)) (Set.Ico c'.1 (c'.1 + c'.2))

section Chunks

variable {sb : SuperBlock} {bgid n : Nat} {bitmap : Bytes}

/-- A run of clear bits ends at the next set bit, or with the group. -/
theorem exists_run_end (hlen : n ≤ 8 * bitmap.length)
    (hpad : ∀ i, n ≤ i → i < 8 * bitmap.length → bitAt bitmap i = true) {z : Nat} (hzn : z < n)
    (hz : bitAt bitmap z = false) :
    ∃ one, (findOne bitmap z).getD n = one ∧ z < one ∧ one ≤ n ∧
      (∀ q, z ≤ q → q < one → bitAt bitmap q = false) := by
  rcases @findOne_spec bitmap z (by omega) with
    ⟨o, hone, hzo, hon, ho, hclear⟩ | ⟨hone, hall⟩
  · refine ⟨o, by rw [hone]; rfl, ?_, ?_, hclear⟩
    · refine lt_of_le_of_ne hzo fun heq => ?_
      rw [← heq, hz] at ho
      cases ho
    · -- Bit `n` is set, where there is one.
      by_contra hlt
      have hset := hpad n (Nat.le_refl n) (by omega)
      rw [hclear n hzn.le (by omega)] at hset
      cases hset
  · exact ⟨n, by rw [hone]; rfl, hzn, le_refl n, fun q h1 h2 => hall q h1 (by omega)⟩

/-- The loop from `pos` on returns.  Its chunks lie behind `pos`, one behind the other, and
    cover the clear bits from there on and nothing else. -/
theorem buildBuddyFrom_spec (hlen : n ≤ 8 * bitmap.length)
    (hpad : ∀ i, n ≤ i → i < 8 * bitmap.length → bitAt bitmap i = true) (fuel : Nat) {pos : Nat}
    (hpos : pos ≤ n) (hfuel : n ≤ fuel + pos) :
    ∃ chunks, buildBuddyFrom sb bgid bitmap n fuel pos = .ok chunks ∧
      (∀ c ∈ chunks, sb.fromBgidIndex bgid pos ≤ c.1 ∧ c.1 + c.2 ≤ sb.fromBgidIndex bgid n) ∧
      chunks.Pairwise ChunksDisjoint ∧
      ∀ x, (∃ c ∈ chunks, x ∈ Set.Ico c.1 (c.1 + c.2)) ↔
        ∃ i, pos ≤ i ∧ i < n ∧ bitAt bitmap i = false ∧ x = sb.fromBgidIndex bgid i := by
  -- Nothing is pushed where no bit from `pos` on is clear.
  have hempty : ∀ pos', (∀ q, pos' ≤ q → q < n → bitAt bitmap q = true) → ∀ x,
      (∃ c ∈ ([] : List (Nat × Nat)), x ∈ Set.Ico c.1 (c.1 + c.2)) ↔
        ∃ i, pos' ≤ i ∧ i < n ∧ bitAt bitmap i = false ∧ x = sb.fromBgidIndex bgid i := by
    intro pos' hall x
    refine ⟨fun ⟨c, hc, _⟩ => absurd hc List.not_mem_nil, ?_⟩
    rintro ⟨i, h1, h2, hclear, -⟩
    rw [hall i h1 h2] at hclear
    cases hclear
  have hnil : ∀ c ∈ ([] : List (Nat × Nat)), sb.fromBgidIndex bgid pos ≤ c.1 ∧
      c.1 + c.2 ≤ sb.fromBgidIndex bgid n := fun c hc => absurd hc List.not_mem_nil
  induction fuel generalizing pos with
  | zero =>
      rw [buildBuddyFrom, if_neg (by omega)]
      exact ⟨[], rfl, hnil, List.Pairwise.nil, hempty pos (by omega)⟩
  | succ fuel ih =>
      rw [buildBuddyFrom]
      by_cases hlt : pos < n
      · rw [if_pos hlt]
        rcases @findZero_spec bitmap pos (by omega) with
          ⟨z, hzero, hpz, hzlen, hz, hbefore⟩ | ⟨hzero, hall⟩
        · rw [hzero]
          by_cases hzn : z < n
          · obtain ⟨one, hone, hzo, hon, hclear⟩ := exists_run_end hlen hpad hzn hz
            obtain ⟨rest, hrest, hin, hdisj, hmem⟩ := ih hon (by omega)
              fun c hc => absurd hc List.not_mem_nil
            refine ⟨(sb.fromBgidIndex bgid z, one - z) :: rest, ?_, ?_, ?_, fun x => ?_⟩
            · simp only [hone, hrest, if_neg (Nat.not_lt.mpr hzo.le)]
            · intro c hc
              rcases List.mem_cons.mp hc with rfl | hc
              · simp only [SuperBlock.fromBgidIndex_eq]
                omega
              · have hbehind := hin c hc
                simp only [SuperBlock.fromBgidIndex_eq] at hbehind ⊢
                omega
            · refine List.pairwise_cons.mpr ⟨fun c hc => ?_, hdisj⟩
              have hbehind := (hin c hc).1
              rw [ChunksDisjoint, Set.disjoint_left]
              rintro x ⟨-, hx⟩ ⟨hx', -⟩
              simp only [SuperBlock.fromBgidIndex_eq] at hbehind hx
              omega
            · simp only [List.mem_cons, exists_eq_or_imp, hmem]
              simp only [Set.mem_Ico, SuperBlock.fromBgidIndex_eq]
              constructor
              · rintro (⟨h1, h2⟩ | ⟨i, h1, h2, hi, hx⟩)
                · exact ⟨x - (sb.firstDataBlock + sb.blocksPerGroup * bgid), by omega, by omega,
                    hclear _ (by omega) (by omega), by omega⟩
                · exact ⟨i, by omega, h2, hi, hx⟩
              · rintro ⟨i, h1, h2, hi, hx⟩
                by_cases hio : one ≤ i
                · exact Or.inr ⟨i, hio, h2, hi, hx⟩
                · refine Or.inl ⟨?_, by omega⟩
                  by_contra hlow
                  rw [hbefore i h1 (by omega)] at hi
                  cases hi
          · rw [hpad z (by omega) hzlen] at hz
            cases hz
        · rw [hzero]
          exact ⟨[], rfl, hnil, List.Pairwise.nil,
            hempty pos fun q h1 h2 => hall q h1 (by omega)⟩
      · rw [if_neg hlt]
        exact ⟨[], rfl, hnil, List.Pairwise.nil, hempty pos (by omega)⟩

end Chunks

/-- A block is in a chunk that `build_buddy` hands to the allocator exactly when its bit
    is clear. -/
theorem buildBuddy_spec (sb : SuperBlock) (bgid : Nat) {bitmap : Bytes} {n : Nat}
    (hlen : 8 * bitmap.length = n) :
    ∃ chunks, buildBuddy sb bgid bitmap n = .ok chunks ∧
      ∀ x, (∃ c ∈ chunks, x ∈ Set.Ico c.1 (c.1 + c.2)) ↔
        ∃ i < n, bitAt bitmap i = false ∧ x = sb.fromBgidIndex bgid i := by
  obtain ⟨chunks, hok, -, -, hmem⟩ := @buildBuddyFrom_spec sb bgid n bitmap
    hlen.ge (fun i h1 h2 => absurd h2 (by omega)) n 0 n.zero_le (by omega)
  exact ⟨chunks, hok, fun x => (hmem x).trans (by simp)⟩

/-! ## The allocator after the scan -/

/-- The calls of `push_chunk`, in order. -/
def BlockGroupBuddy.pushChunks (b : BlockGroupBuddy) (chunks : List (Nat × Nat)) :
    Except BuddyFault BlockGroupBuddy :=
  chunks.foldlM (fun b c => b.pushChunk false c.1 c.2) b

/-- Chunks that are not free and do not meet become free. -/
theorem BlockGroupBuddy.pushChunks_spec {chunks : List (Nat × Nat)} {b : BlockGroupBuddy}
    (h : b.Inv) (hend : ∀ c ∈ chunks, c.1 + c.2 ≤ 2 ^ 64 - 1)
    (hfree : ∀ c ∈ chunks, Disjoint (Set.Ico c.1 (c.1 + c.2)) b.free)
    (hdisj : chunks.Pairwise ChunksDisjoint) :
    ∃ b', b.pushChunks chunks = .ok b' ∧ b'.Inv ∧
      b'.free = b.free ∪ {x | ∃ c ∈ chunks, x ∈ Set.Ico c.1 (c.1 + c.2)} := by
  -- On the chunks left; each is apart from what is free by then.
  induction chunks generalizing b with
  | nil => exact ⟨b, rfl, h, by simp⟩
  | cons c rest ih =>
      obtain ⟨hhead, hrest⟩ := List.pairwise_cons.mp hdisj
      obtain ⟨b1, hok, hinv, -, hf⟩ := pushChunk_spec h (hend c List.mem_cons_self)
        (hfree c List.mem_cons_self)
      have hfree1 : ∀ c' ∈ rest, Disjoint (Set.Ico c'.1 (c'.1 + c'.2)) b1.free := by
        intro c' hc'
        rw [hf, Set.disjoint_union_right]
        exact ⟨hfree c' (List.mem_cons_of_mem c hc'), (hhead c' hc').symm⟩
      obtain ⟨b', hok', hinv', hf'⟩ := ih hinv
        (fun c' hc' => hend c' (List.mem_cons_of_mem c hc')) hfree1 hrest
      refine ⟨b', ?_, hinv', ?_⟩
      · rw [pushChunks, List.foldlM_cons, hok]
        exact hok'
      · rw [hf', hf, Set.union_assoc]
        congr 1
        ext x
        simp only [Set.mem_union, Set.mem_ofPred_eq, List.mem_cons, exists_eq_or_imp]

/-- Where the bits behind the group are set, the scan returns.  It pushes chunks that do not
    meet and cover the blocks with a clear bit; an allocator that has none of the group's
    blocks as free takes them all, and has got exactly those blocks. -/
theorem buildBuddy_rebuilds (sb : SuperBlock) (bgid : Nat) {bitmap : Bytes} {n : Nat}
    (hlen : n ≤ 8 * bitmap.length)
    (hpad : ∀ i, n ≤ i → i < 8 * bitmap.length → bitAt bitmap i = true) :
    ∃ chunks, buildBuddy sb bgid bitmap n = .ok chunks ∧ chunks.Pairwise ChunksDisjoint ∧
      (∀ x, (∃ c ∈ chunks, x ∈ Set.Ico c.1 (c.1 + c.2)) ↔
        ∃ i < n, bitAt bitmap i = false ∧ x = sb.fromBgidIndex bgid i) ∧
      ∀ b : BlockGroupBuddy, b.Inv → sb.fromBgidIndex bgid n ≤ 2 ^ 64 - 1 →
        (∀ i < n, sb.fromBgidIndex bgid i ∉ b.free) →
        ∃ b', b.pushChunks chunks = .ok b' ∧ b'.Inv ∧
          b'.free = b.free ∪
            {x | ∃ i < n, bitAt bitmap i = false ∧ x = sb.fromBgidIndex bgid i} := by
  obtain ⟨chunks, hok, hin, hdisj, hmem⟩ := @buildBuddyFrom_spec sb bgid n bitmap
    hlen hpad n 0 n.zero_le (by omega)
  have hcover : ∀ x, (∃ c ∈ chunks, x ∈ Set.Ico c.1 (c.1 + c.2)) ↔
      ∃ i < n, bitAt bitmap i = false ∧ x = sb.fromBgidIndex bgid i :=
    fun x => (hmem x).trans (by simp)
  refine ⟨chunks, hok, hdisj, hcover, fun b hinv hend hfree => ?_⟩
  -- A block of a chunk is a clear bit of the group, and none of these was free.
  have hnotfree : ∀ c ∈ chunks, Disjoint (Set.Ico c.1 (c.1 + c.2)) b.free := by
    intro c hc
    rw [Set.disjoint_left]
    intro x hx hxf
    obtain ⟨i, hi, -, rfl⟩ := (hcover x).mp ⟨c, hc, hx⟩
    exact hfree i hi hxf
  obtain ⟨b', hpush, hinv', hf⟩ := BlockGroupBuddy.pushChunks_spec hinv
    (fun c hc => (hin c hc).2.trans hend) hnotfree hdisj
  refine ⟨b', hpush, hinv', ?_⟩
  rw [hf]
  congr 1
  ext x
  exact hcover x

/-- One group of twelve blocks. -/
def twelveBlocks : SuperBlock where
  isDirEntryVersion2 := true
  inodeSize := 128
  inodesPerGroup := 8
  featuresIncompatible := 0
  featuresReadonly := 0
  firstDataBlock := 0
  blocksPerGroup := 12
  creatorOs := 0
  revLevel := 1
  bgCount := 1
  wantExtraIsize := 0
  firstDataBlock_le := by decide
  blocksPerGroup_pos := by decide
  blocksPerGroup_lt := by decide
  bgCount_lt := by decide

/-- The bitmap has sixteen bits; 2, 3 and 7 are clear. -/
theorem buildBuddy_rebuilds_twelveBlocks :
    buildBuddy twelveBlocks 0 [0x73, 0xff] 12 = .ok [(2, 2), (7, 1)] ∧
      ∃ b', (BlockGroupBuddy.new 5).pushChunks [(2, 2), (7, 1)] = .ok b' ∧ 7 ∈ b'.free := by
  have hscan : buildBuddy twelveBlocks 0 [0x73, 0xff] 12 = .ok [(2, 2), (7, 1)] := by decide
  have hpad : ∀ i < 16, 12 ≤ i → bitAt [0x73, 0xff] i = true := by decide
  obtain ⟨chunks, hok, -, -, hpush⟩ := @buildBuddy_rebuilds twelveBlocks 0
    [0x73, 0xff] 12 (by decide) fun i h1 h2 => hpad i h2 h1
  rw [hscan] at hok
  cases hok
  obtain ⟨b', hb', -, hfree⟩ := hpush (BlockGroupBuddy.new 5) (BlockGroupBuddy.new_inv 5)
    (by decide) fun i _ => by
      rw [BlockGroupBuddy.new_free]
      exact Set.notMem_empty _
  refine ⟨hscan, b', hb', ?_⟩
  rw [hfree]
  exact Or.inr ⟨7, by decide, by decide, by decide⟩

end RustExt4.Block
