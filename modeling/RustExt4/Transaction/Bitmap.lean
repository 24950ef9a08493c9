/-
  RustExt4.Transaction.Bitmap

  The byte-wise updates of a bitmap block, read bit by bit.  Both updates have
  one shape (`updateRange`), so one argument covers them: an operation that
  forces the bits of a set to a value forces the bits of the union when it is
  repeated over a range.
-/
import RustExt4.Transaction.Event
import RustExt4.Lib.ExceptRun
import Mathlib.Data.Nat.Bitwise

namespace RustExt4.Transaction

/-- Bit `pos` of a bitmap block. -/
def bitAt (blk : Bytes) (pos : Nat) : Bool := (LeBytes.byteAt blk (pos / 8)).testBit (pos % 8)

/-- A block is its bits. -/
theorem eq_of_bitAt {blk blk' : Bytes} (hlen : blk'.length = blk.length)
    (h : ∀ p < 8 * blk.length, bitAt blk' p = bitAt blk p) : blk' = blk := by
  apply List.ext_getElem hlen
  intro k hk hk'
  apply UInt8.toNat_inj.mp
  apply Nat.eq_of_testBit_eq
  intro j
  by_cases hj : j < 8
  · have hbit := h (8 * k + j) (by omega)
    rw [bitAt, bitAt, show (8 * k + j) / 8 = k by omega, show (8 * k + j) % 8 = j by omega,
      LeBytes.byteAt, LeBytes.byteAt, List.getD_eq_getElem _ _ hk,
      List.getD_eq_getElem _ _ hk'] at hbit
    exact hbit
  · have hpow : 2 ^ 8 ≤ 2 ^ j := Nat.pow_le_pow_right (by decide) (by omega)
    rw [Nat.testBit_lt_two_pow (blk'[k].toNat_lt.trans_le hpow),
      Nat.testBit_lt_two_pow (blk[k].toNat_lt.trans_le hpow)]

/-- `f` sets exactly the bits of `S i` to `v` when it is applied at `i`. -/
def Forces (v : Bool) (S : Nat → Nat → Prop) [∀ i q, Decidable (S i q)] (bound : Nat)
    (f : Bytes → Nat → Bytes) : Prop :=
  ∀ blk i, (f blk i).length = blk.length ∧
    (i < bound * blk.length → ∀ q, bitAt (f blk i) q = if S i q then v else bitAt blk q)

/-! ## One position -/

theorem byteAt_set {blk : Bytes} {p q : Nat} {v : UInt8} (h : p < blk.length) :
    LeBytes.byteAt (blk.set p v) q = if q = p then v.toNat else LeBytes.byteAt blk q := by
  unfold LeBytes.byteAt
  by_cases hq : q = p
  · subst hq
    rw [if_pos rfl, List.getD_eq_getElem _ _ (by simpa using h), List.getElem_set_self]
  · rw [if_neg hq, LeBytes.getD_set_ne (Ne.symm hq)]

theorem testBit_255 (i : Nat) : Nat.testBit 255 i = decide (i < 8) :=
  Nat.testBit_two_pow_sub_one 8 i

/-- Changing the bits of one byte by a bitwise rule changes the bits of the block. -/
theorem bitAt_set_byte {blk : Bytes} {pos q n : Nat} {v : Bool} (h : pos < 8 * blk.length)
    (hn : n < 256)
    (hbit : ∀ i < 8, n.testBit i = if i = pos % 8 then v
      else (LeBytes.byteAt blk (pos / 8)).testBit i) :
    bitAt (blk.set (pos / 8) (UInt8.ofNat n)) q = if q = pos then v else bitAt blk q := by
  unfold bitAt
  rw [byteAt_set (by omega)]
  by_cases hb : q / 8 = pos / 8
  · have hval : (UInt8.ofNat n).toNat = n := by
      rw [UInt8.toNat_ofNat']
      exact Nat.mod_eq_of_lt hn
    rw [if_pos hb, hval, hbit _ (Nat.mod_lt _ (by decide)), hb]
    by_cases hq : q = pos
    · rw [if_pos (by rw [hq]), if_pos hq]
    · rw [if_neg (by omega), if_neg hq]
  · rw [if_neg hb, if_neg (by rintro rfl; exact hb rfl)]

theorem setBit_forces : Forces true (fun i q => q = i) 8 setBit := by
  intro blk i
  refine ⟨by simp [setBit], fun hi q => ?_⟩
  refine bitAt_set_byte hi ?_ ?_
  · exact Nat.or_lt_two_pow (n := 8) (LeBytes.byteAt_lt ..)
      (Nat.pow_lt_pow_right (by decide) (Nat.mod_lt _ (by decide)))
  · intro j _
    rw [Nat.testBit_or, Nat.testBit_two_pow]
    by_cases hj : j = i % 8
    · rw [if_pos hj, hj]; simp
    · rw [if_neg hj]; simp [Ne.symm hj]

theorem clearBit_forces : Forces false (fun i q => q = i) 8 clearBit := by
  intro blk i
  refine ⟨by simp [clearBit], fun hi q => ?_⟩
  refine bitAt_set_byte hi ?_ ?_
  · exact Nat.lt_of_le_of_lt Nat.and_le_left (LeBytes.byteAt_lt ..)
  · intro j hj8
    rw [Nat.testBit_and, Nat.testBit_xor, Nat.testBit_two_pow, testBit_255]
    by_cases hj : j = i % 8
    · rw [if_pos hj, ← hj]; simp [hj8]
    · rw [if_neg hj]; simp [Ne.symm hj, hj8]

theorem setByte_forces {v : Bool} {w : UInt8} (hw : ∀ i < 8, w.toNat.testBit i = v) :
    Forces v (fun g q => q / 8 = g) 1 (fun blk g => blk.set g w) := by
  intro blk g
  refine ⟨by simp, fun hg q => ?_⟩
  unfold bitAt
  rw [byteAt_set (by omega)]
  by_cases hq : q / 8 = g
  · rw [if_pos hq, if_pos hq, hw _ (Nat.mod_lt _ (by decide))]
  · rw [if_neg hq, if_neg hq]

/-! ## A range of positions -/

theorem Forces.forRange {v : Bool} {S : Nat → Nat → Prop} [∀ i q, Decidable (S i q)]
    {bound : Nat} {f : Bytes → Nat → Bytes} (hf : Forces v S bound f) (blk : Bytes)
    (st ed : Nat) (hed : ed ≤ bound * blk.length ∨ ed ≤ st) :
    (forRange st ed f blk).length = blk.length ∧
    ∀ q, ((∃ i, st ≤ i ∧ i < ed ∧ S i q) → bitAt (forRange st ed f blk) q = v) ∧
      (¬ (∃ i, st ≤ i ∧ i < ed ∧ S i q) → bitAt (forRange st ed f blk) q = bitAt blk q) := by
  unfold Transaction.forRange
  -- The induction is on the length of the range; the block changes, its length does not.
  induction hn : ed - st generalizing st blk with
  | zero =>
      refine ⟨rfl, fun q => ⟨?_, fun _ => rfl⟩⟩
      rintro ⟨i, h1, h2, _⟩
      omega
  | succ n ih =>
      have hlt : st < bound * blk.length := by omega
      obtain ⟨hlen, hbits⟩ := hf blk st
      have hb := hbits hlt
      obtain ⟨ihlen, ihbits⟩ := ih (f blk st) (st + 1) (by rw [hlen]; omega) (by omega)
      rw [List.range'_succ, List.foldl_cons]
      refine ⟨ihlen.trans hlen, fun q => ⟨?_, ?_⟩⟩
      · rintro ⟨i, h1, h2, hS⟩
        by_cases hrest : ∃ i, st + 1 ≤ i ∧ i < ed ∧ S i q
        · exact (ihbits q).1 hrest
        · have hi : i = st := by
            by_contra hne
            exact hrest ⟨i, by omega, h2, hS⟩
          rw [(ihbits q).2 hrest, hb, if_pos (hi ▸ hS)]
      · intro hno
        have hrest : ¬ ∃ i, st + 1 ≤ i ∧ i < ed ∧ S i q := by
          rintro ⟨i, h1, h2, hS⟩
          exact hno ⟨i, by omega, h2, hS⟩
        rw [(ihbits q).2 hrest, hb, if_neg (fun hS => hno ⟨st, Nat.le_refl st, by omega, hS⟩)]

/-- The three phases together force exactly the bits of `[ofs, ofs+count)`. -/
theorem bitAt_updateRange {v : Bool} {bitOp : Bytes → Nat → Bytes} {w : UInt8}
    (hbit : Forces v (fun i q => q = i) 8 bitOp) (hw : ∀ i < 8, w.toNat.testBit i = v)
    {blk : Bytes} {ofs count : Nat} (h : ofs + count ≤ 8 * blk.length ∨ count = 0) (q : Nat) :
    bitAt (updateRange bitOp w blk ofs count) q =
      if ofs ≤ q ∧ q < ofs + count then v else bitAt blk q := by
  simp only [updateRange, bitmapRanges]
  generalize hoe : min ((ofs + 7) / 8 * 8) (ofs + count) = oe
  generalize hme : (ofs + count) / 8 * 8 = me
  obtain ⟨hlen1, h1⟩ := hbit.forRange blk ofs oe (by omega)
  generalize forRange ofs oe bitOp blk = blk1 at hlen1 h1 ⊢
  obtain ⟨hlen2, h2⟩ := (setByte_forces hw).forRange blk1 (oe / 8) (me / 8) (by omega)
  generalize forRange (oe / 8) (me / 8) (fun blk g => blk.set g w) blk1 = blk2 at hlen2 h2 ⊢
  obtain ⟨-, h3⟩ := hbit.forRange blk2 (max oe me) (ofs + count) (by omega)
  by_cases hq : ofs ≤ q ∧ q < ofs + count
  · rw [if_pos hq]
    by_cases hq3 : max oe me ≤ q
    · exact (h3 q).1 ⟨q, hq3, hq.2, rfl⟩
    · rw [(h3 q).2 (by rintro ⟨i, hi1, hi2, rfl⟩; exact hq3 hi1)]
      by_cases hq2 : oe ≤ q
      · exact (h2 q).1 ⟨q / 8, by omega, by omega, rfl⟩
      · rw [(h2 q).2 (by rintro ⟨i, hi1, hi2, hi3⟩; omega)]
        exact (h1 q).1 ⟨q, hq.1, by omega, rfl⟩
  · rw [if_neg hq, (h3 q).2 (by rintro ⟨i, hi1, hi2, rfl⟩; exact hq ⟨by omega, hi2⟩),
      (h2 q).2 (by rintro ⟨i, hi1, hi2, hi3⟩; omega),
      (h1 q).2 (by rintro ⟨i, hi1, hi2, rfl⟩; exact hq ⟨hi1, by omega⟩)]

theorem length_updateRange {v : Bool} {bitOp : Bytes → Nat → Bytes}
    (hbit : Forces v (fun i q => q = i) 8 bitOp) (w : UInt8) (blk : Bytes) (ofs count : Nat) :
    (updateRange bitOp w blk ofs count).length = blk.length := by
  have hfold : ∀ (f : Bytes → Nat → Bytes), (∀ b i, (f b i).length = b.length) →
      ∀ (l : List Nat) (b : Bytes), (l.foldl f b).length = b.length := by
    intro f hf l
    induction l with
    | nil => intro b; rfl
    | cons i l ih => intro b; rw [List.foldl_cons, ih, hf]
  simp only [updateRange, forRange]
  rw [hfold _ fun b i => (hbit b i).1, hfold _ fun b i => by simp, hfold _ fun b i => (hbit b i).1]

theorem bitAt_setBitmap {blk : Bytes} {ofs count : Nat}
    (h : ofs + count ≤ 8 * blk.length ∨ count = 0) (q : Nat) :
    bitAt (setBitmap blk ofs count) q =
      if ofs ≤ q ∧ q < ofs + count then true else bitAt blk q :=
  bitAt_updateRange setBit_forces (by decide) h q

theorem bitAt_unsetBitmap {blk : Bytes} {ofs count : Nat}
    (h : ofs + count ≤ 8 * blk.length ∨ count = 0) (q : Nat) :
    bitAt (unsetBitmap blk ofs count) q =
      if ofs ≤ q ∧ q < ofs + count then false else bitAt blk q :=
  bitAt_updateRange clearBit_forces (by decide) h q

/-! ## The debug assertions -/

/-- All bits of `[ofs, ofs+count)` are `v`. -/
def AllBits (v : Bool) (blk : Bytes) (ofs count : Nat) : Prop :=
  ∀ q < ofs + count, ofs ≤ q → bitAt blk q = v

instance (v : Bool) (blk : Bytes) (ofs count : Nat) : Decidable (AllBits v blk ofs count) :=
  inferInstanceAs (Decidable (∀ q < ofs + count, ofs ≤ q → bitAt blk q = v))

/-- The assertion at `i` is that the bits of `S i` are `v`. -/
def Asserts (v : Bool) (S : Nat → Nat → Prop) (asserted : Bytes → Nat → Bool) : Prop :=
  ∀ blk i, asserted blk i = true ↔ ∀ q, S i q → bitAt blk q = v

theorem setBit_asserts :
    Asserts false (fun i q => q = i) fun blk pos =>
      LeBytes.byteAt blk (pos / 8) &&& 2 ^ (pos % 8) == 0 := by
  intro blk i
  rw [beq_iff_eq, Nat.and_two_pow, forall_eq, bitAt]
  cases (LeBytes.byteAt blk (i / 8)).testBit (i % 8) <;> simp

theorem clearBit_asserts :
    Asserts true (fun i q => q = i) fun blk pos =>
      LeBytes.byteAt blk (pos / 8) &&& 2 ^ (pos % 8) == 2 ^ (pos % 8) := by
  intro blk i
  have hpos := Nat.two_pow_pos (i % 8)
  rw [beq_iff_eq, Nat.and_two_pow, forall_eq, bitAt]
  cases (LeBytes.byteAt blk (i / 8)).testBit (i % 8) <;> simp
  omega

/-- A byte is known by its bits. -/
theorem byte_asserts {v : Bool} {n : Nat} (hn : n < 256) (hbits : ∀ j < 8, n.testBit j = v) :
    Asserts v (fun g q => q / 8 = g) fun blk g => LeBytes.byteAt blk g == n := by
  intro blk g
  rw [beq_iff_eq]
  constructor
  · rintro heq q rfl
    rw [bitAt, heq]
    exact hbits _ (Nat.mod_lt _ (by decide))
  · intro hall
    apply Nat.eq_of_testBit_eq
    intro j
    by_cases hj : j < 8
    · have hbit := hall (8 * g + j) (by omega)
      rwa [bitAt, show (8 * g + j) / 8 = g by omega, show (8 * g + j) % 8 = j by omega,
        ← hbits j hj] at hbit
    · have hpow : 2 ^ 8 ≤ 2 ^ j := Nat.pow_le_pow_right (by decide) (by omega)
      rw [Nat.testBit_lt_two_pow ((LeBytes.byteAt_lt blk g).trans_le hpow),
        Nat.testBit_lt_two_pow (Nat.lt_of_lt_of_le hn hpow)]

/-- A loop with assertions ends well where all of them hold at its start: a round leaves the
    bits of the others. -/
theorem forRangeChecked_eq {v : Bool} {S : Nat → Nat → Prop} [∀ i q, Decidable (S i q)]
    {bound : Nat} {f : Bytes → Nat → Bytes} {asserted : Bytes → Nat → Bool}
    {v' : Bool} (hf : Forces v' S bound f) (has : Asserts v S asserted)
    (hS : ∀ i j q, S i q → S j q → i = j) (blk : Bytes) (st ed : Nat)
    (hed : ed ≤ bound * blk.length ∨ ed ≤ st) :
    ((∀ i, st ≤ i → i < ed → ∀ q, S i q → bitAt blk q = v) →
        forRangeChecked st ed asserted f blk = .ok (forRange st ed f blk)) ∧
      (¬ (∀ i, st ≤ i → i < ed → ∀ q, S i q → bitAt blk q = v) →
        forRangeChecked st ed asserted f blk = .error .panic) := by
  unfold forRangeChecked Transaction.forRange
  -- The induction is on the length of the range.
  induction hn : ed - st generalizing st blk with
  | zero =>
      refine ⟨fun _ => rfl, fun hnot => absurd ?_ hnot⟩
      intro i h1 h2
      omega
  | succ n ih =>
      have hlt : st < bound * blk.length := by omega
      obtain ⟨hlen, hbits⟩ := hf blk st
      have hrest : (∀ i, st + 1 ≤ i → i < ed → ∀ q, S i q → bitAt (f blk st) q = v) ↔
          ∀ i, st + 1 ≤ i → i < ed → ∀ q, S i q → bitAt blk q = v := by
        refine forall_congr' fun i => forall_congr' fun hi => forall_congr' fun _ =>
          forall_congr' fun q => forall_congr' fun hq => ?_
        rw [hbits hlt, if_neg fun hst => by have := hS i st q hq hst; omega]
      obtain ⟨hok, hpanic⟩ := ih (f blk st) (st + 1) (by rw [hlen]; omega) (by omega)
      rw [hrest] at hok hpanic
      rw [List.range'_succ, List.foldlM_cons, List.foldl_cons]
      by_cases hhead : asserted blk st = true
      · rw [if_pos hhead]
        have hst := (has blk st).mp hhead
        constructor
        · exact fun hall => hok fun i hi => hall i (by omega)
        · intro hnot
          refine hpanic fun hall => hnot fun i h1 h2 q hq => ?_
          rcases Nat.eq_or_lt_of_le h1 with rfl | hi
          · exact hst q hq
          · exact hall i hi h2 q hq
      · rw [if_neg hhead]
        refine ⟨fun hall => absurd ((has blk st).mpr ?_) hhead, fun _ => rfl⟩
        exact hall st (Nat.le_refl st) (by omega)

/-- The assertions hold exactly where all bits of the range have the old value, and the
    update is then the one without them. -/
theorem updateRangeChecked_eq {v v' : Bool} {bitOp : Bytes → Nat → Bytes} {w : UInt8}
    {oldBit : Bytes → Nat → Bool} {oldVal : Nat} (hbit : Forces v' (fun i q => q = i) 8 bitOp)
    (hw : ∀ i < 8, w.toNat.testBit i = v') (hold : Asserts v (fun i q => q = i) oldBit)
    (hval : Asserts v (fun g q => q / 8 = g) fun blk g => LeBytes.byteAt blk g == oldVal)
    {blk : Bytes} {ofs count : Nat} (h : ofs + count ≤ 8 * blk.length ∨ count = 0) :
    updateRangeChecked bitOp w oldBit oldVal blk ofs count =
      if AllBits v blk ofs count then .ok (updateRange bitOp w blk ofs count)
      else .error .panic := by
  simp only [updateRangeChecked, updateRange, bitmapRanges]
  generalize hoe : min ((ofs + 7) / 8 * 8) (ofs + count) = oe
  generalize hme : (ofs + count) / 8 * 8 = me
  have hset := setByte_forces hw
  obtain ⟨hok1, hpanic1⟩ := forRangeChecked_eq hbit hold (by omega) blk ofs oe (by omega)
  obtain ⟨hlen1, hbits1⟩ := hbit.forRange blk ofs oe (by omega)
  generalize forRange ofs oe bitOp blk = blk1 at hok1 hlen1 hbits1 ⊢
  obtain ⟨hok2, hpanic2⟩ :=
    forRangeChecked_eq hset hval (by omega) blk1 (oe / 8) (me / 8) (by omega)
  obtain ⟨hlen2, hbits2⟩ := hset.forRange blk1 (oe / 8) (me / 8) (by omega)
  generalize forRange (oe / 8) (me / 8) (fun blk g => blk.set g w) blk1 = blk2
    at hok2 hlen2 hbits2 ⊢
  obtain ⟨hok3, hpanic3⟩ :=
    forRangeChecked_eq hbit hold (by omega) blk2 (max oe me) (ofs + count) (by omega)
  -- The phases before leave the bits that a phase asserts.
  have hleft1 : ∀ q, oe ≤ q → bitAt blk1 q = bitAt blk q :=
    fun q hq => (hbits1 q).2 (by rintro ⟨i, hi1, hi2, rfl⟩; omega)
  have hleft2 : ∀ q, max oe me ≤ q → bitAt blk2 q = bitAt blk q := fun q hq => by
    rw [(hbits2 q).2 (by rintro ⟨i, hi1, hi2, rfl⟩; omega), hleft1 q (by omega)]
  by_cases h1 : ∀ i, ofs ≤ i → i < oe → ∀ q, q = i → bitAt blk q = v
  · rw [ExceptRun.bind_of_ok (hok1 h1)]
    by_cases h2 : ∀ i, oe / 8 ≤ i → i < me / 8 → ∀ q, q / 8 = i → bitAt blk1 q = v
    · rw [ExceptRun.bind_of_ok (hok2 h2)]
      by_cases h3 : ∀ i, max oe me ≤ i → i < ofs + count → ∀ q, q = i → bitAt blk2 q = v
      · rw [hok3 h3, if_pos]
        intro q hq hle
        by_cases hq1 : q < oe
        · exact h1 q hle hq1 q rfl
        · by_cases hq2 : q < me
          · rw [← hleft1 q (by omega)]
            exact h2 (q / 8) (by omega) (by omega) q rfl
          · rw [← hleft2 q (by omega)]
            exact h3 q (by omega) hq q rfl
      · rw [hpanic3 h3, if_neg]
        refine fun hall => h3 fun i hi1 hi2 q hq => ?_
        rw [hleft2 q (by omega)]
        exact hall q (by omega) (by omega)
    · rw [hpanic2 h2, if_neg]
      · rfl
      · refine fun hall => h2 fun i hi1 hi2 q hq => ?_
        rw [hleft1 q (by omega)]
        exact hall q (by omega) (by omega)
  · rw [hpanic1 h1, if_neg]
    · rfl
    · exact fun hall => h1 fun i hi1 hi2 q hq => hall q (by omega) (by omega)

/-- `set_bitmap` asserts that the range is clear. -/
theorem setBitmapChecked_eq {blk : Bytes} {ofs count : Nat}
    (h : ofs + count ≤ 8 * blk.length ∨ count = 0) :
    setBitmapChecked blk ofs count =
      if AllBits false blk ofs count then .ok (setBitmap blk ofs count) else .error .panic :=
  updateRangeChecked_eq setBit_forces (by decide) setBit_asserts
    (byte_asserts (by decide) (by decide)) h

/-- `unset_bitmap` asserts that it is set. -/
theorem unsetBitmapChecked_eq {blk : Bytes} {ofs count : Nat}
    (h : ofs + count ≤ 8 * blk.length ∨ count = 0) :
    unsetBitmapChecked blk ofs count =
      if AllBits true blk ofs count then .ok (unsetBitmap blk ofs count) else .error .panic :=
  updateRangeChecked_eq clearBit_forces (by decide) clearBit_asserts
    (byte_asserts (by decide) (by decide)) h

end RustExt4.Transaction
