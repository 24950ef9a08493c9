/-
  RustExt4.Lib.TableCrc

  A checksum register that takes one byte at a time through a table of 256 words: the low
  byte of the register selects, together with the byte, an entry, and the rest moves down.

  Where the table is linear in exclusive or, so is the register.  Two strings of one length
  then leave the same register exactly where the register stays zero over their difference.
  Where the high byte of an entry tells the entry, a difference within four bytes cannot
  do that.
-/
import Mathlib.Data.Nat.Bitwise
import RustExt4.Lib.LeBytes

namespace TableCrc

/-- One byte. -/
def step (tab : List Nat) (s : Nat) (b : UInt8) : Nat :=
  tab.getD ((s ^^^ b.toNat) % 2 ^ 8) 0 ^^^ (s >>> 8)

def run (tab : List Nat) (s : Nat) (xs : List UInt8) : Nat := xs.foldl (step tab) s

/-- The bytes in which two strings differ. -/
def diff (xs ys : List UInt8) : List UInt8 := List.zipWith (· ^^^ ·) xs ys

/-- A linear table of a register of 32 bits. -/
structure Proper (tab : List Nat) : Prop where
  xor : ∀ i < 2 ^ 8, ∀ j < 2 ^ 8, tab.getD (i ^^^ j) 0 = tab.getD i 0 ^^^ tab.getD j 0
  lt : ∀ i < 2 ^ 8, tab.getD i 0 < 2 ^ 32
  high : ∀ i < 2 ^ 8, tab.getD i 0 < 2 ^ 24 → i = 0

/-- The exclusive or of the words of `basis` at the bits of `i`. -/
def combine : List Nat → Nat → Nat
  | [], _ => 0
  | e :: es, i => (if i % 2 = 1 then e else 0) ^^^ combine es (i / 2)

theorem combine_xor (basis : List Nat) (i j : Nat) :
    combine basis (i ^^^ j) = combine basis i ^^^ combine basis j := by
  induction basis generalizing i j with
  | nil => exact (Nat.xor_self 0).symm
  | cons e es ih =>
      have hhead : (if (i ^^^ j) % 2 = 1 then e else 0) =
          (if i % 2 = 1 then e else 0) ^^^ (if j % 2 = 1 then e else 0) := by
        simp only [Nat.xor_mod_two_eq_one]
        by_cases hi : i % 2 = 1 <;> by_cases hj : j % 2 = 1 <;> simp [hi, hj]
      rw [combine, combine, combine, Nat.xor_div_two, ih, hhead]
      ac_rfl

variable {tab : List Nat} {s t : Nat} {b c : UInt8} {xs ys : List UInt8}

theorem combine_lt {basis : List Nat} {n : Nat} (h : ∀ e ∈ basis, e < 2 ^ n) (i : Nat) :
    combine basis i < 2 ^ n := by
  induction basis generalizing i with
  | nil => exact Nat.two_pow_pos n
  | cons e es ih =>
      rw [combine]
      apply Nat.xor_lt_two_pow _ (ih (fun x hx => h x (List.mem_cons_of_mem _ hx)) _)
      split
      · exact h e List.mem_cons_self
      · exact Nat.two_pow_pos n

/-- A table is linear where a few of its words make up the others. -/
theorem Proper.of_combine {basis : List Nat}
    (htab : tab = (List.range (2 ^ 8)).map (combine basis)) (hlt : ∀ e ∈ basis, e < 2 ^ 32)
    (hhigh : ∀ i < 2 ^ 8, combine basis i < 2 ^ 24 → i = 0) : Proper tab := by
  have hget : ∀ i < 2 ^ 8, tab.getD i 0 = combine basis i := by
    intro i hi
    rw [htab, List.getD_eq_getElem _ _ (by simpa using hi), List.getElem_map, List.getElem_range]
  exact
    { xor := fun i hi j hj => by
        rw [hget i hi, hget j hj, hget _ (Nat.xor_lt_two_pow hi hj), combine_xor]
      lt := fun i hi => by
        rw [hget i hi]
        exact combine_lt hlt i
      high := fun i hi => by
        rw [hget i hi]
        exact hhigh i hi }

theorem Proper.zero (h : Proper tab) : tab.getD 0 0 = 0 := by
  have hxor := h.xor 0 (by decide) 0 (by decide)
  rwa [Nat.xor_self, Nat.xor_self] at hxor

theorem run_append (s : Nat) : run tab s (xs ++ ys) = run tab (run tab s xs) ys :=
  List.foldl_append

/-! ## Linearity -/

theorem step_xor (h : Proper tab) :
    step tab (s ^^^ t) (b ^^^ c) = step tab s b ^^^ step tab t c := by
  have hindex : (s ^^^ t) ^^^ (b ^^^ c).toNat = (s ^^^ b.toNat) ^^^ (t ^^^ c.toNat) := by
    rw [UInt8.toNat_xor]
    ac_rfl
  unfold step
  rw [hindex, Nat.xor_mod_two_pow, h.xor _ (Nat.mod_lt _ (by decide)) _ (Nat.mod_lt _ (by decide)),
    Nat.shiftRight_xor_distrib]
  ac_rfl

theorem run_xor (h : Proper tab) (hlen : xs.length = ys.length) :
    run tab (s ^^^ t) (diff xs ys) = run tab s xs ^^^ run tab t ys := by
  induction xs generalizing ys s t with
  | nil =>
      obtain rfl := List.eq_nil_of_length_eq_zero hlen.symm
      rfl
  | cons x xs ih =>
      cases ys with
      | nil => exact absurd hlen (Nat.succ_ne_zero _)
      | cons y ys =>
          have hstep := @ih (step tab s x) (step tab t y) ys (Nat.succ.inj hlen)
          rw [← step_xor h] at hstep
          exact hstep

/-- Two strings leave the same register where their difference leaves none. -/
theorem run_eq_iff (h : Proper tab) (hlen : xs.length = ys.length) :
    run tab s xs = run tab s ys ↔ run tab 0 (diff xs ys) = 0 := by
  have hxor := @run_xor tab s s xs ys h hlen
  rw [Nat.xor_self] at hxor
  rw [hxor, Nat.xor_eq_zero_iff]

/-! ## Zeros -/

theorem diff_self (xs : List UInt8) : diff xs xs = List.replicate xs.length 0 := by
  rw [diff, List.zipWith_self, List.eq_replicate_iff]
  refine ⟨List.length_map .., fun b hb => ?_⟩
  obtain ⟨x, -, rfl⟩ := List.mem_map.mp hb
  exact UInt8.xor_self

theorem diff_append {xs' ys' : List UInt8} (hlen : xs.length = ys.length) :
    diff (xs ++ xs') (ys ++ ys') = diff xs ys ++ diff xs' ys' :=
  List.zipWith_append hlen

/-- The register keeps the width of the table's words. -/
theorem step_lt {n : Nat} (h : ∀ i < 2 ^ 8, tab.getD i 0 < 2 ^ n) (hs : s < 2 ^ n) :
    step tab s b < 2 ^ n := by
  apply Nat.xor_lt_two_pow
  · exact h _ (Nat.mod_lt _ (by decide))
  · exact Nat.lt_of_le_of_lt (Nat.shiftRight_le s 8) hs

theorem run_lt {n : Nat} (h : ∀ i < 2 ^ 8, tab.getD i 0 < 2 ^ n) (hs : s < 2 ^ n)
    (xs : List UInt8) : run tab s xs < 2 ^ n := by
  induction xs generalizing s with
  | nil => exact hs
  | cons b bs ih => exact ih (step_lt h hs)

/-- The register before a byte, from a register with a clear high byte behind it. -/
theorem step_eq_iff (h : Proper tab) (hs : s < 2 ^ 32) (ht : t < 2 ^ 24) :
    step tab s b = t ↔ s = b.toNat + 2 ^ 8 * t := by
  have hb := b.toNat_lt
  have hlow : (s ^^^ b.toNat) % 2 ^ 8 = s % 2 ^ 8 ^^^ b.toNat := by
    rw [Nat.xor_mod_two_pow, Nat.mod_eq_of_lt hb]
  have hshift : s >>> 8 = s / 2 ^ 8 := Nat.shiftRight_eq_div_pow s 8
  constructor
  · intro heq
    -- The entry has a clear high byte, so it is the first.
    have hentry : tab.getD ((s ^^^ b.toNat) % 2 ^ 8) 0 < 2 ^ 24 := by
      have hxor : tab.getD ((s ^^^ b.toNat) % 2 ^ 8) 0 = t ^^^ (s >>> 8) := by
        rw [← heq, step, Nat.xor_assoc, Nat.xor_self, Nat.xor_zero]
      rw [hxor]
      apply Nat.xor_lt_two_pow ht
      omega
    have hindex := h.high _ (Nat.mod_lt _ (by decide)) hentry
    rw [step, hindex, h.zero, Nat.zero_xor] at heq
    rw [hlow, Nat.xor_eq_zero_iff] at hindex
    omega
  · intro heq
    have hindex : (s ^^^ b.toNat) % 2 ^ 8 = 0 := by
      rw [hlow, Nat.xor_eq_zero_iff]
      omega
    rw [step, hindex, h.zero, Nat.zero_xor]
    omega

theorem run_zeros (h : Proper tab) (hs : s < 2 ^ 32) (n : Nat) :
    run tab s (List.replicate n 0) = 0 ↔ s = 0 := by
  induction n generalizing s with
  | zero => exact Iff.rfl
  | succ n ih =>
      rw [List.replicate_succ]
      change run tab (step tab s 0) (List.replicate n 0) = 0 ↔ _
      rw [ih (step_lt h.lt hs), step_eq_iff h hs (by decide)]
      exact Iff.rfl

/-! ## Short differences -/

/-- The string as a little-endian number. -/
def word : List UInt8 → Nat
  | [] => 0
  | b :: bs => b.toNat + 2 ^ 8 * word bs

theorem word_lt (xs : List UInt8) : word xs < 2 ^ (8 * xs.length) := by
  induction xs with
  | nil => decide
  | cons b bs ih =>
      have hb := b.toNat_lt
      rw [word, List.length_cons, Nat.mul_succ, Nat.pow_add]
      omega

theorem word_eq_zero (h : word xs = 0) : xs = List.replicate xs.length 0 := by
  induction xs with
  | nil => rfl
  | cons b bs ih =>
      rw [word] at h
      have hb : b = 0 := UInt8.toNat_inj.mp (by
        change b.toNat = 0
        omega)
      rw [List.length_cons, List.replicate_succ, hb, ← ih (by omega)]

/-- Up to four bytes clear the register that they spell, and no other. -/
theorem run_eq_zero_iff (h : Proper tab) (hs : s < 2 ^ 32) (hlen : xs.length ≤ 4) :
    run tab s xs = 0 ↔ s = word xs := by
  induction xs generalizing s with
  | nil => exact Iff.rfl
  | cons b bs ih =>
      rw [List.length_cons] at hlen
      have hword : word bs < 2 ^ 24 :=
        Nat.lt_of_lt_of_le (word_lt bs) (Nat.pow_le_pow_right (by decide) (by omega))
      change run tab (step tab s b) bs = 0 ↔ _
      rw [ih (step_lt h.lt hs) (by omega), step_eq_iff h hs hword, word]

theorem diff_eq_zeros (hlen : xs.length = ys.length)
    (h : diff xs ys = List.replicate xs.length 0) : xs = ys := by
  induction xs generalizing ys with
  | nil => exact (List.eq_nil_of_length_eq_zero hlen.symm).symm
  | cons x xs ih =>
      cases ys with
      | nil => exact absurd hlen (Nat.succ_ne_zero _)
      | cons y ys =>
          rw [List.length_cons, List.replicate_succ] at h
          obtain ⟨hhead, htail⟩ := List.cons.inj h
          rw [UInt8.xor_eq_zero_iff.mp hhead, ih (Nat.succ.inj hlen) htail]

/-- Up to four bytes are told apart by the register. -/
theorem run_diff_eq_zero (h : Proper tab) (hlen : xs.length = ys.length) (h4 : xs.length ≤ 4) :
    run tab 0 (diff xs ys) = 0 ↔ xs = ys := by
  have hdiff : (diff xs ys).length = xs.length := by
    rw [diff, List.length_zipWith, ← hlen, Nat.min_self]
  rw [run_eq_zero_iff h (by decide) (by omega)]
  constructor
  · intro hword
    have hzeros := word_eq_zero hword.symm
    rw [hdiff] at hzeros
    exact diff_eq_zeros hlen hzeros
  · rintro rfl
    rw [diff_self]
    exact ((run_eq_zero_iff h (by decide) (by simpa using h4)).mp
      ((run_zeros h (by decide) _).mpr rfl))

theorem run_inj (h : Proper tab) (hlen : xs.length = ys.length) (h4 : xs.length ≤ 4) :
    run tab 0 xs = run tab 0 ys ↔ xs = ys :=
  (run_eq_iff h hlen).trans (run_diff_eq_zero h hlen h4)

/-- A store is seen where the bytes that it replaces differ from it. -/
theorem run_diff_splice {bs : List UInt8} {p : Nat} (h : Proper tab)
    (hp : p + xs.length ≤ bs.length) :
    run tab 0 (diff bs (LeBytes.splice bs p xs)) = 0 ↔
      run tab 0 (diff (LeBytes.slice bs p xs.length) xs) = 0 := by
  have hmid : (LeBytes.slice bs p xs.length).length = xs.length := LeBytes.length_slice hp
  have hbs : bs = bs.take p ++ LeBytes.slice bs p xs.length ++ bs.drop (p + xs.length) := by
    have hsplice := LeBytes.splice_slice bs hp
    rw [LeBytes.splice, hmid] at hsplice
    exact hsplice.symm
  have hdiff : diff bs (LeBytes.splice bs p xs) =
      List.replicate (bs.take p).length 0 ++ diff (LeBytes.slice bs p xs.length) xs ++
        List.replicate (bs.drop (p + xs.length)).length 0 := by
    conv => lhs; lhs; rw [hbs]
    rw [LeBytes.splice, diff_append (by simp [hmid]), diff_append rfl, diff_self, diff_self]
  rw [hdiff, run_append, run_append, (run_zeros h (by decide) _).mpr rfl,
    run_zeros h (run_lt h.lt (by decide) _)]

/-- A store of up to four bytes that the register does not see changes nothing. -/
theorem run_diff_splice_short {bs : List UInt8} {p : Nat} (h : Proper tab)
    (hp : p + xs.length ≤ bs.length) (hlen : xs.length ≤ 4) :
    run tab 0 (diff bs (LeBytes.splice bs p xs)) = 0 ↔ LeBytes.splice bs p xs = bs := by
  have hmid : (LeBytes.slice bs p xs.length).length = xs.length := LeBytes.length_slice hp
  rw [run_diff_splice h hp, run_diff_eq_zero h hmid (hmid.trans_le hlen)]
  constructor
  · intro hsame
    conv => lhs; rw [← hsame]
    exact LeBytes.splice_slice bs hp
  · intro hsame
    rw [← hsame]
    exact LeBytes.slice_splice_self hp

theorem word_leBytes (n v : Nat) : word (LeBytes.leBytes n v) = v % 256 ^ n := by
  induction n generalizing v with
  | zero => rw [LeBytes.leBytes, word, Nat.pow_zero, Nat.mod_one]
  | succ n ih =>
      rw [LeBytes.leBytes, word, ih, UInt8.toNat_ofNat']
      exact (Nat.mod_mul (x := v) (a := 256) (b := 256 ^ n)).symm.trans (by rw [Nat.pow_succ'])

theorem leBytes_inj {n a b : Nat} :
    LeBytes.leBytes n a = LeBytes.leBytes n b ↔ a % 256 ^ n = b % 256 ^ n := by
  constructor
  · intro heq
    rw [← word_leBytes, heq, word_leBytes]
  · intro heq
    rw [← LeBytes.leBytes_mod, heq, LeBytes.leBytes_mod]

/-- The difference of two numbers in their bytes. -/
theorem diff_leBytes (n a b : Nat) :
    diff (LeBytes.leBytes n a) (LeBytes.leBytes n b) = LeBytes.leBytes n (a ^^^ b) := by
  induction n generalizing a b with
  | zero => rfl
  | succ n ih =>
      have hhead : UInt8.ofNat (a ^^^ b) = UInt8.ofNat a ^^^ UInt8.ofNat b := by
        apply UInt8.toNat_inj.mp
        rw [UInt8.toNat_xor, UInt8.toNat_ofNat', UInt8.toNat_ofNat', UInt8.toNat_ofNat',
          Nat.xor_mod_two_pow]
      rw [LeBytes.leBytes, LeBytes.leBytes, LeBytes.leBytes, hhead,
        Nat.xor_div_two_pow (n := 8)]
      exact congrArg _ (ih (a / 256) (b / 256))

/-! ## One bit at a time -/

section Bitwise

variable {poly : Nat}

/-- One step of the reflected register: the low bit leaves, and takes the polynomial in. -/
def bitStep (poly s : Nat) : Nat := if s % 2 = 1 then s / 2 ^^^ poly else s / 2

def bits (poly : Nat) : Nat → Nat → Nat
  | 0, s => s
  | n + 1, s => bits poly n (bitStep poly s)

/-- Eight steps for each byte. -/
def bitwise (poly s : Nat) (xs : List UInt8) : Nat :=
  xs.foldl (fun s b => bits poly 8 (s ^^^ b.toNat)) s

theorem bitStep_xor (s t : Nat) : bitStep poly (s ^^^ t) = bitStep poly s ^^^ bitStep poly t := by
  have hcancel : (s / 2 ^^^ poly) ^^^ (t / 2 ^^^ poly) = s / 2 ^^^ t / 2 := by
    rw [show (s / 2 ^^^ poly) ^^^ (t / 2 ^^^ poly) = s / 2 ^^^ t / 2 ^^^ (poly ^^^ poly) by ac_rfl,
      Nat.xor_self, Nat.xor_zero]
  unfold bitStep
  simp only [Nat.xor_mod_two_eq_one, Nat.xor_div_two]
  by_cases hs : s % 2 = 1 <;> by_cases ht : t % 2 = 1
  · simp [hs, ht, hcancel]
  · simp [hs, ht]
    ac_rfl
  · simp [hs, ht]
    ac_rfl
  · simp [hs, ht]

theorem bits_xor (n s t : Nat) : bits poly n (s ^^^ t) = bits poly n s ^^^ bits poly n t := by
  induction n generalizing s t with
  | zero => rfl
  | succ n ih => rw [bits, bits, bits, bitStep_xor, ih]

/-- Clear low bits only move down. -/
theorem bits_high (n q : Nat) : bits poly n (2 ^ n * q) = q := by
  induction n with
  | zero => rw [bits, Nat.pow_zero, Nat.one_mul]
  | succ n ih =>
      have heven : 2 ^ (n + 1) * q = 2 * (2 ^ n * q) := by rw [Nat.pow_succ]; ac_rfl
      rw [bits, bitStep, heven, if_neg (by omega), Nat.mul_div_cancel_left _ (by decide), ih]

/-- The low byte of a register and the rest of it. -/
theorem bits_eight (x : Nat) : bits poly 8 x = bits poly 8 (x % 2 ^ 8) ^^^ x >>> 8 := by
  have hsplit : x = (x % 2 ^ 8) ^^^ (2 ^ 8 * (x / 2 ^ 8)) := by
    apply Nat.eq_of_testBit_eq
    intro i
    rw [Nat.testBit_xor, Nat.testBit_mod_two_pow, Nat.testBit_two_pow_mul, Nat.testBit_div_two_pow]
    by_cases hi : i < 8
    · simp [hi, Nat.not_le.mpr hi]
    · simp [hi, Nat.le_of_not_lt hi]
  have hbits := congrArg (bits poly 8) hsplit
  rw [bits_xor, bits_high] at hbits
  rw [hbits, Nat.shiftRight_eq_div_pow]

/-- A table of eight steps of every byte runs as the register does bit by bit. -/
theorem run_eq_bitwise (htab : tab = (List.range (2 ^ 8)).map (bits poly 8)) (s : Nat)
    (xs : List UInt8) : run tab s xs = bitwise poly s xs := by
  have hget : ∀ i < 2 ^ 8, tab.getD i 0 = bits poly 8 i := by
    intro i hi
    rw [htab, List.getD_eq_getElem _ _ (by simpa using hi), List.getElem_map, List.getElem_range]
  have hstep : ∀ (s : Nat) (b : UInt8), step tab s b = bits poly 8 (s ^^^ b.toNat) := by
    intro s b
    have hbyte : b.toNat >>> 8 = 0 := by
      rw [Nat.shiftRight_eq_div_pow]
      exact Nat.div_eq_of_lt b.toNat_lt
    rw [step, hget _ (Nat.mod_lt _ (by decide)), bits_eight (s ^^^ b.toNat),
      Nat.shiftRight_xor_distrib, hbyte, Nat.xor_zero]
  induction xs generalizing s with
  | nil => rfl
  | cons b xs ih =>
      rw [run, List.foldl_cons, hstep]
      exact ih _

end Bitwise

end TableCrc
