/-
  RustExt4.Lib.LeBytes

  Little-endian words and slices inside a byte list: reads, in-place writes,
  and the frame rules that say which reads a write leaves alone.  Every reader
  depends only on the bytes of its own window (`SameOn`), so a frame rule for a
  new reader is one congruence lemma.

  Reads past the end give 0 and writes past the end do nothing; the round-trip
  rules ask that the window lies inside the list.
-/
import Mathlib.Data.List.GetD
import Mathlib.Tactic.Common
import Mathlib.Tactic.Ring

namespace LeBytes

/-- The byte at `p`. -/
def byteAt (b : List UInt8) (p : Nat) : Nat := (b.getD p 0).toNat

/-- The little-endian word of `n` bytes at `p`. -/
def readLe (b : List UInt8) (p : Nat) : Nat → Nat
  | 0 => 0
  | n + 1 => byteAt b p + 256 * readLe b (p + 1) n

/-- Write the low `n` bytes of `v` at `p`. -/
def writeLe (b : List UInt8) (p : Nat) : Nat → Nat → List UInt8
  | 0, _ => b
  | n + 1, v => writeLe (b.set p (UInt8.ofNat v)) (p + 1) n (v / 256)

/-- The low `n` bytes of `v`. -/
def leBytes : Nat → Nat → List UInt8
  | 0, _ => []
  | n + 1, v => UInt8.ofNat v :: leBytes n (v / 256)

/-- The `n` bytes from `p` on. -/
def slice (b : List UInt8) (p n : Nat) : List UInt8 := (b.drop p).take n

/-- Copy `xs` over the bytes from `p` on. -/
def splice (b : List UInt8) (p : Nat) (xs : List UInt8) : List UInt8 :=
  b.take p ++ xs ++ b.drop (p + xs.length)

/-- The `n` bytes from `p` on in `b` are those from `q` on in `b'`. -/
def Moved (b : List UInt8) (p : Nat) (b' : List UInt8) (q n : Nat) : Prop :=
  ∀ k < n, b.getD (p + k) 0 = b'.getD (q + k) 0

/-- The two lists hold the same bytes in `[lo, hi)`. -/
def SameOn (b b' : List UInt8) (lo hi : Nat) : Prop :=
  ∀ q, lo ≤ q → q < hi → b.getD q 0 = b'.getD q 0

/-! ## Windows -/

theorem SameOn.refl (b : List UInt8) (lo hi : Nat) : SameOn b b lo hi := fun _ _ _ => rfl

theorem SameOn.symm {b b' : List UInt8} {lo hi : Nat} (h : SameOn b b' lo hi) :
    SameOn b' b lo hi := fun q h1 h2 => (h q h1 h2).symm

theorem SameOn.trans {b b' b'' : List UInt8} {lo hi : Nat} (h : SameOn b b' lo hi)
    (h' : SameOn b' b'' lo hi) : SameOn b b'' lo hi :=
  fun q h1 h2 => (h q h1 h2).trans (h' q h1 h2)

theorem SameOn.mono {b b' : List UInt8} {lo hi lo' hi' : Nat} (h : SameOn b b' lo hi)
    (hlo : lo ≤ lo') (hhi : hi' ≤ hi) : SameOn b b' lo' hi' :=
  fun q h1 h2 => h q (by omega) (by omega)

theorem byteAt_congr {b b' : List UInt8} {p : Nat} (h : SameOn b b' p (p + 1)) :
    byteAt b p = byteAt b' p := by
  unfold byteAt
  rw [h p (Nat.le_refl p) (Nat.lt_succ_self p)]

theorem readLe_congr {b b' : List UInt8} {p n : Nat} (h : SameOn b b' p (p + n)) :
    readLe b p n = readLe b' p n := by
  induction n generalizing p with
  | zero => rfl
  | succ n ih =>
      simp only [readLe]
      rw [byteAt_congr (h.mono (Nat.le_refl p) (by omega)), ih (h.mono (by omega) (by omega))]

theorem length_slice {b : List UInt8} {p n : Nat} (h : p + n ≤ b.length) :
    (slice b p n).length = n := by
  simp only [slice, List.length_take, List.length_drop]
  omega

theorem slice_congr {b b' : List UInt8} {p n : Nat} (h : SameOn b b' p (p + n))
    (hb : p + n ≤ b.length) (hb' : p + n ≤ b'.length) : slice b p n = slice b' p n := by
  refine List.ext_getElem (by rw [length_slice hb, length_slice hb']) ?_
  intro i h1 h2
  have hi : i < n := by rw [length_slice hb] at h1; exact h1
  have hq := h (p + i) (by omega) (by omega)
  rw [List.getD_eq_getElem _ _ (by omega), List.getD_eq_getElem _ _ (by omega)] at hq
  simpa [slice] using hq

/-! ## Bounds -/

theorem byteAt_lt (b : List UInt8) (p : Nat) : byteAt b p < 256 := (b.getD p 0).toNat_lt

theorem readLe_lt (b : List UInt8) (p n : Nat) : readLe b p n < 256 ^ n := by
  induction n generalizing p with
  | zero => simp [readLe]
  | succ n ih =>
      have h1 := byteAt_lt b p
      have h2 := ih (p + 1)
      rw [readLe, Nat.pow_succ]
      omega

/-- A word is its low part and its high part. -/
theorem readLe_add (b : List UInt8) (p m n : Nat) :
    readLe b p (m + n) = readLe b p m + 256 ^ m * readLe b (p + m) n := by
  induction m generalizing p with
  | zero => simp [readLe]
  | succ m ih =>
      rw [show m + 1 + n = m + n + 1 by omega, readLe, readLe, ih (p + 1),
        show p + 1 + m = p + (m + 1) by omega, Nat.pow_succ]
      ring

/-! ## Word writes -/

@[simp] theorem length_writeLe (b : List UInt8) (p n v : Nat) :
    (writeLe b p n v).length = b.length := by
  induction n generalizing b p v with
  | zero => rfl
  | succ n ih => rw [writeLe, ih, List.length_set]

theorem getD_set_ne {b : List UInt8} {p q : Nat} {v : UInt8} (h : p ≠ q) :
    (b.set p v).getD q 0 = b.getD q 0 := by
  simp only [List.getD_eq_getElem?_getD, List.getElem?_set_ne h]

/-- A write leaves the bytes outside its window alone. -/
theorem writeLe_getD {b : List UInt8} {p n v q : Nat} (h : q < p ∨ p + n ≤ q) :
    (writeLe b p n v).getD q 0 = b.getD q 0 := by
  induction n generalizing b p v with
  | zero => rfl
  | succ n ih =>
      rw [writeLe, ih (by omega), getD_set_ne (by omega)]

theorem writeLe_sameOn {b : List UInt8} {p n v lo hi : Nat} (h : hi ≤ p ∨ p + n ≤ lo) :
    SameOn (writeLe b p n v) b lo hi :=
  fun _ h1 h2 => writeLe_getD (by omega)

theorem byteAt_set_self {b : List UInt8} {p : Nat} (v : Nat) (h : p < b.length) :
    byteAt (b.set p (UInt8.ofNat v)) p = v % 256 := by
  unfold byteAt
  rw [List.getD_eq_getElem _ _ (by simpa using h), List.getElem_set_self]
  simp

/-- A write is read back. -/
theorem readLe_writeLe_self {b : List UInt8} {p n v : Nat} (h : p + n ≤ b.length) :
    readLe (writeLe b p n v) p n = v % 256 ^ n := by
  induction n generalizing b p v with
  | zero => simp [readLe, Nat.mod_one]
  | succ n ih =>
      have hhead : byteAt (writeLe b p (n + 1) v) p = v % 256 := by
        unfold byteAt
        rw [writeLe, writeLe_getD (Or.inl (Nat.lt_succ_self p))]
        exact byteAt_set_self v (by omega)
      rw [readLe, hhead, writeLe, ih (by rw [List.length_set]; omega), Nat.pow_succ,
        Nat.mul_comm (256 ^ n) 256, Nat.mod_mul]

/-! ## Moved bytes -/

section Moved

variable {b b' b'' : List UInt8} {p q r m n : Nat}

theorem SameOn.moved (h : SameOn b b' p (p + n)) : Moved b p b' p n :=
  fun k hk => h (p + k) (by omega) (by omega)

theorem Moved.trans (h : Moved b p b' q n) (h' : Moved b' q b'' r n) : Moved b p b'' r n :=
  fun k hk => (h k hk).trans (h' k hk)

/-- A window of moved bytes has moved too. -/
theorem Moved.window (h : Moved b p b' q n) {i : Nat} (him : i + m ≤ n) :
    Moved b (p + i) b' (q + i) m := by
  intro k hk
  rw [Nat.add_assoc, Nat.add_assoc]
  exact h (i + k) (by omega)

theorem Moved.append (h1 : Moved b p b' q m) (h2 : Moved b (p + m) b' (q + m) n) :
    Moved b p b' q (m + n) := by
  intro k hk
  by_cases hkm : k < m
  · exact h1 k hkm
  · have h := h2 (k - m) (by omega)
    rwa [show p + m + (k - m) = p + k by omega, show q + m + (k - m) = q + k by omega] at h

theorem readLe_moved (h : Moved b p b' q n) : readLe b p n = readLe b' q n := by
  induction n generalizing p q with
  | zero => rfl
  | succ n ih =>
      have hhead : byteAt b p = byteAt b' q := congrArg UInt8.toNat (h 0 (Nat.succ_pos n))
      have htail : Moved b (p + 1) b' (q + 1) n := h.window (Nat.le_of_eq (Nat.add_comm 1 n))
      rw [readLe, readLe, hhead, ih htail]

/-- A word that is read at one place and written at another has moved. -/
theorem moved_writeLe (h : p + n ≤ b.length) : Moved (writeLe b p n (readLe b' q n)) p b' q n := by
  induction n generalizing b p q with
  | zero => exact fun k hk => absurd hk (Nat.not_lt_zero k)
  | succ n ih =>
      have hbyte : UInt8.ofNat (readLe b' q (n + 1)) = b'.getD q 0 := by
        apply UInt8.toNat_inj.mp
        rw [UInt8.toNat_ofNat', readLe]
        have hlt := byteAt_lt b' q
        unfold byteAt at hlt ⊢
        omega
      have hrest : readLe b' q (n + 1) / 256 = readLe b' (q + 1) n := by
        have hlt := byteAt_lt b' q
        rw [readLe]
        omega
      intro k hk
      rw [writeLe, hbyte, hrest]
      cases k with
      | zero =>
          show (writeLe _ _ _ _).getD p 0 = b'.getD q 0
          rw [writeLe_getD (Or.inl (Nat.lt_succ_self p)),
            List.getD_eq_getElem _ _ (by rw [List.length_set]; omega), List.getElem_set_self]
      | succ k =>
          have hk' := ih (b := b.set p (b'.getD q 0)) (p := p + 1) (q := q + 1)
            (by rw [List.length_set]; omega) k (by omega)
          rwa [show p + 1 + k = p + (k + 1) by omega, show q + 1 + k = q + (k + 1) by omega] at hk'

/-- Bytes read the same inside a longer list. -/
theorem moved_append (pre b post : List UInt8) :
    Moved (pre ++ b ++ post) pre.length b 0 b.length := by
  intro k hk
  rw [List.append_assoc, List.getD_append_right _ _ _ _ (Nat.le_add_right ..),
    Nat.add_sub_cancel_left, List.getD_append _ _ _ _ hk, Nat.zero_add]

theorem slice_append (pre post : List UInt8) (h : p + n ≤ b.length) :
    slice (pre ++ b ++ post) (pre.length + p) n = slice b p n := by
  have hend : (b.drop p ++ post).take n = (b.drop p).take n :=
    List.take_append_of_le_length (by rw [List.length_drop]; omega)
  rw [slice, List.append_assoc, List.drop_append, List.drop_eq_nil_of_le (by omega),
    Nat.add_sub_cancel_left, List.nil_append, List.drop_append_of_le_length (by omega), hend, slice]

end Moved

/-! ## Slice writes -/

theorem length_splice {b : List UInt8} {p : Nat} {xs : List UInt8}
    (h : p + xs.length ≤ b.length) : (splice b p xs).length = b.length := by
  simp only [splice, List.length_append, List.length_take, List.length_drop]
  omega

theorem splice_getD {b : List UInt8} {p q : Nat} {xs : List UInt8}
    (h : p + xs.length ≤ b.length) (hq : q < p ∨ p + xs.length ≤ q) :
    (splice b p xs).getD q 0 = b.getD q 0 := by
  have htake : (b.take p).length = p := by rw [List.length_take]; omega
  simp only [List.getD_eq_getElem?_getD, splice]
  congr 1
  rcases hq with hq | hq
  · rw [List.append_assoc, List.getElem?_append_left (by omega), List.getElem?_take_of_lt hq]
  · rw [List.getElem?_append_right (by rw [List.length_append]; omega), List.getElem?_drop,
      List.length_append, htake]
    congr 1
    omega

theorem splice_sameOn {b : List UInt8} {p lo hi : Nat} {xs : List UInt8}
    (h : p + xs.length ≤ b.length) (hw : hi ≤ p ∨ p + xs.length ≤ lo) :
    SameOn (splice b p xs) b lo hi :=
  fun _ h1 h2 => splice_getD h (by omega)

/-- A slice write is read back. -/
theorem slice_splice_self {b : List UInt8} {p : Nat} {xs : List UInt8}
    (h : p + xs.length ≤ b.length) : slice (splice b p xs) p xs.length = xs := by
  have htake : (b.take p).length = p := by rw [List.length_take]; omega
  unfold slice splice
  rw [List.append_assoc, List.drop_append_of_le_length (by omega),
    List.drop_of_length_le (by omega), List.nil_append,
    List.take_append_of_le_length (Nat.le_refl _), List.take_length]

@[simp] theorem length_leBytes (n v : Nat) : (leBytes n v).length = n := by
  induction n generalizing v with
  | zero => rfl
  | succ n ih => rw [leBytes, List.length_cons, ih]

theorem splice_nil {b : List UInt8} {p : Nat} : splice b p [] = b := by
  rw [splice, List.append_nil]
  exact List.take_append_drop p b

/-- A slice is written byte by byte. -/
theorem splice_cons {b : List UInt8} {p : Nat} {x : UInt8} {xs : List UInt8} (h : p < b.length) :
    splice b p (x :: xs) = splice (b.set p x) (p + 1) xs := by
  have hlen : (b.take p).length = p := by rw [List.length_take]; omega
  have htake : (b.set p x).take (p + 1) = b.take p ++ [x] := by
    rw [List.set_eq_take_append_cons_drop, if_pos h, List.take_append, hlen,
      List.take_of_length_le (by omega), Nat.add_sub_cancel_left]
    rfl
  rw [splice, splice, htake, List.drop_set_of_lt (by omega), List.length_cons,
    show p + (xs.length + 1) = p + 1 + xs.length by omega]
  simp

theorem splice_append {b : List UInt8} {p : Nat} {xs ys : List UInt8}
    (h : p + xs.length ≤ b.length) :
    splice b p (xs ++ ys) = splice (splice b p xs) (p + xs.length) ys := by
  induction xs generalizing b p with
  | nil => rw [splice_nil, List.nil_append, List.length_nil, Nat.add_zero]
  | cons x xs ih =>
      rw [List.length_cons] at h
      rw [List.cons_append, splice_cons (by omega), ih (by rw [List.length_set]; omega),
        splice_cons (by omega), List.length_cons,
        show p + (xs.length + 1) = p + 1 + xs.length by omega]

/-- A word is written as the slice of its bytes. -/
theorem writeLe_eq_splice {b : List UInt8} {p n v : Nat} (h : p + n ≤ b.length) :
    writeLe b p n v = splice b p (leBytes n v) := by
  induction n generalizing b p v with
  | zero => exact splice_nil.symm
  | succ n ih =>
      rw [writeLe, ih (by rw [List.length_set]; omega), leBytes, splice_cons (by omega)]

theorem leBytes_mod (n v : Nat) : leBytes n (v % 256 ^ n) = leBytes n v := by
  induction n generalizing v with
  | zero => rfl
  | succ n ih =>
      have hlow : v % 256 ^ (n + 1) % 256 = v % 256 :=
        Nat.mod_mod_of_dvd v (Dvd.intro_left (256 ^ n) rfl)
      have hhigh : v % 256 ^ (n + 1) / 256 = v / 256 % 256 ^ n := by
        rw [Nat.pow_succ, Nat.mul_comm, Nat.mod_mul_right_div_self]
      have hbyte : UInt8.ofNat (v % 256 ^ (n + 1)) = UInt8.ofNat v :=
        UInt8.toNat_inj.mp (by simp)
      rw [leBytes, leBytes, hbyte, hhigh, ih]

/-- The bytes of a word that is read are those it was read from. -/
theorem leBytes_readLe {b : List UInt8} {p n : Nat} (h : p + n ≤ b.length) :
    leBytes n (readLe b p n) = slice b p n := by
  induction n generalizing p with
  | zero => rfl
  | succ n ih =>
      have hlt := byteAt_lt b p
      have hdrop : b.drop p = b.getD p 0 :: b.drop (p + 1) := by
        rw [List.getD_eq_getElem _ _ (by omega), List.drop_eq_getElem_cons (by omega)]
      have hbyte : UInt8.ofNat (readLe b p (n + 1)) = b.getD p 0 := by
        apply UInt8.toNat_inj.mp
        rw [readLe, UInt8.toNat_ofNat']
        unfold byteAt at hlt ⊢
        omega
      have hrest : readLe b p (n + 1) / 256 = readLe b (p + 1) n := by
        rw [readLe]
        omega
      rw [leBytes, hbyte, hrest, ih (by omega), slice, slice, hdrop, List.take_succ_cons]

theorem slice_add (b : List UInt8) (p m n : Nat) :
    slice b p (m + n) = slice b p m ++ slice b (p + m) n := by
  rw [slice, List.take_add, List.drop_drop]
  rfl

theorem splice_slice (b : List UInt8) {p n : Nat} (h : p + n ≤ b.length) :
    splice b p (slice b p n) = b := by
  rw [splice, length_slice h, slice, List.append_assoc, ← List.drop_drop, List.take_append_drop,
    List.take_append_drop]

/-- Writing what is there changes nothing. -/
theorem writeLe_readLe {b : List UInt8} {p n : Nat} (h : p + n ≤ b.length) :
    writeLe b p n (readLe b p n) = b := by
  rw [writeLe_eq_splice h, leBytes_readLe h, splice_slice b h]

/-! ## Changes inside of windows -/

/-- `b'` has the length of `b`, and its bytes outside of the windows. -/
structure DiffersIn (ws : List (Nat × Nat)) (b b' : List UInt8) : Prop where
  length : b'.length = b.length
  same : ∀ q, (∀ w ∈ ws, q < w.1 ∨ w.2 ≤ q) → b'.getD q 0 = b.getD q 0

section DiffersIn
variable {ws ws' : List (Nat × Nat)} {b b' b'' : List UInt8} {p lo hi : Nat}

theorem DiffersIn.refl (ws : List (Nat × Nat)) (b : List UInt8) : DiffersIn ws b b :=
  ⟨rfl, fun _ _ => rfl⟩

theorem DiffersIn.mono (h : DiffersIn ws b b') (hsub : ws ⊆ ws') : DiffersIn ws' b b' :=
  ⟨h.length, fun q hq => h.same q fun w hw => hq w (hsub hw)⟩

theorem DiffersIn.trans (h : DiffersIn ws b b') (h' : DiffersIn ws b' b'') :
    DiffersIn ws b b'' :=
  ⟨h'.length.trans h.length, fun q hq => (h'.same q hq).trans (h.same q hq)⟩

theorem DiffersIn.writeLe (n v : Nat) : DiffersIn [(p, p + n)] b (writeLe b p n v) :=
  ⟨length_writeLe .., fun _ hq => writeLe_getD (hq _ List.mem_cons_self)⟩

theorem DiffersIn.splice {xs : List UInt8} (h : p + xs.length ≤ b.length) :
    DiffersIn [(p, p + xs.length)] b (splice b p xs) :=
  ⟨length_splice h, fun _ hq => splice_getD h (hq _ List.mem_cons_self)⟩

/-- A reader outside of the windows sees no change. -/
theorem DiffersIn.sameOn (h : DiffersIn ws b b') (hw : ∀ w ∈ ws, hi ≤ w.1 ∨ w.2 ≤ lo) :
    SameOn b' b lo hi := by
  intro q h1 h2
  apply h.same q
  intro w hmem
  have := hw w hmem
  omega

end DiffersIn

end LeBytes
