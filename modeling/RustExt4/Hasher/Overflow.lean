/-
  RustExt4.Hasher.Overflow

  Both variants of the half MD4 hash, with the additions of `prepare_hash_buf` as a
  build with overflow checks makes them.  The signed variant extends a byte from 0x80 on
  to a word of ones above it, which fits no open word whose low three bytes are not
  zeros: the padding is not, and neither is a word that has just taken such a byte.
-/
import RustExt4.Hasher
import RustExt4.Types

namespace RustExt4.Hasher

/-! ## The checked loop -/

/-- `byte as u32`, or `byte as i8 as i32 as u32` -/
def widen (isUnsigned : Bool) (byte : UInt8) : UInt32 :=
  if isUnsigned then byte.toUInt32 else byte.toInt8.toInt32.toUInt32

/-- `buf_val <<= 8; buf_val += byte`; a sum that is no `u32` panics. -/
def pushByte (bufVal byte : UInt32) : Except Fault UInt32 :=
  if (bufVal <<< 8).toNat + byte.toNat < 2 ^ 32 then .ok (bufVal <<< 8 + byte)
  else .error .panic

/-- `padding` of `prepare_hash_buf` -/
def paddingOf (slen : Nat) : UInt32 :=
  let slen := slen.toUInt32
  slen ||| slen <<< 8 ||| slen <<< 16 ||| slen <<< 24

/-- The loop of `prepare_hash_buf`. -/
def prepareLoopChecked (isUnsigned : Bool) (padding : UInt32) :
    Bytes → Nat → UInt32 → List UInt32 → Except Fault (List UInt32 × UInt32)
  | [], _, bufVal, dst => .ok (dst, bufVal)
  | byte :: bytes, i, bufVal, dst =>
    match pushByte (if i % 4 = 0 then padding else bufVal) (widen isUnsigned byte) with
    | .error e => .error e
    | .ok bufVal =>
      if i % 4 = 3 then
        prepareLoopChecked isUnsigned padding bytes (i + 1) padding (dst ++ [bufVal])
      else prepareLoopChecked isUnsigned padding bytes (i + 1) bufVal dst

/-- `prepare_hash_buf::<8>` -/
def prepareHashBufChecked (isUnsigned : Bool) (bytes : Bytes) : Except Fault (List UInt32) :=
  let padding := paddingOf bytes.length
  match prepareLoopChecked isUnsigned padding (bytes.take 32) 0 padding [] with
  | .error e => .error e
  | .ok (dst, bufVal) =>
    .ok (if dst.length < 8 then dst ++ [bufVal] ++ List.replicate (7 - dst.length) padding
      else dst)

/-- The loop of `do_hash`, with `n` full chunks before the last one. -/
def doHashLoopChecked (isUnsigned : Bool) : Nat → Ext4Hash → Bytes → Except Fault Ext4Hash
  | 0, hash, bytes => (prepareHashBufChecked isUnsigned bytes).map (halfMd4 hash)
  | n + 1, hash, bytes =>
    match prepareHashBufChecked isUnsigned bytes with
    | .error e => .error e
    | .ok data =>
      if bytes.length ≤ 32 then .ok (halfMd4 hash data)
      else doHashLoopChecked isUnsigned n (halfMd4 hash data) (bytes.drop 32)

/-- `do_hash` -/
def doHashChecked (isUnsigned : Bool) (hash : Ext4Hash) (bytes : Bytes) : Except Fault Ext4Hash :=
  doHashLoopChecked isUnsigned (bytes.length / 32) hash bytes

/-! ## The hasher of a directory -/

inductive HashVersion
  | legacy
  | halfMd4
  | tea
  deriving DecidableEq, Repr

/-- `HashVersion::try_from(u8).ok()` -/
def HashVersion.tryFrom : Nat → Option HashVersion
  | 0 => some .legacy
  | 1 => some .halfMd4
  | 2 => some .tea
  | _ => none

/-- `Ext4Hasher`.  Which function `do_hash` is follows from the version and from the
    signedness of the bytes. -/
structure Ext4Hasher where
  hash : Ext4Hash
  version : HashVersion
  isUnsigned : Bool
  deriving DecidableEq, Repr

def HashVersion.getHasher (version : HashVersion) (seed : Ext4Hash) (isUnsigned : Bool) :
    Ext4Hasher where
  hash := seed
  version := version
  isUnsigned := isUnsigned

/-- `write`: the state after the name; the legacy and the TEA hash are `todo!()`. -/
def Ext4Hasher.write (hasher : Ext4Hasher) (bytes : Bytes) : Except Fault Ext4Hash :=
  match hasher.version with
  | .halfMd4 => doHashChecked hasher.isUnsigned hasher.hash bytes
  | .legacy | .tea => .error .panic

/-- `hash_of` -/
def Ext4Hasher.hashOf (hasher : Ext4Hasher) (target : Bytes) : Except Fault Nat :=
  (hasher.write target).map finish

theorem Ext4Hasher.hashOf_eq_ok {hasher : Ext4Hasher} {target : Bytes} {hash : Nat}
    (h : hasher.hashOf target = .ok hash) : ∃ state, hash = finish state := by
  unfold hashOf at h
  cases hwrite : hasher.write target with
  | error e =>
      rw [hwrite] at h
      cases h
  | ok state =>
      rw [hwrite] at h
      cases h
      exact ⟨state, rfl⟩

/-! ## One byte -/

variable {isUnsigned : Bool} {byte : UInt8} {bufVal v padding : UInt32} {bytes : Bytes}

/-- A byte below 0x80 is the same in both variants. -/
theorem widen_eq (h : isUnsigned = true ∨ byte.toNat < 0x80) :
    widen isUnsigned byte = byte.toUInt32 := by
  cases isUnsigned with
  | true => rfl
  | false =>
      have hall : ∀ n < 0x80, widen false (UInt8.ofNat n) = (UInt8.ofNat n).toUInt32 := by
        decide +kernel
      have hbyte := hall byte.toNat (h.resolve_left Bool.false_ne_true)
      rwa [UInt8.ofNat_toNat] at hbyte

/-- From 0x80 on the sign fills the word. -/
theorem widen_high (h : 0x80 ≤ byte.toNat) :
    (widen false byte).toNat = 2 ^ 32 - 2 ^ 8 + byte.toNat := by
  have hall : ∀ n < 0x80,
      (widen false (UInt8.ofNat (0x80 + n))).toNat = 2 ^ 32 - 2 ^ 8 + (0x80 + n) := by
    decide +kernel
  have hlt := byte.toNat_lt
  have hbyte := hall (byte.toNat - 0x80) (by omega)
  rwa [show 0x80 + (byte.toNat - 0x80) = byte.toNat by omega, UInt8.ofNat_toNat] at hbyte

theorem shifted_toNat (x : UInt32) : (x <<< 8).toNat = x.toNat * 2 ^ 8 % 2 ^ 32 := by
  rw [UInt32.toNat_shiftLeft, Nat.shiftLeft_eq]
  rfl

theorem pushByte_toUInt32 (bufVal : UInt32) (byte : UInt8) :
    pushByte bufVal byte.toUInt32 = .ok (bufVal <<< 8 + byte.toUInt32) := by
  have hlt := byte.toNat_lt
  apply if_pos
  rw [shifted_toNat, UInt8.toNat_toUInt32]
  omega

/-- The sum does not fit where one of the three bytes that are kept is not zero. -/
theorem pushByte_high (h : 0x80 ≤ byte.toNat) (hlow : bufVal.toNat % 2 ^ 24 ≠ 0) :
    pushByte bufVal (widen false byte) = .error .panic := by
  apply if_neg
  rw [shifted_toNat, widen_high h]
  omega

/-- The byte is then the lowest of the word. -/
theorem pushByte_low (h : pushByte bufVal (widen false byte) = .ok v) (hhigh : 0x80 ≤ byte.toNat) :
    v.toNat % 2 ^ 24 ≠ 0 := by
  unfold pushByte at h
  rw [shifted_toNat, widen_high hhigh] at h
  have hlt := byte.toNat_lt
  split at h
  next hsum =>
    cases h
    rw [UInt32.toNat_add, shifted_toNat, widen_high hhigh]
    omega
  next => cases h

theorem pushByte_error {e : Fault} {b : UInt32} (h : pushByte bufVal b = .error e) :
    e = .panic := by
  unfold pushByte at h
  split at h
  · cases h
  · cases h
    rfl

/-- The padding of a piece that is not empty starts with the length, whose low three bytes
    are not all zeros. -/
theorem paddingOf_low {slen : Nat} (hpos : 1 ≤ slen) (hlen : slen < 2 ^ 24) :
    (paddingOf slen).toNat % 2 ^ 24 ≠ 0 := by
  intro hzero
  simp only [paddingOf, UInt32.toNat_or, Nat.or_mod_two_pow, Nat.or_eq_zero_iff] at hzero
  have hlow := hzero.1.1.1
  rw [Nat.toUInt32, UInt32.toNat_ofNat'] at hlow
  omega

/-! ## Names without high bytes -/

/-- The loop of `prepare_hash_buf` over bytes that widen to themselves. -/
theorem prepareLoopChecked_eq (h : isUnsigned = true ∨ ∀ b ∈ bytes, b.toNat < 0x80) :
    ∀ i bufVal dst, prepareLoopChecked isUnsigned padding bytes i bufVal dst =
      .ok (prepareLoop padding bytes i bufVal dst) := by
  induction bytes with
  | nil => exact fun _ _ _ => rfl
  | cons byte bytes ih =>
      intro i bufVal dst
      have hbyte : widen isUnsigned byte = byte.toUInt32 :=
        widen_eq (h.imp_right fun hall => hall byte List.mem_cons_self)
      have htail := ih (h.imp_right fun hall b hb => hall b (List.mem_cons_of_mem _ hb))
      rw [prepareLoopChecked, hbyte, pushByte_toUInt32]
      simp only [prepareLoop, htail]
      split <;> rfl

theorem prepareHashBufChecked_eq (h : isUnsigned = true ∨ ∀ b ∈ bytes, b.toNat < 0x80) :
    prepareHashBufChecked isUnsigned bytes = .ok (prepareHashBuf bytes) := by
  have hloop := @prepareLoopChecked_eq isUnsigned (paddingOf bytes.length) (bytes.take 32)
    (h.imp_right fun hall b hb => hall b (List.mem_of_mem_take hb)) 0 (paddingOf bytes.length) []
  simp only [prepareHashBufChecked, hloop]
  rfl

/-- Where no byte is extended, the checked hash is the hash. -/
theorem doHashLoopChecked_eq {n : Nat} {hash : Ext4Hash}
    (h : isUnsigned = true ∨ ∀ b ∈ bytes, b.toNat < 0x80) :
    doHashLoopChecked isUnsigned n hash bytes = .ok (doHashLoop n hash bytes) := by
  induction n generalizing hash bytes with
  | zero =>
      rw [doHashLoopChecked, prepareHashBufChecked_eq h]
      rfl
  | succ n ih =>
      have hrest := @ih (bytes.drop 32) (halfMd4 hash (prepareHashBuf bytes))
        (h.imp_right fun hall b hb => hall b (List.mem_of_mem_drop hb))
      rw [doHashLoopChecked, prepareHashBufChecked_eq h]
      simp only [doHashLoop, hrest]
      split <;> rfl

/-! ## Two high bytes in a row -/

/-- Byte `i` is extended by the signed variant. -/
def HighAt (bytes : Bytes) (i : Nat) : Prop := ∃ b, bytes[i]? = some b ∧ 0x80 ≤ b.toNat

@[simp] theorem highAt_cons_zero : HighAt (byte :: bytes) 0 ↔ 0x80 ≤ byte.toNat := by
  simp [HighAt]

@[simp] theorem highAt_cons_succ {i : Nat} : HighAt (byte :: bytes) (i + 1) ↔ HighAt bytes i := by
  simp [HighAt]

@[simp] theorem highAt_drop {i n : Nat} : HighAt (bytes.drop n) i ↔ HighAt bytes (n + i) := by
  simp [HighAt]

theorem HighAt.take {i n : Nat} (h : HighAt bytes i) (hi : i < n) : HighAt (bytes.take n) i := by
  obtain ⟨b, hb, hhigh⟩ := h
  exact ⟨b, by rw [List.getElem?_take_of_lt hi, hb], hhigh⟩

theorem HighAt.lt {i : Nat} (h : HighAt bytes i) : i < bytes.length := by
  obtain ⟨b, hb, -⟩ := h
  exact (List.getElem?_eq_some_iff.mp hb).1

variable {i j : Nat} {dst : List UInt32}

/-- Neither the padding nor a word after such a byte takes another one. -/
theorem prepareLoopChecked_panic_of_low (hpad : padding.toNat % 2 ^ 24 ≠ 0)
    (hbuf : i % 4 = 0 ∨ bufVal.toNat % 2 ^ 24 ≠ 0) (h : HighAt bytes 0) :
    prepareLoopChecked false padding bytes i bufVal dst = .error .panic := by
  cases bytes with
  | nil => obtain ⟨b, hb, -⟩ := h; cases hb
  | cons byte bytes =>
      have hlow : (if i % 4 = 0 then padding else bufVal).toNat % 2 ^ 24 ≠ 0 := by
        split
        next => exact hpad
        next hi => exact hbuf.resolve_left hi
      rw [prepareLoopChecked, pushByte_high (highAt_cons_zero.mp h) hlow]

/-- The second of two such bytes: it starts a word, or stands in one after the first. -/
theorem prepareLoopChecked_panic (hpad : padding.toNat % 2 ^ 24 ≠ 0)
    (h : HighAt bytes j) (hnext : HighAt bytes (j + 1)) :
    prepareLoopChecked false padding bytes i bufVal dst = .error .panic := by
  induction bytes generalizing i j bufVal dst with
  | nil => obtain ⟨b, hb, -⟩ := h; cases hb
  | cons byte bytes ih =>
      rw [prepareLoopChecked]
      cases hpush : pushByte (if i % 4 = 0 then padding else bufVal) (widen false byte) with
      | error e => rw [pushByte_error hpush]
      | ok v =>
          have hnext := highAt_cons_succ.mp hnext
          cases j with
          | succ j =>
              -- the pair is further on
              simp only [ih (highAt_cons_succ.mp h) hnext, ite_self]
          | zero =>
              have hlow := pushByte_low hpush (highAt_cons_zero.mp h)
              have hopen := @prepareLoopChecked_panic_of_low v padding bytes (i + 1) dst hpad
                (.inr hlow) hnext
              have hstart := fun hi => @prepareLoopChecked_panic_of_low padding padding bytes
                (i + 1) (dst ++ [v]) hpad (.inl hi) hnext
              simp only [hopen]
              split
              next hi => exact hstart (by omega)
              next => rfl

/-- A byte of the name at which one of the pieces does not fit. -/
def Sharp (bytes : Bytes) : Prop :=
  HighAt bytes 0 ∨ ∃ j, HighAt bytes j ∧ HighAt bytes (j + 1)

theorem Sharp.length_pos (h : Sharp bytes) : 1 ≤ bytes.length := by
  obtain h | ⟨j, h, -⟩ := h <;> exact Nat.one_le_of_lt h.lt

theorem prepareHashBufChecked_error {e : Fault}
    (h : prepareHashBufChecked isUnsigned bytes = .error e) : e = .panic := by
  have hloop : ∀ padding bytes i bufVal dst,
      prepareLoopChecked isUnsigned padding bytes i bufVal dst = .error e → e = .panic := by
    intro padding bytes
    induction bytes with
    | nil => exact fun _ _ _ h => by cases h
    | cons byte bytes ih =>
        intro i bufVal dst h
        rw [prepareLoopChecked] at h
        split at h
        next hpush => cases h; exact pushByte_error hpush
        next => split at h <;> exact ih _ _ _ h
  simp only [prepareHashBufChecked] at h
  split at h
  next hrun => cases h; exact hloop _ _ _ _ _ hrun
  next => cases h

theorem doHashLoopChecked_error {e : Fault} {n : Nat} {hash : Ext4Hash}
    (h : doHashLoopChecked isUnsigned n hash bytes = .error e) : e = .panic := by
  induction n generalizing hash bytes with
  | zero =>
      rw [doHashLoopChecked] at h
      cases hrun : prepareHashBufChecked isUnsigned bytes with
      | error e' =>
          rw [hrun] at h
          cases h
          exact prepareHashBufChecked_error hrun
      | ok data =>
          rw [hrun] at h
          cases h
  | succ n ih =>
      rw [doHashLoopChecked] at h
      split at h
      next hrun =>
        cases h
        exact prepareHashBufChecked_error hrun
      next =>
        split at h
        · cases h
        · exact ih h

/-- A name without a hash is a panic. -/
theorem Ext4Hasher.hashOf_error {hasher : Ext4Hasher} {target : Bytes} {e : Fault}
    (h : hasher.hashOf target = .error e) : e = .panic := by
  unfold hashOf at h
  cases hwrite : hasher.write target with
  | ok state =>
      rw [hwrite] at h
      cases h
  | error e' =>
      rw [hwrite] at h
      cases h
      unfold write at hwrite
      split at hwrite
      case h_1 => exact doHashLoopChecked_error hwrite
      all_goals
        cases hwrite
        rfl

/-- The first piece panics, or what follows it is sharp too: its first byte where the pair
    is split between the two. -/
theorem prepareHashBufChecked_sharp (h : Sharp bytes) (hlen : bytes.length < 2 ^ 24) :
    prepareHashBufChecked false bytes = .error .panic ∨ Sharp (bytes.drop 32) := by
  have hpad := paddingOf_low h.length_pos hlen
  obtain h | ⟨j, h, hnext⟩ := h
  · have hrun := @prepareLoopChecked_panic_of_low (paddingOf bytes.length) _ _ 0 [] hpad
      (.inl rfl) (h.take (by decide : 0 < 32))
    exact .inl (by simp only [prepareHashBufChecked, hrun])
  · obtain hj | rfl | hj : j + 1 < 32 ∨ j = 31 ∨ 32 ≤ j := by omega
    · have hrun := @prepareLoopChecked_panic (paddingOf bytes.length) (paddingOf bytes.length)
        _ 0 j [] hpad (h.take (by omega : j < 32)) (hnext.take hj)
      exact .inl (by simp only [prepareHashBufChecked, hrun])
    · exact .inr (.inl (highAt_drop.mpr hnext))
    · obtain ⟨k, rfl⟩ := Nat.exists_eq_add_of_le hj
      exact .inr (.inr ⟨k, highAt_drop.mpr h, highAt_drop.mpr hnext⟩)

theorem doHashLoopChecked_panic {n : Nat} {hash : Ext4Hash} (h : Sharp bytes)
    (hlen : bytes.length < 2 ^ 24) (hn : bytes.length ≤ 32 * (n + 1)) :
    doHashLoopChecked false n hash bytes = .error .panic := by
  -- On the rounds left: either this round panics, or the bytes after it still make one panic.
  induction n generalizing hash bytes with
  | zero =>
      obtain hrun | hrest := prepareHashBufChecked_sharp h hlen
      · rw [doHashLoopChecked, hrun]
        rfl
      · have hpos := hrest.length_pos
        rw [List.length_drop] at hpos
        omega
  | succ n ih =>
      rw [doHashLoopChecked]
      cases hrun : prepareHashBufChecked false bytes with
      -- An error of the round is the error of the loop, and the only one is a panic.
      | error e => rw [prepareHashBufChecked_error hrun]
      | ok data =>
          have hrest : Sharp (bytes.drop 32) :=
            (prepareHashBufChecked_sharp h hlen).resolve_left (by rw [hrun]; exact nofun)
          have hpos := hrest.length_pos
          rw [List.length_drop] at hpos
          have hrec : doHashLoopChecked false n (halfMd4 hash data) (bytes.drop 32) =
              .error .panic := by
            apply ih hrest
            · rw [List.length_drop]; omega
            · rw [List.length_drop]; omega
          simp only [hrec, if_neg (by omega : ¬bytes.length ≤ 32)]

/-! ## UTF-8 -/

/-- The bytes of a name. -/
def asBytes (name : List Char) : Bytes := name.flatMap String.utf8EncodeChar

theorem high_ofNat {n : Nat} (hhigh : 0x80 ≤ n) (hlt : n < 256) :
    0x80 ≤ (UInt8.ofNat n).toNat := by
  rwa [UInt8.toNat_ofNat', Nat.mod_eq_of_lt hlt]

/-- A character is one byte below 0x80, or starts with two from 0x80 on. -/
theorem utf8EncodeChar_shape (c : Char) :
    (∃ b, String.utf8EncodeChar c = [b] ∧ b.toNat < 0x80) ∨
    ∃ b b' rest, String.utf8EncodeChar c = b :: b' :: rest ∧ 0x80 ≤ b.toNat ∧ 0x80 ≤ b'.toNat := by
  unfold String.utf8EncodeChar
  simp only
  split
  next h =>
    refine .inl ⟨_, rfl, ?_⟩
    rw [UInt8.toNat_ofNat']
    omega
  next =>
    right
    -- a lead byte from 0xc0 on and a continuation byte, whatever the width
    split
    · exact ⟨_, _, _, rfl, high_ofNat (by omega) (by omega), high_ofNat (by omega) (by omega)⟩
    · split
      · exact ⟨_, _, _, rfl, high_ofNat (by omega) (by omega), high_ofNat (by omega) (by omega)⟩
      · exact ⟨_, _, _, rfl, high_ofNat (by omega) (by omega), high_ofNat (by omega) (by omega)⟩

/-- High bytes of a name come in pairs. -/
theorem sharp_of_high {name : List Char} {b : UInt8} (hb : b ∈ asBytes name)
    (hhigh : 0x80 ≤ b.toNat) : Sharp (asBytes name) := by
  obtain ⟨c, hc, hbc⟩ := List.mem_flatMap.mp hb
  obtain ⟨l, r, rfl⟩ := List.append_of_mem hc
  obtain ⟨b', hsingle, hlow⟩ | ⟨b₁, b₂, rest, hpair, h₁, h₂⟩ := utf8EncodeChar_shape c
  · rw [hsingle, List.mem_singleton] at hbc
    subst hbc
    omega
  · have hsplit : asBytes (l ++ c :: r) =
        asBytes l ++ (b₁ :: b₂ :: (rest ++ asBytes r)) := by
      simp [asBytes, hpair]
    refine .inr ⟨(asBytes l).length, ?_⟩
    rw [hsplit]
    constructor
    · exact ⟨b₁, by simp, h₁⟩
    · exact ⟨b₂, by simp, h₂⟩

theorem doHashChecked_panic {name : List Char} {seed : Ext4Hash} {b : UInt8}
    (hb : b ∈ asBytes name) (hhigh : 0x80 ≤ b.toNat) (hlen : (asBytes name).length < 2 ^ 24) :
    doHashChecked false seed (asBytes name) = .error .panic := by
  apply doHashLoopChecked_panic (sharp_of_high hb hhigh) hlen
  omega

/-- `do_hash` gets through the name if and only if no byte of it is extended. -/
theorem doHashChecked_ne_panic_iff (name : List Char) (isUnsigned : Bool) (seed : Ext4Hash)
    (hlen : (asBytes name).length ≤ 255) :
    doHashChecked isUnsigned seed (asBytes name) ≠ .error .panic ↔
      isUnsigned = true ∨ ∀ b ∈ asBytes name, b.toNat < 0x80 := by
  constructor
  · intro hrun
    cases isUnsigned with
    | true => exact .inl rfl
    | false =>
        right
        intro b hb
        by_contra hhigh
        exact hrun (doHashChecked_panic hb (by omega) (by omega))
  · intro h
    rw [doHashChecked, doHashLoopChecked_eq h]
    exact nofun

/-- A name of 40 bytes, in two pieces. -/
theorem doHashChecked_ne_panic_iff_ascii :
    doHashChecked false ⟨1, 2, 3, 4⟩ (asBytes (List.replicate 40 'a')) ≠ .error .panic ↔
      false = true ∨ ∀ b ∈ asBytes (List.replicate 40 'a'), b.toNat < 0x80 :=
  doHashChecked_ne_panic_iff (List.replicate 40 'a') false ⟨1, 2, 3, 4⟩ (by decide +kernel)

/-- The name "é" has two bytes, and its signed hash panics at the first one. -/
theorem doHashChecked_accent :
    (asBytes ['é']).length = 2 ∧
      doHashChecked false ⟨1, 2, 3, 4⟩ (asBytes ['é']) = .error .panic := by
  decide +kernel

/-! ## Names that the hasher of a directory takes -/

/-- Half MD4, over unsigned bytes or over a name without a byte from 0x80 on.  The pieces of
    a name of 16 MiB and more are padded otherwise, and may take such bytes. -/
def Ext4Hasher.Hashes (hasher : Ext4Hasher) (name : Bytes) : Prop :=
  hasher.version = .halfMd4 ∧ (hasher.isUnsigned = true ∨ (∀ b ∈ name, b.toNat < 0x80) ∨
    2 ^ 24 ≤ name.length ∧ ∃ v, doHashChecked false hasher.hash name = .ok v)

/-- Half MD4 over unsigned bytes takes every name. -/
theorem hashOf_unsigned (seed : Ext4Hash) (name : Bytes) :
    (HashVersion.halfMd4.getHasher seed true).hashOf name = .ok (hashOf seed name) := by
  rw [Ext4Hasher.hashOf, HashVersion.getHasher, Ext4Hasher.write]
  dsimp only
  rw [doHashChecked, doHashLoopChecked_eq (.inl rfl)]
  rfl

/-- `write` gets through just these names. -/
theorem Ext4Hasher.write_ok_iff (hasher : Ext4Hasher) (name : List Char) :
    (∃ v, hasher.write (asBytes name) = .ok v) ↔ hasher.Hashes (asBytes name) := by
  obtain ⟨seed, version, isUnsigned⟩ := hasher
  rw [Hashes, write]
  cases version with
  | legacy => simp
  | tea => simp
  | halfMd4 =>
      simp only [true_and]
      constructor
      · rintro ⟨v, hrun⟩
        cases isUnsigned with
        | true => exact .inl rfl
        | false =>
            right
            by_cases hlow : ∀ b ∈ asBytes name, b.toNat < 0x80
            · exact .inl hlow
            · push Not at hlow
              obtain ⟨b, hb, hhigh⟩ := hlow
              refine .inr ⟨?_, v, hrun⟩
              by_contra hlen
              rw [doHashChecked_panic hb hhigh (by omega)] at hrun
              cases hrun
      · rintro (hunsigned | hlow | ⟨-, v, hrun⟩)
        · rw [doHashChecked, doHashLoopChecked_eq (.inl hunsigned)]
          exact ⟨_, rfl⟩
        · rw [doHashChecked, doHashLoopChecked_eq (.inr hlow)]
          exact ⟨_, rfl⟩
        · cases isUnsigned with
          | true =>
              rw [doHashChecked, doHashLoopChecked_eq (.inl rfl)]
              exact ⟨_, rfl⟩
          | false => exact ⟨v, hrun⟩

end RustExt4.Hasher
