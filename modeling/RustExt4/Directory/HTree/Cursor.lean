/-
  RustExt4.Directory.HTree.Cursor

  The index of a hashed directory (`directory/htree/node.rs`, `DirDxRoot`) and
  the cursor over it (`directory/htree/cursor.rs`).  The cursor starts at the
  last slot whose key is at most the hash, and goes on through the slots whose
  key is the hash with its lowest bit set: names with one hash may pass the end
  of a leaf block.
-/
import RustExt4.Hasher.Overflow
import RustExt4.Lib.Predecessor
import RustExt4.Types

namespace RustExt4.Directory.HTree

open Predecessor (IsPred Nondecreasing)

structure DxEntry where
  hash : Nat
  block : Nat
  deriving DecidableEq, Repr

structure CLimit where
  limit : Nat
  count : Nat
  block : Nat
  deriving DecidableEq, Repr

/-- `DirDxRoot`.  The hasher is made when the root is opened. -/
structure DirDxRoot where
  raw : Bytes
  hasher : Hasher.Ext4Hasher

def ErrHTree : FsError := .invalidFs "HashTree is corrupted."

def ErrHTreeRoot : FsError := .invalidFs "Invalid HTree root detected."

namespace DirDxRoot

/-- `from_raw_block`, with `verify`: the hash version is byte 0x1C of the block, the seed and
    the signedness are those of the superblock. -/
def fromRawBlock (hashSeed : Hasher.Ext4Hash) (unsignedHash : Bool) (rEntries : Nat)
    (raw : Bytes) : Except Fault DirDxRoot :=
  match Hasher.HashVersion.tryFrom (ByteRw.readU8 raw 0x1C) with
  | none => .error (.err (.unsupported "Unsupported Hash"))
  | some version =>
    if ByteRw.readU16 raw 0x4 = 12 ∧ ByteRw.readU16 raw 0x10 = raw.length - 12 ∧
        ByteRw.readU8 raw 0x1D = 8 ∧ ByteRw.readU8 raw 0x1E ≤ 1 ∧
        ByteRw.readU16 raw 0x20 = rEntries + 1 then
      .ok { raw := raw, hasher := version.getHasher hashSeed unsignedHash }
    else .error (.err ErrHTreeRoot)

/-- `root_info().indirect_levels` -/
def indirectLevels (root : DirDxRoot) : Nat := ByteRw.readU8 root.raw 0x1E

def climit (root : DirDxRoot) : CLimit where
  limit := ByteRw.readU16 root.raw 0x20
  count := ByteRw.readU16 root.raw 0x22
  block := ByteRw.readU32 root.raw 0x24

/-- What `entries` reads in a slot: the field of the first key holds the limit and the
    count, and the key reads as 0. -/
def slot (root : DirDxRoot) (index : Nat) : DxEntry :=
  if index = 0 then { hash := 0, block := root.climit.block }
  else
    { hash := ByteRw.readU32 root.raw (0x28 + 8 * index - 8)
      block := ByteRw.readU32 root.raw (0x2c + 8 * index - 8) }

def entries (root : DirDxRoot) (index : Nat) : Option DxEntry :=
  if index = 0 ∨ index < root.climit.count then some (root.slot index) else none

def hashOf (root : DirDxRoot) (target : Bytes) : Except Fault Nat := root.hasher.hashOf target

/-- The slots in order; the first one is there also where the count is 0. -/
def slots (root : DirDxRoot) : List DxEntry :=
  (List.range (max 1 root.climit.count)).map root.slot

/-- The slots in which an entry with this hash may be: the last one whose key is at most
    the hash, and those whose key is the hash plus one. -/
def candidates (root : DirDxRoot) (hash : Nat) : List DxEntry :=
  (root.slots.filter fun en => en.hash ≤ hash).getLast?.toList ++
    root.slots.filter fun en => en.hash = hash + 1

theorem entries_eq (root : DirDxRoot) (index : Nat) : root.entries index = root.slots[index]? := by
  unfold entries slots
  rw [List.getElem?_map]
  split
  next h =>
    rw [List.getElem?_range (by omega)]
    rfl
  next h =>
    rw [List.getElem?_eq_none (by rw [List.length_range]; omega)]
    rfl

theorem slots_head (root : DirDxRoot) :
    root.slots[0]? = some { hash := 0, block := root.climit.block } := by
  rw [← entries_eq]
  rfl

theorem length_slots (root : DirDxRoot) : root.slots.length = max 1 root.climit.count := by
  simp [slots]

/-- `finish` clears the lowest bit. -/
theorem hashOf_even {root : DirDxRoot} {target : Bytes} {hash : Nat}
    (h : root.hashOf target = .ok hash) : 2 ∣ hash := by
  have hand : ∀ w : UInt32, (w &&& 0xFFFFFFFE).toNat % 2 = 0 := by
    intro w
    rw [UInt32.toNat_and, Nat.mod_two_eq_zero_iff_testBit_zero, Nat.testBit_and,
      show Nat.testBit (0xFFFFFFFE : UInt32).toNat 0 = false by decide, Bool.and_false]
  obtain ⟨state, rfl⟩ := Hasher.Ext4Hasher.hashOf_eq_ok h
  unfold Hasher.finish
  dsimp only
  split
  · decide
  · exact Nat.dvd_of_mod_eq_zero (hand _)

end DirDxRoot

/-- `HTreeCursor` over a root without indirect levels. -/
structure HTreeCursor where
  pos : Nat
  hash : Option Nat
  checkHash : Bool
  deriving DecidableEq, Repr

namespace HTreeCursor

/-- The binary search of `from_hash`, over the `i32` bounds of the source. -/
def searchFrom (root : DirDxRoot) (hash : Nat) (l r : Int) : Except Fault Int :=
  if l ≤ r then
    let m := l + (r - l) / 2
    match root.entries m.toNat with
    | none => .error (.err ErrHTree)
    | some en =>
      if hash < en.hash then searchFrom root hash l (m - 1) else searchFrom root hash (m + 1) r
  else .ok l
termination_by (r + 1 - l).toNat

/-- `from_hash`; a root with indirect levels is `todo!()`. -/
def fromHash (root : DirDxRoot) (hash : Nat) : Except Fault HTreeCursor :=
  match searchFrom root hash 1 (root.climit.count - 1) with
  | .error e => .error e
  | .ok l =>
    if root.indirectLevels = 0 then
      .ok { pos := l.toNat - 1, hash := some hash, checkHash := false }
    else .error .panic

/-- `next` -/
def next (root : DirDxRoot) (c : HTreeCursor) : Option (DxEntry × HTreeCursor) :=
  match root.entries c.pos with
  | none => none
  | some n =>
    match c.hash with
    | none => some (n, { c with pos := c.pos + 1 })
    | some hash =>
      if c.checkHash ∧ hash + 1 ≠ n.hash then none
      else some (n, { c with pos := c.pos + 1, checkHash := true })

theorem next_eq_some {root : DirDxRoot} {c c' : HTreeCursor} {n : DxEntry}
    (h : c.next root = some (n, c')) : c'.pos = c.pos + 1 ∧ root.slots[c.pos]? = some n := by
  unfold next at h
  rw [DirDxRoot.entries_eq] at h
  split at h
  case h_1 => cases h
  case h_2 n hn =>
    split at h
    case h_1 => cases h; exact ⟨rfl, hn⟩
    case h_2 =>
      split at h
      case isTrue => cases h
      case isFalse => cases h; exact ⟨rfl, hn⟩

theorem next_pos_lt {root : DirDxRoot} {c c' : HTreeCursor} {n : DxEntry}
    (h : c.next root = some (n, c')) :
    root.slots.length - c'.pos < root.slots.length - c.pos := by
  obtain ⟨hpos, hn⟩ := next_eq_some h
  have := (List.getElem?_eq_some_iff.mp hn).1
  omega

/-- The slots that `for en in cursor` visits. -/
def visits (root : DirDxRoot) (c : HTreeCursor) : List DxEntry :=
  match _h : c.next root with
  | none => []
  | some (n, c') => n :: visits root c'
termination_by root.slots.length - c.pos
decreasing_by exact next_pos_lt _h

theorem visits_of_none {root : DirDxRoot} {c : HTreeCursor} (h : c.next root = none) :
    visits root c = [] := by
  rw [visits]
  split
  case h_1 => rfl
  case h_2 heq =>
    rw [h] at heq
    cases heq

theorem visits_of_some {root : DirDxRoot} {c c' : HTreeCursor} {n : DxEntry}
    (h : c.next root = some (n, c')) : visits root c = n :: visits root c' := by
  rw [visits]
  split <;> rename_i heq <;> rw [h] at heq <;> cases heq
  rfl

/-! ## The slots visited -/

variable {root : DirDxRoot} {hash : Nat}

/-- Slots left of `l` have keys up to the hash, slots from `l` on and right of `r` have
    greater ones; the search closes the gap. -/
theorem searchFrom_spec (hash : Nat) (hnd : Nondecreasing DxEntry.hash root.slots) {l r : Int}
    (hl : 1 ≤ l) (hl' : l ≤ root.slots.length) (hr : r < root.slots.length)
    (hlow : ∀ (i : Nat) en, i < l → root.slots[i]? = some en → en.hash ≤ hash)
    (hhigh : ∀ (i : Nat) en, l ≤ i → r < i → root.slots[i]? = some en → hash < en.hash) :
    ∃ n : Nat, searchFrom root hash l r = .ok (n + 1) ∧ n < root.slots.length ∧
      (∀ i en, i ≤ n → root.slots[i]? = some en → en.hash ≤ hash) ∧
      ∀ i en, n < i → root.slots[i]? = some en → hash < en.hash := by
  -- Equal keys are allowed, so the bounds go through the order of the slots.
  have hmono : ∀ {i j : Nat} {a b : DxEntry}, i ≤ j → root.slots[i]? = some a →
      root.slots[j]? = some b → a.hash ≤ b.hash := by
    intro i j a b hij ha hb
    rcases Nat.eq_or_lt_of_le hij with rfl | hlt
    · rw [ha] at hb
      cases hb
      exact Nat.le_refl _
    · obtain ⟨hi, rfl⟩ := List.getElem?_eq_some_iff.mp ha
      obtain ⟨hj, rfl⟩ := List.getElem?_eq_some_iff.mp hb
      exact List.pairwise_iff_getElem.mp hnd i j hi hj hlt
  -- Below `l` every key is at most the hash, and above `r` it is greater.
  induction l, r using searchFrom.induct root hash with
  | case1 l r hle m hnone =>
      rw [DirDxRoot.entries_eq, List.getElem?_eq_none_iff] at hnone
      omega
  | case2 l r hle m en hen hlt ih =>
      rw [searchFrom, if_pos hle]
      simp only [show root.entries (l + (r - l) / 2).toNat = some en from hen, if_pos hlt]
      rw [DirDxRoot.entries_eq] at hen
      refine ih hl hl' (by omega) hlow fun i e hi hmi he => ?_
      exact Nat.lt_of_lt_of_le hlt (hmono (by omega) hen he)
  | case3 l r hle m en hen hge ih =>
      rw [searchFrom, if_pos hle]
      simp only [show root.entries (l + (r - l) / 2).toNat = some en from hen, if_neg hge]
      rw [DirDxRoot.entries_eq] at hen
      refine ih (by omega) (by omega) hr (fun i e hi he => ?_) fun i e hi hri he => ?_
      · exact Nat.le_trans (hmono (by omega) he hen) (Nat.le_of_not_lt hge)
      · exact hhigh i e (by omega) hri he
  | case4 l r hgt =>
      rw [searchFrom, if_neg hgt]
      refine ⟨(l - 1).toNat, by congr 1; omega, by omega, fun i e hi he => ?_, fun i e hi he => ?_⟩
      · exact hlow i e (by omega) he
      · exact hhigh i e (by omega) (by omega) he

/-- Behind its first slot the cursor goes on while the key is the hash plus one. -/
theorem visits_checked {l : List DxEntry} {n : Nat} (h : root.slots.drop n = l) :
    visits root { pos := n, hash := some hash, checkHash := true } =
      l.takeWhile fun en => en.hash = hash + 1 := by
  -- On the slots left.
  induction l generalizing n with
  | nil =>
      refine visits_of_none ?_
      rw [next, DirDxRoot.entries_eq,
        List.getElem?_eq_none (List.drop_eq_nil_iff.mp h)]
  | cons en l ih =>
      have hen : root.entries n = some en := by
        rw [DirDxRoot.entries_eq, ← List.head?_drop, h]
        rfl
      have hl : root.slots.drop (n + 1) = l := by
        rw [← List.drop_drop, h]
        rfl
      by_cases hkey : en.hash = hash + 1
      · have hnext : next root { pos := n, hash := some hash, checkHash := true } =
            some (en, { pos := n + 1, hash := some hash, checkHash := true }) := by
          simp only [next, hen]
          rw [if_neg fun hc => hc.2 hkey.symm]
        rw [visits_of_some hnext, ih hl, List.takeWhile_cons_of_pos (by simpa using hkey)]
      · have hnext : next root { pos := n, hash := some hash, checkHash := true } = none := by
          simp only [next, hen]
          rw [if_pos ⟨trivial, Ne.symm hkey⟩]
        rw [visits_of_none hnext, List.takeWhile_cons_of_neg (by simpa using hkey)]

/-- `from_hash` stops at the last slot whose key is at most the hash. -/
theorem fromHash_spec (hnd : Nondecreasing DxEntry.hash root.slots)
    (hlevels : root.indirectLevels = 0) (hash : Nat) :
    ∃ n, fromHash root hash = .ok { pos := n, hash := some hash, checkHash := false } ∧
      n < root.slots.length ∧ (∀ i en, i ≤ n → root.slots[i]? = some en → en.hash ≤ hash) ∧
      ∀ i en, n < i → root.slots[i]? = some en → hash < en.hash := by
  have hlen := root.length_slots
  obtain ⟨n, hsearch, hn, hlow, hhigh⟩ := searchFrom_spec hash hnd (l := 1)
    (r := root.climit.count - 1) (Int.le_refl 1) (by omega) (by omega)
    (fun i en hi hen => by
      obtain rfl : i = 0 := by omega
      rw [root.slots_head] at hen
      cases hen
      exact Nat.zero_le _)
    (fun i en hi hri hen => by
      have := (List.getElem?_eq_some_iff.mp hen).1
      omega)
  refine ⟨n, ?_, hn, hlow, hhigh⟩
  rw [fromHash, hsearch]
  dsimp only
  rw [if_pos hlevels]
  congr 2

/-- The slots visited stand behind one another. -/
theorem visits_prefix (root : DirDxRoot) (c : HTreeCursor) :
    visits root c <+: root.slots.drop c.pos := by
  induction c using visits.induct root with
  | case1 c hnone =>
      rw [visits_of_none hnone]
      exact List.nil_prefix
  | case2 c n c' hnext ih =>
      obtain ⟨hpos, hn⟩ := next_eq_some hnext
      obtain ⟨hlt, rfl⟩ := List.getElem?_eq_some_iff.mp hn
      rw [visits_of_some hnext, List.drop_eq_getElem_cons hlt, ← hpos]
      exact List.cons_prefix_cons.mpr ⟨rfl, ih⟩

/-- The cursor visits the last slot whose key is at most the hash, and then the run of
    slots whose key is the hash plus one. -/
theorem visits_fromHash (hnd : Nondecreasing DxEntry.hash root.slots)
    (hlevels : root.indirectLevels = 0) (hash : Nat) :
    ∃ c, fromHash root hash = .ok c ∧ visits root c = root.candidates hash := by
  obtain ⟨n, hfrom, hn, hlow, hhigh⟩ := fromHash_spec hnd hlevels hash
  obtain ⟨en, hen⟩ : ∃ en, root.slots[n]? = some en := ⟨_, List.getElem?_eq_getElem hn⟩
  have hpred : IsPred DxEntry.hash hash root.slots n en :=
    Predecessor.isPred_of_split hen (hlow n en (Nat.le_refl n) hen) hhigh
  obtain ⟨l1, l2, hsplit, hl1, hle, hgt⟩ := hpred
  have hnext : next root { pos := n, hash := some hash, checkHash := false } =
      some (en, { pos := n + 1, hash := some hash, checkHash := true }) := by
    simp only [next, DirDxRoot.entries_eq, hen]
    rw [if_neg fun hc => Bool.noConfusion hc.1]
  have hdrop : root.slots.drop (n + 1) = l2 := by
    rw [← List.drop_drop, hsplit, ← hl1, List.drop_left]
    rfl
  refine ⟨_, hfrom, ?_⟩
  rw [visits_of_some hnext, visits_checked hdrop, DirDxRoot.candidates, hsplit]
  exact (hsplit ▸ hnd).run_eq hle hgt (Nat.lt_succ_self hash) fun k hk => hk

end HTreeCursor
end RustExt4.Directory.HTree
