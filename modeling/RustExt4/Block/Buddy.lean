/-
  RustExt4.Block.Buddy

  The in-memory buddy structure of the block allocator
  (`block/allocator.rs`, `BlockGroupBuddy`).

  Every bucket `buddies[order]` and the map `backref` is behind a ticket lock
  of its own.  The model keeps the contents; the one lock that a method can ask
  for again while it holds it is `backref`, so a function that runs under it
  takes the flag `held` and a second request is the fault `selfDeadlock`.
-/
import Mathlib.Data.Finset.Max
import Mathlib.Data.Nat.Log
import Mathlib.Tactic.Common

namespace RustExt4.Block

/-! ## Bit counts of a 64-bit word -/

/-- `u64::trailing_zeros` on the low `fuel` bits. -/
def trailingZerosAux : Nat → Nat → Nat
  | 0, _ => 0
  | fuel + 1, n => if n % 2 = 1 then 0 else trailingZerosAux fuel (n / 2) + 1

/-- `u64::trailing_zeros`; it is 64 on zero. -/
def trailingZeros (n : Nat) : Nat := trailingZerosAux 64 n

/-- `usize::leading_zeros`; it is 64 on zero. -/
def leadingZeros (n : Nat) : Nat := if n = 0 then 64 else 63 - Nat.log2 n

/-! ## The structure -/

/-- What can stop a method of the buddy structure short of its result. -/
inductive BuddyFault
  /-- `unwrap` on `None` -/
  | unwrapNone
  /-- a failed `assert!` -/
  | assertFailed
  /-- an index past the end of `buddies` -/
  | outOfBounds
  /-- the ticket lock of `backref` asked for by the thread that holds it -/
  | selfDeadlock
  deriving DecidableEq, Repr

structure BlockGroupBuddy where
  maxOrder : Nat
  /-- `buddies[order]`, for `order` in `0..=maxOrder` -/
  buddies : Nat → Finset Nat
  /-- ofs -> order -/
  backref : Nat → Option Nat

namespace BlockGroupBuddy

def new (maxOrder : Nat) : BlockGroupBuddy :=
  { maxOrder := maxOrder, buddies := fun _ => ∅, backref := fun _ => none }

/-- Both indexes with `start` entered under `order`. -/
def setEntry (b : BlockGroupBuddy) (start order : Nat) : BlockGroupBuddy :=
  { b with
    buddies := Function.update b.buddies order (Insert.insert start (b.buddies order))
    backref := Function.update b.backref start (some order) }

/-- Both indexes with `start` removed from bucket `order`. -/
def eraseEntry (b : BlockGroupBuddy) (start order : Nat) : BlockGroupBuddy :=
  { b with
    buddies := Function.update b.buddies order ((b.buddies order).erase start)
    backref := Function.update b.backref start none }

def insert (b : BlockGroupBuddy) (held : Bool) (start order : Nat) :
    Except BuddyFault BlockGroupBuddy :=
  if held then .error .selfDeadlock
  else if order ≤ b.maxOrder then .ok (b.setEntry start order)
  else .error .outOfBounds

/-- The order that `push_chunk` picks for the next piece of `[start, start+size)`. -/
def chunkOrder (maxOrder start size : Nat) : Nat :=
  min (min (trailingZeros start) (63 - leadingZeros size)) (maxOrder % 2 ^ 32)

def pushChunk (b : BlockGroupBuddy) (held : Bool) (start size : Nat) :
    Except BuddyFault BlockGroupBuddy :=
  if 0 < size then
    match b.insert held start (chunkOrder b.maxOrder start size) with
    | .error e => .error e
    | .ok b' => b'.pushChunk held (start + 2 ^ chunkOrder b.maxOrder start size)
        (size - 2 ^ chunkOrder b.maxOrder start size)
  else .ok b
termination_by size
decreasing_by
  have := Nat.two_pow_pos (chunkOrder b.maxOrder start size)
  omega

/-! ## Allocation -/

/-- The first loop of `try_allocate_at`: add up the free chunks that follow each
    other from `hope` until they reach `size`. -/
def chainFrom (b : BlockGroupBuddy) (hope size chain : Nat) : Nat :=
  if chain < size then
    match b.backref (hope + chain) with
    | some l => b.chainFrom hope size (chain + 2 ^ l)
    | none => chain
  else chain
termination_by size - chain
decreasing_by
  have := Nat.two_pow_pos l
  omega

/-- The second loop: take the chunks of the chain out of both indexes, from
    offset `p` on.  The lock of `backref` is held throughout. -/
def takeChain (b : BlockGroupBuddy) (hope size chain p : Nat) :
    Except BuddyFault BlockGroupBuddy :=
  if p < min chain size then
    match b.backref (hope + p) with
    | none => .error .unwrapNone
    | some order =>
      if b.maxOrder < order then .error .outOfBounds
      else if hope + p ∉ b.buddies order then .error .assertFailed
      else if p + 2 ^ order ≤ chain then
        (b.eraseEntry (hope + p) order).takeChain hope size chain (p + 2 ^ order)
      else
        match (b.eraseEntry (hope + p) order).pushChunk true (hope + p + (chain - p))
            (2 ^ order - (chain - p)) with
        | .error e => .error e
        | .ok b' => b'.takeChain hope size chain (p + (chain - p))
  else .ok b
termination_by min chain size - p
decreasing_by
  · have := Nat.two_pow_pos order
    omega
  · omega

/-- The lowest start in the first non-empty bucket of `orders`. -/
def firstIn (b : BlockGroupBuddy) : List Nat → Option (Nat × Nat)
  | [] => none
  | order :: orders =>
    if h : (b.buddies order).Nonempty then some ((b.buddies order).min' h, order)
    else b.firstIn orders

/-- `min_fit_order`: the smallest order whose chunks hold `size` blocks. -/
def minFitOrder (size : Nat) : Nat := 64 - leadingZeros (size - 1)

/-- The part of `try_allocate_at` after the hope: the smallest chunk that is
    large enough, else the largest one.  The guards are dropped before the rest
    of a split chunk is pushed back. -/
def allocateAnywhere (b : BlockGroupBuddy) (size : Nat) :
    Except BuddyFault (Option (Nat × Nat) × BlockGroupBuddy) :=
  match b.firstIn ((List.range (b.maxOrder + 1)).drop (minFitOrder size)) with
  | some (p, order) =>
    match (b.eraseEntry p order).pushChunk false (p + size) (2 ^ order - size) with
    | .error e => .error e
    | .ok b' => .ok (some (p, size), b')
  | none =>
    match b.firstIn ((List.range (b.maxOrder + 1)).take (minFitOrder size)).reverse with
    | some (p, order) => .ok (some (p, 2 ^ order), b.eraseEntry p order)
    | none => .ok (none, b)

def tryAllocateAt (b : BlockGroupBuddy) (size : Nat) (hope : Option Nat) :
    Except BuddyFault (Option (Nat × Nat) × BlockGroupBuddy) :=
  match hope with
  | none => b.allocateAnywhere size
  | some hope =>
    -- if we can allocate more than size / 2 from hope, allocate from the hope.
    if size / 2 < b.chainFrom hope size 0 then
      match b.takeChain hope size (b.chainFrom hope size 0) 0 with
      | .error e => .error e
      | .ok b' => .ok (some (hope, min (b.chainFrom hope size 0) size), b')
    else b.allocateAnywhere size

/-! ## The free blocks -/

/-- The blocks that some free chunk holds. -/
def free (b : BlockGroupBuddy) : Set Nat :=
  {x | ∃ s o, b.backref s = some o ∧ s ≤ x ∧ x < s + 2 ^ o}

@[simp] theorem new_backref (k s : Nat) : (new k).backref s = none := rfl

@[simp] theorem setEntry_maxOrder (b : BlockGroupBuddy) (s o : Nat) :
    (b.setEntry s o).maxOrder = b.maxOrder := rfl

@[simp] theorem eraseEntry_maxOrder (b : BlockGroupBuddy) (s o : Nat) :
    (b.eraseEntry s o).maxOrder = b.maxOrder := rfl

end BlockGroupBuddy
end RustExt4.Block
