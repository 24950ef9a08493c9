/-
  RustExt4.Inode.Extent.Node

  The nodes of an extent tree (`inode/extent/mod.rs`): the root in the inode and
  the blocks below it, the entries they hold, and the search inside one node.
  File blocks are numbers below 2 ^ 32 and `block + len` is taken not to
  overflow: it does not where `len` blocks are mapped from `block` on.
-/
import RustExt4.Utils
import RustExt4.Types

namespace RustExt4.Inode.Extent

/-! ## Entries -/

structure Internal where
  block : Nat
  nextNode : Nat
  deriving DecidableEq, Repr

structure Leaf where
  block : Nat
  start : Nat
  len : Nat
  isInit : Bool
  deriving DecidableEq, Repr

namespace Leaf

def contains (l : Leaf) (block : Nat) : Bool := l.block ≤ block && block < l.block + l.len

/-- `last_fba` -/
def lastFba (l : Leaf) : Except Fault Nat :=
  if l.block + l.len = 0 then .error .panic else .ok (l.block + l.len - 1)

theorem contains_iff {l : Leaf} {x : Nat} :
    l.contains x = true ↔ l.block ≤ x ∧ x < l.block + l.len := by
  simp [contains]

end Leaf

inductive Entry
  | internal (i : Internal)
  | leaf (l : Leaf)
  deriving DecidableEq, Repr

namespace Entry

def firstBlock : Entry → Nat
  | internal i => i.block
  | leaf l => l.block

def nextNode : Entry → Option Nat
  | internal i => some i.nextNode
  | leaf _ => none

def getInternal : Entry → Option Internal
  | internal i => some i
  | leaf _ => none

def getLeaf : Entry → Option Leaf
  | internal _ => none
  | leaf l => some l

end Entry

/-! ## Nodes -/

/-- The root of the tree, in the inode. -/
structure ExtentTree where
  entriesCnt : Nat := 0
  maxEntriesCnt : Nat := 4
  depth : Nat := 0
  b : Bytes := List.replicate 48 0
  cache : Option Leaf := none
  deriving DecidableEq, Repr

/-- The two implementations of `trait ExtentHeader`: the root, and `Node` over the
    content of a block. -/
inductive ExtentHeader
  | tree (t : ExtentTree)
  | node (b : Bytes)
  deriving DecidableEq, Repr

/-- `Node::from_bytes` -/
def ExtentHeader.fromBytes (b : Bytes) : Except Fault ExtentHeader :=
  if ByteRw.readU16 b 0 = 0xF30A then .ok (.node b)
  else .error (.err (.invalidFs "Unexpected extent tree header magic"))

namespace ExtentHeader

/-- `get_entries_cnt` -/
def entriesCnt : ExtentHeader → Nat
  | tree t => t.entriesCnt
  | node b => ByteRw.readU16 b 2

/-- `get_max_entries_cnt` -/
def maxEntriesCnt : ExtentHeader → Nat
  | tree t => t.maxEntriesCnt
  | node b => ByteRw.readU16 b 4

/-- `get_depth` -/
def depth : ExtentHeader → Nat
  | tree t => t.depth
  | node b => ByteRw.readU16 b 6

/-- The bytes that the entries lie in. -/
def bytes : ExtentHeader → Bytes
  | tree t => t.b
  | node b => b

/-- Where the first entry lies in them. -/
def base : ExtentHeader → Nat
  | tree _ => 0
  | node _ => 12

def withBytes : ExtentHeader → Bytes → ExtentHeader
  | tree t, b => tree { t with b := b }
  | node _, b => node b

def isFull (h : ExtentHeader) : Bool := h.entriesCnt = h.maxEntriesCnt

/-- `len` and `is_init` from the 16-bit field; the root and the blocks differ at
    0x8000. -/
def decodeLen : ExtentHeader → Nat → Nat × Bool
  | tree _, v => (v % 2 ^ 15, decide (v < 2 ^ 15))
  | node _, v => if v ≤ 2 ^ 15 then (v, true) else (v - 2 ^ 15, false)

/-- The entry whose bytes start at `p`. -/
def decode (h : ExtentHeader) (p : Nat) : Entry :=
  if h.depth = 0 then
    .leaf {
      block := ByteRw.readU32 h.bytes p
      start := mergeU32 (ByteRw.readU16 h.bytes (p + 6)) (ByteRw.readU32 h.bytes (p + 8))
      len := (h.decodeLen (ByteRw.readU16 h.bytes (p + 4))).1
      isInit := (h.decodeLen (ByteRw.readU16 h.bytes (p + 4))).2 }
  else
    .internal {
      block := ByteRw.readU32 h.bytes p
      nextNode := mergeU32 (ByteRw.readU16 h.bytes (p + 8)) (ByteRw.readU32 h.bytes (p + 4)) }

/-- `get`; entries past the end of the bytes panic. -/
def get (h : ExtentHeader) (index : Nat) : Except Fault (Option Entry) :=
  if index < h.entriesCnt then
    if h.bytes.length < h.base + 12 * index + 12 then .error .panic
    else .ok (some (h.decode (h.base + 12 * index)))
  else .ok none

/-- The loop of `binary_search`. -/
def searchFrom (h : ExtentHeader) (fba l r : Nat) : Except Fault Nat :=
  if l ≤ r then
    match h.get (l + (r - l) / 2) with
    | .ok (some e) =>
      if fba < e.firstBlock then
        -- `m - 1` underflows at 0.
        if l + (r - l) / 2 = 0 then .error .panic
        else h.searchFrom fba l (l + (r - l) / 2 - 1)
      else h.searchFrom fba (l + (r - l) / 2 + 1) r
    | _ => .error .panic
  else .ok l
termination_by r + 1 - l

def binarySearch (h : ExtentHeader) (fba : Nat) : Except Fault (Option Nat) :=
  if 0 < h.entriesCnt then
    match h.searchFrom fba 0 (h.entriesCnt - 1) with
    | .ok l => if l = 0 then .error .panic else .ok (some (l - 1))
    | .error e => .error e
  else .ok none

/-! ## Writing -/

def setEntriesCnt : ExtentHeader → Nat → ExtentHeader
  | tree t, v => tree { t with entriesCnt := v }
  | node b, v => node (ByteRw.writeU16 b 2 v)

/-- The fields of an entry, as `insert_at` and `replace_at` write them.  An entry of
    the wrong kind is `Err` of both, on which every caller panics. -/
def writeEntry (depth : Nat) (ext : Entry) (p : Nat) (b : Bytes) : Except Fault Bytes :=
  if b.length < p + 12 then .error .panic
  else
    match ext with
    | .leaf l =>
      -- `hi.try_into().unwrap()`
      if depth = 0 ∧ (splitU64 l.start).1 < 2 ^ 16 then
        let b := ByteRw.writeU32 b p l.block
        let b := ByteRw.writeU16 b (p + 6) (splitU64 l.start).1
        let b := ByteRw.writeU32 b (p + 8) (splitU64 l.start).2
        .ok (ByteRw.writeU16 b (p + 4) (if l.isInit then l.len else l.len ||| 0x8000))
      else .error .panic
    | .internal i =>
      if 0 < depth then
        let b := ByteRw.writeU32 b p i.block
        let b := ByteRw.writeU32 b (p + 4) (splitU64 i.nextNode).2
        .ok (ByteRw.writeU32 b (p + 8) (splitU64 i.nextNode).1)
      else .error .panic

/-- `replace_at` -/
def replaceAt (h : ExtentHeader) (ext : Entry) (at_ : Nat) : Except Fault ExtentHeader :=
  if h.entriesCnt ≤ at_ then .error .panic
  else
    match writeEntry h.depth ext (h.base + 12 * at_) h.bytes with
    | .error e => .error e
    | .ok b => .ok (h.withBytes b)

/-- One round of the shift in `insert_at`: the entry before `p` is copied to `p`. -/
def copyEntry (b : Bytes) (p : Nat) : Bytes :=
  let b := ByteRw.writeU32 b p (ByteRw.readU32 b (p - 12))
  let b := ByteRw.writeU32 b (p + 4) (ByteRw.readU32 b (p - 12 + 4))
  ByteRw.writeU32 b (p + 8) (ByteRw.readU32 b (p - 12 + 8))

/-- `for i in (at + 1..entries_cnt).rev()`: the shift of `insert_at`, which stops
    one entry short of the last. -/
def shiftFrom (base at_ cnt : Nat) (b : Bytes) : Bytes :=
  (List.range' (at_ + 1) (cnt - (at_ + 1))).reverse.foldl (fun b i => copyEntry b (base + 12 * i)) b

/-- `insert_at` -/
def insertAt (h : ExtentHeader) (ext : Entry) (at_ : Nat) : Except Fault ExtentHeader :=
  if h.maxEntriesCnt ≤ at_ then .error .panic
  else if at_ + 1 < h.entriesCnt ∧ h.bytes.length < h.base + 12 * h.entriesCnt then .error .panic
  else
    match writeEntry h.depth ext (h.base + 12 * at_)
      (shiftFrom h.base at_ h.entriesCnt h.bytes) with
    | .error e => .error e
    | .ok b => .ok ((h.withBytes b).setEntriesCnt (h.entriesCnt + 1))

end ExtentHeader
end RustExt4.Inode.Extent
