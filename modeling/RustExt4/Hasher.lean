/-
  RustExt4.Hasher

  The hash of a name in a hashed directory (`hasher.rs`): half MD4 over
  unsigned bytes.  The legacy and TEA hashes are `todo!()` in the source.
-/
import RustExt4.Utils

namespace RustExt4.Hasher

/-- `u32::rotate_left` -/
def rotateLeft (x s : UInt32) : UInt32 := x <<< s ||| x >>> (32 - s)

/-! ## Words of a chunk -/

/-- The loop of `prepare_hash_buf`: `i` bytes of the chunk are done, `dst` holds
    the finished words and `bufVal` the open one. -/
def prepareLoop (padding : UInt32) : Bytes → Nat → UInt32 → List UInt32 → List UInt32 × UInt32
  | [], _, bufVal, dst => (dst, bufVal)
  | byte :: bytes, i, bufVal, dst =>
    let bufVal := if i % 4 = 0 then padding else bufVal
    let bufVal := bufVal <<< 8 + byte.toUInt32
    if i % 4 = 3 then prepareLoop padding bytes (i + 1) padding (dst ++ [bufVal])
    else prepareLoop padding bytes (i + 1) bufVal dst

/-- `prepare_hash_buf::<8>` with unsigned bytes. -/
def prepareHashBuf (bytes : Bytes) : List UInt32 :=
  let slen := bytes.length.toUInt32
  let padding := slen ||| slen <<< 8 ||| slen <<< 16 ||| slen <<< 24
  let (dst, bufVal) := prepareLoop padding (bytes.take 32) 0 padding []
  if dst.length < 8 then dst ++ [bufVal] ++ List.replicate (7 - dst.length) padding else dst

/-! ## Half MD4 -/

structure Ext4Hash where
  w0 : UInt32
  w1 : UInt32
  w2 : UInt32
  w3 : UInt32
  deriving DecidableEq, Repr

def f (x y z : UInt32) : UInt32 := (x &&& y) ||| (~~~x &&& z)

def g (x y z : UInt32) : UInt32 := (x &&& y) ||| (x &&& z) ||| (y &&& z)

def h (x y z : UInt32) : UInt32 := x ^^^ y ^^^ z

def ff (a b c d k s : UInt32) : UInt32 := rotateLeft (a + f b c d + k) s

def gg (a b c d k s : UInt32) : UInt32 := rotateLeft (a + g b c d + k + 0x5A827999) s

def hh (a b c d k s : UInt32) : UInt32 := rotateLeft (a + h b c d + k + 0x6ED9EBA1) s

/-- Four calls of one round function over the words `k0`, `k1`, `k2`, `k3`. -/
def quarter (r : UInt32 → UInt32 → UInt32 → UInt32 → UInt32 → UInt32 → UInt32)
    (s0 s1 s2 s3 : UInt32) (k0 k1 k2 k3 : UInt32) (w : Ext4Hash) : Ext4Hash :=
  let a := r w.w0 w.w1 w.w2 w.w3 k0 s0
  let d := r w.w3 a w.w1 w.w2 k1 s1
  let c := r w.w2 d a w.w1 k2 s2
  let b := r w.w1 c d a k3 s3
  { w0 := a, w1 := b, w2 := c, w3 := d }

def halfMd4 (hash : Ext4Hash) (data : List UInt32) : Ext4Hash :=
  let k := fun i => data.getD i 0
  let w := quarter ff 3 7 11 19 (k 0) (k 1) (k 2) (k 3) hash
  let w := quarter ff 3 7 11 19 (k 4) (k 5) (k 6) (k 7) w
  let w := quarter gg 3 5 9 13 (k 1) (k 3) (k 5) (k 7) w
  let w := quarter gg 3 5 9 13 (k 0) (k 2) (k 4) (k 6) w
  let w := quarter hh 3 9 11 15 (k 3) (k 7) (k 2) (k 6) w
  let w := quarter hh 3 9 11 15 (k 1) (k 5) (k 0) (k 4) w
  { w0 := hash.w0 + w.w0, w1 := hash.w1 + w.w1, w2 := hash.w2 + w.w2, w3 := hash.w3 + w.w3 }

/-- The loop of `do_hash`, which has `n` full chunks before the last one. -/
def doHashLoop : Nat → Ext4Hash → Bytes → Ext4Hash
  | 0, hash, bytes => halfMd4 hash (prepareHashBuf bytes)
  | n + 1, hash, bytes =>
    if bytes.length ≤ 32 then halfMd4 hash (prepareHashBuf bytes)
    else doHashLoop n (halfMd4 hash (prepareHashBuf bytes)) (bytes.drop 32)

/-- `do_hash`: 32 bytes at a time. -/
def doHash (hash : Ext4Hash) (bytes : Bytes) : Ext4Hash :=
  doHashLoop (bytes.length / 32) hash bytes

/-- `finish() >> 32`: the major word without its lowest bit, kept off the end mark. -/
def finish (hash : Ext4Hash) : Nat :=
  let major := hash.w1 &&& 0xFFFFFFFE
  if major = 0xFFFFFFFE then 0xFFFFFFFC else major.toNat

/-- `hash_of` with the half MD4 hash. -/
def hashOf (seed : Ext4Hash) (name : Bytes) : Nat := finish (doHash seed name)

end RustExt4.Hasher
