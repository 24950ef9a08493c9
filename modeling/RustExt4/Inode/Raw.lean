/-
  RustExt4.Inode.Raw

  The inode record of the inode table, field by field (`inode/raw.rs`), and the
  form in which the block map of a file travels into it
  (`RawInodeAddressingMode`, `inode/mod.rs`).
-/
import RustExt4.Utils
import RustExt4.Types

namespace RustExt4.Inode

/-- The block map of an inode as the record stores it: the fifteen words of the
    legacy scheme, or the header and the 48 entry bytes of the extent root. -/
inductive RawInodeAddressingMode
  | legacy (addresses : List Nat)
  | extent (entriesCnt maxEntriesCnt depth : Nat) (b : Bytes)
  deriving DecidableEq, Repr

/-! ## Flags -/

/-- `InodeFlag::EXTENTS` -/
def flagExtents : Nat := 0x00080000
/-- `InodeFlag::INDEX` -/
def flagIndex : Nat := 0x00001000
/-- `Ext4FeatureIncompatible::EXTENTS` -/
def featureExtents : Nat := 0x0040
/-- `Ext4FeatureReadOnly::HUGE_FILE` -/
def featureHugeFile : Nat := 0x0008

/-! ## Two-part fields -/

/-- `CompoundAccessor<u64>::get` -/
def getCompoundU64 (raw : Bytes) (lo hi : Nat) (useHi : Bool) : Nat :=
  mergeU32 (if useHi then ByteRw.readU32 raw hi else 0) (ByteRw.readU32 raw lo)

/-- `CompoundAccessor<u64>::set`; without the high part its value must be 0. -/
def setCompoundU64 (raw : Bytes) (lo hi : Nat) (useHi : Bool) (v : Nat) : Option Bytes :=
  if useHi then
    some (ByteRw.writeU32 (ByteRw.writeU32 raw hi (splitU64 v).1) lo (splitU64 v).2)
  else if (splitU64 v).1 = 0 then some (ByteRw.writeU32 raw lo (splitU64 v).2)
  else none

/-- `CompoundAccessor<u32>::set`; without the high part its value must be 0. -/
def setCompoundU32 (raw : Bytes) (lo hi : Nat) (useHi : Bool) (v : Nat) : Option Bytes :=
  if useHi then some (ByteRw.writeU16 (ByteRw.writeU16 raw hi (v / 2 ^ 16)) lo (v % 2 ^ 16))
  else if v / 2 ^ 16 = 0 then some (ByteRw.writeU16 raw lo (v % 2 ^ 16))
  else none

/-! ## File modes -/

/-- `filetype_to_mode`; an unknown type is `unreachable!`. -/
def filetypeToMode : FileType → Option Nat
  | .fifo => some 0x1000
  | .characterDev => some 0x2000
  | .directory => some 0x4000
  | .blockDev => some 0x6000
  | .regularFile => some 0x8000
  | .symlink => some 0xA000
  | .socket => some 0xC000
  | .unknown => none

/-- `Ext4De::default_mode`: read and write for all, and search on a directory. -/
def defaultMode : FileType → Option Nat
  | .fifo | .characterDev | .blockDev | .regularFile | .socket => some 0o666
  | .directory | .symlink => some 0o777
  | .unknown => none

namespace Manipulator

def detectType (raw : Bytes) : FileType :=
  match ByteRw.readU16 raw 0 / 2 ^ 12 with
  | 0x1 => .fifo
  | 0x2 => .characterDev
  | 0x4 => .directory
  | 0x6 => .blockDev
  | 0x8 => .regularFile
  | 0xA => .symlink
  | 0xC => .socket
  | _ => .unknown

def flags (raw : Bytes) : Nat := ByteRw.readU32 raw 0x20

/-- `size(fs).set` -/
def setSize (sb : SuperBlock) (raw : Bytes) (v : Nat) : Option Bytes :=
  setCompoundU64 raw 0x4 0x6C (decide (0 < sb.revLevel) && detectType raw == .regularFile) v

/-- `blocks(fs).get` -/
def getBlocks (sb : SuperBlock) (raw : Bytes) : Nat :=
  getCompoundU64 raw 0x1C 0x74 (containsFlag sb.featuresReadonly featureHugeFile)

/-- `blocks(fs).set` -/
def setBlocks (sb : SuperBlock) (raw : Bytes) (v : Nat) : Option Bytes :=
  setCompoundU64 raw 0x1C 0x74 (containsFlag sb.featuresReadonly featureHugeFile) v

/-- The words of the legacy scheme start at 0x28. -/
def writeWords (raw : Bytes) (p : Nat) : List Nat → Bytes
  | [] => raw
  | v :: vs => writeWords (ByteRw.writeU32 raw p v) (p + 4) vs

def getAddressingMode (sb : SuperBlock) (raw : Bytes) : RawInodeAddressingMode :=
  if containsFlag sb.featuresIncompatible featureExtents &&
      containsFlag (flags raw) flagExtents then
    .extent (ByteRw.readU16 raw 0x2a) (ByteRw.readU16 raw 0x2c) (ByteRw.readU16 raw 0x2e)
      (LeBytes.slice raw 0x34 48)
  else
    .legacy ((List.range 15).map fun i => ByteRw.readU32 raw (0x28 + 4 * i))

/-- `set_addresses`; the assertion and the `unreachable!` arm are `none`. -/
def setAddresses (sb : SuperBlock) (raw : Bytes) (mode : RawInodeAddressingMode) :
    Option Bytes :=
  let hasExtent := containsFlag (flags raw) flagExtents
  if !(containsFlag sb.featuresIncompatible featureExtents || !hasExtent) then none
  else
    match mode, hasExtent with
    | .extent entriesCnt maxEntriesCnt depth b, true =>
      let raw := ByteRw.writeU16 raw 0x28 0xF30A
      let raw := ByteRw.writeU16 raw 0x2a entriesCnt
      let raw := ByteRw.writeU16 raw 0x2c maxEntriesCnt
      let raw := ByteRw.writeU16 raw 0x2e depth
      let raw := ByteRw.writeU16 raw 0x30 0
      some (LeBytes.splice raw 0x34 b)
    | .legacy addresses, false => some (writeWords raw 0x28 addresses)
    | _, _ => none

def linksCount (raw : Bytes) : Nat := ByteRw.readU16 raw 0x1A
def setLinksCount (raw : Bytes) (v : Nat) : Bytes := ByteRw.writeU16 raw 0x1A v

def deletionTime (raw : Bytes) : Nat := ByteRw.readU32 raw 0x14
def setDeletionTime (raw : Bytes) (v : Nat) : Bytes := ByteRw.writeU32 raw 0x14 v

/-- `init`; `none` is a type without a mode. -/
def init (sb : SuperBlock) (raw : Bytes) (ftype : FileType) : Option Bytes :=
  let hasExtent := containsFlag sb.featuresIncompatible featureExtents &&
    (ftype == .directory || ftype == .regularFile)
  let addresses : RawInodeAddressingMode :=
    if hasExtent then .extent 0 4 0 (List.replicate 48 0) else .legacy (List.replicate 15 0)
  let flag := (if hasExtent then flagExtents else 0) |||
    (if ftype = .directory then flagIndex else 0)
  let raw : Bytes := List.replicate raw.length 0
  (defaultMode ftype).bind fun mode =>
  (filetypeToMode ftype).bind fun type =>
  -- The mode has a high part on file systems of the Hurd.
  (setCompoundU32 raw 0x0 0x76 (decide (sb.creatorOs = 1)) (mode ||| type)).bind fun raw =>
  (setAddresses sb (ByteRw.writeU32 raw 0x20 flag) addresses).map fun raw =>
  if 0x80 < sb.inodeSize then ByteRw.writeU16 raw 0x80 sb.wantExtraIsize else raw

end Manipulator
end RustExt4.Inode
