/-
  RustExt4.Directory.Entry

  Directory records (`directory/entry.rs`) and the file types they hold
  (`inode/mod.rs`, `Ext4De`).  The source takes the tail of the block from the
  record's position on; the model takes the block and the position, and the
  flag `v2` for the variant of `DirectoryEntryDispatch`.

    inode: u32, entry_len: u16, name_len: u16, name          (V1)
    inode: u32, entry_len: u16, name_len: u8, file_type: u8, name   (V2)
-/
import RustExt4.Types
import RustExt4.Utils

namespace RustExt4.Directory

/-! ## File types -/

inductive Ext4De
  | unknown
  | regularFile
  | directory
  | characterDev
  | blockDev
  | fifo
  | socket
  | symlink
  | checkSum
  deriving DecidableEq, Repr

namespace Ext4De

/-- `Ext4De::try_from(u8).ok()` -/
def tryFrom : Nat → Option Ext4De
  | 0 => some .unknown
  | 1 => some .regularFile
  | 2 => some .directory
  | 3 => some .characterDev
  | 4 => some .blockDev
  | 5 => some .fifo
  | 6 => some .socket
  | 7 => some .symlink
  | 0xDE => some .checkSum
  | _ => none

/-- `de as u8` -/
def toU8 : Ext4De → Nat
  | .unknown => 0
  | .regularFile => 1
  | .directory => 2
  | .characterDev => 3
  | .blockDev => 4
  | .fifo => 5
  | .socket => 6
  | .symlink => 7
  | .checkSum => 0xDE

def fromFileType : FileType → Ext4De
  | .regularFile => .regularFile
  | .directory => .directory
  | .characterDev => .characterDev
  | .blockDev => .blockDev
  | .fifo => .fifo
  | .socket => .socket
  | .symlink => .symlink
  | .unknown => .unknown

def intoFileType : Ext4De → FileType
  | .regularFile => .regularFile
  | .directory => .directory
  | .characterDev => .characterDev
  | .blockDev => .blockDev
  | .fifo => .fifo
  | .socket => .socket
  | .symlink => .symlink
  | _ => .unknown

theorem toU8_lt (de : Ext4De) : de.toU8 < 2 ^ 8 := by cases de <;> decide

@[simp] theorem tryFrom_toU8 (de : Ext4De) : tryFrom de.toU8 = some de := by cases de <;> rfl

/-- Only the type of a checksum record does not survive the way through `FileType`. -/
theorem fromFileType_intoFileType {de : Ext4De} :
    fromFileType de.intoFileType = de ↔ de ≠ .checkSum := by
  cases de <;> decide

end Ext4De

/-! ## Names -/

/-- `core::str::from_utf8` accepts these bytes. -/
def utf8Valid (name : Bytes) : Bool := decide (ByteArray.IsValidUTF8 name.toByteArray)

/-- The bytes of a `&str` are accepted. -/
theorem utf8Valid_of_chars (cs : List Char) : utf8Valid (cs.flatMap String.utf8EncodeChar) = true :=
  decide_eq_true (ByteArray.isValidUTF8_utf8Encode)

/-- `(11 + name_len) & !3`: the size of a record with a name of this length. -/
def entrySize (nameLen : Nat) : Nat := (11 + nameLen) / 4 * 4

theorem entrySize_spec (n : Nat) :
    8 + n ≤ entrySize n ∧ entrySize n ≤ 11 + n ∧ 4 ∣ entrySize n := by
  unfold entrySize
  refine ⟨by omega, by omega, Nat.dvd_mul_left 4 _⟩

/-- An entry taken out of its record (`htree/node.rs`, `DirEntry`). -/
structure DirEntry where
  inode : Nat
  name : Bytes
  ty : Option Ext4De
  deriving DecidableEq, Repr

namespace DirectoryEntryDispatch

/-! ## Reading a record -/

def getInode (b : Bytes) (pos : Nat) : Nat := ByteRw.readU32 b pos

def getEntryLen (b : Bytes) (pos : Nat) : Nat := ByteRw.readU16 b (pos + 4)

def getNameLen (v2 : Bool) (b : Bytes) (pos : Nat) : Nat :=
  if v2 then ByteRw.readU8 b (pos + 6) else ByteRw.readU16 b (pos + 6)

/-- `[8..8 + name_len]` -/
def nameBytes (v2 : Bool) (b : Bytes) (pos : Nat) : Bytes :=
  LeBytes.slice b (pos + 8) (getNameLen v2 b pos)

/-- `get_name`, `get_name_for_sort`: the slice and the `unwrap` of `from_utf8`
    panic. -/
def getName (v2 : Bool) (b : Bytes) (pos : Nat) : Except Fault Bytes :=
  if pos + 8 + getNameLen v2 b pos ≤ b.length ∧ utf8Valid (nameBytes v2 b pos) then
    .ok (nameBytes v2 b pos)
  else .error .panic

def getFileType (v2 : Bool) (b : Bytes) (pos : Nat) : Option Ext4De :=
  if v2 then Ext4De.tryFrom (ByteRw.readU8 b (pos + 7)) else none

/-! ## Writing a record -/

def setInode (b : Bytes) (pos inode : Nat) : Bytes := ByteRw.writeU32 b pos inode

/-- The length is cut to 16 bits where the source says `as u16`. -/
def setEntryLen (b : Bytes) (pos entryLen : Nat) : Bytes := ByteRw.writeU16 b (pos + 4) entryLen

/-- `set_name`: a length that does not fit its field and a name that passes the
    end of the block panic. -/
def setName (v2 : Bool) (b : Bytes) (pos : Nat) (name : Bytes) : Except Fault Bytes :=
  if name.length < (if v2 then 2 ^ 8 else 2 ^ 16) ∧ pos + 8 + name.length ≤ b.length then
    .ok (LeBytes.splice
      (if v2 then ByteRw.writeU8 b (pos + 6) name.length
        else ByteRw.writeU16 b (pos + 6) name.length) (pos + 8) name)
  else .error .panic

/-- `set_type`; V2 unwraps the type. -/
def setType (v2 : Bool) (b : Bytes) (pos : Nat) (de : Option Ext4De) : Except Fault Bytes :=
  if v2 then
    match de with
    | some de => .ok (ByteRw.writeU8 b (pos + 7) de.toU8)
    | none => .error .panic
  else .ok b

/-- `split`: cut the record down to the size its name needs and return the rest
    as a record of its own, with only its length set. -/
def split (v2 : Bool) (b : Bytes) (pos : Nat) : Except Fault (Bytes × Nat) :=
  let entryLen := getEntryLen b pos
  let newLen := entrySize (getNameLen v2 b pos)
  if newLen ≤ entryLen ∧ pos + newLen + 6 ≤ b.length then
    .ok (setEntryLen (setEntryLen b pos newLen) (pos + newLen) (entryLen - newLen), pos + newLen)
  else .error .panic

end DirectoryEntryDispatch
end RustExt4.Directory
