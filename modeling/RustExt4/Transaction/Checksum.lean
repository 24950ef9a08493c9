/-
  RustExt4.Transaction.Checksum

  The checksum of an inode record over a commit.  `Inode::from_bytes` refuses a record whose
  checksum does not match.  The operations of a commit store fields of the record and leave
  its checksum as it was, while those on group descriptors and on index nodes end with a new
  one.  So the record is accepted afterwards only where the stores do not show in the
  checksum: never after one link more, or one less of several, and after the other
  operations where their bytes are those of the record already, or collide.
-/
import RustExt4.Transaction.Batch
import RustExt4.Transaction.InodeOps

namespace RustExt4.Transaction

open Inode (IsRecord RawInodeAddressingMode featureMetadataCsum featureHugeFile
  Manipulator.linksCount Manipulator.setLinksCount Manipulator.deletionTime
  Manipulator.setDeletionTime Manipulator.calculateChecksum Manipulator.checksum
  Manipulator.generation Manipulator.detectType Manipulator.getBlocks)
open LeBytes (leBytes slice splice SameOn)
open TableCrc (diff run)

/-! ## The test -/

/-- The checksum test of `Inode::from_bytes`.  It slices the record behind the high half of
    the checksum; a shorter record panics there. -/
def PassesChecksum (sb : SuperBlock) (uuid raw : Bytes) (ino : Nat) : Prop :=
  0x84 ≤ raw.length ∧
    (Manipulator.calculateChecksum sb uuid raw ino).all (· == Manipulator.checksum raw) = true

/-- The bytes of a record that the checksum is over. -/
def covered (raw : Bytes) : Bytes :=
  raw.take 0x7C ++ leBytes 2 0 ++ slice raw 0x7E 4 ++ leBytes 2 0 ++ raw.drop 0x84

/-- The checksum in front of the bytes of the record. -/
def seed (uuid : Bytes) (ino generation : Nat) : Nat :=
  run crc32cTab Crc32c.default (uuid ++ leBytes 4 ino ++ leBytes 4 generation)

section Test
variable {sb : SuperBlock} {uuid raw raw' : Bytes} {ino : Nat}

theorem calculateChecksum_eq (hcsum : containsFlag sb.featuresReadonly featureMetadataCsum = true) :
    Manipulator.calculateChecksum sb uuid raw ino =
      some (run crc32cTab (seed uuid ino (Manipulator.generation raw)) (covered raw)) := by
  rw [Manipulator.calculateChecksum, if_pos hcsum]
  simp only [Crc32c.write_eq_run, seed, covered, TableCrc.run_append]

/-- A record is what the checksum is over and its two halves of the checksum. -/
theorem record_parts (raw : Bytes) :
    raw = raw.take 0x7C ++ slice raw 0x7C 2 ++ slice raw 0x7E 4 ++ slice raw 0x82 2 ++
      raw.drop 0x84 := by
  have h1 := List.take_append_drop 0x7C raw
  have h2 := List.take_append_drop 2 (raw.drop 0x7C)
  have h3 := List.take_append_drop 4 (raw.drop 0x7E)
  have h4 := List.take_append_drop 2 (raw.drop 0x82)
  rw [List.drop_drop] at h2 h3 h4
  rw [List.append_assoc, List.append_assoc, List.append_assoc]
  unfold slice
  rw [h4, h3, h2, h1]

theorem diff_covered (hlen : raw'.length = raw.length) (h84 : 0x84 ≤ raw.length)
    (hsum : SameOn raw' raw 0x7C 0x84) : diff (covered raw) (covered raw') = diff raw raw' := by
  have hlo : slice raw' 0x7C 2 = slice raw 0x7C 2 :=
    LeBytes.slice_congr (hsum.mono (by decide) (by decide)) (by omega) (by omega)
  have hhi : slice raw' 0x82 2 = slice raw 0x82 2 :=
    LeBytes.slice_congr (hsum.mono (by decide) (by decide)) (by omega) (by omega)
  have htake : (raw.take 0x7C).length = (raw'.take 0x7C).length := by
    rw [List.length_take, List.length_take, hlen]
  have hmid : (slice raw 0x7E 4).length = (slice raw' 0x7E 4).length := by
    rw [LeBytes.length_slice (by omega), LeBytes.length_slice (by omega)]
  have hzeros : ∀ p, p + 2 ≤ 0x84 →
      diff (slice raw p 2) (slice raw p 2) = diff (leBytes 2 0) (leBytes 2 0) := by
    intro p hp
    rw [TableCrc.diff_self, TableCrc.diff_self, LeBytes.length_slice (by omega),
      LeBytes.length_leBytes]
  conv => rhs; rw [record_parts raw, record_parts raw', hlo, hhi]
  unfold covered
  rw [TableCrc.diff_append (by simp [htake, hmid]), TableCrc.diff_append (by simp [htake, hmid]),
    TableCrc.diff_append (by simp [htake]), TableCrc.diff_append htake,
    TableCrc.diff_append (by simp [htake, hmid]), TableCrc.diff_append (by simp [htake, hmid]),
    TableCrc.diff_append (by simp [htake]), TableCrc.diff_append htake, hzeros _ (by decide),
    hzeros _ (by decide)]

/-- A record with the checksum and the generation of one that passes. -/
theorem passesChecksum_iff (hcsum : containsFlag sb.featuresReadonly featureMetadataCsum = true)
    (hpass : PassesChecksum sb uuid raw ino) (hlen : raw'.length = raw.length)
    (hgen : SameOn raw' raw 0x64 0x68) (hsum : SameOn raw' raw 0x7C 0x84) :
    PassesChecksum sb uuid raw' ino ↔ run crc32cTab 0 (diff raw raw') = 0 := by
  obtain ⟨h84, htest⟩ := hpass
  have hgen' : Manipulator.generation raw' = Manipulator.generation raw :=
    ByteRw.readU32_congr hgen
  have hsum' : Manipulator.checksum raw' = Manipulator.checksum raw := by
    rw [Manipulator.checksum, hlen, ByteRw.readU16_congr (hsum.mono (by decide) (by decide)),
      ByteRw.readU16_congr (hsum.mono (by decide) (by decide)), Manipulator.checksum]
  have hlen' : (covered raw).length = (covered raw').length := by
    simp [covered, slice, hlen]
  rw [calculateChecksum_eq hcsum, Option.all_some, beq_iff_eq] at htest
  rw [PassesChecksum, calculateChecksum_eq hcsum, Option.all_some, beq_iff_eq, hgen', hsum',
    ← htest, hlen, ← diff_covered hlen h84 hsum, ← TableCrc.run_eq_iff crc32cTab_proper hlen']
  exact ⟨fun h => h.2.symm, fun h => ⟨h84, h.symm⟩⟩

end Test

/-! ## The stores of an operation -/

/-- The record after stores, each a place and the bytes for it. -/
def storeAll (raw : Bytes) (stores : List (Nat × Bytes)) : Bytes :=
  stores.foldl (fun b s => splice b s.1 s.2) raw

/-- The stores do not show in the checksum. -/
def Unseen (raw : Bytes) (stores : List (Nat × Bytes)) : Prop :=
  run crc32cTab 0 (diff raw (storeAll raw stores)) = 0

/-- The stores of a two-part field. -/
def compoundStores (lo hi : Nat) (useHi : Bool) (v : Nat) : List (Nat × Bytes) :=
  (if useHi then [(hi, leBytes 4 (splitU64 v).1)] else []) ++ [(lo, leBytes 4 (splitU64 v).2)]

/-- The stores of `set_addresses`. -/
def addressStores : RawInodeAddressingMode → List (Nat × Bytes)
  | .legacy addresses => [(0x28, addresses.flatMap (leBytes 4))]
  | .extent entriesCnt maxEntriesCnt depth b =>
    [(0x28, leBytes 2 0xF30A), (0x2a, leBytes 2 entriesCnt), (0x2c, leBytes 2 maxEntriesCnt),
      (0x2e, leBytes 2 depth), (0x30, leBytes 2 0), (0x34, b)]

/-- What a change of the orphan link has to be for the CRC-32C not to see it together with
    the loss of the last link. -/
def linkCollision : Nat := 0x780D5A4D

namespace InodeOps

/-- What the operation stores in its record. -/
def stores (sb : DescriptorSb) (lastOrphan : Nat) (raw : Bytes) : InodeOps → List (Nat × Bytes)
  | .addLink _ => [(0x1A, leBytes 2 (Manipulator.linksCount raw + 1))]
  | .rmLink _ =>
    (if Manipulator.linksCount raw = 1 then [(0x14, leBytes 4 lastOrphan)] else []) ++
      [(0x1A, leBytes 2 (Manipulator.linksCount raw - 1))]
  | .init _ _ => []
  | .setSize _ size address =>
    compoundStores 0x4 0x6C
      (decide (0 < sb.revLevel) && Manipulator.detectType raw == .regularFile) size ++
      addressStores address
  | .updateOrphanLink _ succ => [(0x14, leBytes 4 succ)]
  | .setBlock _ cnt =>
    compoundStores 0x1C 0x74 (containsFlag sb.featuresReadonly featureHugeFile)
      ((Manipulator.getBlocks sb.toSuperBlock raw + sb.blkSize / 512 * (cnt % 2 ^ 64).toNat) %
        2 ^ 64)

/-- Where the checksum of the record goes on to match.  An operation that changes one short
    field keeps it by changing nothing. -/
def KeepsChecksum (sb : DescriptorSb) (lastOrphan : Nat) (raw : Bytes) (op : InodeOps) : Prop :=
  match op with
  | .addLink _ => False
  | .rmLink _ => Manipulator.linksCount raw = 1 ∧
    (Manipulator.deletionTime raw ^^^ lastOrphan) % 2 ^ 32 = linkCollision
  | .updateOrphanLink _ succ => Manipulator.deletionTime raw = succ % 2 ^ 32
  | .setBlock _ cnt =>
    if containsFlag sb.featuresReadonly featureHugeFile then
      Unseen raw (op.stores sb lastOrphan raw)
    else (Manipulator.getBlocks sb.toSuperBlock raw + sb.blkSize / 512 * (cnt % 2 ^ 64).toNat) %
      2 ^ 64 = Manipulator.getBlocks sb.toSuperBlock raw
  | .init _ _ | .setSize _ _ _ => Unseen raw (op.stores sb lastOrphan raw)

end InodeOps

/-- The place is neither the generation nor the checksum of the record. -/
def Aside (s : Nat × Bytes) : Prop :=
  s.1 + s.2.length ≤ 0x64 ∨ 0x68 ≤ s.1 ∧ s.1 + s.2.length ≤ 0x7C

section Stores
variable {raw raw' : Bytes} {stores : List (Nat × Bytes)}

theorem storeAll_append (raw : Bytes) (l r : List (Nat × Bytes)) :
    storeAll raw (l ++ r) = storeAll (storeAll raw l) r := List.foldl_append

theorem storeAll_frame (h84 : 0x84 ≤ raw.length) (haside : ∀ s ∈ stores, Aside s) :
    (storeAll raw stores).length = raw.length ∧ SameOn (storeAll raw stores) raw 0x64 0x68 ∧
      SameOn (storeAll raw stores) raw 0x7C 0x84 := by
  induction stores generalizing raw with
  | nil => exact ⟨rfl, SameOn.refl _ _ _, SameOn.refl _ _ _⟩
  | cons s l ih =>
      have hs : Aside s := haside s List.mem_cons_self
      unfold Aside at hs
      have hfit : s.1 + s.2.length ≤ raw.length := by omega
      have hlen := LeBytes.length_splice hfit
      obtain ⟨hl, hgen, hsum⟩ := ih (by rw [hlen]; exact h84)
        fun x hx => haside x (List.mem_cons_of_mem _ hx)
      exact ⟨hl.trans hlen, hgen.trans (LeBytes.splice_sameOn hfit (by omega)),
        hsum.trans (LeBytes.splice_sameOn hfit (by omega))⟩

theorem setCompoundU64_stores {lo hi v : Nat} {useHi : Bool}
    (h : Inode.setCompoundU64 raw lo hi useHi v = some raw') (hlo : lo + 4 ≤ raw.length)
    (hhi : hi + 4 ≤ raw.length) : raw' = storeAll raw (compoundStores lo hi useHi v) := by
  unfold Inode.setCompoundU64 at h
  split at h
  next huse =>
    obtain rfl := Option.some.inj h
    have hhigh := @LeBytes.writeLe_eq_splice raw hi 4 (splitU64 v).1 hhi
    have hlow := @LeBytes.writeLe_eq_splice (LeBytes.writeLe raw hi 4 (splitU64 v).1) lo 4
      (splitU64 v).2 (by rw [LeBytes.length_writeLe]; exact hlo)
    rw [compoundStores, if_pos huse]
    show LeBytes.writeLe (LeBytes.writeLe raw hi 4 _) lo 4 _ = splice (splice raw hi _) lo _
    rw [hlow, hhigh]
  next huse =>
    split at h
    · obtain rfl := Option.some.inj h
      rw [compoundStores, if_neg huse]
      exact LeBytes.writeLe_eq_splice hlo
    · cases h

theorem writeU16_stores (p v : Nat) (h : p + 2 ≤ raw.length) :
    ByteRw.writeU16 raw p v = splice raw p (leBytes 2 v) := LeBytes.writeLe_eq_splice h

theorem writeU32_stores (p v : Nat) (h : p + 4 ≤ raw.length) :
    ByteRw.writeU32 raw p v = splice raw p (leBytes 4 v) := LeBytes.writeLe_eq_splice h

theorem writeWords_stores (p : Nat) (vs : List Nat) (h : p + 4 * vs.length ≤ raw.length) :
    Inode.Manipulator.writeWords raw p vs = splice raw p (vs.flatMap (leBytes 4)) := by
  induction vs generalizing raw p with
  | nil => exact LeBytes.splice_nil.symm
  | cons v vs ih =>
      rw [List.length_cons] at h
      have hfit : p + (leBytes 4 v).length ≤ raw.length := by
        rw [LeBytes.length_leBytes]
        omega
      rw [Inode.Manipulator.writeWords, ih (p + 4) (by rw [ByteRw.length_writeU32]; omega),
        writeU32_stores p v (by omega), List.flatMap_cons, LeBytes.splice_append hfit,
        LeBytes.length_leBytes]

theorem setAddresses_stores {sb : SuperBlock} {mode : RawInodeAddressingMode} (hwf : mode.WF)
    (hraw : IsRecord raw) (h : Inode.Manipulator.setAddresses sb raw mode = some raw') :
    raw' = storeAll raw (addressStores mode) := by
  unfold IsRecord at hraw
  unfold Inode.Manipulator.setAddresses at h
  dsimp only at h
  split at h
  · cases h
  · split at h
    next entriesCnt maxEntriesCnt depth b _ =>
      obtain rfl := Option.some.inj h
      -- The header, from its last word back to its first.
      rw [writeU16_stores 0x30 0 (by simp; omega), writeU16_stores 0x2e depth (by simp; omega),
        writeU16_stores 0x2c maxEntriesCnt (by simp; omega),
        writeU16_stores 0x2a entriesCnt (by simp; omega), writeU16_stores 0x28 0xF30A (by omega)]
      rfl
    next addresses _ =>
      obtain rfl := Option.some.inj h
      obtain ⟨hlen, -⟩ := hwf
      exact writeWords_stores 0x28 addresses (by omega)
    next => cases h

theorem aside_leBytes {p n v : Nat} (h : p + n ≤ 0x64 ∨ 0x68 ≤ p ∧ p + n ≤ 0x7C) :
    Aside (p, leBytes n v) := by
  unfold Aside
  rw [LeBytes.length_leBytes]
  exact h

theorem aside_compoundStores {lo hi v : Nat} {useHi : Bool} (hlo : lo + 4 ≤ 0x64)
    (hhi : 0x68 ≤ hi ∧ hi + 4 ≤ 0x7C) : ∀ s ∈ compoundStores lo hi useHi v, Aside s := by
  intro s hs
  unfold compoundStores at hs
  rcases List.mem_append.mp hs with hs | hs
  · split at hs
    · obtain rfl := List.mem_singleton.mp hs
      exact aside_leBytes (Or.inr hhi)
    · cases hs
  · obtain rfl := List.mem_singleton.mp hs
    exact aside_leBytes (Or.inl hlo)

theorem aside_addressStores {mode : RawInodeAddressingMode} (hwf : mode.WF) :
    ∀ s ∈ addressStores mode, Aside s := by
  intro s hs
  cases mode with
  | legacy addresses =>
      obtain rfl := List.mem_singleton.mp hs
      have hlen : (addresses.flatMap (leBytes 4)).length = 4 * addresses.length := by
        simp [List.length_flatMap, Nat.mul_comm]
      left
      rw [hlen, hwf.1]
  | extent entriesCnt maxEntriesCnt depth b =>
      have hb := hwf.2.2.2
      simp only [addressStores, List.mem_cons, List.not_mem_nil, or_false] at hs
      rcases hs with rfl | rfl | rfl | rfl | rfl | rfl
      all_goals left
      all_goals simp [hb]

/-- A short store that does not show changes nothing. -/
theorem unseen_single {p : Nat} {xs : Bytes} (hp : p + xs.length ≤ raw.length)
    (hlen : xs.length ≤ 4) : Unseen raw [(p, xs)] ↔ splice raw p xs = raw :=
  TableCrc.run_diff_splice_short crc32cTab_proper hp hlen

/-- A store of a word shows unless the word is there already. -/
theorem word_unseen {p v : Nat} (hp : p + 4 ≤ raw.length) :
    Unseen raw [(p, leBytes 4 v)] ↔ ByteRw.readU32 raw p = v % 2 ^ 32 := by
  rw [unseen_single (by simpa using hp) (by simp)]
  constructor
  · intro hsame
    have hread := @ByteRw.readU32_writeU32 raw p v hp
    rwa [writeU32_stores p v hp, hsame] at hread
  · intro hread
    have hbytes : leBytes 4 v = slice raw p 4 := by
      rw [← LeBytes.leBytes_mod, ← LeBytes.leBytes_readLe hp]
      exact congrArg (leBytes 4) hread.symm
    rw [hbytes]
    exact LeBytes.splice_slice raw hp

end Stores

variable {sb : DescriptorSb} {d d' : Disk} {op : InodeOps} {ino : Nat} {uuid raw raw' : Bytes}

/-- An operation on an existing inode makes its stores. -/
theorem InodeOps.OnRecord.stores {lastOrphan : Nat} (h : op.OnRecord sb lastOrphan raw raw')
    (hraw : IsRecord raw) (hwf : op.WF) (hinit : ∀ i ftype, op ≠ .init i ftype) :
    raw' = storeAll raw (op.stores sb lastOrphan raw) ∧
      ∀ s ∈ op.stores sb lastOrphan raw, Aside s := by
  have hlen : 128 ≤ raw.length := hraw
  cases op with
  | addLink i =>
      obtain ⟨-, rfl⟩ := h
      refine ⟨writeU16_stores 0x1A _ (by omega), List.forall_mem_singleton.mpr ?_⟩
      exact aside_leBytes (by decide)
  | rmLink i =>
      obtain ⟨-, rfl⟩ := h
      unfold InodeOps.stores
      split
      next hone =>
        constructor
        · show ByteRw.writeU16 (ByteRw.writeU32 raw 0x14 lastOrphan) 0x1A _ = _
          rw [writeU16_stores 0x1A _ (by simp; omega), writeU32_stores 0x14 _ (by omega)]
          rfl
        · refine List.forall_mem_cons.mpr ⟨?_, List.forall_mem_singleton.mpr ?_⟩
          · exact aside_leBytes (by decide)
          · exact aside_leBytes (by decide)
      next hmore =>
        refine ⟨writeU16_stores 0x1A _ (by omega), List.forall_mem_singleton.mpr ?_⟩
        exact aside_leBytes (by decide)
  | init i ftype => exact absurd rfl (hinit i ftype)
  | setSize i size address =>
      obtain ⟨raw1, hsize, haddr⟩ := h
      have h1 := (Inode.sameLinks_setSize hsize).isRecord hraw
      constructor
      · rw [setAddresses_stores hwf.2 h1 haddr,
          setCompoundU64_stores hsize (by omega) (by omega), ← storeAll_append]
        rfl
      · intro s hs
        rcases List.mem_append.mp hs with hs | hs
        · exact aside_compoundStores (by decide) (by decide) s hs
        · exact aside_addressStores hwf.2 s hs
  | updateOrphanLink pred succ =>
      obtain rfl := h
      refine ⟨writeU32_stores 0x14 _ (by omega), List.forall_mem_singleton.mpr ?_⟩
      exact aside_leBytes (by decide)
  | setBlock i cnt =>
      exact ⟨setCompoundU64_stores h (by omega) (by omega),
        aside_compoundStores (by decide) (by decide)⟩

/-- A store of another link count shows. -/
theorem linksCount_seen {v : Nat} (hraw : IsRecord raw) (hv : v < 2 ^ 16)
    (hne : v ≠ Manipulator.linksCount raw) : ¬ Unseen raw [(0x1A, leBytes 2 v)] := by
  have hlen : 128 ≤ raw.length := hraw
  intro hunseen
  have hsame := (unseen_single (by simp; omega) (by simp)).mp hunseen
  have hread := Inode.linksCount_setLinksCount hraw hv
  rw [Manipulator.setLinksCount, writeU16_stores 0x1A v (by omega), hsame] at hread
  exact hne hread.symm

/-- The orphan link and the link count that goes with the last link, as one store. -/
theorem storeAll_lastLink {v : Nat} (hraw : IsRecord raw) :
    storeAll raw [(0x14, leBytes 4 v), (0x1A, leBytes 2 0)] =
      splice raw 0x14 (leBytes 4 v ++ (slice raw 0x18 2 ++ leBytes 2 0)) := by
  have hlen : 128 ≤ raw.length := hraw
  have hfit : 0x14 + (leBytes 4 v).length ≤ raw.length := by
    rw [LeBytes.length_leBytes]
    omega
  have hsplice : (splice raw 0x14 (leBytes 4 v)).length = raw.length := LeBytes.length_splice hfit
  -- The two bytes between them are written over themselves.
  have hbetween : slice raw 0x18 2 = slice (splice raw 0x14 (leBytes 4 v)) 0x18 2 :=
    LeBytes.slice_congr (LeBytes.splice_sameOn hfit (Or.inr (by simp))).symm (by omega) (by omega)
  rw [LeBytes.splice_append hfit, LeBytes.length_leBytes, hbetween, LeBytes.splice_append
    (by rw [LeBytes.length_slice (by omega), hsplice]; omega), LeBytes.length_slice (by omega),
    LeBytes.splice_slice _ (by omega)]
  rfl

/-- The loss of the last link shows unless the orphan link changes by the one word that
    makes up for it. -/
theorem lastLink_unseen {v : Nat} (hraw : IsRecord raw) (hone : Manipulator.linksCount raw = 1) :
    Unseen raw [(0x14, leBytes 4 v), (0x1A, leBytes 2 0)] ↔
      (Manipulator.deletionTime raw ^^^ v) % 2 ^ 32 = linkCollision := by
  have hlen : 128 ≤ raw.length := hraw
  have hbetween : (slice raw 0x18 2).length = 2 := LeBytes.length_slice (by omega)
  have hslice : slice raw 0x14 8 =
      leBytes 4 (Manipulator.deletionTime raw) ++ (slice raw 0x18 2 ++ leBytes 2 1) := by
    have hlink : leBytes 2 1 = slice raw 0x1A 2 := by
      rw [← hone]
      exact LeBytes.leBytes_readLe (by omega)
    have htime : leBytes 4 (Manipulator.deletionTime raw) = slice raw 0x14 4 :=
      LeBytes.leBytes_readLe (by omega)
    rw [hlink, htime, ← LeBytes.slice_add, ← LeBytes.slice_add]
  have hword : TableCrc.run crc32cTab 0 (leBytes 4 linkCollision) =
      TableCrc.word (List.replicate 2 0 ++ leBytes 2 (1 ^^^ 0)) := by decide +kernel
  rw [Unseen, storeAll_lastLink hraw, TableCrc.run_diff_splice crc32cTab_proper
    (by simp [hbetween]; omega)]
  rw [show (leBytes 4 v ++ (slice raw 0x18 2 ++ leBytes 2 0)).length = 8 by simp [hbetween], hslice,
    TableCrc.diff_append (by simp), TableCrc.diff_append rfl, TableCrc.diff_leBytes,
    TableCrc.diff_leBytes, TableCrc.diff_self, hbetween, TableCrc.run_append,
    TableCrc.run_eq_zero_iff crc32cTab_proper (TableCrc.run_lt crc32cTab_proper.lt (by decide) _)
      (by simp), ← hword, TableCrc.run_inj crc32cTab_proper (by simp) (by simp),
    TableCrc.leBytes_inj]
  exact Iff.rfl

theorem InodeOps.unseen_iff {lastOrphan : Nat} (h : op.OnRecord sb lastOrphan raw raw')
    (hraw : IsRecord raw) :
    Unseen raw (op.stores sb lastOrphan raw) ↔ op.KeepsChecksum sb lastOrphan raw := by
  have hlen : 128 ≤ raw.length := hraw
  cases op with
  | addLink i =>
      have hseen := linksCount_seen hraw h.1 (Nat.succ_ne_self _)
      exact ⟨hseen, False.elim⟩
  | rmLink i =>
      have hpos : 0 < Manipulator.linksCount raw := h.1
      have hlt : Manipulator.linksCount raw < 2 ^ 16 := ByteRw.readU16_lt raw 0x1A
      by_cases hone : Manipulator.linksCount raw = 1
      · have hlast := @lastLink_unseen raw lastOrphan hraw hone
        rw [InodeOps.stores, if_pos hone, hone]
        exact hlast.trans (and_iff_right hone).symm
      · rw [InodeOps.stores, if_neg hone, List.nil_append]
        exact iff_of_false (linksCount_seen hraw (by omega) (by omega)) fun hkeeps => hone hkeeps.1
  | updateOrphanLink pred succ => exact word_unseen (show 0x14 + 4 ≤ raw.length by omega)
  | init i ftype => exact Iff.rfl
  | setSize i size address => exact Iff.rfl
  | setBlock i cnt =>
      unfold InodeOps.KeepsChecksum
      dsimp only
      split
      · exact Iff.rfl
      next hhuge =>
        -- Without the high part the new count is a word.
        have hcount : Manipulator.getBlocks sb.toSuperBlock raw = ByteRw.readU32 raw 0x1C := by
          rw [Manipulator.getBlocks, Inode.getCompoundU64, if_neg hhuge, mergeU32, Nat.zero_mul,
            Nat.zero_add]
        have hset := h
        simp only [InodeOps.OnRecord, Inode.Manipulator.setBlocks, Inode.setCompoundU64,
          if_neg hhuge] at hset
        have hlow : ∀ v, v < 2 ^ 64 → (splitU64 v).1 = 0 → (splitU64 v).2 % 2 ^ 32 = v := by
          intro v hv hhigh
          simp only [splitU64] at hhigh ⊢
          omega
        split at hset
        next hhigh =>
          rw [InodeOps.stores, compoundStores, if_neg hhuge, List.nil_append,
            word_unseen (by omega), hlow _ (Nat.mod_lt _ (by decide)) hhigh, hcount, eq_comm]
        next => cases hset

/-- After a commit's operation the record passes the test exactly where the stores do not
    show. -/
theorem passesChecksum_after_op_iff
    (hcsum : containsFlag sb.featuresReadonly featureMetadataCsum = true) (hwf : op.WF)
    (hinit : ∀ i ftype, op ≠ .init i ftype) (htarget : op.target = some ino)
    (hraw : d.inodes ino = some raw) (hpass : PassesChecksum sb.toSuperBlock uuid raw ino)
    (h : submitInodeOps sb d op = .ok d') (hraw' : d'.inodes ino = some raw') :
    PassesChecksum sb.toSuperBlock uuid raw' ino ↔ op.KeepsChecksum sb d.lastOrphan raw := by
  have hrec : IsRecord raw := Nat.le_trans (by decide) hpass.1
  rcases submitInodeOps_cases h with ⟨hnone, -⟩ | ⟨i, r, r', hi, hr, hon, hd'⟩
  · rw [hnone] at htarget
    cases htarget
  · obtain rfl : i = ino := Option.some.inj (hi.symm.trans htarget)
    obtain rfl : r = raw := Option.some.inj (hr.symm.trans hraw)
    rw [hd', Function.update_self] at hraw'
    obtain rfl := Option.some.inj hraw'
    obtain ⟨hstores, haside⟩ := hon.stores hrec hwf hinit
    obtain ⟨hlen, hgen, hsum⟩ := storeAll_frame hpass.1 haside
    rw [← InodeOps.unseen_iff hon hrec, Unseen, ← hstores]
    rw [← hstores] at hlen hgen hsum
    exact passesChecksum_iff hcsum hpass hlen hgen hsum

/-! ## A file with a valid checksum -/

/-- Records of 256 bytes with checksums. -/
def checksumSb : DescriptorSb :=
  { oneGroupSb with inodeSize := 256, featuresReadonly := featureMetadataCsum }

/-- Inode 12 is an empty file with one link, and its checksum is valid under the UUID of 16
    zeros. -/
def sealedFile : Bytes :=
  storeAll (List.replicate 256 0) [(0, leBytes 2 0x81A4), (0x1A, leBytes 2 1),
    (0x7C, leBytes 2 64390), (0x82, leBytes 2 17633)]

def sealedDisk : Disk := { twelveUsed with inodes := fun _ => some sealedFile }

theorem sealedFile_passes :
    PassesChecksum checksumSb.toSuperBlock (List.replicate 16 0) sealedFile 12 := by
  refine ⟨?_, ?_⟩
  · decide +kernel
  · decide +kernel

/-- The end of the orphan list is written over itself. -/
theorem passesChecksum_after_op_iff_sameLink : ∃ d' raw',
    submitInodeOps checksumSb sealedDisk (.updateOrphanLink 12 0) = .ok d' ∧
    d'.inodes 12 = some raw' ∧
    PassesChecksum checksumSb.toSuperBlock (List.replicate 16 0) raw' 12 := by
  obtain ⟨d', h⟩ := ok_of_isOk (x := submitInodeOps checksumSb sealedDisk (.updateOrphanLink 12 0))
    (by decide +kernel)
  rcases submitInodeOps_cases h with ⟨hnone, -⟩ | ⟨i, r, raw', hi, -, -, hd'⟩
  · cases hnone
  · obtain rfl : 12 = i := Option.some.inj hi
    have hraw' : d'.inodes 12 = some raw' := by rw [hd', Function.update_self]
    have hiff := @passesChecksum_after_op_iff checksumSb sealedDisk d' (.updateOrphanLink 12 0) 12
      (List.replicate 16 0) sealedFile raw' rfl trivial (fun _ _ => nofun) rfl rfl
      sealedFile_passes h hraw'
    refine ⟨d', raw', h, hraw', hiff.mpr ?_⟩
    show Manipulator.deletionTime sealedFile = 0 % 2 ^ 32
    decide +kernel

/-- A link more leaves the old checksum in the record. -/
theorem addLink_breaks_checksum : ¬ ∀ (sb : DescriptorSb) (d d' : Disk) (op : InodeOps)
    (ino : Nat) (uuid raw raw' : Bytes),
    containsFlag sb.featuresReadonly featureMetadataCsum = true → op.WF →
    (∀ i ftype, op ≠ .init i ftype) → op.target = some ino → d.inodes ino = some raw →
    PassesChecksum sb.toSuperBlock uuid raw ino → submitInodeOps sb d op = .ok d' →
    d'.inodes ino = some raw' → PassesChecksum sb.toSuperBlock uuid raw' ino := by
  intro hall
  obtain ⟨d', h⟩ := ok_of_isOk (x := submitInodeOps checksumSb sealedDisk (.addLink 12))
    (by decide +kernel)
  rcases submitInodeOps_cases h with ⟨hnone, -⟩ | ⟨i, r, raw', hi, hr, ⟨-, hon⟩, hd'⟩
  · cases hnone
  · obtain rfl : 12 = i := Option.some.inj hi
    obtain rfl : sealedFile = r := Option.some.inj hr
    have hpass := hall checksumSb sealedDisk d' (.addLink 12) 12 (List.replicate 16 0) sealedFile
      raw' rfl trivial (fun _ _ => nofun) rfl rfl sealedFile_passes h
      (by rw [hd', Function.update_self])
    have hbroken : (Manipulator.calculateChecksum checksumSb.toSuperBlock (List.replicate 16 0)
        (Manipulator.setLinksCount sealedFile (Manipulator.linksCount sealedFile + 1)) 12).all
          (· == Manipulator.checksum (Manipulator.setLinksCount sealedFile
            (Manipulator.linksCount sealedFile + 1))) = false := by decide +kernel
    rw [← hon] at hbroken
    exact absurd hpass.2 (by rw [hbroken]; decide)

end RustExt4.Transaction
