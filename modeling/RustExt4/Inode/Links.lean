/-
  RustExt4.Inode.Links

  The link count of an inode record under the setters of its other fields.
-/
import RustExt4.Inode.Raw

namespace RustExt4.Inode

open LeBytes (SameOn)

/-- The smallest inode record has 128 bytes. -/
def IsRecord (raw : Bytes) : Prop := 0x80 ≤ raw.length

/-- A record after a change that leaves its link count alone. -/
structure SameLinks (raw raw' : Bytes) : Prop where
  length : raw.length ≤ raw'.length
  same : SameOn raw' raw 0x1A 0x1C

namespace SameLinks

variable {raw raw' raw'' : Bytes}

theorem refl (raw : Bytes) : SameLinks raw raw := ⟨Nat.le_refl _, SameOn.refl raw _ _⟩

theorem trans (h : SameLinks raw raw') (h' : SameLinks raw' raw'') : SameLinks raw raw'' :=
  ⟨h.length.trans h'.length, h'.same.trans h.same⟩

theorem isRecord (h : SameLinks raw raw') (hraw : IsRecord raw) : IsRecord raw' :=
  Nat.le_trans hraw h.length

theorem linksCount (h : SameLinks raw raw') :
    Manipulator.linksCount raw' = Manipulator.linksCount raw := ByteRw.readU16_congr h.same

/-- A write outside of the link count. -/
theorem writeU32 {p v : Nat} (hp : p + 4 ≤ 0x1A ∨ 0x1C ≤ p) :
    SameLinks raw (ByteRw.writeU32 raw p v) :=
  ⟨(ByteRw.length_writeU32 ..).ge, ByteRw.writeU32_sameOn (by omega)⟩

theorem writeU16 {p v : Nat} (hp : p + 2 ≤ 0x1A ∨ 0x1C ≤ p) :
    SameLinks raw (ByteRw.writeU16 raw p v) :=
  ⟨(ByteRw.length_writeU16 ..).ge, ByteRw.writeU16_sameOn (by omega)⟩

theorem splice {p : Nat} {xs : List UInt8} (hraw : IsRecord raw) (hp : 0x1C ≤ p)
    (hp' : p ≤ 0x80) : SameLinks raw (LeBytes.splice raw p xs) := by
  unfold IsRecord at hraw
  refine ⟨?_, fun q h1 h2 => ?_⟩
  · simp only [LeBytes.splice, List.length_append, List.length_take, List.length_drop]
    omega
  · simp only [List.getD_eq_getElem?_getD, LeBytes.splice]
    rw [List.append_assoc, List.getElem?_append_left (by rw [List.length_take]; omega),
      List.getElem?_take_of_lt (by omega)]

theorem writeWords (p : Nat) (vs : List Nat) (hp : 0x1C ≤ p) :
    SameLinks raw (Manipulator.writeWords raw p vs) := by
  induction vs generalizing raw p with
  | nil => exact .refl raw
  | cons v vs ih => exact (writeU32 (Or.inr hp)).trans (ih (p + 4) (by omega))

theorem setCompoundU64 {lo hi v : Nat} {useHi : Bool}
    (h : Inode.setCompoundU64 raw lo hi useHi v = some raw') (hlo : lo + 4 ≤ 0x1A ∨ 0x1C ≤ lo)
    (hhi : 0x1C ≤ hi) : SameLinks raw raw' := by
  unfold Inode.setCompoundU64 at h
  split at h
  · cases h
    exact (writeU32 (Or.inr hhi)).trans (writeU32 hlo)
  · split at h
    · cases h
      exact writeU32 hlo
    · cases h

theorem extentHeader (entriesCnt maxEntriesCnt depth : Nat) :
    SameLinks raw (ByteRw.writeU16 (ByteRw.writeU16 (ByteRw.writeU16 (ByteRw.writeU16
      (ByteRw.writeU16 raw 0x28 0xF30A) 0x2a entriesCnt) 0x2c maxEntriesCnt) 0x2e depth) 0x30 0) :=
  ((((writeU16 (by decide)).trans (writeU16 (by decide))).trans
    (writeU16 (by decide))).trans (writeU16 (by decide))).trans (writeU16 (by decide))

theorem setAddresses {sb : SuperBlock} {mode : RawInodeAddressingMode} (hraw : IsRecord raw)
    (h : Manipulator.setAddresses sb raw mode = some raw') : SameLinks raw raw' := by
  unfold Manipulator.setAddresses at h
  dsimp only at h
  split at h
  · cases h
  · split at h
    next entriesCnt maxEntriesCnt depth b _ =>
      cases h
      have hheader := @extentHeader raw entriesCnt maxEntriesCnt depth
      exact hheader.trans (splice (hheader.isRecord hraw) (by decide) (by decide))
    · cases h
      exact writeWords _ _ (by decide)
    · cases h

end SameLinks

/-! ## The fields -/

variable {sb : SuperBlock} {raw raw' : Bytes}

theorem sameLinks_setSize {v : Nat} (h : Manipulator.setSize sb raw v = some raw') :
    SameLinks raw raw' := .setCompoundU64 h (by decide) (by decide)

theorem sameLinks_setBlocks {v : Nat} (h : Manipulator.setBlocks sb raw v = some raw') :
    SameLinks raw raw' := .setCompoundU64 h (by decide) (by decide)

theorem sameLinks_setDeletionTime (v : Nat) :
    SameLinks raw (Manipulator.setDeletionTime raw v) := .writeU32 (by decide)

theorem linksCount_setLinksCount {v : Nat} (hraw : IsRecord raw) (hv : v < 2 ^ 16) :
    Manipulator.linksCount (Manipulator.setLinksCount raw v) = v := by
  unfold IsRecord at hraw
  unfold Manipulator.linksCount Manipulator.setLinksCount
  rw [ByteRw.readU16_writeU16 (by omega), Nat.mod_eq_of_lt hv]

theorem isRecord_setLinksCount {v : Nat} (hraw : IsRecord raw) :
    IsRecord (Manipulator.setLinksCount raw v) := by
  unfold IsRecord Manipulator.setLinksCount at *
  rwa [ByteRw.length_writeU16]

theorem linksCount_replicate (n : Nat) : Manipulator.linksCount (List.replicate n 0) = 0 := by
  have hbyte : ∀ p, LeBytes.byteAt (List.replicate n 0) p = 0 := by
    intro p
    unfold LeBytes.byteAt
    rw [List.getD_eq_getElem?_getD, List.getElem?_replicate]
    split <;> rfl
  simp only [Manipulator.linksCount, ByteRw.readU16, LeBytes.readLe, hbyte]

/-- A new record has no link. -/
theorem linksCount_init {ftype : FileType} (hraw : IsRecord raw)
    (h : Manipulator.init sb raw ftype = some raw') :
    IsRecord raw' ∧ Manipulator.linksCount raw' = 0 := by
  unfold Manipulator.init at h
  dsimp only at h
  obtain ⟨mode, _, h⟩ := Option.bind_eq_some_iff.mp h
  obtain ⟨type, _, h⟩ := Option.bind_eq_some_iff.mp h
  obtain ⟨raw1, hmode, h⟩ := Option.bind_eq_some_iff.mp h
  obtain ⟨raw2, haddr, rfl⟩ := Option.map_eq_some_iff.mp h
  have hzero : IsRecord (List.replicate raw.length 0 : Bytes) := by
    rwa [IsRecord, List.length_replicate]
  have h1 : SameLinks (List.replicate raw.length 0) raw1 := by
    unfold setCompoundU32 at hmode
    split at hmode
    · cases hmode
      exact (SameLinks.writeU16 (by decide)).trans (.writeU16 (by decide))
    · split at hmode
      · cases hmode
        exact .writeU16 (by decide)
      · cases hmode
  have h2 : SameLinks raw1 raw2 :=
    (SameLinks.writeU32 (by decide)).trans
      (.setAddresses ((SameLinks.writeU32 (by decide)).isRecord (h1.isRecord hzero)) haddr)
  have h12 := h1.trans h2
  have hall : SameLinks (List.replicate raw.length 0)
      (if 0x80 < sb.inodeSize then ByteRw.writeU16 raw2 0x80 sb.wantExtraIsize else raw2) := by
    split
    · exact h12.trans (.writeU16 (by decide))
    · exact h12
  exact ⟨hall.isRecord hzero, hall.linksCount.trans (linksCount_replicate _)⟩

end RustExt4.Inode
