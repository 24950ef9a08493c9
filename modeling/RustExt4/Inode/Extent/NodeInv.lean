/-
  RustExt4.Inode.Extent.NodeInv

  What the writes to a node do to the entries it holds: `insert_at` at the end
  adds one entry, `replace_at` changes one, and the header of a new node holds
  none.  Everything else of the node stays.
-/
import RustExt4.Inode.Extent.Tree

namespace RustExt4.Inode.Extent

open LeBytes (SameOn Moved readLe_moved)

/-- The length field that is written for an extent. -/
def Leaf.lenField (l : Leaf) : Nat := if l.isInit then l.len else l.len ||| 0x8000

namespace ExtentHeader

variable {h h' : ExtentHeader} {d i k : Nat} {es : List Entry} {e : Entry}

/-- The entry is of the node's kind and is read back as it is written. -/
def Encodable (h : ExtentHeader) : Entry → Prop
  | .leaf l => h.depth = 0 ∧ l.block < 2 ^ 32 ∧ l.start < 2 ^ 48 ∧ l.lenField < 2 ^ 16 ∧
      h.decodeLen l.lenField = (l.len, l.isInit)
  | .internal i => 0 < h.depth ∧ i.block < 2 ^ 32 ∧ i.nextNode < 2 ^ 48

/-- An initialized extent of a positive length below 0x8000 is read back from every node. -/
theorem encodable_of_init {l : Leaf} (hd : h.depth = 0) (hb : l.block < 2 ^ 32)
    (hs : l.start < 2 ^ 48) (hi : l.isInit = true) (hl : l.len < 2 ^ 15) :
    h.Encodable (.leaf l) := by
  have hf : l.lenField = l.len := by rw [Leaf.lenField, if_pos hi]
  refine ⟨hd, hb, hs, by omega, ?_⟩
  rw [hf]
  cases h with
  | tree t => simp only [decodeLen, Nat.mod_eq_of_lt hl, hi, decide_eq_true hl]
  | node b => simp only [decodeLen, if_pos (Nat.le_of_lt hl), hi]

/-- The same node but for its entries and their number. -/
def Like : ExtentHeader → ExtentHeader → Prop
  | .tree t, .tree t' => t'.maxEntriesCnt = t.maxEntriesCnt ∧ t'.depth = t.depth ∧
      t'.b.length = t.b.length ∧ t'.cache = t.cache
  | .node b, .node b' => b'.length = b.length ∧ ByteRw.readU16 b' 0 = ByteRw.readU16 b 0 ∧
      ByteRw.readU16 b' 4 = ByteRw.readU16 b 4 ∧ ByteRw.readU16 b' 6 = ByteRw.readU16 b 6
  | _, _ => False

theorem Like.refl (h : ExtentHeader) : h.Like h := by
  cases h <;> simp [Like]

theorem Like.trans {h'' : ExtentHeader} (h1 : h.Like h') (h2 : h'.Like h'') : h.Like h'' := by
  cases h <;> cases h' <;> cases h'' <;> simp only [Like] at h1 h2 ⊢
  · obtain ⟨a, b, c, e⟩ := h1
    obtain ⟨a', b', c', e'⟩ := h2
    exact ⟨a'.trans a, b'.trans b, c'.trans c, e'.trans e⟩
  · obtain ⟨a, b, c, e⟩ := h1
    obtain ⟨a', b', c', e'⟩ := h2
    exact ⟨a'.trans a, b'.trans b, c'.trans c, e'.trans e⟩

theorem Like.depth (hl : h.Like h') : h'.depth = h.depth := by
  cases h <;> cases h' <;> simp only [Like] at hl
  · exact hl.2.1
  · exact hl.2.2.2

theorem Like.maxEntriesCnt (hl : h.Like h') : h'.maxEntriesCnt = h.maxEntriesCnt := by
  cases h <;> cases h' <;> simp only [Like] at hl
  · exact hl.1
  · exact hl.2.2.1

theorem Like.length (hl : h.Like h') : h'.bytes.length = h.bytes.length := by
  cases h <;> cases h' <;> simp only [Like] at hl
  · exact hl.2.2.1
  · exact hl.1

theorem Like.base (hl : h.Like h') : h'.base = h.base := by
  cases h <;> cases h' <;> simp only [Like] at hl <;> rfl

theorem Like.decodeLen (hl : h.Like h') (v : Nat) : h'.decodeLen v = h.decodeLen v := by
  cases h <;> cases h' <;> simp only [Like] at hl <;> rfl

theorem Like.encodable (hl : h.Like h') (he : h.Encodable e) : h'.Encodable e := by
  cases e with
  | internal i => exact ⟨by rw [hl.depth]; exact he.1, he.2⟩
  | leaf l => exact ⟨by rw [hl.depth]; exact he.1, he.2.1, he.2.2.1, he.2.2.2.1,
      by rw [hl.decodeLen]; exact he.2.2.2.2⟩

theorem Like.fromBytes {b b' : Bytes} (hl : (node b).Like (node b'))
    (hm : ExtentHeader.fromBytes b = .ok (node b)) :
    ExtentHeader.fromBytes b' = .ok (node b') := by
  unfold ExtentHeader.fromBytes at hm ⊢
  rw [hl.2.1]
  split at hm
  next h0 => rw [if_pos h0]
  next => cases hm

/-! ## Reading after a write -/

theorem decode_moved (hl : h.Like h') {p q : Nat} (hm : Moved h'.bytes p h.bytes q 12) :
    h'.decode p = h.decode q := by
  have h0 : ByteRw.readU32 h'.bytes p = ByteRw.readU32 h.bytes q :=
    readLe_moved (hm.window (i := 0) (by decide))
  have h4 : ByteRw.readU16 h'.bytes (p + 4) = ByteRw.readU16 h.bytes (q + 4) :=
    readLe_moved (hm.window (by decide))
  have h4' : ByteRw.readU32 h'.bytes (p + 4) = ByteRw.readU32 h.bytes (q + 4) :=
    readLe_moved (hm.window (by decide))
  have h6 : ByteRw.readU16 h'.bytes (p + 6) = ByteRw.readU16 h.bytes (q + 6) :=
    readLe_moved (hm.window (by decide))
  have h8 : ByteRw.readU16 h'.bytes (p + 8) = ByteRw.readU16 h.bytes (q + 8) :=
    readLe_moved (hm.window (by decide))
  have h8' : ByteRw.readU32 h'.bytes (p + 8) = ByteRw.readU32 h.bytes (q + 8) :=
    readLe_moved (hm.window (by decide))
  rw [decode, decode, hl.depth, hl.decodeLen, h0, h4, h4', h6, h8, h8']

theorem decode_congr (hl : h.Like h') {p : Nat} (hs : SameOn h'.bytes h.bytes p (p + 12)) :
    h'.decode p = h.decode p := decode_moved hl hs.moved

theorem merge_split {v : Nat} (h : v < 2 ^ 48) :
    mergeU32 ((splitU64 v).1 % 2 ^ 16) ((splitU64 v).2 % 2 ^ 32) = v := by
  simp only [mergeU32, splitU64]
  omega

/-- The entry is of the node's kind, and its fields have the widths of the source. -/
def OfKind (h : ExtentHeader) : Entry → Prop
  | .leaf l => h.depth = 0 ∧ l.block < 2 ^ 32 ∧ l.start < 2 ^ 48 ∧ l.len < 2 ^ 16
  | .internal i => 0 < h.depth ∧ i.block < 2 ^ 32 ∧ i.nextNode < 2 ^ 64

instance (h : ExtentHeader) (e : Entry) : Decidable (h.OfKind e) := by
  cases e <;> unfold OfKind <;> infer_instance

/-- What `get` gives where the entry has been written. -/
def asRead (h : ExtentHeader) : Entry → Entry
  | .leaf l =>
    .leaf { l with len := (h.decodeLen l.lenField).1, isInit := (h.decodeLen l.lenField).2 }
  | .internal i => .internal { i with nextNode := i.nextNode % 2 ^ 48 }

theorem Encodable.ofKind (he : h.Encodable e) : h.OfKind e := by
  cases e with
  | leaf l =>
      obtain ⟨hd, hb, hs, hf, -⟩ := he
      refine ⟨hd, hb, hs, ?_⟩
      unfold Leaf.lenField at hf
      split at hf
      · exact hf
      · exact Nat.lt_of_le_of_lt Nat.left_le_or hf
  | internal i =>
      obtain ⟨hd, hb, hn⟩ := he
      exact ⟨hd, hb, by omega⟩

theorem Encodable.asRead (he : h.Encodable e) : h.asRead e = e := by
  cases e with
  | leaf l =>
      obtain ⟨-, -, -, -, hdec⟩ := he
      rw [ExtentHeader.asRead, hdec]
  | internal i => rw [ExtentHeader.asRead, Nat.mod_eq_of_lt he.2.2]

theorem lenField_lt {l : Leaf} (h : l.len < 2 ^ 16) : l.lenField < 2 ^ 16 := by
  unfold Leaf.lenField
  split
  · exact h
  · exact Nat.or_lt_two_pow h (by decide)

/-- The fields of an entry are written side by side and read back. -/
theorem writeEntry_reads (he : h.OfKind e) {p : Nat} {b : Bytes} (hp : p + 12 ≤ b.length) :
    ∃ b', writeEntry h.depth e p b = .ok b' ∧ b'.length = b.length ∧
      (∀ lo hi, hi ≤ p ∨ p + 12 ≤ lo → SameOn b' b lo hi) ∧
      ∀ h' : ExtentHeader, h.Like h' → h'.bytes = b' → h'.decode p = h.asRead e := by
  cases e with
  | leaf l =>
      obtain ⟨hd, hblk, hstart, hlen⟩ := he
      have hhi : (splitU64 l.start).1 < 2 ^ 16 := by
        simp only [splitU64]
        omega
      rw [writeEntry, if_neg (by omega)]
      simp only [if_pos (And.intro hd hhi)]
      refine ⟨_, rfl, by simp, fun lo hi hw => ?_, fun h' hl hb => ?_⟩
      · exact (ByteRw.writeU16_sameOn (by omega)).trans ((ByteRw.writeU32_sameOn (by omega)).trans
          ((ByteRw.writeU16_sameOn (by omega)).trans (ByteRw.writeU32_sameOn (by omega))))
      · have h1 := ByteRw.readU32_congr (p := p) (b := h'.bytes)
          (hb ▸ (ByteRw.writeU16_sameOn (by omega)).trans ((ByteRw.writeU32_sameOn (by omega)).trans
            (ByteRw.writeU16_sameOn (by omega))))
        have h2 := ByteRw.readU16_congr (p := p + 6) (b := h'.bytes)
          (hb ▸ (ByteRw.writeU16_sameOn (by omega)).trans (ByteRw.writeU32_sameOn (by omega)))
        have h3 := ByteRw.readU32_congr (p := p + 8) (b := h'.bytes)
          (hb ▸ ByteRw.writeU16_sameOn (by omega))
        rw [ByteRw.readU32_writeU32 (by omega)] at h1
        rw [ByteRw.readU16_writeU16 (by simp; omega)] at h2
        rw [ByteRw.readU32_writeU32 (by simp; omega)] at h3
        have h4 : ByteRw.readU16 h'.bytes (p + 4) = l.lenField := by
          rw [hb, ByteRw.readU16_writeU16 (by simp; omega)]
          exact Nat.mod_eq_of_lt (lenField_lt hlen)
        rw [decode, hl.depth, if_pos hd, h1, h2, h3, h4, hl.decodeLen, merge_split hstart,
          Nat.mod_eq_of_lt hblk]
        rfl
  | internal i =>
      obtain ⟨hd, hblk, hnext⟩ := he
      rw [writeEntry, if_neg (by omega)]
      simp only [if_pos hd]
      refine ⟨_, rfl, by simp, fun lo hi hw => ?_, fun h' hl hb => ?_⟩
      · exact (ByteRw.writeU32_sameOn (by omega)).trans ((ByteRw.writeU32_sameOn (by omega)).trans
          (ByteRw.writeU32_sameOn (by omega)))
      · have h1 := ByteRw.readU32_congr (p := p) (b := h'.bytes)
          (hb ▸ (ByteRw.writeU32_sameOn (by omega)).trans (ByteRw.writeU32_sameOn (by omega)))
        have h2 := ByteRw.readU32_congr (p := p + 4) (b := h'.bytes)
          (hb ▸ ByteRw.writeU32_sameOn (by omega))
        rw [ByteRw.readU32_writeU32 (by omega)] at h1
        rw [ByteRw.readU32_writeU32 (by simp; omega)] at h2
        -- Of the high word only the low half is read back.
        have h3 : ByteRw.readU16 h'.bytes (p + 8) = (splitU64 i.nextNode).1 % 2 ^ 16 := by
          have h32 : ByteRw.readU32 h'.bytes (p + 8) = (splitU64 i.nextNode).1 % 2 ^ 32 := by
            rw [hb, ByteRw.readU32_writeU32 (by simp; omega)]
          have hsplit : ByteRw.readU32 h'.bytes (p + 8) = ByteRw.readU16 h'.bytes (p + 8) +
              256 ^ 2 * LeBytes.readLe h'.bytes (p + 8 + 2) 2 := LeBytes.readLe_add _ _ 2 2
          have hlt := ByteRw.readU16_lt h'.bytes (p + 8)
          omega
        have h48 : mergeU32 ((splitU64 i.nextNode).1 % 2 ^ 16) ((splitU64 i.nextNode).2 % 2 ^ 32) =
            i.nextNode % 2 ^ 48 := by
          simp only [mergeU32, splitU64]
          omega
        rw [decode, hl.depth, if_neg (by omega), h1, h2, h3, h48, Nat.mod_eq_of_lt hblk]
        rfl

/-! ## Nodes that show entries -/

theorem shows_iff : h.Shows d es ↔ h.depth = d ∧ h.entriesCnt = es.length ∧
    ∀ i e, es[i]? = some e →
      h.base + 12 * i + 12 ≤ h.bytes.length ∧ h.decode (h.base + 12 * i) = e := by
  constructor
  · intro hs
    refine ⟨hs.depth, hs.entriesCnt, fun i e hi => ?_⟩
    have hlt := (List.getElem?_eq_some_iff.mp hi).1
    have hget := hs.get i
    rw [hi, get, if_pos (by rw [hs.entriesCnt]; exact hlt)] at hget
    split at hget
    · cases hget
    · exact ⟨by omega, Option.some.inj (Except.ok.inj hget)⟩
  · rintro ⟨hd, hc, hall⟩
    refine ⟨hd, hc, fun i => ?_⟩
    cases hi : es[i]? with
    | none =>
        rw [get, if_neg]
        rw [hc]
        have := List.getElem?_eq_none_iff.mp hi
        omega
    | some e =>
        obtain ⟨hlen, hdec⟩ := hall i e hi
        have hlt := (List.getElem?_eq_some_iff.mp hi).1
        rw [get, if_pos (by rw [hc]; exact hlt), if_neg (by omega), hdec]

theorem like_withBytes {b : Bytes} (hlen : b.length = h.bytes.length)
    (hs : SameOn b h.bytes 0 h.base) :
    h.Like (h.withBytes b) ∧ (h.withBytes b).bytes = b ∧
      (h.withBytes b).entriesCnt = h.entriesCnt := by
  cases h with
  | tree t => exact ⟨⟨rfl, rfl, hlen, rfl⟩, rfl, rfl⟩
  | node b0 =>
      have h12 : SameOn b b0 0 12 := hs
      exact ⟨⟨hlen, ByteRw.readU16_congr (h12.mono (by omega) (by omega)),
        ByteRw.readU16_congr (h12.mono (by omega) (by omega)),
        ByteRw.readU16_congr (h12.mono (by omega) (by omega))⟩, rfl,
        ByteRw.readU16_congr (h12.mono (by omega) (by omega))⟩

/-- The number of entries is kept in the tree, or in bytes 2 and 3 of a block. -/
theorem like_setEntriesCnt (hk : k < 2 ^ 16) (hlen : h.base ≤ h.bytes.length) :
    h.Like (h.setEntriesCnt k) ∧ (h.setEntriesCnt k).entriesCnt = k ∧
      ∀ lo hi, h.base ≤ lo → SameOn (h.setEntriesCnt k).bytes h.bytes lo hi := by
  cases h with
  | tree t => exact ⟨⟨rfl, rfl, rfl, rfl⟩, rfl, fun lo hi _ => SameOn.refl t.b lo hi⟩
  | node b =>
      have h12 : 12 ≤ b.length := hlen
      refine ⟨⟨ByteRw.length_writeU16 .., ByteRw.readU16_congr (ByteRw.writeU16_sameOn (by omega)),
        ByteRw.readU16_congr (ByteRw.writeU16_sameOn (by omega)),
        ByteRw.readU16_congr (ByteRw.writeU16_sameOn (by omega))⟩, ?_, fun lo hi hlo => ?_⟩
      · rw [setEntriesCnt, entriesCnt, ByteRw.readU16_writeU16 (by omega), Nat.mod_eq_of_lt hk]
      · have h12 : 12 ≤ lo := hlo
        exact ByteRw.writeU16_sameOn (by omega)

/-- `replace_at` changes one entry, to what is read of it. -/
theorem replaceAt_reads (hs : h.Shows d es) (hi : i < es.length) (he : h.OfKind e) :
    ∃ h', h.replaceAt e i = .ok h' ∧ h.Like h' ∧ h'.Shows d (es.set i (h.asRead e)) := by
  obtain ⟨hd, hc, hall⟩ := shows_iff.mp hs
  have hin := (hall i _ (List.getElem?_eq_getElem hi)).1
  obtain ⟨b, hw, hlen, hframe, hread⟩ := writeEntry_reads he hin
  obtain ⟨hl, hb, hcnt⟩ := like_withBytes hlen (hframe 0 h.base (by omega))
  refine ⟨h.withBytes b, by rw [replaceAt, if_neg (by omega), hw], hl, ?_⟩
  refine shows_iff.mpr ⟨hl.depth.trans hd, by rw [hcnt, hc, List.length_set], fun j e' hj => ?_⟩
  rw [List.getElem?_set] at hj
  rw [hl.base, hl.length]
  by_cases hij : i = j
  · subst hij
    rw [if_pos rfl, if_pos hi] at hj
    cases hj
    exact ⟨hin, hread _ hl hb⟩
  · rw [if_neg hij] at hj
    obtain ⟨hjin, hdec⟩ := hall j e' hj
    refine ⟨hjin, ?_⟩
    rw [decode_congr hl (by rw [hb]; exact hframe _ _ (by omega)), hdec]

theorem replaceAt_spec (hs : h.Shows d es) (hi : i < es.length) (he : h.Encodable e) :
    ∃ h', h.replaceAt e i = .ok h' ∧ h.Like h' ∧ h'.Shows d (es.set i e) := by
  have hreads := replaceAt_reads hs hi he.ofKind
  rwa [he.asRead] at hreads

/-- `insert_at` behind the last entry adds one. -/
theorem insertAt_append_reads (hs : h.Shows d es) (hmax : es.length < h.maxEntriesCnt)
    (hcap : h.base + 12 * h.maxEntriesCnt ≤ h.bytes.length) (h16 : h.maxEntriesCnt < 2 ^ 16)
    (he : h.OfKind e) :
    ∃ h', h.insertAt e es.length = .ok h' ∧ h.Like h' ∧ h'.Shows d (es ++ [h.asRead e]) := by
  obtain ⟨hd, hc, hall⟩ := shows_iff.mp hs
  -- Behind the last entry nothing is shifted.
  have hshift : shiftFrom h.base es.length h.entriesCnt h.bytes = h.bytes := by
    rw [shiftFrom, hc, show es.length - (es.length + 1) = 0 by omega]
    rfl
  have hin : h.base + 12 * es.length + 12 ≤ h.bytes.length := by omega
  obtain ⟨b, hw, hlen, hframe, hread⟩ := writeEntry_reads he hin
  obtain ⟨hl, hb, hcnt⟩ := like_withBytes hlen (hframe 0 h.base (by omega))
  obtain ⟨hl', hcnt', hsame⟩ := like_setEntriesCnt (h := h.withBytes b) (k := h.entriesCnt + 1)
    (by omega) (by rw [hl.base, hl.length]; omega)
  rw [hl.base] at hsame
  have hll := hl.trans hl'
  refine ⟨(h.withBytes b).setEntriesCnt (h.entriesCnt + 1), ?_, hll, ?_⟩
  · rw [insertAt, if_neg (by omega), if_neg (by omega), hshift, hw]
  · refine shows_iff.mpr ⟨hll.depth.trans hd, by rw [hcnt', hc]; simp, fun j e' hj => ?_⟩
    rw [hll.base, hll.length, decode_congr hl' (hsame _ _ (by omega))]
    rcases Nat.lt_trichotomy j es.length with hlt | rfl | hgt
    · rw [List.getElem?_append_left hlt] at hj
      obtain ⟨hjin, hdec⟩ := hall j e' hj
      exact ⟨hjin, by rw [decode_congr hl (by rw [hb]; exact hframe _ _ (by omega)), hdec]⟩
    · rw [List.getElem?_append_right (Nat.le_refl _), Nat.sub_self] at hj
      cases hj
      exact ⟨hin, hread _ hl hb⟩
    · rw [List.getElem?_eq_none (by simp; omega)] at hj
      cases hj

theorem insertAt_append (hs : h.Shows d es) (hmax : es.length < h.maxEntriesCnt)
    (hcap : h.base + 12 * h.maxEntriesCnt ≤ h.bytes.length) (h16 : h.maxEntriesCnt < 2 ^ 16)
    (he : h.Encodable e) :
    ∃ h', h.insertAt e es.length = .ok h' ∧ h.Like h' ∧ h'.Shows d (es ++ [e]) := by
  have hreads := insertAt_append_reads hs hmax hcap h16 he.ofKind
  rwa [he.asRead] at hreads

/-- The header of a new node. -/
theorem initNode_spec {blkSize : Nat} {b : Bytes} (hd : d < 2 ^ 16) (hblk : blkSize < 2 ^ 16)
    (hlen : 12 ≤ b.length) :
    (node (Path.initNode blkSize d b)).Shows d [] ∧
      ExtentHeader.fromBytes (Path.initNode blkSize d b) = .ok (node (Path.initNode blkSize d b)) ∧
      (node (Path.initNode blkSize d b)).maxEntriesCnt = (blkSize - 16) / 12 ∧
      (Path.initNode blkSize d b).length = b.length := by
  -- Four fields, written one after the other.
  have h6 : ByteRw.readU16 (Path.initNode blkSize d b) 6 = d := by
    rw [Path.initNode, ByteRw.readU16_writeU16 (by simp; omega), Nat.mod_eq_of_lt hd]
  have h4 : ByteRw.readU16 (Path.initNode blkSize d b) 4 = (blkSize - 16) / 12 := by
    rw [Path.initNode, ByteRw.readU16_congr (ByteRw.writeU16_sameOn (by omega)),
      ByteRw.readU16_writeU16 (by simp; omega), Nat.mod_eq_of_lt (by omega)]
  have h2 : ByteRw.readU16 (Path.initNode blkSize d b) 2 = 0 := by
    rw [Path.initNode, ByteRw.readU16_congr (ByteRw.writeU16_sameOn (by omega)),
      ByteRw.readU16_congr (ByteRw.writeU16_sameOn (by omega)),
      ByteRw.readU16_writeU16 (by simp; omega), Nat.zero_mod]
  have h0 : ByteRw.readU16 (Path.initNode blkSize d b) 0 = 0xF30A := by
    rw [Path.initNode, ByteRw.readU16_congr (ByteRw.writeU16_sameOn (by omega)),
      ByteRw.readU16_congr (ByteRw.writeU16_sameOn (by omega)),
      ByteRw.readU16_congr (ByteRw.writeU16_sameOn (by omega)),
      ByteRw.readU16_writeU16 (by omega), Nat.mod_eq_of_lt (by decide)]
  refine ⟨shows_iff.mpr ⟨h6, h2, fun i e hi => by cases hi⟩, ?_, h4, by simp [Path.initNode]⟩
  rw [ExtentHeader.fromBytes, if_pos h0]

/-- Entries moved one after the other to the end of a node. -/
theorem moveEntries_spec {src : ExtentHeader} {ds n : Nat} {ss : List Entry}
    (hsrc : src.Shows ds ss) (hs : h.Shows d es) (hn : k + es.length + n ≤ ss.length)
    (hmax : es.length + n ≤ h.maxEntriesCnt)
    (hcap : h.base + 12 * h.maxEntriesCnt ≤ h.bytes.length) (h16 : h.maxEntriesCnt < 2 ^ 16)
    (he : ∀ e ∈ ss, h.Encodable e) :
    ∃ h', Path.moveEntries src k es.length n h = .ok h' ∧ h.Like h' ∧
      h'.Shows d (es ++ (ss.drop (k + es.length)).take n) := by
  -- On the entries left to move; each is added behind the last one.
  induction n generalizing h es with
  | zero => exact ⟨h, rfl, Like.refl h, by simpa using hs⟩
  | succ n ih =>
      have hlt : k + es.length < ss.length := by omega
      obtain ⟨h1, hins, hl1, hs1⟩ := insertAt_append hs (by omega) hcap h16
        (he _ (List.getElem_mem hlt))
      obtain ⟨h2, hmove, hl2, hs2⟩ := ih hs1 (by simp; omega)
        (by rw [hl1.maxEntriesCnt]; simp; omega)
        (by rw [hl1.base, hl1.maxEntriesCnt, hl1.length]; exact hcap)
        (by rw [hl1.maxEntriesCnt]; exact h16) (fun e hmem => hl1.encodable (he e hmem))
      refine ⟨h2, ?_, hl1.trans hl2, ?_⟩
      · rw [Path.moveEntries, hsrc.get, List.getElem?_eq_getElem hlt]
        simp only [hins]
        simpa using hmove
      · rw [List.drop_eq_getElem_cons hlt, List.take_succ_cons]
        simpa [Nat.add_assoc] using hs2

/-- Any list of entries that fits is shown by some node: they are inserted one by one. -/
theorem exists_append (hs : h.Shows d []) (hmax : es.length ≤ h.maxEntriesCnt)
    (hcap : h.base + 12 * h.maxEntriesCnt ≤ h.bytes.length) (h16 : h.maxEntriesCnt < 2 ^ 16)
    (he : ∀ e ∈ es, h.Encodable e) : ∃ h', h.Like h' ∧ h'.Shows d es := by
  induction es using List.reverseRecOn with
  | nil => exact ⟨h, Like.refl h, hs⟩
  | append_singleton es e ih =>
      rw [List.length_append, List.length_singleton] at hmax
      obtain ⟨h1, hl1, hs1⟩ := ih (by omega) fun e' he' => he e' (List.mem_append_left _ he')
      obtain ⟨h2, -, hl2, hs2⟩ := insertAt_append hs1 (by rw [hl1.maxEntriesCnt]; omega)
        (by rw [hl1.base, hl1.maxEntriesCnt, hl1.length]; exact hcap)
        (by rw [hl1.maxEntriesCnt]; exact h16)
        (hl1.encodable (he e (List.mem_append_right _ List.mem_cons_self)))
      exact ⟨h2, hl1.trans hl2, hs2⟩

/-- A root with these entries. -/
theorem exists_tree (d : Nat) (es : List Entry) (hmax : es.length ≤ 4)
    (he : ∀ e ∈ es, (tree { depth := d }).Encodable e) :
    ∃ t : ExtentTree, t.depth = d ∧ t.maxEntriesCnt = 4 ∧ t.b.length = 48 ∧ t.cache = none ∧
      (tree t).Shows d es := by
  have hs : (tree { depth := d }).Shows d [] :=
    shows_iff.mpr ⟨rfl, rfl, fun i e hi => by cases hi⟩
  obtain ⟨h, hl, hsh⟩ := exists_append hs hmax
    (show 0 + 12 * 4 ≤ (List.replicate 48 (0 : UInt8)).length by decide)
    (show 4 < 2 ^ 16 by decide) he
  cases h with
  | tree t => exact ⟨t, hl.2.1, hl.1, hl.2.2.1, hl.2.2.2, hsh⟩
  | node b => cases hl

/-- A block with these entries, as large as the source makes it. -/
theorem exists_node (blkSize d : Nat) (es : List Entry) (hd : d < 2 ^ 16) (hblk : blkSize < 2 ^ 16)
    (h28 : 28 ≤ blkSize)
    (hmax : es.length ≤ (blkSize - 16) / 12)
    (he : ∀ b, (node b).depth = d → ∀ e ∈ es, (node b).Encodable e) :
    ∃ b : Bytes, b.length = blkSize ∧ ExtentHeader.fromBytes b = .ok (node b) ∧
      (node b).maxEntriesCnt = (blkSize - 16) / 12 ∧ (node b).Shows d es := by
  obtain ⟨hs, hm, hc, hlen⟩ := initNode_spec (d := d) (b := List.replicate blkSize 0) hd hblk
    (by rw [List.length_replicate]; omega)
  rw [List.length_replicate] at hlen
  obtain ⟨h, hl, hsh⟩ := exists_append hs (by rw [hc]; exact hmax)
    (by rw [hc]; change 12 + _ ≤ (Path.initNode _ _ _).length; omega)
    (by rw [hc]; omega) (he _ hs.depth)
  cases h with
  | tree t => cases hl
  | node b => exact ⟨b, hl.1.trans hlen, hl.fromBytes hm, hl.maxEntriesCnt.trans hc, hsh⟩

end ExtentHeader
end RustExt4.Inode.Extent
