/-
  RustExt4.Inode.Extent.Insertion

  `insert_at` at any position and `replace_at`, entry by entry.  The shift of
  `insert_at` copies the entries behind the position one slot up, but for the
  last one: its loop ends at the count of the entries.  What a written entry is
  read back as depends on the node, whose decoders differ at length 0x8000.
-/
import RustExt4.Inode.Extent.Sound

namespace RustExt4.Inode.Extent

open LeBytes (SameOn Moved moved_writeLe)

namespace ExtentHeader

variable {h h' : ExtentHeader} {d : Nat} {es : List Entry} {e : Entry}

/-! ## The shift -/

section Shift

variable {b : Bytes} {p : Nat}

theorem length_copyEntry (b : Bytes) (p : Nat) : (copyEntry b p).length = b.length := by
  simp [copyEntry]

theorem copyEntry_sameOn {lo hi : Nat} (h : hi ≤ p ∨ p + 12 ≤ lo) :
    SameOn (copyEntry b p) b lo hi :=
  (ByteRw.writeU32_sameOn (by omega)).trans
    ((ByteRw.writeU32_sameOn (by omega)).trans (ByteRw.writeU32_sameOn (by omega)))

/-- The three words of the entry before `p` are at `p` now. -/
theorem copyEntry_moved (hp : 12 ≤ p) (hlen : p + 12 ≤ b.length) :
    Moved (copyEntry b p) p b (p - 12) 12 := by
  let b1 := ByteRw.writeU32 b p (ByteRw.readU32 b (p - 12))
  let b2 := ByteRw.writeU32 b1 (p + 4) (ByteRw.readU32 b1 (p - 12 + 4))
  have hlen1 : b1.length = b.length := ByteRw.length_writeU32 ..
  have hlen2 : b2.length = b.length := (ByteRw.length_writeU32 ..).trans hlen1
  have hsame1 : ∀ lo hi, hi ≤ p → SameOn b1 b lo hi := fun lo hi h =>
    ByteRw.writeU32_sameOn (Or.inl h)
  have hsame2 : ∀ lo hi, hi ≤ p → SameOn b2 b lo hi := fun lo hi h =>
    (ByteRw.writeU32_sameOn (by omega)).trans (hsame1 lo hi h)
  have hfirst : Moved (copyEntry b p) p b (p - 12) 4 := by
    have hw : Moved b1 p b (p - 12) 4 := moved_writeLe (by omega)
    have hkeep : SameOn (copyEntry b p) b1 p (p + 4) :=
      (ByteRw.writeU32_sameOn (by omega)).trans (ByteRw.writeU32_sameOn (by omega))
    exact hkeep.moved.trans hw
  have hsecond : Moved (copyEntry b p) (p + 4) b (p - 12 + 4) 4 := by
    have hw : Moved b2 (p + 4) b1 (p - 12 + 4) 4 := moved_writeLe (by omega)
    have hkeep : SameOn (copyEntry b p) b2 (p + 4) (p + 4 + 4) :=
      ByteRw.writeU32_sameOn (by omega)
    exact (hkeep.moved.trans hw).trans (hsame1 _ _ (by omega)).moved
  have hthird : Moved (copyEntry b p) (p + 8) b (p - 12 + 8) 4 := by
    have hfit : p + 8 + 4 ≤ b2.length := by omega
    have hw : Moved (copyEntry b p) (p + 8) b2 (p - 12 + 8) 4 := moved_writeLe hfit
    exact hw.trans (hsame2 _ _ (by omega)).moved
  exact (hfirst.append hsecond).append hthird

/-- The shift moves the entries at `s - 1, ..., s + n - 2` up by one slot and leaves the
    other bytes alone. -/
theorem shift_spec (base : Nat) {s : Nat} (hs : 0 < s) (n : Nat) (b : Bytes)
    (hlen : base + 12 * (s + n) ≤ b.length) :
    ∃ b', (List.range' s n).reverse.foldl (fun b i => copyEntry b (base + 12 * i)) b = b' ∧
      b'.length = b.length ∧
      (∀ lo hi, hi ≤ base + 12 * s ∨ base + 12 * (s + n) ≤ lo → SameOn b' b lo hi) ∧
      ∀ j, s ≤ j → j < s + n → Moved b' (base + 12 * j) b (base + 12 * (j - 1)) 12 := by
  -- The rounds go down from the last slot, so the source of a round is not yet overwritten.
  induction n generalizing b with
  | zero => exact ⟨b, rfl, rfl, fun lo hi _ => SameOn.refl b lo hi, fun j h1 h2 => by omega⟩
  | succ n ih =>
      rw [List.range'_1_concat, List.reverse_append, List.reverse_singleton, List.singleton_append,
        List.foldl_cons]
      obtain ⟨b', hfold, hlen', hsame, hmoved⟩ := ih (copyEntry b (base + 12 * (s + n)))
        (by rw [length_copyEntry]; omega)
      rw [length_copyEntry] at hlen'
      refine ⟨b', hfold, hlen', fun lo hi hw => ?_, fun j h1 h2 => ?_⟩
      · exact (hsame lo hi (by omega)).trans (copyEntry_sameOn (by omega))
      · by_cases hj : j < s + n
        · exact (hmoved j h1 hj).trans (copyEntry_sameOn (by omega)).moved
        · obtain rfl : j = s + n := by omega
          have hcopy := copyEntry_moved (b := b) (p := base + 12 * (s + n)) (by omega) (by omega)
          rw [show base + 12 * (s + n) - 12 = base + 12 * (s + n - 1) by omega] at hcopy
          exact (hsame _ _ (by omega)).moved.trans hcopy

end Shift

/-! ## `insert_at` -/

/-- The bytes of a slot behind the entries, decoded as an entry. -/
def slot (h : ExtentHeader) (i : Nat) : Entry := h.decode (h.base + 12 * i)

theorem get_slot {i : Nat} (hi : i < h.entriesCnt)
    (hlen : h.base + 12 * i + 12 ≤ h.bytes.length) : h.get i = .ok (some (h.slot i)) := by
  rw [get, if_pos hi, if_neg (by omega)]
  rfl

/-- What the slots hold after an insertion at `i`. -/
def slotAfter (h : ExtentHeader) (e : Entry) (i j : Nat) : Entry :=
  if j = i then h.asRead e
  else if i < j ∧ j < h.entriesCnt then h.slot (j - 1)
  else h.slot j

/-- `insert_at` at any position: the entries from the position on move up, the last one
    excepted, and the slot behind it keeps its bytes. -/
theorem insertAt_slots (hroom : h.Roomy) (hfull : h.entriesCnt < h.maxEntriesCnt) {i : Nat}
    (hi : i ≤ h.entriesCnt) (he : h.OfKind e) :
    ∃ h', h.insertAt e i = .ok h' ∧ h.Like h' ∧ h'.entriesCnt = h.entriesCnt + 1 ∧
      ∀ j ≤ h.entriesCnt, h'.slot j = h.slotAfter e i j := by
  have hcap := hroom.capacity
  have hmax := hroom.maxEntriesCnt_lt
  -- The shift, with no round where the position is the last entry or behind it.
  obtain ⟨b1, hshift, hlen1, hsame1, hmoved1⟩ := shift_spec h.base (Nat.succ_pos i)
    (h.entriesCnt - (i + 1)) h.bytes (by omega)
  obtain ⟨b2, hwrite, hlen2, hsame2, hread2⟩ := writeEntry_reads he (p := h.base + 12 * i) (b := b1)
    (by omega)
  obtain ⟨hl, hb, hcnt⟩ := like_withBytes (h := h) (b := b2) (hlen2.trans hlen1)
    ((hsame2 0 h.base (by omega)).trans (hsame1 0 h.base (by omega)))
  obtain ⟨hl', hcnt', hsame'⟩ := like_setEntriesCnt (h := h.withBytes b2) (k := h.entriesCnt + 1)
    (by omega) (by rw [hl.base, hl.length]; omega)
  rw [hl.base] at hsame'
  have hll := hl.trans hl'
  refine ⟨(h.withBytes b2).setEntriesCnt (h.entriesCnt + 1), ?_, hll, hcnt', fun j hj => ?_⟩
  · rw [insertAt, if_neg (by omega), if_neg (by omega), shiftFrom, hshift, hwrite]
  · have hout : ((h.withBytes b2).setEntriesCnt (h.entriesCnt + 1)).slot j =
        (h.withBytes b2).slot j := by
      unfold slot
      rw [hll.base, hl.base]
      exact decode_congr hl' (hsame' _ _ (by omega))
    rw [hout, slotAfter]
    unfold slot
    rw [hl.base]
    split
    next hji =>
      subst hji
      exact hread2 _ hl hb
    next hji =>
      have hkeep : SameOn b2 b1 (h.base + 12 * j) (h.base + 12 * j + 12) := hsame2 _ _ (by omega)
      split
      next hmid =>
        apply decode_moved hl
        rw [hb]
        exact hkeep.moved.trans (hmoved1 j (by omega) (by omega))
      next hmid =>
        apply decode_congr hl
        rw [hb]
        exact hkeep.trans (hsame1 _ _ (by omega))

/-- List insertion: one entry more, the entries before the position as they were, the new
    one at it, and the old ones behind it. -/
def InsertsAt (h : ExtentHeader) (e : Entry) (i : Nat) : Prop :=
  ∃ h', h.insertAt e i = .ok h' ∧ h'.entriesCnt = h.entriesCnt + 1 ∧
    (∀ j < i, h'.get j = h.get j) ∧ h'.get i = .ok (some e) ∧
    ∀ j, i ≤ j → j < h.entriesCnt → h'.get (j + 1) = h.get j

/-- The lengths and the node numbers that the 16 and the 48 bits of an entry can hold: the
    root has no length 0x8000, and the blocks have it for initialized extents only. -/
def ReadsBack : ExtentHeader → Entry → Prop
  | .tree _, .leaf l => l.len < 2 ^ 15
  | .node _, .leaf l => if l.isInit then l.len ≤ 2 ^ 15 else 0 < l.len ∧ l.len < 2 ^ 15
  | _, .internal i => i.nextNode < 2 ^ 48

instance (h : ExtentHeader) (e : Entry) : Decidable (h.ReadsBack e) :=
  match h, e with
  | .tree _, .leaf l => inferInstanceAs (Decidable (l.len < 2 ^ 15))
  | .node _, .leaf l =>
    inferInstanceAs (Decidable (if l.isInit then l.len ≤ 2 ^ 15 else 0 < l.len ∧ l.len < 2 ^ 15))
  | .tree _, .internal i => inferInstanceAs (Decidable (i.nextNode < 2 ^ 48))
  | .node _, .internal i => inferInstanceAs (Decidable (i.nextNode < 2 ^ 48))

/-- The length field of an extent that is not initialized. -/
theorem lenField_uninit {l : Leaf} (hi : l.isInit = false) (hl : l.len < 2 ^ 16) :
    l.lenField = l.len % 2 ^ 15 + 2 ^ 15 := by
  have hflag : ∀ r < 2 ^ 15, r ||| 0x8000 = r + 2 ^ 15 := fun r hr =>
    Nat.or_two_pow_eq_add_of_lt hr
  have hf : l.lenField = l.len ||| 0x8000 := by rw [Leaf.lenField, hi]; rfl
  rw [hf]
  by_cases hsmall : l.len < 2 ^ 15
  · rw [hflag _ hsmall, Nat.mod_eq_of_lt hsmall]
  · -- The flag is set in the length already.
    obtain ⟨r, hr, hlen⟩ : ∃ r < 2 ^ 15, l.len = r + 2 ^ 15 := ⟨l.len - 2 ^ 15, by omega, by omega⟩
    rw [hlen, ← hflag r hr, Nat.or_assoc, Nat.or_self, hflag r hr]
    omega

theorem decodeLen_lenField {l : Leaf} (hl : l.len < 2 ^ 16) :
    h.decodeLen l.lenField = (l.len, l.isInit) ↔ h.ReadsBack (.leaf l) := by
  cases hi : l.isInit with
  | true =>
      have hf : l.lenField = l.len := by rw [Leaf.lenField, if_pos hi]
      cases h with
      | tree t =>
          simp only [decodeLen, ReadsBack, hf, Prod.mk.injEq, decide_eq_true_eq]
          exact ⟨fun h => h.2, fun h => ⟨Nat.mod_eq_of_lt h, h⟩⟩
      | node b =>
          simp only [decodeLen, ReadsBack, hf, hi, if_true]
          split <;> simp <;> omega
  | false =>
      have hf := lenField_uninit hi hl
      cases h with
      | tree t =>
          simp only [decodeLen, ReadsBack, hf, Prod.mk.injEq, decide_eq_false_iff_not]
          omega
      | node b =>
          simp only [decodeLen, ReadsBack, hf, hi, Bool.false_eq_true, if_false]
          split <;> simp <;> omega

/-- What `get` gives for a written entry is the entry just where its bits hold it. -/
theorem asRead_eq_iff (he : h.OfKind e) : h.asRead e = e ↔ h.ReadsBack e := by
  cases e with
  | leaf l =>
      rw [← decodeLen_lenField he.2.2.2]
      obtain ⟨block, start, len, isInit⟩ := l
      simp only [asRead, Entry.leaf.injEq, Leaf.mk.injEq, true_and]
      exact (Prod.ext_iff (x := h.decodeLen _) (y := (len, isInit))).symm
  | internal i =>
      obtain ⟨block, nextNode⟩ := i
      have hreads : h.ReadsBack (.internal ⟨block, nextNode⟩) ↔ nextNode < 2 ^ 48 := by
        cases h <;> rfl
      rw [hreads]
      simp only [asRead, Entry.internal.injEq, Internal.mk.injEq, true_and]
      exact ⟨fun h => by omega, Nat.mod_eq_of_lt⟩

/-- An insertion before the end is a list insertion only where the slot behind the last
    entry happens to hold a copy of it. -/
theorem insertsAt_iff (hroom : h.Roomy) (hfull : h.entriesCnt < h.maxEntriesCnt) {i : Nat}
    (hi : i ≤ h.entriesCnt) (he : h.OfKind e) :
    h.InsertsAt e i ↔ h.ReadsBack e ∧
      (i = h.entriesCnt ∨ h.slot h.entriesCnt = h.slot (h.entriesCnt - 1)) := by
  obtain ⟨h', hins, hl, hcnt, hslots⟩ := insertAt_slots hroom hfull hi he
  have hcap := hroom.capacity
  have hget : ∀ j < h.entriesCnt, h.get j = .ok (some (h.slot j)) := fun j hj =>
    get_slot hj (by omega)
  have hget' : ∀ j ≤ h.entriesCnt, h'.get j = .ok (some (h.slotAfter e i j)) := by
    intro j hj
    rw [get_slot (by omega) (by rw [hl.base, hl.length]; omega), hslots j hj]
  have hat : h.slotAfter e i i = h.asRead e := if_pos rfl
  constructor
  · rintro ⟨h1, hins1, -, -, hnew, hbehind⟩
    obtain rfl : h' = h1 := Except.ok.inj (hins.symm.trans hins1)
    refine ⟨?_, ?_⟩
    · rw [hget' i hi, hat] at hnew
      exact (asRead_eq_iff he).mp (Option.some.inj (Except.ok.inj hnew))
    · by_cases hend : i = h.entriesCnt
      · exact Or.inl hend
      · -- The last entry is read in the slot behind it, which nothing has written.
        have hlast := hbehind (h.entriesCnt - 1) (by omega) (by omega)
        rw [show h.entriesCnt - 1 + 1 = h.entriesCnt by omega, hget' _ (Nat.le_refl _),
          hget _ (by omega), slotAfter, if_neg (Ne.symm hend), if_neg (by omega)] at hlast
        exact Or.inr (Option.some.inj (Except.ok.inj hlast))
  · rintro ⟨hback, hcase⟩
    refine ⟨h', hins, hcnt, fun j hj => ?_, ?_, fun j h1 h2 => ?_⟩
    · rw [hget' j (by omega), hget j (by omega), slotAfter, if_neg (by omega), if_neg (by omega)]
    · rw [hget' i hi, hat, (asRead_eq_iff he).mpr hback]
    · rw [hget' (j + 1) (by omega), hget j h2, slotAfter, if_neg (by omega)]
      by_cases hj : j + 1 < h.entriesCnt
      · rw [if_pos ⟨by omega, hj⟩, Nat.add_sub_cancel]
      · rw [if_neg (by omega)]
        obtain rfl | hcopy := hcase
        · omega
        · rw [show j + 1 = h.entriesCnt by omega, hcopy,
            show h.entriesCnt - 1 = j by omega]

/-- A root with two extents. -/
def treeOfTwo : ExtentTree :=
  { entriesCnt := 2
    b := [0, 0, 0, 0, 4, 0, 0, 0, 100, 0, 0, 0, 10, 0, 0, 0, 4, 0, 0, 0, 200, 0, 0, 0] ++
      List.replicate 24 0 }

def rootOfTwo : ExtentHeader := .tree treeOfTwo

theorem rootOfTwo_roomy : rootOfTwo.Roomy := ⟨by decide, by decide, by decide⟩

/-- The extent of the hole between the two takes the place of the second one. -/
theorem not_insertsAt_rootOfTwo :
    rootOfTwo.Roomy ∧ rootOfTwo.entriesCnt < rootOfTwo.maxEntriesCnt ∧
      rootOfTwo.get 1 = .ok (some (.leaf ⟨10, 200, 4, true⟩)) ∧
      ¬ rootOfTwo.InsertsAt (.leaf ⟨5, 300, 1, true⟩) 1 := by
  refine ⟨rootOfTwo_roomy, by decide, by decide +kernel, ?_⟩
  rintro ⟨h', hins, -, -, -, hbehind⟩
  have hread : (rootOfTwo.insertAt (.leaf ⟨5, 300, 1, true⟩) 1).toOption.map (fun h => h.get 2) =
      some (.ok (some (.leaf ⟨0, 0, 0, true⟩))) := by decide +kernel
  have hold : rootOfTwo.get 1 = .ok (some (.leaf ⟨10, 200, 4, true⟩)) := by decide +kernel
  rw [hins] at hread
  have hlost := (Option.some.inj hread).symm.trans ((hbehind 1 (by decide) (by decide)).trans hold)
  exact absurd hlost (by decide)

theorem insertsAt_rootOfTwo_end : rootOfTwo.InsertsAt (.leaf ⟨20, 300, 1, true⟩) 2 :=
  (insertsAt_iff rootOfTwo_roomy (by decide) (by decide) (by decide)).mpr
    ⟨by decide, Or.inl (by decide)⟩

/-! ## One slot -/

/-- The entries that the insertion writes: extents of at most 0x8000 blocks, or 0x7fff
    where they are not initialized, and node numbers of 48 bits. -/
def Writable (h : ExtentHeader) : Entry → Prop
  | .leaf l => h.depth = 0 ∧ l.block < 2 ^ 32 ∧ l.start < 2 ^ 48 ∧ 0 < l.len ∧
      l.len ≤ if l.isInit then 2 ^ 15 else 2 ^ 15 - 1
  | .internal i => 0 < h.depth ∧ i.block < 2 ^ 32 ∧ i.nextNode < 2 ^ 48

instance (h : ExtentHeader) (e : Entry) : Decidable (h.Writable e) :=
  match e with
  | .leaf _ => inferInstanceAs (Decidable (_ ∧ _))
  | .internal _ => inferInstanceAs (Decidable (_ ∧ _))

theorem Writable.ofKind (he : h.Writable e) : h.OfKind e := by
  cases e with
  | leaf l =>
      obtain ⟨hd, hb, hs, -, hlen⟩ := he
      refine ⟨hd, hb, hs, ?_⟩
      split at hlen <;> omega
  | internal i =>
      obtain ⟨hd, hb, hn⟩ := he
      exact ⟨hd, hb, by omega⟩

/-- `insert_at` behind the last entry and `get`. -/
def AppendReadsBack (h : ExtentHeader) (e : Entry) : Prop :=
  ∃ h', h.insertAt e h.entriesCnt = .ok h' ∧ h'.get h.entriesCnt = .ok (some e)

/-- `replace_at` and `get`: the entry in its slot, and the other slots as they were. -/
def ReplaceReadsBack (h : ExtentHeader) (e : Entry) (i : Nat) : Prop :=
  ∃ h', h.replaceAt e i = .ok h' ∧ h'.get i = .ok (some e) ∧ ∀ j ≠ i, h'.get j = h.get j

/-- The one entry that does not come back: an initialized extent of 0x8000 blocks in the
    root. -/
def FullInRoot : ExtentHeader → Entry → Prop
  | .tree _, .leaf l => l.isInit = true ∧ l.len = 2 ^ 15
  | _, _ => False

instance (h : ExtentHeader) (e : Entry) : Decidable (h.FullInRoot e) :=
  match h, e with
  | .tree _, .leaf _ => inferInstanceAs (Decidable (_ ∧ _))
  | .node _, .leaf _ => inferInstanceAs (Decidable False)
  | .tree _, .internal _ => inferInstanceAs (Decidable False)
  | .node _, .internal _ => inferInstanceAs (Decidable False)

theorem Writable.readsBack_iff_not_fullInRoot (he : h.Writable e) :
    h.ReadsBack e ↔ ¬ h.FullInRoot e := by
  cases e with
  | internal i => cases h <;> exact ⟨fun _ hf => hf, fun _ => he.2.2⟩
  | leaf l =>
      obtain ⟨-, -, -, hpos, hlen⟩ := he
      cases hi : l.isInit <;> rw [hi] at hlen <;> cases h <;>
        simp only [ReadsBack, FullInRoot, hi, true_and, Bool.false_eq_true, false_and, if_true,
          if_false, not_false_eq_true, iff_true] at hlen ⊢ <;> omega

/-- What is written at the end or over an entry is read back, by the root and by the
    blocks, but for one length in the root. -/
theorem readsBack_iff (hroom : h.Roomy) (he : h.Writable e) :
    (h.entriesCnt < h.maxEntriesCnt → (h.AppendReadsBack e ↔ ¬ h.FullInRoot e)) ∧
      ∀ i < h.entriesCnt, (h.ReplaceReadsBack e i ↔ ¬ h.FullInRoot e) := by
  have hcap := hroom.capacity
  have hle := hroom.entriesCnt_le
  rw [← he.readsBack_iff_not_fullInRoot, ← asRead_eq_iff he.ofKind]
  refine ⟨fun hfull => ?_, fun i hi => ?_⟩
  · obtain ⟨h', hins, hl, hcnt, hslots⟩ := insertAt_slots hroom hfull (Nat.le_refl _) he.ofKind
    have hnew : h'.get h.entriesCnt = .ok (some (h.asRead e)) := by
      rw [get_slot (by omega) (by rw [hl.base, hl.length]; omega), hslots _ (Nat.le_refl _),
        slotAfter, if_pos rfl]
    constructor
    · rintro ⟨h1, hins1, hget⟩
      obtain rfl : h' = h1 := Except.ok.inj (hins.symm.trans hins1)
      exact Option.some.inj (Except.ok.inj (hnew.symm.trans hget))
    · exact fun hback => ⟨h', hins, by rw [hnew, hback]⟩
  · obtain ⟨b, hw, hlen, hframe, hread⟩ := writeEntry_reads he.ofKind (p := h.base + 12 * i)
      (b := h.bytes) (by omega)
    obtain ⟨hl, hb, hcnt⟩ := like_withBytes hlen (hframe 0 h.base (by omega))
    have hrep : h.replaceAt e i = .ok (h.withBytes b) := by rw [replaceAt, if_neg (by omega), hw]
    have hnew : (h.withBytes b).get i = .ok (some (h.asRead e)) := by
      rw [get_slot (by omega) (by rw [hl.base, hl.length]; omega), slot, hl.base, hread _ hl hb]
    have hothers : ∀ j ≠ i, (h.withBytes b).get j = h.get j := by
      intro j hj
      rw [get, get, hcnt, hl.base, hl.length,
        decode_congr hl (by rw [hb]; exact hframe _ _ (by omega))]
    constructor
    · rintro ⟨h1, hrep1, hget, -⟩
      obtain rfl : h.withBytes b = h1 := Except.ok.inj (hrep.symm.trans hrep1)
      exact Option.some.inj (Except.ok.inj (hnew.symm.trans hget))
    · exact fun hback => ⟨h.withBytes b, hrep, by rw [hnew, hback], hothers⟩

/-- The largest merged extent is read from the root as one of no blocks. -/
theorem not_appendReadsBack_rootOfTwo :
    rootOfTwo.Roomy ∧ rootOfTwo.Writable (.leaf ⟨20, 300, 2 ^ 15, true⟩) ∧
      ¬ rootOfTwo.AppendReadsBack (.leaf ⟨20, 300, 2 ^ 15, true⟩) := by
  refine ⟨rootOfTwo_roomy, by decide, ?_⟩
  rintro ⟨h', hins, hget⟩
  have hread :
      (rootOfTwo.insertAt (.leaf ⟨20, 300, 2 ^ 15, true⟩) rootOfTwo.entriesCnt).toOption.map
        (fun h => h.get rootOfTwo.entriesCnt) =
      some (.ok (some (.leaf ⟨20, 300, 0, false⟩))) := by
    decide +kernel
  rw [hins] at hread
  exact absurd ((Option.some.inj hread).symm.trans hget) (by decide)

theorem readsBack_rootOfTwo :
    rootOfTwo.AppendReadsBack (.leaf ⟨20, 300, 2 ^ 15 - 1, true⟩) ∧
      rootOfTwo.ReplaceReadsBack (.leaf ⟨0, 300, 2 ^ 15 - 1, true⟩) 0 :=
  ⟨((readsBack_iff rootOfTwo_roomy (by decide)).1 (by decide)).mpr (by decide),
    ((readsBack_iff rootOfTwo_roomy (by decide)).2 0 (by decide)).mpr (by decide)⟩

end ExtentHeader
end RustExt4.Inode.Extent
