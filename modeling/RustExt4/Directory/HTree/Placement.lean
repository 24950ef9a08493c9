/-
  RustExt4.Directory.HTree.Placement

  What a split does to the index of a hashed directory.  The new key lies between the
  hashes of the two halves, and it goes behind the last slot that the cursor visited:
  the keys stay in order, and each entry stays in a slot in which a lookup finds it.
-/
import RustExt4.Directory.HTree.Insert

namespace RustExt4.Directory

open DirectoryEntryDispatch

namespace DirectoryBlock

variable {d d' : DirectoryBlock} {es : List DirEntry}

/-- Entries with valid names leave a well-formed block, and no record comes from elsewhere. -/
theorem WellFormed.putEntries (h : d.WellFormed)
    (hes : ∀ e ∈ es, e.Ok ∧ utf8Valid e.name = true) (hput : HTree.putEntries d es = .ok d') :
    d'.WellFormed ∧ d'.blkSize = d.blkSize ∧
      ∀ e' ∈ d'.liveEntries,
        e' ∈ d.liveEntries ∨ ∃ e ∈ es, e'.name = e.name ∧ e'.inode = e.inode := by
  induction es generalizing d with
  | nil =>
      cases hput
      exact ⟨h, rfl, fun e' he' => Or.inl he'⟩
  | cons e es ih =>
      obtain ⟨⟨hlen, hne, hlt⟩, hvalid⟩ := hes e List.mem_cons_self
      have hrest : ∀ e' ∈ es, e'.Ok ∧ utf8Valid e'.name = true :=
        fun e' he' => hes e' (List.mem_cons_of_mem _ he')
      -- One insertion changes nothing or adds the entry.
      have hone : ∀ {r d1}, d.insertEntry e.name (e.ty.map Ext4De.intoFileType) e.inode =
          .ok (r, d1) → d1 = d ∨ Inserted d d1
            (d.newEntry e.name (e.ty.map Ext4De.intoFileType) e.inode) := by
        intro r d1 hins
        by_cases hde : d.isVersion2 = true → e.ty.map Ext4De.intoFileType ≠ none
        · rcases insertEntry_spec hde h.tiles hlen hlt hne with ⟨-, hins'⟩ | ⟨d2, hins', hd2⟩
          · rw [hins] at hins'
            cases hins'
            exact Or.inl rfl
          · rw [hins] at hins'
            cases hins'
            exact Or.inr hd2
        · push Not at hde
          rw [hde.2] at hins
          exact Or.inl (insertFrom_none hde.1 hins none).2.1
      rw [HTree.putEntries] at hput
      split at hput
      case h_1 => cases hput
      case h_2 r d1 hins =>
        rcases hone hins with rfl | hd1
        · obtain ⟨hwf, hblk, hmem⟩ := ih h hrest hput
          refine ⟨hwf, hblk, fun e' he' => (hmem e' he').imp_right fun hex => ?_⟩
          obtain ⟨x, hx, hname⟩ := hex
          exact ⟨x, List.mem_cons_of_mem _ hx, hname⟩
        · obtain ⟨hwf, hblk, hmem⟩ := ih (h.inserted hd1 hvalid) hrest hput
          refine ⟨hwf, hblk.trans hd1.blkSize, fun e' he' => ?_⟩
          rcases hmem e' he' with hold | ⟨x, hx, hname⟩
          · obtain ⟨l, p, r, hlive, hlive'⟩ := hd1.live
            rw [liveEntries, hlive', List.map_append, List.map_cons] at hold
            rw [liveEntries, hlive, List.map_append]
            rcases List.mem_append.mp hold with hl | hr
            · exact Or.inl (List.mem_append_left _ hl)
            · rcases List.mem_cons.mp hr with rfl | hr
              · exact Or.inr ⟨e, List.mem_cons_self, rfl, rfl⟩
              · exact Or.inl (List.mem_append_right _ hr)
          · exact Or.inr ⟨x, List.mem_cons_of_mem _ hx, hname⟩

/-- A cleared block that takes a list of entries holds records of the list only. -/
theorem WellFormed.refill (hhi : d.blkSize < 2 ^ 16) (hlo : 8 ≤ d.blkSize) (h4 : 4 ∣ d.blkSize)
    (hnil : es ≠ []) (hes : ∀ e ∈ es, e.Ok ∧ utf8Valid e.name = true)
    (hput : HTree.putEntries d.clear es = .ok d') :
    d'.WellFormed ∧ d'.blkSize = d.blkSize ∧
      ∀ e' ∈ d'.liveEntries, ∃ e ∈ es, e'.name = e.name ∧ e'.inode = e.inode := by
  -- The old first name length has to fit, or `clear` leaves no record to insert at.
  have hname : 8 + getNameLen d.isVersion2 d.inner 0 ≤ d.blkSize := by
    by_contra hname
    obtain ⟨e, es, rfl⟩ := List.exists_cons_of_ne_nil hnil
    rw [HTree.putEntries, clear_insert_error hlo hhi hname] at hput
    cases hput
  have ht := clear_tiles hlo hhi h4 hname
  have hblk := (clear_spec hlo hhi).1
  have hempty := clear_live hlo hhi ht
  -- The cleared block is one unused record.
  have hclear : d.clear.WellFormed := by
    refine ⟨by rw [hblk]; exact hhi, by rwa [positions_eq ht], fun x hx => ?_⟩
    have hmem : x.2 ∈ d.clear.liveEntries := List.mem_map_of_mem hx
    rw [hempty] at hmem
    cases hmem
  obtain ⟨hwf, hb, hmem⟩ := hclear.putEntries hes hput
  refine ⟨hwf, hb.trans hblk, fun e' he' => ?_⟩
  apply (hmem e' he').resolve_left
  rw [hempty]
  exact List.not_mem_nil

end DirectoryBlock

namespace HTree

open Predecessor (Nondecreasing)

/-! ## The cut -/

/-- The new key is the hash of the entry at the cut; the step over a hash that repeats is
    never taken, as the map has each hash once. -/
theorem findHalf_key {blkSize used phash idx newHash pos : Nat}
    {entries : List (Nat × DirEntry)} (hs : SortedMap.Sorted entries)
    (hne : ∀ x ∈ entries, x.1 ≠ phash)
    (h : findHalf blkSize entries used phash idx = some (newHash, pos)) :
    ∃ x, entries[pos - idx]? = some x ∧ idx ≤ pos ∧ newHash = x.1 := by
  induction entries generalizing used phash idx with
  | nil => cases h
  | cons x entries ih =>
      obtain ⟨hash, en⟩ := x
      obtain ⟨hhead, htail⟩ := List.pairwise_cons.mp hs
      rw [findHalf] at h
      by_cases hcut : blkSize / 2 < used + (en.name.length + 8)
      · rw [if_pos hcut, if_neg (Ne.symm (hne _ List.mem_cons_self))] at h
        cases h
        exact ⟨(newHash, en), by rw [Nat.sub_self]; rfl, Nat.le_refl _, rfl⟩
      · rw [if_neg hcut] at h
        obtain ⟨y, hy, hle, hkey⟩ := ih htail (fun y hy => (hhead y hy).ne') h
        refine ⟨y, ?_, by omega, hkey⟩
        rw [show pos - idx = pos - (idx + 1) + 1 by omega, List.getElem?_cons_succ]
        exact hy

theorem hashOf_lt {root : DirDxRoot} {target : Bytes} {hash : Nat}
    (h : root.hashOf target = .ok hash) : hash < 2 ^ 32 := by
  obtain ⟨state, rfl⟩ := Hasher.Ext4Hasher.hashOf_eq_ok h
  unfold Hasher.finish
  dsimp only
  split
  · decide
  · exact UInt32.toNat_lt _

theorem mem_entryMap {hashOf : Bytes → Nat} {d : DirectoryBlock} {en : DirEntry}
    {x : Nat × DirEntry} (h : x ∈ entryMap hashOf d en) :
    x.1 = hashOf x.2.name ∧ x.2 ∈ allEntries d en := by
  refine ⟨?_, ?_⟩
  · exact (SortedMap.key_of_mem_insertAll h).resolve_right List.not_mem_nil
  · exact (SortedMap.mem_insertAll h).resolve_right List.not_mem_nil

/-- The cut leaves entries on both sides, and the new key is the least hash of the upper
    ones. -/
theorem cut_spec {root : DirDxRoot} {d : DirectoryBlock} {en : DirEntry} {newHash pos : Nat}
    (hblk : 526 ≤ d.blkSize) (hnames : ∀ e ∈ allEntries d en, e.name.length ≤ 255)
    (hhashed : Hashed root.hashOf (allEntries d en))
    (h : findHalf d.blkSize (entryMap (hashVal root.hashOf) d en) 0 u32Max 0 =
      some (newHash, pos)) :
    ((entryMap (hashVal root.hashOf) d en).map Prod.snd).take pos ≠ [] ∧
      ((entryMap (hashVal root.hashOf) d en).map Prod.snd).drop pos ≠ [] ∧
      (∃ e ∈ allEntries d en, newHash = hashVal root.hashOf e.name) ∧
      (∀ e ∈ ((entryMap (hashVal root.hashOf) d en).map Prod.snd).take pos,
        hashVal root.hashOf e.name < newHash) ∧
      ∀ e ∈ ((entryMap (hashVal root.hashOf) d en).map Prod.snd).drop pos,
        newHash ≤ hashVal root.hashOf e.name := by
  have hsorted : SortedMap.Sorted (entryMap (hashVal root.hashOf) d en) :=
    SortedMap.insertAll_sorted List.Pairwise.nil
  -- The mark before the first entry is odd, and the hashes are even.
  have hmark : ∀ x ∈ entryMap (hashVal root.hashOf) d en, x.1 ≠ u32Max := by
    intro x hx heq
    obtain ⟨hkey, hmem⟩ := mem_entryMap hx
    obtain ⟨hash, hhash⟩ := hhashed x.2 hmem
    have heven := DirDxRoot.hashOf_even hhash
    rw [← hashVal_eq hhash, ← hkey, heq] at heven
    exact absurd heven (by decide)
  obtain ⟨k, hk, hlt, hpos, -, -⟩ := findHalf_spec (Nat.zero_le _) h
  obtain ⟨x, hx, -, rfl⟩ := findHalf_key hsorted hmark h
  rw [Nat.sub_zero] at hx
  rw [Nat.zero_add] at hk
  subst hk
  have hpos : 0 < pos := by
    apply hpos
    intro y hy
    have := hnames y.2 (mem_entryMap hy).2
    omega
  have hmem := List.mem_of_getElem? hx
  obtain ⟨hpos', rfl⟩ := List.getElem?_eq_some_iff.mp hx
  refine ⟨?_, ?_, ⟨_, (mem_entryMap hmem).2, (mem_entryMap hmem).1⟩, fun e he => ?_, fun e he => ?_⟩
  · rw [ne_eq, List.take_eq_nil_iff, not_or]
    exact ⟨hpos.ne', List.ne_nil_of_length_pos (by rw [List.length_map]; omega)⟩
  · rw [ne_eq, List.drop_eq_nil_iff, List.length_map]
    omega
  · rw [← List.map_take] at he
    obtain ⟨y, hy, rfl⟩ := List.mem_map.mp he
    rw [← (mem_entryMap (List.mem_of_mem_take hy)).1]
    obtain ⟨i, hi, rfl⟩ := List.mem_take_iff_getElem.mp hy
    exact List.pairwise_iff_getElem.mp hsorted i pos _ hpos' (by omega)
  · rw [← List.map_drop] at he
    obtain ⟨y, hy, rfl⟩ := List.mem_map.mp he
    rw [← (mem_entryMap (List.mem_of_mem_drop hy)).1]
    obtain ⟨i, hi, rfl⟩ := List.mem_drop_iff_getElem.mp hy
    rcases Nat.eq_zero_or_pos i with rfl | hi0
    · exact Nat.le_refl _
    · exact (List.pairwise_iff_getElem.mp hsorted pos (pos + i) hpos' _ (by omega)).le

/-! ## Placement -/

/-- A hash belongs in the slot with the key `key` before the slot `next`: below the next
    key, and not below the own one but for the bit that marks a continuation. -/
def Fits (hash key : Nat) (next : Option DxEntry) : Prop :=
  (∀ en, next = some en → hash < en.hash) ∧ (key ≤ hash ∨ key = hash + 1)

/-- The hash of a name, where it has one, belongs in the slot. -/
def FitsName (hashOf : Bytes → Except Fault Nat) (name : Bytes) (key : Nat)
    (next : Option DxEntry) : Prop :=
  ∀ hash, hashOf name = .ok hash → Fits hash key next

/-- The hash of a name belongs in the last slot that the cursor visits for it. -/
theorem HTreeCursor.visits_last {root : DirDxRoot} (hnd : Nondecreasing DxEntry.hash root.slots)
    (hlevels : root.indirectLevels = 0) (hash : Nat) :
    ∃ c j last, HTreeCursor.fromHash root hash = .ok c ∧
      c.pos + (c.visits root).length = j + 1 ∧ (c.visits root).getLast? = some last ∧
      root.slots[j]? = some last ∧ Fits hash last.hash root.slots[j + 1]? := by
  -- The visited slots are a stretch of the entries, from the one the search stops at.
  obtain ⟨n, hfrom, hn, hlow, hhigh⟩ := fromHash_spec hnd hlevels hash
  obtain ⟨c, hfrom', hvisits⟩ := visits_fromHash hnd hlevels hash
  obtain rfl := Except.ok.inj (hfrom.symm.trans hfrom')
  obtain ⟨rest, hrest⟩ := visits_prefix root { pos := n, hash := some hash, checkHash := false }
  -- The first of them is never checked against the hash.
  have hnonempty : visits root { pos := n, hash := some hash, checkHash := false } ≠ [] := by
    have hnext : next root { pos := n, hash := some hash, checkHash := false } =
        some (root.slots[n], { pos := n + 1, hash := some hash, checkHash := true }) := by
      simp only [next, DirDxRoot.entries_eq, List.getElem?_eq_getElem hn]
      rw [if_neg fun hc => Bool.noConfusion hc.1]
    rw [visits_of_some hnext]
    exact List.cons_ne_nil _ _
  obtain ⟨front, last, hvs⟩ := (List.eq_nil_or_concat' _).resolve_left hnonempty
  rw [hvs] at hvisits hrest
  -- So the last one is the slot before where the cursor stands.
  have hlast : root.slots[n + front.length]? = some last := by
    rw [← List.getElem?_drop, ← hrest, List.append_assoc,
      List.getElem?_append_right (Nat.le_refl _), Nat.sub_self]
    rfl
  refine ⟨_, n + front.length, last, hfrom, ?_, by rw [hvs, List.getLast?_concat], hlast,
    fun en hen => ?_, ?_⟩
  · rw [hvs, List.length_append]
    rfl
  · exact hhigh _ en (by omega) hen
  · -- It is the slot of the hash, or one of the collision run after it.
    have hmem : last ∈ root.candidates hash := hvisits ▸ List.mem_append_right _ List.mem_cons_self
    rcases List.mem_append.mp hmem with hmem | hmem
    · rw [Option.mem_toList] at hmem
      exact Or.inl (by simpa using (List.mem_filter.mp (List.mem_of_getLast? hmem)).2)
    · exact Or.inr (by simpa using (List.mem_filter.mp hmem).2)

/-- A new slot behind slot `j` with some of its entries: all entries are where they belong,
    if the halves are. -/
theorem fits_insertIdx {slots : List DxEntry} {j : Nat} {last : DxEntry}
    (hashOf : Bytes → Except Fault Nat) (new : DxEntry)
    (entries entries' : DxEntry → List DirEntry) (hj : slots[j]? = some last)
    (hplaced : ∀ i en, slots[i]? = some en → ∀ e ∈ entries en,
      FitsName hashOf e.name en.hash slots[i + 1]?)
    (hsame : ∀ i en, slots[i]? = some en → i ≠ j → entries' en = entries en)
    (hold : ∀ e ∈ entries' last, FitsName hashOf e.name last.hash (some new))
    (hnew : ∀ e ∈ entries' new, FitsName hashOf e.name new.hash slots[j + 1]?) :
    ∀ i en, (slots.insertIdx (j + 1) new)[i]? = some en → ∀ e ∈ entries' en,
      FitsName hashOf e.name en.hash (slots.insertIdx (j + 1) new)[i + 1]? := by
  have hlen := (List.getElem?_eq_some_iff.mp hj).1
  intro i en hen e he
  -- Before the new slot, at it and after it.
  rcases Nat.lt_trichotomy i (j + 1) with hlt | rfl | hgt
  · rw [List.getElem?_insertIdx_of_lt hlt] at hen
    -- The slot that was split is bounded by the new one now.
    by_cases hij : i = j
    · subst hij
      obtain rfl := Option.some.inj (hj.symm.trans hen)
      rw [List.getElem?_insertIdx_self, if_pos (by omega)]
      exact hold e he
    · rw [List.getElem?_insertIdx_of_lt (by omega)]
      exact hplaced i en hen e (hsame i en hen hij ▸ he)
  · rw [List.getElem?_insertIdx_self, if_pos (by omega)] at hen
    obtain rfl := Option.some.inj hen
    rw [List.getElem?_insertIdx_of_gt (by omega)]
    exact hnew e he
  · rw [List.getElem?_insertIdx_of_gt hgt] at hen
    rw [List.getElem?_insertIdx_of_gt (by omega)]
    have hfits := hplaced (i - 1) en hen e (hsame (i - 1) en hen (by omega) ▸ he)
    rwa [show i - 1 + 1 = i by omega] at hfits

/-! ## Hashed directories -/

/-- A leaf block of a directory. -/
structure IsLeaf (blkSize : Nat) (d : DirectoryBlock) : Prop where
  wellFormed : d.WellFormed
  blkSize : d.blkSize = blkSize
  names : ∀ e ∈ d.liveEntries, e.name.length ≤ 255

namespace HashedDir

/-- The live entries in the leaf block of a slot. -/
def entriesOf (dir : HashedDir) (en : DxEntry) : List DirEntry :=
  match dir.leafs en.block with
  | some d => d.liveEntries
  | none => []

/-- A hashed directory of one level: its slots fit the root block and are counted, the keys
    do not go down, each slot has a leaf block of its own, and each live entry is in a slot
    where its hash belongs. -/
structure Ok (dir : HashedDir) (blkSize : Nat) : Prop where
  levels : dir.root.indirectLevels = 0
  count : 1 ≤ dir.root.climit.count
  fits : 0x20 + 8 * dir.root.climit.limit ≤ dir.root.raw.length
  keys : Nondecreasing DxEntry.hash dir.root.slots
  blocks : (dir.root.slots.map DxEntry.block).Nodup
  leafs : ∀ en ∈ dir.root.slots, ∃ d, dir.leafs en.block = some d ∧ IsLeaf blkSize d
  placed : ∀ i en, dir.root.slots[i]? = some en → ∀ e ∈ dir.entriesOf en,
    FitsName dir.root.hashOf e.name en.hash dir.root.slots[i + 1]?

/-- The insertion comes to `split_data`. -/
def Splits (dir : HashedDir) (entry : Bytes) (de : FileType) (child : Nat) : Prop :=
  ∃ hash c dir' c' last, dir.root.hashOf entry = .ok hash ∧
    HTreeCursor.fromHash dir.root hash = .ok c ∧
    dir.insertLoop entry de child c none = .ok (.full dir' c' (some last))

variable {dir dir' : HashedDir} {blkSize : Nat} {c : HTreeCursor} {en : DirEntry}
  {last : DxEntry} {newBlk : Except Fault Bytes} {d : DirectoryBlock}

/-- A split that returns has cut the map of the entries in two, put the hash at the cut
    into the index and each part into its block. -/
theorem splitData_eq_ok (hd : dir.leafs last.block = some d) (hwf : d.WellFormed)
    (hok : dir.splitData c en last newBlk = .ok dir') :
    Hashed dir.root.hashOf (allEntries d en) ∧ dir.tail < 2 ^ 32 ∧
      ∃ b newHash pos root old new, newBlk = .ok b ∧
      findHalf d.blkSize (entryMap (hashVal dir.root.hashOf) d en) 0 u32Max 0 =
        some (newHash, pos) ∧
      c.insert dir.root { hash := newHash, block := dir.tail } = .ok root ∧
      putEntries d.clear (((entryMap (hashVal dir.root.hashOf) d en).map Prod.snd).take pos) =
        .ok old ∧
      putEntries (DirectoryBlock.clear { inner := b, isVersion2 := d.isVersion2 })
        (((entryMap (hashVal dir.root.hashOf) d en).map Prod.snd).drop pos) = .ok new ∧
      dir' = ({ dir with root := root }.store last.block old).append new := by
  obtain ⟨gathered, hgather⟩ : ∃ gathered, gather dir.root.hashOf d {} [] = .ok gathered := by
    cases hgather : gather dir.root.hashOf d {} [] with
    | error e => simp [splitData, hd, hgather] at hok
    | ok gathered => exact ⟨gathered, rfl⟩
  obtain ⟨hash, hhash⟩ : ∃ hash, dir.root.hashOf en.name = .ok hash := by
    cases hhash : dir.root.hashOf en.name with
    | error e => simp [splitData, hd, hgather, hhash] at hok
    | ok hash => exact ⟨hash, rfl⟩
  obtain ⟨hlive, rfl⟩ := (gather_live hwf).mp hgather
  have hmap := insert_entryMap (hashVal dir.root.hashOf) d en
  rw [hashVal_eq hhash] at hmap
  refine ⟨hashed_allEntries hlive hhash, ?_⟩
  unfold splitData at hok
  simp only [hd, hgather, hhash, hmap] at hok
  -- Every step of the split has succeeded.
  split at hok
  case isTrue => cases hok
  case isFalse htail =>
    refine ⟨Nat.lt_of_not_le htail, ?_⟩
    cases newBlk with
    | error e => cases hok
    | ok b =>
        dsimp only at hok
        cases hhalf : findHalf d.blkSize (entryMap (hashVal dir.root.hashOf) d en) 0 u32Max 0 with
        | none => simp [hhalf] at hok
        | some x =>
            obtain ⟨newHash, pos⟩ := x
            simp only [hhalf] at hok
            split at hok
            case h_1 => cases hok
            case h_2 root hroot =>
              split at hok
              case h_1 => cases hok
              case h_2 old hold =>
                split at hok
                case h_1 => cases hok
                case h_2 new hnew =>
                  cases hok
                  exact ⟨b, newHash, pos, root, old, new, rfl, rfl, hroot, hold, hnew, rfl⟩

/-- A split whose steps return. -/
theorem splitData_of_ok (hd : dir.leafs last.block = some d) (hwf : d.WellFormed)
    (hhashed : Hashed dir.root.hashOf (allEntries d en))
    (htail : dir.tail < 2 ^ 32) {b : Bytes} {newHash pos : Nat} {root : DirDxRoot}
    {old new : DirectoryBlock}
    (hhalf : findHalf d.blkSize (entryMap (hashVal dir.root.hashOf) d en) 0 u32Max 0 =
      some (newHash, pos))
    (hins : c.insert dir.root { hash := newHash, block := dir.tail } = .ok root)
    (hold : putEntries d.clear
      (((entryMap (hashVal dir.root.hashOf) d en).map Prod.snd).take pos) = .ok old)
    (hnew : putEntries (DirectoryBlock.clear { inner := b, isVersion2 := d.isVersion2 })
      (((entryMap (hashVal dir.root.hashOf) d en).map Prod.snd).drop pos) = .ok new) :
    dir.splitData c en last (.ok b) =
      .ok (({ dir with root := root }.store last.block old).append new) := by
  have hgather := (gather_live hwf).mpr
    ⟨fun e he => hhashed e (List.mem_append_left _ he), rfl⟩
  obtain ⟨hash, hhash⟩ := hhashed en (List.mem_append_right _ List.mem_cons_self)
  have hmap := insert_entryMap (hashVal dir.root.hashOf) d en
  rw [hashVal_eq hhash] at hmap
  rw [splitData, hd]
  simp only [hgather, hhash, hmap]
  rw [if_neg (Nat.not_le.mpr htail)]
  simp only [hhalf, hins, hold, hnew]

/-- The leaf block of a directory that is split is split as a block. -/
theorem splitData_leaf (hd : dir.leafs last.block = some d) (hwf : d.WellFormed)
    (hok : dir.splitData c en last newBlk = .ok dir') :
    ∃ b old new root, newBlk = .ok b ∧
      HTree.splitData dir.root.hashOf (fun _ => .ok ()) (.ok b) d en = .ok (old, new) ∧
      dir' = ({ dir with root := root }.store last.block old).append new := by
  obtain ⟨hhashed, -, b, newHash, pos, root, old, new, rfl, hhalf, -, hold, hnew, hdir⟩ :=
    splitData_eq_ok hd hwf hok
  exact ⟨b, old, new, root, rfl, splitData_of_halves hwf hhashed hhalf rfl hold hnew, hdir⟩

theorem hashOf_congr {root root' : DirDxRoot} (h : root'.hasher = root.hasher) :
    root'.hashOf = root.hashOf := by
  funext name
  rw [DirDxRoot.hashOf, DirDxRoot.hashOf, h]

theorem ne_tail_of_leafs {fba : Nat} (hd : dir.leafs fba = some d) : fba ≠ dir.tail := by
  rintro rfl
  rw [dir.unmapped _ (Nat.le_refl _)] at hd
  cases hd

/-- The leaf blocks of the split directory. -/
theorem leafs_split {fba : Nat} (hd : dir.leafs fba = some d) (root : DirDxRoot)
    (old new : DirectoryBlock) :
    let dir' := ({ dir with root := root }.store fba old).append new
    dir'.leafs fba = some old ∧ dir'.leafs dir.tail = some new ∧
      ∀ x, x ≠ fba → x ≠ dir.tail → dir'.leafs x = dir.leafs x := by
  have htail := ne_tail_of_leafs hd
  refine ⟨?_, if_pos rfl, fun x hx hx' => ?_⟩
  · simp only [append, store, if_neg htail, reduceIte, hd, Option.map_some]
  · simp only [append, store, if_neg hx', if_neg hx]

/-- A leaf block belongs to one slot. -/
theorem index_of_block {slots : List DxEntry} (hnd : (slots.map DxEntry.block).Nodup) {i j : Nat}
    {a b : DxEntry} (ha : slots[i]? = some a) (hb : slots[j]? = some b)
    (heq : a.block = b.block) : i = j := by
  have hi := (List.getElem?_eq_some_iff.mp ha).1
  apply (List.getElem?_inj (by rwa [List.length_map]) hnd).mp
  rw [List.getElem?_map, List.getElem?_map, ha, hb, Option.map_some, Option.map_some, heq]

/-- The entries that a split sorts are of the slot that is split. -/
theorem Ok.allEntries (h : dir.Ok blkSize) {j : Nat} (hj : dir.root.slots[j]? = some last)
    (hd : dir.leafs last.block = some d) (hleaf : IsLeaf blkSize d)
    (hen : en.Ok ∧ utf8Valid en.name = true)
    (hfit : FitsName dir.root.hashOf en.name last.hash dir.root.slots[j + 1]?) :
    ∀ e ∈ allEntries d en, (e.Ok ∧ utf8Valid e.name = true) ∧
      FitsName dir.root.hashOf e.name last.hash dir.root.slots[j + 1]? := by
  intro e he
  rcases List.mem_append.mp he with he | he
  · refine ⟨⟨liveEntries_ok hleaf.names e he, ?_⟩, h.placed j last hj e ?_⟩
    · obtain ⟨x, hx, rfl⟩ := List.mem_map.mp he
      exact hleaf.wellFormed.names x hx
    · simpa only [entriesOf, hd] using he
  · rw [List.mem_singleton.mp he]
    exact ⟨hen, hfit⟩

/-- The directory with a new slot behind slot `j`, over the two blocks that take the place of
    the one of slot `j`. -/
theorem Ok.insertSlot (h : dir.Ok blkSize) {j newHash : Nat} {old new : DirectoryBlock}
    (hj : dir.root.slots[j]? = some last) (hlevels : dir'.root.indirectLevels = 0)
    (hcount : 1 ≤ dir'.root.climit.count)
    (hfits : 0x20 + 8 * dir'.root.climit.limit ≤ dir'.root.raw.length)
    (hhash : dir'.root.hashOf = dir.root.hashOf)
    (hslots : dir'.root.slots =
      dir.root.slots.insertIdx (j + 1) { hash := newHash, block := dir.tail })
    (hold : dir'.leafs last.block = some old) (hnew : dir'.leafs dir.tail = some new)
    (hsame : ∀ x, x ≠ last.block → x ≠ dir.tail → dir'.leafs x = dir.leafs x)
    (holdLeaf : IsLeaf blkSize old) (hnewLeaf : IsLeaf blkSize new)
    (hkey : last.hash ≤ newHash)
    (hnext : ∀ next, dir.root.slots[j + 1]? = some next → newHash ≤ next.hash)
    (holdFits : ∀ e ∈ old.liveEntries, FitsName dir.root.hashOf e.name last.hash
      (some { hash := newHash, block := dir.tail }))
    (hnewFits : ∀ e ∈ new.liveEntries, FitsName dir.root.hashOf e.name newHash
      dir.root.slots[j + 1]?) : dir'.Ok blkSize := by
  have hjlt := (List.getElem?_eq_some_iff.mp hj).1
  -- The new block is at the tail, where no slot points yet.
  have hmapped : ∀ en ∈ dir.root.slots, en.block ≠ dir.tail := by
    intro en hen
    obtain ⟨d', hd', -⟩ := h.leafs en hen
    exact ne_tail_of_leafs hd'
  have hother : ∀ i en, dir.root.slots[i]? = some en → i ≠ j →
      dir'.leafs en.block = dir.leafs en.block := by
    intro i en hi hij
    apply hsame _ _ (hmapped en (List.mem_of_getElem? hi))
    exact fun heq => hij (index_of_block h.blocks hi hj heq)
  have hperm : (dir.root.slots.insertIdx (j + 1) { hash := newHash, block := dir.tail }).Perm
      ({ hash := newHash, block := dir.tail } :: dir.root.slots) := List.perm_insertIdx _ _ hjlt
  refine ⟨hlevels, hcount, hfits, ?_, ?_, ?_, ?_⟩
  · -- The keys: the new one comes right after the one it was split from.
    obtain ⟨l1, l2, hl, rfl, hhead⟩ := Predecessor.exists_append_of_getElem? hj
    have hkeys := h.keys
    rw [hslots, hl, Predecessor.insertIdx_append_cons]
    rw [hl] at hkeys
    apply hkeys.insert_after hkey
    intro next hnext'
    exact hnext next (hhead.trans hnext')
  · -- The blocks.
    rw [hslots, (hperm.map DxEntry.block).nodup_iff, List.map_cons, List.nodup_cons]
    refine ⟨fun hmem => ?_, h.blocks⟩
    obtain ⟨en, hen, heq⟩ := List.mem_map.mp hmem
    exact hmapped en hen heq
  · -- The leaves.
    intro en hen
    rw [hslots, hperm.mem_iff, List.mem_cons] at hen
    rcases hen with rfl | hen
    · exact ⟨new, hnew, hnewLeaf⟩
    · obtain ⟨i, hi⟩ := List.mem_iff_getElem?.mp hen
      by_cases hij : i = j
      · subst hij
        obtain rfl := Option.some.inj (hj.symm.trans hi)
        exact ⟨old, hold, holdLeaf⟩
      · rw [hother i en hi hij]
        exact h.leafs en hen
  · -- The placement of the names, slot by slot.
    rw [hslots]
    apply fits_insertIdx dir'.root.hashOf _ dir.entriesOf dir'.entriesOf hj
    · intro i en hi e he
      rw [hhash]
      exact h.placed i en hi e he
    · intro i en hi hij
      rw [entriesOf, entriesOf, hother i en hi hij]
    · intro e he
      simp only [entriesOf, hold] at he
      rw [hhash]
      exact holdFits e he
    · intro e he
      simp only [entriesOf, hnew] at he
      rw [hhash]
      exact hnewFits e he

/-- A split behind the last slot visited keeps the directory. -/
theorem Ok.splitData (h : dir.Ok blkSize) (hblk : SupportedBlkSize blkSize)
    (hcount : dir.root.climit.count + 1 < 2 ^ 16) {j : Nat}
    (hj : dir.root.slots[j]? = some last) (hc : c.pos = j + 1)
    (hfit : FitsName dir.root.hashOf en.name last.hash dir.root.slots[j + 1]?)
    (hen : en.Ok ∧ utf8Valid en.name = true) (hnew : ∀ b, newBlk = .ok b → b.length = blkSize)
    (hok : dir.splitData c en last newBlk = .ok dir') :
    ∃ newHash old new, dir'.root.hasher = dir.root.hasher ∧
      LeBytes.SameOn dir'.root.raw dir.root.raw 0 0x22 ∧
      dir'.root.slots =
        dir.root.slots.insertIdx (j + 1) { hash := newHash, block := dir.tail } ∧
      dir'.leafs last.block = some old ∧
      (∀ e ∈ old.liveEntries, ∃ hash, dir.root.hashOf e.name = .ok hash ∧ hash < newHash) ∧
      dir'.leafs dir.tail = some new ∧
      (∀ e ∈ new.liveEntries, ∃ hash, dir.root.hashOf e.name = .ok hash ∧ newHash ≤ hash) ∧
      dir'.Ok blkSize := by
  obtain ⟨d, hd, hleaf⟩ := h.leafs last (List.mem_of_getElem? hj)
  obtain ⟨hhashed, htail, b, newHash, pos, root, old, new, rfl, hhalf, hins, hold, hnewOk, rfl⟩ :=
    splitData_eq_ok hd hleaf.wellFormed hok
  have hall := h.allEntries hj hd hleaf hen hfit
  have hsize : 526 ≤ d.blkSize ∧ 4 ∣ d.blkSize := by
    rw [hleaf.blkSize]
    rcases hblk with rfl | rfl | rfl <;> omega
  obtain ⟨hlower, hupper, ⟨x, hx, hkey⟩, hlt, hge⟩ :=
    cut_spec hsize.1 (fun e he => (hall e he).1.1.1) hhashed hhalf
  have hvalues : ∀ e ∈ (entryMap (hashVal dir.root.hashOf) d en).map Prod.snd,
      e ∈ HTree.allEntries d en := by
    intro e he
    obtain ⟨y, hy, rfl⟩ := List.mem_map.mp he
    exact (mem_entryMap hy).2
  -- What is in the two blocks now.
  obtain ⟨hwf, hb, hmem⟩ := DirectoryBlock.WellFormed.refill hleaf.wellFormed.blkSize_lt
    (by omega) hsize.2 hlower (fun e he => (hall e (hvalues e (List.mem_of_mem_take he))).1) hold
  have hnewBlk : DirectoryBlock.blkSize { inner := b, isVersion2 := d.isVersion2 } = d.blkSize :=
    (hnew b rfl).trans hleaf.blkSize.symm
  obtain ⟨hwf', hb', hmem'⟩ := DirectoryBlock.WellFormed.refill
    (by rw [hnewBlk]; exact hleaf.wellFormed.blkSize_lt) (by rw [hnewBlk]; omega)
    (by rw [hnewBlk]; exact hsize.2) hupper
    (fun e he => (hall e (hvalues e (List.mem_of_mem_drop he))).1) hnewOk
  -- All names have hashes, and each fits the slot.
  have hfits : ∀ e ∈ HTree.allEntries d en,
      dir.root.hashOf e.name = .ok (hashVal dir.root.hashOf e.name) ∧
        Fits (hashVal dir.root.hashOf e.name) last.hash dir.root.slots[j + 1]? := by
    intro e he
    obtain ⟨hash, hhash⟩ := hhashed e he
    rw [hashVal_eq hhash]
    exact ⟨hhash, (hall e he).2 hash hhash⟩
  have holdEntries : ∀ e' ∈ old.liveEntries, e'.name.length ≤ 255 ∧
      ∃ hash, dir.root.hashOf e'.name = .ok hash ∧ hash < newHash ∧
        (last.hash ≤ hash ∨ last.hash = hash + 1) := by
    intro e' he'
    obtain ⟨e, he, hname, -⟩ := hmem e' he'
    have hin := hvalues e (List.mem_of_mem_take he)
    rw [hname]
    exact ⟨(hall e hin).1.1.1, _, (hfits e hin).1, hlt e he, (hfits e hin).2.2⟩
  have hnewEntries : ∀ e' ∈ new.liveEntries, e'.name.length ≤ 255 ∧
      ∃ hash, dir.root.hashOf e'.name = .ok hash ∧ newHash ≤ hash ∧
        ∀ next, dir.root.slots[j + 1]? = some next → hash < next.hash := by
    intro e' he'
    obtain ⟨e, he, hname, -⟩ := hmem' e' he'
    have hin := hvalues e (List.mem_of_mem_drop he)
    rw [hname]
    exact ⟨(hall e hin).1.1.1, _, (hfits e hin).1, hge e he, (hfits e hin).2.1⟩
  -- What is in the index.
  have hjlt := (List.getElem?_eq_some_iff.mp hj).1
  have hlen : dir.root.slots.length = dir.root.climit.count := by
    rw [dir.root.length_slots]
    exact Nat.max_eq_right h.count
  obtain ⟨hhasher, hraw, hhead, hclimit, hslots⟩ :=
    @DirDxRoot.insertAt_spec (j + 1) { hash := newHash, block := dir.tail } dir.root root
      (by omega) hcount (hkey ▸ hashOf_lt (hfits x hx).1) htail (hc ▸ HTreeCursor.insert_ok hins)
  have hlevels : root.indirectLevels = dir.root.indirectLevels :=
    ByteRw.readU8_congr (hhead.mono (by omega) (by omega))
  obtain ⟨hleafOld, hleafNew, hleafSame⟩ := leafs_split hd root old new
  refine ⟨newHash, old, new, hhasher, hhead, hslots, hleafOld, fun e he => ?_, hleafNew,
    fun e he => ?_, ?_⟩
  · obtain ⟨-, hash, hhash, hlt', -⟩ := holdEntries e he
    exact ⟨hash, hhash, hlt'⟩
  · obtain ⟨-, hash, hhash, hge', -⟩ := hnewEntries e he
    exact ⟨hash, hhash, hge'⟩
  obtain ⟨y, hy⟩ := List.exists_mem_of_ne_nil _ hlower
  have hlast : last.hash ≤ newHash := by
    -- An entry of the lower half is below the new key.
    have hltY := hlt y hy
    have hfitY := (hfits y (hvalues y (List.mem_of_mem_take hy))).2.2
    omega
  apply h.insertSlot hj (hlevels.trans h.levels) _ _ (hashOf_congr hhasher) hslots hleafOld hleafNew
    hleafSame ⟨hwf, hb.trans hleaf.blkSize, fun e he => (holdEntries e he).1⟩
    ⟨hwf', hb'.trans (hnewBlk.trans hleaf.blkSize), fun e he => (hnewEntries e he).1⟩ hlast
  · intro next hnext
    rw [hkey]
    exact ((hfits x hx).2.1 next hnext).le
  · intro e he hash hhash
    obtain ⟨-, hash', hhash', hlt', hfit'⟩ := holdEntries e he
    obtain rfl := Except.ok.inj (hhash'.symm.trans hhash)
    refine ⟨fun next hnext => ?_, hfit'⟩
    obtain rfl := Option.some.inj hnext
    exact hlt'
  · intro e he hash hhash
    obtain ⟨-, hash', hhash', hge', hnext'⟩ := hnewEntries e he
    obtain rfl := Except.ok.inj (hhash'.symm.trans hhash)
    exact ⟨hnext', Or.inl hge'⟩
  · rw [append_root, store_root, hclimit]
    exact Nat.succ_pos _
  · rw [append_root, store_root, hclimit, hraw]
    exact h.fits

/-! ## A split of a full leaf -/

/-- An index of one slot, with file block 1. -/
def fullLeafRoot : DirDxRoot where
  raw := List.replicate 32 0 ++ [124, 0, 1, 0, 1, 0, 0, 0] ++ List.replicate 984 0
  hasher := md4Hasher

theorem fullLeafRoot_slots : fullLeafRoot.slots = [{ hash := 0, block := 1 }] := by
  decide +kernel

/-- A directory of one leaf block. -/
def oneLeaf (root : DirDxRoot) (d : DirectoryBlock) : HashedDir where
  root := root
  leafs := fun fba => if fba = 1 then some d else none
  tail := 2
  tail_pos := by decide
  root_block := rfl
  unmapped := fun fba h => if_neg (by omega)

theorem oneLeaf_ok {root : DirDxRoot} (hslots : root.slots = [{ hash := 0, block := 1 }])
    (hlevels : root.indirectLevels = 0) (hcount : 1 ≤ root.climit.count)
    (hfits : 0x20 + 8 * root.climit.limit ≤ root.raw.length) (hd : IsLeaf blkSize d) :
    (oneLeaf root d).Ok blkSize := by
  refine ⟨hlevels, hcount, hfits, ?_, ?_, fun en hen => ?_, fun i en hen e he => ?_⟩
  · rw [oneLeaf, hslots]
    exact List.pairwise_singleton ..
  · rw [oneLeaf, hslots]
    exact List.nodup_singleton _
  · rw [oneLeaf, hslots, List.mem_singleton] at hen
    subst hen
    exact ⟨d, rfl, hd⟩
  · rw [oneLeaf, hslots] at hen ⊢
    obtain ⟨hi, rfl⟩ := List.getElem?_eq_some_iff.mp hen
    obtain rfl : i = 0 := by simpa using hi
    refine fun hash _ => ⟨fun next hnext => ?_, Or.inl (Nat.zero_le _)⟩
    cases hnext

def oneLeafDir (d : DirectoryBlock) : HashedDir := oneLeaf fullLeafRoot d

theorem oneLeafDir_ok {d : DirectoryBlock} (hd : IsLeaf 1024 d) : (oneLeafDir d).Ok 1024 :=
  oneLeaf_ok fullLeafRoot_slots (by decide +kernel) (by decide +kernel) (by decide +kernel) hd

/-- A leaf block that refuses a name is the one that the loop ends with. -/
theorem oneLeafDir_splits {d : DirectoryBlock} {entry : Bytes} {de : FileType} {child : Nat}
    (hfull : d.insertEntry entry (some de) child = .ok (false, d)) (hash : Nat) :
    ∃ c c', HTreeCursor.fromHash fullLeafRoot hash = .ok c ∧
      c'.pos = 1 ∧ (oneLeafDir d).insertLoop entry de child c none =
        .ok (.full (oneLeafDir d) c' (some { hash := 0, block := 1 })) := by
  -- There is one slot, so the search stops at it whatever the hash.
  have hkeys : Nondecreasing DxEntry.hash fullLeafRoot.slots := by
    rw [fullLeafRoot_slots]
    exact List.pairwise_singleton ..
  obtain ⟨n, hfrom, hn, -, -⟩ := HTreeCursor.fromHash_spec hkeys (by decide +kernel) hash
  rw [fullLeafRoot_slots] at hn
  obtain rfl : n = 0 := by simpa using hn
  refine ⟨_, { pos := 1, hash := some hash, checkHash := true }, hfrom, rfl, ?_⟩
  have hnext : HTreeCursor.next (oneLeafDir d).root
      { pos := 0, hash := some hash, checkHash := false } =
        some ({ hash := 0, block := 1 },
          { pos := 1, hash := some hash, checkHash := true }) := by
    simp only [HTreeCursor.next, DirDxRoot.entries_eq, oneLeafDir, oneLeaf, fullLeafRoot_slots]
    rw [List.getElem?_cons_zero]
    simp
  -- And nothing comes after it.
  have hend : HTreeCursor.next (oneLeafDir d).root
      { pos := 1, hash := some hash, checkHash := true } = none := by
    simp only [HTreeCursor.next, DirDxRoot.entries_eq, oneLeafDir, oneLeaf, fullLeafRoot_slots]
    rfl
  have hd : (oneLeafDir d).leafs 1 = some d := rfl
  rw [insertLoop_of_some hnext]
  simp only [hd, hfull, store_self hd]
  exact insertLoop_of_none hend

/-- The split of the full leaf. -/
theorem exists_splitDir : ∃ d dir', IsLeaf 1024 d ∧
    (oneLeafDir d).Splits test65381 .regularFile 17 ∧
    (oneLeafDir d).insert test65381 .regularFile 17 (.ok (List.replicate 1024 0)) = .ok dir' := by
  obtain ⟨d, old, new, hd, hblk, hlive, hfull, hsplit⟩ := exists_splitLeaf
  have hname : fullLeafRoot.hashOf test65381 = .ok (Hasher.hashOf md4Seed test65381) :=
    Hasher.hashOf_unsigned md4Seed test65381
  obtain ⟨c, c', hfrom, hpos, hloop⟩ :=
    oneLeafDir_splits hfull (Hasher.hashOf md4Seed test65381)
  obtain ⟨hmd4, newHash, pos, hhalf, hold, hnew⟩ := splitData_ok hd hsplit
  have hhashed : Hashed fullLeafRoot.hashOf (allEntries d newFile) := hmd4
  -- The hash of the cut is the hash of an entry, so it fits its field.
  have hkey : newHash < 2 ^ 32 := by
    have hhalf' : findHalf d.blkSize (entryMap (hashVal fullLeafRoot.hashOf) d newFile) 0
        u32Max 0 = some (newHash, pos) := hhalf
    obtain ⟨-, -, ⟨x, hx, rfl⟩, -, -⟩ := cut_spec (by omega)
      (fun e he => (leafEntries_ok e (hlive ▸ he)).1.1) hhashed hhalf'
    obtain ⟨hash, hhash⟩ := hhashed x hx
    rw [show hashVal fullLeafRoot.hashOf x.name = hash from hashVal_eq hhash]
    exact hashOf_lt hhash
  obtain ⟨root, hins⟩ := @DirDxRoot.insertAt_ok 1 fullLeafRoot (Nat.le_refl 1)
    (by decide +kernel) (by decide +kernel) { hash := newHash, block := 2 }
  have hcursor : c'.insert (oneLeafDir d).root { hash := newHash, block := (oneLeafDir d).tail } =
      .ok root := by
    change c'.insert fullLeafRoot { hash := newHash, block := 2 } = .ok root
    rw [HTreeCursor.insert, hpos, hins]
  have hleaf : (oneLeafDir d).leafs 1 = some d := rfl
  obtain ⟨dir', hsplitDir⟩ : ∃ dir', (oneLeafDir d).splitData c' newFile { hash := 0, block := 1 }
      (.ok (List.replicate 1024 0)) = .ok dir' :=
    ⟨_, splitData_of_ok hleaf hd hhashed (show 2 < 2 ^ 32 by decide) hhalf hcursor hold hnew⟩
  refine ⟨d, dir', ⟨hd, hblk, leafEntries_length hlive⟩, ⟨_, c, _, c', _, hname, hfrom, hloop⟩, ?_⟩
  have hname' : (oneLeafDir d).root.hashOf test65381 = .ok (Hasher.hashOf md4Seed test65381) :=
    hname
  have hfrom' : HTreeCursor.fromHash (oneLeafDir d).root (Hasher.hashOf md4Seed test65381) =
      .ok c := hfrom
  -- The root has room for one more slot.
  have hfree : ¬ (oneLeafDir d).root.climit.count + 1 = (oneLeafDir d).root.climit.limit := by
    change ¬ fullLeafRoot.climit.count + 1 = fullLeafRoot.climit.limit
    decide +kernel
  have hloop' : (oneLeafDir d).insertLoop test65381 .regularFile 17 c none =
      .ok (.full (oneLeafDir d) c' (some { hash := 0, block := 1 })) := hloop
  rw [insert, if_neg (by decide +kernel), if_neg (by decide +kernel), hname']
  simp only [hfrom']
  rw [if_neg hfree]
  simp only [hloop']
  exact hsplitDir

/-! ## The index after a split -/

variable {entry : Bytes} {de : FileType} {child : Nat}

/-- An insertion that splits a leaf block puts the new key and the new block behind the last
    slot visited; the keys stay in order, the new key is between the halves, and each entry
    is in a slot where its hash belongs. -/
theorem insert_placed (h : dir.Ok blkSize) (hblk : SupportedBlkSize blkSize)
    (hfree : dir.root.climit.count < dir.root.climit.limit) (hdot : isDot entry = false)
    (hen : InsertOk entry child) (hnew : ∀ b, newBlk = .ok b → b.length = blkSize)
    (hsplits : dir.Splits entry de child) (hok : dir.insert entry de child newBlk = .ok dir') :
    ∃ hash c last newHash l1 l2 old new, dir.root.hashOf entry = .ok hash ∧
      HTreeCursor.fromHash dir.root hash = .ok c ∧
      (c.visits dir.root).getLast? = some last ∧ dir.root.slots = l1 ++ last :: l2 ∧
      dir'.root.slots = l1 ++ last :: { hash := newHash, block := dir.tail } :: l2 ∧
      Nondecreasing DxEntry.hash dir'.root.slots ∧
      dir'.leafs last.block = some old ∧
      (∀ e ∈ old.liveEntries, ∃ hash, dir'.root.hashOf e.name = .ok hash ∧ hash < newHash) ∧
      dir'.leafs dir.tail = some new ∧
      (∀ e ∈ new.liveEntries, ∃ hash, dir'.root.hashOf e.name = .ok hash ∧ newHash ≤ hash) ∧
      dir'.Ok blkSize := by
  -- The slot that is split is the last one the search visits.
  obtain ⟨hash, c1, dir1, c', last', hhash, hfrom', hloop⟩ := hsplits
  obtain ⟨c, j, last, hfrom, hpos, hlast, hj, hfit⟩ :=
    HTreeCursor.visits_last h.keys h.levels hash
  obtain rfl := Except.ok.inj (hfrom.symm.trans hfrom')
  have hwf : ∀ en ∈ dir.root.slots, ∃ d, dir.leafs en.block = some d ∧ d.WellFormed := by
    intro en hen
    obtain ⟨d, hd, hleaf⟩ := h.leafs en hen
    exact ⟨d, hd, hleaf.wellFormed⟩
  obtain ⟨rfl, hpos', hlast'⟩ := insertLoop_full hwf hen hloop
  rw [hlast, Option.some_or] at hlast'
  obtain rfl := Option.some.inj hlast'
  -- Past the two dot names, the search and the check for a free slot, only the split is left.
  have hname : entry ≠ [46] ∧ entry ≠ [46, 46] := by
    simpa [isDot] using hdot
  have hlimit : dir1.root.climit.limit < 2 ^ 16 := ByteRw.readU16_lt ..
  rw [insert, if_neg hname.1, if_neg hname.2, hhash] at hok
  simp only [hfrom] at hok
  split at hok
  case isTrue => cases hok
  case isFalse =>
    simp only [hloop] at hok
    have hfits : FitsName dir1.root.hashOf entry last'.hash dir1.root.slots[j + 1]? := by
      intro hash' hhash'
      obtain rfl := Except.ok.inj (hhash.symm.trans hhash')
      exact hfit
    obtain ⟨newHash, old, new, hhasher, -, hslots, hold, hlt, hnew', hge, hok'⟩ :=
      h.splitData hblk (by omega) hj (hpos'.trans hpos)
        hfits ⟨⟨hen.2.1, hen.2.2.2.1, hen.2.2.2.2⟩, hen.2.2.1⟩ hnew hok
    obtain ⟨l1, l2, hl, rfl, -⟩ := Predecessor.exists_append_of_getElem? hj
    rw [hl, Predecessor.insertIdx_append_cons] at hslots
    refine ⟨hash, c, last', newHash, l1, l2, old, new, hhash, hfrom, hlast, hl, hslots, hok'.keys,
      hold, fun e he => ?_, hnew', fun e he => ?_, hok'⟩
    · rw [hashOf_congr hhasher]
      exact hlt e he
    · rw [hashOf_congr hhasher]
      exact hge e he

/-- The full leaf is split. -/
theorem insert_placed_fullLeaf : ∃ d dir', (oneLeafDir d).insert test65381 .regularFile 17
    (.ok (List.replicate 1024 0)) = .ok dir' ∧ dir'.Ok 1024 := by
  obtain ⟨d, dir', hd, hsplits, hok⟩ := exists_splitDir
  obtain ⟨-, -, -, -, -, -, -, -, -, -, -, -, -, -, -, -, -, -, hok'⟩ :=
    insert_placed (oneLeafDir_ok hd) (Or.inl rfl)
      (show fullLeafRoot.climit.count < fullLeafRoot.climit.limit by decide +kernel)
      (by decide +kernel) insertOk_newFile
    (fun b hb => by cases hb; exact List.length_replicate) hsplits hok
  exact ⟨d, dir', hok, hok'⟩

end HashedDir

end HTree
end RustExt4.Directory
