/-
  RustExt4.Directory.HTree.Additions

  What an addition does to the records of a hashed directory.  The number of a dot entry
  is written; another name goes into the first leaf block visited that has room, and where
  none has, the last one is split.
-/
import RustExt4.Directory.HTree.Records

namespace RustExt4.Directory.HTree

open DirectoryEntryDispatch
open LeBytes (SameOn)

theorem putEntries_version {d d' : DirectoryBlock} {es : List DirEntry}
    (h : putEntries d es = .ok d') : d'.isVersion2 = d.isVersion2 := by
  induction es generalizing d with
  | nil =>
      cases h
      rfl
  | cons e es ih =>
      rw [putEntries] at h
      split at h
      case h_1 => cases h
      case h_2 r d1 hins => exact (ih h).trans (DirectoryBlock.insertEntry_version hins)

namespace HashedDir

variable {hashSeed : Hasher.Ext4Hash} {unsignedHash : Bool} {rEntries blkSize : Nat}
  {dir dir' : HashedDir} {d : DirectoryBlock} {en : DxEntry}

/-! ## Additions -/

/-- The leaf block of the slot has a record that takes the name. -/
def Room (dir : HashedDir) (name : Bytes) (en : DxEntry) : Prop :=
  ∃ d, dir.leafs en.block = some d ∧ ∃ p ∈ d.positions, d.Takes p (entrySize name.length)

/-- The slots that an insertion of the name visits. -/
def visited (dir : HashedDir) (name : Bytes) : List DxEntry :=
  dir.root.candidates (hashVal dir.root.hashOf name)

/-- The records outside of the leaf block of a slot. -/
def elsewhere (dir : HashedDir) (en : DxEntry) : List (Bytes × Nat) :=
  dotRecords dir.root.raw ++ dir.recordsIn (dir.root.slots.erase en)

/-- When an addition that returns sets the name and leaves the other names.  A dot name must
    have no other record in a leaf block, and another name no record of another number at
    all; where no block visited has room, the split of the last one must keep the names. -/
structure Sets (dir : HashedDir) (newBlk : Except Fault Bytes) (name : Bytes) (child : Nat) :
    Prop where
  dot : isDot name = true → ∀ i, (name, i) ∈ dir.recordsIn dir.root.slots → i = child
  room : isDot name = false → (∃ en ∈ dir.visited name, dir.Room name en) →
    ∀ i, (name, i) ∈ dir.records → i = child
  split : isDot name = false → (∀ en ∈ dir.visited name, ¬ dir.Room name en) →
    ∀ last d b, (dir.visited name).getLast? = some last → dir.leafs last.block = some d →
      newBlk = .ok b → (∀ i, (name, i) ∈ dir.elsewhere last → i = child) ∧
        SplitSets (hashVal dir.root.hashOf) d b { inode := child, name := name, ty := none }
          ((name, child) ∈ dir.elsewhere last)

variable {name : Bytes} {child : Nat} {de : FileType} {newBlk : Except Fault Bytes}
  {last : DxEntry} {c : HTreeCursor} {lastDxEn : Option DxEntry}

/-- Of two records, one is written. -/
theorem mem_pair_update {a b n : Bytes} {i x y : Nat} (hab : a ≠ b) (hchild : child ≠ 0) :
    (i ≠ 0 ∧ ((n = a ∧ i = child) ∨ (n = b ∧ i = y))) ↔
      (n = a ∧ i = child) ∨ (n ≠ a ∧ i ≠ 0 ∧ ((n = a ∧ i = x) ∨ (n = b ∧ i = y))) := by
  constructor
  · rintro ⟨hi, ha | ⟨rfl, hy⟩⟩
    · exact Or.inl ha
    · exact Or.inr ⟨hab.symm, hi, Or.inr ⟨rfl, hy⟩⟩
  · rintro (⟨rfl, rfl⟩ | ⟨hn, hi, ⟨ha, -⟩ | hb⟩)
    · exact ⟨hchild, Or.inl ⟨rfl, rfl⟩⟩
    · exact absurd ha hn
    · exact ⟨hi, Or.inr hb⟩

/-- The number of a dot entry is written whatever it was; the other dot entry is as it was. -/
theorem mem_dotRecords_writeDot (h : dir.Whole hashSeed unsignedHash rEntries blkSize) {p : Nat}
    (hp : (name = [46] ∧ p = 0) ∨ (name = [46, 46] ∧ p = 12))
    (hchild : child ≠ 0 ∧ child < 2 ^ 32) (n : Bytes) (i : Nat) :
    (n, i) ∈ dotRecords (ByteRw.writeU32 dir.root.raw p child) ↔
      (n = name ∧ i = child) ∨ (n ≠ name ∧ (n, i) ∈ dotRecords dir.root.raw) := by
  have hsize : 24 ≤ dir.root.raw.length := by rcases h.dots.size with h | h | h <;> omega
  have hset : ByteRw.readU32 (ByteRw.writeU32 dir.root.raw p child) p = child := by
    rw [ByteRw.readU32_writeU32 (by omega)]
    exact Nat.mod_eq_of_lt hchild.2
  rw [mem_dotRecords, mem_dotRecords]
  rcases hp with ⟨rfl, rfl⟩ | ⟨rfl, rfl⟩
  · rw [hset, ByteRw.readU32_congr (ByteRw.writeU32_sameOn (by omega))]
    exact mem_pair_update (by decide) hchild.1
  · rw [hset, ByteRw.readU32_congr (ByteRw.writeU32_sameOn (by omega)),
      or_comm (a := n = [46] ∧ _), or_comm (a := n = [46] ∧ _)]
    exact mem_pair_update (by decide) hchild.1

theorem records_writeDot {p : Nat} (hp : p + 4 ≤ 0x18) :
    HashedDir.records
        { dir with root := { dir.root with raw := ByteRw.writeU32 dir.root.raw p child } } =
      dotRecords (ByteRw.writeU32 dir.root.raw p child) ++ dir.recordsIn dir.root.slots :=
  records_setDots fun _ => ByteRw.writeU32_sameOn (Or.inr hp)

theorem setsName_writeDot (h : dir.Whole hashSeed unsignedHash rEntries blkSize) {p : Nat}
    (hp : (name = [46] ∧ p = 0) ∨ (name = [46, 46] ∧ p = 12))
    (hchild : child ≠ 0 ∧ child < 2 ^ 32) :
    SetsName dir.records
        (HashedDir.records
          { dir with root := { dir.root with raw := ByteRw.writeU32 dir.root.raw p child } })
        name child ↔
      ∀ i, (name, i) ∈ dir.recordsIn dir.root.slots → i = child := by
  have hdots := mem_dotRecords_writeDot h hp hchild
  rw [records_writeDot (by omega)]
  constructor
  · intro hsets i hi
    rcases (hsets name i).mp (List.mem_append_right _ hi) with ⟨-, heq⟩ | ⟨hne, -⟩
    · exact heq
    · exact absurd rfl hne
  · intro honly n i
    rw [records, List.mem_append, List.mem_append, hdots]
    constructor
    · rintro ((hnew | ⟨hne, hdot⟩) | hleaf)
      · exact Or.inl hnew
      · exact Or.inr ⟨hne, Or.inl hdot⟩
      · by_cases hn : n = name
        · subst hn
          exact Or.inl ⟨rfl, honly i hleaf⟩
        · exact Or.inr ⟨hn, Or.inr hleaf⟩
    · rintro (hnew | ⟨hne, hdot | hleaf⟩)
      · exact Or.inl (Or.inl hnew)
      · exact Or.inl (Or.inr ⟨hne, hdot⟩)
      · exact Or.inr hleaf

/-- How the loop over the slots ends: in the first leaf block with room, or behind them all. -/
theorem Whole.insertLoop_cases (h : dir.Whole hashSeed unsignedHash rEntries blkSize)
    (hchild : child ≠ 0 ∧ child < 2 ^ 32) {t : Tried}
    (hloop : dir.insertLoop name de child c lastDxEn = .ok t) :
    (∃ en d d', en ∈ c.visits dir.root ∧ dir.Room name en ∧ dir.leafs en.block = some d ∧
        d.Inserted d' (d.newEntry name (some de) child) ∧ t = .inserted (dir.store en.block d')) ∨
      ((∀ en ∈ c.visits dir.root, ¬ dir.Room name en) ∧
        ∃ c', t = .full dir c' ((c.visits dir.root).getLast?.or lastDxEn) ∧
          c'.pos = c.pos + (c.visits dir.root).length) := by
  -- On the slots that the cursor has still to visit.
  induction c using HTreeCursor.visits.induct dir.root generalizing lastDxEn with
  | case1 c hnone =>
      rw [insertLoop_of_none hnone] at hloop
      cases hloop
      rw [HTreeCursor.visits_of_none hnone]
      exact Or.inr ⟨fun en hen => absurd hen List.not_mem_nil, c, rfl, rfl⟩
  | case2 c n c1 hnext ih =>
      obtain ⟨hpos, hn⟩ := HTreeCursor.next_eq_some hnext
      obtain ⟨d, hd, hleaf⟩ := h.ok.leafs n (List.mem_of_getElem? hn)
      rw [insertLoop_of_some hnext] at hloop
      simp only [hd] at hloop
      rw [HTreeCursor.visits_of_some hnext]
      cases hins : d.insertEntry name (some de) child with
      | error e =>
          simp only [hins] at hloop
          cases hloop
      | ok x =>
          obtain ⟨found, d'⟩ := x
          rcases hleaf.wellFormed.insert_takes (h.version _ d hd) hchild hins with
            ⟨rfl, rfl, hno⟩ | ⟨rfl, hd', htakes⟩
          · simp only [hins, store_self hd] at hloop
            rcases ih hloop with ⟨en, d1, d2, hen, hroom, hrest⟩ | ⟨hall, c', rfl, hpos'⟩
            · exact Or.inl ⟨en, d1, d2, List.mem_cons_of_mem _ hen, hroom, hrest⟩
            · refine Or.inr ⟨fun en hen => ?_, c', ?_, ?_⟩
              · rcases List.mem_cons.mp hen with rfl | hen
                · rintro ⟨d2, hd2, p, hp, htake⟩
                  obtain rfl := Option.some.inj (hd.symm.trans hd2)
                  exact hno p hp htake
                · exact hall en hen
              · rw [List.getLast?_cons]
                cases (c1.visits dir.root).getLast? <;> rfl
              · rw [List.length_cons, hpos', hpos]
                omega
          · simp only [hins] at hloop
            cases hloop
            exact Or.inl ⟨n, d, d', List.mem_cons_self, ⟨d, hd, htakes⟩, hd, hd', rfl⟩

/-! ## The split -/

theorem records_perm (hen : en ∈ dir.root.slots) (hd : dir.leafs en.block = some d) :
    dir.records.Perm (dir.elsewhere en ++ d.nameRecords) := by
  have hslots := (List.perm_cons_erase hen).flatMap_right fun en => (dir.entriesOf en).map toRecord
  rw [List.flatMap_cons, entriesOf_eq hd, ← nameRecords_eq] at hslots
  rw [elsewhere, List.append_assoc]
  exact (hslots.trans List.perm_append_comm).append_left _

/-- The slots but one have other blocks. -/
theorem Ok.block_ne_of_mem_erase (h : dir.Ok blkSize) (hen : en ∈ dir.root.slots) {en' : DxEntry}
    (hen' : en' ∈ dir.root.slots.erase en) : en'.block ≠ en.block := by
  have hblocks := ((List.perm_cons_erase hen).map DxEntry.block).nodup_iff.mp h.blocks
  rw [List.map_cons, List.nodup_cons] at hblocks
  exact fun heq => hblocks.1 (heq ▸ List.mem_map_of_mem hen')

/-- The records behind a split. -/
theorem records_split_perm (h : dir.Ok blkSize) {j newHash : Nat} {old new : DirectoryBlock}
    (hj : dir.root.slots[j]? = some last)
    (hraw : SameOn dir'.root.raw dir.root.raw 0 0x22)
    (hslots : dir'.root.slots =
      dir.root.slots.insertIdx (j + 1) { hash := newHash, block := dir.tail })
    (hold : dir'.leafs last.block = some old) (hnew : dir'.leafs dir.tail = some new)
    (hsame : ∀ x, x ≠ last.block → x ≠ dir.tail → dir'.leafs x = dir.leafs x) :
    dir'.records.Perm (dir.elsewhere last ++ (old.nameRecords ++ new.nameRecords)) := by
  have hlast := List.mem_of_getElem? hj
  have hjlt := (List.getElem?_eq_some_iff.mp hj).1
  have hperm : dir'.root.slots.Perm
      ({ hash := newHash, block := dir.tail } :: last :: dir.root.slots.erase last) := by
    rw [hslots]
    exact (List.perm_insertIdx _ _ hjlt).trans ((List.perm_cons_erase hlast).cons _)
  have hrecs := hperm.flatMap_right fun en => (dir'.entriesOf en).map toRecord
  have hrest : (dir.root.slots.erase last).flatMap (fun en => (dir'.entriesOf en).map toRecord) =
      dir.recordsIn (dir.root.slots.erase last) := by
    refine List.flatMap_congr fun en' hen' => ?_
    obtain ⟨d', hd', -⟩ := h.leafs en' (List.mem_of_mem_erase hen')
    rw [entriesOf, entriesOf, hsame _ (h.block_ne_of_mem_erase hlast hen') (ne_tail_of_leafs hd')]
  rw [List.flatMap_cons, List.flatMap_cons, hrest, entriesOf_eq hold,
    show dir'.entriesOf { hash := newHash, block := dir.tail } = new.liveEntries from
      entriesOf_eq hnew, ← nameRecords_eq, ← nameRecords_eq] at hrecs
  rw [records, dotRecords_congr (hraw.mono (by omega) (by omega)) (hraw.mono (by omega) (by omega)),
    elsewhere, List.append_assoc]
  refine (hrecs.trans ?_).append_left _
  rw [← List.append_assoc]
  exact List.perm_append_comm.trans (List.perm_append_comm.append_left _)

/-- Where another slot has the name, the last slot visited is one of the run, and its names
    have no smaller hash. -/
theorem Ok.least (h : dir.Ok blkSize) {hash i : Nat} (hhash : dir.root.hashOf name = .ok hash)
    (hlast : (dir.root.candidates hash).getLast? = some last)
    (hels : (name, i) ∈ dir.recordsIn (dir.root.slots.erase last)) :
    ∀ e ∈ dir.entriesOf last, ∀ hash', dir.root.hashOf e.name = .ok hash' → hash ≤ hash' := by
  obtain ⟨en, hen, e, he, heq⟩ := mem_recordsIn.mp hels
  cases heq
  have hmem := mem_slots_of_candidate (List.mem_of_getLast? hlast)
  have hcand := h.mem_candidates (List.mem_of_mem_erase hen) he hhash
  -- The slot is not the last one, so that is not the only one.
  have hkey : last.hash = hash + 1 := by
    unfold DirDxRoot.candidates at hlast hcand
    cases hrun : dir.root.slots.filter fun en => en.hash = hash + 1 with
    | nil =>
        rw [hrun, List.append_nil] at hlast hcand
        rw [Option.mem_toList] at hcand
        rw [hcand] at hlast
        obtain rfl := Option.some.inj hlast
        exact absurd rfl (h.block_ne_of_mem_erase hmem hen)
    | cons x xs =>
        have hin : last ∈ dir.root.slots.filter fun en => en.hash = hash + 1 := by
          rw [hrun] at hlast ⊢
          rw [List.getLast?_append_of_ne_nil _ (List.cons_ne_nil x xs)] at hlast
          exact List.mem_of_getLast? hlast
        exact of_decide_eq_true (List.mem_filter.mp hin).2
  intro e' he' hash' hhash'
  obtain ⟨k, hk⟩ := List.mem_iff_getElem?.mp hmem
  rcases (h.placed k last hk e' he' hash' hhash').2 with hle | hrun <;> omega

/-- A record of V2 leaf blocks has a short name. -/
theorem records_short (dir : HashedDir)
    (hversion : ∀ fba d, dir.leafs fba = some d → d.isVersion2 = true) {i : Nat}
    (hmem : (name, i) ∈ dir.records) : name.length ≤ 255 := by
  rcases List.mem_append.mp hmem with hdot | hleaf
  · obtain ⟨-, ⟨rfl, -⟩ | ⟨rfl, -⟩⟩ := mem_dotRecords.mp hdot <;> decide
  · obtain ⟨en, -, hrec⟩ := List.mem_flatMap.mp hleaf
    cases hd : dir.leafs en.block with
    | none =>
        rw [entriesOf, hd] at hrec
        cases hrec
    | some d =>
        rw [entriesOf_eq hd, ← nameRecords_eq] at hrec
        exact DirectoryBlock.nameRecords_short (hversion _ d hd) hrec

/-- What a split makes of the records, where the name has at most 255 bytes. -/
theorem Whole.split_perm (h : dir.Whole hashSeed unsignedHash rEntries blkSize)
    (hblk : SupportedBlkSize blkSize) {en : DirEntry} (hen : en.Ok)
    (hvalid : utf8Valid en.name = true) {hash j : Nat} (hhash : dir.root.hashOf en.name = .ok hash)
    (hj : dir.root.slots[j]? = some last) (hfit : Fits hash last.hash dir.root.slots[j + 1]?)
    (hc : c.pos = j + 1) (hd : dir.leafs last.block = some d) {b : Bytes}
    (hb : b.length = blkSize) (hok : dir.splitData c en last (.ok b) = .ok dir') :
    ∃ old new, HTree.splitData dir.root.hashOf (fun _ => .ok ()) (.ok b) d en = .ok (old, new) ∧
      dir'.records.Perm (dir.elsewhere last ++ (old.nameRecords ++ new.nameRecords)) := by
  obtain ⟨d1, hd1, hleaf⟩ := h.ok.leafs last (List.mem_of_getElem? hj)
  obtain rfl := Option.some.inj (hd.symm.trans hd1)
  obtain ⟨b', old, new, root, heq, hblock, hdir⟩ := splitData_leaf hd hleaf.wellFormed hok
  obtain rfl := Except.ok.inj heq
  obtain ⟨hatOld, hatNew, hsame⟩ := leafs_split hd root old new
  rw [← hdir] at hatOld hatNew hsame
  have hfits : FitsName dir.root.hashOf en.name last.hash dir.root.slots[j + 1]? := by
    intro hash' hhash'
    obtain rfl := Except.ok.inj (hhash.symm.trans hhash')
    exact hfit
  have hcount : dir.root.climit.count + 1 < 2 ^ 16 := by
    have hin := h.inBlock
    rcases h.dots.size with h | h | h <;> omega
  obtain ⟨newHash, old', new', -, hraw, hslots, hold', -, hnew', -, -⟩ :=
    h.ok.splitData hblk hcount hj hc hfits ⟨hen, hvalid⟩ (fun x hx => Except.ok.inj hx ▸ hb) hok
  obtain rfl := Option.some.inj (hatOld.symm.trans hold')
  obtain rfl := Option.some.inj (hatNew.symm.trans hnew')
  exact ⟨old, new, hblock, records_split_perm h.ok hj hraw hslots hatOld hatNew hsame⟩

/-- A split leaves no record of a name with more bytes. -/
theorem Whole.split_long (h : dir.Whole hashSeed unsignedHash rEntries blkSize)
    {en : DirEntry} (hlast : last ∈ dir.root.slots) {b : Bytes}
    (hok : dir.splitData c en last (.ok b) = .ok dir') {i : Nat}
    (hmem : (name, i) ∈ dir'.records) : name.length ≤ 255 := by
  obtain ⟨d, hd, hleaf⟩ := h.ok.leafs last hlast
  obtain ⟨b', old, new, root, heq, hblock, hdir⟩ := splitData_leaf hd hleaf.wellFormed hok
  obtain rfl := Except.ok.inj heq
  obtain ⟨hatOld, hatNew, hsame⟩ := leafs_split hd root old new
  rw [← hdir] at hatOld hatNew hsame
  obtain ⟨-, newHash, pos, -, hput, hput'⟩ := splitData_ok hleaf.wellFormed hblock
  -- Both blocks have the version of the old one.
  have hv2 := h.version _ d hd
  refine records_short dir' (fun fba x hx => ?_) hmem
  by_cases hx1 : fba = last.block
  · rw [hx1, hatOld] at hx
    cases hx
    exact (putEntries_version hput).trans hv2
  · by_cases hx2 : fba = dir.tail
    · rw [hx2, hatNew] at hx
      cases hx
      exact (putEntries_version hput').trans hv2
    · rw [hsame fba hx1 hx2] at hx
      exact h.version fba x hx

/-- A split that returns sets the name under the condition of the block that is split. -/
theorem Whole.sets_split (h : dir.Whole hashSeed unsignedHash rEntries blkSize)
    (hblk : SupportedBlkSize blkSize) (hmap : IsMap dir.records) (hvalid : utf8Valid name = true)
    (hdot : isDot name = false) (hchild : child ≠ 0 ∧ child < 2 ^ 32) {hash j : Nat}
    (hhash : dir.root.hashOf name = .ok hash)
    (hlast : (dir.root.candidates hash).getLast? = some last) (hj : dir.root.slots[j]? = some last)
    (hfit : Fits hash last.hash dir.root.slots[j + 1]?) (hc : c.pos = j + 1)
    (hd : dir.leafs last.block = some d) {b : Bytes} (hb : b.length = blkSize) {ty : Option Ext4De}
    (hok : dir.splitData c { inode := child, name := name, ty := ty } last (.ok b) = .ok dir') :
    SetsName dir.records dir'.records name child ↔
      (∀ i, (name, i) ∈ dir.elsewhere last → i = child) ∧
        SplitSets (hashVal dir.root.hashOf) d b { inode := child, name := name, ty := ty }
          ((name, child) ∈ dir.elsewhere last) := by
  have hmem := List.mem_of_getElem? hj
  obtain ⟨d1, hd1, hleaf⟩ := h.ok.leafs last hmem
  obtain rfl := Option.some.inj (hd.symm.trans hd1)
  by_cases hshort : name.length ≤ 255
  · obtain ⟨old, new, hblock, hperm⟩ :=
      h.split_perm hblk ⟨hshort, hchild⟩ hvalid hhash hj hfit hc hd hb hok
    obtain ⟨hhashed, -⟩ := splitData_ok hleaf.wellFormed hblock
    have hbefore := records_perm hmem hd
    rw [SetsName.congr hbefore hperm]
    refine sets_split_iff hleaf.wellFormed (hleaf.blkSize.symm ▸ hblk) hleaf.names
      (hb.trans hleaf.blkSize.symm) ⟨hshort, hchild⟩ hvalid hblock
      ((hbefore.map Prod.fst).nodup_iff.mp hmap) fun hels e he => ?_
    -- A name that is elsewhere too is in the run of its hash.
    have hleafRec : (name, child) ∈ dir.recordsIn (dir.root.slots.erase last) := by
      refine (List.mem_append.mp hels).resolve_left fun hdots => ?_
      obtain ⟨-, ⟨rfl, -⟩ | ⟨rfl, -⟩⟩ := mem_dotRecords.mp hdots <;> cases hdot
    obtain ⟨hash', hhash'⟩ := hhashed e (List.mem_append_left _ he)
    rw [hashVal_eq hhash, hashVal_eq hhash']
    exact h.ok.least hhash hlast hleafRec e (entriesOf_eq hd ▸ he) hash' hhash'
  · exact iff_of_false
      (fun hsets => hshort (h.split_long hmem hok ((hsets name child).mpr (Or.inl ⟨rfl, rfl⟩))))
      fun hs => hshort hs.2.short

theorem sets_dot (hdot : isDot name = true) : dir.Sets newBlk name child ↔
    ∀ i, (name, i) ∈ dir.recordsIn dir.root.slots → i = child := by
  refine ⟨fun hs => hs.dot hdot, fun honly => ⟨fun _ => honly, fun hno => ?_, fun hno => ?_⟩⟩
  all_goals
    rw [hdot] at hno
    cases hno

/-- An addition that returns has written a dot entry, or put a record into the first leaf
    block with room, or split the last one that it visits. -/
theorem Whole.insert_cases (h : dir.Whole hashSeed unsignedHash rEntries blkSize)
    (hchild : child ≠ 0 ∧ child < 2 ^ 32) (hok : dir.insert name de child newBlk = .ok dir') :
    (∃ p, ((name = [46] ∧ p = 0) ∨ (name = [46, 46] ∧ p = 12)) ∧
      dir' = { dir with root := { dir.root with raw := ByteRw.writeU32 dir.root.raw p child } }) ∨
    (isDot name = false ∧ ∃ en d d', en ∈ dir.visited name ∧ dir.Room name en ∧
      en ∈ dir.root.slots ∧ dir.leafs en.block = some d ∧
      d.Inserted d' (d.newEntry name (some de) child) ∧ dir' = dir.store en.block d') ∨
    (isDot name = false ∧ (∀ en ∈ dir.visited name, ¬ dir.Room name en) ∧
      ∃ hash j last c d b, dir.root.hashOf name = .ok hash ∧
        dir.visited name = dir.root.candidates hash ∧
        (dir.root.candidates hash).getLast? = some last ∧ dir.root.slots[j]? = some last ∧
        Fits hash last.hash dir.root.slots[j + 1]? ∧ c.pos = j + 1 ∧
        dir.leafs last.block = some d ∧ newBlk = .ok b ∧
        dir.splitData c { inode := child, name := name, ty := some (.fromFileType de) } last
          (.ok b) = .ok dir') := by
  unfold insert at hok
  by_cases h1 : name = [46]
  · rw [if_pos h1] at hok
    cases hok
    exact Or.inl ⟨0, Or.inl ⟨h1, rfl⟩, rfl⟩
  rw [if_neg h1] at hok
  by_cases h2 : name = [46, 46]
  · rw [if_pos h2] at hok
    cases hok
    exact Or.inl ⟨12, Or.inr ⟨h2, rfl⟩, rfl⟩
  rw [if_neg h2] at hok
  have hdot : isDot name = false := by simp [isDot, h1, h2]
  right
  cases hhash : dir.root.hashOf name with
  | error e =>
      rw [hhash] at hok
      cases hok
  | ok hash =>
      rw [hhash] at hok
      obtain ⟨c, j, last, hfrom, hpos, hlast, hj, hfit⟩ :=
        HTreeCursor.visits_last h.ok.keys h.ok.levels hash
      obtain ⟨c', hfrom', hvisits⟩ := HTreeCursor.visits_fromHash h.ok.keys h.ok.levels hash
      obtain rfl := Except.ok.inj (hfrom.symm.trans hfrom')
      rw [hvisits] at hlast hpos
      have hvisited : dir.visited name = dir.root.candidates hash := by
        rw [visited, hashVal_eq hhash]
      simp only [hfrom] at hok
      split at hok
      case isTrue => cases hok
      case isFalse =>
        cases hloop : dir.insertLoop name de child c none with
        | error e =>
            simp only [hloop] at hok
            cases hok
        | ok t =>
            simp only [hloop] at hok
            rcases h.insertLoop_cases hchild hloop with
              ⟨en, d, d', hen, hroom, hd, hd', rfl⟩ | ⟨hno, c', rfl, hpos'⟩
            · -- A leaf block has taken the name.
              cases hok
              rw [hvisits, ← hvisited] at hen
              exact Or.inl ⟨hdot, en, d, d', hen, hroom, mem_slots_of_candidate (hvisited ▸ hen),
                hd, hd', rfl⟩
            · -- None has, and the last one is split.
              rw [hvisits, hlast, Option.some_or] at hok
              dsimp only at hok
              obtain ⟨d, hd, hleaf⟩ := h.ok.leafs last (List.mem_of_getElem? hj)
              obtain ⟨b, -, -, -, rfl, -⟩ := splitData_leaf hd hleaf.wellFormed hok
              rw [hvisits, hpos] at hpos'
              rw [hvisits, ← hvisited] at hno
              exact Or.inr ⟨hdot, hno, hash, j, last, c', d, b, rfl, hvisited, hlast, hj, hfit,
                hpos', hd, rfl, hok⟩

/-- An addition that returns sets the name and leaves the other names if and only if `Sets`
    holds before it. -/
theorem Whole.sets_iff (h : dir.Whole hashSeed unsignedHash rEntries blkSize)
    (hblk : SupportedBlkSize blkSize) (hmap : IsMap dir.records) (hvalid : utf8Valid name = true)
    (hchild : child ≠ 0 ∧ child < 2 ^ 32) (hnew : ∀ b, newBlk = .ok b → b.length = blkSize)
    (hok : dir.insert name de child newBlk = .ok dir') :
    SetsName dir.records dir'.records name child ↔ dir.Sets newBlk name child := by
  rcases h.insert_cases hchild hok with ⟨p, hp, rfl⟩ |
    ⟨hdot, en, d, d', hen, hroom, hslot, hd, hd', rfl⟩ |
    ⟨hdot, hno, hash, j, last, c, d, b, hhash, hvisited, hlast, hj, hfit, hc, hd, rfl, hsplit⟩
  · exact (setsName_writeDot h hp hchild).trans
      (sets_dot (by rcases hp with ⟨rfl, -⟩ | ⟨rfl, -⟩ <;> rfl)).symm
  · obtain ⟨l, r, hbefore, hafter⟩ := records_store h.ok hslot hd d'
    obtain ⟨l', r', hold, hnewRec⟩ := hd'.nameRecords
    refine (setsName_of_insert ⟨l ++ l', r' ++ r, ?_, ?_⟩).trans
      ⟨fun honly => ⟨fun hdot' => ?_, fun _ _ => honly, fun _ hno => ?_⟩,
        fun hs => hs.room hdot ⟨en, hen, hroom⟩⟩
    · rw [hbefore, hold]
      simp only [List.append_assoc]
    · rw [hafter, hnewRec]
      simp only [List.append_assoc, List.cons_append]
      rfl
    · rw [hdot] at hdot'
      cases hdot'
    · exact absurd hroom (hno en hen)
  · refine (h.sets_split hblk hmap hvalid hdot hchild hhash hlast hj hfit hc hd (hnew b rfl)
      hsplit).trans ⟨fun hs => ⟨fun hdot' => ?_, fun _ hex => ?_,
        fun _ _ last' d' b' hlast' hd' hb' => ?_⟩, fun hs => ?_⟩
    · rw [hdot] at hdot'
      cases hdot'
    · obtain ⟨en, hen, hroom⟩ := hex
      exact absurd hroom (hno en hen)
    · rw [hvisited, hlast] at hlast'
      obtain rfl := Option.some.inj hlast'
      obtain rfl := Option.some.inj (hd.symm.trans hd')
      obtain rfl := Except.ok.inj hb'
      exact ⟨hs.1, hs.2.congr (by rfl)⟩
    · obtain ⟨honly, hs⟩ := hs.split hdot hno last d b (hvisited.symm ▸ hlast) hd rfl
      exact ⟨honly, hs.congr (by rfl)⟩

/-- An addition that returns makes up no record. -/
theorem Whole.insert_subset (h : dir.Whole hashSeed unsignedHash rEntries blkSize)
    (hblk : SupportedBlkSize blkSize) (hvalid : utf8Valid name = true)
    (hshort : name.length ≤ 255) (hchild : child ≠ 0 ∧ child < 2 ^ 32)
    (hnew : ∀ b, newBlk = .ok b → b.length = blkSize)
    (hok : dir.insert name de child newBlk = .ok dir') :
    dir'.records ⊆ (name, child) :: dir.records := by
  rintro ⟨n, i⟩ hx
  rw [List.mem_cons]
  rcases h.insert_cases hchild hok with ⟨p, hp, rfl⟩ |
    ⟨hdot, en, d, d', hen, hroom, hslot, hd, hd', rfl⟩ |
    ⟨hdot, hno, hash, j, last, c, d, b, hhash, hvisited, hlast, hj, hfit, hc, hd, rfl, hsplit⟩
  · rw [records_writeDot (by omega)] at hx
    rcases List.mem_append.mp hx with hdots | hleaf
    · rcases (mem_dotRecords_writeDot h hp hchild n i).mp hdots with ⟨rfl, rfl⟩ | ⟨-, hold⟩
      · exact Or.inl rfl
      · exact Or.inr (List.mem_append_left _ hold)
    · exact Or.inr (List.mem_append_right _ hleaf)
  · obtain ⟨l, r, hbefore, hafter⟩ := records_store h.ok hslot hd d'
    obtain ⟨l', r', hold, hnewRec⟩ := hd'.nameRecords
    rw [hafter, hnewRec] at hx
    rw [hbefore, hold]
    simp only [List.mem_append, List.mem_cons] at hx ⊢
    rcases hx with (hx | hx | hx | hx) | hx
    · exact Or.inr (Or.inl (Or.inl hx))
    · exact Or.inr (Or.inl (Or.inr (Or.inl hx)))
    · exact Or.inl hx
    · exact Or.inr (Or.inl (Or.inr (Or.inr hx)))
    · exact Or.inr (Or.inr hx)
  · have hmem := List.mem_of_getElem? hj
    obtain ⟨d1, hd1, hleaf⟩ := h.ok.leafs last hmem
    obtain rfl := Option.some.inj (hd.symm.trans hd1)
    have hb := hnew b rfl
    obtain ⟨old, new, hblock, hperm⟩ :=
      h.split_perm hblk ⟨hshort, hchild⟩ hvalid hhash hj hfit hc hd hb hsplit
    obtain ⟨lower, upper, hhalves⟩ := exists_halves hleaf.wellFormed
      (hleaf.blkSize.symm ▸ hblk) hleaf.names (hb.trans hleaf.blkSize.symm) ⟨hshort, hchild⟩
      hvalid hblock
    rw [hperm.mem_iff] at hx
    rw [(records_perm hmem hd).mem_iff]
    rcases List.mem_append.mp hx with hels | hin
    · exact Or.inr (List.mem_append_left _ hels)
    · exact (hhalves.mem_records hin).imp_right (List.mem_append_right _)

end HashedDir

end RustExt4.Directory.HTree
