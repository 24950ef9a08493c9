/-
  RustExt4.Directory.HTree.SplitRecords

  What a split of a leaf block does to the names of a directory.  The map by hashes has
  room for one entry under each hash, so of two names with one hash the one that comes
  first is lost; an old entry of the new name is replaced that way.
-/
import RustExt4.Directory.HTree.Placement
import RustExt4.Directory.Linear

namespace RustExt4.Directory.HTree

open DirectoryEntryDispatch

/-- The entries that a split should keep: those of the block under other names, and the
    new one. -/
def staying (d : DirectoryBlock) (en : DirEntry) : List DirEntry :=
  d.liveEntries.filter (fun e => e.name ≠ en.name) ++ [en]

/-- The entries in the order of their hashes. -/
def byHash (hashOf : Bytes → Nat) (es : List DirEntry) : List DirEntry :=
  es.insertionSort fun x y => hashKey hashOf x ≤ hashKey hashOf y

/-- When a split that returns sets the new name and leaves the other names: the name has a
    length that is stored, no two names that are to stay have one hash, the first record of
    neither block has the checksum type, and the upper half fits a block.  A checksum in the
    old block does no harm where the new entry is all that the lower half has, and is in
    another block too. -/
structure SplitSets (hashOf : Bytes → Nat) (d : DirectoryBlock) (newBlk : Bytes) (en : DirEntry)
    (copied : Prop) : Prop where
  short : en.name.length ≤ 255
  hashes : ((staying d en).map (hashKey hashOf)).Nodup
  oldFirst : getFileType d.isVersion2 d.inner 0 = some .checkSum → copied ∧
    (upperHalf d.blkSize 0 (byHash hashOf (staying d en))).length + 1 = (staying d en).length
  newFirst : getFileType d.isVersion2 newBlk 0 ≠ some .checkSum
  room : totalSize (upperHalf d.blkSize 0 (byHash hashOf (staying d en))) ≤ d.blkSize

/-! ## Names only -/

section

variable {hashOf : Bytes → Nat} {d : DirectoryBlock} {newBlk : Bytes} {en en' : DirEntry}
  {copied : Prop}

/-- The entry without what the split does not look at. -/
def bare (e : DirEntry) : DirEntry := { inode := 0, name := e.name, ty := none }

theorem totalSize_bare (es : List DirEntry) : totalSize (es.map bare) = totalSize es := by
  rw [totalSize, totalSize, List.map_map]
  rfl

theorem upperHalf_bare (blkSize : Nat) (es : List DirEntry) (used : Nat) :
    upperHalf blkSize used (es.map bare) = (upperHalf blkSize used es).map bare := by
  induction es generalizing used with
  | nil => rfl
  | cons e es ih =>
      rw [List.map_cons, upperHalf, upperHalf]
      by_cases hcut : blkSize / 2 < used + (e.name.length + 8)
      · rw [if_pos (show blkSize / 2 < used + ((bare e).name.length + 8) from hcut), if_pos hcut,
          List.map_cons]
      · rw [if_neg (show ¬ blkSize / 2 < used + ((bare e).name.length + 8) from hcut), if_neg hcut]
        exact ih _

theorem byHash_bare (hashOf : Bytes → Nat) (es : List DirEntry) :
    byHash hashOf (es.map bare) = (byHash hashOf es).map bare :=
  (List.map_insertionSort _ _ bare es fun _ _ _ _ => Iff.rfl).symm

theorem staying_bare (h : en'.name = en.name) :
    (staying d en').map bare = (staying d en).map bare := by
  rw [staying, staying, List.map_append, List.map_append, h, List.map_singleton,
    List.map_singleton, bare, bare, h]

theorem SplitSets.congr (h : en'.name = en.name) (hs : SplitSets hashOf d newBlk en copied) :
    SplitSets hashOf d newBlk en' copied := by
  have hbare := staying_bare (d := d) h
  have hhalf : (upperHalf d.blkSize 0 (byHash hashOf (staying d en'))).map bare =
      (upperHalf d.blkSize 0 (byHash hashOf (staying d en))).map bare := by
    rw [← upperHalf_bare, ← upperHalf_bare, ← byHash_bare, ← byHash_bare, hbare]
  have hlen := congrArg List.length hhalf
  have hall := congrArg List.length hbare
  simp only [List.length_map] at hlen hall
  have hhashes : (staying d en').map (hashKey hashOf) = (staying d en).map (hashKey hashOf) := by
    have hkeys := congrArg (List.map (hashKey hashOf)) hbare
    rwa [List.map_map, List.map_map] at hkeys
  refine ⟨h ▸ hs.short, hhashes ▸ hs.hashes, ?_, hs.newFirst, ?_⟩
  · rw [hlen, hall]
    exact hs.oldFirst
  · rw [← totalSize_bare, hhalf, totalSize_bare]
    exact hs.room

end

/-! ## The values of the map -/

variable {hashOf : Bytes → Except Fault Nat} {d old new : DirectoryBlock} {newBlk : Bytes}
  {en : DirEntry}

/-- The entries that the halves are cut from. -/
abbrev values (hashOf : Bytes → Except Fault Nat) (d : DirectoryBlock) (en : DirEntry) :
    List DirEntry := (entryMap (hashVal hashOf) d en).map Prod.snd

theorem mem_values {e : DirEntry} (h : e ∈ values hashOf d en) : e ∈ allEntries d en := by
  obtain ⟨x, hx, rfl⟩ := List.mem_map.mp h
  exact (mem_entryMap hx).2

/-- The hashes of the values go up. -/
theorem values_pairwise (hashOf : Bytes → Except Fault Nat) (d : DirectoryBlock) (en : DirEntry) :
    (values hashOf d en).Pairwise
    fun x y => hashVal hashOf x.name < hashVal hashOf y.name := by
  have hsorted : SortedMap.Sorted (entryMap (hashVal hashOf) d en) :=
    SortedMap.insertAll_sorted List.Pairwise.nil
  refine List.pairwise_map.mpr (hsorted.imp_of_mem fun {x y} hx hy hlt => ?_)
  rw [← (mem_entryMap hx).1, ← (mem_entryMap hy).1]
  exact hlt

theorem values_nodup (hashOf : Bytes → Except Fault Nat) (d : DirectoryBlock) (en : DirEntry) :
    ((values hashOf d en).map (hashKey (hashVal hashOf))).Nodup :=
  List.pairwise_map.mpr ((values_pairwise hashOf d en).imp fun hlt => hlt.ne)

/-- One value for each hash. -/
theorem eq_of_hash {x y : DirEntry} (hx : x ∈ values hashOf d en) (hy : y ∈ values hashOf d en)
    (h : hashVal hashOf x.name = hashVal hashOf y.name) : x = y :=
  List.inj_on_of_nodup_map (values_nodup hashOf d en) hx hy h

theorem eq_of_name {x y : DirEntry} (hx : x ∈ values hashOf d en) (hy : y ∈ values hashOf d en)
    (h : x.name = y.name) : x = y :=
  eq_of_hash hx hy (by rw [h])

/-- The new entry is the last one to be put into the map. -/
theorem new_mem_values (hashOf : Bytes → Except Fault Nat) (d : DirectoryBlock) (en : DirEntry) :
    en ∈ values hashOf d en :=
  List.mem_map_of_mem (SortedMap.mem_insertAll_concat (hashKey (hashVal hashOf)) en)

/-- Every entry has left one of its hash. -/
theorem exists_value (hashOf : Bytes → Except Fault Nat) {e : DirEntry} (h : e ∈ allEntries d en) :
    ∃ v ∈ values hashOf d en, hashVal hashOf v.name = hashVal hashOf e.name := by
  have hkey : hashKey (hashVal hashOf) e ∈ (entryMap (hashVal hashOf) d en).map Prod.fst :=
    SortedMap.mem_keys_insertAll.mpr (Or.inl (List.mem_map_of_mem h))
  obtain ⟨x, hx, heq⟩ := List.mem_map.mp hkey
  refine ⟨x.2, List.mem_map_of_mem hx, ?_⟩
  rw [← (mem_entryMap hx).1]
  exact heq

/-- Where the new entry has the least hash, it is the first value. -/
theorem values_head (hleast : ∀ e ∈ d.liveEntries,
    hashVal hashOf en.name ≤ hashVal hashOf e.name) :
    ∃ vs, values hashOf d en = en :: vs := by
  have hmem := new_mem_values hashOf d en
  have hsorted := values_pairwise hashOf d en
  obtain ⟨x, vs, hvs⟩ := List.exists_cons_of_ne_nil (List.ne_nil_of_mem hmem)
  have hx : x ∈ values hashOf d en := hvs ▸ List.mem_cons_self
  rw [hvs] at hsorted hmem
  rcases List.mem_cons.mp hmem with rfl | hin
  · exact ⟨vs, hvs⟩
  · -- A value before it would have a smaller hash.
    have hlt := (List.pairwise_cons.mp hsorted).1 en hin
    rcases List.mem_append.mp (mem_values hx) with hlive | hnew
    · exact absurd hlt (Nat.not_lt.mpr (hleast x hlive))
    · rw [List.mem_singleton.mp hnew] at hlt
      exact absurd hlt (Nat.lt_irrefl _)

theorem mem_staying {e : DirEntry} :
    e ∈ staying d en ↔ (e ∈ d.liveEntries ∧ e.name ≠ en.name) ∨ e = en := by
  simp [staying]

theorem staying_subset {e : DirEntry} (h : e ∈ staying d en) : e ∈ allEntries d en := by
  rcases mem_staying.mp h with ⟨hlive, -⟩ | rfl
  · exact List.mem_append_left _ hlive
  · exact List.mem_append_right _ List.mem_cons_self

/-- Where the names that stay have different hashes, they are the values. -/
theorem values_eq (hashOf : Bytes → Except Fault Nat)
    (h : ((staying d en).map (hashKey (hashVal hashOf))).Nodup) :
    values hashOf d en = byHash (hashVal hashOf) (staying d en) := by
  have hsorted : SortedMap.Sorted (entryMap (hashVal hashOf) d en) :=
    SortedMap.insertAll_sorted List.Pairwise.nil
  -- A value under the new name is the new entry.
  have hstay : ∀ v ∈ values hashOf d en, v ∈ staying d en := by
    intro v hv
    rcases List.mem_append.mp (mem_values hv) with hlive | hnew
    · by_cases hname : v.name = en.name
      · exact mem_staying.mpr (Or.inr (eq_of_name hv (new_mem_values hashOf d en) hname))
      · exact mem_staying.mpr (Or.inl ⟨hlive, hname⟩)
    · exact mem_staying.mpr (Or.inr (List.mem_singleton.mp hnew))
  refine hsorted.values_eq (fun x hx => (mem_entryMap hx).1) ?_ h
  rw [List.perm_ext_iff_of_nodup (values_nodup hashOf d en).of_map h.of_map]
  refine fun e => ⟨hstay e, fun he => ?_⟩
  obtain ⟨v, hv, hhash⟩ := exists_value hashOf (staying_subset he)
  rwa [← List.inj_on_of_nodup_map h (hstay v hv) he hhash]

/-! ## The records of the two blocks -/

/-- An entry as a record of the directory. -/
def toRecord (e : DirEntry) : Bytes × Nat := (e.name, e.inode)

theorem nameRecords_eq (d : DirectoryBlock) : d.nameRecords = d.liveEntries.map toRecord := by
  rw [DirectoryBlock.nameRecords, DirectoryBlock.liveEntries, List.map_map]
  rfl

theorem map_stored (v2 : Bool) (es : List DirEntry) :
    (es.map (DirEntry.stored v2)).map toRecord = es.map toRecord := by
  rw [List.map_map]
  rfl

/-- What the two blocks hold, as records of the directory. -/
structure Halves (hashOf : Bytes → Except Fault Nat) (d : DirectoryBlock) (newBlk : Bytes)
    (en : DirEntry) (old new : DirectoryBlock) (lower upper : List DirEntry) : Prop where
  values : lower ++ upper = values hashOf d en
  lower_ne : lower ≠ []
  upper_eq : upper = upperHalf d.blkSize 0 (HTree.values hashOf d en)
  old_sub : ∀ x ∈ old.nameRecords, ∃ e ∈ lower, toRecord e = x
  new_sub : ∀ x ∈ new.nameRecords, ∃ e ∈ upper, toRecord e = x
  old_empty : getFileType d.isVersion2 d.inner 0 = some .checkSum → old.nameRecords = []
  old_eq : getFileType d.isVersion2 d.inner 0 ≠ some .checkSum →
    old.nameRecords = lower.map toRecord
  new_empty : getFileType d.isVersion2 newBlk 0 = some .checkSum → new.nameRecords = []
  new_eq : getFileType d.isVersion2 newBlk 0 ≠ some .checkSum → totalSize upper ≤ d.blkSize →
    new.nameRecords = upper.map toRecord
  new_lt : getFileType d.isVersion2 newBlk 0 ≠ some .checkSum → d.blkSize < totalSize upper →
    new.nameRecords.length < upper.length
  upper_ne : upper ≠ []

theorem exists_halves {insertDx : Nat → Except Fault Unit} (hd : d.WellFormed)
    (hblk : SupportedBlkSize d.blkSize) (hnames : ∀ e ∈ d.liveEntries, e.name.length ≤ 255)
    (hnew : newBlk.length = d.blkSize) (hen : en.Ok) (hvalid : utf8Valid en.name = true)
    (hok : splitData hashOf insertDx (.ok newBlk) d en = .ok (old, new)) :
    ∃ lower upper, Halves hashOf d newBlk en old new lower upper := by
  obtain ⟨lower, upper, hvalues, hlower, hupper, hhalf, hold, hnewOk, ho1, ho2, hn1, hn2⟩ :=
    halves_spec hd hblk hnames hnew hen hok
  have hall : ∀ e ∈ values hashOf d en, e.Ok ∧ utf8Valid e.name = true := by
    intro e he
    rcases List.mem_append.mp (mem_values he) with hlive | hin
    · obtain ⟨x, hx, rfl⟩ := List.mem_map.mp hlive
      exact ⟨liveEntries_ok hnames _ (List.mem_map_of_mem hx), hd.names x hx⟩
    · rw [List.mem_singleton.mp hin]
      exact ⟨hen, hvalid⟩
  have hin : ∀ e ∈ lower ++ upper, e.Ok ∧ utf8Valid e.name = true := by
    rw [hvalues]
    exact hall
  have hsize : 8 ≤ d.blkSize ∧ 4 ∣ d.blkSize := by rcases hblk with h | h | h <;> omega
  have hnewBlk : DirectoryBlock.blkSize { inner := newBlk, isVersion2 := d.isVersion2 } =
      d.blkSize := hnew
  -- Each block has records of its half only.
  obtain ⟨-, -, hmem⟩ := DirectoryBlock.WellFormed.refill hd.blkSize_lt hsize.1 hsize.2 hlower
    (fun e he => hin e (List.mem_append_left _ he)) hold
  obtain ⟨-, -, hmem'⟩ := DirectoryBlock.WellFormed.refill (by rw [hnewBlk]; exact hd.blkSize_lt)
    (by rw [hnewBlk]; exact hsize.1) (by rw [hnewBlk]; exact hsize.2) hupper
    (fun e he => hin e (List.mem_append_right _ he)) hnewOk
  refine ⟨lower, upper, hvalues, hlower, hhalf, fun x hx => ?_, fun x hx => ?_, fun h => ?_,
    fun h => ?_, fun h => ?_, fun h hfit => ?_, fun h hfull => ?_, hupper⟩
  · rw [nameRecords_eq] at hx
    obtain ⟨e', he', rfl⟩ := List.mem_map.mp hx
    obtain ⟨e, he, hname, hino⟩ := hmem e' he'
    exact ⟨e, he, Prod.ext hname.symm hino.symm⟩
  · rw [nameRecords_eq] at hx
    obtain ⟨e', he', rfl⟩ := List.mem_map.mp hx
    obtain ⟨e, he, hname, hino⟩ := hmem' e' he'
    exact ⟨e, he, Prod.ext hname.symm hino.symm⟩
  · rw [nameRecords_eq, ho1 h, List.map_nil]
  · rw [nameRecords_eq, ho2 h, map_stored]
  · rw [nameRecords_eq, hn1 h, List.map_nil]
  · rw [nameRecords_eq, (hn2 h).1 hfit, map_stored]
  · rw [nameRecords_eq, List.length_map]
    exact (hn2 h).2 hfull

variable {lower upper : List DirEntry} {elsewhere : List (Bytes × Nat)}

/-- An entry under another name that is found again was in the block, and is in one of
    the two now. -/
theorem found_of_sets (hsets : SetsName (elsewhere ++ d.nameRecords)
      (elsewhere ++ (old.nameRecords ++ new.nameRecords)) en.name en.inode)
    (hmap : IsMap (elsewhere ++ d.nameRecords)) {e : DirEntry} (he : e ∈ d.liveEntries)
    (hname : e.name ≠ en.name) :
    toRecord e ∈ old.nameRecords ∨ toRecord e ∈ new.nameRecords := by
  have hin : toRecord e ∈ d.nameRecords := by
    rw [nameRecords_eq]
    exact List.mem_map_of_mem he
  have hafter := (hsets e.name e.inode).mpr
    (Or.inr ⟨hname, List.mem_append_right _ hin⟩)
  rw [List.mem_append, List.mem_append] at hafter
  refine hafter.resolve_left fun hels => ?_
  -- The names are different in a map.
  rw [IsMap, List.map_append] at hmap
  exact List.disjoint_of_nodup_append hmap (List.mem_map_of_mem hels) (List.mem_map_of_mem hin)

namespace Halves

theorem mem_lower (h : Halves hashOf d newBlk en old new lower upper) {e : DirEntry}
    (he : e ∈ lower) : e ∈ HTree.values hashOf d en := h.values ▸ List.mem_append_left _ he

theorem mem_upper (h : Halves hashOf d newBlk en old new lower upper) {e : DirEntry}
    (he : e ∈ upper) : e ∈ HTree.values hashOf d en := h.values ▸ List.mem_append_right _ he

theorem disjoint (h : Halves hashOf d newBlk en old new lower upper) {e e' : DirEntry}
    (he : e ∈ lower) (he' : e' ∈ upper) : e.name ≠ e'.name := by
  intro hname
  have hnodup := (values_nodup hashOf d en).of_map
  rw [← h.values] at hnodup
  obtain rfl := eq_of_name (h.mem_lower he) (h.mem_upper he') hname
  exact List.disjoint_of_nodup_append hnodup he he'

/-- A name of the lower half is not in the new block. -/
theorem not_mem_new (h : Halves hashOf d newBlk en old new lower upper) {e : DirEntry}
    (he : e ∈ lower) {i : Nat} : (e.name, i) ∉ new.nameRecords := by
  intro hmem
  obtain ⟨e', he', hrec⟩ := h.new_sub _ hmem
  exact h.disjoint he he' (congrArg Prod.fst hrec).symm

theorem not_mem_old (h : Halves hashOf d newBlk en old new lower upper) {e : DirEntry}
    (he : e ∈ upper) {i : Nat} : (e.name, i) ∉ old.nameRecords := by
  intro hmem
  obtain ⟨e', he', hrec⟩ := h.old_sub _ hmem
  exact h.disjoint he' he (congrArg Prod.fst hrec)

/-- The two blocks have records of the block and of the new entry only. -/
theorem mem_records (h : Halves hashOf d newBlk en old new lower upper) {x : Bytes × Nat}
    (hx : x ∈ old.nameRecords ++ new.nameRecords) : x = toRecord en ∨ x ∈ d.nameRecords := by
  obtain ⟨e, he, rfl⟩ : ∃ e ∈ HTree.values hashOf d en, toRecord e = x := by
    rcases List.mem_append.mp hx with hold | hnew
    · obtain ⟨e, he, hrec⟩ := h.old_sub x hold
      exact ⟨e, h.mem_lower he, hrec⟩
    · obtain ⟨e, he, hrec⟩ := h.new_sub x hnew
      exact ⟨e, h.mem_upper he, hrec⟩
  rcases List.mem_append.mp (mem_values he) with hlive | hnew
  · rw [nameRecords_eq]
    exact Or.inr (List.mem_map_of_mem hlive)
  · rw [List.mem_singleton.mp hnew]
    exact Or.inl rfl

/-- A value under another name was in the block. -/
theorem live_of_ne {e : DirEntry} (he : e ∈ HTree.values hashOf d en) (hname : e.name ≠ en.name) :
    e ∈ d.liveEntries := by
  refine (List.mem_append.mp (mem_values he)).resolve_right fun hin => hname ?_
  rw [List.mem_singleton.mp hin]

/-- A new entry that is elsewhere too has the least hash, and is in the lower half. -/
theorem new_mem_lower (h : Halves hashOf d newBlk en old new lower upper)
    (hleast : ∀ e ∈ d.liveEntries, hashVal hashOf en.name ≤ hashVal hashOf e.name) :
    ∃ l, lower = en :: l := by
  obtain ⟨vs, hvs⟩ := values_head hleast
  obtain ⟨x, l, rfl⟩ := List.exists_cons_of_ne_nil h.lower_ne
  have hvalues := h.values
  rw [hvs, List.cons_append, List.cons.injEq] at hvalues
  exact ⟨l, by rw [hvalues.1]⟩

/-- No name of the upper half is missing in the new block. -/
theorem upper_found (h : Halves hashOf d newBlk en old new lower upper)
    (hmap : IsMap (elsewhere ++ d.nameRecords))
    (hleast : (en.name, en.inode) ∈ elsewhere →
      ∀ e ∈ d.liveEntries, hashVal hashOf en.name ≤ hashVal hashOf e.name)
    (hsets : SetsName (elsewhere ++ d.nameRecords)
      (elsewhere ++ (old.nameRecords ++ new.nameRecords)) en.name en.inode)
    {e : DirEntry} (he : e ∈ upper) : e.name ∈ new.nameRecords.map Prod.fst := by
  have hval := h.mem_upper he
  have hnot := fun i => h.not_mem_old he (i := i)
  by_cases hname : e.name = en.name
  · obtain rfl := eq_of_name hval (new_mem_values hashOf d _) hname
    have hafter := (hsets e.name e.inode).mpr (Or.inl ⟨rfl, rfl⟩)
    rw [List.mem_append, List.mem_append] at hafter
    rcases hafter with hels | hold | hnew
    · obtain ⟨l, rfl⟩ := h.new_mem_lower (hleast hels)
      exact absurd rfl (h.disjoint List.mem_cons_self he)
    · exact absurd hold (hnot _)
    · exact List.mem_map_of_mem hnew
  · rcases found_of_sets hsets hmap (live_of_ne hval hname) hname with hold | hnew
    · exact absurd hold (hnot _)
    · exact List.mem_map_of_mem hnew

/-- Where the old block has lost its half, that was the new entry, which is elsewhere. -/
theorem lower_lost (h : Halves hashOf d newBlk en old new lower upper)
    (hmap : IsMap (elsewhere ++ d.nameRecords))
    (hsets : SetsName (elsewhere ++ d.nameRecords)
      (elsewhere ++ (old.nameRecords ++ new.nameRecords)) en.name en.inode)
    (hempty : old.nameRecords = []) {e : DirEntry} (he : e ∈ lower) :
    e = en ∧ (en.name, en.inode) ∈ elsewhere := by
  have hval := h.mem_lower he
  have hnot := fun i => h.not_mem_new he (i := i)
  by_cases hname : e.name = en.name
  · obtain rfl := eq_of_name hval (new_mem_values hashOf d _) hname
    have hafter := (hsets e.name e.inode).mpr (Or.inl ⟨rfl, rfl⟩)
    rw [List.mem_append, List.mem_append, hempty] at hafter
    rcases hafter with hels | hold | hnew
    · exact ⟨rfl, hels⟩
    · cases hold
    · exact absurd hnew (hnot _)
  · rcases found_of_sets hsets hmap (live_of_ne hval hname) hname with hold | hnew
    · rw [hempty] at hold
      cases hold
    · exact absurd hnew (hnot _)

/-- Every name that is to stay is a value. -/
theorem staying_found (h : Halves hashOf d newBlk en old new lower upper)
    (hmap : IsMap (elsewhere ++ d.nameRecords))
    (hsets : SetsName (elsewhere ++ d.nameRecords)
      (elsewhere ++ (old.nameRecords ++ new.nameRecords)) en.name en.inode)
    {e : DirEntry} (he : e ∈ staying d en) :
    ∃ v ∈ HTree.values hashOf d en, v.name = e.name := by
  rcases mem_staying.mp he with ⟨hlive, hname⟩ | rfl
  · rcases found_of_sets hsets hmap hlive hname with hold | hnew
    · obtain ⟨v, hv, hrec⟩ := h.old_sub _ hold
      exact ⟨v, h.mem_lower hv, congrArg Prod.fst hrec⟩
    · obtain ⟨v, hv, hrec⟩ := h.new_sub _ hnew
      exact ⟨v, h.mem_upper hv, congrArg Prod.fst hrec⟩
  · exact ⟨e, new_mem_values hashOf d e, rfl⟩

/-- The values are the entries that are to stay, as records. -/
theorem mem_values_toRecord (hhashes : ((staying d en).map (hashKey (hashVal hashOf))).Nodup)
    {n : Bytes} {i : Nat} : (n, i) ∈ (HTree.values hashOf d en).map toRecord ↔
      (n = en.name ∧ i = en.inode) ∨ (n ≠ en.name ∧ (n, i) ∈ d.nameRecords) := by
  rw [values_eq hashOf hhashes, nameRecords_eq, List.mem_map, List.mem_map]
  simp only [byHash, List.mem_insertionSort, mem_staying]
  constructor
  · rintro ⟨e, ⟨hlive, hname⟩ | rfl, hrec⟩
    · cases hrec
      exact Or.inr ⟨hname, e, hlive, rfl⟩
    · cases hrec
      exact Or.inl ⟨rfl, rfl⟩
  · rintro (⟨rfl, rfl⟩ | ⟨hname, e, hlive, hrec⟩)
    · exact ⟨en, Or.inr rfl, rfl⟩
    · cases hrec
      exact ⟨e, Or.inl ⟨hlive, hname⟩, rfl⟩

/-- The two blocks hold what is to stay, but for a copy of the new entry. -/
theorem mem_of_splitSets (h : Halves hashOf d newBlk en old new lower upper)
    (hleast : (en.name, en.inode) ∈ elsewhere →
      ∀ e ∈ d.liveEntries, hashVal hashOf en.name ≤ hashVal hashOf e.name)
    (hs : SplitSets (hashVal hashOf) d newBlk en ((en.name, en.inode) ∈ elsewhere))
    {n : Bytes} {i : Nat} : (n, i) ∈ elsewhere ++ (old.nameRecords ++ new.nameRecords) ↔
      (n, i) ∈ elsewhere ∨ (n, i) ∈ (HTree.values hashOf d en).map toRecord := by
  have hvalues := values_eq hashOf hs.hashes
  have hupper := h.upper_eq
  rw [hvalues] at hupper
  have hnew := h.new_eq hs.newFirst (by rw [hupper]; exact hs.room)
  rw [List.mem_append, ← h.values, List.map_append, hnew]
  by_cases hfirst : getFileType d.isVersion2 d.inner 0 = some .checkSum
  · obtain ⟨hcopied, hlen⟩ := hs.oldFirst hfirst
    rw [h.old_empty hfirst, List.nil_append]
    -- The lower half is the new entry alone.
    obtain ⟨l, rfl⟩ := h.new_mem_lower (hleast hcopied)
    have hall := congrArg List.length h.values
    rw [hvalues, byHash, List.length_insertionSort, ← hlen, ← hupper, List.length_append,
      List.length_cons] at hall
    obtain rfl : l = [] := List.length_eq_zero_iff.mp (by omega)
    simp only [List.map_cons, List.map_nil, List.singleton_append, List.mem_cons]
    constructor
    · rintro (hels | hin)
      · exact Or.inl hels
      · exact Or.inr (Or.inr hin)
    · rintro (hels | heq | hin)
      · exact Or.inl hels
      · cases heq
        exact Or.inl hcopied
      · exact Or.inr hin
  · rw [h.old_eq hfirst]

end Halves

/-- A split that returns sets the new name and leaves the other names, of the block and of the
    rest of the directory, if and only if no other block has the name for another inode and
    `SplitSets` holds. -/
theorem sets_split_iff {insertDx : Nat → Except Fault Unit} {elsewhere : List (Bytes × Nat)}
    (hd : d.WellFormed) (hblk : SupportedBlkSize d.blkSize)
    (hnames : ∀ e ∈ d.liveEntries, e.name.length ≤ 255) (hnew : newBlk.length = d.blkSize)
    (hen : en.Ok) (hvalid : utf8Valid en.name = true)
    (hok : splitData hashOf insertDx (.ok newBlk) d en = .ok (old, new))
    (hmap : IsMap (elsewhere ++ d.nameRecords))
    (hleast : (en.name, en.inode) ∈ elsewhere →
      ∀ e ∈ d.liveEntries, hashVal hashOf en.name ≤ hashVal hashOf e.name) :
    SetsName (elsewhere ++ d.nameRecords) (elsewhere ++ (old.nameRecords ++ new.nameRecords))
        en.name en.inode ↔
      (∀ i, (en.name, i) ∈ elsewhere → i = en.inode) ∧
        SplitSets (hashVal hashOf) d newBlk en ((en.name, en.inode) ∈ elsewhere) := by
  obtain ⟨lower, upper, h⟩ := exists_halves hd hblk hnames hnew hen hvalid hok
  constructor
  · intro hsets
    have hfound := fun {e} => h.staying_found hmap hsets (e := e)
    -- The names that stay are different, and so are the hashes of the values.
    have hstay : ((staying d en).map DirEntry.name).Nodup := by
      rw [IsMap, List.map_append, nameRecords_eq, List.map_map] at hmap
      have hlive : (d.liveEntries.map DirEntry.name).Nodup := (List.nodup_append.mp hmap).2.1
      rw [staying, List.map_append, List.map_singleton]
      refine List.nodup_append.mpr ⟨hlive.sublist (List.filter_sublist.map _),
        List.nodup_singleton _, fun n hn m hm => ?_⟩
      obtain ⟨e, he, rfl⟩ := List.mem_map.mp hn
      rw [List.mem_singleton.mp hm]
      exact of_decide_eq_true (List.mem_filter.mp he).2
    have hhashes : ((staying d en).map (hashKey (hashVal hashOf))).Nodup := by
      refine hstay.of_map.map_on fun e he e' he' hhash => ?_
      obtain ⟨v, hv, hname⟩ := hfound he
      obtain ⟨v', hv', hname'⟩ := hfound he'
      apply List.inj_on_of_nodup_map hstay he he'
      rw [← hname, ← hname']
      refine congrArg DirEntry.name (eq_of_hash hv hv' ?_)
      rw [hname, hname']
      exact hhash
    have hvalues := values_eq hashOf hhashes
    have hupper := h.upper_eq
    rw [hvalues] at hupper
    -- The new block has all names of its half.
    have hsub : upper.map DirEntry.name ⊆ new.nameRecords.map Prod.fst := by
      intro n hn
      obtain ⟨e, he, rfl⟩ := List.mem_map.mp hn
      exact h.upper_found hmap hleast hsets he
    have hlen : upper.length ≤ new.nameRecords.length := by
      have hnodup : (upper.map DirEntry.name).Nodup := by
        have hall := (values_nodup hashOf d en).of_map
        rw [← h.values] at hall
        exact (List.nodup_append.mp hall).2.1.map_on
          fun x hx y hy => eq_of_name (h.mem_upper hx) (h.mem_upper hy)
      have hle := (hnodup.subperm hsub).length_le
      rwa [List.length_map, List.length_map] at hle
    have hnewFirst : getFileType d.isVersion2 newBlk 0 ≠ some .checkSum := by
      intro hfirst
      rw [h.new_empty hfirst] at hlen
      exact h.upper_ne (List.length_eq_zero_iff.mp (Nat.le_zero.mp hlen))
    refine ⟨fun i hi => ?_, hen.1, hhashes, fun hfirst => ?_, hnewFirst, ?_⟩
    · rcases (hsets en.name i).mp (List.mem_append_left _ hi) with ⟨-, rfl⟩ | ⟨hne, -⟩
      · rfl
      · exact absurd rfl hne
    · have hlost := fun {e} => h.lower_lost hmap hsets (h.old_empty hfirst) (e := e)
      obtain ⟨x, hx⟩ := List.exists_mem_of_ne_nil _ h.lower_ne
      refine ⟨(hlost hx).2, ?_⟩
      -- All of the lower half is the new entry, which is in it once.
      have hone : lower = [en] := by
        have hall : lower = List.replicate lower.length en :=
          List.eq_replicate_of_mem fun e he => (hlost he).1
        have hnodup : lower.Nodup := by
          refine (values_nodup hashOf d en).of_map.sublist ?_
          rw [← h.values]
          exact List.sublist_append_left lower upper
        rw [hall] at hnodup ⊢
        have hle := List.nodup_replicate.mp hnodup
        have hpos := List.length_pos_of_mem hx
        rw [show lower.length = 1 by omega]
        rfl
      have hall := congrArg List.length h.values
      rw [hvalues, byHash, List.length_insertionSort, hone, hupper] at hall
      rw [← hall, List.length_append, List.length_singleton, Nat.add_comm]
    · rw [← hupper]
      by_contra hfull
      exact absurd (h.new_lt hnewFirst (Nat.lt_of_not_le hfull)) (Nat.not_lt.mpr hlen)
  · rintro ⟨honly, hs⟩ n i
    rw [h.mem_of_splitSets hleast hs, Halves.mem_values_toRecord hs.hashes, List.mem_append]
    constructor
    · rintro (hels | hin | ⟨hne, hlive⟩)
      · by_cases hn : n = en.name
        · subst hn
          exact Or.inl ⟨rfl, honly i hels⟩
        · exact Or.inr ⟨hn, Or.inl hels⟩
      · exact Or.inl hin
      · exact Or.inr ⟨hne, Or.inr hlive⟩
    · rintro (hin | ⟨hne, hels | hlive⟩)
      · exact Or.inr (Or.inl hin)
      · exact Or.inl hels
      · exact Or.inr (Or.inr ⟨hne, hlive⟩)

end RustExt4.Directory.HTree
