/-
  RustExt4.Directory.HTree.Split

  Which entries the two halves of a split leaf block hold.  Entries are lost
  where two names have one hash, where the upper half does not fit a block once
  its sizes are rounded, and where a stale checksum type keeps a cleared block
  empty; a live checksum type is replaced.  Otherwise the halves hold every
  entry once.
-/
import RustExt4.Directory.BlockFill
import RustExt4.Directory.BlockRuns
import RustExt4.Directory.HTree.Node
import RustExt4.Hasher.Overflow

namespace RustExt4.Directory

open DirectoryEntryDispatch

/-! ## Putting entries into a block -/

/-- An entry that `insert_entry` can store. -/
def DirEntry.Ok (e : DirEntry) : Prop :=
  e.name.length ≤ 255 ∧ e.inode ≠ 0 ∧ e.inode < 2 ^ 32

/-- The rounded sizes of the entries. -/
def totalSize (es : List DirEntry) : Nat := (es.map fun e => entrySize e.name.length).sum

@[simp] theorem totalSize_cons (e : DirEntry) (es : List DirEntry) :
    totalSize (e :: es) = entrySize e.name.length + totalSize es := by
  simp [totalSize]

/-- The entry as it is read back: its type has gone through `FileType`. -/
def DirEntry.stored (v2 : Bool) (e : DirEntry) : DirEntry :=
  { e with ty := if v2 then e.ty.map fun t => .fromFileType t.intoFileType else none }

namespace DirectoryBlock

variable {d d' : DirectoryBlock} {e : DirEntry} {es : List DirEntry} {r : Bool}

theorem newEntry_stored (d : DirectoryBlock) (e : DirEntry) :
    d.newEntry e.name (e.ty.map Ext4De.intoFileType) e.inode = e.stored d.isVersion2 := by
  simp [newEntry, DirEntry.stored, Function.comp_def]

/-- An insertion that returns leaves the live entries or adds one. -/
theorem insertEntry_length {ps : List Nat} (ht : d.TilesIn 0 ps d.blkSize) (he : e.Ok)
    (h : d.insertEntry e.name (e.ty.map Ext4De.intoFileType) e.inode = .ok (r, d')) :
    (∃ ps', d'.TilesIn 0 ps' d'.blkSize) ∧
      d'.liveEntries.length ≤ d.liveEntries.length + 1 := by
  obtain ⟨hlen, hne, hlt⟩ := he
  by_cases hde : d.isVersion2 = true → e.ty.map Ext4De.intoFileType ≠ none
  · rcases insertEntry_spec hde (by rwa [positions_eq ht]) hlen hlt hne with
      ⟨-, hins⟩ | ⟨d1, hins, hd1⟩
    · rw [h] at hins
      cases hins
      exact ⟨⟨ps, ht⟩, Nat.le_succ _⟩
    · rw [h] at hins
      cases hins
      obtain ⟨l, p, r, hold, hnew⟩ := hd1.live
      refine ⟨hd1.tiles, ?_⟩
      simp only [liveEntries, hold, hnew, List.length_map, List.length_append, List.length_cons]
      omega
  · push Not at hde
    rw [hde.2] at h
    obtain ⟨-, rfl, -⟩ := insertFrom_none hde.1 h none
    exact ⟨⟨ps, ht⟩, Nat.le_succ _⟩

/-- A list of entries adds at most its length. -/
theorem putEntries_length {ps : List Nat} (ht : d.TilesIn 0 ps d.blkSize) (hes : ∀ e ∈ es, e.Ok)
    (h : HTree.putEntries d es = .ok d') :
    d'.liveEntries.length ≤ d.liveEntries.length + es.length := by
  induction es generalizing d ps with
  | nil =>
      cases h
      exact Nat.le_refl _
  | cons e es ih =>
      rw [HTree.putEntries] at h
      split at h
      case h_1 => cases h
      case h_2 r d1 hins =>
        obtain ⟨⟨ps', ht'⟩, hle⟩ := insertEntry_length ht (hes e List.mem_cons_self) hins
        have := ih ht' (fun e' he' => hes e' (List.mem_cons_of_mem _ he')) h
        rw [List.length_cons]
        omega

/-- Where an insertion returns and a typed entry of that name would be stored, the
    entry has a type or the block does not keep types. -/
theorem type_of_insertEntry {d1 : DirectoryBlock}
    (h : d.insertEntry e.name (e.ty.map Ext4De.intoFileType) e.inode = .ok (r, d'))
    (htyped : d.insertEntry e.name (some .unknown) e.inode = .ok (true, d1)) :
    d.isVersion2 = true → e.ty.map Ext4De.intoFileType ≠ none := by
  intro hv hty
  rw [hty] at h
  have hfalse := (insertFrom_none hv h (some .unknown)).2.2
  rw [show d.insertFrom {} e.name (some .unknown) e.inode = .ok (true, d1) from htyped] at hfalse
  cases hfalse

/-- Into a packed block go exactly the lists that fit. -/
theorem putEntries_packed {l : List Nat} {q : Nat} (hp : Packed d l q)
    (hq : d.fill q ≤ d.blkSize) (hes : ∀ e ∈ es, e.Ok) (h : HTree.putEntries d es = .ok d') :
    (d.fill q + totalSize es ≤ d.blkSize →
      d'.liveEntries = d.liveEntries ++ es.map (DirEntry.stored d.isVersion2)) ∧
    (d.blkSize < d.fill q + totalSize es →
      d'.liveEntries.length < d.liveEntries.length + es.length) := by
  -- On the entries; the block is packed before each of them.
  induction es generalizing d l q with
  | nil =>
      cases h
      exact ⟨fun _ => by simp, fun hlt => by simp [totalSize] at hlt; omega⟩
  | cons e es ih =>
      have hrest : ∀ e' ∈ es, e'.Ok := fun e' he' => hes e' (List.mem_cons_of_mem _ he')
      obtain ⟨hlen, hne, hlt⟩ := hes e List.mem_cons_self
      rw [totalSize_cons, List.length_cons]
      rw [HTree.putEntries] at h
      split at h
      case h_1 => cases h
      case h_2 r d1 hins =>
        by_cases hfit : d.fill q + entrySize e.name.length ≤ d.blkSize
        · obtain ⟨d2, htyped, -⟩ :=
            hp.insert (fun _ => Option.some_ne_none FileType.unknown) hlen hlt hne hfit
          -- The block says more of an insertion with a type than of one without.
          obtain ⟨d2, hins', hv, hb, hp1, hfill, hlive⟩ :=
            hp.insert (type_of_insertEntry hins htyped) hlen hlt hne hfit
          rw [hins] at hins'
          cases hins'
          obtain ⟨h1, h2⟩ := ih hp1 (by omega) hrest h
          rw [hfill, hb] at h1 h2
          refine ⟨fun hsum => ?_, fun hsum => ?_⟩
          · rw [h1 (by omega), hlive, hv, newEntry_stored]
            simp
          · have := h2 (by omega)
            rw [hlive, List.length_append, List.length_singleton] at this
            omega
        · -- The first entry that does not fit is lost, so even all later ones do not make up for
          -- it.
          rw [hp.insert_full (Nat.lt_of_not_le hfit)] at hins
          cases hins
          have hle := putEntries_length hp.tiles hrest h
          exact ⟨fun hsum => by omega, fun _ => by omega⟩

/-- Into a cleared block go exactly the lists that fit, unless a stale checksum type
    keeps it empty. -/
theorem putEntries_clear (hhi : d.blkSize < 2 ^ 16) (hlo : 264 ≤ d.blkSize) (h4 : 4 ∣ d.blkSize)
    (hnil : es ≠ []) (hes : ∀ e ∈ es, e.Ok) (h : HTree.putEntries d.clear es = .ok d') :
    (getFileType d.isVersion2 d.inner 0 = some .checkSum → d'.liveEntries = []) ∧
    (getFileType d.isVersion2 d.inner 0 ≠ some .checkSum →
      (totalSize es ≤ d.blkSize → d'.liveEntries = es.map (DirEntry.stored d.isVersion2)) ∧
      (d.blkSize < totalSize es → d'.liveEntries.length < es.length)) := by
  obtain ⟨e, es, rfl⟩ := List.exists_cons_of_ne_nil hnil
  -- The record that `clear` leaves carries the old name length, which still has to fit.
  have hname : 8 + getNameLen d.isVersion2 d.inner 0 ≤ d.blkSize := by
    by_contra hname
    rw [HTree.putEntries, clear_insert_error (by omega) hhi hname] at h
    cases h
  have ht := clear_tiles (by omega) hhi h4 hname
  constructor
  · intro hsum
    -- A cleared block whose first record is a checksum takes no entry at all.
    have hskip : ∀ es, HTree.putEntries d.clear es = .ok d.clear := by
      intro es
      induction es with
      | nil => rfl
      | cons e es ih =>
          rw [HTree.putEntries, clear_insert_checkSum (by omega) hhi ht hsum]
          exact ih
    rw [hskip] at h
    cases h
    exact clear_live (by omega) hhi ht
  · -- The first entry takes the whole block over, and from then on it is packed.
    intro hsum
    have hrest : ∀ e' ∈ es, e'.Ok := fun e' he' => hes e' (List.mem_cons_of_mem _ he')
    obtain ⟨hlen, hne, hlt⟩ := hes e List.mem_cons_self
    have hsize := entrySize_spec e.name.length
    rw [HTree.putEntries] at h
    split at h
    case h_1 => cases h
    case h_2 r d1 hins =>
      obtain ⟨d2, htyped, -⟩ := clear_insert hhi
        (fun _ => Option.some_ne_none FileType.unknown) hlen hlt hne (by omega) ht hsum
      obtain ⟨d2, hins', hv, hb, hp, hfill, hlive⟩ :=
        clear_insert hhi (type_of_insertEntry (d := d.clear) hins htyped) hlen hlt hne (by omega) ht
          hsum
      rw [hins] at hins'
      cases hins'
      obtain ⟨h1, h2⟩ := putEntries_packed hp (by omega) hrest h
      rw [hfill, hb] at h1 h2
      rw [totalSize_cons, List.length_cons]
      refine ⟨fun htotal => ?_, fun htotal => ?_⟩
      · rw [h1 htotal, hlive, hv, newEntry_stored]
        simp
      · have := h2 htotal
        rw [hlive, List.length_singleton] at this
        omega

/-- Entries with types are put without an error. -/
theorem putEntries_ok {ps : List Nat} (ht : d.TilesIn 0 ps d.blkSize) (hes : ∀ e ∈ es, e.Ok)
    (hty : ∀ e ∈ es, e.ty ≠ none) :
    ∃ d', HTree.putEntries d es = .ok d' ∧ d'.isVersion2 = d.isVersion2 ∧
      d'.blkSize = d.blkSize ∧ ∃ ps', d'.TilesIn 0 ps' d'.blkSize := by
  induction es generalizing d ps with
  | nil => exact ⟨d, rfl, rfl, rfl, ps, ht⟩
  | cons e es ih =>
      obtain ⟨hlen, hne, hlt⟩ := hes e List.mem_cons_self
      have hde : e.ty.map Ext4De.intoFileType ≠ none := by simpa using hty e List.mem_cons_self
      have hrest : ∀ e' ∈ es, e'.Ok := fun e' he' => hes e' (List.mem_cons_of_mem _ he')
      have htyRest : ∀ e' ∈ es, e'.ty ≠ none := fun e' he' => hty e' (List.mem_cons_of_mem _ he')
      rw [HTree.putEntries]
      rcases insertEntry_spec (fun _ => hde) (by rwa [positions_eq ht]) hlen hlt hne with
        ⟨-, hins⟩ | ⟨d1, hins, hd1⟩
      · rw [hins]
        exact ih ht hrest htyRest
      · rw [hins]
        obtain ⟨ps1, ht1⟩ := hd1.tiles
        obtain ⟨d', hput, hv, hb, ht'⟩ := ih ht1 hrest htyRest
        exact ⟨d', hput, hv.trans hd1.version, hb.trans hd1.blkSize, ht'⟩

theorem putEntries_append {es' : List DirEntry} (h : HTree.putEntries d es = .ok d') :
    HTree.putEntries d (es ++ es') = HTree.putEntries d' es' := by
  induction es generalizing d with
  | nil =>
      cases h
      rfl
  | cons e es ih =>
      rw [HTree.putEntries] at h
      rw [List.cons_append, HTree.putEntries]
      split at h
      case h_1 => cases h
      case h_2 r d1 hins => exact ih h

end DirectoryBlock
namespace HTree

variable {hashOf : Bytes → Except Fault Nat} {d : DirectoryBlock}

/-! ## Gathering and cutting -/

/-- The key of an entry in the map. -/
def hashKey (hashOf : Bytes → Nat) (e : DirEntry) : Nat := hashOf e.name

/-- The names of these entries have hashes. -/
def Hashed (hashOf : Bytes → Except Fault Nat) (es : List DirEntry) : Prop :=
  ∀ e ∈ es, ∃ hash, hashOf e.name = .ok hash

/-- The loop over a block with valid live names gathers its live entries, where their names
    have hashes. -/
theorem gather_spec {a : Nat} {ps : List Nat} {it : DirectoryBlockIterator}
    {m m' : List (Nat × DirEntry)} (h : d.TilesIn a ps d.blkSize)
    (hnames : ∀ e ∈ d.liveIn ps, utf8Valid e.2.name)
    (hit : DirectoryBlockIterator.next d it = DirectoryBlockIterator.next d { pos := a }) :
    gather hashOf d it m = .ok m' ↔ Hashed hashOf ((d.liveIn ps).map Prod.snd) ∧
      SortedMap.insertAll (hashKey (hashVal hashOf)) ((d.liveIn ps).map Prod.snd) m = m' := by
  -- On the records left.
  induction ps generalizing a it m with
  | nil =>
      obtain rfl : a = d.blkSize := h
      rw [gather_of_none (hit.trans (DirectoryBlock.iter_end d))]
      simp [Hashed, SortedMap.insertAll]
  | cons p ps ih =>
      obtain ⟨rfl, hok, hrest⟩ := h
      rw [format_len] at hrest
      have hle := hrest.le
      have hnext := hit.trans (DirectoryBlock.iter_next hok hle)
      by_cases hlive : getInode d.inner a = 0
      · -- A dead record is not gathered.
        rw [if_neg (not_not.mpr hlive)] at hnext
        have hskip : d.liveIn (a :: ps) = d.liveIn ps :=
          RecordTiling.live_cons_none (view_unused hlive)
        rw [hskip] at hnames ⊢
        exact ih hrest hnames hnext
      · rw [if_pos hlive] at hnext
        have hkeep : d.liveIn (a :: ps) = (a, entryAt d.isVersion2 d.inner a) :: d.liveIn ps :=
          RecordTiling.live_cons_some (view_used hlive)
        rw [hkeep] at hnames ⊢
        have hvalid := hnames _ List.mem_cons_self
        have hname : getName d.isVersion2 d.inner a = .ok (nameBytes d.isVersion2 d.inner a) := by
          have := (format_ok.mp hok).2
          rw [getName, if_pos ⟨by unfold DirectoryBlock.blkSize at hle; omega, hvalid⟩]
        have hih := fun m => @ih _ _ m hrest (fun e he => hnames e (List.mem_cons_of_mem _ he)) rfl
        rw [gather_of_some hnext, hname]
        dsimp only
        cases hhash : hashOf (nameBytes d.isVersion2 d.inner a) with
        | error e =>
            refine iff_of_false (fun hc => by cases hc) fun hc => ?_
            obtain ⟨hash, hok⟩ := hc.1 _ List.mem_cons_self
            rw [show hashOf (entryAt d.isVersion2 d.inner a).name = .error e from hhash] at hok
            cases hok
        | ok hash =>
            dsimp only
            have hkey : hashKey (hashVal hashOf) (entryAt d.isVersion2 d.inner a) = hash :=
              hashVal_eq hhash
            have hcons : SortedMap.insertAll (hashKey (hashVal hashOf))
                (entryAt d.isVersion2 d.inner a :: (d.liveIn ps).map Prod.snd) m =
                SortedMap.insertAll (hashKey (hashVal hashOf)) ((d.liveIn ps).map Prod.snd)
                  (SortedMap.insert hash (entryAt d.isVersion2 d.inner a) m) := by
              rw [SortedMap.insertAll, List.foldl_cons, hkey]
              rfl
            rw [List.map_cons, hcons]
            refine (hih _).trans (and_congr_left fun _ => ?_)
            rw [Hashed, Hashed, List.forall_mem_cons]
            exact (and_iff_right ⟨hash, hhash⟩).symm

/-- The entries from the one on at which the unrounded sizes pass half the block. -/
def upperHalf (blkSize : Nat) : Nat → List DirEntry → List DirEntry
  | _, [] => []
  | used, e :: es =>
    if blkSize / 2 < used + (e.name.length + 8) then e :: es
    else upperHalf blkSize (used + (e.name.length + 8)) es

/-- The cut leaves at most half the block, unrounded, in the lower part. -/
theorem findHalf_spec {blkSize used phash idx newHash pos : Nat}
    {entries : List (Nat × DirEntry)} (hused : used ≤ blkSize / 2)
    (h : findHalf blkSize entries used phash idx = some (newHash, pos)) :
    ∃ k, pos = idx + k ∧ k < entries.length ∧
      ((∀ x ∈ entries, used + (x.2.name.length + 8) ≤ blkSize / 2) → 0 < k) ∧
      (entries.map Prod.snd).drop k = upperHalf blkSize used (entries.map Prod.snd) ∧
      used + (((entries.map Prod.snd).take k).map fun e => e.name.length + 8).sum ≤
        blkSize / 2 := by
  -- On the entries, with the sizes of those before the split added up.
  induction entries generalizing used phash idx with
  | nil => cases h
  | cons x entries ih =>
      obtain ⟨hash, en⟩ := x
      rw [findHalf] at h
      by_cases hcut : blkSize / 2 < used + (en.name.length + 8)
      · -- The first entry past the half of the block goes to the new block, with all after it.
        rw [if_pos hcut] at h
        cases h
        refine ⟨0, rfl, by simp, fun hall => ?_, by simp [upperHalf, hcut], by simpa using hused⟩
        have := hall _ List.mem_cons_self
        simp only at this
        omega
      · rw [if_neg hcut] at h
        obtain ⟨k, hk, hlt, -, hdrop, hsum⟩ := ih (Nat.le_of_not_lt hcut) h
        refine ⟨k + 1, by omega, by simpa using hlt, fun _ => Nat.succ_pos k, ?_, ?_⟩
        · simp only [List.map_cons, List.drop_succ_cons, upperHalf, if_neg hcut]
          exact hdrop
        · simp only [List.map_cons, List.take_succ_cons, List.sum_cons]
          omega

/-- Rounding adds at most three bytes to each size. -/
theorem totalSize_le (es : List DirEntry) :
    totalSize es ≤ 2 * (es.map fun e => e.name.length + 8).sum := by
  induction es with
  | nil => simp [totalSize]
  | cons e es ih =>
      have := (entrySize_spec e.name.length).2.1
      rw [totalSize_cons, List.map_cons, List.sum_cons]
      omega

/-! ## The two halves -/

/-- The entries that `split_data` sorts: those of the block and the new one. -/
abbrev allEntries (d : DirectoryBlock) (en : DirEntry) : List DirEntry := d.liveEntries ++ [en]

/-- The map of the entries by their hashes. -/
abbrev entryMap (hashOf : Bytes → Nat) (d : DirectoryBlock) (en : DirEntry) :
    List (Nat × DirEntry) := SortedMap.insertAll (hashKey hashOf) (allEntries d en) []

/-- When a split that returns keeps every entry: no two names have one hash, no
    entry has the checksum type, the first record of the old block and of the
    new one does not have it either, and the upper half fits a block. -/
structure Keeps (hashOf : Bytes → Nat) (d : DirectoryBlock) (newBlk : Bytes) (en : DirEntry) :
    Prop where
  hashes : ((allEntries d en).map (hashKey hashOf)).Nodup
  types : ∀ e ∈ d.liveEntries, e.ty ≠ some .checkSum
  oldFirst : getFileType d.isVersion2 d.inner 0 ≠ some .checkSum
  newFirst : getFileType d.isVersion2 newBlk 0 ≠ some .checkSum
  room : totalSize (upperHalf d.blkSize 0 ((allEntries d en).insertionSort
    fun x y => hashKey hashOf x ≤ hashKey hashOf y)) ≤ d.blkSize

variable {insertDx : Nat → Except Fault Unit} {newBlk : Bytes} {en : DirEntry}
  {old new : DirectoryBlock}

/-- Gathering a well-formed block. -/
theorem gather_live (hd : d.WellFormed) {m : List (Nat × DirEntry)} :
    gather hashOf d {} [] = .ok m ↔ Hashed hashOf d.liveEntries ∧
      SortedMap.insertAll (hashKey (hashVal hashOf)) d.liveEntries [] = m :=
  gather_spec hd.tiles hd.names rfl

/-- The new entry is the last one to go into the map. -/
theorem insert_entryMap (hashOf : Bytes → Nat) (d : DirectoryBlock) (en : DirEntry) :
    SortedMap.insert (hashOf en.name) en (SortedMap.insertAll (hashKey hashOf) d.liveEntries []) =
      entryMap hashOf d en := by
  simp [entryMap, SortedMap.insertAll, hashKey, List.foldl_append]

theorem hashed_allEntries {hash : Nat} (hlive : Hashed hashOf d.liveEntries)
    (hhash : hashOf en.name = .ok hash) : Hashed hashOf (allEntries d en) := by
  intro e he
  rcases List.mem_append.mp he with he | he
  · exact hlive e he
  · rw [List.mem_singleton.mp he]
    exact ⟨hash, hhash⟩

/-- A split that returns has hashed all names, cut the map in two and put each part into its
    block. -/
theorem splitData_ok (hd : d.WellFormed)
    (hok : splitData hashOf insertDx (.ok newBlk) d en = .ok (old, new)) :
    Hashed hashOf (allEntries d en) ∧
    ∃ newHash pos, findHalf d.blkSize (entryMap (hashVal hashOf) d en) 0 u32Max 0 =
        some (newHash, pos) ∧
      putEntries d.clear (((entryMap (hashVal hashOf) d en).map Prod.snd).take pos) = .ok old ∧
      putEntries (DirectoryBlock.clear { inner := newBlk, isVersion2 := d.isVersion2 })
        (((entryMap (hashVal hashOf) d en).map Prod.snd).drop pos) = .ok new := by
  -- Every step of the split succeeded.
  obtain ⟨gathered, hgather⟩ : ∃ gathered, gather hashOf d {} [] = .ok gathered := by
    cases hgather : gather hashOf d {} [] with
    | error e => simp [splitData, hgather] at hok
    | ok gathered => exact ⟨gathered, rfl⟩
  obtain ⟨hash, hhash⟩ : ∃ hash, hashOf en.name = .ok hash := by
    cases hhash : hashOf en.name with
    | error e => simp [splitData, hgather, hhash] at hok
    | ok hash => exact ⟨hash, rfl⟩
  obtain ⟨hlive, rfl⟩ := (gather_live hd).mp hgather
  have hmap := insert_entryMap (hashVal hashOf) d en
  rw [hashVal_eq hhash] at hmap
  refine ⟨hashed_allEntries hlive hhash, ?_⟩
  unfold splitData at hok
  simp only [hgather, hhash, hmap] at hok
  cases hhalf : findHalf d.blkSize (entryMap (hashVal hashOf) d en) 0 u32Max 0 with
  | none => simp [hhalf] at hok
  | some x =>
      obtain ⟨newHash, pos⟩ := x
      simp only [hhalf] at hok
      cases hdx : insertDx newHash with
      | error e => simp [hdx] at hok
      | ok u =>
          simp only [hdx] at hok
          split at hok
          case h_1 => cases hok
          case h_2 old' hold =>
            split at hok
            case h_1 => cases hok
            case h_2 new' hnew =>
              cases hok
              exact ⟨newHash, pos, rfl, hold, hnew⟩

/-- A split whose steps return. -/
theorem splitData_of_halves (hd : d.WellFormed) (hhashed : Hashed hashOf (allEntries d en))
    {newHash pos : Nat}
    (hhalf : findHalf d.blkSize (entryMap (hashVal hashOf) d en) 0 u32Max 0 =
      some (newHash, pos))
    (hdx : insertDx newHash = .ok ())
    (hold : putEntries d.clear (((entryMap (hashVal hashOf) d en).map Prod.snd).take pos) =
      .ok old)
    (hnew : putEntries (DirectoryBlock.clear { inner := newBlk, isVersion2 := d.isVersion2 })
      (((entryMap (hashVal hashOf) d en).map Prod.snd).drop pos) = .ok new) :
    splitData hashOf insertDx (.ok newBlk) d en = .ok (old, new) := by
  have hgather := (gather_live hd).mpr
    ⟨fun e he => hhashed e (List.mem_append_left _ he), rfl⟩
  obtain ⟨hash, hhash⟩ := hhashed en (List.mem_append_right _ List.mem_cons_self)
  have hmap := insert_entryMap (hashVal hashOf) d en
  rw [hashVal_eq hhash] at hmap
  unfold splitData
  simp only [hgather, hhash, hmap, hhalf, hdx, hold, hnew]

/-- The live entries of a block can be stored again, where their names are short enough. -/
theorem liveEntries_ok (hnames : ∀ e ∈ d.liveEntries, e.name.length ≤ 255) :
    ∀ e ∈ d.liveEntries, e.Ok := by
  intro e he
  refine ⟨hnames e he, ?_⟩
  obtain ⟨⟨p, e'⟩, hmem, rfl⟩ := List.mem_map.mp he
  have hview := (RecordTiling.mem_live.mp hmem).2
  have hused : getInode d.inner p ≠ 0 := by
    intro h0
    rw [view_unused h0] at hview
    cases hview
  rw [view_used hused, Option.some.injEq] at hview
  rw [← hview]
  exact ⟨hused, ByteRw.readU32_lt ..⟩

/-- A block size of the source. -/
def SupportedBlkSize (n : Nat) : Prop := n = 1024 ∨ n = 2048 ∨ n = 4096

/-- What the two blocks hold after a split that returns. -/
theorem halves_spec (hd : d.WellFormed) (hblk : SupportedBlkSize d.blkSize)
    (hnames : ∀ e ∈ d.liveEntries, e.name.length ≤ 255) (hnew : newBlk.length = d.blkSize)
    (hen : en.Ok) (hok : splitData hashOf insertDx (.ok newBlk) d en = .ok (old, new)) :
    ∃ lower upper, lower ++ upper = (entryMap (hashVal hashOf) d en).map Prod.snd ∧
      lower ≠ [] ∧ upper ≠ [] ∧
      upper = upperHalf d.blkSize 0 ((entryMap (hashVal hashOf) d en).map Prod.snd) ∧
      putEntries d.clear lower = .ok old ∧
      putEntries (DirectoryBlock.clear { inner := newBlk, isVersion2 := d.isVersion2 }) upper =
        .ok new ∧
      (getFileType d.isVersion2 d.inner 0 = some .checkSum → old.liveEntries = []) ∧
      (getFileType d.isVersion2 d.inner 0 ≠ some .checkSum →
        old.liveEntries = lower.map (DirEntry.stored d.isVersion2)) ∧
      (getFileType d.isVersion2 newBlk 0 = some .checkSum → new.liveEntries = []) ∧
      (getFileType d.isVersion2 newBlk 0 ≠ some .checkSum →
        (totalSize upper ≤ d.blkSize →
          new.liveEntries = upper.map (DirEntry.stored d.isVersion2)) ∧
        (d.blkSize < totalSize upper → new.liveEntries.length < upper.length)) := by
  obtain ⟨-, newHash, pos, hhalf, hold, hnewOk⟩ := splitData_ok hd hok
  obtain ⟨k, hk, hlt, hpos, hdrop, hsum⟩ := findHalf_spec (Nat.zero_le _) hhalf
  rw [Nat.zero_add] at hk
  subst hk
  have hlo : 264 ≤ d.blkSize ∧ 526 ≤ d.blkSize := by rcases hblk with h | h | h <;> omega
  have h4 : 4 ∣ d.blkSize := by rcases hblk with h | h | h <;> omega
  have hall : ∀ e ∈ (entryMap (hashVal hashOf) d en).map Prod.snd, e.Ok := by
    intro e he
    obtain ⟨x, hx, rfl⟩ := List.mem_map.mp he
    rcases SortedMap.mem_insertAll hx with hmem | hmem
    · rcases List.mem_append.mp hmem with hmem | hmem
      · exact liveEntries_ok hnames _ hmem
      · rw [List.mem_singleton.mp hmem]
        exact hen
    · cases hmem
  have hk0 : 0 < pos := hpos fun x hx => by
    have := (hall x.2 (List.mem_map_of_mem hx)).1
    omega
  have hlen : pos < ((entryMap (hashVal hashOf) d en).map Prod.snd).length := by simpa using hlt
  generalize (entryMap (hashVal hashOf) d en).map Prod.snd = values
    at hold hnewOk hdrop hsum hall hlen ⊢
  have hlower : values.take pos ≠ [] := by
    rw [ne_eq, ← List.length_eq_zero_iff, List.length_take]
    omega
  have hupper : values.drop pos ≠ [] := by
    rw [ne_eq, ← List.length_eq_zero_iff, List.length_drop]
    omega
  obtain ⟨ho1, ho2⟩ := DirectoryBlock.putEntries_clear hd.blkSize_lt hlo.1 h4 hlower
    (fun e he => hall e (List.mem_of_mem_take he)) hold
  obtain ⟨hn1, hn2⟩ := DirectoryBlock.putEntries_clear
    (d := { inner := newBlk, isVersion2 := d.isVersion2 })
    (by rw [DirectoryBlock.blkSize, hnew]; exact hd.blkSize_lt)
    (by rw [DirectoryBlock.blkSize, hnew]; exact hlo.1)
    (by rw [DirectoryBlock.blkSize, hnew]; exact h4) hupper
    (fun e he => hall e (List.mem_of_mem_drop he)) hnewOk
  rw [show DirectoryBlock.blkSize { inner := newBlk, isVersion2 := d.isVersion2 } = d.blkSize
    from hnew] at hn2
  refine ⟨_, _, List.take_append_drop pos values, hlower, hupper, hdrop, hold, hnewOk, ho1,
    fun h => ?_, hn1, hn2⟩
  -- The lower half is at most half a block before rounding, so it fits.
  refine (ho2 h).1 ?_
  have := totalSize_le (values.take pos)
  omega

/-- No more entries than in the map, and the map has one for each hash. -/
theorem length_entryMap_le (hashOf : Bytes → Nat) (d : DirectoryBlock) (en : DirEntry) :
    (entryMap hashOf d en).length ≤ (allEntries d en).length := by
  simpa using SortedMap.length_insertAll_le (hashKey hashOf) (allEntries d en) (m := [])
    List.Pairwise.nil

/-- Live entries read back as they were stored, checksums excepted. -/
theorem stored_eq_self {e : DirEntry} (he : e ∈ d.liveEntries) (hty : e.ty ≠ some .checkSum) :
    e.stored d.isVersion2 = e := by
  obtain ⟨⟨p, e'⟩, hmem, rfl⟩ := List.mem_map.mp he
  have hview := (RecordTiling.mem_live.mp hmem).2
  -- A block without types reads each of its entries back without one.
  have hv1 : d.isVersion2 = false → e'.ty = none := by
    intro hv
    by_cases hused : getInode d.inner p = 0
    · rw [view_unused hused] at hview
      cases hview
    · rw [view_used hused, Option.some.injEq] at hview
      rw [← hview]
      simp [entryAt, getFileType, hv]
  obtain ⟨inode, name, ty⟩ := e'
  simp only [DirEntry.stored, DirEntry.mk.injEq, true_and] at hv1 hty ⊢
  -- With types, every type but the checksum's is read back as itself.
  cases hv : d.isVersion2 with
  | false => simp [hv1 hv]
  | true =>
      cases ty with
      | none => rfl
      | some t =>
          rw [if_pos rfl, Option.map_some,
            Ext4De.fromFileType_intoFileType.mpr fun h => hty (by rw [h])]

/-- Where every entry is found again in the two blocks, nothing went wrong. -/
theorem keeps_of_perm (hd : d.WellFormed) (hblk : SupportedBlkSize d.blkSize)
    (hnames : ∀ e ∈ d.liveEntries, e.name.length ≤ 255) (hnew : newBlk.length = d.blkSize)
    (hen : en.Ok) (hok : splitData hashOf insertDx (.ok newBlk) d en = .ok (old, new))
    (hperm : (old.liveEntries ++ new.liveEntries).Perm
      (en.stored d.isVersion2 :: d.liveEntries)) : Keeps (hashVal hashOf) d newBlk en := by
  obtain ⟨lower, upper, hvalues, hlower, hupper, hhalf, -, -, ho1, ho2, hn1, hn2⟩ :=
    halves_spec hd hblk hnames hnew hen hok
  -- Counting: both halves together hold one entry more than the block, so no entry is lost
  -- anywhere.
  have hlenMap := length_entryMap_le (hashVal hashOf) d en
  have hlenPerm := hperm.length_eq
  have hlenValues := congrArg List.length hvalues
  have hlowerPos := List.length_pos_of_ne_nil hlower
  have hupperPos := List.length_pos_of_ne_nil hupper
  simp only [List.length_append, List.length_map, List.length_cons, List.length_nil]
    at hlenMap hlenPerm hlenValues
  have holdLen : old.liveEntries.length ≤ lower.length := by
    by_cases hsum : getFileType d.isVersion2 d.inner 0 = some .checkSum
    · rw [ho1 hsum]; exact Nat.zero_le _
    · rw [ho2 hsum, List.length_map]
  have hnewLen : new.liveEntries.length ≤ upper.length := by
    by_cases hsum : getFileType d.isVersion2 newBlk 0 = some .checkSum
    · rw [hn1 hsum]; exact Nat.zero_le _
    · rcases Nat.lt_or_ge d.blkSize (totalSize upper) with hfull | hfit
      · exact ((hn2 hsum).2 hfull).le
      · rw [(hn2 hsum).1 hfit, List.length_map]
  -- A checksum at the start of either block loses that half.
  have holdFirst : getFileType d.isVersion2 d.inner 0 ≠ some .checkSum := by
    intro hsum
    rw [ho1 hsum, List.length_nil] at hlenPerm
    omega
  have hnewFirst : getFileType d.isVersion2 newBlk 0 ≠ some .checkSum := by
    intro hsum
    rw [hn1 hsum, List.length_nil] at hlenPerm
    omega
  have hfit : totalSize upper ≤ d.blkSize := by
    by_contra hfull
    have := (hn2 hnewFirst).2 (Nat.lt_of_not_le hfull)
    omega
  -- Two entries of one hash leave one of them in the map.
  have hhashes : ((allEntries d en).map (hashKey (hashVal hashOf))).Nodup := by
    by_contra hdup
    have hlt : (entryMap (hashVal hashOf) d en).length < ([] : List (Nat × DirEntry)).length +
        (allEntries d en).length :=
      SortedMap.length_insertAll_lt _ _ List.Pairwise.nil (by simpa using hdup)
    simp only [List.length_append, List.length_nil, List.length_cons] at hlt
    omega
  refine ⟨hhashes, ?_, holdFirst, hnewFirst, ?_⟩
  · -- A checksum type does not come back out of `stored`.
    intro e he hty
    have hmem := hperm.symm.subset (List.mem_cons_of_mem _ he)
    rw [ho2 holdFirst, (hn2 hnewFirst).1 hfit, ← List.map_append] at hmem
    obtain ⟨x, -, rfl⟩ := List.mem_map.mp hmem
    have hnot : ∀ t : Ext4De, Ext4De.fromFileType t.intoFileType ≠ .checkSum := by
      intro t
      cases t <;> decide
    simp only [DirEntry.stored] at hty
    split at hty
    · cases hx : x.ty with
      | none => simp [hx] at hty
      | some t => simp [hx, hnot] at hty
    · cases hty
  · rw [← SortedMap.values_insertAll hhashes, ← hhalf]
    exact hfit

/-! ## A full leaf and two names with one hash -/

/-- A split of a block whose entries have types and hashes returns, where the map fills
    more than half a block. -/
theorem splitData_returns (hd : d.WellFormed) (hblk : SupportedBlkSize d.blkSize)
    (hv : d.isVersion2 = true) (hnew : newBlk.length = d.blkSize)
    (hes : ∀ e ∈ allEntries d en, e.Ok ∧ e.ty ≠ none) (hhashed : Hashed hashOf (allEntries d en))
    (hhalf : (findHalf d.blkSize (entryMap (hashVal hashOf) d en) 0 u32Max 0).isSome) :
    ∃ old new, splitData hashOf (fun _ => .ok ()) (.ok newBlk) d en = .ok (old, new) := by
  obtain ⟨⟨newHash, pos⟩, hhalf⟩ := Option.isSome_iff_exists.mp hhalf
  have hgather := (gather_live hd).mpr
    ⟨fun e he => hhashed e (List.mem_append_left _ he), rfl⟩
  obtain ⟨hash, hhash⟩ := hhashed en (List.mem_append_right _ List.mem_cons_self)
  have hmap := insert_entryMap (hashVal hashOf) d en
  rw [hashVal_eq hhash] at hmap
  have hall : ∀ e ∈ (entryMap (hashVal hashOf) d en).map Prod.snd, e.Ok ∧ e.ty ≠ none := by
    intro e he
    obtain ⟨x, hx, rfl⟩ := List.mem_map.mp he
    exact (SortedMap.mem_insertAll hx).elim (hes _) fun hmem => by cases hmem
  -- The stale name length of a typed block is one byte, so it always fits.
  have hclear : ∀ b : Bytes, b.length = d.blkSize →
      (DirectoryBlock.clear { inner := b, isVersion2 := d.isVersion2 }).TilesIn 0 [0]
        (DirectoryBlock.clear { inner := b, isVersion2 := d.isVersion2 }).blkSize := by
    intro b hb
    have hlt := hd.blkSize_lt
    have hsizes : 264 ≤ d.blkSize ∧ 4 ∣ d.blkSize := by rcases hblk with h | h | h <;> omega
    have hbyte : getNameLen d.isVersion2 b 0 < 256 := by
      rw [getNameLen, if_pos hv]
      exact ByteRw.readU8_lt ..
    have hblkSize : DirectoryBlock.blkSize { inner := b, isVersion2 := d.isVersion2 } =
        d.blkSize := hb
    refine DirectoryBlock.clear_tiles ?_ ?_ ?_ ?_ <;> rw [hblkSize]
    · omega
    · exact hlt
    · exact hsizes.2
    · change 8 + getNameLen d.isVersion2 b 0 ≤ d.blkSize
      omega
  obtain ⟨old, hold, -⟩ := DirectoryBlock.putEntries_ok (hclear d.inner rfl)
    (fun e he => (hall e (List.mem_of_mem_take he)).1)
    (fun e he => (hall e (List.mem_of_mem_take (i := pos) he)).2)
  obtain ⟨new, hnewOk, -⟩ := DirectoryBlock.putEntries_ok (hclear newBlk hnew)
    (fun e he => (hall e (List.mem_of_mem_drop he)).1)
    (fun e he => (hall e (List.mem_of_mem_drop (i := pos) he)).2)
  refine ⟨old, new, ?_⟩
  simp only [splitData, hgather, hhash, hmap, hhalf]
  rw [hold]
  simp only [hnewOk]

/-- The bytes of a name. -/
def nameOf (cs : List Char) : Bytes := cs.flatMap String.utf8EncodeChar

theorem length_nameOf_replicate (n : Nat) {c : Char} (h : (String.utf8EncodeChar c).length = 1) :
    (nameOf (List.replicate n c)).length = n := by
  rw [nameOf, List.length_flatMap, List.map_replicate, h, List.sum_replicate_nat, Nat.mul_one]

/-- A seed of the hash. -/
def md4Seed : Hasher.Ext4Hash :=
  { w0 := 0x67452301, w1 := 0xefcdab89, w2 := 0x98badcfe, w3 := 0x10325476 }

/-- Half MD4 over unsigned bytes. -/
def md4Hasher : Hasher.Ext4Hasher := Hasher.HashVersion.halfMd4.getHasher md4Seed true

theorem hashVal_md4Hasher : hashVal md4Hasher.hashOf = Hasher.hashOf md4Seed :=
  funext fun name => hashVal_eq (Hasher.hashOf_unsigned md4Seed name)

def test12840 : Bytes := nameOf ['t', 'e', 's', 't', '1', '2', '8', '4', '0']

def test65381 : Bytes := nameOf ['t', 'e', 's', 't', '6', '5', '3', '8', '1']

theorem hashOf_test : Hasher.hashOf md4Seed test12840 = Hasher.hashOf md4Seed test65381 := by
  decide +kernel

/-- Five files whose entries fill a block of 1024 bytes. -/
def leafEntries : List DirEntry :=
  [{ inode := 12, name := test12840, ty := some .regularFile },
    { inode := 13, name := nameOf (List.replicate 255 'a'), ty := some .regularFile },
    { inode := 14, name := nameOf (List.replicate 255 'b'), ty := some .regularFile },
    { inode := 15, name := nameOf (List.replicate 255 'c'), ty := some .regularFile },
    { inode := 16, name := nameOf (List.replicate 204 'd'), ty := some .regularFile }]

def newFile : DirEntry := { inode := 17, name := test65381, ty := some .regularFile }

/-- The lengths of the names in the leaf and of the new one. -/
theorem leafEntries_lengths :
    (leafEntries ++ [newFile]).map (fun e => e.name.length) = [9, 255, 255, 255, 204, 9] := by
  simp (disch := decide) only [leafEntries, newFile, List.cons_append, List.nil_append,
    List.map_cons, List.map_nil, length_nameOf_replicate]
  rfl

theorem leafEntries_length_le : ∀ e ∈ leafEntries ++ [newFile],
    1 ≤ e.name.length ∧ e.name.length ≤ 255 := by
  intro e he
  have hmem : e.name.length ∈ [9, 255, 255, 255, 204, 9] := by
    rw [← leafEntries_lengths]
    exact List.mem_map_of_mem he
  exact (by decide : ∀ n ∈ [9, 255, 255, 255, 204, 9], 1 ≤ n ∧ n ≤ 255) _ hmem

theorem leafEntries_ok : ∀ e ∈ leafEntries ++ [newFile], e.Ok ∧ e.ty ≠ none := by
  intro e he
  have hrest : e.inode ≠ 0 ∧ e.inode < 2 ^ 32 ∧ e.ty ≠ none := by
    simp only [leafEntries, newFile, List.cons_append, List.nil_append, List.mem_cons,
      List.not_mem_nil, or_false] at he
    rcases he with rfl | rfl | rfl | rfl | rfl | rfl <;> exact ⟨by decide, by decide, by decide⟩
  exact ⟨⟨(leafEntries_length_le e he).2, hrest.1, hrest.2.1⟩, hrest.2.2⟩

theorem leafEntries_names : ∀ e ∈ leafEntries, 1 ≤ e.name.length ∧ utf8Valid e.name = true := by
  intro e he
  refine ⟨(leafEntries_length_le e (List.mem_append_left _ he)).1, ?_⟩
  simp only [leafEntries, List.mem_cons, List.not_mem_nil, or_false] at he
  rcases he with rfl | rfl | rfl | rfl | rfl <;> exact utf8Valid_of_chars _

/-- The rounded sizes depend on the lengths of the names only. -/
theorem totalSize_eq (es : List DirEntry) :
    totalSize es = ((es.map fun e => e.name.length).map entrySize).sum := by
  rw [totalSize, List.map_map]
  rfl

theorem totalSize_leafEntries_newFile : totalSize (leafEntries ++ [newFile]) = 1044 := by
  rw [totalSize_eq, leafEntries_lengths]
  rfl

theorem totalSize_leafEntries : totalSize leafEntries = 1024 := by
  have hlen := congrArg List.dropLast leafEntries_lengths
  rw [← List.map_dropLast, List.dropLast_concat] at hlen
  rw [totalSize_eq, hlen]
  rfl

/-- The first block of the leaf has room for one entry and is a multiple of 4 long. -/
theorem emptyBlock_bounds : DirectoryBlock.emptyBlock.blkSize < 2 ^ 16 ∧
    264 ≤ DirectoryBlock.emptyBlock.blkSize ∧ 4 ∣ DirectoryBlock.emptyBlock.blkSize := by
  rw [DirectoryBlock.blkSize_emptyBlock]
  decide

/-- What the cleared block holds after some entries have been put into it. -/
theorem putEntries_emptyBlock {es : List DirEntry} {d : DirectoryBlock} (hnil : es ≠ [])
    (hes : ∀ e ∈ es, e.Ok) (hput : putEntries DirectoryBlock.emptyBlock.clear es = .ok d) :
    (totalSize es ≤ 1024 → d.liveEntries = es.map (DirEntry.stored true)) ∧
      (1024 < totalSize es → d.liveEntries.length < es.length) := by
  obtain ⟨hhi, hlo, h4⟩ := emptyBlock_bounds
  have hsum : getFileType true DirectoryBlock.emptyBlock.inner 0 ≠ some .checkSum := by decide
  have hspec := (DirectoryBlock.putEntries_clear hhi hlo h4 hnil hes hput).2 hsum
  rwa [DirectoryBlock.blkSize_emptyBlock] at hspec

/-- There is a full leaf of these entries. -/
theorem exists_fullLeaf : ∃ d : DirectoryBlock, d.WellFormed ∧ d.isVersion2 = true ∧
    d.blkSize = 1024 ∧ d.liveEntries = leafEntries ∧
    d.insertEntry newFile.name (some .regularFile) newFile.inode = .ok (false, d) := by
  obtain ⟨hhi, hlo, h4⟩ := emptyBlock_bounds
  have hok : ∀ e ∈ leafEntries, e.Ok ∧ e.ty ≠ none := fun e he =>
    leafEntries_ok e (List.mem_append_left _ he)
  -- Five long names fill the block, and the sixth has no room.
  obtain ⟨d, hput, hv, hb, ps, ht⟩ := DirectoryBlock.putEntries_ok
    (DirectoryBlock.clear_tiles (by omega) hhi h4
      (by rw [DirectoryBlock.blkSize_emptyBlock]; decide))
    (fun e he => (hok e he).1) (fun e he => (hok e he).2)
  have hlive : d.liveEntries = leafEntries :=
    ((putEntries_emptyBlock (by decide) (fun e he => (hok e he).1) hput).1
      (by rw [totalSize_leafEntries])).trans rfl
  have hb' : d.blkSize = 1024 := by
    rw [hb, (DirectoryBlock.clear_spec (by omega) hhi).1, DirectoryBlock.blkSize_emptyBlock]
  refine ⟨d, ⟨by rw [hb']; decide, by rwa [DirectoryBlock.positions_eq ht], ?_⟩, hv, hb', hlive,
    ?_⟩
  · intro x hx
    have hmem : x.2 ∈ d.liveEntries := List.mem_map_of_mem hx
    rw [hlive] at hmem
    exact (leafEntries_names _ hmem).2
  · obtain ⟨hlen, hne, hlt⟩ := (leafEntries_ok newFile (by simp)).1
    rcases DirectoryBlock.insertEntry_spec (fun _ => Option.some_ne_none FileType.regularFile)
      (by rwa [DirectoryBlock.positions_eq ht]) hlen hlt hne with
      ⟨-, hins⟩ | ⟨d1, hins, hd1⟩
    · exact hins
    · -- Six entries in the block would take more than its 1024 bytes.
      have hput' : putEntries DirectoryBlock.emptyBlock.clear (leafEntries ++ [newFile]) =
          .ok d1 := by
        have hins' : d.insertEntry newFile.name (newFile.ty.map Ext4De.intoFileType) newFile.inode =
            .ok (true, d1) := hins
        rw [DirectoryBlock.putEntries_append hput, putEntries, hins']
        rfl
      have hshort := (putEntries_emptyBlock (by decide)
        (fun e he => (leafEntries_ok e he).1) hput').2
        (by rw [totalSize_leafEntries_newFile]; decide)
      obtain ⟨l, p, r, hold, hnew⟩ := hd1.live
      have hlen := congrArg List.length hlive
      simp only [DirectoryBlock.liveEntries, hold, hnew, List.length_map, List.length_append,
        List.length_cons] at hshort hlen
      simp only [leafEntries, List.length_cons, List.length_nil] at hshort hlen
      omega

theorem insertOk_newFile : InsertOk newFile.name newFile.inode :=
  ⟨(leafEntries_length_le newFile (by simp)).1, (leafEntries_ok newFile (by simp)).1.1,
    utf8Valid_of_chars _, by decide, by decide⟩

theorem leafEntries_length {d : DirectoryBlock} (hlive : d.liveEntries = leafEntries) :
    ∀ e ∈ d.liveEntries, e.name.length ≤ 255 := by
  rw [hlive]
  exact fun e he => (leafEntries_ok e (List.mem_append_left _ he)).1.1

/-- The full leaf is split. -/
theorem exists_splitLeaf : ∃ d old new : DirectoryBlock, d.WellFormed ∧ d.blkSize = 1024 ∧
    d.liveEntries = leafEntries ∧
    d.insertEntry newFile.name (some .regularFile) newFile.inode = .ok (false, d) ∧
    splitData md4Hasher.hashOf (fun _ => .ok ()) (.ok (List.replicate 1024 0)) d newFile =
      .ok (old, new) := by
  obtain ⟨d, hd, hv, hblk, hlive, hfull⟩ := exists_fullLeaf
  obtain ⟨old, new, hok⟩ : ∃ old new, splitData md4Hasher.hashOf (fun _ => .ok ())
      (.ok (List.replicate 1024 0)) d newFile = .ok (old, new) := splitData_returns hd
    (Or.inl hblk) hv
    (by rw [hblk, List.length_replicate]) (by rw [allEntries, hlive]; exact leafEntries_ok)
    (fun e _ => ⟨_, Hasher.hashOf_unsigned md4Seed e.name⟩)
    (by rw [hblk, hashVal_md4Hasher, entryMap, allEntries, hlive]; decide +kernel)
  exact ⟨d, old, new, hd, hblk, hlive, hfull, hok⟩

/-! ## The entries of the two halves -/

/-- After a split that returns, the two blocks together hold the old live entries
    and the new one, each once, exactly under `Keeps`. -/
theorem splitData_perm_iff {child : Nat} {entry : Bytes} {de : FileType} (hd : d.WellFormed)
    (hblk : SupportedBlkSize d.blkSize) (hnames : ∀ e ∈ d.liveEntries, e.name.length ≤ 255)
    (hnew : newBlk.length = d.blkSize) (hen : InsertOk entry child)
    (hok : splitData hashOf insertDx (.ok newBlk) d
      { inode := child, name := entry, ty := some (.fromFileType de) } = .ok (old, new)) :
    (old.liveEntries ++ new.liveEntries).Perm
        (d.newEntry entry (some de) child :: d.liveEntries) ↔
      Keeps (hashVal hashOf) d newBlk
        { inode := child, name := entry, ty := some (.fromFileType de) } := by
  have hen' : DirEntry.Ok { inode := child, name := entry, ty := some (.fromFileType de) } :=
    ⟨hen.2.1, hen.2.2.2.1, hen.2.2.2.2⟩
  -- A regular type is stored as itself.
  have hstored : DirEntry.stored d.isVersion2
      { inode := child, name := entry, ty := some (.fromFileType de) } =
      d.newEntry entry (some de) child := by
    have hde : Ext4De.fromFileType (Ext4De.fromFileType de).intoFileType = .fromFileType de := by
      cases de <;> rfl
    simp [DirEntry.stored, DirectoryBlock.newEntry, hde]
  rw [← hstored]
  refine ⟨keeps_of_perm hd hblk hnames hnew hen' hok, fun hkeeps => ?_⟩
  -- Under `Keeps` no half loses an entry, so they hold the values of the map.
  obtain ⟨lower, upper, hvalues, -, -, hhalf, -, -, -, ho2, -, hn2⟩ :=
    halves_spec hd hblk hnames hnew hen' hok
  have hfit : totalSize upper ≤ d.blkSize := by
    rw [hhalf, SortedMap.values_insertAll hkeeps.hashes]
    exact hkeeps.room
  -- And with different hashes the map holds every entry.
  have hmap := (SortedMap.insertAll_perm (m := []) (K := Nat) (by
    rw [List.map_nil, List.nil_append]
    exact hkeeps.hashes)).map Prod.snd
  have hlive : d.liveEntries.map (DirEntry.stored d.isVersion2) = d.liveEntries := by
    conv_rhs => rw [← List.map_id d.liveEntries]
    exact List.map_congr_left fun e he => stored_eq_self he (hkeeps.types e he)
  rw [ho2 hkeeps.oldFirst, (hn2 hkeeps.newFirst).1 hfit, ← List.map_append, hvalues]
  refine (hmap.map (DirEntry.stored d.isVersion2)).trans ?_
  rw [List.nil_append, List.map_map, List.map_map]
  simp only [Function.comp_def]
  rw [List.map_append, hlive]
  exact List.perm_append_singleton ..

/-- The split of the full leaf falls under the equivalence. -/
theorem splitData_perm_iff_fullLeaf : ∃ d old new : DirectoryBlock,
    splitData md4Hasher.hashOf (fun _ => .ok ()) (.ok (List.replicate 1024 0)) d newFile =
      .ok (old, new) ∧
    ((old.liveEntries ++ new.liveEntries).Perm
        (d.newEntry newFile.name (some .regularFile) newFile.inode :: d.liveEntries) ↔
      Keeps (hashVal md4Hasher.hashOf) d (List.replicate 1024 0) newFile) := by
  obtain ⟨d, old, new, hd, hblk, hlive, -, hok⟩ := exists_splitLeaf
  exact ⟨d, old, new, hok, splitData_perm_iff hd (Or.inl hblk)
    (leafEntries_length hlive) (by rw [hblk, List.length_replicate]) insertOk_newFile hok⟩

/-- The two names with one hash: the split returns, and an entry of the full leaf is lost. -/
theorem splitData_lost : ∃ d old new : DirectoryBlock, d.WellFormed ∧ d.blkSize = 1024 ∧
    (∀ e ∈ d.liveEntries, 1 ≤ e.name.length ∧ e.name.length ≤ 255) ∧
    (d.liveEntries.map DirEntry.name).Nodup ∧ InsertOk test65381 17 ∧
    d.insertEntry test65381 (some .regularFile) 17 = .ok (false, d) ∧
    splitData md4Hasher.hashOf (fun _ => .ok ()) (.ok (List.replicate 1024 0)) d
      { inode := 17, name := test65381, ty := some .regularFile } = .ok (old, new) ∧
    ¬ (old.liveEntries ++ new.liveEntries).Perm
      (d.newEntry test65381 (some .regularFile) 17 :: d.liveEntries) := by
  obtain ⟨d, old, new, hd, hblk, hlive, hfull, hok⟩ := exists_splitLeaf
  have hlens := leafEntries_length hlive
  refine ⟨d, old, new, hd, hblk, fun e he => ⟨?_, hlens e he⟩, by rw [hlive]; decide +kernel,
    insertOk_newFile, hfull, hok, fun hperm => ?_⟩
  · rw [hlive] at he
    exact (leafEntries_names e he).1
  · have hkeeps := keeps_of_perm hd (Or.inl hblk) hlens (by rw [hblk, List.length_replicate])
      (leafEntries_ok newFile (by simp)).1 hok hperm
    have hhashes := hkeeps.hashes
    rw [hashVal_md4Hasher, allEntries, hlive, leafEntries, List.cons_append, List.map_cons,
      List.nodup_cons] at hhashes
    exact hhashes.1 (List.mem_map.mpr
      ⟨newFile, List.mem_append_right _ (List.mem_singleton.mpr rfl), hashOf_test.symm⟩)

end HTree
end RustExt4.Directory
