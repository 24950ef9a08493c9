/-
  RustExt4.Directory.HTree.Lookup

  What a lookup by name finds.  Over the records of the leaf blocks, in the order of
  the slots, each lookup stops at the first record of some kind: `find_then` at the
  first live entry of that name, `find_mut_then` also at an unused record whose name
  is not valid UTF-8, where it panics.  The slots of the cursor are the only ones in
  which an entry of that name can be.  Before that, both take the hash of the name,
  which panics for some names and for two of the three hash versions.
-/
import RustExt4.Directory.HTree.Find

namespace RustExt4.Directory

open DirectoryEntryDispatch
open RecordTiling (Tiles)

/-! ## Records -/

/-- A record of a leaf block, live or unused. -/
structure Record where
  lba : Nat
  pos : Nat
  entry : DirEntry
  deriving DecidableEq, Repr

namespace Record

/-- The live entry of a name. -/
def hit (target : Bytes) (r : Record) : Bool := r.entry.inode ≠ 0 ∧ r.entry.name = target

/-- An unused record whose name `from_utf8` rejects. -/
def undecodable (r : Record) : Bool := r.entry.inode = 0 ∧ utf8Valid r.entry.name = false

theorem not_undecodable_of_hit {target : Bytes} {r : Record} (h : r.hit target = true) :
    r.undecodable = false := by
  simp only [hit, decide_eq_true_eq] at h
  simp [undecodable, h.1]

end Record

namespace DirectoryBlock

/-- The record at a position of a block. -/
def recordAt (d : DirectoryBlock) (lba p : Nat) : Record where
  lba := lba
  pos := p
  entry := entryAt d.isVersion2 d.inner p

/-- The records of the block with number `lba`. -/
def records (d : DirectoryBlock) (lba : Nat) : List Record := d.positions.map (d.recordAt lba)

/-- How a search of a block ends that stops at the record `o`. -/
def Ends {ρ : Type} (posOf : ρ → Nat) : Option Record → Except Fault (Option ρ) → Prop
  | none, res => res = .ok none
  | some r, res =>
    if r.undecodable then res = .error .panic else ∃ x, res = .ok (some x) ∧ posOf x = r.pos

variable {d : DirectoryBlock} {target : Bytes} {a lba : Nat} {ps : List Nat}

theorem recordAt_hit : (d.recordAt lba a).hit target =
    decide (getInode d.inner a ≠ 0 ∧ nameBytes d.isVersion2 d.inner a = target) := rfl

theorem recordAt_undecodable : (d.recordAt lba a).undecodable =
    decide (getInode d.inner a = 0 ∧ utf8Valid (nameBytes d.isVersion2 d.inner a) = false) := rfl

theorem getName_eq (hok : (format d.isVersion2).Ok d.inner a)
    (hle : a + getEntryLen d.inner a ≤ d.blkSize) :
    getName d.isVersion2 d.inner a =
      if utf8Valid (nameBytes d.isVersion2 d.inner a) then
        .ok (nameBytes d.isVersion2 d.inner a)
      else .error .panic := by
  have := (format_ok.mp hok).2
  unfold blkSize at hle
  unfold getName
  by_cases hvalid : utf8Valid (nameBytes d.isVersion2 d.inner a) = true
  · rw [if_pos ⟨by omega, hvalid⟩, if_pos hvalid]
  · rw [if_neg fun hc => hvalid hc.2, if_neg hvalid]

/-- The names of the live records at these positions are valid. -/
def LiveNames (d : DirectoryBlock) (ps : List Nat) : Prop :=
  ∀ p ∈ ps, getInode d.inner p ≠ 0 → utf8Valid (nameBytes d.isVersion2 d.inner p) = true

theorem WellFormed.liveNames (h : d.WellFormed) : d.LiveNames d.positions := by
  intro p hp hused
  exact h.names (p, entryAt d.isVersion2 d.inner p)
    (RecordTiling.mem_live.mpr ⟨hp, view_used hused⟩)

/-- The read iterator passes over unused records. -/
theorem findFrom_ends {it : DirectoryBlockIterator} (ht : d.TilesIn a ps d.blkSize)
    (hnames : d.LiveNames ps)
    (hit : DirectoryBlockIterator.next d it = DirectoryBlockIterator.next d { pos := a })
    (prev : Option Nat) :
    Ends Prod.snd ((ps.map (d.recordAt lba)).find? (·.hit target))
      (d.findFrom it prev target) := by
  -- On the records left.
  induction ps generalizing a it prev with
  | nil =>
      obtain rfl : a = d.blkSize := ht
      exact findFrom_of_none prev target (hit.trans (iter_end d))
  | cons p ps ih =>
      obtain ⟨rfl, hok, hrest⟩ := ht
      rw [format_len] at hrest
      have hnext := hit.trans (iter_next hok hrest.le)
      have hnames' : d.LiveNames ps := fun p hp => hnames p (List.mem_cons_of_mem _ hp)
      rw [List.map_cons, List.find?_cons, recordAt_hit]
      -- Dead records are passed over by the iterator, and are no hit.
      by_cases hlive : getInode d.inner a = 0
      · rw [if_neg (not_not.mpr hlive)] at hnext
        simp only [hlive, ne_eq, not_true_eq_false, false_and, decide_false]
        exact ih hrest hnames' hnext prev
      · rw [if_pos hlive] at hnext
        rw [findFrom_of_some prev target hnext, getName_eq hok hrest.le,
          -- Live names decode, so this search meets no error.
          if_pos (hnames a List.mem_cons_self hlive)]
        dsimp only
        by_cases hname : nameBytes d.isVersion2 d.inner a = target
        · rw [if_pos ⟨hname, hlive⟩, decide_eq_true ⟨hlive, hname⟩]
          simp only [Ends, recordAt_undecodable, hlive, false_and, decide_false,
            if_neg Bool.false_ne_true]
          exact ⟨_, rfl, rfl⟩
        · rw [if_neg fun hc => hname hc.1, decide_eq_false fun hc => hname hc.2]
          exact ih hrest hnames' rfl (some a)

/-- The iterator for changes does not, and the loop decodes their names. -/
theorem findMutFrom_ends (ht : d.TilesIn a ps d.blkSize) (hnames : d.LiveNames ps)
    (ppos : Option Nat) :
    Ends DirectoryBlockIteratorMutCursor.pos
      ((ps.map (d.recordAt lba)).find? fun r => r.undecodable || r.hit target)
      (d.findMutFrom { pos := a, ppos := ppos } target) := by
  -- On the records left.
  induction ps generalizing a ppos with
  | nil =>
      obtain rfl : a = d.blkSize := ht
      exact findMutFrom_of_none target (iterMut_end d ppos)
  | cons p ps ih =>
      obtain ⟨rfl, hok, hrest⟩ := ht
      rw [format_len] at hrest
      have hih := ih hrest (fun p hp => hnames p (List.mem_cons_of_mem _ hp)) (some a)
      rw [List.map_cons, List.find?_cons,
        findMutFrom_of_some target (iterMut_next ppos hok hrest.le), getName_eq hok hrest.le]
      -- The cursor of a removal stops at every record, dead ones too, and decodes its name first.
      by_cases hvalid : utf8Valid (nameBytes d.isVersion2 d.inner a) = true
      · have hdec : (d.recordAt lba a).undecodable = false := by
          rw [recordAt_undecodable, hvalid]
          exact decide_eq_false fun hc => Bool.noConfusion hc.2
        rw [if_pos hvalid, hdec, Bool.false_or, recordAt_hit]
        dsimp only
        by_cases hfound : nameBytes d.isVersion2 d.inner a = target ∧ getInode d.inner a ≠ 0
        · rw [if_pos hfound, decide_eq_true hfound.symm]
          simp only [Ends, hdec, if_neg Bool.false_ne_true]
          exact ⟨_, rfl, rfl⟩
        · rw [if_neg hfound, decide_eq_false fun hc => hfound hc.symm]
          exact hih
      · have hunused : getInode d.inner a = 0 := by
          by_contra hused
          exact hvalid (hnames a List.mem_cons_self hused)
        have hdec : (d.recordAt lba a).undecodable = true := by
          rw [recordAt_undecodable]
          exact decide_eq_true ⟨hunused, by simpa using hvalid⟩
        rw [if_neg hvalid, hdec, Bool.true_or]
        simp only [Ends, hdec, if_pos]

end DirectoryBlock

namespace HTree

open Block Inode.Extent

variable {fs : FileSystem} {ino : Nat} {t : ExtentTree} {ls : List Leaf} {ρ : Type}
  {posOf : ρ → Nat}

/-! ## The blocks of the slots -/

/-- The file of the directory, read through its extent tree. -/
structure Mapped (fs : FileSystem) (ls : List Leaf) (t : ExtentTree) : Prop where
  tree : WellFormed fs.blocks t ls
  ordered : Ordered ls
  cache : ∀ l, t.cache = some l → l ∈ ls

/-- The leaf block of an index entry and its number. -/
def leafOf (fs : FileSystem) (ls : List Leaf) (en : DxEntry) : Option (Nat × DirectoryBlock) :=
  match lookup ls en.block with
  | some (.initialized lba) =>
    (fs.blocks lba).map fun b => (lba, { inner := b, isVersion2 := fs.sb.isDirEntryVersion2 })
  | _ => none

/-- A mapped, well-formed leaf block. -/
def LeafOk (fs : FileSystem) (ls : List Leaf) (en : DxEntry) : Prop :=
  ∃ lba d, leafOf fs ls en = some (lba, d) ∧ d.WellFormed

/-- The records of the leaf block of an index entry. -/
def recordsOf (fs : FileSystem) (ls : List Leaf) (en : DxEntry) : List Record :=
  match leafOf fs ls en with
  | some (lba, d) => d.records lba
  | none => []

/-- From the first extent on, `current` reads the map. -/
theorem currentAt_of_le (hm : Mapped fs ls t) {l0 : Leaf} (hhead : ls.head? = some l0) {fba : Nat}
    (h0 : l0.block ≤ fba) (ino : Nat) :
    ∃ t', currentAt fs ino t fba = .ok (lookup ls fba, t') ∧ Mapped fs ls t' := by
  obtain ⟨c, hopen, hat⟩ :=
    cursorFromFba_at hm.tree hm.ordered hhead h0 hm.cache [] (fun _ => []) ino
  obtain ⟨i, l', hleaf, hpred⟩ := hat.leaf
  refine ⟨{ t with cache := some l' }, ?_, hm.tree.of_cache, hm.ordered, fun k hk => ?_⟩
  · rw [currentAt, hopen]
    dsimp only
    rw [hat.current hm.ordered, Cursor.drop, hleaf, ← hat.root]
    rfl
  · cases hk
    exact hpred.mem

/-- A mapped block is not before the first extent. -/
theorem Mapped.head_le (hm : Mapped fs ls t) {fba : Nat} {a : AddressingOutput}
    (h : lookup ls fba = some a) : ∃ l0, ls.head? = some l0 ∧ l0.block ≤ fba := by
  obtain ⟨l, hmem, hc, -⟩ := exists_of_lookup h
  obtain ⟨hle, -⟩ := Leaf.contains_iff.mp hc
  obtain ⟨l0, ls', rfl⟩ := List.exists_cons_of_ne_nil (List.ne_nil_of_mem hmem)
  refine ⟨l0, rfl, ?_⟩
  rcases List.mem_cons.mp hmem with rfl | hmem
  · exact hle
  · exact Nat.le_trans ((List.pairwise_cons.mp hm.ordered).1 l hmem).1.le hle

theorem currentAt_spec (hm : Mapped fs ls t) {fba lba : Nat}
    (hlba : lookup ls fba = some (.initialized lba)) (ino : Nat) :
    ∃ t', currentAt fs ino t fba = .ok (some (.initialized lba), t') ∧ Mapped fs ls t' := by
  obtain ⟨l0, hhead, h0⟩ := hm.head_le hlba
  rw [← hlba]
  exact currentAt_of_le hm hhead h0 ino

theorem dataBlock_spec (hm : Mapped fs ls t) {en : DxEntry} {lba : Nat} {d : DirectoryBlock}
    (h : leafOf fs ls en = some (lba, d)) (noBlock : FsError) (ino : Nat) :
    ∃ t', dataBlock noBlock fs ino t en.block = .ok (lba, d, t') ∧ Mapped fs ls t' := by
  unfold leafOf at h
  split at h
  case h_1 lba' hlba =>
    obtain ⟨b, hb, heq⟩ := Option.map_eq_some_iff.mp h
    cases heq
    obtain ⟨t', hcur, hm'⟩ := currentAt_spec hm hlba ino
    refine ⟨t', ?_, hm'⟩
    simp only [dataBlock, hcur, getInitialized, hb]
  case h_2 => cases h

/-! ## The loop over the slots -/

/-- How a lookup ends that stops at the record `o`. -/
def Ends (posOf : ρ → Nat) :
    Option Record → Except Fault (Option (Nat × ρ) × ExtentTree) → Prop
  | none, res => ∃ t, res = .ok (none, t)
  | some r, res =>
    if r.undecodable then res = .error .panic
    else ∃ x t, res = .ok (some (r.lba, x), t) ∧ posOf x = r.pos

/-- A lookup stops at the first record of all blocks at which the search of one block
    stops. -/
theorem findIn_ends {search : DirectoryBlock → Except Fault (Option ρ)} {stop : Record → Bool}
    (hsearch : ∀ d lba, d.WellFormed →
      DirectoryBlock.Ends posOf ((d.records lba).find? stop) (search d))
    (noBlock : FsError) {ens : List DxEntry} (hens : ∀ en ∈ ens, LeafOk fs ls en)
    (hm : Mapped fs ls t) :
    Ends posOf ((ens.flatMap (recordsOf fs ls)).find? stop)
      (findIn search noBlock fs ino ens t) := by
  -- On the index entries left.
  induction ens generalizing t with
  | nil => exact ⟨t, rfl⟩
  | cons en ens ih =>
      obtain ⟨lba, d, hleaf, hwf⟩ := hens en List.mem_cons_self
      obtain ⟨t', hblock, hm'⟩ := dataBlock_spec hm hleaf noBlock ino
      have hends := hsearch d lba hwf
      have hrecords : recordsOf fs ls en = d.records lba := by rw [recordsOf, hleaf]
      rw [List.flatMap_cons, List.find?_append, hrecords, findIn, hblock]
      dsimp only
      -- The first record the search stops at, over all leaves, is in the first leaf that has one.
      cases hfind : (d.records lba).find? stop with
      | none =>
          rw [hfind] at hends
          rw [show search d = .ok none from hends, Option.none_or]
          exact ih (fun en hen => hens en (List.mem_cons_of_mem _ hen)) hm'
      | some r =>
          obtain ⟨p, -, rfl⟩ := List.mem_map.mp (List.mem_of_find?_eq_some hfind)
          simp only [hfind, DirectoryBlock.Ends] at hends
          simp only [Option.some_or, Ends]
          split at hends
          case isTrue hdec => rw [if_pos hdec, hends]
          case isFalse hdec =>
            obtain ⟨x, hx, hpos⟩ := hends
            rw [if_neg hdec, hx]
            exact ⟨x, t', rfl, hpos⟩

/-! ## Hashed directories -/

/-- A hashed directory of one level: the index fits its block, its keys do not go down,
    its leaf blocks are mapped and well-formed, and each live entry is in a slot from
    which its hash does not pass the next key.  Names are distinct. -/
structure IndexOk (fs : FileSystem) (ls : List Leaf) (t : ExtentTree) (root : DirDxRoot) :
    Prop where
  opened : ∃ hashSeed unsignedHash rEntries,
    DirDxRoot.fromRawBlock hashSeed unsignedHash rEntries root.raw = .ok root
  levels : root.indirectLevels = 0
  fits : 0x28 ≤ root.raw.length ∧ 0x20 + 8 * root.climit.count ≤ root.raw.length
  mapped : Mapped fs ls t
  keys : Predecessor.Nondecreasing DxEntry.hash root.slots
  leafs : ∀ en ∈ root.slots, LeafOk fs ls en
  placed : ∀ l1 en l2, root.slots = l1 ++ en :: l2 → ∀ r ∈ recordsOf fs ls en,
    r.entry.inode ≠ 0 → ∀ hash, root.hashOf r.entry.name = .ok hash →
      (∀ next, l2.head? = some next → hash < next.hash) ∧
      (en.hash ≤ hash ∨ en.hash = hash + 1)
  distinct : ∀ r ∈ root.slots.flatMap (recordsOf fs ls),
    ∀ r' ∈ root.slots.flatMap (recordsOf fs ls), r.entry.inode ≠ 0 → r'.entry.inode ≠ 0 →
      r.entry.name = r'.entry.name → r = r'

variable {root : DirDxRoot} {target : Bytes} {hash : Nat}

/-- The records of the slots that a lookup of this hash visits. -/
def candidateRecords (fs : FileSystem) (ls : List Leaf) (root : DirDxRoot) (hash : Nat) :
    List Record :=
  (root.candidates hash).flatMap (recordsOf fs ls)

theorem mem_slots_of_candidate {en : DxEntry} (h : en ∈ root.candidates hash) :
    en ∈ root.slots := by
  rcases List.mem_append.mp h with h | h
  · rw [Option.mem_toList] at h
    exact (List.mem_filter.mp (List.mem_of_getLast? h)).1
  · exact (List.mem_filter.mp h).1

/-- A slot from which the hash does not pass the next key is one of those visited. -/
theorem mem_candidates {l1 l2 : List DxEntry} {en : DxEntry}
    (hkeys : Predecessor.Nondecreasing DxEntry.hash root.slots)
    (hslots : root.slots = l1 ++ en :: l2)
    (hnext : ∀ next, l2.head? = some next → hash < next.hash)
    (hkey : en.hash ≤ hash ∨ en.hash = hash + 1) : en ∈ root.candidates hash := by
  refine List.mem_append.mpr ?_
  rw [hslots] at hkeys ⊢
  rcases hkey with hle | heq
  · left
    rw [hkeys.filter_le hle hnext, List.getLast?_concat]
    exact List.mem_singleton.mpr rfl
  · right
    exact List.mem_filter.mpr
      ⟨List.mem_append_right _ List.mem_cons_self, decide_eq_true heq⟩

/-- Every entry of the name is in a slot that a lookup visits. -/
theorem mem_candidateRecords (hok : IndexOk fs ls t root) (hhash : root.hashOf target = .ok hash)
    {r : Record} :
    (r ∈ candidateRecords fs ls root hash ∧ r.hit target = true) ↔
      r ∈ root.slots.flatMap (recordsOf fs ls) ∧ r.hit target = true := by
  refine and_congr_left fun hhit => ⟨fun h => ?_, fun h => ?_⟩
  · obtain ⟨en, hen, hr⟩ := List.mem_flatMap.mp h
    exact List.mem_flatMap.mpr ⟨en, mem_slots_of_candidate hen, hr⟩
  · obtain ⟨en, hen, hr⟩ := List.mem_flatMap.mp h
    simp only [Record.hit, decide_eq_true_eq] at hhit
    obtain ⟨hlive, rfl⟩ := hhit
    obtain ⟨l1, l2, hslots⟩ := List.append_of_mem hen
    obtain ⟨hnext, hkey⟩ := hok.placed l1 en l2 hslots r hr hlive hash hhash
    exact List.mem_flatMap.mpr ⟨en, mem_candidates hok.keys hslots hnext hkey, hr⟩

/-- A lookup of a name other than the dots, with its hash. -/
theorem findWith_ends (hok : IndexOk fs ls t root) (hdot : isDot target = false)
    (hhash : root.hashOf target = .ok hash)
    {search : DirectoryBlock → Except Fault (Option ρ)} {stop : Record → Bool}
    (hsearch : ∀ d lba, d.WellFormed →
      DirectoryBlock.Ends posOf ((d.records lba).find? stop) (search d))
    (noBlock : FsError) :
    Ends posOf ((candidateRecords fs ls root hash).find? stop)
      (findWith search noBlock root fs ino t target) := by
  obtain ⟨c, hfrom, hvisits⟩ := HTreeCursor.visits_fromHash hok.keys hok.levels hash
  rw [findWith, hdot]
  simp only [Bool.false_eq_true, if_false, findIn, hhash, hfrom, hvisits]
  exact findIn_ends hsearch noBlock (fun en hen => hok.leafs en (mem_slots_of_candidate hen))
    hok.mapped

theorem findThen_ends (hok : IndexOk fs ls t root) (hdot : isDot target = false)
    (hhash : root.hashOf target = .ok hash) (ino : Nat) :
    Ends Prod.snd ((candidateRecords fs ls root hash).find? (·.hit target))
      (findThen root fs ino t target) :=
  findWith_ends hok hdot hhash
    (fun _ _ hwf => DirectoryBlock.findFrom_ends hwf.tiles hwf.liveNames rfl none) .noEntry

theorem findMutThen_ends (hok : IndexOk fs ls t root) (hdot : isDot target = false)
    (hhash : root.hashOf target = .ok hash) (ino : Nat) :
    Ends DirectoryBlockIteratorMutCursor.pos
      ((candidateRecords fs ls root hash).find? fun r => r.undecodable || r.hit target)
      (findMutThen root fs ino t target) :=
  findWith_ends hok hdot hhash (fun _ _ hwf => DirectoryBlock.findMutFrom_ends hwf.tiles
    hwf.liveNames none) ErrFindMut

/-- A name without a hash ends both lookups. -/
theorem findWith_error {e : Fault} (hdot : isDot target = false)
    (hhash : root.hashOf target = .error e)
    (search : DirectoryBlock → Except Fault (Option ρ)) (noBlock : FsError) (ino : Nat) :
    findWith search noBlock root fs ino t target = .error e := by
  rw [findWith, hdot]
  simp only [Bool.false_eq_true, if_false, findIn, hhash]

/-- The bytes of a `&str` are those of its characters. -/
theorem exists_asBytes {name : Bytes} (h : utf8Valid name = true) :
    ∃ cs, name = Hasher.asBytes cs := by
  obtain ⟨cs, hcs⟩ := of_decide_eq_true h
  refine ⟨cs, ?_⟩
  have hdata := congrArg (·.data.toList) hcs
  simp only [List.utf8Encode, List.data_toByteArray] at hdata
  exact hdata

/-- The names with a hash. -/
theorem hashOf_ok_iff (hutf : utf8Valid target = true) :
    (∃ hash, root.hashOf target = .ok hash) ↔ root.hasher.Hashes target := by
  obtain ⟨cs, rfl⟩ := exists_asBytes hutf
  rw [← Hasher.Ext4Hasher.write_ok_iff, DirDxRoot.hashOf, Hasher.Ext4Hasher.hashOf]
  cases root.hasher.write (Hasher.asBytes cs) with
  | error e => simp [Except.map]
  | ok state => simp [Except.map]

/-! ## What both lookups find -/

/-- What a lookup does.  The hash is even and the slots visited are the candidates; the
    record of the live entry of that name is found by both functions, and where there is
    none both return `None`. -/
structure Finds (fs : FileSystem) (ino : Nat) (ls : List Leaf) (t : ExtentTree)
    (root : DirDxRoot) (target : Bytes) : Prop where
  even : ∀ hash, root.hashOf target = .ok hash → 2 ∣ hash
  visits : ∀ hash, root.hashOf target = .ok hash →
    ∃ c, HTreeCursor.fromHash root hash = .ok c ∧ c.visits root = root.candidates hash
  found : ∀ r ∈ root.slots.flatMap (recordsOf fs ls), r.hit target = true →
    (∃ prev t', findThen root fs ino t target = .ok (some (r.lba, prev, r.pos), t')) ∧
    ∃ ppos t', findMutThen root fs ino t target =
      .ok (some (r.lba, { ppos := ppos, pos := r.pos }), t')
  absent : (∀ r ∈ root.slots.flatMap (recordsOf fs ls), r.hit target = false) →
    (∃ t', findThen root fs ino t target = .ok (none, t')) ∧
    ∃ t', findMutThen root fs ino t target = .ok (none, t')

/-- Among the records that a lookup visits, an unused one with a name that is not valid
    comes behind the live entry. -/
def DecodableBefore (fs : FileSystem) (ls : List Leaf) (root : DirDxRoot) (target : Bytes) :
    Prop :=
  ∀ hash, root.hashOf target = .ok hash →
    ∀ l1 r l2, candidateRecords fs ls root hash = l1 ++ r :: l2 → r.undecodable = true →
      ∃ r' ∈ l1, r'.hit target = true

/-- The first live entry of the name among the visited records is the only one. -/
theorem find?_hit (hok : IndexOk fs ls t root) (hhash : root.hashOf target = .ok hash)
    {r : Record} (hr : r ∈ root.slots.flatMap (recordsOf fs ls)) (hhit : r.hit target = true) :
    (candidateRecords fs ls root hash).find? (·.hit target) = some r := by
  have hcand := (mem_candidateRecords hok hhash).mpr ⟨hr, hhit⟩
  obtain ⟨r', hr'⟩ := Option.isSome_iff_exists.mp
    (List.find?_isSome (p := (·.hit target)).mpr ⟨r, hcand⟩)
  have hmem := (mem_candidateRecords hok hhash).mp
    ⟨List.mem_of_find?_eq_some hr', List.find?_some hr'⟩
  have h := hmem.2
  simp only [Record.hit, decide_eq_true_eq] at h hhit
  rw [hr', hok.distinct r' hmem.1 r hr h.1 hhit.1 (h.2.trans hhit.2.symm)]

theorem find?_absent (hok : IndexOk fs ls t root) (hhash : root.hashOf target = .ok hash)
    (hno : ∀ r ∈ root.slots.flatMap (recordsOf fs ls), r.hit target = false) :
    (candidateRecords fs ls root hash).find? (·.hit target) = none := by
  refine List.find?_eq_none.mpr fun r hr hhit => ?_
  exact absurd hhit (by simp [hno r ((mem_candidateRecords hok hhash).mp ⟨hr, hhit⟩).1])

/-- `find_then` finds every stored name and nothing else. -/
theorem findThen_spec (hok : IndexOk fs ls t root) (hdot : isDot target = false)
    (hhash : root.hashOf target = .ok hash) (ino : Nat) :
    (∀ r ∈ root.slots.flatMap (recordsOf fs ls), r.hit target = true →
      ∃ prev t', findThen root fs ino t target = .ok (some (r.lba, prev, r.pos), t')) ∧
    ((∀ r ∈ root.slots.flatMap (recordsOf fs ls), r.hit target = false) →
      ∃ t', findThen root fs ino t target = .ok (none, t')) := by
  have hends := findThen_ends hok hdot hhash ino
  refine ⟨fun r hr hhit => ?_, fun hno => ?_⟩
  · rw [find?_hit hok hhash hr hhit] at hends
    simp only [Ends, Record.not_undecodable_of_hit hhit, if_neg Bool.false_ne_true] at hends
    obtain ⟨⟨prev, p⟩, t', hres, rfl⟩ := hends
    exact ⟨prev, t', hres⟩
  · rw [find?_absent hok hhash hno] at hends
    exact hends

/-- Where no undecodable record comes first, `find_mut_then` stops where `find_then` does. -/
theorem find?_undecodable (h : DecodableBefore fs ls root target)
    (hhash : root.hashOf target = .ok hash) :
    (candidateRecords fs ls root hash).find? (fun r => r.undecodable || r.hit target) =
      (candidateRecords fs ls root hash).find? (·.hit target) := by
  cases hfind : (candidateRecords fs ls root hash).find?
      fun r => r.undecodable || r.hit target with
  | none =>
      refine (List.find?_eq_none.mpr fun r hr hhit => ?_).symm
      exact List.find?_eq_none.mp hfind r hr (by rw [hhit, Bool.or_true])
  | some r =>
      obtain ⟨hstop, l1, l2, hl, hbefore⟩ := List.find?_eq_some_iff_append.mp hfind
      refine (List.find?_eq_some_iff_append.mpr ⟨?_, l1, l2, hl, fun a ha => ?_⟩).symm
      · by_contra hhit
        have hdec : r.undecodable = true := by simpa [hhit] using hstop
        obtain ⟨r', hr', hhit'⟩ := h hash hhash l1 r l2 hl hdec
        have := hbefore r' hr'
        simp [hhit'] at this
      · have := hbefore a ha
        simp only [Bool.not_eq_true', Bool.or_eq_false_iff] at this ⊢
        exact this.2

/-- An undecodable record before the entry stops `find_mut_then` with a panic. -/
theorem findMutThen_panics (hok : IndexOk fs ls t root) (hdot : isDot target = false)
    (hhash : root.hashOf target = .ok hash) (ino : Nat) {l1 l2 : List Record} {r : Record}
    (hl : candidateRecords fs ls root hash = l1 ++ r :: l2) (hdec : r.undecodable = true)
    (hno : ∀ r' ∈ l1, r'.hit target = false) :
    findMutThen root fs ino t target = .error .panic := by
  have hends := findMutThen_ends hok hdot hhash ino
  obtain ⟨r', hr', hdec'⟩ : ∃ r', (candidateRecords fs ls root hash).find?
      (fun r => r.undecodable || r.hit target) = some r' ∧ r'.undecodable = true := by
    rw [hl, List.find?_append]
    cases hfind : l1.find? fun r => r.undecodable || r.hit target with
    | none =>
        refine ⟨r, ?_, hdec⟩
        rw [Option.none_or, List.find?_cons_of_pos (by rw [hdec, Bool.true_or])]
    | some r' =>
        refine ⟨r', rfl, ?_⟩
        have := List.find?_some hfind
        rwa [hno r' (List.mem_of_find?_eq_some hfind), Bool.or_false] at this
  rw [hr'] at hends
  simpa only [Ends, hdec', if_pos] using hends

theorem not_finds_of_error {e : Fault} (h : findMutThen root fs ino t target = .error e) :
    ¬ Finds fs ino ls t root target := by
  intro hf
  by_cases hex : ∃ r ∈ root.slots.flatMap (recordsOf fs ls), r.hit target = true
  · obtain ⟨r, hr, hhit⟩ := hex
    obtain ⟨-, ppos, t', hres⟩ := hf.found r hr hhit
    rw [h] at hres
    cases hres
  · obtain ⟨-, t', hres⟩ := hf.absent fun r hr => by
      by_contra hhit
      exact hex ⟨r, hr, by simpa using hhit⟩
    rw [h] at hres
    cases hres

/-! ## A directory of one leaf block -/

/-- The root block: the dot entries, half MD4, and one slot, with file block 1. -/
def oneLeafRaw : Bytes :=
  [2, 0, 0, 0, 12, 0, 1, 2, 46, 0, 0, 0, 2, 0, 0, 0, 0xF4, 0x0F, 2, 2, 46, 46, 0, 0,
    0, 0, 0, 0, 1, 8, 0, 0, 0xFC, 1, 1, 0, 1, 0, 0, 0] ++ List.replicate 4056 0

/-- The seed of a superblock without one of its own. -/
def oneLeafSeed : Hasher.Ext4Hash :=
  { w0 := 0x67452301, w1 := 0xEFCDAB89, w2 := 0x98BADCFE, w3 := 0x10325476 }

def oneLeafRoot (unsignedHash : Bool) : DirDxRoot where
  raw := oneLeafRaw
  hasher := Hasher.HashVersion.halfMd4.getHasher oneLeafSeed unsignedHash

/-- An unused record that still has a name of one byte, and the file "a". -/
def oneLeaf (byte : UInt8) : DirectoryBlock where
  inner := [0, 0, 0, 0, 12, 0, 1, 0, byte, 0, 0, 0, 12, 0, 0, 0, 0xF4, 0x0F, 1, 1, 97, 0, 0, 0] ++
    List.replicate 4072 0
  isVersion2 := true

/-- The index is in block 100 and the leaf block in 101. -/
def oneLeafFs (byte : UInt8) : FileSystem :=
  fsOf fun lba =>
    if lba = 100 then some oneLeafRaw
    else if lba = 101 then some (oneLeaf byte).inner else none

def oneLeafExtents : List Leaf := [{ block := 0, start := 100, len := 2, isInit := true }]

theorem oneLeaf_blkSize (byte : UInt8) : (oneLeaf byte).blkSize = 4096 := by
  rw [DirectoryBlock.blkSize, oneLeaf, List.length_append, List.length_replicate]
  rfl

theorem oneLeaf_tiles (byte : UInt8) :
    (oneLeaf byte).TilesIn 0 [0, 12] (oneLeaf byte).blkSize := by
  have h0 : getEntryLen (oneLeaf byte).inner 0 = 12 := rfl
  have h0' : getNameLen true (oneLeaf byte).inner 0 = 1 := rfl
  have h12 : getEntryLen (oneLeaf byte).inner 12 = 4084 := rfl
  have h12' : getNameLen true (oneLeaf byte).inner 12 = 1 := rfl
  rw [oneLeaf_blkSize]
  refine ⟨rfl, format_ok.mpr ?_, ?_⟩
  · rw [h0, show (oneLeaf byte).isVersion2 = true from rfl, h0']
    decide
  · rw [format_len, h0]
    refine ⟨rfl, format_ok.mpr ?_, ?_⟩
    · rw [h12, show (oneLeaf byte).isVersion2 = true from rfl, h12']
      decide
    · rw [format_len, h12]
      rfl

theorem oneLeaf_wellFormed (byte : UInt8) : (oneLeaf byte).WellFormed := by
  have htiles := oneLeaf_tiles byte
  have hpos := DirectoryBlock.positions_eq htiles
  refine ⟨by rw [oneLeaf_blkSize]; decide, by rwa [hpos], ?_⟩
  rw [DirectoryBlock.live, hpos, RecordTiling.live_cons_none (view_unused rfl),
    RecordTiling.live_cons_some (view_used (show getInode (oneLeaf byte).inner 12 ≠ 0 from
      Nat.succ_ne_zero 11))]
  intro e he
  obtain rfl := List.mem_singleton.mp he
  exact utf8Valid_of_chars ['a']

/-- The records of the leaf block. -/
def oneLeafRecords (byte : UInt8) : List Record :=
  [{ lba := 101, pos := 0, entry := { inode := 0, name := [byte], ty := some .unknown } },
    { lba := 101, pos := 12, entry := { inode := 12, name := [97], ty := some .regularFile } }]

theorem oneLeaf_recordsOf (byte : UInt8) :
    recordsOf (oneLeafFs byte) oneLeafExtents { hash := 0, block := 1 } = oneLeafRecords byte := by
  have hleaf : leafOf (oneLeafFs byte) oneLeafExtents { hash := 0, block := 1 } =
      some (101, oneLeaf byte) := rfl
  rw [recordsOf, hleaf]
  dsimp only
  rw [DirectoryBlock.records, DirectoryBlock.positions_eq (oneLeaf_tiles byte)]
  rfl

theorem oneLeafRaw_length : oneLeafRaw.length = 4096 := by
  rw [oneLeafRaw, List.length_append, List.length_replicate]
  rfl

theorem oneLeafRoot_opened (unsignedHash : Bool) :
    DirDxRoot.fromRawBlock oneLeafSeed unsignedHash 507 oneLeafRaw =
      .ok (oneLeafRoot unsignedHash) := by
  have hversion : Hasher.HashVersion.tryFrom (ByteRw.readU8 oneLeafRaw 0x1C) = some .halfMd4 := rfl
  rw [DirDxRoot.fromRawBlock, hversion, oneLeafRaw_length]
  exact if_pos (by decide +kernel)

theorem oneLeafRoot_slots (unsignedHash : Bool) :
    (oneLeafRoot unsignedHash).slots = [{ hash := 0, block := 1 }] := by
  cases unsignedHash <;> decide +kernel

variable {unsignedHash : Bool}

theorem exists_oneLeaf (byte : UInt8) (unsignedHash : Bool) :
    ∃ t, t.depth = 0 ∧
      IndexOk (oneLeafFs byte) oneLeafExtents t (oneLeafRoot unsignedHash) := by
  obtain ⟨t, hdepth, -, -, hcache, hs⟩ := ExtentHeader.exists_tree 0
    (oneLeafExtents.map .leaf) (by decide) fun e he => by
      obtain rfl := List.mem_singleton.mp he
      exact ExtentHeader.encodable_of_init rfl (by decide) (by decide) rfl (by decide)
  -- Its one leaf is mapped by the one extent.
  have hmapped : Mapped (oneLeafFs byte) oneLeafExtents t := by
    refine ⟨⟨⟨[], ?_⟩, by omega, List.pairwise_singleton .., by decide⟩,
      List.pairwise_singleton .., fun l hl => by rw [hcache] at hl; cases hl⟩
    rw [hdepth]
    exact ⟨hs, List.cons_ne_nil _ _, List.pairwise_singleton .., rfl⟩
  have hslots := oneLeafRoot_slots unsignedHash
  have hrecords :
      (oneLeafRoot unsignedHash).slots.flatMap (recordsOf (oneLeafFs byte) oneLeafExtents) =
        oneLeafRecords byte := by
    rw [hslots, List.flatMap_singleton, oneLeaf_recordsOf]
  refine ⟨t, hdepth, ⟨oneLeafSeed, unsignedHash, 507, oneLeafRoot_opened unsignedHash⟩, rfl, ?_,
    hmapped, ?_, ?_, ?_, ?_⟩
  · rw [show (oneLeafRoot unsignedHash).raw = oneLeafRaw from rfl, oneLeafRaw_length,
      show (oneLeafRoot unsignedHash).climit.count = 1 from rfl]
    decide
  · rw [hslots]
    exact List.pairwise_singleton ..
  · intro en hen
    rw [hslots, List.mem_singleton] at hen
    subst hen
    exact ⟨101, oneLeaf byte, rfl, oneLeaf_wellFormed byte⟩
  · -- There is one slot, so nothing comes before it.
    intro l1 en l2 hsplit r _ _ hash _
    rw [hslots] at hsplit
    have hl1 : l1 = [] := by
      cases l1 with
      | nil => rfl
      | cons a l1 => simp at hsplit
    subst hl1
    obtain ⟨rfl, rfl⟩ := List.cons.inj hsplit
    exact ⟨fun next h => (by cases h), Or.inl (Nat.zero_le _)⟩
  · rw [hrecords]
    intro r hr r' hr' hlive hlive' _
    simp only [oneLeafRecords, List.mem_cons, List.not_mem_nil, or_false] at hr hr'
    rcases hr with rfl | rfl
    · exact absurd rfl hlive
    · rcases hr' with rfl | rfl
      · exact absurd rfl hlive'
      · rfl

theorem oneLeaf_candidateRecords (byte : UInt8) (unsignedHash : Bool) (hash : Nat) :
    candidateRecords (oneLeafFs byte) oneLeafExtents (oneLeafRoot unsignedHash) hash =
      oneLeafRecords byte := by
  rw [candidateRecords, DirDxRoot.candidates, oneLeafRoot_slots]
  simp [oneLeaf_recordsOf]

/-- Both lookups find every stored name and nothing else if and only if the name has a hash
    and, among the records visited, no unused one with a name that is not valid comes before
    the entry. -/
theorem finds_iff (hok : IndexOk fs ls t root) (hutf : utf8Valid target = true)
    (hdot : isDot target = false) (ino : Nat) :
    Finds fs ino ls t root target ↔
      root.hasher.Hashes target ∧ DecodableBefore fs ls root target := by
  constructor
  · intro hf
    refine ⟨(hashOf_ok_iff hutf).mp ?_, fun hash hhash l1 r l2 hl hdec => ?_⟩
    · -- A hash that panics ends `find_mut_then`, whether there is an entry or not.
      cases hhash : root.hashOf target with
      | ok hash => exact ⟨hash, rfl⟩
      | error e => exact absurd hf (not_finds_of_error (findWith_error hdot hhash _ _ ino))
    · by_contra hno
      refine not_finds_of_error (findMutThen_panics hok hdot hhash ino hl hdec
        fun r' hr' => ?_) hf
      by_contra hhit
      exact hno ⟨r', hr', by simpa using hhit⟩
  · rintro ⟨hhashes, hbefore⟩
    obtain ⟨hash, hhash⟩ := (hashOf_ok_iff hutf).mpr hhashes
    obtain ⟨hfound, habsent⟩ := findThen_spec hok hdot hhash ino
    have hends := findMutThen_ends hok hdot hhash ino
    rw [find?_undecodable hbefore hhash] at hends
    refine ⟨fun hash hhash => DirDxRoot.hashOf_even hhash,
      fun hash _ => HTreeCursor.visits_fromHash hok.keys hok.levels hash,
      fun r hr hhit => ⟨hfound r hr hhit, ?_⟩, fun hno => ⟨habsent hno, ?_⟩⟩
    · rw [find?_hit hok hhash hr hhit] at hends
      simp only [Ends, Record.not_undecodable_of_hit hhit, if_neg Bool.false_ne_true] at hends
      obtain ⟨⟨ppos, p⟩, t', hres, rfl⟩ := hends
      exact ⟨ppos, t', hres⟩
    · rw [find?_absent hok hhash hno] at hends
      exact hends

/-- The unused record keeps the name "b". -/
theorem finds_iff_oneLeaf :
    ∃ t, Finds (oneLeafFs 98) 12 oneLeafExtents t (oneLeafRoot false) [97] := by
  obtain ⟨t, -, hok⟩ := exists_oneLeaf 98 false
  have hvalid : utf8Valid [97] = true := utf8Valid_of_chars ['a']
  have hascii : ∀ b ∈ ([97] : Bytes), b.toNat < 0x80 :=
    List.forall_mem_singleton.mpr (show (97 : UInt8).toNat < 0x80 by decide)
  refine ⟨t, (finds_iff hok hvalid (by decide) 12).mpr
    ⟨⟨rfl, .inr (.inl hascii)⟩, fun hash _ l1 r l2 hl hdec => ?_⟩⟩
  rw [oneLeaf_candidateRecords] at hl
  have hall : ∀ r ∈ oneLeafRecords 98, r.undecodable = false := by decide +kernel
  exact absurd hdec (by simp [hall r (by simp [hl])])

/-- The unused record keeps the byte 0xFF. -/
theorem not_finds_oneLeaf : ∃ t, IndexOk (oneLeafFs 0xFF) oneLeafExtents t (oneLeafRoot true) ∧
    findMutThen (oneLeafRoot true) (oneLeafFs 0xFF) 12 t [97] = .error .panic ∧
    ¬ Finds (oneLeafFs 0xFF) 12 oneLeafExtents t (oneLeafRoot true) [97] := by
  obtain ⟨t, -, hok⟩ := exists_oneLeaf 0xFF true
  have hhash := Hasher.hashOf_unsigned oneLeafSeed [97]
  have hl : candidateRecords (oneLeafFs 0xFF) oneLeafExtents (oneLeafRoot true)
      (Hasher.hashOf oneLeafSeed [97]) = [] ++ oneLeafRecords 0xFF :=
    oneLeaf_candidateRecords 0xFF true _
  have hpanic : findMutThen (oneLeafRoot true) (oneLeafFs 0xFF) 12 t [97] = .error .panic :=
    findMutThen_panics hok (by decide) hhash 12 hl (by decide +kernel) (by simp)
  exact ⟨t, hok, hpanic, not_finds_of_error hpanic⟩

/-- A directory of a file system without `UNSIGNED_HASH`, and the name "é". -/
theorem not_finds_accent : ∃ t, IndexOk (oneLeafFs 98) oneLeafExtents t (oneLeafRoot false) ∧
    findThen (oneLeafRoot false) (oneLeafFs 98) 12 t (Hasher.asBytes ['é']) = .error .panic ∧
    ¬ Finds (oneLeafFs 98) 12 oneLeafExtents t (oneLeafRoot false) (Hasher.asBytes ['é']) := by
  obtain ⟨t, -, hok⟩ := exists_oneLeaf 98 false
  have hdot : isDot (Hasher.asBytes ['é']) = false := by decide +kernel
  have hhash : (oneLeafRoot false).hashOf (Hasher.asBytes ['é']) = .error .panic := by
    decide +kernel
  exact ⟨t, hok, findWith_error hdot hhash _ _ 12,
    not_finds_of_error (findWith_error hdot hhash _ _ 12)⟩

end HTree
end RustExt4.Directory
