/-
  RustExt4.Directory.HTree.Listing

  Listing a hashed directory (`directory/htree/mod.rs`, `fill_dir_from`).  The
  position of an entry is the end of its record, both where a listing is to go on
  after the entry and where it is to begin with it, and a listing begins with the
  first record that does not end before its position.
-/
import RustExt4.Directory.Listing

namespace RustExt4.Directory.HTree

open StateExcept
open DirectoryEntryDispatch
open Block Inode.Extent

variable {σ : Type}

/-! ## The function -/

/-- `from_index`; a root with indirect levels is `todo!()`. -/
def HTreeCursor.fromIndex (root : DirDxRoot) (index : Nat) : Except Fault (Option HTreeCursor) :=
  if root.indirectLevels ≠ 0 then .error .panic
  else if index < root.climit.count then
    .ok (some { pos := index, hash := none, checkHash := false })
  else .ok none

/-- `while let Some(en) = iter.next() { .. }` -/
def fillFrom (d : DirectoryBlock) (base offset : Nat) (f : Filler σ)
    (it : DirectoryBlockIterator) : StateExcept σ Fault (Option Nat) :=
  match _h : DirectoryBlockIterator.next d it with
  | (.error e, _) => StateExcept.throw e
  | (.ok none, _) => pure none
  | (.ok (some (.error e)), it') =>
    -- An iterator that met an error has stopped.
    if offset ≤ it'.pos then StateExcept.throw (.err e) else pure none
  | (.ok (some (.ok p)), it') =>
    if offset ≤ it'.pos then do
      let en ← lift (d.fsDirEntry p)
      if ← call f en (it'.pos + base) then fillFrom d base offset f it'
      else pure (some (it'.pos + base))
    else fillFrom d base offset f it'
termination_by d.blkSize - it.pos
decreasing_by
  all_goals
    have := DirectoryBlockIterator.next_pos_lt _h
    omega

/-- The loop over the slots.  A slot whose block is not mapped is looked at again for
    ever. -/
def fillSlots (root : DirDxRoot) (fs : FileSystem) (ino : Nat) (f : Filler σ) :
    Nat → ExtentTree → Nat → Nat → StateExcept σ Fault (Nat × ExtentTree)
  | 0, _, _, _ => StateExcept.throw .outOfFuel
  | fuel + 1, t, index, offset =>
    match (HTreeCursor.fromIndex root (index - 1)).map fun c => c.bind (·.next root) with
    | .error e => StateExcept.throw e
    | .ok none => pure (index * fs.blkSize + offset, t)
    | .ok (some (en, _)) =>
      match currentAt fs ino t en.block with
      | .error e => StateExcept.throw e
      -- the leaf of an entry with no block: the position does not move
      | .ok (none, t) => fillSlots root fs ino f fuel t index offset
      | .ok (some n, t) =>
        match getInitialized n with
        | none => StateExcept.throw (.err ErrUninitialized)
        | some lba =>
          match fs.blocks lba with
          | none => StateExcept.throw (.err .ioError)
          | some b => do
            let d : DirectoryBlock := { inner := b, isVersion2 := fs.sb.isDirEntryVersion2 }
            match ← fillFrom d (index * fs.blkSize) offset f {} with
            -- the filler has had enough
            | some pos => pure (pos, t)
            | none => fillSlots root fs ino f fuel t (index + 1) 0

/-- The `.` entry. -/
def dotEntry (root : DirDxRoot) : FsDirEntry :=
  { path := [46], ino := ByteRw.readU32 root.raw 0, ty := .directory }

/-- The `..` entry. -/
def dotdotEntry (root : DirDxRoot) : FsDirEntry :=
  { path := [46, 46], ino := ByteRw.readU32 root.raw 0xC, ty := .directory }

/-- `fill_dir_from` behind the `.` entry. -/
def fillAfterDot (root : DirDxRoot) (fs : FileSystem) (ino : Nat) (t : ExtentTree) (pos : Nat)
    (f : Filler σ) (fuel : Nat) : StateExcept σ Fault (Nat × ExtentTree) := do
  if pos < fs.blkSize then
    if ← call f (dotdotEntry root) fs.blkSize then fillSlots root fs ino f fuel t 1 0
    else pure (12, t)
  else fillSlots root fs ino f fuel t (pos / fs.blkSize) (pos % fs.blkSize)

/-- `fill_dir_from` -/
def fillDirFrom (root : DirDxRoot) (fs : FileSystem) (ino : Nat) (t : ExtentTree) (pos : Nat)
    (f : Filler σ) (fuel : Nat) : StateExcept σ Fault (Nat × ExtentTree) := do
  if pos < 12 then
    if ← call f (dotEntry root) 12 then fillAfterDot root fs ino t 12 f fuel
    else pure (0, t)
  else fillAfterDot root fs ino t pos f fuel

/-! ## The calls of a listing -/

/-- A call: the entry, the position that goes with it, and what is returned where the
    callback rejects it; `recordEnd` is the end of its record in a leaf block. -/
structure Call where
  entry : FsDirEntry
  pos : Nat
  back : Nat
  recordEnd : Option Nat
  deriving DecidableEq, Repr

/-- The call for the record at a position of the block of a slot. -/
def recordCall (d : DirectoryBlock) (base p : Nat) : Call where
  entry := d.fsEntryAt p
  pos := p + getEntryLen d.inner p + base
  back := p + getEntryLen d.inner p + base
  recordEnd := some (p + getEntryLen d.inner p)

/-- The calls for the records at these positions. -/
def recordCalls (d : DirectoryBlock) (base : Nat) (ps : List Nat) : List Call :=
  ps.map (recordCall d base)

/-- The positions from which a listing at `offset` begins. -/
def fromOffset (d : DirectoryBlock) (offset : Nat) : List Nat :=
  d.livePositions.filter fun p => offset ≤ p + getEntryLen d.inner p

/-- The calls for leaf blocks, the first of which is that of index `index`. -/
def leafCalls (blkSize : Nat) : Nat → Nat → List DirectoryBlock → List Call
  | _, _, [] => []
  | index, offset, d :: ds =>
    recordCalls d (index * blkSize) (fromOffset d offset) ++ leafCalls blkSize (index + 1) 0 ds

def dotCall (root : DirDxRoot) : Call :=
  { entry := dotEntry root, pos := 12, back := 0, recordEnd := none }

def dotdotCall (root : DirDxRoot) (blkSize : Nat) : Call :=
  { entry := dotdotEntry root, pos := blkSize, back := 12, recordEnd := none }

/-- The calls of a listing behind the `.` entry. -/
def listingAfterDot (root : DirDxRoot) (blkSize : Nat) (ds : List DirectoryBlock) (pos : Nat) :
    List Call :=
  if pos < blkSize then dotdotCall root blkSize :: leafCalls blkSize 1 0 ds
  else leafCalls blkSize (pos / blkSize) (pos % blkSize) (ds.drop (pos / blkSize - 1))

/-- The calls of a listing from `pos` whose callback accepts each entry. -/
def listing (root : DirDxRoot) (blkSize : Nat) (ds : List DirectoryBlock) (pos : Nat) :
    List Call :=
  if pos < 12 then dotCall root :: listingAfterDot root blkSize ds 12
  else listingAfterDot root blkSize ds pos

/-! ## The function makes these calls -/

/-- The calls in turn, up to one that the callback rejects: what is returned for it, and the
    state of the callback. -/
def answer (f : Filler σ) : List Call → σ → Option Nat × σ
  | [], s => (none, s)
  | c :: cs, s =>
    if (f c.entry c.pos s).1 then answer f cs (f c.entry c.pos s).2
    else (some c.back, (f c.entry c.pos s).2)

theorem answer_append (f : Filler σ) (cs cs' : List Call) (s : σ) :
    answer f (cs ++ cs') s =
      match answer f cs s with
      | (none, s) => answer f cs' s
      | (some pos, s) => (some pos, s) := by
  induction cs generalizing s with
  | nil => rfl
  | cons c cs ih =>
      rw [List.cons_append, answer, answer]
      split
      · exact ih _
      · rfl

section
variable {d : DirectoryBlock} {it it' : DirectoryBlockIterator} {p base offset : Nat} {f : Filler σ}

theorem fillFrom_of_none (h : DirectoryBlockIterator.next d it = (.ok none, it')) :
    fillFrom d base offset f it = pure none := by
  rw [fillFrom]
  split <;> rename_i heq <;> rw [h] at heq <;> cases heq

theorem fillFrom_of_some (h : DirectoryBlockIterator.next d it = (.ok (some (.ok p)), it')) :
    fillFrom d base offset f it =
      if offset ≤ it'.pos then do
        let en ← lift (d.fsDirEntry p)
        if ← call f en (it'.pos + base) then fillFrom d base offset f it'
        else pure (some (it'.pos + base))
      else fillFrom d base offset f it' := by
  rw [fillFrom]
  split <;> rename_i heq <;> rw [h] at heq <;> cases heq
  rfl

theorem fillFrom_eq {ps : List Nat} (hy : d.Yields it ps)
    (hps : ∀ p ∈ ps, d.fsDirEntry p = .ok (d.fsEntryAt p)) (s : σ) :
    fillFrom d base offset f it s =
      (.ok (answer f (recordCalls d base
          (ps.filter fun p => offset ≤ p + getEntryLen d.inner p)) s).1,
        (answer f (recordCalls d base
          (ps.filter fun p => offset ≤ p + getEntryLen d.inner p)) s).2) := by
  -- On the records left, with the state the filler is in.
  induction ps generalizing it s with
  | nil =>
      obtain ⟨it', hnext, -⟩ := hy
      rw [fillFrom_of_none hnext]
      rfl
  | cons p ps ih =>
      obtain ⟨it', hnext, hpos, hrest⟩ := hy
      have hih := ih hrest fun q hq => hps q (List.mem_cons_of_mem _ hq)
      rw [fillFrom_of_some hnext, hpos]
      -- A record that ends before the offset has been handed over in an earlier call.
      by_cases hin : offset ≤ p + getEntryLen d.inner p
      · rw [if_pos hin, lift_bind_of_ok (hps p List.mem_cons_self),
          List.filter_cons_of_pos (by simpa using hin), bind_apply, call]
        simp only [recordCalls, List.map_cons, answer]
        -- The filler stops the listing by answering false.
        by_cases hacc : (f (d.fsEntryAt p) (p + getEntryLen d.inner p + base) s).1 = true
        · simp only [recordCall, hacc, reduceIte]
          exact hih _
        · simp only [recordCall, hacc, Bool.false_eq_true, reduceIte]
          rfl
      · rw [if_neg hin, List.filter_cons_of_neg (by simpa using hin)]
        exact hih s

end

/-- A hashed directory of one level with these leaf blocks, in the order of the slots. -/
structure ListingOk (fs : FileSystem) (ls : List Leaf) (t : ExtentTree) (root : DirDxRoot)
    (ds : List DirectoryBlock) : Prop where
  levels : root.indirectLevels = 0
  mapped : Mapped fs ls t
  length : ds.length = root.climit.count
  leafs : ∀ i d, ds[i]? = some d → d.WellFormed ∧ ∃ lba, leafOf fs ls (root.slot i) = some (lba, d)
  blkSize : ∀ d ∈ ds, d.blkSize = fs.blkSize
  dots_lt : 12 < fs.blkSize

variable {fs : FileSystem} {ls : List Leaf} {t : ExtentTree} {root : DirDxRoot}
  {ds : List DirectoryBlock} {f : Filler σ}

theorem fromIndex_next (h : ListingOk fs ls t root ds) (i : Nat) :
    (HTreeCursor.fromIndex root i).map (fun c => c.bind (·.next root)) =
      .ok (if i < ds.length then
        some (root.slot i, { pos := i + 1, hash := none, checkHash := false }) else none) := by
  rw [HTreeCursor.fromIndex, if_neg (not_not.mpr h.levels), h.length]
  by_cases hi : i < root.climit.count
  · rw [if_pos hi, if_pos hi]
    simp only [Except.map, Option.bind_some, HTreeCursor.next, DirDxRoot.entries,
      if_pos (Or.inr hi)]
  · rw [if_neg hi, if_neg hi]
    rfl

theorem leafOf_eq_some {en : DxEntry} {lba : Nat} {d : DirectoryBlock}
    (h : leafOf fs ls en = some (lba, d)) :
    lookup ls en.block = some (.initialized lba) ∧ ∃ b, fs.blocks lba = some b ∧
      d = { inner := b, isVersion2 := fs.sb.isDirEntryVersion2 } := by
  unfold leafOf at h
  split at h
  case h_1 lba' hlba =>
    obtain ⟨b, hb, heq⟩ := Option.map_eq_some_iff.mp h
    cases heq
    exact ⟨hlba, b, hb, rfl⟩
  case h_2 => cases h

/-- Where a listing returns whose callback accepts each entry. -/
def listingEnd (blkSize : Nat) (ds : List DirectoryBlock) (index offset : Nat) : Nat :=
  if index ≤ ds.length then (ds.length + 1) * blkSize else index * blkSize + offset

theorem fillSlots_eq (h : ListingOk fs ls t root ds) (ino : Nat) {index : Nat} (hpos : 1 ≤ index)
    (offset : Nat) {fuel : Nat} (hfuel : ds.length + 1 - index < fuel) (s : σ) :
    ∃ t', fillSlots root fs ino f fuel t index offset s =
      (.ok ((answer f (leafCalls fs.blkSize index offset (ds.drop (index - 1))) s).1.getD
          (listingEnd fs.blkSize ds index offset), t'),
        (answer f (leafCalls fs.blkSize index offset (ds.drop (index - 1))) s).2) := by
  -- On the turns left: every turn but the last moves one leaf on.
  induction fuel generalizing index offset t s with
  | zero => omega
  | succ n ih =>
      rw [fillSlots, fromIndex_next h]
      by_cases hin : index - 1 < ds.length
      · obtain ⟨d, hget⟩ : ∃ d, ds[index - 1]? = some d := ⟨_, List.getElem?_eq_getElem hin⟩
        have hdrop : ds.drop (index - 1) = d :: ds.drop (index + 1 - 1) := by
          obtain ⟨hlt, rfl⟩ := List.getElem?_eq_some_iff.mp hget
          rw [List.drop_eq_getElem_cons hlt, show index - 1 + 1 = index + 1 - 1 by omega]
        obtain ⟨hwf, lba, hleaf⟩ := h.leafs _ _ hget
        obtain ⟨hlba, b, hb, hd⟩ := leafOf_eq_some hleaf
        obtain ⟨t1, hcur, hm1⟩ := currentAt_spec h.mapped hlba ino
        simp only [if_pos hin, hcur, getInitialized, hb, ← hd, bind_apply]
        rw [fillFrom_eq hwf.yields (fun p hp => (hwf.fsDirEntry hp).2.2), hdrop, leafCalls,
          answer_append, fromOffset]
        -- The leaf's own calls either stop the listing or leave the rest to the next leaf.
        cases hans : answer f (recordCalls d (index * fs.blkSize)
          (d.livePositions.filter fun p => offset ≤ p + getEntryLen d.inner p)) s with
        | mk r s' =>
            cases r with
            | some pos => exact ⟨t1, rfl⟩
            | none =>
                have hok1 : ListingOk fs ls t1 root ds := { h with mapped := hm1 }
                obtain ⟨t', hrest⟩ := ih hok1 (show 1 ≤ index + 1 by omega) 0 (by omega) s'
                refine ⟨t', hrest.trans ?_⟩
                -- Where the listing ends does not depend on the leaf it comes from.
                have hend : listingEnd fs.blkSize ds (index + 1) 0 =
                    listingEnd fs.blkSize ds index offset := by
                  rw [listingEnd, listingEnd, if_pos (show index ≤ ds.length by omega)]
                  split
                  · rfl
                  · rw [show index = ds.length by omega]
                    rfl
                rw [hend]
      · rw [if_neg hin, List.drop_eq_nil_of_le (by omega), listingEnd, if_neg (by omega)]
        exact ⟨t, rfl⟩

/-- The same from a position. -/
def endFrom (blkSize : Nat) (ds : List DirectoryBlock) (pos : Nat) : Nat :=
  if pos < blkSize then listingEnd blkSize ds 1 0
  else listingEnd blkSize ds (pos / blkSize) (pos % blkSize)

theorem fillAfterDot_eq (h : ListingOk fs ls t root ds) (ino pos : Nat) {fuel : Nat}
    (hfuel : ds.length < fuel) (s : σ) :
    ∃ t', fillAfterDot root fs ino t pos f fuel s =
      (.ok ((answer f (listingAfterDot root fs.blkSize ds pos) s).1.getD
          (endFrom fs.blkSize ds pos), t'),
        (answer f (listingAfterDot root fs.blkSize ds pos) s).2) := by
  have hblk : 0 < fs.blkSize := by have := h.dots_lt; omega
  rw [fillAfterDot, listingAfterDot, endFrom]
  by_cases hpos : pos < fs.blkSize
  · rw [if_pos hpos, if_pos hpos, if_pos hpos, bind_apply, call]
    simp only [answer, dotdotCall]
    by_cases hacc : (f (dotdotEntry root) fs.blkSize s).1 = true
    · simp only [hacc, reduceIte]
      exact fillSlots_eq h ino (Nat.le_refl 1) 0 (show ds.length + 1 - 1 < fuel by omega) _
    · simp only [hacc, Bool.false_eq_true, reduceIte]
      exact ⟨t, rfl⟩
  · rw [if_neg hpos, if_neg hpos, if_neg hpos]
    have hindex : 1 ≤ pos / fs.blkSize := (Nat.one_le_div_iff hblk).mpr (Nat.le_of_not_lt hpos)
    exact fillSlots_eq h ino hindex (pos % fs.blkSize)
      (show ds.length + 1 - pos / fs.blkSize < fuel by omega) s

/-- The calls of a listing are those of `listing`, up to the first that is rejected. -/
theorem fillDirFrom_eq (h : ListingOk fs ls t root ds) (ino pos : Nat) {fuel : Nat}
    (hfuel : ds.length < fuel) (s : σ) :
    ∃ t', fillDirFrom root fs ino t pos f fuel s =
      (.ok ((answer f (listing root fs.blkSize ds pos) s).1.getD (endFrom fs.blkSize ds pos), t'),
        (answer f (listing root fs.blkSize ds pos) s).2) := by
  have hdots := h.dots_lt
  rw [fillDirFrom, listing]
  by_cases hpos : pos < 12
  · rw [if_pos hpos, if_pos hpos, bind_apply, call]
    simp only [answer, dotCall]
    have hend : endFrom fs.blkSize ds pos = endFrom fs.blkSize ds 12 := by
      rw [endFrom, endFrom, if_pos hdots, if_pos (by omega)]
    by_cases hacc : (f (dotEntry root) 12 s).1 = true
    · simp only [hacc, reduceIte, hend]
      exact fillAfterDot_eq h ino 12 hfuel _
    · simp only [hacc, Bool.false_eq_true, reduceIte]
      exact ⟨t, rfl⟩
  · rw [if_neg hpos, if_neg hpos]
    exact fillAfterDot_eq h ino pos hfuel s

/-! ## Where a listing goes on -/

section
variable {d : DirectoryBlock} {offset : Nat}

/-- Behind a record that ends in the block, the listing begins with that record. -/
theorem fromOffset_of_mem (hwf : d.WellFormed) {ps1 ps2 : List Nat} {p : Nat}
    (hps : d.livePositions = ps1 ++ p :: ps2) :
    fromOffset d (p + getEntryLen d.inner p) = p :: ps2 := by
  have hapart := hwf.apart
  rw [hps] at hapart
  obtain ⟨-, htail, hcross⟩ := List.pairwise_append.mp hapart
  have hlen : ∀ q ∈ ps1 ++ p :: ps2, 0 < getEntryLen d.inner q := fun q hq =>
    (hwf.fsDirEntry (hps ▸ hq)).1
  have h1 : ps1.filter (fun q => p + getEntryLen d.inner p ≤ q + getEntryLen d.inner q) = [] := by
    refine List.filter_eq_nil_iff.mpr fun q hq => ?_
    have := hcross q hq p List.mem_cons_self
    have := hlen p (by simp)
    simp only [decide_eq_true_eq]
    omega
  have h2 : ps2.filter (fun q => p + getEntryLen d.inner p ≤ q + getEntryLen d.inner q) = ps2 := by
    refine List.filter_eq_self.mpr fun q hq => ?_
    have := (List.pairwise_cons.mp htail).1 q hq
    simp only [decide_eq_true_eq]
    omega
  rw [fromOffset, hps, List.filter_append, h1, List.filter_cons_of_pos (by simp), h2,
    List.nil_append]

/-- A record that ends the block is the last one. -/
theorem eq_nil_of_end (hwf : d.WellFormed) {ps1 ps2 : List Nat} {p : Nat}
    (hps : d.livePositions = ps1 ++ p :: ps2) (hend : p + getEntryLen d.inner p = d.blkSize) :
    ps2 = [] := by
  have hapart := hwf.apart
  rw [hps] at hapart
  refine List.eq_nil_iff_forall_not_mem.mpr fun q hq => ?_
  have hle := (List.pairwise_cons.mp (List.pairwise_append.mp hapart).2.1).1 q hq
  obtain ⟨hpos, hin, -⟩ := hwf.fsDirEntry (p := q) (hps ▸ by simp [hq])
  omega

/-- A listing from an offset is an end of the listing of the block. -/
theorem fromOffset_suffix (hwf : d.WellFormed) (offset : Nat) :
    fromOffset d offset <:+ d.livePositions := by
  have hapart := hwf.apart
  unfold fromOffset
  generalize d.livePositions = ps at hapart ⊢
  induction ps with
  | nil => exact List.suffix_refl _
  | cons p ps ih =>
      obtain ⟨hhead, hrest⟩ := List.pairwise_cons.mp hapart
      by_cases hin : offset ≤ p + getEntryLen d.inner p
      · have hall : (p :: ps).filter (fun q => offset ≤ q + getEntryLen d.inner q) = p :: ps := by
          refine List.filter_eq_self.mpr fun q hq => ?_
          rcases List.mem_cons.mp hq with rfl | hq
          · exact decide_eq_true hin
          · have := hhead q hq
            exact decide_eq_true (by omega)
        rw [hall]
      · rw [List.filter_cons_of_neg (by simpa using hin)]
        exact (ih hrest).trans (List.suffix_cons p ps)

theorem fromOffset_zero : fromOffset d 0 = d.livePositions :=
  List.filter_eq_self.mpr fun _ _ => decide_eq_true (Nat.zero_le _)

end

section
variable {blkSize index offset : Nat}

theorem leafCalls_drop (blkSize index k : Nat) (ds : List DirectoryBlock) :
    leafCalls blkSize (index + k) 0 (ds.drop k) <:+ leafCalls blkSize index 0 ds := by
  induction k generalizing index ds with
  | zero => exact List.suffix_refl _
  | succ k ih =>
      cases ds with
      | nil => exact List.suffix_refl _
      | cons d ds =>
          rw [List.drop_succ_cons, leafCalls, show index + (k + 1) = index + 1 + k by omega]
          exact (ih (index + 1) ds).trans (List.suffix_append ..)

theorem leafCalls_suffix (hds : ∀ d ∈ ds, d.WellFormed) (blkSize index offset : Nat) :
    leafCalls blkSize index offset ds <:+ leafCalls blkSize index 0 ds := by
  cases ds with
  | nil => exact List.suffix_refl _
  | cons d ds =>
      obtain ⟨ps, hps⟩ := fromOffset_suffix (hds d List.mem_cons_self) offset
      refine ⟨recordCalls d (index * blkSize) ps, ?_⟩
      rw [leafCalls, leafCalls, fromOffset_zero, ← hps, ← List.append_assoc, recordCalls,
        recordCalls, recordCalls, List.map_append]

/-- A listing from any position is an end of the whole listing. -/
theorem listing_suffix (hds : ∀ d ∈ ds, d.WellFormed) (hblk : 12 < blkSize) (pos : Nat) :
    listing root blkSize ds pos <:+ listing root blkSize ds 0 := by
  have hleafs : listingAfterDot root blkSize ds pos <:+ listingAfterDot root blkSize ds 12 := by
    rw [listingAfterDot, listingAfterDot, if_pos hblk]
    by_cases hpos : pos < blkSize
    · rw [if_pos hpos]
    · have hindex : 1 ≤ pos / blkSize :=
        (Nat.one_le_div_iff (by omega)).mpr (Nat.le_of_not_lt hpos)
      rw [if_neg hpos]
      have hdrop := leafCalls_drop blkSize 1 (pos / blkSize - 1) ds
      rw [Nat.add_sub_cancel' hindex] at hdrop
      exact ((leafCalls_suffix (fun d hd => hds d (List.mem_of_mem_drop hd)) ..).trans hdrop).trans
        (List.suffix_cons ..)
  rw [listing, listing, if_pos (show 0 < 12 by decide)]
  split
  · exact List.suffix_refl _
  · exact hleafs.trans (List.suffix_cons ..)

/-- A call for a leaf block, and the calls behind it. -/
theorem leafCalls_split (hds : ∀ d ∈ ds, d.WellFormed) {l1 l2 : List Call} {c : Call}
    (h : leafCalls blkSize index offset ds = l1 ++ c :: l2) :
    ∃ k d ps1 p ps2, ds[k]? = some d ∧ d.livePositions = ps1 ++ p :: ps2 ∧
      c = recordCall d ((index + k) * blkSize) p ∧
      l2 = recordCalls d ((index + k) * blkSize) ps2 ++
        leafCalls blkSize (index + k + 1) 0 (ds.drop (k + 1)) := by
  -- On the leaves; a call of a later leaf is one of the list without the first.
  induction ds generalizing index offset l1 with
  | nil => simp [leafCalls] at h
  | cons d ds ih =>
      have hlater : ∀ {l1}, leafCalls blkSize (index + 1) 0 ds = l1 ++ c :: l2 →
          ∃ k d' ps1 p ps2, (d :: ds)[k]? = some d' ∧ d'.livePositions = ps1 ++ p :: ps2 ∧
            c = recordCall d' ((index + k) * blkSize) p ∧
            l2 = recordCalls d' ((index + k) * blkSize) ps2 ++
              leafCalls blkSize (index + k + 1) 0 ((d :: ds).drop (k + 1)) := by
        intro l1 hl
        obtain ⟨k, d', ps1, p, ps2, hget, hps, hc, hrest⟩ :=
          ih (fun d hd => hds d (List.mem_cons_of_mem _ hd)) hl
        rw [show index + 1 + k = index + (k + 1) by omega] at hc hrest
        exact ⟨k + 1, d', ps1, p, ps2, hget, hps, hc, hrest⟩
      rw [leafCalls] at h
      -- The call is among the first leaf's or after them.
      rcases List.append_eq_append_iff.mp h with ⟨a, -, hrest⟩ | ⟨a, hfirst, hrest⟩
      · exact hlater hrest
      · cases a with
        | nil => exact @hlater [] hrest.symm
        | cons c' a =>
            obtain ⟨rfl, rfl⟩ := List.cons.inj hrest
            obtain ⟨w, hw⟩ := fromOffset_suffix (hds d List.mem_cons_self) offset
            obtain ⟨qs, ps, hqs, -, hps⟩ := List.map_eq_append_iff.mp hfirst
            obtain ⟨p, ps2, rfl, rfl, rfl⟩ := List.map_eq_cons_iff.mp hps
            exact ⟨0, d, w ++ qs, p, ps2, rfl, by rw [← hw, hqs, List.append_assoc], rfl, rfl⟩

/-- From the position of an entry in a leaf block: the entries behind it where its record
    ends the block, else those and the entry itself. -/
theorem listing_of_leafCall (hds : ∀ d ∈ ds, d.WellFormed) (hsize : ∀ d ∈ ds, d.blkSize = blkSize)
    (hblk : 12 < blkSize) (hindex : 1 ≤ index) {l1 l2 : List Call} {c : Call}
    (h : leafCalls blkSize index offset (ds.drop (index - 1)) = l1 ++ c :: l2) :
    ∃ e, c.recordEnd = some e ∧ c.back = c.pos ∧
      listing root blkSize ds c.pos = if e = blkSize then l2 else c :: l2 := by
  obtain ⟨k, d, ps1, p, ps2, hget, hps, rfl, hrest⟩ :=
    leafCalls_split (fun d hd => hds d (List.mem_of_mem_drop hd)) h
  rw [List.getElem?_drop] at hget
  rw [List.drop_drop, show index - 1 + (k + 1) = index + k by omega] at hrest
  have hd := List.mem_of_getElem? hget
  have hwf := hds d hd
  obtain ⟨hlen, hle, -⟩ := hwf.fsDirEntry (p := p) (hps ▸ by simp)
  rw [hsize d hd] at hle
  refine ⟨_, rfl, rfl, ?_⟩
  -- The position, with its block and its offset.
  have hbase : blkSize ≤ (index + k) * blkSize := Nat.le_mul_of_pos_left _ (by omega)
  have hge : ¬ p + getEntryLen d.inner p + (index + k) * blkSize < blkSize := by omega
  rw [show (recordCall d ((index + k) * blkSize) p).pos =
    p + getEntryLen d.inner p + (index + k) * blkSize from rfl, listing, if_neg (by omega),
    listingAfterDot, if_neg hge]
  split
  next hend =>
    obtain rfl := eq_nil_of_end hwf hps (hend.trans (hsize d hd).symm)
    rw [hend, Nat.add_mul_mod_self_right, Nat.mod_self, Nat.add_mul_div_right _ _ (by omega),
      Nat.div_self (by omega), hrest, show 1 + (index + k) - 1 = index + k by omega,
      Nat.add_comm 1]
    rfl
  next hin =>
    have hdrop : ds.drop (index + k - 1) = d :: ds.drop (index + k) := by
      rw [show index - 1 + k = index + k - 1 by omega] at hget
      obtain ⟨hlt, rfl⟩ := List.getElem?_eq_some_iff.mp hget
      rw [List.drop_eq_getElem_cons hlt, show index + k - 1 + 1 = index + k by omega]
    rw [Nat.add_mul_mod_self_right, Nat.mod_eq_of_lt (by omega),
      Nat.add_mul_div_right _ _ (by omega), Nat.div_eq_of_lt (by omega), Nat.zero_add, hdrop,
      leafCalls, fromOffset_of_mem hwf hps, hrest]
    rfl

/-- Where a listing goes on from the positions of a call. -/
theorem listing_of_call (hds : ∀ d ∈ ds, d.WellFormed) (hsize : ∀ d ∈ ds, d.blkSize = blkSize)
    (hblk : 12 < blkSize) {pos : Nat} {l1 l2 : List Call} {c : Call}
    (h : listing root blkSize ds pos = l1 ++ c :: l2) :
    c.recordEnd = none ∧ listing root blkSize ds c.pos = l2 ∧
        listing root blkSize ds c.back = c :: l2 ∨
      ∃ e, c.recordEnd = some e ∧ c.back = c.pos ∧
        listing root blkSize ds c.pos = if e = blkSize then l2 else c :: l2 := by
  -- The first leaf starts at the position one block on.
  have hatBlk : listing root blkSize ds blkSize = leafCalls blkSize 1 0 ds := by
    rw [listing, if_neg (by omega), listingAfterDot, if_neg (Nat.lt_irrefl _), Nat.mod_self,
      Nat.div_self (by omega)]
    rfl
  -- The positions of the two dot entries come first, and the leaves after both.
  have hafter : ∀ {pos l1}, listingAfterDot root blkSize ds pos = l1 ++ c :: l2 →
      c.recordEnd = none ∧ listing root blkSize ds c.pos = l2 ∧
          listing root blkSize ds c.back = c :: l2 ∨
        ∃ e, c.recordEnd = some e ∧ c.back = c.pos ∧
          listing root blkSize ds c.pos = if e = blkSize then l2 else c :: l2 := by
    intro pos l1 hl
    rw [listingAfterDot] at hl
    split at hl
    next hpos =>
      cases l1 with
      | nil =>
          obtain ⟨rfl, rfl⟩ := List.cons.inj hl
          refine Or.inl ⟨rfl, hatBlk, ?_⟩
          rw [show (dotdotCall root blkSize).back = 12 from rfl, listing,
            if_neg (Nat.lt_irrefl 12), listingAfterDot, if_pos hblk]
      | cons c' l1 =>
          obtain ⟨-, hl⟩ := List.cons.inj hl
          exact Or.inr (listing_of_leafCall hds hsize hblk (Nat.le_refl 1) hl)
    next hpos =>
      exact Or.inr (listing_of_leafCall hds hsize hblk
        ((Nat.one_le_div_iff (by omega)).mpr (Nat.le_of_not_lt hpos)) hl)
  rw [listing] at h
  split at h
  next hpos =>
    cases l1 with
    | nil =>
        obtain ⟨rfl, rfl⟩ := List.cons.inj h
        exact Or.inl ⟨rfl, rfl, rfl⟩
    | cons c' l1 =>
        obtain ⟨-, h⟩ := List.cons.inj h
        exact hafter h
  next => exact hafter h

end

/-! ## When a listing can be resumed -/

/-- A listing from `pos` with this callback returns `v`. -/
def Returns (root : DirDxRoot) (fs : FileSystem) (ino : Nat) (t : ExtentTree) (pos : Nat)
    (f : Filler σ) (s : σ) (v : Nat) (s' : σ) : Prop :=
  ∃ N, ∀ fuel ≥ N, ∃ t', fillDirFrom root fs ino t pos f fuel s = (.ok (v, t'), s')

/-- Accept each entry and note the call. -/
def note : Filler (List (FsDirEntry × Nat)) := fun en pos calls => (true, calls ++ [(en, pos)])

/-- Accept `n` entries and reject the next. -/
def rejectAt (n : Nat) : Filler Nat := fun _ _ k => (k ≠ n, k + 1)

/-- The calls of a listing from `pos` whose callback accepts each entry. -/
def Lists (root : DirDxRoot) (fs : FileSystem) (ino : Nat) (t : ExtentTree) (pos : Nat)
    (calls : List (FsDirEntry × Nat)) : Prop :=
  ∃ v, Returns root fs ino t pos note [] v calls

/-- Callback number `n` of a listing from `pos` is answered, and a listing from the position
    that was passed to it, or that is returned for it, delivers just what follows the entry in
    the whole listing, or the entry and what follows it. -/
def Resumes (root : DirDxRoot) (fs : FileSystem) (ino : Nat) (t : ExtentTree) (accepted : Bool)
    (pos n : Nat) : Prop :=
  ∀ full all, Lists root fs ino t 0 full → Lists root fs ino t pos all →
    if accepted then
      ∀ c, all[n]? = some c → ∃ rest, Lists root fs ino t c.2 rest ∧
        rest.map Prod.fst = (full.drop (full.length - all.length + (n + 1))).map Prod.fst
    else
      ∀ v, Returns root fs ino t pos (rejectAt n) 0 v (n + 1) →
        ∃ rest, Lists root fs ino t v rest ∧
          rest.map Prod.fst = (full.drop (full.length - all.length + n)).map Prod.fst

theorem Returns.unique {pos : Nat} {s s1 s2 : σ} {v1 v2 ino : Nat}
    (h1 : Returns root fs ino t pos f s v1 s1) (h2 : Returns root fs ino t pos f s v2 s2) :
    v1 = v2 ∧ s1 = s2 := by
  obtain ⟨N1, h1⟩ := h1
  obtain ⟨N2, h2⟩ := h2
  obtain ⟨t1, h1⟩ := h1 (max N1 N2) (Nat.le_max_left ..)
  obtain ⟨t2, h2⟩ := h2 (max N1 N2) (Nat.le_max_right ..)
  rw [h1] at h2
  obtain ⟨hok, rfl⟩ := Prod.mk.inj h2
  exact ⟨(Prod.mk.inj (Except.ok.inj hok)).1, rfl⟩

theorem answer_note (cs : List Call) (s : List (FsDirEntry × Nat)) :
    answer note cs s = (none, s ++ cs.map fun c => (c.entry, c.pos)) := by
  induction cs generalizing s with
  | nil => rw [List.map_nil, List.append_nil]; rfl
  | cons c cs ih => exact (ih (s ++ [(c.entry, c.pos)])).trans (by rw [List.append_assoc]; rfl)

theorem answer_rejectAt {cs1 cs2 : List Call} {c : Call} (k : Nat) :
    answer (rejectAt (k + cs1.length)) (cs1 ++ c :: cs2) k =
      (some c.back, k + cs1.length + 1) := by
  induction cs1 generalizing k with
  | nil => simp [answer, rejectAt]
  | cons c' cs1 ih =>
      have hne : k ≠ k + (cs1.length + 1) := by omega
      have hih := ih (k + 1)
      rw [show k + 1 + cs1.length = k + (cs1.length + 1) by omega] at hih
      simp only [List.cons_append, List.length_cons, answer, rejectAt, hne, decide_true, ne_eq,
        not_false_eq_true, reduceIte]
      exact hih

/-- What a listing calls is what `listing` says. -/
theorem lists_iff (h : ListingOk fs ls t root ds) (ino pos : Nat)
    (calls : List (FsDirEntry × Nat)) :
    Lists root fs ino t pos calls ↔
      calls = (listing root fs.blkSize ds pos).map fun c => (c.entry, c.pos) := by
  have hrun : ∃ v, Returns root fs ino t pos note [] v
      ((listing root fs.blkSize ds pos).map fun c => (c.entry, c.pos)) := by
    refine ⟨endFrom fs.blkSize ds pos, ds.length + 1, fun fuel hfuel => ?_⟩
    obtain ⟨t', hrun⟩ := fillDirFrom_eq (f := note) h ino pos (show ds.length < fuel by omega) []
    rw [answer_note] at hrun
    exact ⟨t', hrun⟩
  constructor
  · rintro ⟨v, hv⟩
    obtain ⟨v', hv'⟩ := hrun
    exact (hv.unique hv').2
  · rintro rfl
    exact hrun

theorem returns_rejectAt (h : ListingOk fs ls t root ds) (ino : Nat) {pos : Nat}
    {cs1 cs2 : List Call} {c : Call} (hl : listing root fs.blkSize ds pos = cs1 ++ c :: cs2) :
    Returns root fs ino t pos (rejectAt cs1.length) 0 c.back (cs1.length + 1) := by
  refine ⟨ds.length + 1, fun fuel hfuel => ?_⟩
  obtain ⟨t', hrun⟩ := fillDirFrom_eq (f := rejectAt cs1.length) h ino pos
    (show ds.length < fuel by omega) 0
  have hans := @answer_rejectAt cs1 cs2 c 0
  rw [Nat.zero_add] at hans
  rw [hl, hans] at hrun
  exact ⟨t', hrun⟩

theorem ListingOk.wellFormed (h : ListingOk fs ls t root ds) : ∀ d ∈ ds, d.WellFormed := by
  intro d hd
  obtain ⟨i, hi⟩ := List.getElem?_of_mem hd
  exact (h.leafs i d hi).1

/-- `Resumes` over the lists of calls. -/
theorem resumes_listing_iff (h : ListingOk fs ls t root ds) (ino : Nat) (accepted : Bool)
    {pos : Nat} {l1 l2 : List Call} {c : Call}
    (hl : listing root fs.blkSize ds pos = l1 ++ c :: l2) :
    Resumes root fs ino t accepted pos l1.length ↔
      if accepted then
        (listing root fs.blkSize ds c.pos).map Call.entry = l2.map Call.entry
      else (listing root fs.blkSize ds c.back).map Call.entry = (c :: l2).map Call.entry := by
  obtain ⟨w, hw⟩ := @listing_suffix root ds fs.blkSize h.wellFormed h.dots_lt pos
  have hentry : ∀ cs : List Call,
      (cs.map fun c => (c.entry, c.pos)).map Prod.fst = cs.map Call.entry := fun cs => by
    rw [List.map_map]
    rfl
  -- What follows in the whole listing.
  have hdrop : ∀ k, (((listing root fs.blkSize ds 0).map fun c => (c.entry, c.pos)).drop
      (((listing root fs.blkSize ds 0).map fun c => (c.entry, c.pos)).length -
        ((listing root fs.blkSize ds pos).map fun c => (c.entry, c.pos)).length + k)).map Prod.fst =
      ((listing root fs.blkSize ds pos).drop k).map Call.entry := by
    intro k
    rw [← hw, List.length_map, List.length_map, List.length_append, Nat.add_sub_cancel,
      ← List.map_drop, hentry, List.drop_append, Nat.add_sub_cancel_left,
      List.drop_eq_nil_of_le (Nat.le_add_right ..), List.nil_append]
  have hafter : (listing root fs.blkSize ds pos).drop (l1.length + 1) = l2 := by
    rw [hl, List.drop_append, Nat.add_sub_cancel_left, List.drop_eq_nil_of_le (Nat.le_succ _)]
    rfl
  have hfrom : (listing root fs.blkSize ds pos).drop l1.length = c :: l2 := by
    rw [hl, List.drop_left]
  unfold Resumes
  simp only [lists_iff h, forall_eq_apply_imp_iff, forall_eq, exists_eq_left, hentry, hdrop, hafter,
    hfrom]
  cases accepted with
  | true =>
      have hget : ((listing root fs.blkSize ds pos).map fun c => (c.entry, c.pos))[l1.length]? =
          some (c.entry, c.pos) := by
        rw [hl, List.getElem?_map, List.getElem?_append_right (Nat.le_refl _), Nat.sub_self]
        rfl
      simp only [hget, if_pos, Option.some_inj]
      exact ⟨fun hall => hall _ rfl, fun heq c' hc' => hc' ▸ heq⟩
  | false =>
      have hret := returns_rejectAt (t := t) h ino hl
      simp only [Bool.false_eq_true, reduceIte]
      exact ⟨fun hall => hall _ hret, fun heq v hv => (hv.unique hret).1 ▸ heq⟩

/-- After an entry of a leaf block that was accepted, a listing is resumed rightly just where
    the record of the entry ends the block; with one that was rejected, just where it does not.
    The dot entries are resumed rightly in both cases. -/
theorem resumes_iff (h : ListingOk fs ls t root ds) (ino : Nat) (accepted : Bool) {pos n : Nat}
    {c : Call} (hc : (listing root fs.blkSize ds pos)[n]? = some c) :
    Resumes root fs ino t accepted pos n ↔
      ∀ e, c.recordEnd = some e → (accepted = true ↔ e = fs.blkSize) := by
  obtain ⟨hn, hget⟩ := List.getElem?_eq_some_iff.mp hc
  have hl : listing root fs.blkSize ds pos = (listing root fs.blkSize ds pos).take n ++
      c :: (listing root fs.blkSize ds pos).drop (n + 1) := by
    rw [← hget, ← List.drop_eq_getElem_cons hn, List.take_append_drop]
  have hiff := resumes_listing_iff h ino accepted hl
  rw [List.length_take_of_le hn.le] at hiff
  rw [hiff]
  -- The dot entries resume at either answer; a record does when its end is a leaf's end or is not.
  rcases listing_of_call h.wellFormed h.blkSize h.dots_lt hl with
    ⟨hdot, hpos, hback⟩ | ⟨e, hrec, hback, hpos⟩
  · rw [hpos, hback, hdot]
    cases accepted <;> simp
  · rw [hback, hpos, hrec]
    simp only [Option.some_inj, forall_eq']
    by_cases hend : e = fs.blkSize
    · rw [if_pos hend]
      cases accepted with
      | true => simp [hend]
      | false => simp [hend]
    · rw [if_neg hend]
      cases accepted with
      | true => simp [hend]
      | false => simp [hend]

/-- The directory whose only file "a" has the last record of its leaf block. -/
theorem exists_listing_oneLeaf :
    ∃ t, ListingOk (oneLeafFs 98) oneLeafExtents t (oneLeafRoot true) [oneLeaf 98] := by
  obtain ⟨t, -, hok⟩ := exists_oneLeaf 98 true
  refine ⟨t, hok.levels, hok.mapped, by decide +kernel, fun i d hd => ?_, fun d hd => ?_, by decide⟩
  · cases i with
    | zero =>
        obtain rfl : oneLeaf 98 = d := Option.some.inj hd
        exact ⟨oneLeaf_wellFormed 98, 101, rfl⟩
    | succ i => cases hd
  · obtain rfl := List.mem_singleton.mp hd
    exact oneLeaf_blkSize 98

theorem listing_oneLeaf : listing (oneLeafRoot true) 4096 [oneLeaf 98] 0 =
    [dotCall (oneLeafRoot true), dotdotCall (oneLeafRoot true) 4096] ++
      { entry := { path := [97], ino := 12, ty := .regularFile }, pos := 8192, back := 8192
        recordEnd := some 4096 } :: [] := by
  decide +kernel

/-- The file is accepted. -/
theorem resumes_oneLeaf : ∃ t, Resumes (oneLeafRoot true) (oneLeafFs 98) 12 t true 0 2 := by
  obtain ⟨t, hok⟩ := exists_listing_oneLeaf
  have hcall : (listing (oneLeafRoot true) 4096 [oneLeaf 98] 0)[2]? = some _ :=
    congrArg (·[2]?) listing_oneLeaf
  refine ⟨t, (resumes_iff hok 12 true hcall).mpr fun e he => ?_⟩
  obtain rfl := Option.some.inj he
  exact iff_of_true rfl rfl

/-- It is rejected: the position that is returned lies behind it. -/
theorem not_resumes_oneLeaf : ∃ t,
    ListingOk (oneLeafFs 98) oneLeafExtents t (oneLeafRoot true) [oneLeaf 98] ∧
      ¬ Resumes (oneLeafRoot true) (oneLeafFs 98) 12 t false 0 2 := by
  obtain ⟨t, hok⟩ := exists_listing_oneLeaf
  refine ⟨t, hok, fun hres => ?_⟩
  have heq := (resumes_listing_iff hok 12 false listing_oneLeaf).mp hres
  have hnil : listing (oneLeafRoot true) 4096 [oneLeaf 98] 8192 = [] := by decide +kernel
  rw [if_neg Bool.false_ne_true, show (oneLeafFs 98).blkSize = 4096 from rfl, hnil] at heq
  cases heq

end RustExt4.Directory.HTree
