/-
  RustExt4.Directory.BlockRuns

  Any number of insertions and removals on a well-formed directory block: the
  block stays well-formed, each call does to the live entries what it should,
  and both iterators see the result.
-/
import RustExt4.Directory.BlockInv

namespace RustExt4.Directory

open DirectoryEntryDispatch

/-- A call on a directory block. -/
inductive Op
  | insert (entry : Bytes) (de : FileType) (child : Nat)
  | remove (target : Bytes)
  deriving DecidableEq, Repr

/-- A name of 1 to 255 bytes and an inode number. -/
def InsertOk (entry : Bytes) (child : Nat) : Prop :=
  1 ≤ entry.length ∧ entry.length ≤ 255 ∧ utf8Valid entry = true ∧ child ≠ 0 ∧ child < 2 ^ 32

def Op.Ok : Op → Prop
  | .insert entry _ child => InsertOk entry child
  | .remove _ => True

namespace DirectoryBlock

/-- The block after a call; a call that fails leaves it as it was. -/
def step (d : DirectoryBlock) : Op → DirectoryBlock
  | .insert entry de child =>
    match d.insertEntry entry (some de) child with
    | .ok (_, d') => d'
    | .error _ => d
  | .remove target =>
    match d.removeEntry target with
    | .ok (_, d') => d'
    | .error _ => d

/-- The block after the calls in order. -/
def run (d : DirectoryBlock) (ops : List Op) : DirectoryBlock := ops.foldl step d

theorem step_remove {d d' : DirectoryBlock} {target : Bytes} {r : Option Nat}
    (h : d.removeEntry target = .ok (r, d')) : d.step (.remove target) = d' := by
  simp only [step, h]

theorem run_append (d : DirectoryBlock) (ops ops' : List Op) :
    d.run (ops ++ ops') = (d.run ops).run ops' := List.foldl_append

theorem run_cons (d : DirectoryBlock) (op : Op) (ops : List Op) :
    d.run (op :: ops) = (d.step op).run ops := rfl

/-- What a removal by name does: nothing where no live entry has that name; else
    the first one goes. -/
def Removes (d : DirectoryBlock) (target : Bytes) : Prop :=
  (d.removeEntry target = .ok (none, d) ∧ ∀ e ∈ d.live, e.2.name ≠ target) ∨
  ∃ p e d', d.removeEntry target = .ok (some e.inode, d') ∧ e.name = target ∧ Removed d d' p e

/-- A removal is clean, or the search has come to an unused record whose name is not valid
    and has panicked: it decodes the names of unused records too. -/
theorem removeEntry_spec {d : DirectoryBlock} (h : d.WellFormed) (target : Bytes) :
    (d.removeEntry target = .error .panic ∧ ¬ d.DecodesBefore target d.positions) ∨
      (d.DecodesBefore target d.positions ∧ d.Removes target) :=
  removeFrom_spec h target (l := []) rfl h.tiles

theorem removes_iff {d : DirectoryBlock} (h : d.WellFormed) (target : Bytes) :
    d.Removes target ↔ d.DecodesBefore target d.positions := by
  rcases removeEntry_spec h target with ⟨hpanic, hbad⟩ | ⟨hgood, hrem⟩
  · refine iff_of_false ?_ hbad
    rintro (⟨hnone, -⟩ | ⟨p, e, d', hsome, -⟩)
    · rw [hpanic] at hnone
      cases hnone
    · rw [hpanic] at hsome
      cases hsome
  · exact iff_of_true hrem hgood

theorem WellFormed.insert {d : DirectoryBlock} (h : d.WellFormed) {entry : Bytes} {child : Nat}
    (hok : InsertOk entry child) (de : FileType) :
    d.insertEntry entry (some de) child = .ok (false, d) ∨
      ∃ d', d.insertEntry entry (some de) child = .ok (true, d') ∧
        Inserted d d' (d.newEntry entry (some de) child) := by
  obtain ⟨-, hlen, -, hne, hlt⟩ := hok
  exact (insertEntry_spec (by simp) h.tiles hlen hlt hne).imp_left And.right

/-- One call keeps the block well-formed. -/
theorem WellFormed.step {d : DirectoryBlock} (h : d.WellFormed) {op : Op} (hop : op.Ok) :
    (d.step op).WellFormed := by
  cases op with
  | insert entry de child =>
      rcases h.insert hop de with hins | ⟨d', hins, hd'⟩
      · simpa only [DirectoryBlock.step, hins] using h
      · simp only [DirectoryBlock.step, hins]
        exact h.inserted hd' hop.2.2.1
  | remove target =>
      rcases removeEntry_spec h target with
        ⟨hrem, -⟩ | ⟨-, ⟨hrem, -⟩ | ⟨p, e, d', hrem, -, hd'⟩⟩
      · simpa only [DirectoryBlock.step, hrem] using h
      · simpa only [DirectoryBlock.step, hrem] using h
      · simp only [DirectoryBlock.step, hrem]
        exact h.removed hd'

theorem WellFormed.run {d : DirectoryBlock} (h : d.WellFormed) {ops : List Op}
    (hops : ∀ op ∈ ops, op.Ok) : (d.run ops).WellFormed := by
  induction ops generalizing d with
  | nil => exact h
  | cons op ops ih =>
      exact ih (h.step (hops op List.mem_cons_self)) fun o ho => hops o (List.mem_cons_of_mem _ ho)

/-- The live entries are those of the used records. -/
theorem live_positions {d : DirectoryBlock} :
    d.live.map Prod.fst = d.positions.filter fun p => getInode d.inner p ≠ 0 := by
  unfold live
  induction d.positions with
  | nil => rfl
  | cons p ps ih =>
      by_cases hused : getInode d.inner p = 0
      · rw [RecordTiling.live_cons_none (view_unused hused), ih]
        simp [hused]
      · rw [RecordTiling.live_cons_some (view_used hused), List.map_cons, ih]
        simp [hused]

/-- What holds of a block between two calls: it is well-formed; `iter` visits the live
    entries and `iter_mut` all records, in the order of their positions. -/
structure Stores (d : DirectoryBlock) : Prop where
  wellFormed : d.WellFormed
  iter : DirectoryBlockIterator.collect d {} = .ok (d.live.map Prod.fst)
  iterMut : DirectoryBlockIteratorMut.collect d {} = .ok d.positions
  used : d.live.map Prod.fst = d.positions.filter fun p => getInode d.inner p ≠ 0
  ordered : d.positions.Pairwise (· < ·)

theorem WellFormed.stores {d : DirectoryBlock} (h : d.WellFormed) : d.Stores where
  wellFormed := h
  iter := collect_iter h.tiles
  iterMut := collect_iterMut none h.tiles
  used := live_positions
  ordered := h.tiles.sorted.2

/-- What a call should do: an insertion changes nothing or adds its entry to the live ones; a
    removal takes out the entry of that name. -/
def Faithful (d : DirectoryBlock) : Op → Prop
  | .insert entry de child =>
    d.insertEntry entry (some de) child = .ok (false, d) ∨
      ∃ d', d.insertEntry entry (some de) child = .ok (true, d') ∧
        Inserted d d' (d.newEntry entry (some de) child)
  | .remove target => d.Removes target

/-- Each call of a run does what it should, on a block that is as it should be. -/
def FaithfulRun : DirectoryBlock → List Op → Prop
  | d, [] => d.Stores
  | d, op :: ops => d.Stores ∧ d.Faithful op ∧ FaithfulRun (d.step op) ops

/-- Each removal of a run meets no unused record with a name that is not valid before the
    entry that it looks for. -/
def DecodesRun : DirectoryBlock → List Op → Prop
  | _, [] => True
  | d, .insert entry de child :: ops => DecodesRun (d.step (.insert entry de child)) ops
  | d, .remove target :: ops =>
    d.DecodesBefore target d.positions ∧ DecodesRun (d.step (.remove target)) ops

instance decDecodesRun : (d : DirectoryBlock) → (ops : List Op) → Decidable (d.DecodesRun ops)
  | _, [] => inferInstanceAs (Decidable True)
  | d, .insert entry de child :: ops => decDecodesRun (d.step (.insert entry de child)) ops
  | d, .remove target :: ops =>
    have := decDecodesRun (d.step (.remove target)) ops
    inferInstanceAs (Decidable (_ ∧ _))

/-- A run on a well-formed block is faithful if and only if its removals come to no name that
    they cannot decode. -/
theorem faithfulRun_iff {d : DirectoryBlock} {ops : List Op} (h : d.WellFormed)
    (hops : ∀ op ∈ ops, op.Ok) : d.FaithfulRun ops ↔ d.DecodesRun ops := by
  -- On the calls left; the block stays well-formed whatever they do.
  induction ops generalizing d with
  | nil => exact iff_of_true h.stores trivial
  | cons op ops ih =>
      have hop := hops op List.mem_cons_self
      have hrest := ih (h.step hop) fun o ho => hops o (List.mem_cons_of_mem _ ho)
      cases op with
      | insert entry de child =>
          rw [FaithfulRun, DecodesRun, hrest]
          exact ⟨fun hrun => hrun.2.2, fun hrun => ⟨h.stores, h.insert hop de, hrun⟩⟩
      | remove target =>
          rw [FaithfulRun, DecodesRun, hrest, Faithful, removes_iff h]
          exact ⟨fun hrun => hrun.2, fun hrun => ⟨h.stores, hrun⟩⟩

/-- A block of one unused record. -/
def emptyBlock : DirectoryBlock where
  inner := [0, 0, 0, 0, 0, 4, 0, 0] ++ List.replicate 1016 0
  isVersion2 := true

theorem blkSize_emptyBlock : emptyBlock.blkSize = 1024 := by
  rw [blkSize, emptyBlock, List.length_append, List.length_replicate]
  rfl

theorem positions_emptyBlock : emptyBlock.positions = [0] := by
  apply positions_eq
  rw [blkSize_emptyBlock]
  exact ⟨rfl, ⟨by decide, by decide⟩, rfl⟩

theorem emptyBlock_wellFormed : emptyBlock.WellFormed := by
  refine ⟨by rw [blkSize_emptyBlock]; decide, ?_, ?_⟩
  · rw [positions_emptyBlock, blkSize_emptyBlock]
    exact ⟨rfl, ⟨by decide, by decide⟩, rfl⟩
  · rw [live, positions_emptyBlock, RecordTiling.live_cons_none (view_unused rfl)]
    simp

/-- Two files are inserted; the first one is removed, and its record is used again. -/
def reusingOps : List Op :=
  [.insert [97] .regularFile 12, .insert [98, 98] .directory 13, .remove [97],
    .insert [99] .symlink 14, .remove [98, 98], .remove [97]]

theorem faithfulRun_iff_reusingOps : emptyBlock.FaithfulRun reusingOps := by
  apply (faithfulRun_iff emptyBlock_wellFormed ?_).mpr
  · decide +kernel
  · intro op hop
    simp only [reusingOps, List.mem_cons, List.not_mem_nil, or_false] at hop
    rcases hop with rfl | rfl | rfl | rfl | rfl | rfl
    · exact ⟨by decide, by decide, utf8Valid_of_chars ['a'], by decide, by decide⟩
    · exact ⟨by decide, by decide, utf8Valid_of_chars ['b', 'b'], by decide, by decide⟩
    · trivial
    · exact ⟨by decide, by decide, utf8Valid_of_chars ['c'], by decide, by decide⟩
    · trivial
    · trivial

/-- An unused record that still has a name of one byte, which is not valid, before the file
    "a". -/
def staleBlock : DirectoryBlock where
  inner := [0, 0, 0, 0, 12, 0, 1, 0, 0xFF, 0, 0, 0, 12, 0, 0, 0, 0xF4, 3, 1, 1, 97, 0, 0, 0] ++
    List.replicate 1000 0
  isVersion2 := true

theorem staleBlock_tiles : staleBlock.TilesIn 0 [0, 12] staleBlock.blkSize := by
  have hblk : staleBlock.blkSize = 1024 := by
    rw [blkSize, staleBlock, List.length_append, List.length_replicate]
    rfl
  rw [hblk]
  exact ⟨rfl, ⟨by decide, by decide⟩, rfl, ⟨by decide, by decide⟩, rfl⟩

/-- The file "a" cannot be removed. -/
theorem not_faithfulRun_staleBlock : staleBlock.WellFormed ∧
    (∃ e ∈ staleBlock.live, e.2.name = [97]) ∧
    staleBlock.removeEntry [97] = .error .panic ∧ ¬ staleBlock.FaithfulRun [.remove [97]] := by
  have hpos : staleBlock.positions = [0, 12] := positions_eq staleBlock_tiles
  have hlive : staleBlock.live = [(12, entryAt true staleBlock.inner 12)] := by
    rw [live, hpos, RecordTiling.live_cons_none (view_unused (by decide)),
      RecordTiling.live_cons_some (view_used (by decide))]
    rfl
  have hwf : staleBlock.WellFormed := by
    refine ⟨by decide +kernel, by rw [hpos]; exact staleBlock_tiles, fun x hx => ?_⟩
    rw [hlive, List.mem_singleton] at hx
    rw [hx]
    exact utf8Valid_of_chars ['a']
  have hbad : ¬ staleBlock.DecodesBefore [97] staleBlock.positions := by
    rw [hpos]
    decide +kernel
  refine ⟨hwf, ⟨_, by rw [hlive]; exact List.mem_singleton_self _, by decide +kernel⟩, ?_,
    fun hrun => hbad ((removes_iff hwf [97]).mp hrun.2.1)⟩
  exact ((removeEntry_spec hwf [97]).resolve_right fun hgood => hbad hgood.1).1

end DirectoryBlock
end RustExt4.Directory
