/-
  RustExt4.Transaction.InodeOps

  The operations of a commit on inode records (`submit_inode_ops`), as steps of the
  record's fields: each operation changes the field it is about, in the record of its own
  inode, and a commit runs them in the order of the events.

  The block count takes part in two kinds of events.  An allocation adds its blocks, and a
  deallocation takes away one block, however many it frees.
-/
import RustExt4.Inode.Fields
import RustExt4.Transaction.FlushSpec

namespace RustExt4.Transaction

open Inode (IsRecord Fields fieldsOf RawInodeAddressingMode.WF Manipulator.linksCount
  Manipulator.setLinksCount Manipulator.setDeletionTime Manipulator.init Manipulator.setSize
  Manipulator.setAddresses Manipulator.setBlocks Manipulator.getBlocks)

/-- The records have the size of an inode. -/
def Disk.HasRecords (d : Disk) : Prop := ∀ ino raw, d.inodes ino = some raw → IsRecord raw

namespace InodeOps

/-- The inode whose record the operation changes; the orphan list may start in the
    superblock. -/
def target : InodeOps → Option Nat
  | .addLink ino => some ino
  | .rmLink ino => some ino
  | .init ino _ => some ino
  | .setSize ino _ _ => some ino
  | .updateOrphanLink pred _ => if pred = 0 then none else some pred
  | .setBlock ino _ => some ino

/-- The operands are in the ranges of their types. -/
def WF : InodeOps → Prop
  | .setSize _ size address => size < 2 ^ 64 ∧ address.WF
  | _ => True

/-- What the operation makes of the record. -/
def OnRecord (sb : DescriptorSb) (lastOrphan : Nat) (op : InodeOps) (raw raw' : Bytes) : Prop :=
  match op with
  | .addLink _ => Manipulator.linksCount raw + 1 < 2 ^ 16 ∧
    raw' = Manipulator.setLinksCount raw (Manipulator.linksCount raw + 1)
  | .rmLink _ => 0 < Manipulator.linksCount raw ∧
    raw' = Manipulator.setLinksCount
      (if Manipulator.linksCount raw = 1 then Manipulator.setDeletionTime raw lastOrphan else raw)
      (Manipulator.linksCount raw - 1)
  | .init _ ftype => Manipulator.init sb.toSuperBlock raw ftype = some raw'
  | .setSize _ size address => ∃ raw1, Manipulator.setSize sb.toSuperBlock raw size = some raw1 ∧
    Manipulator.setAddresses sb.toSuperBlock raw1 address = some raw'
  | .updateOrphanLink _ succ => raw' = Manipulator.setDeletionTime raw succ
  | .setBlock _ cnt => Manipulator.setBlocks sb.toSuperBlock raw
    ((Manipulator.getBlocks sb.toSuperBlock raw + sb.blkSize / 512 * (cnt % 2 ^ 64).toNat) %
      2 ^ 64) = some raw'

/-- What the operation makes of the fields of its record; `k` is the number of sectors of a
    block. -/
def OnFields (k : Nat) (op : InodeOps) (f f' : Fields) : Prop :=
  match op with
  | .addLink _ => f' = { f with linksCount := f.linksCount + 1 }
  | .rmLink _ => 0 < f.linksCount ∧ f' = { f with linksCount := f.linksCount - 1 }
  | .init _ _ => True
  | .setSize _ size address => f' = { f with size := size, addresses := address }
  | .updateOrphanLink _ _ => f' = f
  | .setBlock _ cnt =>
    f' = { f with blocks := (f.blocks + k * (cnt % 2 ^ 64).toNat) % 2 ^ 64 }

end InodeOps

variable {sb : DescriptorSb} {d d' : Disk}

theorem updateInode_ok {ino : Nat} {f : Bytes → Except Fault Bytes}
    (h : d.updateInode ino f = .ok d') :
    ∃ raw raw', d.inodes ino = some raw ∧ f raw = .ok raw' ∧
      d'.inodes = Function.update d.inodes ino (some raw') := by
  unfold Disk.updateInode at h
  split at h
  · cases h
  next raw hraw =>
    split at h
    · cases h
    next raw' hf =>
      cases h
      exact ⟨raw, raw', hraw, hf, rfl⟩

/-- An operation changes the record of its inode, or no record. -/
theorem submitInodeOps_cases {op : InodeOps} (h : submitInodeOps sb d op = .ok d') :
    op.target = none ∧ d'.inodes = d.inodes ∨
      ∃ ino raw raw', op.target = some ino ∧ d.inodes ino = some raw ∧
        op.OnRecord sb d.lastOrphan raw raw' ∧
        d'.inodes = Function.update d.inodes ino (some raw') := by
  cases op with
  | addLink ino =>
      obtain ⟨raw, raw', hraw, hf, hd'⟩ := updateInode_ok h
      split at hf
      next hlt => exact Or.inr ⟨ino, raw, raw', rfl, hraw, ⟨hlt, (Except.ok.inj hf).symm⟩, hd'⟩
      next => cases hf
  | rmLink ino =>
      simp only [submitInodeOps] at h
      split at h
      · cases h
      next raw hraw =>
        split at h
        · cases h
        next h0 =>
          have hpos := Nat.pos_of_ne_zero h0
          split at h
          next h1 =>
            cases h
            exact Or.inr ⟨ino, raw, _, rfl, hraw, ⟨hpos, rfl⟩, by rw [if_pos h1, h1]⟩
          next h1 =>
            cases h
            exact Or.inr ⟨ino, raw, _, rfl, hraw, ⟨hpos, rfl⟩, by rw [if_neg h1]⟩
  | init ino ftype =>
      obtain ⟨raw, raw', hraw, hf, hd'⟩ := updateInode_ok h
      exact Or.inr ⟨ino, raw, raw', rfl, hraw, orPanic_ok hf, hd'⟩
  | setSize ino size address =>
      obtain ⟨raw, raw', hraw, hf, hd'⟩ := updateInode_ok h
      exact Or.inr ⟨ino, raw, raw', rfl, hraw, Option.bind_eq_some_iff.mp (orPanic_ok hf), hd'⟩
  | updateOrphanLink pred succ =>
      simp only [submitInodeOps] at h
      split at h
      next h0 =>
        cases h
        exact Or.inl ⟨if_pos h0, rfl⟩
      next h0 =>
        obtain ⟨raw, raw', hraw, hf, hd'⟩ := updateInode_ok h
        exact Or.inr ⟨pred, raw, raw', if_neg h0, hraw, (Except.ok.inj hf).symm, hd'⟩
  | setBlock ino cnt =>
      obtain ⟨raw, raw', hraw, hf, hd'⟩ := updateInode_ok h
      exact Or.inr ⟨ino, raw, raw', rfl, hraw, orPanic_ok hf, hd'⟩

/-! ## The fields -/

theorem InodeOps.OnRecord.isRecord {op : InodeOps} {lastOrphan : Nat} {raw raw' : Bytes}
    (h : op.OnRecord sb lastOrphan raw raw') (hraw : IsRecord raw) : IsRecord raw' := by
  cases op with
  | addLink ino =>
      obtain ⟨-, rfl⟩ := h
      exact Inode.isRecord_setLinksCount hraw
  | rmLink ino =>
      obtain ⟨-, rfl⟩ := h
      refine Inode.isRecord_setLinksCount ?_
      split
      · exact (Inode.sameLinks_setDeletionTime _).isRecord hraw
      · exact hraw
  | init ino ftype => exact (Inode.linksCount_init hraw h).1
  | setSize ino size address =>
      obtain ⟨raw1, hsize, haddr⟩ := h
      have h1 := (Inode.sameLinks_setSize hsize).isRecord hraw
      exact (Inode.SameLinks.setAddresses h1 haddr).isRecord h1
  | updateOrphanLink pred succ =>
      obtain rfl := h
      exact (Inode.sameLinks_setDeletionTime _).isRecord hraw
  | setBlock ino cnt => exact (Inode.sameLinks_setBlocks h).isRecord hraw

/-- A record keeps its size. -/
theorem InodeOps.OnRecord.length_eq {op : InodeOps} {lastOrphan : Nat} {raw raw' : Bytes}
    (h : op.OnRecord sb lastOrphan raw raw') (hraw : IsRecord raw) (hwf : op.WF) :
    raw'.length = raw.length := by
  cases op with
  | addLink ino =>
      obtain ⟨-, rfl⟩ := h
      exact ByteRw.length_writeU16 ..
  | rmLink ino =>
      obtain ⟨-, rfl⟩ := h
      refine (ByteRw.length_writeU16 ..).trans ?_
      split
      · exact ByteRw.length_writeU32 ..
      · rfl
  | init ino ftype => exact Inode.length_init hraw h
  | setSize ino size address =>
      obtain ⟨raw1, hsize, haddr⟩ := h
      have h1 := (Inode.sameLinks_setSize hsize).isRecord hraw
      rw [(Inode.setAddresses_differsIn hwf.2 h1 haddr).length,
        (Inode.setCompoundU64_differsIn hsize).length]
  | updateOrphanLink pred succ =>
      obtain rfl := h
      exact ByteRw.length_writeU32 ..
  | setBlock ino cnt => exact (Inode.setCompoundU64_differsIn h).length

/-- The record's fields change as one value. -/
theorem InodeOps.OnRecord.onFields {op : InodeOps} {lastOrphan : Nat} {raw raw' : Bytes}
    (h : op.OnRecord sb lastOrphan raw raw') (hraw : IsRecord raw) (hwf : op.WF) :
    op.OnFields (sb.blkSize / 512) (fieldsOf sb.toSuperBlock raw)
      (fieldsOf sb.toSuperBlock raw') := by
  cases op with
  | addLink ino =>
      obtain ⟨hlt, rfl⟩ := h
      exact Inode.fieldsOf_setLinksCount hraw hlt
  | rmLink ino =>
      obtain ⟨hpos, rfl⟩ := h
      have hlt : Manipulator.linksCount raw < 2 ^ 16 := ByteRw.readU16_lt raw 0x1A
      refine ⟨hpos, ?_⟩
      split
      · rw [Inode.fieldsOf_setLinksCount ((Inode.sameLinks_setDeletionTime _).isRecord hraw)
          (by omega), Inode.fieldsOf_setDeletionTime hraw]
        rfl
      · exact Inode.fieldsOf_setLinksCount hraw (by omega)
  | init ino ftype => exact trivial
  | setSize ino size address =>
      obtain ⟨raw1, hsize, haddr⟩ := h
      have h1 := (Inode.sameLinks_setSize hsize).isRecord hraw
      show fieldsOf sb.toSuperBlock raw' = _
      rw [Inode.fieldsOf_setAddresses h1 hwf.2 haddr, Inode.fieldsOf_setSize hraw hsize hwf.1]
  | updateOrphanLink pred succ =>
      obtain rfl := h
      exact Inode.fieldsOf_setDeletionTime hraw succ
  | setBlock ino cnt => exact Inode.fieldsOf_setBlocks hraw h (Nat.mod_lt _ (by decide))

/-- The fields of inode `ino` over a run of operations. -/
inductive FieldsRun (k ino : Nat) : List InodeOps → Fields → Fields → Prop
  | nil (f : Fields) : FieldsRun k ino [] f f
  | other {op : InodeOps} {ops : List InodeOps} {f f' : Fields} (ht : op.target ≠ some ino)
      (hrest : FieldsRun k ino ops f f') : FieldsRun k ino (op :: ops) f f'
  | own {op : InodeOps} {ops : List InodeOps} {f f1 f' : Fields} (ht : op.target = some ino)
      (hop : op.OnFields k f f1) (hrest : FieldsRun k ino ops f1 f') :
      FieldsRun k ino (op :: ops) f f'

theorem FieldsRun.append {k ino : Nat} {ops ops' : List InodeOps} {f f1 f' : Fields}
    (h : FieldsRun k ino ops f f1) (h' : FieldsRun k ino ops' f1 f') :
    FieldsRun k ino (ops ++ ops') f f' := by
  induction h with
  | nil f => exact h'
  | other ht _ ih => exact .other ht (ih h')
  | own ht hop _ ih => exact .own ht hop (ih h')

theorem submitAllInodeOps_fields {ops : List InodeOps} {ino : Nat} {raw : Bytes}
    (hrec : d.HasRecords) (hwf : ∀ op ∈ ops, op.WF) (h : submitAllInodeOps sb ops d = .ok d')
    (hraw : d.inodes ino = some raw) :
    d'.HasRecords ∧ ∃ raw', d'.inodes ino = some raw' ∧
      FieldsRun (sb.blkSize / 512) ino ops (fieldsOf sb.toSuperBlock raw)
        (fieldsOf sb.toSuperBlock raw') := by
  induction ops generalizing d raw with
  | nil =>
      cases h
      exact ⟨hrec, raw, hraw, .nil _⟩
  | cons op ops ih =>
      obtain ⟨hop, hops⟩ := List.forall_mem_cons.mp hwf
      unfold submitAllInodeOps at h
      split at h
      · cases h
      next d1 hstep =>
        rcases submitInodeOps_cases hstep with ⟨ht, hd1⟩ | ⟨i, r, r', ht, hr, hon, hd1⟩
        · have hrec1 : d1.HasRecords := by rwa [Disk.HasRecords, hd1]
          obtain ⟨hrec', raw', hraw', hrun⟩ := ih hrec1 hops h (by rw [hd1, hraw])
          exact ⟨hrec', raw', hraw', .other (by rw [ht]; exact fun h0 => nomatch h0) hrun⟩
        · have hrec1 : d1.HasRecords := by
            intro j x hx
            rw [hd1, Function.update_apply] at hx
            split at hx
            · exact Option.some.inj hx ▸ hon.isRecord (hrec i r hr)
            · exact hrec j x hx
          by_cases hi : i = ino
          · subst hi
            obtain rfl : r = raw := Option.some.inj (hr.symm.trans hraw)
            obtain ⟨hrec', raw', hraw', hrun⟩ :=
              ih hrec1 hops h (by rw [hd1, Function.update_self])
            exact ⟨hrec', raw', hraw', .own ht (hon.onFields (hrec i r hr) hop) hrun⟩
          · obtain ⟨hrec', raw', hraw', hrun⟩ :=
              ih hrec1 hops h (by rw [hd1, Function.update_of_ne (Ne.symm hi), hraw])
            refine ⟨hrec', raw', hraw', .other ?_ hrun⟩
            rw [ht]
            exact fun h0 => hi (Option.some.inj h0)

/-! ## Independent fields -/

/-- The size and the block map of the last `SetSize`. -/
def sizeAfter (ino : Nat) (ops : List InodeOps)
    (start : Nat × Inode.RawInodeAddressingMode) : Nat × Inode.RawInodeAddressingMode :=
  ops.foldl (fun x op => match op with
    | .setSize i size address => if i = ino then (size, address) else x
    | _ => x) start

/-- The blocks that the `SetBlock` operations on an inode add. -/
def blocksAdded (ino : Nat) (ops : List InodeOps) : Int :=
  (ops.map fun op => match op with
    | .setBlock i cnt => if i = ino then cnt else 0
    | _ => 0).sum

/-- What a run without `Init` makes of the fields, each by itself. -/
structure RunSpec (k ino : Nat) (ops : List InodeOps) (f f' : Fields) : Prop where
  fixed : f'.fixed = f.fixed
  linksCount : (f'.linksCount : Int) =
    f.linksCount + ops.count (.addLink ino) - ops.count (.rmLink ino)
  size : (f'.size, f'.addresses) = sizeAfter ino ops (f.size, f.addresses)
  blocks : (f'.blocks : Int) % 2 ^ 64 = (f.blocks + k * blocksAdded ino ops) % 2 ^ 64

section Run
variable {k ino : Nat} {op : InodeOps} {ops ops' : List InodeOps} {f f1 f' : Fields}

theorem blocksAdded_append (ino : Nat) (ops ops' : List InodeOps) :
    blocksAdded ino (ops ++ ops') = blocksAdded ino ops + blocksAdded ino ops' := by
  rw [blocksAdded, List.map_append, List.sum_append]
  rfl

theorem RunSpec.append (h : RunSpec k ino ops f f1) (h' : RunSpec k ino ops' f1 f') :
    RunSpec k ino (ops ++ ops') f f' where
  fixed := h'.fixed.trans h.fixed
  linksCount := by
    have h1 := h.linksCount
    have h2 := h'.linksCount
    rw [List.count_append, List.count_append]
    omega
  size := by rw [h'.size, h.size, sizeAfter, sizeAfter, sizeAfter, List.foldl_append]
  blocks := by
    have h1 := h.blocks
    have h2 := h'.blocks
    rw [blocksAdded_append, Int.mul_add]
    omega

/-- An operation on another inode. -/
theorem RunSpec.other (ht : op.target ≠ some ino) (f : Fields) : RunSpec k ino [op] f f := by
  have hadd : op ≠ .addLink ino := fun h => ht (h ▸ rfl)
  have hrm : op ≠ .rmLink ino := fun h => ht (h ▸ rfl)
  have hblocks : blocksAdded ino [op] = 0 := by
    cases op with
    | setBlock i cnt =>
        have hne : i ≠ ino := fun h => ht (congrArg some h)
        simp [blocksAdded, hne]
    | _ => rfl
  exact
    { fixed := rfl
      linksCount := by simp [hadd, hrm]
      size := by
        cases op with
        | setSize i size address =>
            have hne : i ≠ ino := fun h => ht (congrArg some h)
            simp [sizeAfter, hne]
        | _ => rfl
      blocks := by simp [hblocks] }

/-- An operation on the inode. -/
theorem RunSpec.own (ht : op.target = some ino) (hinit : ∀ ftype, op ≠ .init ino ftype)
    (h : op.OnFields k f f') : RunSpec k ino [op] f f' := by
  cases op with
  | addLink i =>
      cases ht
      obtain rfl := h
      exact ⟨rfl, by simp, rfl, by simp [blocksAdded]⟩
  | rmLink i =>
      cases ht
      obtain ⟨hpos, rfl⟩ := h
      refine ⟨rfl, ?_, rfl, by simp [blocksAdded]⟩
      simp
      omega
  | init i ftype =>
      cases ht
      exact absurd rfl (hinit ftype)
  | setSize i size address =>
      cases ht
      obtain rfl := h
      exact ⟨rfl, by simp, by simp [sizeAfter], by simp [blocksAdded]⟩
  | updateOrphanLink pred succ =>
      obtain rfl := h
      exact ⟨rfl, by simp, rfl, by simp [blocksAdded]⟩
  | setBlock i cnt =>
      cases ht
      obtain rfl := h
      refine ⟨rfl, by simp, rfl, ?_⟩
      -- The operand is added modulo `2 ^ 64`.
      have hcnt : ((cnt % 2 ^ 64).toNat : Int) = cnt - 2 ^ 64 * (cnt / 2 ^ 64) := by
        rw [Int.toNat_of_nonneg (Int.emod_nonneg _ (by decide)), Int.emod_def]
      have hmul : (k : Int) * (cnt - 2 ^ 64 * (cnt / 2 ^ 64)) =
          k * cnt - 2 ^ 64 * (k * (cnt / 2 ^ 64)) := by ring
      have hadded : blocksAdded ino [.setBlock ino cnt] = cnt := by simp [blocksAdded]
      show (((f.blocks + k * (cnt % 2 ^ 64).toNat) % 2 ^ 64 : Nat) : Int) % 2 ^ 64 = _
      rw [Int.natCast_emod, Int.natCast_add, Int.natCast_mul, hcnt, hmul, hadded]
      show ((f.blocks : Int) + (k * cnt - 2 ^ 64 * (k * (cnt / 2 ^ 64)))) % 2 ^ 64 % 2 ^ 64 = _
      omega

theorem RunSpec.nil (f : Fields) : RunSpec k ino [] f f :=
  ⟨rfl, by simp, rfl, by simp [blocksAdded]⟩

/-- Each field after a run, by the operations on it. -/
theorem FieldsRun.spec (h : FieldsRun k ino ops f f') (hinit : ∀ ftype, .init ino ftype ∉ ops) :
    RunSpec k ino ops f f' := by
  induction h with
  | nil f => exact .nil f
  | other ht _ ih =>
      have hrest := ih fun ftype hmem => hinit ftype (List.mem_cons_of_mem _ hmem)
      exact (RunSpec.other ht _).append hrest
  | own ht hop _ ih =>
      have hrest := ih fun ftype hmem => hinit ftype (List.mem_cons_of_mem _ hmem)
      have hone := RunSpec.own ht (fun ftype h => hinit ftype (h ▸ List.mem_cons_self)) hop
      exact hone.append hrest

end Run

end RustExt4.Transaction
