/-
  RustExt4.Directory.Rename

  What `rename` does to two directories, seen as maps from names to inode numbers.  The
  target is removed from `self` and added to `new_dir`: across two directories the name
  moves only where `self` does not have the new name and `new_dir` does not have it either,
  and in a hashed directory only where the addition does not lose a name.
-/
import RustExt4.Directory.Schemes
import RustExt4.Directory.TreeRuns

namespace RustExt4.Directory

open StateExcept
open Transaction (Event)

/-! ## One record more or less -/

section

variable {recs recs' : Nat → List (Bytes × Nat)} {dir ino i : Nat} {name n : Bytes}

theorem AddsOne.mem (h : AddsOne recs recs' dir (name, ino)) {d : Nat} :
    (n, i) ∈ recs' d ↔ (n, i) ∈ recs d ∨ (d = dir ∧ n = name ∧ i = ino) := by
  obtain ⟨⟨l, r, hold, hnew⟩, hother⟩ := h
  by_cases hd : d = dir
  · subst hd
    simp only [hold, hnew, List.mem_append, List.mem_cons, Prod.mk.injEq, true_and]
    tauto
  · simp only [hother d hd, hd, false_and, or_false]

end

/-! ## The steps of a rename -/

variable {σ ρ : Type} {S : Scheme σ ρ}

namespace Scheme

end Scheme

/-! ## The maps -/

variable {Inv : σ → Prop} {recs : σ → Nat → List (Bytes × Nat)}
  {Sets : σ → Nat → Bytes → Nat → Prop}

namespace Dirs

variable {failed : Nat → Bytes → Dirs → Dirs} {s : Dirs} {dir newDir ino : Nat} {name : Bytes}

end Dirs

/-- The block of a directory with its dot entries and some files. -/
def dirBlock (ino parent : Nat) (files : List (Bytes × Nat)) : DirectoryBlock :=
  DirectoryBlock.emptyBlock.run
    (.insert [46] .directory ino :: .insert [46, 46] .directory parent ::
      files.map fun x => .insert x.1 .regularFile x.2)

theorem dirBlock_wellFormed {ino parent : Nat} {files : List (Bytes × Nat)}
    (hino : ino ≠ 0 ∧ ino < 2 ^ 32) (hparent : parent ≠ 0 ∧ parent < 2 ^ 32)
    (hfiles : ∀ x ∈ files, InsertOk x.1 x.2) : (dirBlock ino parent files).WellFormed := by
  apply DirectoryBlock.emptyBlock_wellFormed.run
  intro op hop
  rcases List.mem_cons.mp hop with rfl | hop
  · exact ⟨by decide, by decide, utf8Valid_of_chars ['.'], hino⟩
  · rcases List.mem_cons.mp hop with rfl | hop
    · exact ⟨by decide, by decide, utf8Valid_of_chars ['.', '.'], hparent⟩
    · obtain ⟨x, hx, rfl⟩ := List.mem_map.mp hop
      exact hfiles x hx

/-- The index that `init` makes, with the numbers of its dot entries. -/
def indexDir (ino parent : Nat) : HTree.HashedDir :=
  .oneLeaf {
    raw := ByteRw.writeU32 (ByteRw.writeU32 (LeBytes.splice (List.replicate 1024 0) 0
      (HTreeScheme.initHeader 1024 123 1)) 0x0 ino) 0xC parent
    hasher := HTree.md4Hasher } DirectoryBlock.emptyBlock

/-- Directory 2 is linear, with the files `a` and `b`; directory 11 in it is hashed and
    empty. -/
def twoDirs : Dirs where
  mount :=
    { dirIndex := true
      metadataCsum := false
      hashSeed := HTree.md4Seed
      unsignedHash := true }
  isVersion2 := true
  blkSize := 1024
  defaultHashVersion := 1
  dirs ino := if ino = 2 then .linear [dirBlock 2 2 [([97], 12), ([98], 13)]]
    else if ino = 11 then .htree (some (indexDir 11 2)) else .linear []
  free := []

def twoFiles : Session Dirs where
  store := twoDirs
  inodes := FileTree.rootOnly.inodes
  objects ino := if ino = 2 then some { ftype := .directory, linksCount := 3 }
    else if ino = 11 then some { ftype := .directory, linksCount := 2 } else none
  records _ := .ok { ftype := .regularFile, linksCount := 1 }
  events := []

/-- There is one slot. -/
theorem slots_indexDir : (indexDir 11 2).root.slots = [{ hash := 0, block := 1 }] := by
  decide +kernel

theorem indexDir_whole : (indexDir 11 2).Whole HTree.md4Seed true 123 1024 where
  opened := by
    unfold HTree.DirDxRoot.fromRawBlock
    rw [show ByteRw.readU8 (indexDir 11 2).root.raw 0x1C = 1 by decide +kernel]
    exact if_pos (by decide +kernel)
  dots := by
    refine ⟨Or.inl (by decide +kernel), ⟨?_, ?_, ?_⟩, ⟨?_, ?_, ?_⟩⟩ <;> decide +kernel
  ok := by
    refine HTree.HashedDir.oneLeaf_ok slots_indexDir (by decide +kernel) (by decide +kernel)
      (by decide +kernel)
      ⟨DirectoryBlock.emptyBlock_wellFormed, DirectoryBlock.blkSize_emptyBlock, ?_⟩
    decide +kernel
  version fba d hd := by
    dsimp only [indexDir, HTree.HashedDir.oneLeaf] at hd
    split at hd
    case isTrue =>
      cases hd
      rfl
    case isFalse => cases hd
  inBlock := by decide +kernel

theorem twoDirs_inv : twoDirs.Inv where
  version := rfl
  blkSize := Or.inl rfl
  bodies dir := by
    unfold twoDirs
    dsimp only
    split
    case isTrue =>
      intro d hd
      obtain rfl := List.mem_singleton.mp hd
      refine ⟨dirBlock_wellFormed (by decide) (by decide) fun x hx => ?_, by decide +kernel⟩
      rcases List.mem_pair.mp hx with rfl | rfl
      · exact ⟨by decide, by decide, utf8Valid_of_chars ['a'], by decide, by decide⟩
      · exact ⟨by decide, by decide, utf8Valid_of_chars ['b'], by decide, by decide⟩
    case isFalse =>
      split
      case isTrue => exact Or.inl indexDir_whole
      case isFalse => exact List.forall_mem_nil _
  free := List.forall_mem_nil _

end RustExt4.Directory
