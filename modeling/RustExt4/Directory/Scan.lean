/-
  RustExt4.Directory.Scan

  Scans of a block that may hold anything: `find_entry` with the iterator for reading,
  `remove_entry` and `insert_entry` with the one for changes.  The iterator for changes
  answers a record that does not fit with an error.  The one for reading looks at the name
  length only, and asserts that a record has a length; and both searches take the name for
  UTF-8.  So a scan is clean exactly where no record that it comes to has these defects, and
  an insertion, which reads no name, always is.
-/
import Mathlib.Logic.Relation
import RustExt4.Directory.Removal

namespace RustExt4.Directory

open DirectoryEntryDispatch

namespace DirectoryBlock

variable {d : DirectoryBlock} {target entry : Bytes} {de : Option FileType} {child p q : Nat}

/-! ## Where a scan comes -/

/-- A scan that goes past the records in `past` comes from the record at `p` to the one at
    `q`. -/
def Comes (d : DirectoryBlock) (past : Nat → Prop) : Nat → Nat → Prop :=
  Relation.ReflTransGen fun p q => past p ∧ q = p + getEntryLen d.inner p

/-- What holds of all records that a scan comes to holds of the first, and where the scan
    goes past it, from the next on. -/
theorem forall_comes_iff {past Q : Nat → Prop} :
    (∀ q, d.Comes past p q → Q q) ↔
      Q p ∧ (past p → ∀ q, d.Comes past (p + getEntryLen d.inner p) q → Q q) := by
  constructor
  · intro hall
    refine ⟨hall p .refl, fun hpast q hq => hall q ?_⟩
    exact .head ⟨hpast, rfl⟩ hq
  · rintro ⟨hp, hrest⟩ q hq
    rcases Relation.ReflTransGen.cases_head hq with rfl | ⟨r, ⟨hpast, rfl⟩, hq⟩
    · exact hp
    · exact hrest hpast q hq

/-- `read_entry_at` takes the record. -/
def Readable (d : DirectoryBlock) (p : Nat) : Prop :=
  p + 8 ≤ d.blkSize ∧ getNameLen d.isVersion2 d.inner p ≤ d.blkSize - p - 8

/-- The record has a length, and where it is live a name in UTF-8. -/
def Sound (d : DirectoryBlock) (p : Nat) : Prop :=
  getEntryLen d.inner p ≠ 0 ∧
    (getInode d.inner p ≠ 0 → utf8Valid (nameBytes d.isVersion2 d.inner p) = true)

/-! ## The iterator for reading -/

theorem findFrom_of_error {it it' : DirectoryBlockIterator} {e : FsError} (prev : Option Nat)
    (h : DirectoryBlockIterator.next d it = (.ok (some (.error e)), it')) :
    d.findFrom it prev target = .error (.err e) := by
  rw [findFrom]
  split <;> rename_i heq <;> rw [h] at heq <;> cases heq
  rfl

theorem findFrom_of_panic {it it' : DirectoryBlockIterator} {e : Fault} (prev : Option Nat)
    (h : DirectoryBlockIterator.next d it = (.error e, it')) :
    d.findFrom it prev target = .error e := by
  rw [findFrom]
  split <;> rename_i heq <;> rw [h] at heq <;> cases heq
  rfl

/-- The search depends on what the iterator gives next. -/
theorem findFrom_congr {it it' : DirectoryBlockIterator} (prev : Option Nat)
    (h : DirectoryBlockIterator.next d it = DirectoryBlockIterator.next d it') :
    d.findFrom it prev target = d.findFrom it' prev target := by
  match hnext : DirectoryBlockIterator.next d it' with
  | (.error e, _) => rw [findFrom_of_panic prev hnext, findFrom_of_panic prev (h.trans hnext)]
  | (.ok none, _) =>
      rw [findFrom_of_none prev target hnext, findFrom_of_none prev target (h.trans hnext)]
  | (.ok (some (.error e)), _) =>
      rw [findFrom_of_error prev hnext, findFrom_of_error prev (h.trans hnext)]
  | (.ok (some (.ok pos)), _) =>
      rw [findFrom_of_some prev target hnext, findFrom_of_some prev target (h.trans hnext)]

theorem iter_unreadable (h : ¬ d.Readable p) :
    (DirectoryBlockIterator.next d { pos := p }).1 = .ok none ∨
      (DirectoryBlockIterator.next d { pos := p }).1 = .ok (some (.error .fixme)) := by
  by_cases hin : p + 8 ≤ d.blkSize
  · right
    have hlong : ¬ getNameLen d.isVersion2 d.inner p ≤ d.blkSize - p - 8 := fun hle => h ⟨hin, hle⟩
    rw [DirectoryBlockIterator.next, if_pos ⟨rfl, hin⟩, readEntryAt, if_pos (by dsimp only; omega)]
  · left
    rw [DirectoryBlockIterator.next, if_neg fun hboth => hin hboth.2]

/-- The iterator at a record whose name it takes. -/
theorem iter_readable (h : d.Readable p) :
    DirectoryBlockIterator.next d { pos := p } =
      if getEntryLen d.inner p = 0 then (.error .panic, { pos := p })
      else if getInode d.inner p ≠ 0 then
        (.ok (some (.ok p)), { pos := p + getEntryLen d.inner p })
      else DirectoryBlockIterator.next d { pos := p + getEntryLen d.inner p } := by
  have hname := h.2
  rw [DirectoryBlockIterator.next, if_pos ⟨rfl, h.1⟩, readEntryAt, if_neg (by dsimp only; omega)]

/-- Where the search by `find_entry` is clean, from any record on. -/
theorem findFrom_clean_iff (prev : Option Nat) :
    d.findFrom { pos := p } prev target ≠ .error .panic ↔
      ∀ q, d.Comes (fun r => d.Readable r ∧ ¬ d.Hit target r) p q → d.Readable q → d.Sound q := by
  induction hn : d.blkSize - p using Nat.strong_induction_on generalizing p prev with
  | _ n ih =>
    rw [forall_comes_iff]
    by_cases hread : d.Readable p
    · have hin := hread.1
      have hnext := iter_readable hread
      by_cases hzero : getEntryLen d.inner p = 0
      · -- The assertion.
        rw [if_pos hzero] at hnext
        rw [findFrom_of_panic prev hnext]
        exact ⟨fun h => absurd rfl h, fun h => absurd hzero (h.1 hread).1⟩
      · rw [if_neg hzero] at hnext
        have hrest : ∀ prev, d.findFrom { pos := p + getEntryLen d.inner p } prev target ≠
            .error .panic ↔ _ := fun prev => ih _ (by omega) prev rfl
        by_cases hlive : getInode d.inner p = 0
        · rw [if_neg (not_not.mpr hlive)] at hnext
          have hpast : d.Readable p ∧ ¬ d.Hit target p := ⟨hread, fun hhit => hhit.2 hlive⟩
          rw [findFrom_congr prev hnext, hrest prev]
          exact ⟨fun h => ⟨fun _ => ⟨hzero, fun h0 => absurd hlive h0⟩, fun _ => h⟩,
            fun h => h.2 hpast⟩
        · rw [if_pos hlive] at hnext
          rw [findFrom_of_some prev target hnext, getName]
          have hend : p + 8 + getNameLen d.isVersion2 d.inner p ≤ d.inner.length := by
            have := hread.2
            unfold blkSize at this hin
            omega
          by_cases hutf : utf8Valid (nameBytes d.isVersion2 d.inner p) = true
          · rw [if_pos ⟨hend, hutf⟩]
            dsimp only
            by_cases hhit : nameBytes d.isVersion2 d.inner p = target ∧ getInode d.inner p ≠ 0
            · -- The search ends here.
              rw [if_pos hhit]
              exact ⟨fun _ => ⟨fun _ => ⟨hzero, fun _ => hutf⟩, fun hpast => absurd hhit hpast.2⟩,
                fun _ h => (by cases h)⟩
            · rw [if_neg hhit, hrest (some p)]
              exact ⟨fun h => ⟨fun _ => ⟨hzero, fun _ => hutf⟩, fun _ => h⟩,
                fun h => h.2 ⟨hread, hhit⟩⟩
          · rw [if_neg fun hboth => hutf hboth.2]
            exact ⟨fun h => absurd rfl h, fun h => absurd ((h.1 hread).2 hlive) hutf⟩
    · -- The iterator ends, or gives its error.
      have hclean : d.findFrom { pos := p } prev target ≠ .error .panic := by
        rcases iter_unreadable hread with hnext | hnext
        · rw [findFrom_of_none prev target (Prod.ext hnext rfl)]
          intro h
          cases h
        · rw [findFrom_of_error prev (Prod.ext hnext rfl)]
          intro h
          cases h
      exact ⟨fun _ => ⟨fun h => absurd h hread, fun h => absurd h.1 hread⟩, fun _ => hclean⟩

/-! ## The iterator for changes -/

theorem iterMut_next_handed {it : DirectoryBlockIteratorMut} (hgo : it.stopped = false)
    (h : d.Handed it.pos) :
    DirectoryBlockIteratorMut.next d it =
      (some (.ok { ppos := it.ppos, pos := it.pos }),
        { it with ppos := some it.pos, pos := it.pos + getEntryLen d.inner it.pos }) := by
  rw [DirectoryBlockIteratorMut.next, if_pos ⟨hgo, h.1⟩, if_pos h.2]

theorem iterMut_next_not_handed {it : DirectoryBlockIteratorMut} (hgo : it.stopped = false)
    (h : ¬ d.Handed it.pos) :
    (DirectoryBlockIteratorMut.next d it).1 = none ∨
      (DirectoryBlockIteratorMut.next d it).1 = some (.error ErrDirectoryBlock) := by
  by_cases hin : it.pos + 8 ≤ d.blkSize
  · right
    rw [DirectoryBlockIteratorMut.next, if_pos ⟨hgo, hin⟩, if_neg fun hrec => h ⟨hin, hrec⟩]
  · left
    rw [DirectoryBlockIteratorMut.next, if_neg fun hboth => hin hboth.2]

/-- Where the search by `remove_entry` is clean, from any record on. -/
theorem removeFrom_clean_iff {it : DirectoryBlockIteratorMut} (hgo : it.stopped = false) :
    d.removeFrom it target ≠ .error .panic ↔
      ∀ q, d.Comes (fun r => d.Handed r ∧ ¬ d.Hit target r) it.pos q → d.Handed q →
        utf8Valid (nameBytes d.isVersion2 d.inner q) = true := by
  induction hn : d.blkSize - it.pos using Nat.strong_induction_on generalizing it with
  | _ n ih =>
    rw [forall_comes_iff]
    by_cases hhanded : d.Handed it.pos
    · have hin := hhanded.1
      have hfit := hhanded.2.1
      have hname := hhanded.2.2
      have hend : it.pos + 8 + getNameLen d.isVersion2 d.inner it.pos ≤ d.inner.length := by
        unfold blkSize at hfit
        omega
      rw [removeFrom_of_some target (iterMut_next_handed hgo hhanded), getName]
      dsimp only
      by_cases hutf : utf8Valid (nameBytes d.isVersion2 d.inner it.pos) = true
      · rw [if_pos ⟨hend, hutf⟩]
        dsimp only
        by_cases hhit : nameBytes d.isVersion2 d.inner it.pos = target ∧
            getInode d.inner it.pos ≠ 0
        · rw [if_pos hhit]
          exact ⟨fun _ => ⟨fun _ => hutf, fun hpast => absurd hhit hpast.2⟩,
            fun _ h => (by cases h)⟩
        · rw [if_neg hhit, ih _ (by dsimp only; omega) (by exact hgo) rfl]
          exact ⟨fun h => ⟨fun _ => hutf, fun _ => h⟩, fun h => h.2 ⟨hhanded, hhit⟩⟩
      · rw [if_neg fun hboth => hutf hboth.2]
        exact ⟨fun h => absurd rfl h, fun h => absurd (h.1 hhanded) hutf⟩
    · have hclean : d.removeFrom it target ≠ .error .panic := by
        rcases iterMut_next_not_handed hgo hhanded with hnext | hnext
        · rw [removeFrom_of_none target (Prod.ext hnext rfl)]
          intro h
          cases h
        · rw [removeFrom_of_error target (Prod.ext hnext rfl)]
          intro h
          cases h
      exact ⟨fun _ => ⟨fun h => absurd h hhanded, fun h => absurd h.1 hhanded⟩, fun _ => hclean⟩

/-- An insertion is clean whatever the block holds. -/
theorem insertFrom_clean {it : DirectoryBlockIteratorMut} (hgo : it.stopped = false)
    (hde : d.isVersion2 = true → de ≠ none) (hlen : entry.length ≤ 255) (hchild : child < 2 ^ 32) :
    d.insertFrom it entry de child ≠ .error .panic := by
  have hbig := (entrySize_spec entry.length).1
  induction hn : d.blkSize - it.pos using Nat.strong_induction_on generalizing it with
  | _ n ih =>
    by_cases hhanded : d.Handed it.pos
    · have hfit := hhanded.2.1
      have hname := hhanded.2.2
      rw [insertFrom_of_some entry de child (iterMut_next_handed hgo hhanded)]
      dsimp only
      split
      next htake =>
        simp only [takesUnused, decide_eq_true_eq] at htake
        obtain ⟨d', hput, -⟩ := put_spec d it.pos hde hlen (by omega) hchild
        rw [hput]
        intro h
        cases h
      next =>
        split
        next htake =>
          -- The rest of the record has room for the entry.
          simp only [takesSplit, decide_eq_true_eq] at htake
          obtain ⟨b, hsplit, hb, -⟩ := split_spec d it.pos hfit (by omega)
          have hroom : it.pos + entrySize (getNameLen d.isVersion2 d.inner it.pos) + 8 +
              entry.length ≤ b.length := by
            unfold blkSize at hfit
            omega
          obtain ⟨d', hput, -⟩ := put_spec { d with inner := b } _ hde hlen hroom hchild
          rw [hsplit]
          dsimp only
          rw [hput]
          intro h
          cases h
        next => exact ih _ (by dsimp only; omega) (by exact hgo) rfl
    · rcases iterMut_next_not_handed hgo hhanded with hnext | hnext
      · rw [insertFrom_of_none entry de child (Prod.ext hnext rfl)]
        intro h
        cases h
      · rw [insertFrom_of_error entry de child (Prod.ext hnext rfl)]
        intro h
        cases h

/-- Scans of any block: the two searches are clean exactly where every record that they come
    to is sound, and an insertion is clean. -/
theorem scans_clean_iff (d : DirectoryBlock) (target : Bytes) :
    (d.findFrom {} none target ≠ .error .panic ∧ d.removeEntry target ≠ .error .panic ∧
      ∀ (entry : Bytes) (de : Option FileType) (child : Nat), entry.length ≤ 255 →
        child < 2 ^ 32 → (d.isVersion2 = true → de ≠ none) →
        d.insertEntry entry de child ≠ .error .panic) ↔
      (∀ p, d.Comes (fun r => d.Readable r ∧ ¬ d.Hit target r) 0 p → d.Readable p → d.Sound p) ∧
      ∀ p, d.Comes (fun r => d.Handed r ∧ ¬ d.Hit target r) 0 p → d.Handed p →
        utf8Valid (nameBytes d.isVersion2 d.inner p) = true := by
  have hfind := @findFrom_clean_iff d target 0 none
  have hremove := @removeFrom_clean_iff d target {} rfl
  constructor
  · rintro ⟨h1, h2, -⟩
    exact ⟨hfind.mp h1, hremove.mp h2⟩
  · rintro ⟨h1, h2⟩
    refine ⟨hfind.mpr h1, hremove.mpr h2, fun entry de child hlen hchild hde => ?_⟩
    exact insertFrom_clean rfl hde hlen hchild

/-- The assertion of the iterator for reading, on a block of zeros, which the iterator for
    changes answers with an error. -/
theorem scan_of_zeros : ¬ ∀ (d : DirectoryBlock) (target : Bytes),
    d.findFrom {} none target ≠ .error .panic := by
  intro hall
  have hlen : (List.replicate 1024 0 : Bytes).length = 1024 := List.length_replicate ..
  have hread : Readable { inner := List.replicate 1024 0, isVersion2 := true } 0 := by
    unfold Readable blkSize
    rw [hlen]
    decide +kernel
  have hsound := (findFrom_clean_iff none).mp
    (hall { inner := List.replicate 1024 0, isVersion2 := true } [0x61]) 0 .refl hread
  exact hsound.1 (by decide +kernel)

end DirectoryBlock
end RustExt4.Directory
