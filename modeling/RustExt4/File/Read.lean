/-
  RustExt4.File.Read

  The loops of a file over its blocks (`file.rs`, `for_each_lba`, `read_slices`).  A
  read gathers initialized blocks with consecutive addresses and reads each run at
  once, but appends the zeros of an uninitialized block at once: they overtake the
  run that is still open.
-/
import RustExt4.File.Write
import RustExt4.Inode.Extent.Cached

namespace RustExt4.File

open StateExcept
open Inode.Extent (AddressingOutput Cursor CursorM ExtentTree Leaf WellFormed Ordered lookup fsOf
  ExtentHeader)

variable {β σ : Type}

/-! ## `for_each_lba` -/

/-- `Iterator::next` of a cursor: an error ends the iteration and is kept in a field that
    nothing reads. -/
def next : CursorM (Option AddressingOutput) := fun c =>
  match c.current with
  | .error e => (.error e, c)
  | .ok none => (.ok none, c)
  | .ok (some a) =>
    match Cursor.moveNext c with
    | (.ok (), c') => (.ok (some a), c')
    | (.error (.err _), c') => (.ok none, c')
    | (.error e, c') => (.error e, c')

/-- `for address in cursor.take(len) { f(address)?; }` -/
def takeEach (f : AddressingOutput → StateExcept σ Fault Unit) :
    Nat → Cursor → StateExcept σ Fault Cursor
  | 0, c => pure c
  | n + 1, c =>
    match next c with
    | (.error e, _) => throw e
    | (.ok none, c') => pure c'
    | (.ok (some a), c') => do
      f a
      takeEach f n c'

/-- `for_each_lba`, with the tree as the drop of the cursor leaves it. -/
def forEachLba (fs : FileSystem) (ino : Nat) (t : ExtentTree) (st len : Nat)
    (f : AddressingOutput → StateExcept σ Fault Unit) : StateExcept σ Fault ExtentTree :=
  match t.cursorFromFba fs [] (fun _ => []) ino st with
  | (.error e, _) => throw e
  | (.ok (), c) => do
    let c ← takeEach f len c
    lift c.drop

/-- What a cursor yields from `x` on: up to `n` blocks, as far as they are mapped. -/
def yields (ls : List Leaf) : Nat → Nat → List AddressingOutput
  | _, 0 => []
  | x, n + 1 =>
    match lookup ls x with
    | none => []
    | some a => a :: yields ls (x + 1) n

variable {fs : FileSystem} {t : ExtentTree} {ls : List Leaf} {l0 : Leaf} {x : Nat}

theorem takeEach_yields (hwf : WellFormed fs.blocks t ls) (ho : Ordered ls)
    (h0 : ls.head? = some l0) {c : Cursor} (hat : c.At fs [] t ls x) (hle : l0.block ≤ x)
    (f : AddressingOutput → StateExcept σ Fault Unit) (n : Nat) :
    ∃ c' y, c'.At fs [] t ls y ∧
      takeEach f n c = forM (yields ls x n) f >>= fun _ => pure c' := by
  induction n generalizing c x with
  | zero => exact ⟨c, x, hat, by rw [yields, List.forM_nil, pure_bind]; rfl⟩
  | succ n ih =>
      have hcur := hat.current ho
      cases hlook : lookup ls x with
      | none =>
          refine ⟨c, x, hat, ?_⟩
          rw [hlook] at hcur
          simp only [takeEach, next, hcur, yields, hlook, List.forM_nil, pure_bind]
      | some a =>
          -- A mapped block is below the end of its extent, so the next one is still a block number.
          have hx : x + 1 < 2 ^ 32 := by
            obtain ⟨l, hl, -⟩ := Option.map_eq_some_iff.mp hlook
            have hin : l.contains x := by simpa using List.find?_some hl
            rw [Leaf.contains_iff] at hin
            have := hwf.bound l (List.mem_of_find?_eq_some hl)
            omega
          obtain ⟨c1, hmove, hat1⟩ := hat.moveNext hwf ho h0 hle hx
          obtain ⟨c', y, hat', hrest⟩ := ih hat1 (by omega)
          refine ⟨c', y, hat', ?_⟩
          rw [hlook] at hcur
          simp only [takeEach, next, hcur, hmove, yields, hlook, List.forM_cons, bind_assoc, hrest]

/-- Over an extent tree the loop is one over what the cursor yields. -/
theorem forEachLba_yields (hwf : WellFormed fs.blocks t ls) (ho : Ordered ls)
    (h0 : ls.head? = some l0) (hle : l0.block ≤ x) (hcache : ∀ l, t.cache = some l → l ∈ ls)
    (ino n : Nat) (f : AddressingOutput → StateExcept σ Fault Unit) :
    ∃ t', forEachLba fs ino t x n f = forM (yields ls x n) f >>= fun _ => pure t' := by
  obtain ⟨c, hopen, hat⟩ := Inode.Extent.cursorFromFba_at hwf ho h0 hle hcache [] (fun _ => []) ino
  obtain ⟨c', y, hat', heach⟩ := takeEach_yields hwf ho h0 hat hle f n
  obtain ⟨i, l, hleaf, -⟩ := hat'.leaf
  have hdrop : c'.drop = .ok { c'.path.root with cache := some l } := by
    rw [Cursor.drop, hleaf]
    rfl
  refine ⟨{ c'.path.root with cache := some l }, ?_⟩
  simp only [forEachLba, hopen, heach, bind_assoc, pure_bind, hdrop]
  rfl

/-- Below the first extent the cursor is not opened. -/
theorem forEachLba_below (hwf : WellFormed fs.blocks t ls) (ho : Ordered ls)
    (h0 : ls.head? = some l0) (hlt : x < l0.block) (hcache : ∀ l, t.cache = some l → l ∈ ls)
    (ino n : Nat) (f : AddressingOutput → StateExcept σ Fault Unit) :
    forEachLba fs ino t x n f = StateExcept.throw .panic := by
  have hopen := Inode.Extent.cursorFromFba_below hwf ho h0 hlt hcache [] (fun _ => []) ino
  rw [forEachLba]
  cases hrun : t.cursorFromFba fs [] (fun _ => []) ino x with
  | mk r c =>
      rw [hrun] at hopen
      obtain rfl : r = .error .panic := hopen
      rfl

/-! ## `read_slices` -/

/-- The default `Config::read_vectored` over `read_bytes`. -/
def readVectored (n : Nat) (readBytes : Nat → Except FsError β) (ofs chunks : Nat) :
    StateExcept (List β) FsError Unit :=
  forM (List.range chunks) fun i => do
    let b ← lift (readBytes (ofs + n * i))
    modify fun iovec => iovec ++ [b]

/-- What the closure of `read_slices` captures besides the output. -/
structure Reader where
  cnt : Nat := 0
  start : Option Nat := none

/-- The closure of `read_slices`. -/
def scatter (blkSize : Nat) (readBytes : Nat → Except FsError β) (zeroed : β)
    (addr : AddressingOutput) : StateExcept (Reader × List β) Fault Unit := do
  match addr with
  | .uninitialized => modify fun s => (s.1, s.2 ++ [zeroed])
  | .initialized lba =>
    let (r, _) ← get
    let start := r.start.getD lba
    if start + r.cnt ≠ lba then do
      -- Flush the request.
      onSnd (ioError (readVectored 4096 readBytes (start * blkSize) r.cnt))
      modify fun s => ({ cnt := 1, start := some lba }, s.2)
    else modify fun s => ({ cnt := r.cnt + 1, start := some start }, s.2)

/-- The read behind the loop. -/
def flushReads (blkSize : Nat) (readBytes : Nat → Except FsError β) :
    StateExcept (Reader × List β) Fault Unit := do
  let (r, _) ← get
  if 0 < r.cnt then
    match r.start with
    | none => throw .panic
    | some start => onSnd (ioError (readVectored 4096 readBytes (start * blkSize) r.cnt))
  else pure ()

/-- `read_slices`; the output is the state. -/
def readSlices (fs : FileSystem) (readBytes : Nat → Except FsError β) (zeroed : β) (ino : Nat)
    (t : ExtentTree) (ofs len : Nat) : StateExcept (List β) Fault ExtentTree :=
  if ofs % 4096 ≠ 0 then throw .panic
  else
    withFst {} do
      let t ← forEachLba fs ino t (ofs / fs.blkSize % 2 ^ 32) len
        (scatter fs.blkSize readBytes zeroed)
      flushReads fs.blkSize readBytes
      pure t

/-! ## The order of the output -/

section
variable {readBytes : Nat → Except FsError β} {content : Nat → β} {zeroed : β}

/-- What the loop appends with a run open: the blocks of a run appear when the next run
    starts or at the end. -/
def emit (content : Nat → β) (zeroed : β) : Nat → Nat → List AddressingOutput → List β
  | start, cnt, [] => (List.range' start cnt).map content
  | start, cnt, .uninitialized :: as => zeroed :: emit content zeroed start cnt as
  | start, cnt, .initialized lba :: as =>
    if start + cnt = lba then emit content zeroed start (cnt + 1) as
    else (List.range' start cnt).map content ++ emit content zeroed lba 1 as

/-- The same before the first run. -/
def emitFirst (content : Nat → β) (zeroed : β) : List AddressingOutput → List β
  | [] => []
  | .uninitialized :: as => zeroed :: emitFirst content zeroed as
  | .initialized lba :: as => emit content zeroed lba 1 as

/-- The content of a block of the file. -/
def blockValue (content : Nat → β) (zeroed : β) : AddressingOutput → β
  | .uninitialized => zeroed
  | .initialized lba => content lba

theorem readVectored_ok (hread : ∀ lba, readBytes (lba * 4096) = .ok (content lba))
    (start cnt : Nat) (out : List β) :
    ioError (readVectored 4096 readBytes (start * 4096) cnt) out =
      (.ok (), out ++ (List.range' start cnt).map content) := by
  have hrun : readVectored 4096 readBytes (start * 4096) cnt out =
      (.ok (), out ++ (List.range' start cnt).map content) := by
    induction cnt with
    | zero => simp [readVectored, pure_apply]
    | succ cnt ih =>
        have hlast : start * 4096 + 4096 * cnt = (start + cnt) * 4096 := by omega
        unfold readVectored at ih ⊢
        rw [List.range_succ, List.forM_append, bind_of_ok ih, List.forM_cons, List.forM_nil, hlast,
          hread]
        simp only [bind_apply, lift_apply, modify_apply, pure_apply]
        rw [List.range'_1_concat, List.map_append, List.append_assoc]
        rfl
  rw [ioError, hrun]

theorem scatter_uninitialized (r : Reader) (out : List β) :
    scatter 4096 readBytes zeroed .uninitialized (r, out) = (.ok (), (r, out ++ [zeroed])) := rfl

theorem scatter_first (lba : Nat) (out : List β) :
    scatter 4096 readBytes zeroed (.initialized lba) ({}, out) =
      (.ok (), ({ cnt := 1, start := some lba }, out)) := by
  simp [scatter, bind_apply]

theorem scatter_extends {start cnt lba : Nat} (h : start + cnt = lba) (out : List β) :
    scatter 4096 readBytes zeroed (.initialized lba) ({ cnt := cnt, start := some start }, out) =
      (.ok (), ({ cnt := cnt + 1, start := some start }, out)) := by
  simp [scatter, bind_apply, h]

theorem scatter_breaks (hread : ∀ lba, readBytes (lba * 4096) = .ok (content lba))
    {start cnt lba : Nat} (h : start + cnt ≠ lba) (out : List β) :
    scatter 4096 readBytes zeroed (.initialized lba) ({ cnt := cnt, start := some start }, out) =
      (.ok (), ({ cnt := 1, start := some lba },
        out ++ (List.range' start cnt).map content)) := by
  simp [scatter, bind_apply, h, onSnd, readVectored_ok hread]

/-- With a run open, the loop and the read behind it append `emit`. -/
theorem scatter_emit (hread : ∀ lba, readBytes (lba * 4096) = .ok (content lba))
    (as : List AddressingOutput) {start cnt : Nat} (hcnt : 0 < cnt) (out : List β) :
    withFst { cnt := cnt, start := some start }
        (forM as (scatter 4096 readBytes zeroed) >>= fun _ => flushReads 4096 readBytes) out =
      (.ok (), out ++ emit content zeroed start cnt as) := by
  induction as generalizing start cnt out with
  | nil =>
      rw [List.forM_nil, pure_bind]
      simp [withFst, flushReads, bind_apply, hcnt, onSnd, readVectored_ok hread, emit]
  | cons a as ih =>
      rw [List.forM_cons, bind_assoc]
      cases a with
      | uninitialized =>
          rw [withFst_bind_apply (scatter_uninitialized _ out), ih hcnt, emit, List.append_assoc]
          rfl
      | initialized lba =>
          rw [emit]
          by_cases h : start + cnt = lba
          · rw [withFst_bind_apply (scatter_extends h out), ih (Nat.succ_pos cnt), if_pos h]
          · rw [withFst_bind_apply (scatter_breaks hread h out), ih Nat.one_pos, if_neg h,
              List.append_assoc]

theorem scatter_emitFirst (hread : ∀ lba, readBytes (lba * 4096) = .ok (content lba))
    (as : List AddressingOutput) (out : List β) :
    withFst {}
        (forM as (scatter 4096 readBytes zeroed) >>= fun _ => flushReads 4096 readBytes) out =
      (.ok (), out ++ emitFirst content zeroed as) := by
  induction as generalizing out with
  | nil => simp [withFst, flushReads, bind_apply, emitFirst]
  | cons a as ih =>
      rw [List.forM_cons, bind_assoc]
      cases a with
      | uninitialized =>
          rw [withFst_bind_apply (scatter_uninitialized _ out), ih, emitFirst, List.append_assoc]
          rfl
      | initialized lba =>
          rw [withFst_bind_apply (scatter_first lba out), scatter_emit hread as Nat.one_pos,
            emitFirst]

end

/-! ## When the order is right -/

/-- No uninitialized block comes behind an initialized one. -/
def ZerosFirst (as : List AddressingOutput) : Prop :=
  as.Pairwise fun a b => b = .uninitialized → a = .uninitialized

section
variable {content : Nat → β} {zeroed : β} {as : List AddressingOutput}

/-- Without uninitialized blocks the order is right. -/
theorem emit_of_initialized (has : ∀ a ∈ as, a ≠ .uninitialized) (start cnt : Nat) :
    emit content zeroed start cnt as =
      (List.range' start cnt).map content ++ as.map (blockValue content zeroed) := by
  induction as generalizing start cnt with
  | nil => simp [emit]
  | cons a as ih =>
      have has' : ∀ a ∈ as, a ≠ .uninitialized := fun b hb => has b (List.mem_cons_of_mem _ hb)
      cases a with
      | uninitialized => exact absurd rfl (has _ List.mem_cons_self)
      | initialized lba =>
          rw [emit, List.map_cons]
          split
          next h =>
            rw [ih has', List.range'_1_concat, List.map_append, List.append_assoc]
            simp [blockValue, h]
          next => rw [ih has']; simp [blockValue]

/-- With a run open, an uninitialized block overtakes it. -/
theorem emit_ne {one : β} (hone : one ≠ zeroed) (hun : .uninitialized ∈ as) (start cnt : Nat)
    (hcnt : 0 < cnt) :
    emit (fun _ => one) zeroed start cnt as ≠
      List.replicate cnt one ++ as.map (blockValue (fun _ => one) zeroed) := by
  induction as generalizing start cnt with
  | nil => cases hun
  | cons a as ih =>
      cases a with
      | uninitialized =>
          obtain ⟨n, rfl⟩ := Nat.exists_eq_succ_of_ne_zero hcnt.ne'
          rw [emit, List.replicate_succ, List.cons_append]
          exact fun h => hone (List.cons.inj h).1.symm
      | initialized lba =>
          have hun' : .uninitialized ∈ as := by simpa using hun
          rw [emit, List.map_cons]
          split
          next =>
            -- the run goes on
            have hih := ih hun' start (cnt + 1) (Nat.succ_pos cnt)
            rw [List.replicate_succ', List.append_assoc] at hih
            exact hih
          next =>
            -- the run so far is put out, and a new one starts
            have hih := ih hun' lba 1 Nat.one_pos
            rw [show (List.range' start cnt).map (fun _ => one) = List.replicate cnt one by simp]
            exact fun h => hih (List.append_cancel_left h)

/-- The order is right for every content of the device if and only if no uninitialized
    block comes behind an initialized one. -/
theorem emitFirst_eq_iff {one : β} (hone : one ≠ zeroed) :
    (∀ content, emitFirst content zeroed as = as.map (blockValue content zeroed)) ↔
      ZerosFirst as := by
  induction as with
  | nil => simp [emitFirst, ZerosFirst]
  | cons a as ih =>
      cases a with
      | uninitialized =>
          -- Zeros at the front are put out where they stand.
          have hpw : ZerosFirst (.uninitialized :: as) ↔ ZerosFirst as := by
            simp [ZerosFirst, List.pairwise_cons]
          rw [hpw, ← ih]
          simp [emitFirst, blockValue]
      | initialized lba =>
          -- Behind an initialized block every zero comes too early.
          have hpw : ZerosFirst (.initialized lba :: as) ↔ .uninitialized ∉ as := by
            rw [ZerosFirst, List.pairwise_cons]
            constructor
            · rintro ⟨hhead, -⟩ hun
              exact AddressingOutput.noConfusion (hhead _ hun rfl)
            · intro hun
              refine ⟨fun b hb he => absurd (he ▸ hb) hun, ?_⟩
              exact List.pairwise_of_forall_mem_list fun a _ b hb he => absurd (he ▸ hb) hun
          rw [hpw]
          constructor
          · intro h hun
            exact emit_ne hone hun lba 1 Nat.one_pos (h fun _ => one)
          · intro hun content
            rw [emitFirst, emit_of_initialized fun a ha he => hun (he ▸ ha)]
            rfl

end

/-! ## Which ranges are read in order -/

section
variable {ls : List Leaf} {x n i : Nat}

/-- All blocks of the range are covered by extents. -/
def Mapped (ls : List Leaf) (st len : Nat) : Prop := ∀ i < len, (lookup ls (st + i)).isSome

instance (ls : List Leaf) (st len : Nat) : Decidable (Mapped ls st len) :=
  inferInstanceAs (Decidable (∀ i < len, _))

theorem Mapped.tail (hm : Mapped ls x (n + 1)) : Mapped ls (x + 1) n := fun i hi => by
  rw [Nat.add_assoc, Nat.add_comm 1 i]
  exact hm (i + 1) (by omega)

theorem length_yields (hm : Mapped ls x n) : (yields ls x n).length = n := by
  induction n generalizing x with
  | zero => rfl
  | succ n ih =>
      obtain ⟨a, ha⟩ := Option.isSome_iff_exists.mp (hm 0 n.succ_pos)
      rw [Nat.add_zero] at ha
      rw [yields, ha, List.length_cons, ih hm.tail]

theorem getElem?_yields (hm : Mapped ls x n) (hi : i < n) :
    (yields ls x n)[i]? = lookup ls (x + i) := by
  induction n generalizing x i with
  | zero => omega
  | succ n ih =>
      obtain ⟨a, ha⟩ := Option.isSome_iff_exists.mp (hm 0 n.succ_pos)
      rw [Nat.add_zero] at ha
      rw [yields, ha]
      cases i with
      | zero => exact ha.symm
      | succ i =>
          rw [List.getElem?_cons_succ, ih hm.tail (by omega), Nat.add_assoc, Nat.add_comm 1 i]

/-- No uninitialized block of the range comes behind an initialized one. -/
def UninitializedFirst (ls : List Leaf) (st len : Nat) : Prop :=
  ∀ i j, i < j → j < len → lookup ls (st + j) = some .uninitialized →
    lookup ls (st + i) = some .uninitialized

theorem zerosFirst_yields (hm : Mapped ls x n) :
    ZerosFirst (yields ls x n) ↔ UninitializedFirst ls x n := by
  have hget : ∀ i (h : i < (yields ls x n).length),
      (yields ls x n)[i] = .uninitialized ↔ lookup ls (x + i) = some .uninitialized := by
    intro i h
    rw [← getElem?_yields hm (length_yields hm ▸ h), List.getElem?_eq_getElem h, Option.some_inj]
  rw [ZerosFirst, List.pairwise_iff_getElem]
  constructor
  · intro h i j hij hj
    have hj' : j < (yields ls x n).length := (length_yields hm).symm ▸ hj
    rw [← hget i (hij.trans hj'), ← hget j hj']
    exact h i j _ _ hij
  · intro h i j hi hj hij
    rw [hget, hget]
    exact h i j hij (length_yields hm ▸ hj)

end

/-- `C::Buffer<4096>` -/
abbrev Buffer := { b : Bytes // b.length = 4096 }

def Buffer.zeroed : Buffer := ⟨List.replicate 4096 0, List.length_replicate ..⟩

/-- The output grows by the blocks of the range in file order, whatever the device holds. -/
def ReadsInOrder (fs : FileSystem) (ls : List Leaf) (ino : Nat) (t : ExtentTree)
    (st len : Nat) : Prop :=
  ∀ (readBytes : Nat → Except FsError Buffer) (content : Nat → Buffer),
    (∀ lba, readBytes (lba * 4096) = .ok (content lba)) → ∀ out, ∃ t' bufs,
      readSlices fs readBytes Buffer.zeroed ino t (st * 4096) len out = (.ok t', out ++ bufs) ∧
        bufs.length = len ∧
        ∀ i < len, bufs[i]? = (lookup ls (st + i)).map (blockValue content Buffer.zeroed)

section
variable {fs : FileSystem} {t : ExtentTree} {ls : List Leaf} {l0 : Leaf} {st len : Nat}

/-- What `read_slices` appends. -/
theorem readSlices_eq (hwf : WellFormed fs.blocks t ls) (ho : Ordered ls)
    (h0 : ls.head? = some l0) (hle : l0.block ≤ st % 2 ^ 32)
    (hcache : ∀ l, t.cache = some l → l ∈ ls) (hblk : fs.blkSize = 4096) (ino : Nat)
    {readBytes : Nat → Except FsError β} {content : Nat → β} {zeroed : β}
    (hread : ∀ lba, readBytes (lba * 4096) = .ok (content lba)) (out : List β) :
    ∃ t', readSlices fs readBytes zeroed ino t (st * 4096) len out =
      (.ok t', out ++ emitFirst content zeroed (yields ls (st % 2 ^ 32) len)) := by
  obtain ⟨t', heach⟩ := forEachLba_yields hwf ho h0 hle hcache ino len
    (scatter 4096 readBytes zeroed)
  have hst : st * 4096 / 4096 = st := Nat.mul_div_cancel _ (by decide)
  refine ⟨t', ?_⟩
  have hloop : withFst {} (forM (yields ls (st % 2 ^ 32) len) (scatter 4096 readBytes zeroed) >>=
      fun _ => flushReads 4096 readBytes) out =
      (.ok (), out ++ emitFirst content zeroed (yields ls (st % 2 ^ 32) len)) :=
    scatter_emitFirst hread _ out
  rw [readSlices, if_neg (by omega), hblk, hst, heach, ← withFst_bind_pure hloop fun _ => t']
  simp only [bind_assoc, pure_bind]

/-- A range that is not empty begins in the extents. -/
theorem Mapped.head_le (hm : Mapped ls st len) (ho : Ordered ls) (h0 : ls.head? = some l0)
    (hbound : ∀ l ∈ ls, l.block + l.len < 2 ^ 32) (hlen : 0 < len) :
    st < 2 ^ 32 ∧ l0.block ≤ st := by
  obtain ⟨a, ha⟩ := Option.isSome_iff_exists.mp (hm 0 hlen)
  obtain ⟨l, hl, -⟩ := Option.map_eq_some_iff.mp ha
  have hin := Leaf.contains_iff.mp (by simpa using List.find?_some hl)
  have hmem := List.mem_of_find?_eq_some hl
  have := hbound l hmem
  refine ⟨by omega, ?_⟩
  obtain ⟨rest, rfl⟩ := List.head?_eq_some_iff.mp h0
  obtain rfl | hrest := List.mem_cons.mp hmem
  · omega
  · have := ((List.pairwise_cons.mp ho).1 l hrest).1
    omega

/-- The empty range is read in order where the cursor can be opened. -/
theorem readsInOrder_zero_iff (hwf : WellFormed fs.blocks t ls) (ho : Ordered ls)
    (h0 : ls.head? = some l0) (hcache : ∀ l, t.cache = some l → l ∈ ls) (hblk : fs.blkSize = 4096)
    (ino : Nat) : ReadsInOrder fs ls ino t st 0 ↔ l0.block ≤ st % 2 ^ 32 := by
  constructor
  · intro hin
    by_contra hgt
    obtain ⟨t', bufs, hrun, -⟩ := hin (fun _ => .ok .zeroed) (fun _ => .zeroed) (fun _ => rfl) []
    have hst : st * 4096 / 4096 = st := Nat.mul_div_cancel _ (by decide)
    rw [readSlices, if_neg (by omega), hblk, hst,
      forEachLba_below hwf ho h0 (Nat.lt_of_not_le hgt) hcache] at hrun
    cases hrun
  · intro hle readBytes content hread out
    obtain ⟨t', hrun⟩ := readSlices_eq hwf ho h0 hle hcache hblk ino hread out
    exact ⟨t', [], hrun, rfl, fun i hi => absurd hi (Nat.not_lt_zero i)⟩

/-- A covered range is read in order if and only if no uninitialized block comes behind
    an initialized one, and, where the range is empty, it does not begin below the first
    extent. -/
theorem readsInOrder_iff (hwf : WellFormed fs.blocks t ls) (ho : Ordered ls)
    (hcache : ∀ l, t.cache = some l → l ∈ ls) (hblk : fs.blkSize = 4096) (ino : Nat)
    (hm : Mapped ls st len) :
    ReadsInOrder fs ls ino t st len ↔
      UninitializedFirst ls st len ∧ (len = 0 → ∀ l ∈ ls.head?, l.block ≤ st % 2 ^ 32) := by
  obtain ⟨ns, ht⟩ := hwf.tree
  obtain ⟨l0, -, h0, -, -⟩ := ht.head
  rcases Nat.eq_zero_or_pos len with rfl | hpos
  · rw [readsInOrder_zero_iff hwf ho h0 hcache hblk ino, h0]
    constructor
    · intro hle
      exact ⟨fun i j _ hj => absurd hj (Nat.not_lt_zero j), by simpa using hle⟩
    · intro hcond
      exact hcond.2 rfl l0 rfl
  · obtain ⟨hlt, hle⟩ := hm.head_le ho h0 hwf.bound hpos
    have hmod : st % 2 ^ 32 = st := Nat.mod_eq_of_lt hlt
    have hrun := fun {readBytes content} hread out =>
      @readSlices_eq Buffer fs t ls l0 st len hwf ho h0 (hmod.symm ▸ hle) hcache hblk ino readBytes
        content Buffer.zeroed hread out
    simp only [hmod] at hrun
    have hone : (⟨List.replicate 4096 1, List.length_replicate ..⟩ : Buffer) ≠ Buffer.zeroed := by
      intro h
      have hhead : some (1 : UInt8) = some 0 := congrArg (fun b : Buffer => b.1.head?) h
      exact absurd hhead (by decide)
    rw [and_iff_left (by omega), ← zerosFirst_yields hm, ← emitFirst_eq_iff hone]
    constructor
    · intro hin content
      -- A device whose content is anything at all.
      let readBytes : Nat → Except FsError Buffer := fun ofs => .ok (content (ofs / 4096))
      have hread : ∀ lba, readBytes (lba * 4096) = .ok (content lba) := fun lba =>
        congrArg (fun n => Except.ok (content n)) (Nat.mul_div_cancel lba (by decide))
      obtain ⟨t', bufs, hbufs, hlen, hget⟩ := hin readBytes content hread []
      obtain ⟨t'', heq⟩ := hrun hread []
      rw [hbufs] at heq
      obtain rfl : bufs = emitFirst content Buffer.zeroed (yields ls st len) :=
        (Prod.mk.inj heq).2
      refine List.ext_getElem? fun i => ?_
      rcases Nat.lt_or_ge i len with hi | hi
      · rw [hget i hi, List.getElem?_map, getElem?_yields hm hi]
      · rw [List.getElem?_eq_none (by omega), List.getElem?_eq_none]
        rw [List.length_map, length_yields hm]
        exact hi
    · intro heq readBytes content hread out
      obtain ⟨t', hok⟩ := hrun hread out
      rw [heq content] at hok
      refine ⟨t', _, hok, by rw [List.length_map, length_yields hm], fun i hi => ?_⟩
      rw [List.getElem?_map, getElem?_yields hm hi]

end

/-- A file of two blocks, an initialized one and one that is not. -/
def initThenUninit : List Leaf :=
  [{ block := 0, start := 300, len := 1, isInit := true },
    { block := 1, start := 500, len := 1, isInit := false }]

theorem exists_initThenUninit : ∃ (blocks : Nat → Option Bytes) (t : ExtentTree),
    t.cache = none ∧ WellFormed blocks t initThenUninit := by
  obtain ⟨t, htd, -, -, htc, hts⟩ := ExtentHeader.exists_tree 0 (initThenUninit.map .leaf)
    (by decide) (List.forall_mem_cons.mpr ⟨⟨rfl, by decide⟩,
      List.forall_mem_singleton.mpr ⟨rfl, by decide⟩⟩)
  have hasc : Predecessor.Ascending Leaf.block initThenUninit :=
    List.pairwise_pair.mpr Nat.zero_lt_one
  exact ⟨fun _ => none, t, htc, ⟨[], by rw [htd]; exact ⟨hts, by decide, hasc, rfl⟩⟩,
    by rw [htd]; decide, List.pairwise_pair.mpr (Leaf.not_both_contain (by decide)), by decide⟩

/-- Each block alone is read as it should. -/
theorem readsInOrder_iff_initThenUninit : ∃ (blocks : Nat → Option Bytes) (t : ExtentTree),
    ReadsInOrder (fsOf blocks) initThenUninit 12 t 1 1 := by
  obtain ⟨blocks, t, hcache, hwf⟩ := exists_initThenUninit
  refine ⟨blocks, t, (@readsInOrder_iff (fsOf blocks) t initThenUninit 1 1 hwf
    (List.pairwise_pair.mpr (by decide)) (fun l hl => by rw [hcache] at hl; cases hl) rfl 12
    (by decide)).mpr ⟨fun i j hij hj => ?_, fun h => absurd h (by decide)⟩⟩
  omega

/-- Read together, the zeros of the second come first. -/
theorem not_readsInOrder_initThenUninit : ∃ (blocks : Nat → Option Bytes) (t : ExtentTree),
    WellFormed blocks t initThenUninit ∧ t.cache = none ∧ Mapped initThenUninit 0 2 ∧
      ¬ ReadsInOrder (fsOf blocks) initThenUninit 12 t 0 2 := by
  obtain ⟨blocks, t, hcache, hwf⟩ := exists_initThenUninit
  refine ⟨blocks, t, hwf, hcache, by decide, fun hin => ?_⟩
  let one : Buffer := ⟨List.replicate 4096 1, List.length_replicate ..⟩
  obtain ⟨t', bufs, hrun, -, hget⟩ := hin (fun _ => .ok one) (fun _ => one) (fun _ => rfl) []
  obtain ⟨t'', heq⟩ := @readSlices_eq Buffer (fsOf blocks) t initThenUninit _ 0 2 hwf
    (List.pairwise_pair.mpr (by decide)) rfl (by decide)
    (fun l hl => by rw [hcache] at hl; cases hl) rfl 12 (fun _ => .ok one) (fun _ => one)
    Buffer.zeroed (fun _ => rfl) []
  rw [hrun] at heq
  have hbufs : bufs = [Buffer.zeroed, one] := (Prod.mk.inj heq).2
  have hfirst := hget 0 (by decide)
  rw [hbufs] at hfirst
  have hhead : some (0 : UInt8) = some 1 :=
    congrArg (fun b : Option Buffer => b.bind fun b => b.1.head?) hfirst
  exact absurd hhead (by decide)

end RustExt4.File
