/-
  RustExt4.File.Write

  The batching loop of `File::write_slices` (`file.rs`) and the vectored writes of
  the device (`types.rs`, `Config`).  The loop gathers buffers for consecutive
  logical blocks and hands each run to the device in one call.
-/
import RustExt4.Inode.Extent.Cursor
import RustExt4.Lib.Coalesce

namespace RustExt4.File

open StateExcept
open Inode.Extent (AddressingOutput)

variable {β δ α : Type}

/-! ## The device -/

/-- The default `Config::write_vectored` over `write_bytes`, for buffers of one block. -/
def writeVectored (blkSize : Nat) (writeBytes : Nat → β → StateExcept δ FsError Unit) :
    Nat → List β → StateExcept δ FsError Unit
  | _, [] => pure ()
  | ofs, buf :: bufs => do
    writeBytes ofs buf
    writeVectored blkSize writeBytes (ofs + blkSize) bufs

/-- `map_err(|_| FsError::IoError)` -/
def ioError (x : StateExcept δ FsError α) : StateExcept δ Fault α := fun d =>
  match x d with
  | (.ok a, d') => (.ok a, d')
  | (.error _, d') => (.error (.err .ioError), d')

/-! ## The loop -/

/-- What the closure of `write_slices` captures. -/
structure Writer (β : Type) where
  slices : List β
  cnt : Nat := 0
  batch : List β := []
  start : Option Nat := none

/-- The closure of `write_slices`.  An address that is not initialized is
    `unreachable!()`.  Block numbers have 48 bits, so that the offset does not overflow. -/
def gather (blkSize : Nat) (writeVectored : Nat → List β → StateExcept δ FsError Unit)
    (addr : AddressingOutput) : StateExcept (Writer β × δ) Fault Unit := do
  match addr with
  | .uninitialized => throw .panic
  | .initialized lba =>
    let (w, _) ← get
    match w.slices with
    | [] => throw .panic
    | slice :: slices => do
      let start := w.start.getD lba
      if start + w.cnt ≠ lba then do
        -- Flush the request.
        onSnd (ioError (writeVectored (start * blkSize) w.batch))
        modify fun s => ({ slices := slices, cnt := 1, batch := [slice], start := some lba }, s.2)
      else
        modify fun s =>
          ({ slices := slices, cnt := w.cnt + 1, batch := w.batch ++ [slice]
             start := some start }, s.2)

/-- The flush behind the loop. -/
def flushBatch (blkSize : Nat) (writeVectored : Nat → List β → StateExcept δ FsError Unit) :
    StateExcept (Writer β × δ) Fault Unit := do
  let (w, _) ← get
  if w.batch.isEmpty then pure ()
  else
    match w.start with
    | none => throw .panic
    | some start => onSnd (ioError (writeVectored (start * blkSize) w.batch))

/-- The loop over the addresses that the cursor yields, with its final flush. -/
def writeBatched (blkSize : Nat) (writeVectored : Nat → List β → StateExcept δ FsError Unit)
    (addrs : List AddressingOutput) (slices : List β) : StateExcept δ Fault Unit :=
  withFst { slices := slices } do
    forM addrs (gather blkSize writeVectored)
    flushBatch blkSize writeVectored

/-! ## The calls -/

/-- The write of a run. -/
def writeRun (blkSize : Nat) (writeVectored : Nat → List β → StateExcept δ FsError Unit)
    (run : Nat × List β) : StateExcept δ Fault Unit :=
  ioError (writeVectored (run.1 * blkSize) run.2)

/-- The addresses of initialized blocks. -/
def addresses (items : List (Nat × β)) : List AddressingOutput :=
  items.map fun item => .initialized item.1

variable {blkSize : Nat} {wv : Nat → List β → StateExcept δ FsError Unit} {slices batch : List β}
  {start : Nat}

/-- The state of the closure with an open run. -/
def openRun (slices : List β) (start : Nat) (batch : List β) : Writer β :=
  { slices := slices, cnt := batch.length, batch := batch, start := some start }

theorem gather_first (addr : Nat) (b : β) (d : δ) :
    gather blkSize wv (.initialized addr) ({ slices := b :: slices }, d) =
      (.ok (), (openRun slices addr [b], d)) := by
  simp [gather, openRun, bind_apply]

theorem gather_extends {addr : Nat} (h : start + batch.length = addr) (b : β) (d : δ) :
    gather blkSize wv (.initialized addr) (openRun (b :: slices) start batch, d) =
      (.ok (), (openRun slices start (batch ++ [b]), d)) := by
  simp [gather, openRun, bind_apply, h]

theorem gather_breaks {addr : Nat} (h : start + batch.length ≠ addr) (b : β)
    (f : Unit → StateExcept (Writer β × δ) Fault Unit) :
    withFst (openRun (b :: slices) start batch)
        (gather blkSize wv (.initialized addr) >>= f) =
      writeRun blkSize wv (start, batch) >>= fun _ => withFst (openRun slices addr [b]) (f ()) := by
  funext d
  simp only [withFst, gather, openRun, bind_apply, get_apply, Option.getD_some, ne_eq, h,
    not_false_eq_true, if_true, writeRun, onSnd, modify_apply]
  rcases ioError (wv (start * blkSize) batch) d with ⟨_ | _, _⟩ <;> rfl

theorem flushBatch_open (hne : batch ≠ []) :
    withFst (openRun slices start batch) (flushBatch blkSize wv) =
      writeRun blkSize wv (start, batch) := by
  funext d
  simp only [withFst, flushBatch, openRun, bind_apply, get_apply, List.isEmpty_iff, if_neg hne]
  rfl

/-- With a run open, the rest of the loop issues the calls for the runs from there on. -/
theorem gather_runsFrom (items : List (Nat × β)) (hne : batch ≠ []) :
    withFst (openRun (items.map Prod.snd) start batch)
        (forM (addresses items) (gather blkSize wv) >>= fun _ => flushBatch blkSize wv) =
      forM (Coalesce.runsFrom start batch items) (writeRun blkSize wv) := by
  induction items generalizing start batch with
  | nil =>
      rw [Coalesce.runsFrom, List.forM_cons, List.forM_nil]
      rw [addresses, List.map_nil, List.map_nil, List.forM_nil, pure_bind, flushBatch_open hne]
      funext d
      simp only [bind_apply, pure_apply]
      rcases writeRun blkSize wv (start, batch) d with ⟨_ | _, _⟩ <;> rfl
  | cons item items ih =>
      obtain ⟨addr, b⟩ := item
      rw [addresses, List.map_cons, List.map_cons, List.forM_cons, bind_assoc, Coalesce.runsFrom]
      by_cases h : start + batch.length = addr
      · rw [if_pos h, withFst_bind_of_ok (gather_extends h b)]
        exact ih (by simp)
      · rw [if_neg h, gather_breaks h, List.forM_cons]
        congr 1
        funext _
        exact ih (by simp)

theorem writeBatched_runs (items : List (Nat × β)) :
    writeBatched blkSize wv (addresses items) (items.map Prod.snd) =
      forM (Coalesce.runs items) (writeRun blkSize wv) := by
  cases items with
  | nil => rfl
  | cons item items =>
      obtain ⟨addr, b⟩ := item
      rw [writeBatched, addresses, List.map_cons, List.map_cons, List.forM_cons, bind_assoc,
        withFst_bind_of_ok (gather_first addr b)]
      exact gather_runsFrom items (by simp)

/-! ## The default vectored write -/

theorem forM_flatMap {γ ι : Type} (l : List γ) (g : γ → List ι)
    (f : ι → StateExcept δ Fault PUnit) :
    forM (l.flatMap g) f = forM l fun a => forM (g a) f := by
  induction l with
  | nil => rfl
  | cons a l ih => rw [List.flatMap_cons, List.forM_append, List.forM_cons, ih]

/-- A vectored write is the writes of its buffers one after the other. -/
theorem writeVectored_eq (writeBytes : Nat → β → StateExcept δ FsError Unit) (start : Nat)
    (bufs : List β) :
    ioError (writeVectored blkSize writeBytes (start * blkSize) bufs) =
      forM (Coalesce.expand start bufs) fun w => ioError (writeBytes (w.1 * blkSize) w.2) := by
  induction bufs generalizing start with
  | nil => rfl
  | cons b bufs ih =>
      rw [Coalesce.expand, List.forM_cons, ← ih, Nat.succ_mul]
      funext d
      simp only [ioError, writeVectored, bind_apply]
      rcases writeBytes (start * blkSize) b d with ⟨_ | _, _⟩ <;> rfl

/-- The loop issues vectored writes that, expanded block by block, are the writes of
    buffer `i` to logical block `i` in order, each once; with the default vectored write
    it does to the device what these writes do one by one, also where one fails. -/
theorem writeBatched_singles (blkSize : Nat) (items : List (Nat × β)) :
    ∃ calls : List (Nat × List β),
      (∀ (δ : Type) (wv : Nat → List β → StateExcept δ FsError Unit),
        writeBatched blkSize wv (addresses items) (items.map Prod.snd) =
          forM calls (writeRun blkSize wv)) ∧
      calls.flatMap (fun run => Coalesce.expand run.1 run.2) = items ∧
      ∀ (δ : Type) (writeBytes : Nat → β → StateExcept δ FsError Unit),
        writeBatched blkSize (writeVectored blkSize writeBytes) (addresses items)
            (items.map Prod.snd) =
          forM items fun item => ioError (writeBytes (item.1 * blkSize) item.2) := by
  refine ⟨Coalesce.runs items, fun δ wv => writeBatched_runs items, Coalesce.runs_expand items,
    fun δ writeBytes => ?_⟩
  have hruns : writeRun blkSize (writeVectored blkSize writeBytes) = fun run =>
      forM (Coalesce.expand run.1 run.2) fun w => ioError (writeBytes (w.1 * blkSize) w.2) :=
    funext fun run => writeVectored_eq writeBytes run.1 run.2
  rw [writeBatched_runs, hruns, ← forM_flatMap, Coalesce.runs_expand]

end RustExt4.File
