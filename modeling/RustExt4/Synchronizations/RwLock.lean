/-
  RustExt4.Synchronizations.RwLock

  The reader-writer lock (`synchronizations/src/rwlock.rs`), one atomic access
  of `state` at a time.  Each operation is a thread's way through a few program
  counters, from the call to the return; what it has loaded may be out of date
  when it comes to exchange.
-/
import RustExt4.Lib.Interleave

namespace RustExt4.RwLock

open Interleave (Sys)

/-- `STATE_MASK`, of a `usize` of 64 bits -/
def stateMask : Nat := 1 <<< (64 - 2)

/-- `STATE_WRITER_LOCKED` -/
def stateWriterLocked : Nat := 1 <<< (64 - 2)

/-- `!STATE_WRITER_LOCKED` -/
def notWriterLocked : Nat := 2 ^ 64 - 1 - stateWriterLocked

def isWriteLocked (b : Nat) : Bool := b &&& stateMask = stateWriterLocked

/-! ## The operations -/

/-- Where a thread is.  `block` says that the operation goes on to wait where its `try_`
    form returns an error. -/
inductive Pc
  | idle
  | tryReadLoad (block : Bool)
  | tryReadExchange (block : Bool) (prev : Nat)
  | readLockLoad
  | readLockExchange (prev : Nat)
  | tryWriteLoad (block : Bool)
  | tryWriteExchange (block : Bool) (prev : Nat)
  | writeLockLoad
  | writeLockExchange
  | upgrade
  | downgrade
  | dropReadLoad
  | dropReadSub
  | dropWriteLoad
  | dropWriteAnd
  | panicked
  deriving DecidableEq, Repr

/-- A thread and the guards it holds.  A guard counts until the access that gives it up. -/
structure Thread where
  pc : Pc := .idle
  reads : Nat := 0
  writes : Nat := 0
  deriving DecidableEq, Repr

/-- The calls; `write` and `try_write` stand for their `_no_dep` forms too. -/
inductive Call
  | read
  | tryRead
  | write
  | tryWrite
  | upgrade
  | downgrade
  | dropRead
  | dropWrite
  deriving DecidableEq, Repr

namespace Thread

/-- A call of a thread that is not within another one.  The operations on a guard take one
    of the thread's guards. -/
def call (th : Thread) : Call → Option Thread
  | .read => if th.pc = .idle then some { th with pc := .tryReadLoad true } else none
  | .tryRead => if th.pc = .idle then some { th with pc := .tryReadLoad false } else none
  | .write => if th.pc = .idle then some { th with pc := .tryWriteLoad true } else none
  | .tryWrite => if th.pc = .idle then some { th with pc := .tryWriteLoad false } else none
  | .upgrade => if th.pc = .idle ∧ 0 < th.reads then some { th with pc := .upgrade } else none
  | .downgrade =>
    if th.pc = .idle ∧ 0 < th.writes then some { th with pc := .downgrade } else none
  | .dropRead =>
    if th.pc = .idle ∧ 0 < th.reads then some { th with pc := .dropReadLoad } else none
  | .dropWrite =>
    if th.pc = .idle ∧ 0 < th.writes then some { th with pc := .dropWriteLoad } else none

/-- The next atomic access of a thread within a call. -/
def access (state : Nat) (th : Thread) : Option (Nat × Thread) :=
  match th.pc with
  | .idle => none
  | .panicked => none
  -- `try_read`
  | .tryReadLoad block =>
    if isWriteLocked state then
      some (state, { th with pc := if block then .readLockLoad else .idle })
    else some (state, { th with pc := .tryReadExchange block state })
  | .tryReadExchange block prev =>
    if state = prev then
      some ((prev + 1) % 2 ^ 64, { th with pc := .idle, reads := th.reads + 1 })
    else some (state, { th with pc := .tryReadLoad block })
  -- `read_lock`
  | .readLockLoad =>
    if isWriteLocked state then some (state, th)
    else some (state, { th with pc := .readLockExchange state })
  | .readLockExchange prev =>
    if state = prev then
      some ((prev + 1) % 2 ^ 64, { th with pc := .idle, reads := th.reads + 1 })
    else some (state, { th with pc := .readLockLoad })
  -- `try_write`
  | .tryWriteLoad block =>
    if 0 < state then some (state, { th with pc := if block then .writeLockLoad else .idle })
    else some (state, { th with pc := .tryWriteExchange block state })
  | .tryWriteExchange block prev =>
    if state = prev then
      some (prev ||| stateWriterLocked, { th with pc := .idle, writes := th.writes + 1 })
    else some (state, { th with pc := .tryWriteLoad block })
  -- `write_lock`
  | .writeLockLoad =>
    if 0 < state then some (state, th) else some (state, { th with pc := .writeLockExchange })
  | .writeLockExchange =>
    if state = 0 then
      some (stateWriterLocked, { th with pc := .idle, writes := th.writes + 1 })
    else some (state, { th with pc := .writeLockLoad })
  -- `upgrade` tries again until it is the only reader.
  | .upgrade =>
    if state = 1 then
      some (stateWriterLocked,
        { pc := .idle, reads := th.reads - 1, writes := th.writes + 1 })
    else some (state, th)
  -- `assert!`
  | .downgrade =>
    if state = stateWriterLocked then
      some (1, { pc := .idle, reads := th.reads + 1, writes := th.writes - 1 })
    else some (state, { th with pc := .panicked })
  -- `debug_assert_eq!`
  | .dropReadLoad =>
    if state &&& stateMask = 0 then some (state, { th with pc := .dropReadSub })
    else some (state, { th with pc := .panicked })
  | .dropReadSub =>
    some ((state + (2 ^ 64 - 1)) % 2 ^ 64, { th with pc := .idle, reads := th.reads - 1 })
  -- `debug_assert_eq!`
  | .dropWriteLoad =>
    if state &&& stateMask = stateWriterLocked then some (state, { th with pc := .dropWriteAnd })
    else some (state, { th with pc := .panicked })
  | .dropWriteAnd =>
    some (state &&& notWriterLocked,
      { th with pc := .idle, writes := th.writes - 1 })

end Thread

/-! ## All threads -/

/-- A step of a thread: a call, or the next access of the call it is in. -/
def act {T : Type} (_ : T) (c : Option Call) (state : Nat) (th : Thread) :
    Option (Nat × Thread) :=
  match c with
  | some c => (th.call c).map (state, ·)
  | none => th.access state

/-- A new lock, and threads that have not come to it. -/
def new (T : Type) : Sys T Nat Thread := ⟨0, fun _ => {}⟩

section System

variable {T : Type} [Fintype T]

def readGuards (s : Sys T Nat Thread) : Nat := s.total Thread.reads

def writeGuards (s : Sys T Nat Thread) : Nat := s.total Thread.writes

/-- The readers have not filled the bits below the writer's. -/
def FewReaders (s : Sys T Nat Thread) : Prop := readGuards s < 2 ^ 62

instance (s : Sys T Nat Thread) : Decidable (FewReaders s) :=
  inferInstanceAs (Decidable (_ < _))

/-- One writer and no reader, or no writer; and `state` says which. -/
def ExclusiveWith (state reads writes : Nat) : Prop :=
  (writes = 1 ∧ reads = 0 ∧ state = stateWriterLocked) ∨ (writes = 0 ∧ state = reads)

def Exclusive (s : Sys T Nat Thread) : Prop :=
  ExclusiveWith s.shared (readGuards s) (writeGuards s)

/-- No assertion has failed. -/
def NoPanic (s : Sys T Nat Thread) : Prop := ∀ t, (s.threads t).pc ≠ .panicked

end System

/-! ## One access -/

theorem and_stateMask_of_lt {b : Nat} (h : b < 2 ^ 62) : b &&& stateMask = 0 := by
  apply Nat.eq_of_testBit_eq
  intro i
  have hmask : stateMask = 2 ^ 62 := by decide
  rw [Nat.testBit_and, Nat.zero_testBit, hmask, Nat.testBit_two_pow]
  by_cases hi : 62 = i
  · rw [← hi, Nat.testBit_lt_two_pow h, Bool.false_and]
  · rw [decide_eq_false hi, Bool.and_false]

/-- What a thread knows of its loads and of its guards. -/
def Thread.Ok (th : Thread) : Prop :=
  match th.pc with
  | .tryReadExchange _ prev | .readLockExchange prev => isWriteLocked prev = false
  | .tryWriteExchange _ prev => prev = 0
  | .upgrade | .dropReadLoad | .dropReadSub => 0 < th.reads
  | .downgrade | .dropWriteLoad | .dropWriteAnd => 0 < th.writes
  | .panicked => False
  | _ => True

/-- What an access does to the word and to the thread's guards. -/
inductive Effect (state : Nat) (th : Thread) : Nat × Thread → Prop
  | none (pc : Pc) (h : Thread.Ok { th with pc := pc }) :
      Effect state th (state, { th with pc := pc })
  | read (h : isWriteLocked state = false) :
      Effect state th ((state + 1) % 2 ^ 64, { th with pc := .idle, reads := th.reads + 1 })
  | write (h : state = 0) :
      Effect state th (stateWriterLocked, { th with pc := .idle, writes := th.writes + 1 })
  | upgrade (h : state = 1) (hreads : 0 < th.reads) :
      Effect state th
        (stateWriterLocked, { pc := .idle, reads := th.reads - 1, writes := th.writes + 1 })
  | downgrade (h : state = stateWriterLocked) (hwrites : 0 < th.writes) :
      Effect state th (1, { pc := .idle, reads := th.reads + 1, writes := th.writes - 1 })
  | dropRead (hreads : 0 < th.reads) :
      Effect state th
        ((state + (2 ^ 64 - 1)) % 2 ^ 64, { th with pc := .idle, reads := th.reads - 1 })
  | dropWrite (hwrites : 0 < th.writes) :
      Effect state th (state &&& notWriterLocked,
        { th with pc := .idle, writes := th.writes - 1 })
  | panic (h : 0 < th.writes ∧ state &&& stateMask ≠ stateWriterLocked ∨
      0 < th.writes ∧ state ≠ stateWriterLocked ∨ 0 < th.reads ∧ state &&& stateMask ≠ 0) :
      Effect state th (state, { th with pc := .panicked })

theorem Thread.call_effect {state : Nat} {th th' : Thread} {c : Call}
    (h : th.call c = some th') : Effect state th (state, th') := by
  cases c with
  | read | tryRead | write | tryWrite =>
      rw [Thread.call] at h
      split at h
      next => cases h; exact .none _ trivial
      next => cases h
  | upgrade | downgrade | dropRead | dropWrite =>
      rw [Thread.call] at h
      split at h
      next hidle => cases h; exact .none _ hidle.2
      next => cases h

theorem Thread.access_effect {state : Nat} {th : Thread} {p : Nat × Thread} (hok : th.Ok)
    (h : th.access state = some p) : Effect state th p := by
  -- One case per place in the code.
  obtain ⟨pc, reads, writes⟩ := th
  cases pc with
  | idle => cases h
  | panicked => cases h
  | tryReadLoad block =>
      simp only [access] at h
      split at h
      next => cases h; cases block <;> exact .none _ trivial
      next hfree => cases h; exact .none _ (Bool.eq_false_iff.mpr hfree)
  | tryReadExchange block prev =>
      simp only [access] at h
      split at h
      next heq => subst heq; cases h; exact .read hok
      next => cases h; exact .none _ trivial
  | readLockLoad =>
      simp only [access] at h
      split at h
      next => cases h; exact .none _ trivial
      next hfree => cases h; exact .none _ (Bool.eq_false_iff.mpr hfree)
  | readLockExchange prev =>
      simp only [access] at h
      split at h
      next heq => subst heq; cases h; exact .read hok
      next => cases h; exact .none _ trivial
  | tryWriteLoad block =>
      simp only [access] at h
      split at h
      next => cases h; cases block <;> exact .none _ trivial
      next hzero => cases h; exact .none _ (Nat.eq_zero_of_not_pos hzero)
  | tryWriteExchange block prev =>
      obtain rfl : prev = 0 := hok
      simp only [access] at h
      split at h
      next heq => cases h; exact .write heq
      next => cases h; exact .none _ trivial
  | writeLockLoad =>
      simp only [access] at h
      split at h
      next => cases h; exact .none _ trivial
      next => cases h; exact .none _ trivial
  | writeLockExchange =>
      simp only [access] at h
      split at h
      next heq => cases h; exact .write heq
      next => cases h; exact .none _ trivial
  | upgrade =>
      simp only [access] at h
      split at h
      next heq => cases h; exact .upgrade heq hok
      next => cases h; exact .none _ hok
  | downgrade =>
      simp only [access] at h
      split at h
      next heq => cases h; exact .downgrade heq hok
      next hne => cases h; exact .panic (Or.inr (Or.inl ⟨hok, hne⟩))
  | dropReadLoad =>
      simp only [access] at h
      split at h
      next => cases h; exact .none _ hok
      next hne => cases h; exact .panic (Or.inr (Or.inr ⟨hok, hne⟩))
  | dropReadSub =>
      obtain rfl : _ = p := Option.some.inj h
      exact .dropRead hok
  | dropWriteLoad =>
      simp only [access] at h
      split at h
      next => cases h; exact .none _ hok
      next hne => cases h; exact .panic (Or.inl ⟨hok, hne⟩)
  | dropWriteAnd =>
      obtain rfl : _ = p := Option.some.inj h
      exact .dropWrite hok

/-! ## The invariant -/

/-- An access keeps the word in step with the guards, and no assertion fails.  `reads` and
    `writes` are the guards of all threads before it, `reads'` and `writes'` after it. -/
theorem Effect.exclusive {state reads writes reads' writes' : Nat} {th : Thread}
    {p : Nat × Thread} (he : Effect state th p) (hex : ExclusiveWith state reads writes)
    (hfew : reads < 2 ^ 62) (hr : th.reads ≤ reads) (hw : th.writes ≤ writes)
    (hr' : reads' + th.reads = reads + p.2.reads)
    (hw' : writes' + th.writes = writes + p.2.writes) :
    ExclusiveWith p.1 reads' writes' ∧ p.2.Ok := by
  have hlocked : isWriteLocked stateWriterLocked = true := by decide
  have hmask : stateWriterLocked &&& stateMask = stateWriterLocked := by decide
  have hclear : stateWriterLocked &&& notWriterLocked = 0 := by decide
  have hwl : stateWriterLocked = 2 ^ 62 := by decide
  obtain ⟨hw1, hr0, hs⟩ | ⟨hw0, hs⟩ := hex
  -- A writer: the word is not free to any reader, and a second writer finds it taken.
  · cases he <;> dsimp only at hr' hw' ⊢
    case none pc h => exact ⟨Or.inl ⟨by omega, by omega, hs⟩, h⟩
    case read h => simp [hs, hlocked] at h
    case write h => omega
    case upgrade h hreads => omega
    case downgrade h hwrites => exact ⟨Or.inr ⟨by omega, by omega⟩, trivial⟩
    case dropRead hreads => omega
    case dropWrite hwrites =>
      refine ⟨Or.inr ⟨by omega, ?_⟩, trivial⟩
      rw [hs, hclear]
      omega
    case panic h =>
      obtain ⟨-, h⟩ | ⟨-, h⟩ | ⟨h, -⟩ := h
      · exact absurd (hs ▸ hmask) h
      · exact absurd hs h
      · omega
  -- No writer: the word is the number of the readers.
  · cases he <;> dsimp only at hr' hw' ⊢
    case none pc h => exact ⟨Or.inr ⟨by omega, by omega⟩, h⟩
    case read h => exact ⟨Or.inr ⟨by omega, by omega⟩, trivial⟩
    case write h => exact ⟨Or.inl ⟨by omega, by omega, rfl⟩, trivial⟩
    case upgrade h hreads => exact ⟨Or.inl ⟨by omega, by omega, rfl⟩, trivial⟩
    case downgrade h hwrites => omega
    case dropRead hreads => exact ⟨Or.inr ⟨by omega, by omega⟩, trivial⟩
    case dropWrite hwrites => omega
    case panic h =>
      obtain ⟨h, -⟩ | ⟨h, -⟩ | ⟨-, h⟩ := h
      · omega
      · omega
      · exact absurd (and_stateMask_of_lt (by omega)) h

section Invariant

variable {T : Type} [Fintype T] [DecidableEq T] {s s' : Sys T Nat Thread}

/-- The word tells the guards, and every thread is where its guards allow it to be. -/
structure Inv (s : Sys T Nat Thread) : Prop where
  exclusive : Exclusive s
  ok : ∀ t, (s.threads t).Ok

omit [DecidableEq T] in
theorem new_inv : Inv (new T) :=
  ⟨Or.inr ⟨Finset.sum_const_zero, Finset.sum_const_zero.symm⟩, fun _ => trivial⟩

theorem step_inv {x : T × Option Call} (hinv : Inv s) (hfew : FewReaders s)
    (hstep : Sys.Step act s x s') : Inv s' := by
  obtain ⟨p, hact, rfl⟩ := hstep.act
  have he : Effect s.shared (s.threads x.1) p := by
    unfold act at hact
    split at hact
    next c hc =>
      obtain ⟨th', hcall, rfl⟩ := Option.map_eq_some_iff.mp hact
      exact Thread.call_effect hcall
    next => exact Thread.access_effect (hinv.ok x.1) hact
  obtain ⟨hex, hok⟩ := he.exclusive hinv.exclusive hfew (Sys.le_total Thread.reads s x.1)
    (Sys.le_total Thread.writes s x.1) (Sys.total_set Thread.reads s x.1 p)
    (Sys.total_set Thread.writes s x.1 p)
  exact ⟨hex, Sys.forall_set hinv.ok hok⟩

/-- In every state of every run the word tells the guards apart, and no assertion has
    failed. -/
theorem exclusive_of_run
    (hrun : Runs.Run (Sys.Step act) (fun s _ => FewReaders s) (new T) s) :
    Exclusive s ∧ NoPanic s := by
  have hinv : Inv s :=
    hrun.invariant (fun _ _ _ hinv hfew hstep => step_inv hinv hfew hstep) new_inv
  refine ⟨hinv.exclusive, fun t hpanic => ?_⟩
  have hok := hinv.ok t
  rw [Thread.Ok, hpanic] at hok
  exact hok

end Invariant

/-- One of two threads reads and becomes the writer; the other one then finds the lock
    taken. -/
theorem exclusive_of_run_upgrade :
    ∃ s, Runs.Run (Sys.Step act) (fun s _ => FewReaders s) (new Bool) s ∧ writeGuards s = 1 ∧
      Exclusive s ∧ NoPanic s := by
  let step := Sys.Step (T := Bool) act
  let guard := fun (s : Sys Bool Nat Thread) (_ : Bool × Option Call) => FewReaders s
  have h1 : Runs.Run step guard (new Bool) _ :=
    .single (a := (true, some .read)) (by decide : FewReaders (new Bool)) rfl
  have h2 : Runs.Run step guard (new Bool) _ :=
    .tail (a := (true, none)) h1 (by decide : FewReaders _) rfl
  have h3 : Runs.Run step guard (new Bool) _ :=
    .tail (a := (true, none)) h2 (by decide : FewReaders _) rfl
  have h4 : Runs.Run step guard (new Bool) _ :=
    .tail (a := (true, some .upgrade)) h3 (by decide : FewReaders _) rfl
  have h5 : Runs.Run step guard (new Bool) _ :=
    .tail (a := (true, none)) h4 (by decide : FewReaders _) rfl
  have h6 : Runs.Run step guard (new Bool) _ :=
    .tail (a := (false, some .tryRead)) h5 (by decide : FewReaders _) rfl
  have h7 : Runs.Run step guard (new Bool) _ :=
    .tail (a := (false, none)) h6 (by decide : FewReaders _) rfl
  exact ⟨_, h7, by decide, exclusive_of_run h7⟩

end RustExt4.RwLock
