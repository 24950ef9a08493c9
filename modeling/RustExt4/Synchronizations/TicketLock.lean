/-
  RustExt4.Synchronizations.TicketLock

  The ticket lock (`synchronizations/src/ticket_lock.rs`), one atomic access at a
  time.  `lock` and the guard's drop add to one half of the word, and `try_lock`
  exchanges the whole word.  The history of the draws and of the acquisitions is
  kept beside the word, for the order of the threads.
-/
import RustExt4.Lib.Interleave
import RustExt4.Utils
import Mathlib.Algebra.BigOperators.Group.Finset.Piecewise

namespace RustExt4.TicketLock

open Interleave (Sys)

/-! ## The word -/

/-- `Ticket`, as the pair of counters -/
structure Ticket where
  owner : Nat := 0
  next : Nat := 0
  deriving DecidableEq, Repr

namespace Ticket

/-- `Ticket` as the one word of `try_lock`; `owner` lies in its low half. -/
def toU64 (k : Ticket) : Nat := k.next <<< 32 ||| k.owner

def ofU64 (w : Nat) : Ticket := ⟨w % 2 ^ 32, w >>> 32⟩

/-- `cmp` of `try_lock` -/
def cmp (prev : Nat) : Nat := prev <<< 32 % 2 ^ 64 ||| prev

/-- `new` of `try_lock`; the shift drops the carry of a `prev` with all bits set. -/
def new (prev : Nat) : Nat := (prev + 1) <<< 32 % 2 ^ 64 ||| prev

end Ticket

/-! ## The operations -/

inductive Pc
  | idle
  | lockAdd
  | lockLoad (ticket : Nat)
  | acquireLoad (ticket : Nat)
  | tryLoad
  | tryExchange (prev : Nat)
  | dropAdd
  deriving DecidableEq, Repr

/-- A thread, and the tickets of the guards it holds. -/
structure Thread where
  pc : Pc := .idle
  held : List Nat := []
  deriving DecidableEq, Repr

/-- The ticket that the thread waits with. -/
def Thread.waiting (th : Thread) : Option Nat :=
  match th.pc with
  | .lockLoad ticket | .acquireLoad ticket => some ticket
  | _ => none

/-- The tickets that the thread has drawn and not yet given up. -/
def Thread.tickets (th : Thread) : List Nat := th.waiting.toList ++ th.held

/-- The word, and who drew a ticket and who acquired the lock, in this order.  A `try_lock`
    that succeeds does both at once. -/
structure Shared (T : Type) where
  ticket : Ticket := {}
  drawn : List T := []
  acquired : List T := []
  deriving DecidableEq, Repr

inductive Call
  | lock
  | tryLock
  | drop
  deriving DecidableEq, Repr

section Act

variable {T : Type}

/-- A call of a thread that is not within another one. -/
def Thread.call (th : Thread) : Call → Option Thread
  | .lock => if th.pc = .idle then some { th with pc := .lockAdd } else none
  | .tryLock => if th.pc = .idle then some { th with pc := .tryLoad } else none
  | .drop => if th.pc = .idle ∧ th.held ≠ [] then some { th with pc := .dropAdd } else none

/-- `lock` returns a guard to thread `t`. -/
def enter (t : T) (ticket : Nat) (sh : Shared T) (th : Thread) : Shared T × Thread :=
  ({ sh with acquired := sh.acquired ++ [t] }, ⟨.idle, ticket :: th.held⟩)

/-- The next atomic access of thread `t` within a call. -/
def access (t : T) (sh : Shared T) (th : Thread) : Option (Shared T × Thread) :=
  match th.pc with
  | .idle => none
  -- `lock`
  | .lockAdd =>
    some ({ sh with
        ticket := { sh.ticket with next := fetchAdd sh.ticket.next 1 }
        drawn := sh.drawn ++ [t] },
      { th with pc := .lockLoad sh.ticket.next })
  | .lockLoad ticket =>
    if sh.ticket.owner = ticket then some (enter t ticket sh th)
    else some (sh, { th with pc := .acquireLoad ticket })
  -- The loop of `acquire`
  | .acquireLoad ticket =>
    if sh.ticket.owner = ticket then some (enter t ticket sh th) else some (sh, th)
  -- `try_lock`
  | .tryLoad => some (sh, { th with pc := .tryExchange sh.ticket.owner })
  | .tryExchange prev =>
    if sh.ticket.toU64 = Ticket.cmp prev then
      some (⟨.ofU64 (Ticket.new prev), sh.drawn ++ [t], sh.acquired ++ [t]⟩,
        ⟨.idle, prev :: th.held⟩)
    else some (sh, { th with pc := .idle })
  -- `drop` of a guard
  | .dropAdd =>
    some ({ sh with ticket := { sh.ticket with owner := fetchAdd sh.ticket.owner 1 } },
      ⟨.idle, th.held.tail⟩)

/-- A step of a thread: a call, or the next access of the call it is in. -/
def act (t : T) (c : Option Call) (sh : Shared T) (th : Thread) : Option (Shared T × Thread) :=
  match c with
  | some c => (th.call c).map (sh, ·)
  | none => access t sh th

end Act

/-- A new lock, and threads that have not come to it. -/
def new (T : Type) : Sys T (Shared T) Thread := ⟨{}, fun _ => {}⟩

section System

variable {T : Type} [Fintype T]

def guards (s : Sys T (Shared T) Thread) : Nat := s.total fun th => th.held.length

/-- How many threads hold or wait with a ticket.  One that locks again while it holds the
    guard does both. -/
def outstanding (s : Sys T (Shared T) Thread) : Nat := s.total fun th => th.tickets.length

/-- There are more ticket numbers than threads that hold or wait. -/
def FewThreads (s : Sys T (Shared T) Thread) : Prop := outstanding s < 2 ^ 32

instance (s : Sys T (Shared T) Thread) : Decidable (FewThreads s) :=
  inferInstanceAs (Decidable (_ < _))

/-- Exclusion and order. -/
structure Safe (s : Sys T (Shared T) Thread) : Prop where
  /-- At most one guard exists. -/
  exclusive : guards s ≤ 1
  /-- `next - owner` counts the tickets that are out. -/
  count : (s.shared.ticket.next + (2 ^ 32 - s.shared.ticket.owner)) % 2 ^ 32 = outstanding s
  /-- No ticket is out twice. -/
  nodup : ∀ t, (s.threads t).tickets.Nodup
  disjoint : ∀ t u, t ≠ u → (s.threads t).tickets.Disjoint (s.threads u).tickets
  /-- The lock goes to the threads in the order of their tickets. -/
  order : s.shared.acquired <+: s.shared.drawn

end System

/-! ## The two halves of the word -/

theorem Ticket.halves {hi lo : Nat} (h : lo < 2 ^ 32) : hi <<< 32 ||| lo = hi * 2 ^ 32 + lo := by
  rw [← Nat.shiftLeft_add_eq_or_of_lt h, Nat.shiftLeft_eq]

theorem Ticket.cmp_eq {prev : Nat} (h : prev < 2 ^ 32) : cmp prev = prev * 2 ^ 32 + prev := by
  have hfit : prev <<< 32 % 2 ^ 64 = prev <<< 32 :=
    Nat.mod_eq_of_lt (by rw [Nat.shiftLeft_eq]; omega)
  rw [cmp, hfit, halves h]

/-- The whole word is compared: neither half may have moved since the load. -/
theorem Ticket.toU64_eq_cmp {k : Ticket} {prev : Nat} (ho : k.owner < 2 ^ 32)
    (hp : prev < 2 ^ 32) : k.toU64 = cmp prev ↔ k = ⟨prev, prev⟩ := by
  obtain ⟨owner, next⟩ := k
  have hword : toU64 ⟨owner, next⟩ = next * 2 ^ 32 + owner := halves ho
  have hlt : owner < 2 ^ 32 := ho
  rw [hword, cmp_eq hp, Ticket.mk.injEq]
  omega

/-- The exchange adds one to `next`, as `lock` does, also where `prev + 1` is 2^32. -/
theorem Ticket.ofU64_new {prev : Nat} (h : prev < 2 ^ 32) :
    ofU64 (new prev) = ⟨prev, fetchAdd prev 1⟩ := by
  have hw : new prev = fetchAdd prev 1 * 2 ^ 32 + prev := by
    have hcarry : (prev + 1) <<< 32 % 2 ^ 64 = fetchAdd prev 1 <<< 32 := by
      rw [Nat.shiftLeft_eq, Nat.shiftLeft_eq, fetchAdd]
      omega
    rw [new, hcarry, halves h]
  have hnext : fetchAdd prev 1 < 2 ^ 32 := Nat.mod_lt _ (by decide)
  rw [ofU64, hw, Nat.shiftRight_eq_div_pow, Ticket.mk.injEq]
  omega

/-! ## One access -/

/-- What a thread knows of its load and of its guards. -/
def Thread.Ok (th : Thread) : Prop :=
  match th.pc with
  | .tryExchange prev => prev < 2 ^ 32
  | .dropAdd => th.held ≠ []
  | _ => True

/-- What a step of thread `t` does to the word, the history and the thread's tickets. -/
inductive Effect {T : Type} (t : T) (sh : Shared T) (th : Thread) : Shared T × Thread → Prop
  | none (th' : Thread) (hw : th'.waiting = th.waiting) (hheld : th'.held = th.held)
      (hok : th'.Ok) : Effect t sh th (sh, th')
  | draw (th' : Thread) (hfree : th.waiting = .none) (hw : th'.waiting = some sh.ticket.next)
      (hheld : th'.held = th.held) (hok : th'.Ok) :
      Effect t sh th ({ sh with
        ticket := { sh.ticket with next := fetchAdd sh.ticket.next 1 }
        drawn := sh.drawn ++ [t] }, th')
  | enter (hw : th.waiting = some sh.ticket.owner) :
      Effect t sh th (enter t sh.ticket.owner sh th)
  | tryEnter (hfree : th.waiting = .none) (h : sh.ticket.next = sh.ticket.owner) :
      Effect t sh th (⟨⟨sh.ticket.owner, fetchAdd sh.ticket.owner 1⟩, sh.drawn ++ [t],
        sh.acquired ++ [t]⟩, ⟨.idle, sh.ticket.owner :: th.held⟩)
  | leave (hfree : th.waiting = .none) (hheld : th.held ≠ []) :
      Effect t sh th
        ({ sh with ticket := { sh.ticket with owner := fetchAdd sh.ticket.owner 1 } },
          ⟨.idle, th.held.tail⟩)

section Step

variable {T : Type} {t : T} {sh : Shared T} {th th' : Thread} {p : Shared T × Thread}

theorem Thread.call_effect {c : Call} (h : th.call c = some th') : Effect t sh th (sh, th') := by
  obtain ⟨pc, held⟩ := th
  cases c with
  | lock | tryLock =>
      rw [Thread.call] at h
      split at h
      next hidle =>
        obtain rfl : pc = .idle := hidle
        cases h
        exact .none _ rfl rfl trivial
      next => cases h
  | drop =>
      rw [Thread.call] at h
      split at h
      next hidle =>
        obtain ⟨rfl, hheld⟩ : pc = .idle ∧ held ≠ [] := hidle
        cases h
        exact .none _ rfl rfl hheld
      next => cases h

theorem access_effect (ho : sh.ticket.owner < 2 ^ 32) (hok : th.Ok)
    (h : access t sh th = some p) : Effect t sh th p := by
  obtain ⟨pc, held⟩ := th
  cases pc with
  | idle => cases h
  | lockAdd =>
      cases h
      exact .draw _ rfl rfl rfl trivial
  | lockLoad ticket =>
      simp only [access] at h
      split at h
      next heq => subst heq; cases h; exact .enter rfl
      next => cases h; exact .none _ rfl rfl trivial
  | acquireLoad ticket =>
      simp only [access] at h
      split at h
      next heq => subst heq; cases h; exact .enter rfl
      next => cases h; exact .none _ rfl rfl trivial
  | tryLoad =>
      cases h
      exact .none _ rfl rfl ho
  | tryExchange prev =>
      simp only [access] at h
      split at h
      next heq =>
        -- The exchange succeeds on a word without waiting threads only.
        have hk := (Ticket.toU64_eq_cmp ho hok).mp heq
        have hprev : sh.ticket.owner = prev := by rw [hk]
        have hnext : sh.ticket.next = sh.ticket.owner := by rw [hk]
        subst hprev
        rw [Ticket.ofU64_new ho] at h
        cases h
        exact .tryEnter rfl hnext
      next => cases h; exact .none _ rfl rfl trivial
  | dropAdd =>
      cases h
      exact .leave rfl hok

end Step

/-! ## The invariant -/

section Invariant

variable {T : Type} [Fintype T] {s : Sys T (Shared T) Thread} {q : List T}

/-- The threads of `q` wait, in this order, for the tickets behind those of the guards. -/
structure Inv (s : Sys T (Shared T) Thread) (q : List T) : Prop where
  ok : ∀ t, (s.threads t).Ok
  owner_lt : s.shared.ticket.owner < 2 ^ 32
  guards_le : guards s ≤ 1
  held : ∀ t, ∀ k ∈ (s.threads t).held, k = s.shared.ticket.owner
  next : s.shared.ticket.next = (s.shared.ticket.owner + guards s + q.length) % 2 ^ 32
  nodup : q.Nodup
  waits : ∀ i t, q[i]? = some t →
    (s.threads t).waiting = some ((s.shared.ticket.owner + guards s + i) % 2 ^ 32)
  mem : ∀ t, (s.threads t).waiting ≠ none → t ∈ q
  history : s.shared.drawn = s.shared.acquired ++ q

theorem guards_new : guards (new T) = 0 := Finset.sum_const_zero

theorem new_inv : Inv (new T) [] where
  ok _ := trivial
  owner_lt := Nat.two_pow_pos 32
  guards_le := by rw [guards_new]; exact Nat.zero_le 1
  held _ _ hk := absurd hk List.not_mem_nil
  next := by rw [guards_new]; rfl
  nodup := List.nodup_nil
  waits _ _ h := by cases h
  mem _ h := absurd rfl h
  history := rfl

/-- The tickets that are out are those of the guards and of the queue. -/
theorem Inv.outstanding_eq [DecidableEq T] (h : Inv s q) : outstanding s = guards s + q.length := by
  have hsplit : outstanding s = ∑ t, (s.threads t).waiting.toList.length + guards s := by
    unfold outstanding guards Sys.total
    rw [← Finset.sum_add_distrib]
    exact Finset.sum_congr rfl fun t _ => List.length_append
  -- A thread waits with one ticket or with none, and the queue has those that wait.
  have hone : ∀ t, (s.threads t).waiting.toList.length = if t ∈ q then 1 else 0 := by
    intro t
    split
    next hmem =>
      obtain ⟨i, hi⟩ := List.mem_iff_getElem?.mp hmem
      rw [h.waits i t hi]
      rfl
    next hmem =>
      have hnone : (s.threads t).waiting = none := by
        by_contra hw
        exact hmem (h.mem t hw)
      rw [hnone]
      rfl
  have hcard : ∑ t, (s.threads t).waiting.toList.length = q.length := by
    rw [Finset.sum_congr rfl fun t _ => hone t, ← Finset.card_filter,
      ← List.toFinset_card_of_nodup h.nodup]
    exact congrArg (fun f : Finset T => f.card) (by ext t; simp)
  omega

variable [DecidableEq T] {t : T} {p : Shared T × Thread}

/-- A thread that waits for the ticket being served is the first of the queue, and no guard
    is out. -/
theorem Inv.head (h : Inv s q) (hfew : FewThreads s)
    (hw : (s.threads t).waiting = some s.shared.ticket.owner) :
    guards s = 0 ∧ ∃ q', q = t :: q' := by
  obtain ⟨i, hi⟩ := List.mem_iff_getElem?.mp (h.mem t (by rw [hw]; exact Option.some_ne_none _))
  have hlt : i < q.length := (List.getElem?_eq_some_iff.mp hi).1
  have hticket := Option.some.inj (hw.symm.trans (h.waits i t hi))
  have hcount := h.outstanding_eq
  have howner := h.owner_lt
  have hfew' : outstanding s < 2 ^ 32 := hfew
  obtain ⟨hg, rfl⟩ : guards s = 0 ∧ i = 0 := by omega
  refine ⟨hg, ?_⟩
  cases q with
  | nil => cases hi
  | cons u q' => exact ⟨q', by rw [show u = t from Option.some.inj hi]⟩

theorem Inv.none_set {th' : Thread} (h : Inv s q) (hw : th'.waiting = (s.threads t).waiting)
    (hheld : th'.held = (s.threads t).held) (hok : th'.Ok) : Inv (s.set t (s.shared, th')) q := by
  have hwait := Sys.map_set (f := Thread.waiting) (s := s) (p := (s.shared, th')) hw
  have hhold := Sys.map_set (f := Thread.held) (s := s) (p := (s.shared, th')) hheld
  have hguards : guards (s.set t (s.shared, th')) = guards s :=
    Sys.total_set_of_eq (congrArg List.length hheld)
  exact {
    ok := Sys.forall_set h.ok hok
    owner_lt := h.owner_lt
    guards_le := by rw [hguards]; exact h.guards_le
    held := fun u k hk => h.held u k (hhold u ▸ hk)
    next := by rw [hguards]; exact h.next
    nodup := h.nodup
    waits := fun i u hi => by rw [hguards, hwait]; exact h.waits i u hi
    mem := fun u hu => h.mem u (hwait u ▸ hu)
    history := h.history }

/-- A thread that draws a ticket goes to the end of the queue. -/
theorem Inv.draw_set {th' : Thread} (h : Inv s q) (hfree : (s.threads t).waiting = none)
    (hw : th'.waiting = some s.shared.ticket.next) (hheld : th'.held = (s.threads t).held)
    (hok : th'.Ok) :
    Inv (s.set t ({ s.shared with
      ticket := { s.shared.ticket with next := fetchAdd s.shared.ticket.next 1 }
      drawn := s.shared.drawn ++ [t] }, th')) (q ++ [t]) := by
  have hnot : t ∉ q := by
    intro hmem
    obtain ⟨i, hi⟩ := List.mem_iff_getElem?.mp hmem
    rw [h.waits i t hi] at hfree
    cases hfree
  let p : Shared T × Thread := ({ s.shared with
      ticket := { s.shared.ticket with next := fetchAdd s.shared.ticket.next 1 }
      drawn := s.shared.drawn ++ [t] }, th')
  have hhold := Sys.map_set (f := Thread.held) (s := s) (p := p) hheld
  have hguards : guards (s.set t p) = guards s :=
    Sys.total_set_of_eq (congrArg List.length hheld)
  have hnext := h.next
  exact {
    ok := Sys.forall_set h.ok hok
    owner_lt := h.owner_lt
    guards_le := by rw [hguards]; exact h.guards_le
    held := fun u k hk => h.held u k (hhold u ▸ hk)
    next := by
      rw [hguards, List.length_append, List.length_singleton]
      show fetchAdd s.shared.ticket.next 1 = _
      rw [hnext, fetchAdd]
      show _ = (s.shared.ticket.owner + guards s + (q.length + 1)) % 2 ^ 32
      omega
    nodup := by
      rw [List.nodup_append_comm, List.singleton_append, List.nodup_cons]
      exact ⟨hnot, h.nodup⟩
    waits := fun i u hi => by
      rw [hguards]
      rcases Nat.lt_or_ge i q.length with hlt | hge
      · rw [List.getElem?_append_left hlt] at hi
        have hne : u ≠ t := fun heq => hnot (heq ▸ List.mem_of_getElem? hi)
        rw [Sys.set_threads_of_ne s hne]
        exact h.waits i u hi
      · obtain ⟨rfl, rfl⟩ : i = q.length ∧ u = t := by
          rw [List.getElem?_append_right hge, List.getElem?_singleton] at hi
          split at hi
          next hzero => exact ⟨by omega, (Option.some.inj hi).symm⟩
          next => cases hi
        rw [Sys.set_threads_self, hw, hnext]
        rfl
    mem := fun u hu => by
      by_cases hut : u = t
      · exact hut ▸ List.mem_append_right q List.mem_cons_self
      · rw [Sys.set_threads_of_ne s hut] at hu
        exact List.mem_append_left _ (h.mem u hu)
    history := by
      show s.shared.drawn ++ [t] = _
      rw [h.history, List.append_assoc]
      rfl }

/-- A thread that enters takes the ticket of the owner. -/
theorem Inv.held_push (h : Inv s q) {p : Shared T × Thread}
    (hp : p.2.held = s.shared.ticket.owner :: (s.threads t).held) (u : T) (k : Nat)
    (hk : k ∈ ((s.set t p).threads u).held) : k = s.shared.ticket.owner := by
  by_cases hut : u = t
  · subst hut
    rw [Sys.set_threads_self, hp] at hk
    obtain rfl | hk := List.mem_cons.mp hk
    · rfl
    · exact h.held u k hk
  · rw [Sys.set_threads_of_ne s hut] at hk
    exact h.held u k hk

theorem guards_push {p : Shared T × Thread} {k : Nat} (hzero : guards s = 0)
    (hp : p.2.held = k :: (s.threads t).held) : guards (s.set t p) = 1 := by
  have hset := Sys.total_set (fun th : Thread => th.held.length) s t p
  have hone : p.2.held.length = (s.threads t).held.length + 1 := by
    rw [hp]
    rfl
  unfold guards at hzero ⊢
  omega

/-- The first of the queue gets the lock when its ticket is served. -/
theorem Inv.enter_set (h : Inv s q) (hfew : FewThreads s)
    (hw : (s.threads t).waiting = some s.shared.ticket.owner) :
    ∃ q', Inv (s.set t (enter t s.shared.ticket.owner s.shared (s.threads t))) q' := by
  -- The ticket served is that of the head of the queue.
  obtain ⟨hzero, q', rfl⟩ := h.head hfew hw
  obtain ⟨hnot, hnodup⟩ := List.nodup_cons.mp h.nodup
  let p := enter t s.shared.ticket.owner s.shared (s.threads t)
  have hguards : guards (s.set t p) = 1 := guards_push hzero rfl
  have hnext := h.next
  refine ⟨q', ?_⟩
  exact {
    ok := Sys.forall_set h.ok trivial
    owner_lt := h.owner_lt
    guards_le := Nat.le_of_eq hguards
    held := h.held_push rfl
    next := by
      rw [hguards]
      show s.shared.ticket.next = (s.shared.ticket.owner + 1 + q'.length) % 2 ^ 32
      rw [hnext, hzero, List.length_cons]
      omega
    nodup := hnodup
    waits := fun i u hi => by
      have hne : u ≠ t := fun heq => hnot (heq ▸ List.mem_of_getElem? hi)
      have hold := h.waits (i + 1) u hi
      rw [Sys.set_threads_of_ne s hne, hguards, hold, hzero]
      show some _ = some ((s.shared.ticket.owner + 1 + i) % 2 ^ 32)
      rw [show s.shared.ticket.owner + 0 + (i + 1) = s.shared.ticket.owner + 1 + i by omega]
    mem := fun u hu => by
      by_cases hut : u = t
      · subst hut
        rw [Sys.set_threads_self] at hu
        exact absurd rfl hu
      · rw [Sys.set_threads_of_ne s hut] at hu
        exact (List.mem_cons.mp (h.mem u hu)).resolve_left hut
    history := by
      show s.shared.drawn = (s.shared.acquired ++ [t]) ++ q'
      rw [h.history, List.append_assoc]
      rfl }

/-- `try_lock` gets the lock when nobody holds it or waits for it. -/
theorem Inv.tryEnter_set (h : Inv s q) (hfew : FewThreads s)
    (hfree : s.shared.ticket.next = s.shared.ticket.owner) :
    Inv (s.set t (⟨⟨s.shared.ticket.owner, fetchAdd s.shared.ticket.owner 1⟩,
      s.shared.drawn ++ [t], s.shared.acquired ++ [t]⟩,
      ⟨.idle, s.shared.ticket.owner :: (s.threads t).held⟩)) [] := by
  have hcount := h.outstanding_eq
  have hnext := h.next
  have howner := h.owner_lt
  have hfew' : outstanding s < 2 ^ 32 := hfew
  -- Below 2^32 tickets, an equal `next` and `owner` mean that none is out.
  obtain ⟨hzero, hlen⟩ : guards s = 0 ∧ q.length = 0 := by omega
  obtain rfl : q = [] := List.length_eq_zero_iff.mp hlen
  let p : Shared T × Thread := (⟨⟨s.shared.ticket.owner, fetchAdd s.shared.ticket.owner 1⟩,
      s.shared.drawn ++ [t], s.shared.acquired ++ [t]⟩,
      ⟨.idle, s.shared.ticket.owner :: (s.threads t).held⟩)
  have hguards : guards (s.set t p) = 1 := guards_push hzero rfl
  exact {
    ok := Sys.forall_set h.ok trivial
    owner_lt := howner
    guards_le := Nat.le_of_eq hguards
    held := h.held_push rfl
    next := by
      rw [hguards]
      rfl
    nodup := List.nodup_nil
    waits := fun i u hi => by cases hi
    mem := fun u hu => by
      by_cases hut : u = t
      · subst hut
        rw [Sys.set_threads_self] at hu
        exact absurd rfl hu
      · rw [Sys.set_threads_of_ne s hut] at hu
        exact h.mem u hu
    history := by
      show s.shared.drawn ++ [t] = (s.shared.acquired ++ [t]) ++ []
      rw [h.history, List.append_nil, List.append_nil] }

/-- The guard is given up, and the ticket of the first of the queue is served. -/
theorem Inv.leave_set (h : Inv s q) (hw : (s.threads t).waiting = none)
    (hheld : (s.threads t).held ≠ []) :
    Inv (s.set t ({ s.shared with
        ticket := { s.shared.ticket with owner := fetchAdd s.shared.ticket.owner 1 } },
      ⟨.idle, (s.threads t).held.tail⟩)) q := by
  let p : Shared T × Thread := ({ s.shared with
        ticket := { s.shared.ticket with owner := fetchAdd s.shared.ticket.owner 1 } },
      ⟨.idle, (s.threads t).held.tail⟩)
  have hwait := Sys.map_set (f := Thread.waiting) (s := s) (p := p) hw.symm
  have hpos : 0 < (s.threads t).held.length := List.length_pos_iff.mpr hheld
  have hle : (s.threads t).held.length ≤ guards s :=
    Sys.le_total (fun th : Thread => th.held.length) s t
  have hone := h.guards_le
  -- The guard that is dropped was the only one.
  have hguards : guards (s.set t p) = 0 := by
    have hset := Sys.total_set (fun th : Thread => th.held.length) s t p
    have htail : p.2.held.length = (s.threads t).held.length - 1 := List.length_tail
    unfold guards at hle hone ⊢
    omega
  have hnext := h.next
  have hold : guards s = 1 := by omega
  exact {
    ok := Sys.forall_set h.ok trivial
    owner_lt := Nat.mod_lt _ (by decide)
    guards_le := by rw [hguards]; exact Nat.zero_le 1
    held := fun u k hk => by
      have hnone := Sys.le_total (fun th : Thread => th.held.length) (s.set t p) u
      have hmem : 0 < ((s.set t p).threads u).held.length := List.length_pos_of_mem hk
      unfold guards at hguards
      omega
    next := by
      rw [hguards]
      show s.shared.ticket.next = (fetchAdd s.shared.ticket.owner 1 + 0 + q.length) % 2 ^ 32
      rw [hnext, hold, fetchAdd]
      omega
    nodup := h.nodup
    waits := fun i u hi => by
      rw [hguards, hwait, h.waits i u hi, hold]
      show some _ = some ((fetchAdd s.shared.ticket.owner 1 + 0 + i) % 2 ^ 32)
      rw [fetchAdd]
      congr 1
      omega
    mem := fun u hu => h.mem u (hwait u ▸ hu)
    history := h.history }

/-- Every step of a thread keeps the invariant, with the queue that it leaves. -/
theorem step_inv {s' : Sys T (Shared T) Thread} {x : T × Option Call} (h : Inv s q)
    (hfew : FewThreads s) (hstep : Sys.Step act s x s') : ∃ q', Inv s' q' := by
  obtain ⟨p, hact, rfl⟩ := hstep.act
  have he : Effect x.1 s.shared (s.threads x.1) p := by
    unfold act at hact
    split at hact
    next c hc =>
      obtain ⟨th', hcall, rfl⟩ := Option.map_eq_some_iff.mp hact
      exact Thread.call_effect hcall
    next => exact access_effect h.owner_lt (h.ok x.1) hact
  cases he with
  | none th' hw hheld hok => exact ⟨q, h.none_set hw hheld hok⟩
  | draw th' hfree hw hheld hok => exact ⟨_, h.draw_set hfree hw hheld hok⟩
  | enter hw => exact h.enter_set hfew hw
  | tryEnter hfree hnext => exact ⟨[], h.tryEnter_set hfew hnext⟩
  | leave hfree hheld => exact ⟨q, h.leave_set hfree hheld⟩

/-! ## What the invariant says -/

theorem mem_tickets {th : Thread} {k : Nat} :
    k ∈ th.tickets ↔ th.waiting = some k ∨ k ∈ th.held := by
  rw [Thread.tickets, List.mem_append, Option.mem_toList]

omit [DecidableEq T] in
theorem Inv.waiting_eq {k : Nat} (h : Inv s q) (hw : (s.threads t).waiting = some k) :
    ∃ i < q.length, q[i]? = some t ∧ k = (s.shared.ticket.owner + guards s + i) % 2 ^ 32 := by
  obtain ⟨i, hi⟩ := List.mem_iff_getElem?.mp (h.mem t (by rw [hw]; exact Option.some_ne_none k))
  exact ⟨i, (List.getElem?_eq_some_iff.mp hi).1, hi,
    Option.some.inj (hw.symm.trans (h.waits i t hi))⟩

omit [DecidableEq T] in
theorem Inv.held_eq (h : Inv s q) (hheld : (s.threads t).held ≠ []) :
    (s.threads t).held = [s.shared.ticket.owner] ∧ guards s = 1 := by
  have hle : (s.threads t).held.length ≤ guards s :=
    Sys.le_total (fun th : Thread => th.held.length) s t
  have hone := h.guards_le
  match hcons : (s.threads t).held with
  | [] => exact absurd hcons hheld
  | [k] =>
      rw [hcons, List.length_singleton] at hle
      exact ⟨by rw [h.held t k (hcons ▸ List.mem_cons_self)], by omega⟩
  | _ :: _ :: _ =>
      rw [hcons, List.length_cons, List.length_cons] at hle
      omega

/-- A waiting thread's ticket is not the one of the guard. -/
theorem Inv.waiting_ne_held {u : T} {k : Nat} (h : Inv s q) (hfew : FewThreads s)
    (hw : (s.threads t).waiting = some k) (hk : k ∈ (s.threads u).held) : False := by
  obtain ⟨i, hi, -, hticket⟩ := h.waiting_eq hw
  obtain ⟨-, hone⟩ := h.held_eq (List.ne_nil_of_mem hk)
  have howner := h.held u k hk
  have hlt := h.owner_lt
  have hcount := h.outstanding_eq
  have hfew' : outstanding s < 2 ^ 32 := hfew
  omega

theorem Inv.safe (h : Inv s q) (hfew : FewThreads s) : Safe s := by
  have hcount := h.outstanding_eq
  have hfew' : outstanding s < 2 ^ 32 := hfew
  refine ⟨h.guards_le, ?_, fun t => ?_, fun t u hne k hk hk' => ?_, ?_⟩
  · have hnext := h.next
    have howner := h.owner_lt
    omega
  · refine List.Nodup.append ?_ ?_ fun k hk hk' => ?_
    · cases (s.threads t).waiting <;> simp
    · by_cases hheld : (s.threads t).held = []
      · rw [hheld]
        exact List.nodup_nil
      · rw [(h.held_eq hheld).1]
        exact List.nodup_singleton _
    · exact h.waiting_ne_held hfew (Option.mem_toList.mp hk) hk'
  · obtain hw | hheld := mem_tickets.mp hk <;> obtain hw' | hheld' := mem_tickets.mp hk'
    · obtain ⟨i, hi, hit, hti⟩ := h.waiting_eq hw
      obtain ⟨j, hj, hju, htj⟩ := h.waiting_eq hw'
      have hij : i = j := by omega
      subst hij
      exact hne (Option.some.inj (hit.symm.trans hju))
    · exact h.waiting_ne_held hfew hw hheld'
    · exact h.waiting_ne_held hfew hw' hheld
    · -- Two threads cannot both hold a guard.
      have hpair := Sys.add_le_total (fun th : Thread => th.held.length) s hne
      have hpos := List.length_pos_of_mem hheld
      have hpos' := List.length_pos_of_mem hheld'
      have hone := h.guards_le
      unfold guards at hone
      omega
  · rw [h.history]
    exact List.prefix_append _ _

/-- Exclusion and order in every state of every run, across the wrap of the counters. -/
theorem safe_of_run (hrun : Runs.Run (Sys.Step act) (fun s _ => FewThreads s) (new T) s)
    (hfew : FewThreads s) : Safe s := by
  have hinv : ∃ q, Inv s q :=
    hrun.invariant (I := fun s => ∃ q, Inv s q)
      (fun _ _ _ ⟨_, hinv⟩ hfew hstep => step_inv hinv hfew hstep) ⟨[], new_inv⟩
  obtain ⟨q, hq⟩ := hinv
  exact hq.safe hfew

end Invariant

/-- One of two threads takes the lock, the other one draws a ticket and waits, and gets the
    lock when the first one gives it up. -/
theorem safe_of_run_handover :
    ∃ s, Runs.Run (Sys.Step act) (fun s _ => FewThreads s) (new Bool) s ∧
      s.shared.acquired = [true, false] ∧ Safe s := by
  let step := Sys.Step (T := Bool) act
  let guard := fun (s : Sys Bool (Shared Bool) Thread) (_ : Bool × Option Call) => FewThreads s
  have h1 : Runs.Run step guard (new Bool) _ :=
    .single (a := (true, some .tryLock)) (by decide : FewThreads (new Bool)) rfl
  have h2 : Runs.Run step guard (new Bool) _ :=
    .tail (a := (true, none)) h1 (by decide : FewThreads _) rfl
  have h3 : Runs.Run step guard (new Bool) _ :=
    .tail (a := (true, none)) h2 (by decide : FewThreads _) rfl
  have h4 : Runs.Run step guard (new Bool) _ :=
    .tail (a := (false, some .lock)) h3 (by decide : FewThreads _) rfl
  have h5 : Runs.Run step guard (new Bool) _ :=
    .tail (a := (false, none)) h4 (by decide : FewThreads _) rfl
  have h6 : Runs.Run step guard (new Bool) _ :=
    .tail (a := (true, some .drop)) h5 (by decide : FewThreads _) rfl
  have h7 : Runs.Run step guard (new Bool) _ :=
    .tail (a := (true, none)) h6 (by decide : FewThreads _) rfl
  have h8 : Runs.Run step guard (new Bool) _ :=
    .tail (a := (false, none)) h7 (by decide : FewThreads _) rfl
  exact ⟨_, h8, by decide, safe_of_run h8 (by decide : FewThreads _)⟩

end RustExt4.TicketLock
