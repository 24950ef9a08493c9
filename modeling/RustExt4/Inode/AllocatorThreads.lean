/-
  RustExt4.Inode.AllocatorThreads

  `get_free_ino` of any number of threads on the bitmap of one group, one atomic
  access at a time, among the `fetch_and` of committed deallocations.  A number
  belongs to the caller that got it, and then to the deallocation that its owner
  has asked for, until its bit is cleared.
-/
import RustExt4.Inode.AllocatorRuns
import RustExt4.Lib.Interleave

namespace RustExt4.Inode.Threads

open Transaction (bitAt setBit clearBit)
open Interleave (Sys)

/-! ## The operations -/

/-- Where a thread is within `get_free_ino`. -/
inductive Pc
  | idle
  | load (group : Nat)
  | fetchOr (group pos : Nat)
  | panicked
  deriving DecidableEq, Repr

/-- A thread, what its last call returned, and the numbers it has got and not given
    back. -/
structure Thread where
  pc : Pc := .idle
  result : Option Nat := none
  held : List Nat := []
  deriving DecidableEq, Repr

/-- The group's bitmap, and the numbers whose deallocation has not been applied. -/
structure Shared where
  bitmap : Bytes
  finished : List Nat := []
  deriving DecidableEq, Repr

inductive Call
  | getFreeIno
  | tryAllocateAt (ofs : Nat)
  | finish (ofs : Nat)
  | applyDeallocationOnCore (ofs : Nat)
  deriving DecidableEq, Repr

namespace Thread

/-- The loop of `get_free_ino` from byte `group` on. -/
def scan (th : Thread) (bitmap : Bytes) (group : Nat) : Thread :=
  if group < bitmap.length then { th with pc := .load group }
  else { th with pc := .idle, result := none }

/-- A `fetch_or` of one bit: whoever finds it clear has got the number. -/
def take (th : Thread) (bitmap : Bytes) (ofs : Nat) (retry : Pc) : Thread :=
  if bitAt bitmap ofs then { th with pc := retry, result := none }
  else { pc := .idle, result := some ofs, held := ofs :: th.held }

/-- A call of a thread that is not within another one.  `try_allocate_at` and
    `apply_deallocation_on_core` access the bitmap once; the latter takes a number whose
    owner has finished with it, and asserts that its bit is set. -/
def call (th : Thread) (sh : Shared) : Call → Option (Shared × Thread)
  | .getFreeIno => if th.pc = .idle then some (sh, th.scan sh.bitmap 0) else none
  | .tryAllocateAt ofs =>
    if th.pc = .idle ∧ ofs / 8 < sh.bitmap.length then
      some ({ sh with bitmap := setBit sh.bitmap ofs }, th.take sh.bitmap ofs .idle)
    else none
  | .finish ofs =>
    if th.pc = .idle ∧ ofs ∈ th.held then
      some ({ sh with finished := ofs :: sh.finished }, { th with held := th.held.erase ofs })
    else none
  | .applyDeallocationOnCore ofs =>
    if th.pc = .idle ∧ ofs ∈ sh.finished then
      some (⟨clearBit sh.bitmap ofs, sh.finished.erase ofs⟩,
        if bitAt sh.bitmap ofs then th else { th with pc := .panicked })
    else none

/-- The next atomic access of a thread within `get_free_ino`. -/
def access (th : Thread) (sh : Shared) : Option (Shared × Thread) :=
  match th.pc with
  | .idle => none
  | .panicked => none
  | .load group =>
    match sh.bitmap[group]? with
    | none => some (sh, { th with pc := .panicked })
    | some bits =>
      if bits.toNat ^^^ 255 ≠ 0 then
        some (sh, { th with pc := .fetchOr group (clearPos bits.toNat) })
      else some (sh, th.scan sh.bitmap (group + 1))
  | .fetchOr group pos =>
    some ({ sh with bitmap := setBit sh.bitmap (group * 8 + pos) },
      th.take sh.bitmap (group * 8 + pos) (.load group))

/-- The thread has come back from its call with `r`. -/
def Returned (th : Thread) (r : Option Nat) : Prop := th.pc = .idle ∧ th.result = r

end Thread

/-- A step of a thread: a call, or the next access of the call it is in. -/
def act {T : Type} (_ : T) (c : Option Call) (sh : Shared) (th : Thread) :
    Option (Shared × Thread) :=
  match c with
  | some c => th.call sh c
  | none => th.access sh

/-! ## One access -/

/-- What an access within `get_free_ino` can be: a load of a byte with a clear bit or of a
    full one, in the middle of the bitmap or at its end, or a `fetch_or` that comes late or
    gets the number. -/
inductive Access (th : Thread) (sh : Shared) : Shared × Thread → Prop
  | outside (group : Nat) (hpc : th.pc = .load group) (h : sh.bitmap.length ≤ group) :
      Access th sh (sh, { th with pc := .panicked })
  | found (group pos : Nat) (hpc : th.pc = .load group) (hpos : pos < 8) :
      Access th sh (sh, { th with pc := .fetchOr group pos })
  | next (group : Nat) (hpc : th.pc = .load group)
      (hfull : LeBytes.byteAt sh.bitmap group = 255) (h : group + 1 < sh.bitmap.length) :
      Access th sh (sh, { th with pc := .load (group + 1) })
  | done (group : Nat) (hpc : th.pc = .load group)
      (hfull : LeBytes.byteAt sh.bitmap group = 255) (h : sh.bitmap.length ≤ group + 1) :
      Access th sh (sh, { th with pc := .idle, result := none })
  | late (group pos : Nat) (hpc : th.pc = .fetchOr group pos) :
      Access th sh ({ sh with bitmap := setBit sh.bitmap (group * 8 + pos) },
        { th with pc := .load group, result := none })
  | got (group pos : Nat) (hpc : th.pc = .fetchOr group pos)
      (hclear : bitAt sh.bitmap (group * 8 + pos) = false) :
      Access th sh ({ sh with bitmap := setBit sh.bitmap (group * 8 + pos) },
        ⟨.idle, some (group * 8 + pos), (group * 8 + pos) :: th.held⟩)

theorem Thread.access_cases {th : Thread} {sh : Shared} {p : Shared × Thread}
    (h : th.access sh = some p) : Access th sh p := by
  rw [access] at h
  split at h
  next => cases h
  next => cases h
  next group hpc =>
    split at h
    next hnone =>
      cases h
      exact .outside group hpc (List.getElem?_eq_none_iff.mp hnone)
    next bits hbits =>
      have hbyte : LeBytes.byteAt sh.bitmap group = bits.toNat := by
        rw [LeBytes.byteAt, List.getD, hbits]
        rfl
      split at h
      next hne =>
        cases h
        exact .found group _ hpc (clearPos_spec ⟨bits.toNat, bits.toNat_lt⟩ hne).1
      next hfull =>
        have h255 : LeBytes.byteAt sh.bitmap group = 255 :=
          hbyte.trans (eq_255_of_xor ⟨bits.toNat, bits.toNat_lt⟩ (not_not.mp hfull))
        rw [scan] at h
        split at h
        next hlt => cases h; exact .next group hpc h255 hlt
        next hend => cases h; exact .done group hpc h255 (Nat.le_of_not_lt hend)
  next group pos hpc =>
    rw [take] at h
    split at h
    next => cases h; exact .late group pos hpc
    next hbit => cases h; exact .got group pos hpc (Bool.eq_false_iff.mpr hbit)

/-! ## Who has a number -/

/-- Nobody has a number twice or together with another one, and its bit is set. -/
structure Owned {O : Type} (bitmap : Bytes) (own : O → List Nat) : Prop where
  nodup : ∀ o, (own o).Nodup
  unique : ∀ o o' k, k ∈ own o → k ∈ own o' → o = o'
  taken : ∀ o, ∀ k ∈ own o, k < 8 * bitmap.length ∧ bitAt bitmap k = true

namespace Owned

variable {O : Type} {bitmap : Bytes} {own : O → List Nat} {o o' : O} {k : Nat}

theorem bitAt_setBit (hk : k < 8 * bitmap.length) (q : Nat) :
    bitAt (setBit bitmap k) q = if q = k then true else bitAt bitmap q :=
  (Transaction.setBit_forces bitmap k).2 hk q

theorem bitAt_clearBit (hk : k < 8 * bitmap.length) (q : Nat) :
    bitAt (clearBit bitmap k) q = if q = k then false else bitAt bitmap q :=
  (Transaction.clearBit_forces bitmap k).2 hk q

theorem length_setBit : (setBit bitmap k).length = bitmap.length :=
  (Transaction.setBit_forces bitmap k).1

theorem length_clearBit : (clearBit bitmap k).length = bitmap.length :=
  (Transaction.clearBit_forces bitmap k).1

/-- A bit that is set once more takes no number from anybody. -/
theorem set (h : Owned bitmap own) (hk : k < 8 * bitmap.length) : Owned (setBit bitmap k) own := by
  refine ⟨h.nodup, h.unique, fun o q hq => ?_⟩
  obtain ⟨hlt, hbit⟩ := h.taken o q hq
  rw [length_setBit, bitAt_setBit hk, hbit]
  exact ⟨hlt, ite_self true⟩

/-- The bit of a number that is nobody's may be cleared. -/
theorem clear (h : Owned bitmap own) (hnot : ∀ o, k ∉ own o) (hk : k < 8 * bitmap.length) :
    Owned (clearBit bitmap k) own := by
  refine ⟨h.nodup, h.unique, fun o q hq => ?_⟩
  obtain ⟨hlt, hbit⟩ := h.taken o q hq
  have hne : q ≠ k := fun heq => hnot o (heq ▸ hq)
  rw [length_clearBit, bitAt_clearBit hk, if_neg hne]
  exact ⟨hlt, hbit⟩

variable [DecidableEq O]

/-- A number that is nobody's and has its bit set can be given to anybody. -/
theorem give (h : Owned bitmap own) (hnot : ∀ u, k ∉ own u)
    (hk : k < 8 * bitmap.length ∧ bitAt bitmap k = true) :
    Owned bitmap (Function.update own o (k :: own o)) := by
  have hmem : ∀ u q, q ∈ Function.update own o (k :: own o) u → q = k ∧ u = o ∨ q ∈ own u := by
    intro u q hq
    by_cases huo : u = o
    · subst huo
      rw [Function.update_self] at hq
      exact (List.mem_cons.mp hq).imp_left fun heq => ⟨heq, rfl⟩
    · rw [Function.update_of_ne huo] at hq
      exact Or.inr hq
  refine ⟨fun u => ?_, fun u v q hu hv => ?_, fun u q hq => ?_⟩
  · by_cases huo : u = o
    · subst huo
      rw [Function.update_self]
      exact List.nodup_cons.mpr ⟨hnot u, h.nodup u⟩
    · rw [Function.update_of_ne huo]
      exact h.nodup u
  · obtain ⟨hqk, huo⟩ | hu' := hmem u q hu <;> obtain ⟨hqk', hvo⟩ | hv' := hmem v q hv
    · rw [huo, hvo]
    · exact absurd (hqk ▸ hv') (hnot v)
    · exact absurd (hqk' ▸ hu') (hnot u)
    · exact h.unique u v q hu' hv'
  · obtain ⟨rfl, -⟩ | hq := hmem u q hq
    · exact hk
    · exact h.taken u q hq

/-- A clear bit is nobody's number, so the one who sets it can have it. -/
theorem gain (h : Owned bitmap own) (hk : k < 8 * bitmap.length) (hclear : bitAt bitmap k = false) :
    Owned (setBit bitmap k) (Function.update own o (k :: own o)) := by
  have hfree : ∀ o, k ∉ own o := fun o hmem => by
    rw [(h.taken o k hmem).2] at hclear
    cases hclear
  exact (h.set hk).give hfree (by rw [length_setBit, bitAt_setBit hk, if_pos rfl]; exact ⟨hk, rfl⟩)

/-- A number that its owner gives up is nobody's. -/
theorem drop (h : Owned bitmap own) (hk : k ∈ own o) :
    Owned bitmap (Function.update own o ((own o).erase k)) ∧
      ∀ u, k ∉ Function.update own o ((own o).erase k) u := by
  have hsub : ∀ u q, q ∈ Function.update own o ((own o).erase k) u → q ∈ own u := by
    intro u q hq
    by_cases huo : u = o
    · subst huo
      rw [Function.update_self] at hq
      exact List.mem_of_mem_erase hq
    · rwa [Function.update_of_ne huo] at hq
  refine ⟨⟨fun u => ?_, fun u v q hu hv => h.unique u v q (hsub u q hu) (hsub v q hv),
    fun u q hq => h.taken u q (hsub u q hq)⟩, fun u hmem => ?_⟩
  · by_cases huo : u = o
    · subst huo
      rw [Function.update_self]
      exact (h.nodup u).erase k
    · rw [Function.update_of_ne huo]
      exact h.nodup u
  · obtain rfl : u = o := h.unique u o k (hsub u k hmem) hk
    rw [Function.update_self] at hmem
    exact ((h.nodup u).mem_erase_iff.mp hmem).1 rfl

end Owned

/-! ## The invariant -/

section Invariant

variable {T : Type} {s s' : Sys T Shared Thread} {len : Nat}

/-- The numbers of each thread, and under `none` those of the deallocations. -/
def own (s : Sys T Shared Thread) : Option T → List Nat
  | some t => (s.threads t).held
  | none => s.shared.finished

/-- A thread is within the bitmap, and no assertion has failed. -/
def Thread.Ok (len : Nat) (th : Thread) : Prop :=
  match th.pc with
  | .idle => True
  | .load group => group < len
  | .fetchOr group pos => group < len ∧ pos < 8
  | .panicked => False

structure Inv (len : Nat) (s : Sys T Shared Thread) : Prop where
  length : s.shared.bitmap.length = len
  owned : Owned s.shared.bitmap (own s)
  ok : ∀ t, (s.threads t).Ok len

variable [DecidableEq T] {t : T} {p : Shared × Thread}

theorem own_set (s : Sys T Shared Thread) (t : T) (p : Shared × Thread) :
    own (s.set t p) =
      Function.update (Function.update (own s) none p.1.finished) (some t) p.2.held := by
  funext o
  cases o with
  | none => rw [Function.update_of_ne (by simp), Function.update_self]; rfl
  | some u =>
      by_cases hut : u = t
      · subst hut
        rw [Function.update_self, own, Sys.set_threads_self]
      · rw [Function.update_of_ne (by simpa using hut), Function.update_of_ne (by simp), own,
          Sys.set_threads_of_ne s hut]
        rfl

/-- Who has what changes for one thread only. -/
theorem own_set_of_finished (h : p.1.finished = s.shared.finished) :
    own (s.set t p) = Function.update (own s) (some t) p.2.held := by
  rw [own_set, h, show s.shared.finished = own s none from rfl, Function.update_eq_self]

theorem own_set_of_held (h : p.2.held = (s.threads t).held) :
    own (s.set t p) = Function.update (own s) none p.1.finished := by
  rw [own_set, h, Function.update_comm (by simp), show (s.threads t).held = own s (some t) from rfl,
    Function.update_eq_self]

theorem own_set_of_eq (h : p.1.finished = s.shared.finished)
    (h' : p.2.held = (s.threads t).held) : own (s.set t p) = own s := by
  rw [own_set_of_finished h, h', show (s.threads t).held = own s (some t) from rfl,
    Function.update_eq_self]

theorem Thread.scan_ok (th : Thread) {bitmap : Bytes} (hlen : bitmap.length = len) (group : Nat) :
    (th.scan bitmap group).Ok len ∧ (th.scan bitmap group).held = th.held := by
  unfold Thread.scan
  split
  next h => exact ⟨hlen ▸ h, rfl⟩
  next => exact ⟨trivial, rfl⟩

/-- A `fetch_or` by thread `t` that gets the number. -/
theorem Inv.got_set (h : Inv len s) {ofs : Nat} (hofs : ofs < 8 * len)
    (hclear : bitAt s.shared.bitmap ofs = false) :
    Inv len (s.set t ({ s.shared with bitmap := setBit s.shared.bitmap ofs },
      ⟨.idle, some ofs, ofs :: (s.threads t).held⟩)) := by
  refine ⟨Owned.length_setBit.trans h.length, ?_, Sys.forall_set h.ok trivial⟩
  rw [own_set_of_finished rfl]
  exact h.owned.gain (h.length ▸ hofs) hclear

/-- A `fetch_or` that comes late leaves everybody their numbers. -/
theorem Inv.late_set (h : Inv len s) {ofs : Nat} {th' : Thread} (hofs : ofs < 8 * len)
    (hheld : th'.held = (s.threads t).held) (hok : th'.Ok len) :
    Inv len (s.set t ({ s.shared with bitmap := setBit s.shared.bitmap ofs }, th')) := by
  refine ⟨Owned.length_setBit.trans h.length, ?_, Sys.forall_set h.ok hok⟩
  rw [own_set_of_eq rfl hheld]
  exact h.owned.set (h.length ▸ hofs)

theorem Inv.none_set {th' : Thread} (h : Inv len s) (hheld : th'.held = (s.threads t).held)
    (hok : th'.Ok len) : Inv len (s.set t (s.shared, th')) :=
  ⟨h.length, by rw [own_set_of_eq rfl hheld]; exact h.owned, Sys.forall_set h.ok hok⟩

theorem Inv.call_set (h : Inv len s) {c : Call} (hcall : (s.threads t).call s.shared c = some p) :
    Inv len (s.set t p) := by
  cases c with
  | getFreeIno =>
      rw [Thread.call] at hcall
      split at hcall
      next =>
        cases hcall
        obtain ⟨hok, hheld⟩ := (s.threads t).scan_ok h.length 0
        exact h.none_set hheld hok
      next => cases hcall
  | tryAllocateAt ofs =>
      rw [Thread.call] at hcall
      split at hcall
      next hfit =>
        cases hcall
        have hlt := hfit.2
        rw [h.length] at hlt
        unfold Thread.take
        split
        next => exact h.late_set (by omega) rfl trivial
        next hbit => exact h.got_set (by omega) (Bool.eq_false_iff.mpr hbit)
      next => cases hcall
  | finish ofs =>
      rw [Thread.call] at hcall
      split at hcall
      next hheld =>
        cases hcall
        have hmem : ofs ∈ own s (some t) := hheld.2
        obtain ⟨hdrop, hnot⟩ := h.owned.drop hmem
        have hidle : ((s.threads t).pc = .idle) := hheld.1
        refine ⟨h.length, ?_, Sys.forall_set h.ok ?_⟩
        · rw [own_set, Function.update_comm (by simp)]
          have hgive := hdrop.give (o := none) hnot (h.owned.taken _ _ hmem)
          rwa [Function.update_of_ne (by simp)] at hgive
        · unfold Thread.Ok
          rw [hidle]
          trivial
      next => cases hcall
  | applyDeallocationOnCore ofs =>
      rw [Thread.call] at hcall
      split at hcall
      next hfin =>
        have hmem : ofs ∈ own s none := hfin.2
        obtain ⟨hlt, hbit⟩ := h.owned.taken none ofs hmem
        rw [if_pos hbit] at hcall
        cases hcall
        obtain ⟨hdrop, hnot⟩ := h.owned.drop hmem
        refine ⟨Owned.length_clearBit.trans h.length, ?_, Sys.forall_set h.ok (h.ok t)⟩
        rw [own_set_of_held rfl]
        exact hdrop.clear hnot hlt
      next => cases hcall

theorem Inv.access_set (h : Inv len s) (hacc : (s.threads t).access s.shared = some p) :
    Inv len (s.set t p) := by
  have hok := h.ok t
  rw [Thread.Ok] at hok
  cases Thread.access_cases hacc with
  | outside group hpc hout =>
      rw [hpc] at hok
      exact absurd hok (by rw [h.length] at hout; omega)
  | found group pos hpc hpos =>
      rw [hpc] at hok
      exact h.none_set rfl ⟨hok, hpos⟩
  | next group hpc hfull hlt => exact h.none_set rfl (h.length ▸ hlt)
  | done group hpc hfull hend => exact h.none_set rfl trivial
  | late group pos hpc =>
      rw [hpc] at hok
      obtain ⟨hgroup, hpos⟩ := hok
      exact h.late_set (by omega) rfl hgroup
  | got group pos hpc hclear =>
      rw [hpc] at hok
      obtain ⟨hgroup, hpos⟩ := hok
      exact h.got_set (by omega) hclear

theorem step_inv {x : T × Option Call} (h : Inv len s) (hstep : Sys.Step act s x s') :
    Inv len s' := by
  obtain ⟨p, hact, rfl⟩ := hstep.act
  unfold act at hact
  split at hact
  next => exact h.call_set hact
  next => exact h.access_set hact

/-- Whoever gets a number has found its bit clear. -/
theorem returned_some {ofs : Nat} (hstep : Sys.Step act s (t, none) s')
    (hret : (s'.threads t).Returned (some ofs)) :
    bitAt s.shared.bitmap ofs = false ∧ ofs ∈ (s'.threads t).held := by
  obtain ⟨p, hact, rfl⟩ := hstep.act
  rw [Sys.set_threads_self] at hret ⊢
  obtain ⟨hidle, hres⟩ := hret
  cases Thread.access_cases hact with
  | got group pos hpc hclear =>
      obtain rfl := Option.some.inj hres
      exact ⟨hclear, List.mem_cons_self⟩
  | done group hpc hfull hend => cases hres
  | outside | found | next | late => cases hidle

/-! ## The bytes of a scan -/

/-- The byte that the loop of `get_free_ino` is at. -/
def Pc.group : Pc → Option Nat
  | .load group => some group
  | .fetchOr group _ => some group
  | _ => none

/-- Byte `g` is full in one of the states from `s` on, before the steps of `mid` end. -/
def SeenFull (s : Sys T Shared Thread) (mid : List (T × Option Call)) (g : Nat) : Prop :=
  ∃ m1 m2 u, mid = m1 ++ m2 ∧ s.exec act m1 = some u ∧ LeBytes.byteAt u.shared.bitmap g = 255

theorem SeenFull.append {mid : List (T × Option Call)} {g : Nat} (h : SeenFull s mid g)
    (l : List (T × Option Call)) : SeenFull s (mid ++ l) g := by
  obtain ⟨m1, m2, u, rfl, hexec, hfull⟩ := h
  exact ⟨m1, m2 ++ l, u, List.append_assoc .., hexec, hfull⟩

/-- The bytes that the loop of a thread has left behind have been full. -/
theorem seen_of_exec {s1 s2 : Sys T Shared Thread} {mid : List (T × Option Call)}
    (hcall : Sys.Step act s (t, some .getFreeIno) s1) (hexec : s1.exec act mid = some s2)
    (honly : ∀ x ∈ mid, x.1 = t → x.2 = none) {n : Nat}
    (hn : (s2.threads t).pc.group = some n) : ∀ g < n, SeenFull s1 mid g := by
  -- The induction is on the schedule, from its end.
  induction mid using List.reverseRecOn generalizing s2 n with
  | nil =>
      obtain rfl : s1 = s2 := Option.some.inj hexec
      obtain ⟨p, hact, rfl⟩ := hcall.act
      rw [Sys.set_threads_self] at hn
      dsimp only [act, Thread.call, Thread.scan] at hact
      split at hact
      next =>
        cases hact
        split at hn
        next =>
          obtain rfl : 0 = n := Option.some.inj hn
          exact fun g hg => absurd hg (Nat.not_lt_zero g)
        next => cases hn
      next => cases hact
  | append_singleton mid x ih =>
      obtain ⟨u, hu, hstep⟩ := Sys.exec_snoc.mp hexec
      have hbefore : ∀ {m}, (u.threads t).pc.group = some m → ∀ g < m, SeenFull s1 (mid ++ [x]) g :=
        fun hm g hg =>
          (ih hu (fun x hx => honly x (List.mem_append_left _ hx)) hm g hg).append [x]
      obtain ⟨p, hact, rfl⟩ := hstep.act
      by_cases hxt : x.1 = t
      · have hnone : x.2 = none := honly x (List.mem_append_right _ List.mem_cons_self) hxt
        rw [hxt] at hn hact
        rw [hnone] at hact
        rw [Sys.set_threads_self] at hn
        cases Thread.access_cases hact with
        | outside | done | got => cases hn
        | found group pos hpc hpos =>
            obtain rfl : group = n := Option.some.inj hn
            exact hbefore (by rw [hpc]; rfl)
        | late group pos hpc =>
            obtain rfl : group = n := Option.some.inj hn
            exact hbefore (by rw [hpc]; rfl)
        | next group hpc hfull hlt =>
            obtain rfl : group + 1 = n := Option.some.inj hn
            intro g hg
            rcases Nat.lt_succ_iff_lt_or_eq.mp hg with hlt | rfl
            · exact hbefore (by rw [hpc]; rfl) g hlt
            · exact ⟨mid, [x], u, rfl, hu, hfull⟩
      · rw [Sys.set_threads_of_ne u (Ne.symm hxt)] at hn
        exact hbefore hn

/-- An answer `None` has seen every byte full. -/
theorem returned_none {s1 s2 s3 : Sys T Shared Thread} {mid : List (T × Option Call)}
    (hcall : Sys.Step act s (t, some .getFreeIno) s1) (hexec : s1.exec act mid = some s2)
    (honly : ∀ x ∈ mid, x.1 = t → x.2 = none) (hstep : Sys.Step act s2 (t, none) s3)
    (hret : (s3.threads t).Returned none) :
    ∀ g < s2.shared.bitmap.length, SeenFull s1 mid g := by
  obtain ⟨p, hact, rfl⟩ := hstep.act
  rw [Sys.set_threads_self] at hret
  obtain ⟨hidle, hres⟩ := hret
  cases Thread.access_cases hact with
  | got => cases hres
  | outside | found | next | late => cases hidle
  | done group hpc hfull hend =>
      intro g hg
      by_cases hgroup : g < group
      · exact seen_of_exec hcall hexec honly (n := group) (by rw [hpc]; rfl) g hgroup
      · obtain rfl : g = group := by omega
        exact ⟨mid, [], s2, (List.append_nil mid).symm, hexec, hfull⟩

end Invariant

/-! ## All schedules -/

section Schedules

variable {T : Type} [DecidableEq T] {s s' : Sys T Shared Thread} {l : List (T × Option Call)}

/-- No call has begun, and the numbers that somebody has are taken, each of them once. -/
structure Start (s : Sys T Shared Thread) : Prop where
  idle : ∀ t, (s.threads t).pc = .idle
  owned : Owned s.shared.bitmap (own s)

/-- No number is with two threads, or twice with one. -/
def NoDouble (s : Sys T Shared Thread) : Prop :=
  (∀ t, (s.threads t).held.Nodup) ∧
    ∀ t u, t ≠ u → (s.threads t).held.Disjoint (s.threads u).held

/-- In the state at the end of any schedule no number is with two callers, and the assertion
    of the deallocations has not failed; a `get_free_ino` that returns a number from there
    has found its bit clear; and one that is called there and returns none, after any steps
    of the other threads between its own, has been in a state with that byte full for each
    byte. -/
theorem getFreeIno_of_exec (h0 : Start s) (hexec : s.exec act l = some s') :
    (NoDouble s' ∧ ∀ t, (s'.threads t).pc ≠ .panicked) ∧
    (∀ t ofs s1, Sys.Step act s' (t, none) s1 → (s1.threads t).Returned (some ofs) →
      bitAt s'.shared.bitmap ofs = false ∧ ofs ∈ (s1.threads t).held) ∧
    ∀ t s1 mid s2 s3, Sys.Step act s' (t, some .getFreeIno) s1 → s1.exec act mid = some s2 →
      (∀ x ∈ mid, x.1 = t → x.2 = none) → Sys.Step act s2 (t, none) s3 →
      (s3.threads t).Returned none →
      ∀ g < s2.shared.bitmap.length, SeenFull s1 mid g := by
  have hstart : Inv s.shared.bitmap.length s :=
    ⟨rfl, h0.owned, fun t => by rw [Thread.Ok, h0.idle t]; trivial⟩
  have hinv : Inv s.shared.bitmap.length s' :=
    Sys.exec_invariant hexec (fun _ _ _ h hstep => step_inv h hstep) hstart
  refine ⟨⟨⟨fun t => hinv.owned.nodup (some t), fun t u hne k ht hu => ?_⟩, fun t hpanic => ?_⟩,
    fun t ofs s1 hstep hret => returned_some hstep hret,
    fun t s1 mid s2 s3 hcall hmid honly hstep hret =>
      returned_none hcall hmid honly hstep hret⟩
  · exact hne (Option.some.inj (hinv.owned.unique (some t) (some u) k ht hu))
  · have hok := hinv.ok t
    rw [Thread.Ok, hpanic] at hok
    exact hok

end Schedules

/-- Two threads race for the last clear bit of a byte, and one of them gets it. -/
theorem getFreeIno_of_exec_race :
    ∃ s' : Sys Bool Shared Thread,
      Sys.exec act ⟨⟨[127], []⟩, fun _ => {}⟩
        [(true, some .getFreeIno), (false, some .getFreeIno), (true, none), (false, none),
          (true, none), (false, none)] = some s' ∧
      (s'.threads true).Returned (some 7) ∧ NoDouble s' := by
  have hstart : Start (⟨⟨[127], []⟩, fun _ => {}⟩ : Sys Bool Shared Thread) := by
    refine ⟨fun _ => rfl, fun o => ?_, fun o o' k hk => ?_, fun o k hk => ?_⟩ <;> cases o
    · exact List.nodup_nil
    · exact List.nodup_nil
    · cases hk
    · cases hk
    · cases hk
    · cases hk
  have hexec : Sys.exec act (⟨⟨[127], []⟩, fun _ => {}⟩ : Sys Bool Shared Thread)
      [(true, some .getFreeIno), (false, some .getFreeIno), (true, none), (false, none),
        (true, none), (false, none)] = some _ := rfl
  exact ⟨_, hexec, ⟨rfl, rfl⟩, (getFreeIno_of_exec hstart hexec).1.1⟩

end RustExt4.Inode.Threads
