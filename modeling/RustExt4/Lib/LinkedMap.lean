/-
  RustExt4.Lib.LinkedMap

  A doubly linked list kept in a map from each element to the elements before and
  after it.  One element that is never in the list, `nil`, stands before the first
  and after the last.  The map is updated at the front and by taking an element
  out from between its neighbours; a singly linked copy of the list elsewhere is
  compared with the map through the relation `Succ`.
-/
import Mathlib.Logic.Function.Basic
import Mathlib.Data.List.Basic

namespace LinkedMap

variable {K : Type}

/-- The elements of `L` follow each other in `m`, from after `p` to before `e`. -/
def Seg (m : K → Option (K × K)) : K → List K → K → Prop
  | _, [], _ => True
  | p, x :: L, e => m x = some (p, L.headD e) ∧ Seg m x L e

/-- `m` holds the elements of `L` in order, with `nil` at both ends. -/
structure Holds (nil : K) (m : K → Option (K × K)) (L : List K) : Prop where
  nodup : L.Nodup
  nil_notMem : nil ∉ L
  mem : ∀ x, (m x).isSome ↔ x ∈ L
  links : Seg m nil L nil

/-- `h` is the first element of the list in `m`, or `nil` if there is none. -/
def IsFirst (nil : K) (m : K → Option (K × K)) (h : K) : Prop :=
  (∃ s, m h = some (nil, s)) ∨ (h = nil ∧ ∀ x, m x = none)

/-- `q` comes after `p`; the first element comes after `nil`. -/
def Succ (nil : K) (m : K → Option (K × K)) (p q : K) : Prop :=
  (p = nil ∧ IsFirst nil m q) ∨ ∃ pr, m p = some (pr, q)

/-- A singly linked list of the elements of `L` that begins with `h`. -/
def Chain (nil : K) (next : K → K) : K → List K → Prop
  | h, [] => h = nil
  | h, x :: L => h = x ∧ x ≠ nil ∧ Chain nil next (next x) L

/-! ## Segments -/

section

variable {nil : K} {m m' : K → Option (K × K)} {p e : K} {A B L : List K}

theorem Seg.append : Seg m p (A ++ B) e ↔
    Seg m p A (B.headD e) ∧ Seg m (A.getLastD p) B e := by
  induction A generalizing p with
  | nil => simp [Seg]
  | cons x A ih =>
      have hhead : (A ++ B).headD e = A.headD (B.headD e) := by cases A <;> rfl
      rw [List.cons_append, Seg, Seg, ih, hhead, List.getLastD_cons, and_assoc]

theorem Seg.congr (h : Seg m p L e) (hsame : ∀ x ∈ L, m' x = m x) : Seg m' p L e := by
  induction L generalizing p with
  | nil => trivial
  | cons x L ih =>
      refine ⟨?_, ih h.2 fun y hy => hsame y (List.mem_cons_of_mem x hy)⟩
      rw [hsame x List.mem_cons_self]
      exact h.1

theorem Holds.at_ {x : K} (h : Holds nil m (A ++ x :: B)) :
    m x = some (A.getLastD nil, B.headD nil) := (Seg.append.mp h.links).2.1

theorem getLastD_eq_nil (h : nil ∉ A) (hlast : A.getLastD nil = nil) : A = [] := by
  cases A with
  | nil => rfl
  | cons x A =>
      rw [List.getLastD_cons] at hlast
      have hmem : A.getLastD x ∈ x :: A := List.getLastD_mem_cons
      exact absurd (hlast ▸ hmem) h

theorem Holds.isFirst_iff (h : Holds nil m L) {x : K} : IsFirst nil m x ↔ x = L.headD nil := by
  constructor
  · rintro (⟨s, hs⟩ | ⟨rfl, hno⟩)
    · obtain ⟨A, B, rfl⟩ := List.append_of_mem ((h.mem x).mp (by rw [hs]; rfl))
      have hat := h.at_
      rw [hs] at hat
      cases getLastD_eq_nil (fun hmem => h.nil_notMem (List.mem_append_left _ hmem))
        (congrArg Prod.fst (Option.some.inj hat)).symm
      rfl
    · cases L with
      | nil => rfl
      | cons y L =>
          have := (h.mem y).mpr List.mem_cons_self
          rw [hno y] at this
          cases this
  · rintro rfl
    cases L with
    | nil =>
        refine Or.inr ⟨rfl, fun x => ?_⟩
        have := (h.mem x).not.mpr List.not_mem_nil
        simpa using this
    | cons y L => exact Or.inl ⟨_, h.links.1⟩

theorem Holds.isFirst (h : Holds nil m L) : IsFirst nil m (L.headD nil) := h.isFirst_iff.mpr rfl

theorem Holds.nil_eq_none (h : Holds nil m L) : m nil = none := by
  have := (h.mem nil).not.mpr h.nil_notMem
  simpa using this

/-- Each element has one successor. -/
theorem Holds.succ_unique (h : Holds nil m L) {q q' : K} (hq : Succ nil m p q)
    (hq' : Succ nil m p q') : q = q' := by
  rcases hq with ⟨rfl, hq⟩ | ⟨pr, hq⟩
  · rcases hq' with ⟨-, hq'⟩ | ⟨pr', hq'⟩
    · rw [h.isFirst_iff.mp hq, h.isFirst_iff.mp hq']
    · rw [h.nil_eq_none] at hq'
      cases hq'
  · rcases hq' with ⟨rfl, -⟩ | ⟨pr', hq'⟩
    · rw [h.nil_eq_none] at hq
      cases hq
    · rw [hq] at hq'
      cases hq'
      rfl

/-- A copy of the list that links each element to its successor is a chain over it. -/
theorem Holds.chain (h : Holds nil m L) {next : K → K} {hd : K} (hhd : IsFirst nil m hd)
    (hnext : ∀ x pr q, m x = some (pr, q) → next x = q) : Chain nil next hd L := by
  have hseg : ∀ L p, Seg m p L nil → nil ∉ L → Chain nil next (L.headD nil) L := by
    intro L
    induction L with
    | nil => exact fun _ _ _ => rfl
    | cons x L ih =>
        intro p hs hnil
        rw [List.mem_cons, not_or] at hnil
        refine ⟨rfl, Ne.symm hnil.1, ?_⟩
        rw [hnext x p _ hs.1]
        exact ih x hs.2 hnil.2
  rw [h.isFirst_iff.mp hhd]
  exact hseg L nil h.links h.nil_notMem

end

theorem succ_iff_of_ne {nil : K} {m : K → Option (K × K)} {p q : K} (hp : p ≠ nil) :
    Succ nil m p q ↔ (m p).map Prod.snd = some q := by
  rw [Succ, Option.map_eq_some_iff]
  constructor
  · rintro (⟨hnil, -⟩ | ⟨pr, h⟩)
    · exact absurd hnil hp
    · exact ⟨(pr, q), h, rfl⟩
  · rintro ⟨⟨pr, q'⟩, h, rfl⟩
    exact Or.inr ⟨pr, h⟩

/-! ## Updates -/

variable [DecidableEq K]

/-- The element before `x` becomes `p`, if `x` is in the map. -/
def setPred (m : K → Option (K × K)) (x p : K) : K → Option (K × K) :=
  Function.update m x ((m x).map fun n => (p, n.2))

/-- The element after `x` becomes `q`, if `x` is in the map. -/
def setSucc (m : K → Option (K × K)) (x q : K) : K → Option (K × K) :=
  Function.update m x ((m x).map fun n => (n.1, q))

variable {nil : K} {m : K → Option (K × K)} {A B L : List K} {x : K}

theorem setPred_apply (m : K → Option (K × K)) (x p y : K) :
    setPred m x p y = if y = x then (m x).map fun n => (p, n.2) else m y :=
  Function.update_apply ..

theorem setSucc_apply (m : K → Option (K × K)) (x q y : K) :
    setSucc m x q y = if y = x then (m x).map fun n => (n.1, q) else m y :=
  Function.update_apply ..

@[simp] theorem setPred_isSome (m : K → Option (K × K)) (x p y : K) :
    (setPred m x p y).isSome = (m y).isSome := by
  rw [setPred_apply]
  split
  next h => rw [h, Option.isSome_map]
  next => rfl

@[simp] theorem setSucc_isSome (m : K → Option (K × K)) (x q y : K) :
    (setSucc m x q y).isSome = (m y).isSome := by
  rw [setSucc_apply]
  split
  next h => rw [h, Option.isSome_map]
  next => rfl

theorem setPred_snd (m : K → Option (K × K)) (x p y : K) :
    (setPred m x p y).map Prod.snd = (m y).map Prod.snd := by
  rw [setPred_apply]
  split
  next h => rw [h, Option.map_map]; rfl
  next => rfl

/-- `x` goes to the front, before `h`. -/
def pushFront (nil : K) (m : K → Option (K × K)) (x h : K) : K → Option (K × K) :=
  Function.update (setPred m h x) x (some (nil, h))

/-- `x` leaves its place between `pr` and `su`. -/
def unlink (m : K → Option (K × K)) (x pr su : K) : K → Option (K × K) :=
  setPred (setSucc (Function.update m x none) pr su) su pr

/-- Only the segment's first element learns that another one comes before it. -/
theorem Seg.setPred {p p' e : K} (h : Seg m p L e) (hnodup : L.Nodup) :
    Seg (LinkedMap.setPred m (L.headD e) p') p' L e := by
  cases L with
  | nil => trivial
  | cons y L =>
      refine ⟨?_, h.2.congr fun z hz => ?_⟩
      · rw [List.headD_cons, setPred_apply, if_pos rfl, h.1]
        rfl
      · have hzy : z ≠ y := by
          rintro rfl
          exact (List.nodup_cons.mp hnodup).1 hz
        rw [List.headD_cons, setPred_apply, if_neg hzy]

/-- Only the segment's last element learns that another one comes after it. -/
theorem Seg.setSucc {p e e' : K} (h : Seg m p L e) (hnodup : L.Nodup) :
    Seg (LinkedMap.setSucc m (L.getLastD p) e') p L e' := by
  rcases List.eq_nil_or_concat L with rfl | ⟨A, y, rfl⟩
  · trivial
  · rw [List.concat_eq_append] at h hnodup ⊢
    have hy : y ∉ A := fun hmem =>
      (List.nodup_append.mp hnodup).2.2 y hmem y List.mem_cons_self rfl
    have hlast : (A ++ [y]).getLastD p = y := by simp
    obtain ⟨hA, hyA, -⟩ := Seg.append.mp h
    rw [hlast]
    refine Seg.append.mpr ⟨hA.congr fun z hz => ?_, ?_, trivial⟩
    · rw [setSucc_apply, if_neg (ne_of_mem_of_not_mem hz hy)]
    · rw [setSucc_apply, if_pos rfl, hyA]
      rfl

theorem Holds.pushFront (h : Holds nil m L) (hx : x ∉ L) (hnil : x ≠ nil) :
    Holds nil (LinkedMap.pushFront nil m x (L.headD nil)) (x :: L) where
  nodup := List.nodup_cons.mpr ⟨hx, h.nodup⟩
  nil_notMem := by
    rw [List.mem_cons, not_or]
    exact ⟨hnil.symm, h.nil_notMem⟩
  mem := by
    intro y
    rw [LinkedMap.pushFront, Function.update_apply, List.mem_cons]
    split
    next heq => simp [heq]
    next hne => rw [setPred_isSome, h.mem y, or_iff_right hne]
  links := by
    refine ⟨Function.update_self .., ?_⟩
    refine (h.links.setPred h.nodup).congr fun y hy => ?_
    exact Function.update_of_ne (ne_of_mem_of_not_mem hy hx) ..

/-- The only new links of a push are those of the new element. -/
theorem succ_pushFront {hd p q : K} (hp : p ≠ nil) (hpx : p ≠ x) :
    Succ nil (pushFront nil m x hd) p q ↔ Succ nil m p q := by
  rw [succ_iff_of_ne hp, succ_iff_of_ne hp, pushFront, Function.update_of_ne hpx, setPred_snd]

theorem Holds.unlink (h : Holds nil m (A ++ x :: B)) :
    Holds nil (LinkedMap.unlink m x (A.getLastD nil) (B.headD nil)) (A ++ B) := by
  have hnodup := List.nodup_append.mp h.nodup
  have hB := List.nodup_cons.mp hnodup.2.1
  have hnil := h.nil_notMem
  simp only [List.mem_append, List.mem_cons, not_or] at hnil
  have hxA : x ∉ A := fun hmem => hnodup.2.2 x hmem x List.mem_cons_self rfl
  have hAB : ∀ y ∈ A, ∀ z ∈ B, y ≠ z :=
    fun y hy z hz => hnodup.2.2 y hy z (List.mem_cons_of_mem x hz)
  obtain ⟨hA, hx, hrest⟩ := Seg.append.mp h.links
  refine ⟨List.nodup_append.mpr ⟨hnodup.1, hB.2, hAB⟩, ?_, fun y => ?_, Seg.append.mpr ⟨?_, ?_⟩⟩
  · rw [List.mem_append, not_or]
    exact ⟨hnil.1, hnil.2.2⟩
  · have hmem := h.mem y
    simp only [List.mem_append, List.mem_cons] at hmem
    rw [LinkedMap.unlink, setPred_isSome, setSucc_isSome, Function.update_apply, List.mem_append]
    split
    next heq =>
      subst heq
      simp [hxA, hB.1]
    next hne => rw [hmem, or_left_comm, or_iff_right hne]
  · have hA' : Seg (Function.update m x none) nil A x :=
      hA.congr fun z hz => Function.update_of_ne (ne_of_mem_of_not_mem hz hxA) ..
    refine (hA'.setSucc hnodup.1).congr fun z hz => ?_
    have hz' : z ≠ B.headD nil := by
      rintro rfl
      cases B with
      | nil => exact hnil.1 hz
      | cons b B => exact hAB b hz b List.mem_cons_self rfl
    rw [LinkedMap.unlink, setPred_apply, if_neg hz']
  · refine Seg.setPred (hrest.congr fun z hz => ?_) hB.2
    have hz' : z ≠ A.getLastD nil := by
      rintro rfl
      have hlast : A.getLastD nil ∈ nil :: A := List.getLastD_mem_cons
      rcases List.mem_cons.mp hlast with hl | hl
      · exact ne_of_mem_of_not_mem hz hnil.2.2 hl
      · exact hAB _ hl _ hz rfl
    rw [setSucc_apply, if_neg hz', Function.update_of_ne (ne_of_mem_of_not_mem hz hB.1)]

/-- Of the elements left, only the one before `x` has a new successor. -/
theorem Holds.succ_unlink (h : Holds nil m (A ++ x :: B)) {p q : K}
    (hp : p ≠ A.getLastD nil)
    (hsucc : Succ nil (LinkedMap.unlink m x (A.getLastD nil) (B.headD nil)) p q) :
    Succ nil m p q := by
  by_cases hnil : p = nil
  · -- Something stands before `x`, so the first element stays.
    rcases hsucc with ⟨-, hfirst⟩ | ⟨pr, hq⟩
    · refine Or.inl ⟨hnil, ?_⟩
      rw [h.unlink.isFirst_iff] at hfirst
      rw [h.isFirst_iff, hfirst]
      cases A with
      | nil => exact absurd hnil hp
      | cons y A => rfl
    · rw [hnil, h.unlink.nil_eq_none] at hq
      cases hq
  · rw [succ_iff_of_ne hnil] at hsucc ⊢
    rw [LinkedMap.unlink, setPred_snd, setSucc_apply, if_neg hp, Function.update_apply] at hsucc
    split at hsucc
    · cases hsucc
    · exact hsucc

end LinkedMap
