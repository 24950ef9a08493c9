/-
  RustExt4.Lib.Coalesce

  Items with addresses, gathered into runs of consecutive addresses.  A run is its
  first address and its items; expanded again, the runs are the items in order.
-/
import Mathlib.Tactic.Common

namespace Coalesce

variable {β : Type}

/-- The items of a run with their addresses. -/
def expand (start : Nat) : List β → List (Nat × β)
  | [] => []
  | b :: bs => (start, b) :: expand (start + 1) bs

/-- The runs of a list, behind an open run. -/
def runsFrom (start : Nat) (batch : List β) : List (Nat × β) → List (Nat × List β)
  | [] => [(start, batch)]
  | (addr, b) :: rest =>
    if start + batch.length = addr then runsFrom start (batch ++ [b]) rest
    else (start, batch) :: runsFrom addr [b] rest

def runs : List (Nat × β) → List (Nat × List β)
  | [] => []
  | (addr, b) :: rest => runsFrom addr [b] rest

theorem expand_append (start : Nat) (bs bs' : List β) :
    expand start (bs ++ bs') = expand start bs ++ expand (start + bs.length) bs' := by
  induction bs generalizing start with
  | nil => rfl
  | cons b bs ih =>
      rw [List.cons_append, expand, expand, ih, List.cons_append, List.length_cons,
        show start + 1 + bs.length = start + (bs.length + 1) by omega]

theorem runsFrom_expand (start : Nat) (batch : List β) (items : List (Nat × β)) :
    (runsFrom start batch items).flatMap (fun r => expand r.1 r.2) =
      expand start batch ++ items := by
  induction items generalizing start batch with
  | nil => simp [runsFrom]
  | cons item items ih =>
      obtain ⟨addr, b⟩ := item
      rw [runsFrom]
      split
      next h =>
        subst h
        rw [ih, expand_append, List.append_assoc]
        rfl
      next =>
        rw [List.flatMap_cons, ih]
        rfl

theorem runs_expand (items : List (Nat × β)) :
    (runs items).flatMap (fun r => expand r.1 r.2) = items := by
  cases items with
  | nil => rfl
  | cons item items => exact runsFrom_expand item.1 [item.2] items

end Coalesce
