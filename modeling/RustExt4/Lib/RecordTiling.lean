/-
  RustExt4.Lib.RecordTiling

  Buffers that are cut into variable-length records without gaps.  A record
  format says how long the record at a position is, whether its header is
  acceptable and what it holds, and reads nothing but the record's own bytes.
  A tiling is the list of the positions of its records; the main rule is that
  new contents of one window of a tiled buffer leave every other record alone.
-/
import RustExt4.Lib.LeBytes

namespace RecordTiling

open LeBytes (SameOn)

/-- A format of variable-length records with contents of type `α`; a record that
    holds nothing has the view `none`. -/
structure RecordFormat (α : Type) where
  len : List UInt8 → Nat → Nat
  Ok : List UInt8 → Nat → Prop
  view : List UInt8 → Nat → Option α
  len_pos : ∀ {b p}, Ok b p → 0 < len b p
  congr : ∀ {b b' p}, b'.length = b.length → SameOn b' b p (p + len b p) → Ok b p →
    p + len b p ≤ b.length → len b' p = len b p ∧ Ok b' p ∧ view b' p = view b p

variable {α : Type} (F : RecordFormat α)

/-- The records at the positions `ps` fill `[a, c)` one after the other. -/
def Tiles (b : List UInt8) : Nat → List Nat → Nat → Prop
  | a, [], c => a = c
  | a, p :: ps, c => a = p ∧ F.Ok b p ∧ Tiles b (p + F.len b p) ps c

/-- What the records at the positions `ps` hold, in order, with their positions. -/
def live (b : List UInt8) (ps : List Nat) : List (Nat × α) :=
  ps.filterMap fun p => (F.view b p).map (p, ·)

/-- The positions that a walk from `p` to `e` visits. -/
def walk (b : List UInt8) (e p : Nat) : List Nat :=
  if p < e ∧ 0 < F.len b p then p :: walk b e (p + F.len b p) else []
termination_by e - p

variable {F} {b b' : List UInt8} {a c : Nat} {ps qs : List Nat}

/-! ## Tilings -/

theorem Tiles.le (h : Tiles F b a ps c) : a ≤ c := by
  induction ps generalizing a with
  | nil => exact Nat.le_of_eq h
  | cons p ps ih =>
      obtain ⟨rfl, -, hrest⟩ := h
      have := ih hrest
      omega

theorem tiles_append : Tiles F b a (ps ++ qs) c ↔ ∃ m, Tiles F b a ps m ∧ Tiles F b m qs c := by
  induction ps generalizing a with
  | nil => simp [Tiles]
  | cons p ps ih =>
      simp only [List.cons_append, Tiles, ih]
      constructor
      · rintro ⟨rfl, hok, m, h1, h2⟩
        exact ⟨m, ⟨rfl, hok, h1⟩, h2⟩
      · rintro ⟨m, ⟨rfl, hok, h1⟩, h2⟩
        exact ⟨rfl, hok, m, h1, h2⟩

/-- A tiling is found again by the walk. -/
theorem Tiles.walk_eq (h : Tiles F b a ps c) : walk F b c a = ps := by
  induction ps generalizing a with
  | nil =>
      obtain rfl : a = c := h
      rw [walk, if_neg (by omega)]
  | cons p ps ih =>
      obtain ⟨rfl, hok, hrest⟩ := h
      have hpos := F.len_pos hok
      have hle := hrest.le
      rw [walk, if_pos ⟨by omega, hpos⟩, ih hrest]

/-- The record of a tiling that starts at one of its positions. -/
theorem Tiles.split_at {p : Nat} (h : Tiles F b a ps c) (hp : p ∈ ps) :
    ∃ l r, ps = l ++ p :: r ∧ Tiles F b a l p ∧ F.Ok b p ∧ Tiles F b (p + F.len b p) r c := by
  obtain ⟨l, r, rfl⟩ := List.append_of_mem hp
  obtain ⟨m, h1, rfl, hok, h2⟩ := tiles_append.mp h
  exact ⟨l, r, rfl, h1, hok, h2⟩

theorem Tiles.mem {p : Nat} (h : Tiles F b a ps c) (hp : p ∈ ps) :
    F.Ok b p ∧ p + F.len b p ≤ c := by
  obtain ⟨_, _, _, _, hok, hr⟩ := h.split_at hp
  exact ⟨hok, hr.le⟩

/-- The positions of a tiling go up. -/
theorem Tiles.sorted (h : Tiles F b a ps c) : (∀ p ∈ ps, a ≤ p) ∧ ps.Pairwise (· < ·) := by
  induction ps generalizing a with
  | nil => exact ⟨by simp, List.Pairwise.nil⟩
  | cons p ps ih =>
      obtain ⟨rfl, hok, hrest⟩ := h
      have hpos := F.len_pos hok
      obtain ⟨hle, hsorted⟩ := ih hrest
      refine ⟨?_, List.pairwise_cons.mpr ⟨fun q hq => by have := hle q hq; omega, hsorted⟩⟩
      intro q hq
      rcases List.mem_cons.mp hq with rfl | hq
      · exact Nat.le_refl _
      · have := hle q hq
        omega

/-- Each record ends before the later ones. -/
theorem Tiles.apart (h : Tiles F b a ps c) : ps.Pairwise fun p q => p + F.len b p ≤ q := by
  induction ps generalizing a with
  | nil => exact List.Pairwise.nil
  | cons p ps ih =>
      obtain ⟨rfl, -, hrest⟩ := h
      exact List.pairwise_cons.mpr ⟨hrest.sorted.1, ih hrest⟩

/-! ## Live records -/

@[simp] theorem live_append : live F b (ps ++ qs) = live F b ps ++ live F b qs :=
  List.filterMap_append ..

@[simp] theorem live_nil : live F b [] = [] := rfl

theorem live_cons_some {p : Nat} {x : α} (h : F.view b p = some x) :
    live F b (p :: ps) = (p, x) :: live F b ps := by
  simp [live, h]

theorem live_cons_none {p : Nat} (h : F.view b p = none) :
    live F b (p :: ps) = live F b ps := by
  simp [live, h]

theorem mem_live {p : Nat} {x : α} : (p, x) ∈ live F b ps ↔ p ∈ ps ∧ F.view b p = some x := by
  simp only [live, List.mem_filterMap, Option.map_eq_some_iff, Prod.mk.injEq]
  constructor
  · rintro ⟨q, hq, y, hy, rfl, rfl⟩
    exact ⟨hq, hy⟩
  · rintro ⟨hp, hx⟩
    exact ⟨p, hp, x, hx, rfl, rfl⟩

/-! ## Other contents of one window -/

/-- A tiling of `[a, c)` depends on the bytes of `[a, c)` only. -/
theorem Tiles.congr (hlen : b'.length = b.length) (hsame : SameOn b' b a c) (hc : c ≤ b.length)
    (h : Tiles F b a ps c) : Tiles F b' a ps c ∧ live F b' ps = live F b ps := by
  induction ps generalizing a with
  | nil => exact ⟨h, rfl⟩
  | cons p ps ih =>
      obtain ⟨rfl, hok, hrest⟩ := h
      have hle := hrest.le
      obtain ⟨hl, hok', hv⟩ := F.congr hlen (hsame.mono (Nat.le_refl a) hle) hok (by omega)
      obtain ⟨ht, hlive⟩ := ih (hsame.mono (by omega) (Nat.le_refl c)) hrest
      refine ⟨⟨rfl, hok', by rwa [hl]⟩, ?_⟩
      simp only [live, List.filterMap_cons, hv] at hlive ⊢
      rw [hlive]

/-- New records in the window `[lo, hi)` of a tiled buffer. -/
theorem tiles_replace {lo hi e : Nat} {l mid r : List Nat} (hlen : b'.length = b.length)
    (hl : Tiles F b 0 l lo) (hr : Tiles F b hi r e) (he : e ≤ b.length)
    (hbefore : SameOn b' b 0 lo) (hafter : SameOn b' b hi e) (hmid : Tiles F b' lo mid hi) :
    Tiles F b' 0 (l ++ mid ++ r) e ∧
      live F b' (l ++ mid ++ r) = live F b l ++ live F b' mid ++ live F b r := by
  have hlo := hmid.le
  have hhi := hr.le
  obtain ⟨hl', hl''⟩ := hl.congr hlen hbefore (by omega)
  obtain ⟨hr', hr''⟩ := hr.congr hlen hafter he
  refine ⟨?_, by rw [live_append, live_append, hl'', hr'']⟩
  exact tiles_append.mpr ⟨hi, tiles_append.mpr ⟨lo, hl', hmid⟩, hr'⟩

end RecordTiling
