/-
  RustExt4.Inode.Extent.Cached

  The loop of `File::for_each_lba_mut` over blocks that are mapped already.
  From a path it gives each block its address and changes nothing.  From the
  cached extent it does so up to the end of that extent: there the path is
  loaded, but the cached extent still answers, and a block is allocated.
-/
import RustExt4.Inode.Extent.Allocating

namespace RustExt4.Inode.Extent

open StateExcept
open Transaction (Event)
open Predecessor (Ascending IsPred)

/-! ## Events are only added -/

/-- No event is taken back. -/
def Grows {α : Type} (x : CursorM α) : Prop :=
  Moves (fun c c' => c.events.length ≤ c'.events.length) x

theorem Grows.of_ok {α : Type} {x : CursorM α} (h : Grows x) {a : α} {c c' : Cursor}
    (hx : x c = (.ok a, c')) : c.events.length ≤ c'.events.length := by
  have hc := h c
  rwa [hx] at hc

/-- An allocation records an event if it succeeds. -/
theorem AllocatorStep.events_le {c c' : Cursor} (h : AllocatorStep c c') :
    c.events.length ≤ c'.events.length := by
  cases h with
  | same h => rw [h.events]
  | @allocate ino size hope =>
      obtain ⟨x, fs', events', heq, -, -, -, hx⟩ := c.fs.allocate_frame c.events ino size hope
      simp only [Path.allocate, heq]
      rcases hx with ⟨e, -, rfl⟩ | ⟨y, e, -, rfl⟩ <;> simp

theorem Allocates.grows {α : Type} {x : CursorM α} (h : Allocates x) : Grows x := by
  intro c
  have hrun := h c
  generalize (x c).2 = c' at hrun ⊢
  induction hrun with
  | refl => exact Nat.le_refl _
  | tail _ hstep ih => exact ih.trans hstep.events_le

theorem Path.allocate_events {ino size hope : Nat} {r : Nat × Nat} {c c' : Cursor}
    (h : allocate ino size hope c = (.ok r, c')) : c'.events.length = c.events.length + 1 := by
  obtain ⟨x, fs', events', heq, -, -, -, hx⟩ := c.fs.allocate_frame c.events ino size hope
  simp only [allocate, heq, Prod.mk.injEq] at h
  obtain ⟨rfl, rfl⟩ := h
  rcases hx with ⟨e, he, -⟩ | ⟨y, e, -, hev⟩
  · cases he
  · simp [hev]

namespace Cursor

/-! ## The loop on mapped blocks -/

variable {fs : FileSystem} {events : List Event} {t : ExtentTree} {ls : List Leaf} {c c' : Cursor}
  {x lba fuel n : Nat} {l l0 : Leaf} {r : List Nat}

/-- On a mapped block `or_allocated` gives its address and changes nothing. -/
theorem At.orAllocated (h : c.At fs events t ls x) (ho : Ordered ls)
    (hm : lookup ls x = some (.initialized lba)) (fuel : Nat) (isMeta : Bool) :
    Cursor.orAllocated fuel isMeta c = (.ok lba, c) := by
  obtain ⟨i, l, hleaf, hpred⟩ := h.leaf
  rw [ho.lookup_eq hpred] at hm
  split at hm
  next hc =>
    simp only [Leaf.address, Option.some.injEq] at hm
    split at hm
    next hi =>
      cases hm
      simp only [Cursor.orAllocated, orAllocatedMany, bind_apply, get_apply, lift_apply, hleaf,
        hope, h.fba, if_pos hc, if_pos hi, pure_apply]
    next => cases hm
  next => cases hm

/-- One step of a mutable cursor. -/
theorem moveNextMany_eq (hleaf : c.getLeaf = .ok (some l)) (hx : c.fba + 1 < 2 ^ 32) :
    moveNextMany 1 c =
      if l.contains (c.fba + 1) then (.ok (), { c with fba := c.fba + 1 })
      else Path.loadMut (c.fba + 1) { c with fba := c.fba + 1 } := by
  simp only [moveNextMany, advance, bind_apply, get_apply, lift_apply, hleaf, if_pos hx,
    modify_apply]
  split <;> rfl

/-- The addresses are what the map says of the blocks from `x` on. -/
def Answers (ls : List Leaf) (x n : Nat) (r : List Nat) : Prop :=
  r.map (fun lba => some (AddressingOutput.initialized lba)) = (List.range' x n).map (lookup ls)

/-- The loop has answered from the map and changed nothing but its path. -/
def Faithful (fs : FileSystem) (events : List Event) (t : ExtentTree) (ls : List Leaf)
    (st len : Nat) (res : Except Fault (List Nat) × Cursor) : Prop :=
  ∃ r c, res = (.ok r, c) ∧ Answers ls st len r ∧ c.fs = fs ∧ c.events = events ∧ c.path.root = t

/-- A cursor that keeps the predecessor in its hands as it moves runs through. -/
theorem lbas_faithful {P : Nat → Cursor → Prop} {e : Nat} (ho : Ordered ls)
    (hat : ∀ x c, P x c → c.At fs events t ls x)
    (hmove : ∀ x c, P x c → x + 1 < e → ∃ c', moveNextMany 1 c = (.ok (), c') ∧ P (x + 1) c')
    (hm : ∀ y, x ≤ y → y < e → ∃ lba, lookup ls y = some (.initialized lba))
    (hc : P x c) (hn : x + n = e) (fuel : Nat) :
    Faithful fs events t ls x n (lbas fuel n c) := by
  induction n generalizing x c with
  | zero => exact ⟨[], c, rfl, rfl, (hat x c hc).fs, (hat x c hc).events, (hat x c hc).root⟩
  | succ n ih =>
      obtain ⟨lba, hlba⟩ := hm x (Nat.le_refl x) (by omega)
      have hfirst := (hat x c hc).orAllocated ho hlba fuel false
      have hcons : ∀ c1, Faithful fs events t ls (x + 1) n (lbas fuel n c1) →
          Faithful fs events t ls x (n + 1)
            ((lbas fuel n >>= fun rest => pure (lba :: rest)) c1) := by
        rintro c1 ⟨r, c', hr, hans, hfs, hev, ht⟩
        refine ⟨lba :: r, c', bind_of_ok hr, ?_, hfs, hev, ht⟩
        rw [Answers, List.range'_succ, List.map_cons, List.map_cons, hlba, hans]
      rw [lbas, bind_of_ok hfirst]
      by_cases h0 : n = 0
      · subst h0
        rw [if_neg (by simp)]
        exact hcons c ⟨[], c, rfl, rfl, (hat x c hc).fs, (hat x c hc).events, (hat x c hc).root⟩
      · obtain ⟨c1, hmv, hc1⟩ := hmove x c hc (by omega)
        rw [if_pos h0, bind_of_ok hmv]
        exact hcons c1 (ih (fun y h1 h2 => hm y (by omega) h2) hc1 (by omega))

/-- Away from the cached extent `or_allocated` allocates. -/
theorem orAllocated_outside (hcache : c.path.cache = some l) (hi : l.isInit = true)
    (hout : ¬ l.contains c.fba) {isMeta : Bool}
    (h : Cursor.orAllocated fuel isMeta c = (.ok lba, c')) :
    c.events.length < c'.events.length := by
  obtain ⟨x, c1, hmany, hpure⟩ := bind_eq_ok h
  cases hpure
  simp only [orAllocatedMany, bind_apply, get_apply, lift_apply, getLeaf_of_cache hcache] at hmany
  -- The block is outside and the extent initialized, so the outcome is a hope or a panic.
  have hhope : ∀ y, c.hope (some l) ≠ .ok (.inl y) := by
    intro y hy
    simp only [hope, if_neg hout, hi, Bool.true_eq_false, if_false] at hy
    split at hy <;> split at hy <;> cases hy
  cases hh : Cursor.hope c (some l) with
  | error e => simp [hh] at hmany
  | ok y =>
    cases y with
    | inl y => exact absurd hh (hhope y)
    | inr near =>
      rw [hh] at hmany
      dsimp only at hmany
      obtain ⟨⟨lba', len⟩, c2, halloc, hrest⟩ := bind_eq_ok hmany
      dsimp only at hrest
      have hgrow := Path.allocate_events halloc
      have hlater : c2.events.length ≤ c'.events.length := by
        split at hrest
        · cases hrest
        · obtain ⟨m, c3, hins, hend⟩ := bind_eq_ok hrest
          have h1 := (Path.insert_allocates _ _).grows.of_ok hins
          split at hend
          · exact Nat.le_trans h1 ((Path.forM_fuelFree _ fun _ =>
              Path.getMutNoload_fuelFree _).bind (fun _ => .pure _) |>.allocates.grows.of_ok hend)
          · cases hend
            exact h1
      omega

/-- A cursor that walks out of the cached extent allocates, or it does not return. -/
theorem lbas_leaves (hcache : c.path.cache = some l) (hi : l.isInit = true)
    (hin : l.contains c.fba) (hend : l.block + l.len < 2 ^ 32)
    (hout : l.block + l.len < c.fba + n) (h : lbas fuel n c = (.ok r, c')) :
    c.events.length < c'.events.length := by
  induction n generalizing c r c' with
  | zero =>
      have := (Leaf.contains_iff.mp hin).2
      omega
  | succ n ih =>
      obtain ⟨hlo, hhi⟩ := Leaf.contains_iff.mp hin
      have hleaf := getLeaf_of_cache hcache
      have hfirst : Cursor.orAllocated fuel false c =
          (.ok (l.start + (c.fba - l.block)), c) := by
        simp only [Cursor.orAllocated, orAllocatedMany, bind_apply, get_apply, lift_apply, hleaf,
          hope, if_pos hin, if_pos hi, pure_apply]
      rw [lbas, bind_of_ok hfirst, if_pos (by omega)] at h
      obtain ⟨_, c1, hmv, h⟩ := bind_eq_ok h
      obtain ⟨rest, c2, hrest, h⟩ := bind_eq_ok h
      cases h
      rw [moveNextMany_eq hleaf (by omega)] at hmv
      split at hmv
      next hnext =>
        cases hmv
        exact ih (c := { c with fba := c.fba + 1 }) hcache hnext (by show _ < c.fba + 1 + n; omega)
          hrest
      next hnext =>
        -- The path is loaded behind the extent, which stays in the cache of the path.
        obtain ⟨i, leafs, hframe⟩ := Path.loadMut_frame (c.fba + 1) { c with fba := c.fba + 1 }
        rw [hmv] at hframe
        simp only at hframe
        subst hframe
        cases n with
        | zero => omega
        | succ n =>
            obtain ⟨lba, c3, hor, hrest⟩ := bind_eq_ok hrest
            have hlt := orAllocated_outside (l := l)
              (c := Path.atPath { c with fba := c.fba + 1 } i leafs) hcache hi hnext hor
            have hle : c3.events.length ≤ c'.events.length := by
              split at hrest
              · exact ((moveNextMany_fuelFree _).allocates.bind fun _ => (lbas_allocates _ _).bind
                  fun _ => .pure _).grows.of_ok hrest
              · exact ((lbas_allocates _ _).bind fun _ => .pure _).grows.of_ok hrest
            exact Nat.lt_of_lt_of_le hlt hle

end Cursor

/-! ## The loop from a path and from the cached extent -/

open Cursor (Faithful)

variable {fs : FileSystem} {t : ExtentTree} {ls : List Leaf} {l l0 : Leaf} {st len : Nat}

/-- Without a cached extent the loop gives what the tree maps. -/
theorem forEachLbaMut_fresh (hwf : WellFormed fs.blocks t ls) (ho : Ordered ls)
    (h0 : ls.head? = some l0) (hle : l0.block ≤ st) (hcache : t.cache = none)
    (hm : ∀ y, st ≤ y → y < st + len → ∃ lba, lookup ls y = some (.initialized lba))
    (hlen : st + len ≤ 2 ^ 32) (events : List Event) (noload : Nat → Bytes) (ino fuel : Nat) :
    Faithful fs events t ls st len (t.forEachLbaMut fs events noload ino st len fuel) := by
  obtain ⟨ns, ht⟩ := hwf.tree
  have hopen : ∀ c : Cursor, c.fs = fs → c.events = events → c.path.root = t →
      c.path.cache = none → ∀ y, l0.block ≤ y → c.fba = y →
      ∃ c', Path.loadMut y c = (.ok (), c') ∧ c'.At fs events t ls y ∧ c'.path.cache = none := by
    intro c hfs hev hroot hnone y hy hfba
    obtain ⟨i, leafs, j, l, hload, hstands, hpred⟩ := Path.loadMut_spec (c := c) y
      (by rw [hfs, hroot]; exact ht) (by rw [hroot]; exact hwf.depth_le) ho.ascending h0 hy
    exact ⟨_, hload, ⟨hfba, hfs, hev, hroot, j, l, hstands.getLeaf hnone, hpred⟩, hnone⟩
  obtain ⟨c, hload, hc⟩ := hopen (t.emptyCursor fs events noload ino st) rfl rfl rfl rfl st hle rfl
  have hstart : t.cursorFromFbaMut fs events noload ino st = (.ok (), c) := by
    rw [ExtentTree.cursorFromFbaMut, ExtentTree.openAt, hcache]
    exact hload
  rw [ExtentTree.forEachLbaMut, hstart]
  refine Cursor.lbas_faithful (P := fun y c => l0.block ≤ y ∧ c.At fs events t ls y ∧
    c.path.cache = none) ho (fun _ _ h => h.2.1) ?_ hm ⟨hle, hc⟩ rfl fuel
  rintro y c1 ⟨hy, hat, hnone⟩ hlt
  obtain ⟨i, l1, hleaf, hpred⟩ := hat.leaf
  rw [Cursor.moveNextMany_eq hleaf (by rw [hat.fba]; omega), hat.fba]
  split
  next hin =>
    obtain ⟨i', hpred'⟩ := ho.isPred_of_mem hpred.mem hin
    exact ⟨_, rfl, by omega, ⟨rfl, hat.fs, hat.events, hat.root, i', l1, hleaf, hpred'⟩, hnone⟩
  next hin =>
    obtain ⟨c2, h2, hat2, hnone2⟩ := hopen { c1 with fba := y + 1 } hat.fs hat.events hat.root hnone
      (y + 1) (by omega) rfl
    exact ⟨c2, h2, by omega, hat2, hnone2⟩

/-! ## What the cache is no part of -/

theorem ExtentHeader.Shows.of_cache {k : Option Leaf} {d : Nat} {es : List Entry}
    (h : (ExtentHeader.tree t).Shows d es) : (ExtentHeader.tree { t with cache := k }).Shows d es :=
  ⟨h.depth, h.entriesCnt, h.get⟩

theorem Tree.of_cache {blocks : Nat → Option Bytes} {k : Option Leaf} {d : Nat} {ns : List Nat}
    (h : Tree blocks d (.tree t) ls ns) : Tree blocks d (.tree { t with cache := k }) ls ns := by
  cases d with
  | zero => exact ⟨h.1.of_cache, h.2⟩
  | succ d =>
      obtain ⟨cs, hs, hrest⟩ := h
      exact ⟨cs, hs.of_cache, hrest⟩

theorem WellFormed.of_cache {blocks : Nat → Option Bytes} {k : Option Leaf}
    (h : WellFormed blocks t ls) : WellFormed blocks { t with cache := k } ls := by
  obtain ⟨ns, ht⟩ := h.tree
  exact ⟨⟨ns, ht.of_cache⟩, h.depth_le, h.disjoint, h.bound⟩

/-- Blocks that are mapped have 32-bit numbers. -/
theorem WellFormed.le_of_mapped {blocks : Nat → Option Bytes} (h : WellFormed blocks t ls)
    (hst : st < 2 ^ 32)
    (hm : ∀ y, st ≤ y → y < st + len → ∃ lba, lookup ls y = some (.initialized lba)) :
    st + len ≤ 2 ^ 32 := by
  rcases Nat.eq_zero_or_pos len with rfl | hpos
  · omega
  · obtain ⟨lba, hlba⟩ := hm (st + len - 1) (by omega) (by omega)
    obtain ⟨l, hl, -⟩ := Option.map_eq_some_iff.mp hlba
    have hin : l.contains (st + len - 1) := by simpa using List.find?_some hl
    rw [Leaf.contains_iff] at hin
    have := h.bound l (List.mem_of_find?_eq_some hl)
    omega

/-- The extent that covers a block mapped as initialized is initialized. -/
theorem Ordered.isInit_of_lookup (ho : Ordered ls) (hl : l ∈ ls) (hin : l.contains st) {lba : Nat}
    (hlba : lookup ls st = some (.initialized lba)) : l.isInit = true := by
  obtain ⟨i, hpred⟩ := ho.isPred_of_mem hl hin
  rw [ho.lookup_eq hpred, if_pos hin, Leaf.address, Option.some.injEq] at hlba
  split at hlba
  · assumption
  · cases hlba

theorem cursorFromFbaMut_cached (hcache : t.cache = some l) (hin : l.contains st)
    (events : List Event) (noload : Nat → Bytes) (ino : Nat) :
    t.cursorFromFbaMut fs events noload ino st =
      (.ok (), { t.emptyCursor fs events noload ino st with
        path := { ino := ino, root := t, cache := some l } }) := by
  rw [ExtentTree.cursorFromFbaMut, ExtentTree.openAt, hcache]
  exact if_pos hin

/-- From the cached extent the loop gives what the tree maps, up to its end. -/
theorem forEachLbaMut_cached (hwf : WellFormed fs.blocks t ls) (ho : Ordered ls)
    (hcache : t.cache = some l) (hl : l ∈ ls) (hin : l.contains st)
    (hm : ∀ y, st ≤ y → y < st + len → ∃ lba, lookup ls y = some (.initialized lba))
    (hle : st + len ≤ l.block + l.len) (events : List Event) (noload : Nat → Bytes)
    (ino fuel : Nat) :
    Faithful fs events t ls st len (t.forEachLbaMut fs events noload ino st len fuel) := by
  have hbound := hwf.bound l hl
  rw [ExtentTree.forEachLbaMut, cursorFromFbaMut_cached hcache hin]
  obtain ⟨i, hpred⟩ := ho.isPred_of_mem hl hin
  refine Cursor.lbas_faithful (e := st + len) (P := fun y c => c.At fs events t ls y ∧
    c.path.cache = some l ∧ l.block ≤ y) ho (fun _ _ h => h.1) ?_ hm
    ⟨⟨rfl, rfl, rfl, rfl, i, l, Cursor.getLeaf_of_cache rfl, hpred⟩, rfl,
      (Leaf.contains_iff.mp hin).1⟩ rfl fuel
  rintro y c ⟨hat, hc, hy⟩ hlt
  have hnext : l.contains (y + 1) := Leaf.contains_iff.mpr ⟨by omega, by omega⟩
  obtain ⟨j, hpred'⟩ := ho.isPred_of_mem hl hnext
  refine ⟨{ c with fba := y + 1 }, ?_, ⟨rfl, hat.fs, hat.events, hat.root, j, l,
    Cursor.getLeaf_of_cache hc, hpred'⟩, hc, by omega⟩
  rw [Cursor.moveNextMany_eq (Cursor.getLeaf_of_cache hc) (by rw [hat.fba]; omega), hat.fba,
    if_pos hnext]

/-- Behind the end of the cached extent the loop allocates, panics or does not end. -/
theorem forEachLbaMut_leaves (hcache : t.cache = some l) (hin : l.contains st)
    (hi : l.isInit = true) (hbound : l.block + l.len < 2 ^ 32)
    (hgt : l.block + l.len < st + len) (events : List Event) (noload : Nat → Bytes)
    (ino fuel : Nat) :
    ¬ Faithful fs events t ls st len (t.forEachLbaMut fs events noload ino st len fuel) := by
  rintro ⟨r, c, hrun, -, -, hev, -⟩
  rw [ExtentTree.forEachLbaMut, cursorFromFbaMut_cached hcache hin] at hrun
  have hlt := Cursor.lbas_leaves rfl hi hin hbound hgt hrun
  rw [hev] at hlt
  exact Nat.lt_irrefl _ hlt

/-! ## The cached extent is good up to its end -/

/-- From a fresh path the loop gives the blocks their addresses and changes nothing;
    from the cached extent it does so exactly when it does not pass its end. -/
theorem forEachLbaMut_faithful_iff (hwf : WellFormed fs.blocks t ls) (ho : Ordered ls)
    (hcache : t.cache = some l) (hl : l ∈ ls) (hin : l.contains st)
    (hm : ∀ y, st ≤ y → y < st + len → ∃ lba, lookup ls y = some (.initialized lba))
    (events : List Event) (noload : Nat → Bytes) (ino fuel : Nat) :
    Faithful fs events { t with cache := none } ls st len
        (ExtentTree.forEachLbaMut { t with cache := none } fs events noload ino st len fuel) ∧
      (Faithful fs events t ls st len (t.forEachLbaMut fs events noload ino st len fuel) ↔
        st + len ≤ l.block + l.len) := by
  obtain ⟨hlo, hhi⟩ := Leaf.contains_iff.mp hin
  have hbound := hwf.bound l hl
  constructor
  · obtain ⟨l0, rest, rfl⟩ := List.exists_cons_of_ne_nil (List.ne_nil_of_mem hl)
    refine forEachLbaMut_fresh hwf.of_cache ho rfl ?_ rfl hm (hwf.le_of_mapped (by omega) hm)
      events noload ino fuel
    rcases List.mem_cons.mp hl with rfl | hrest
    · exact hlo
    · exact ((List.pairwise_cons.mp ho).1 l hrest).1.le.trans hlo
  · constructor
    · intro hf
      by_contra hgt
      obtain ⟨lba, hlba⟩ := hm st (Nat.le_refl st) (by omega)
      exact forEachLbaMut_leaves hcache hin (ho.isInit_of_lookup hl hin hlba) hbound (by omega)
        events noload ino fuel hf
    · intro hle
      exact forEachLbaMut_cached hwf ho hcache hl hin hm hle events noload ino fuel

/-- Two extents that follow each other, in two leaf nodes; the first is the cached one. -/
theorem exists_cachedLeaf : ∃ (blocks : Nat → Option Bytes) (t : ExtentTree),
    t.cache = some { block := 0, start := 500, len := 2, isInit := true } ∧
      WellFormed blocks t [{ block := 0, start := 500, len := 2, isInit := true },
        { block := 2, start := 700, len := 2, isInit := true }] := by
  obtain ⟨t, b1, b2, htd, -, -, -, -, -, -, -, -, ht⟩ := exists_twoLeafs
    { block := 0, start := 500, len := 2, isInit := true }
    { block := 2, start := 700, len := 2, isInit := true } [] []
    (by decide) (List.pairwise_singleton ..) (List.pairwise_singleton ..) (by decide) (by decide)
    (by decide)
  have hwf : WellFormed (twoBlocks b1 b2) t [{ block := 0, start := 500, len := 2, isInit := true },
      { block := 2, start := 700, len := 2, isInit := true }] :=
    ⟨⟨_, by rw [htd]; exact ht⟩, by rw [htd]; decide,
      List.pairwise_pair.mpr (Leaf.not_both_contain (by decide)), by decide⟩
  exact ⟨_, _, rfl, hwf.of_cache⟩

/-- The first two blocks, read in the cached extent. -/
theorem forEachLbaMut_faithful_iff_twoLeafs : ∃ (blocks : Nat → Option Bytes) (t : ExtentTree),
    Faithful (fsOf blocks) [] t [{ block := 0, start := 500, len := 2, isInit := true },
      { block := 2, start := 700, len := 2, isInit := true }] 0 2
      (t.forEachLbaMut (fsOf blocks) [] (fun _ => []) 12 0 2 4) := by
  obtain ⟨blocks, t, hcache, hwf⟩ := exists_cachedLeaf
  refine ⟨blocks, t, ((@forEachLbaMut_faithful_iff (fsOf blocks) t _ _ 0 2 hwf
    (List.pairwise_pair.mpr (by decide)) hcache (by simp) (by decide) ?_ [] (fun _ => [])
    12 4).2).mpr (by decide)⟩
  intro y _ hy
  have : y = 0 ∨ y = 1 := by omega
  rcases this with rfl | rfl
  · exact ⟨500, by decide⟩
  · exact ⟨501, by decide⟩

/-- The third block lies behind the cached extent: it is mapped to 700, and the loop
    allocates for it. -/
theorem forEachLbaMut_not_faithful : ∃ (blocks : Nat → Option Bytes) (t : ExtentTree)
    (ls : List Leaf) (l : Leaf), WellFormed blocks t ls ∧ Ordered ls ∧ t.cache = some l ∧ l ∈ ls ∧
      l.contains 0 ∧ (∀ y < 3, ∃ lba, lookup ls y = some (.initialized lba)) ∧
      ∀ fuel, ¬ Faithful (fsOf blocks) [] t ls 0 3
        (t.forEachLbaMut (fsOf blocks) [] (fun _ => []) 12 0 3 fuel) := by
  obtain ⟨blocks, t, hcache, hwf⟩ := exists_cachedLeaf
  refine ⟨blocks, t, _, _, hwf, List.pairwise_pair.mpr (by decide), hcache, by simp, by decide, ?_,
    fun fuel => forEachLbaMut_leaves hcache (by decide) rfl (by decide) (by decide) [] (fun _ => [])
      12 fuel⟩
  intro y hy
  have : y = 0 ∨ y = 1 ∨ y = 2 := by omega
  rcases this with rfl | rfl | rfl
  · exact ⟨500, by decide⟩
  · exact ⟨501, by decide⟩
  · exact ⟨700, by decide⟩

end RustExt4.Inode.Extent
