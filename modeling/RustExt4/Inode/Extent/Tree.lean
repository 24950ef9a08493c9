/-
  RustExt4.Inode.Extent.Tree

  What the bytes of an extent tree stand for: the entries of a node, the extents
  and the blocks of a tree, and where a path through it leads.  The binary search
  in a node finds the predecessor of a file block.
-/
import RustExt4.Inode.Extent.Cursor
import RustExt4.Lib.Predecessor

namespace RustExt4.Inode.Extent

open StateExcept
open Predecessor (Ascending IsPred)

/-! ## One node -/

/-- The node holds these entries, as `get` decodes them. -/
structure ExtentHeader.Shows (h : ExtentHeader) (d : Nat) (es : List Entry) : Prop where
  depth : h.depth = d
  entriesCnt : h.entriesCnt = es.length
  get : ∀ i, h.get i = .ok es[i]?

namespace ExtentHeader

variable {h : ExtentHeader} {es : List Entry} {d fba : Nat}

/-- A node shows one list of entries. -/
theorem Shows.unique {d' : Nat} {es' : List Entry} (hs : h.Shows d es) (hs' : h.Shows d' es') :
    es = es' := by
  apply List.ext_getElem?
  intro i
  exact Except.ok.inj ((hs.get i).symm.trans (hs'.get i))

/-- What `binary_search` keeps: entries before `l` start at most at the block, entries
    after `r` above it. -/
theorem searchFrom_spec (fba : Nat) (hs : h.Shows d es) (l r : Nat) (hr : r < es.length)
    (hlr : l ≤ r + 1)
    (hl : 0 < l ∨ ∃ e, es[0]? = some e ∧ e.firstBlock ≤ fba)
    (hle : ∀ i e, i < l → es[i]? = some e → e.firstBlock ≤ fba)
    (hgt : ∀ i e, r < i → es[i]? = some e → fba < e.firstBlock)
    (hasc : Ascending Entry.firstBlock es) :
    ∃ m, h.searchFrom fba l r = .ok m ∧ 0 < m ∧ m ≤ es.length ∧
      (∀ i e, i < m → es[i]? = some e → e.firstBlock ≤ fba) ∧
      (∀ i e, m ≤ i → es[i]? = some e → fba < e.firstBlock) := by
  induction l, r using searchFrom.induct h fba with
  | case1 l r hin e hget hlt hzero =>
      -- The first entry is not above the block.
      have hmid : es[l + (r - l) / 2]? = some e := by
        rw [hs.get] at hget
        exact Except.ok.inj hget
      rw [hzero] at hmid
      rcases hl with hl | ⟨e0, he0, hle0⟩
      · omega
      · rw [he0] at hmid
        cases hmid
        omega
  | case2 l r hin e hget hlt hpos ih =>
      rw [searchFrom, if_pos hin, hget]
      simp only [if_pos hlt, if_neg hpos]
      have hmid : es[l + (r - l) / 2]? = some e := by
        rw [hs.get] at hget
        exact Except.ok.inj hget
      refine ih (by omega) (by omega) hl hle fun i e' hi he' => ?_
      rcases Nat.lt_or_ge (l + (r - l) / 2) i with hmi | hmi
      · exact hlt.trans (hasc.lt_of_getElem? hmi hmid he')
      · obtain rfl : i = l + (r - l) / 2 := by omega
        rw [hmid] at he'
        cases he'
        exact hlt
  | case3 l r hin e hget hge ih =>
      rw [searchFrom, if_pos hin, hget]
      simp only [if_neg hge]
      have hmid : es[l + (r - l) / 2]? = some e := by
        rw [hs.get] at hget
        exact Except.ok.inj hget
      refine ih hr (by omega) (Or.inl (Nat.succ_pos _)) (fun i e' hi he' => ?_) hgt
      rcases Nat.lt_or_ge i (l + (r - l) / 2) with hmi | hmi
      · exact (hasc.lt_of_getElem? hmi he' hmid).le.trans (Nat.le_of_not_lt hge)
      · obtain rfl : i = l + (r - l) / 2 := by omega
        rw [hmid] at he'
        cases he'
        exact Nat.le_of_not_lt hge
  | case4 l r hin hget =>
      -- The middle lies in the node.
      exfalso
      have hlen : l + (r - l) / 2 < es.length := by omega
      refine hget es[l + (r - l) / 2] ?_
      rw [hs.get, List.getElem?_eq_getElem hlen]
  | case5 l r hout =>
      rw [searchFrom, if_neg hout]
      refine ⟨l, rfl, ?_, by omega, hle, fun i e hi he => hgt i e (by omega) he⟩
      omega

/-- Below the first key the search goes left until it panics. -/
theorem binarySearch_below (fba : Nat) (hs : h.Shows d es) (hne : es ≠ [])
    (hgt : ∀ e ∈ es, fba < e.firstBlock) : h.binarySearch fba = .error .panic := by
  have hleft : ∀ r < es.length, h.searchFrom fba 0 r = .error .panic := by
    intro r
    induction r using Nat.strong_induction_on with
    | _ r ih =>
        intro hr
        have hmid : 0 + (r - 0) / 2 < es.length := by omega
        rw [searchFrom, if_pos (Nat.zero_le r), hs.get, List.getElem?_eq_getElem hmid]
        simp only [if_pos (hgt _ (List.getElem_mem hmid))]
        split
        · rfl
        next hpos => exact ih _ (by omega) (by omega)
  have hpos : 0 < es.length := List.length_pos_of_ne_nil hne
  rw [binarySearch, hs.entriesCnt, if_pos hpos, hleft _ (by omega)]

/-- In a node with ascending keys the search finds the predecessor. -/
theorem binarySearch_spec (fba : Nat) (hs : h.Shows d es) (hasc : Ascending Entry.firstBlock es)
    {e0 : Entry} (h0 : es.head? = some e0) (hle : e0.firstBlock ≤ fba) :
    ∃ i e, h.binarySearch fba = .ok (some i) ∧ h.get i = .ok (some e) ∧
      IsPred Entry.firstBlock fba es i e := by
  have hpos : 0 < es.length := by
    cases es with
    | nil => cases h0
    | cons => exact Nat.succ_pos _
  obtain ⟨m, hm, hm0, hlen, hbelow, habove⟩ := searchFrom_spec fba hs 0 (es.length - 1)
    (by omega) (by omega) (Or.inr ⟨e0, by rw [← List.head?_eq_getElem?]; exact h0, hle⟩)
    (by omega) (fun i e hi he => by
      have := (List.getElem?_eq_some_iff.mp he).1
      omega) hasc
  have hget : es[m - 1]? = some es[m - 1] := List.getElem?_eq_getElem (by omega)
  refine ⟨m - 1, es[m - 1], ?_, by rw [hs.get, hget], ?_⟩
  · rw [binarySearch, hs.entriesCnt, if_pos hpos, hm]
    simp only [if_neg (Nat.pos_iff_ne_zero.mp hm0)]
  · exact Predecessor.isPred_of_split hget (hbelow _ _ (by omega) hget)
      fun j b hj hb => habove j b (by omega) hb

end ExtentHeader

/-! ## Where a path leads -/

/-- From an entry through the indices in the nodes of a path to an entry. -/
def Leads (blocks : Nat → Option Bytes) :
    Option Entry → List (Nat × Option Nat) → Option Entry → Prop
  | e, [], e' => e = e'
  | e, (lba, idx) :: rest, e' =>
    ∃ i b en, e = some (.internal i) ∧ i.nextNode = lba ∧ blocks lba = some b ∧
      (ExtentHeader.node b).getAt idx = .ok en ∧ Leads blocks en rest e'

theorem leads_append {blocks : Nat → Option Bytes} {e e' : Option Entry}
    {l r : List (Nat × Option Nat)} :
    Leads blocks e (l ++ r) e' ↔ ∃ en, Leads blocks e l en ∧ Leads blocks en r e' := by
  induction l generalizing e with
  | nil => exact ⟨fun h => ⟨e, rfl, h⟩, fun ⟨en, h, h'⟩ => by cases h; exact h'⟩
  | cons n l ih =>
      constructor
      · rintro ⟨i, b, en, he, hi, hb, hget, hrest⟩
        obtain ⟨en', h1, h2⟩ := ih.mp hrest
        exact ⟨en', ⟨i, b, en, he, hi, hb, hget, h1⟩, h2⟩
      · rintro ⟨en', ⟨i, b, en, he, hi, hb, hget, h1⟩, h2⟩
        exact ⟨i, b, en, he, hi, hb, hget, ih.mpr ⟨en', h1, h2⟩⟩

/-- The path of the cursor leads from the root to this entry. -/
def Cursor.Stands (c : Cursor) (e : Option Entry) : Prop :=
  ∃ e0, (ExtentHeader.tree c.path.root).getAt c.path.rootIdx = .ok e0 ∧
    Leads c.fs.blocks e0 c.path.leafs e

namespace Cursor

variable {c c' : Cursor} {e : Option Entry}

/-- The last node of the path and the entry under its index. -/
theorem Stands.last (h : c.Stands e) :
    ∃ nd idx, c.level (c.len - 1) = .ok (nd, idx) ∧ nd.getAt idx = .ok e := by
  obtain ⟨e0, hroot, hleads⟩ := h
  rcases List.eq_nil_or_concat c.path.leafs with hnil | ⟨l, ⟨lba, idx⟩, hcat⟩
  · rw [hnil] at hleads
    cases hleads
    exact ⟨_, _, by rw [len, hnil]; rfl, hroot⟩
  · rw [List.concat_eq_append] at hcat
    rw [hcat] at hleads
    obtain ⟨en, -, i, b, en', -, -, hb, hget, hend⟩ := leads_append.mp hleads
    cases hend
    refine ⟨.node b, idx, ?_, hget⟩
    have hlen : c.len - 1 = l.length + 1 := by
      rw [len, hcat, List.length_append, List.length_singleton]
      omega
    rw [hlen, level, hcat, List.getElem?_append_right (Nat.le_refl _), Nat.sub_self]
    simp only [List.getElem?_cons_zero, hb]

/-- Without a cached extent the leaf of the path is the entry it leads to. -/
theorem Stands.getLeaf (h : c.Stands e) (hcache : c.path.cache = none) :
    c.getLeaf = .ok (e.bind Entry.getLeaf) := by
  obtain ⟨nd, idx, hlevel, hget⟩ := h.last
  simp only [Cursor.getLeaf, hcache, hlevel, hget]

@[simp] theorem store_events (c : Cursor) (at_ : Nat) (h : ExtentHeader) :
    (c.store at_ h).events = c.events := by
  unfold store
  split
  · rfl
  · split <;> rfl
  · rfl

@[simp] theorem setIdx_events (c : Cursor) (at_ : Nat) (idx : Option Nat) :
    (c.setIdx at_ idx).events = c.events := by
  cases at_ <;> rfl

theorem getLeaf_of_cache {l : Leaf} (hcache : c.path.cache = some l) :
    c.getLeaf = .ok (some l) := by
  simp only [Cursor.getLeaf, hcache]

end Cursor

namespace Path

/-- A cursor with more nodes at the end of its path. -/
abbrev pushed (c : Cursor) (l : List (Nat × Option Nat)) : Cursor :=
  { c with path := { c.path with leafs := c.path.leafs ++ l } }

/-- One round of the loop below an index entry. -/
theorem descend_internal (pick : ExtentHeader → Except Fault (Option Nat)) (n : Nat)
    (i : Internal) (c : Cursor) :
    descend pick (n + 1) (some (.internal i)) c =
      match c.fs.blocks i.nextNode with
      | none => (.error (.err .ioError), c)
      | some b =>
        match ExtentHeader.fromBytes b with
        | .error e => (.error e, c)
        | .ok nd =>
          match pick nd with
          | .error e => (.error e, c)
          | .ok index =>
            match nd.getAt index with
            | .error e => (.error e, c)
            | .ok last =>
              if c.path.leafs.length < 5 then
                descend pick n last (pushed c [(i.nextNode, index)])
              else (.error .panic, c) := by
  simp only [descend, node, Entry.nextNode, unwrap, bind_apply, lift_apply, get_apply]
  cases c.fs.blocks i.nextNode with
  | none => rfl
  | some b =>
    simp only [lift_apply]
    cases ExtentHeader.fromBytes b with
    | error e => rfl
    | ok nd =>
      cases hp : pick nd with
      | error e => simp only [hp]
      | ok index =>
        cases hg : nd.getAt index with
        | error e => simp only [hp, hg]
        | ok last =>
          simp only [hp, hg, push, bind_apply, get_apply]
          by_cases hlen : c.path.leafs.length < 5
          · simp only [if_pos hlen, modify_apply]
          · simp only [if_neg hlen, throw_apply]

/-- Whatever `descend` picks, the nodes it adds to the path lead on from the entry,
    and to the entry it returns. -/
theorem descend_leads (pick : ExtentHeader → Except Fault (Option Nat)) (n : Nat)
    (e : Option Entry) (c : Cursor) :
    ∃ l e', (descend pick n e c).2 = pushed c l ∧ Leads c.fs.blocks e l e' ∧
      ∀ r, (descend pick n e c).1 = .ok r → r = e' := by
  -- Wherever the descent stops, it has come as far as it has.
  have hstop : ∀ (c : Cursor) (e : Option Entry) (x : Except Fault (Option Entry) × Cursor),
      x.2 = c → (∀ r, x.1 = .ok r → r = e) →
      ∃ l e', x.2 = pushed c l ∧ Leads c.fs.blocks e l e' ∧ ∀ r, x.1 = .ok r → r = e' := by
    intro c e x hx hr
    exact ⟨[], e, by rw [hx]; simp [pushed], rfl, hr⟩
  induction n generalizing e c with
  | zero => exact hstop c e _ rfl fun r hr => (Except.ok.inj hr).symm
  | succ n ih =>
    match e with
    | none => exact hstop c none _ rfl fun r hr => (Except.ok.inj hr).symm
    | some (.leaf l) => exact hstop c _ _ rfl fun r hr => nomatch hr
    | some (.internal i) =>
      rw [descend_internal]
      split
      · exact hstop c _ _ rfl fun r hr => nomatch hr
      next b hb =>
        split
        · exact hstop c _ _ rfl fun r hr => nomatch hr
        next nd hnd =>
          split
          · exact hstop c _ _ rfl fun r hr => nomatch hr
          next index hpick =>
            split
            · exact hstop c _ _ rfl fun r hr => nomatch hr
            next last hget =>
              split
              · obtain ⟨l, e', hc, hl, hr⟩ := ih last (pushed c [(i.nextNode, index)])
                obtain rfl : nd = .node b := by
                  unfold ExtentHeader.fromBytes at hnd
                  split at hnd
                  · exact (Except.ok.inj hnd).symm
                  · cases hnd
                refine ⟨(i.nextNode, index) :: l, e', ?_, ⟨i, b, last, rfl, rfl, hb, hget, hl⟩, hr⟩
                rw [hc]
                simp [pushed]
              · exact hstop c _ _ rfl fun r hr => nomatch hr

end Path

/-! ## Trees -/

/-- An index entry with the extents and the blocks of the tree below it. -/
structure Child where
  entry : Internal
  leafs : List Leaf
  nodes : List Nat

/-- A tree of depth `d` under the node, with its extents and the blocks of its nodes
    in order.  Nodes are not empty, their keys go up, and a child is one level less
    deep and starts with the key of its entry. -/
def Tree (blocks : Nat → Option Bytes) : Nat → ExtentHeader → List Leaf → List Nat → Prop
  | 0, h, ls, ns => h.Shows 0 (ls.map .leaf) ∧ ls ≠ [] ∧ Ascending Leaf.block ls ∧ ns = []
  | d + 1, h, ls, ns =>
    ∃ cs : List Child, h.Shows (d + 1) (cs.map fun c => .internal c.entry) ∧ cs ≠ [] ∧
      Ascending (fun c => c.entry.block) cs ∧ ls = cs.flatMap Child.leafs ∧
      ns = cs.flatMap (fun c => c.entry.nextNode :: c.nodes) ∧
      ∀ c ∈ cs, ∃ b e, blocks c.entry.nextNode = some b ∧
        ExtentHeader.fromBytes b = .ok (.node b) ∧ Tree blocks d (.node b) c.leafs c.nodes ∧
        (ExtentHeader.node b).get 0 = .ok (some e) ∧ e.firstBlock = c.entry.block

section
variable {blocks : Nat → Option Bytes} {h : ExtentHeader} {ls : List Leaf} {ns : List Nat}
  {d fba : Nat}

/-- The entries of the top node; its extents are extents of the tree. -/
theorem Tree.exists_shows (ht : Tree blocks d h ls ns) :
    ∃ es, h.Shows d es ∧ es ≠ [] ∧ ∀ l, .leaf l ∈ es → l ∈ ls := by
  cases d with
  | zero =>
      obtain ⟨hs, hne, -, -⟩ := ht
      exact ⟨_, hs, by simpa using hne, fun l hl => by simpa using hl⟩
  | succ d =>
      obtain ⟨cs, hs, hne, -⟩ := ht
      refine ⟨_, hs, by simpa using hne, fun l hl => ?_⟩
      obtain ⟨c, -, heq⟩ := List.mem_map.mp hl
      cases heq

/-- A node is the top of one tree. -/
theorem Tree.unique {ls' : List Leaf} {ns' : List Nat} (ht : Tree blocks d h ls ns)
    (ht' : Tree blocks d h ls' ns') : ls = ls' ∧ ns = ns' := by
  -- On the depth, and at an index node on the children.
  induction d generalizing h ls ls' ns ns' with
  | zero =>
      obtain ⟨hs, -, -, rfl⟩ := ht
      obtain ⟨hs', -, -, rfl⟩ := ht'
      have hinj : Function.Injective Entry.leaf := fun a b hab => Entry.leaf.inj hab
      exact ⟨List.map_injective_iff.mpr hinj (hs.unique hs'), rfl⟩
  | succ d ih =>
      obtain ⟨cs, hs, -, -, rfl, rfl, hc⟩ := ht
      obtain ⟨cs', hs', -, -, rfl, rfl, hc'⟩ := ht'
      have hmap := hs.unique hs'
      clear hs hs'
      induction cs generalizing cs' with
      | nil =>
          obtain rfl : cs' = [] := List.map_eq_nil_iff.mp hmap.symm
          exact ⟨rfl, rfl⟩
      | cons c cs ihcs =>
          obtain ⟨c', cs', rfl, hentry, hrest⟩ := List.map_eq_cons_iff.mp hmap.symm
          obtain ⟨b, e, hb, -, hsub, -⟩ := hc c List.mem_cons_self
          obtain ⟨b', e', hb', -, hsub', -⟩ := hc' c' List.mem_cons_self
          have heq : c'.entry = c.entry := Entry.internal.inj hentry
          rw [heq, hb] at hb'
          obtain rfl : b = b' := Option.some.inj hb'
          obtain ⟨hls, hns⟩ := ih hsub hsub'
          obtain ⟨hls2, hns2⟩ := ihcs (fun x hx => hc x (List.mem_cons_of_mem _ hx)) cs'
            (fun x hx => hc' x (List.mem_cons_of_mem _ hx)) hrest.symm
          simp only [List.flatMap_cons, hls, hns, heq]
          rw [hls2, hns2]
          exact ⟨rfl, rfl⟩

/-- The first key of a node is the first block of its tree. -/
theorem Tree.head (ht : Tree blocks d h ls ns) :
    ∃ l e, ls.head? = some l ∧ h.get 0 = .ok (some e) ∧ e.firstBlock = l.block := by
  induction d generalizing h ls ns with
  | zero =>
      obtain ⟨hs, hne, -, -⟩ := ht
      obtain ⟨l, ls, rfl⟩ := List.exists_cons_of_ne_nil hne
      exact ⟨l, .leaf l, rfl, by rw [hs.get]; rfl, rfl⟩
  | succ d ih =>
      obtain ⟨cs, hs, hne, -, rfl, -, hc⟩ := ht
      obtain ⟨c, cs, rfl⟩ := List.exists_cons_of_ne_nil hne
      obtain ⟨b, e, -, -, hsub, hget, hkey⟩ := hc c List.mem_cons_self
      obtain ⟨l, e', hhead, hget', hkey'⟩ := ih hsub
      rw [hget] at hget'
      cases hget'
      obtain ⟨rest, hcons⟩ := List.head?_eq_some_iff.mp hhead
      refine ⟨l, .internal c.entry, ?_, by rw [hs.get]; rfl, hkey.symm.trans hkey'⟩
      rw [List.flatMap_cons, hcons]
      rfl

/-- Below the first extent the search at the top panics. -/
theorem Tree.search_below (ht : Tree blocks d h ls ns) (hasc : Ascending Leaf.block ls)
    {l0 : Leaf} (h0 : ls.head? = some l0) (hlt : fba < l0.block) :
    h.binarySearch fba = .error .panic := by
  obtain ⟨l, e0, hhead, hget0, hkey0⟩ := ht.head
  obtain rfl := Option.some.inj (h0.symm.trans hhead)
  obtain ⟨es, hs, hne, hes⟩ : ∃ es, h.Shows d es ∧ es ≠ [] ∧ Ascending Entry.firstBlock es := by
    cases d with
    | zero => exact ⟨_, ht.1, by simpa using ht.2.1, List.pairwise_map.mpr hasc⟩
    | succ d =>
        obtain ⟨cs, hs, hne, hkeys, -⟩ := ht
        exact ⟨_, hs, by simpa using hne, List.pairwise_map.mpr hkeys⟩
  refine ExtentHeader.binarySearch_below fba hs hne fun e he => ?_
  obtain ⟨e1, rest, rfl⟩ := List.exists_cons_of_ne_nil hne
  rw [hs.get, Except.ok.injEq] at hget0
  obtain rfl : e1 = e0 := Option.some.inj hget0
  obtain rfl | hmem := List.mem_cons.mp he
  · omega
  · have := (List.pairwise_cons.mp hes).1 e hmem
    omega

/-- A search in a node goes to the child that the predecessor of a file block lies in. -/
theorem Tree.child (ht : Tree blocks (d + 1) h ls ns) (hasc : Ascending Leaf.block ls)
    {l0 : Leaf} (h0 : ls.head? = some l0) (hle : l0.block ≤ fba) :
    ∃ (i : Nat) (c : Child) (b : Bytes) (l1 : Leaf) (pre post : List Leaf),
      h.binarySearch fba = .ok (some i) ∧ h.get i = .ok (some (.internal c.entry)) ∧
      blocks c.entry.nextNode = some b ∧ ExtentHeader.fromBytes b = .ok (.node b) ∧
      Tree blocks d (.node b) c.leafs c.nodes ∧ Ascending Leaf.block c.leafs ∧
      c.leafs.head? = some l1 ∧ l1.block ≤ fba ∧ ls = pre ++ (c.leafs ++ post) ∧
      ∀ l ∈ post, fba < l.block := by
  obtain ⟨l0', e0, hhead, hget0, hkey0⟩ := ht.head
  rw [h0] at hhead
  cases hhead
  obtain ⟨cs, hs, hne, hkeys, rfl, -, hc⟩ := ht
  have hkeys' : Ascending Entry.firstBlock (cs.map fun c => .internal c.entry) :=
    List.pairwise_map.mpr hkeys
  rw [hs.get, ← List.head?_eq_getElem?, Except.ok.injEq] at hget0
  obtain ⟨i, e, hsearch, hget, hpred⟩ :=
    ExtentHeader.binarySearch_spec fba hs hkeys' hget0 (hkey0.le.trans hle)
  obtain ⟨c, rfl, cs1, cs2, rfl, -, hcle, hgt⟩ := hpred.of_map
  obtain ⟨b, e', hb, hmagic, hsub, hget', hkey'⟩ := hc c (by simp)
  obtain ⟨l1, e1, hhead1, hget1, hkey1⟩ := hsub.head
  rw [hget'] at hget1
  cases hget1
  have hfirst : l1.block ≤ fba := (hkey'.symm.trans hkey1) ▸ hcle
  have hsplit : (cs1 ++ c :: cs2).flatMap Child.leafs =
      cs1.flatMap Child.leafs ++ (c.leafs ++ cs2.flatMap Child.leafs) := by
    rw [List.flatMap_append, List.flatMap_cons]
  rw [hsplit] at hasc ⊢
  obtain ⟨-, hrest, -⟩ := List.pairwise_append.mp hasc
  obtain ⟨hascSub, hascPost, -⟩ := List.pairwise_append.mp hrest
  refine ⟨i, c, b, l1, _, _, hsearch, hget, hb, hmagic, hsub, hascSub, hhead1, hfirst, rfl,
    fun l hl => ?_⟩
  -- An extent behind the child is in a later child, whose first key is above.
  obtain ⟨c2, hc2, hl2⟩ := List.mem_flatMap.mp hl
  obtain ⟨b2, e2, -, -, hsub2, hget2, hkey2⟩ := hc c2 (by simp [hc2])
  obtain ⟨l2, e2', hhead2, hget2', hkey2'⟩ := hsub2.head
  rw [hget2] at hget2'
  cases hget2'
  have hlt : fba < l2.block := (hgt c2 hc2).trans_eq (hkey2.symm.trans hkey2')
  obtain ⟨rest, hcons⟩ := List.head?_eq_some_iff.mp hhead2
  have hascC2 : Ascending Leaf.block c2.leafs :=
    hascPost.sublist (List.flatMap_def ▸ List.sublist_flatten_of_mem (List.mem_map_of_mem hc2))
  rw [hcons] at hl2 hascC2
  obtain rfl | hmem := List.mem_cons.mp hl2
  · exact hlt
  · exact hlt.trans ((List.pairwise_cons.mp hascC2).1 l hmem)

/-- Where the extents ascend, the search goes down to the predecessor of a file block. -/
theorem Tree.search (ht : Tree blocks d h ls ns) (hasc : Ascending Leaf.block ls)
    {l0 : Leaf} (h0 : ls.head? = some l0) (hle : l0.block ≤ fba) :
    ∃ i e, h.binarySearch fba = .ok (some i) ∧ h.get i = .ok (some e) ∧
      ∀ c : Cursor, c.fs.blocks = blocks → c.path.leafs.length + d ≤ 5 →
        ∃ c' j l, Path.descend (fun h => h.binarySearch fba) d (some e) c =
          (.ok (some (.leaf l)), c') ∧ IsPred Leaf.block fba ls j l := by
  induction d generalizing h ls ns l0 with
  | zero =>
      obtain ⟨hs, hne, -, -⟩ := ht
      have hasc' : Ascending Entry.firstBlock (ls.map .leaf) := List.pairwise_map.mpr hasc
      have h0' : (ls.map Entry.leaf).head? = some (.leaf l0) := by
        rw [List.head?_map, h0]
        rfl
      obtain ⟨i, e, hsearch, hget, hpred⟩ := ExtentHeader.binarySearch_spec fba hs hasc' h0' hle
      obtain ⟨l, rfl, hleaf⟩ := hpred.of_map
      exact ⟨i, _, hsearch, hget, fun c _ _ => ⟨c, i, l, rfl, hleaf⟩⟩
  | succ d ih =>
      -- The child that the search picks starts at or before the block, and the next one after it.
      obtain ⟨i, c, b, l1, pre, post, hsearch, hget, hb, hmagic, hsub, hascSub, hhead1, hle1, rfl,
        hpost⟩ := ht.child hasc h0 hle
      obtain ⟨i', e', hsearch', hget', hdesc⟩ := ih hsub hascSub hhead1 hle1
      refine ⟨i, _, hsearch, hget, fun c0 hblocks hlen => ?_⟩
      obtain ⟨c', j, l, hrun, hpred⟩ :=
        hdesc (Path.pushed c0 [(c.entry.nextNode, some i')]) hblocks (by simp; omega)
      refine ⟨c', pre.length + j, l, ?_, (hpred.append hpost).prepend pre⟩
      rw [Path.descend_internal, hblocks, hb]
      simp only [hmagic, hsearch', ExtentHeader.getAt, hget']
      rw [if_pos (by omega)]
      exact hrun

end

end RustExt4.Inode.Extent
