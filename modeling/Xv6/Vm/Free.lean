import Mathlib
import Xv6.Vm.Grow
import Xv6.Lib.Refcount

/-!
# Freeing a process's memory (`vm.c`: `freewalk`, `uvmfree`)

`uvmfree(pagetable, sz)` unmaps and frees the user pages below `PGROUNDUP(sz)` with `uvmunmap`, then
`freewalk` frees the tables: it goes through the 512 entries of a table, frees the table an interior
entry points to and clears the entry, panics on a valid leaf, and frees the table itself.

* `freewalk`, `uvmfree` : the functions as the C code runs them, `freewalk`'s recursion bounded by a
  depth (three levels below a root);
* `Frees d m c S` : from any memory that agrees with `m` on the pages `S`, `freewalk` from `c` pushes
  exactly `S` on the free list and writes no other page;
* `frees_empty`, `frees_table` : a table with no valid entry frees itself; a table whose entries'
  subtrees free disjoint pages frees them, entry by entry, and then itself;
* `freeOrder`, `freewalk_tree` : on a tree with no leaf, `freewalk` frees each table once, in
  `freeOrder`;
* `uvmfree_spec` : on a tree whose leaves are exactly the pages below `sz`, `uvmfree` frees every page
  of the tree, leaf or table, exactly once.
-/

namespace Xv6.Vm

open Kmem Refcount

/-- One turn of `freewalk`'s loop over the entries of `pagetable`, `fw` being the call below: an
entry that points to a table (`PTE_V` with `R`, `W` and `X` clear) is freed below and cleared; a
valid leaf panics. -/
def freewalkStep (fw : Kmem → UInt64 → Except String Kmem) (pagetable : UInt64) (m : Kmem)
    (i : Fin 512) : Except String Kmem :=
  match interior (m.page pagetable i) with
  | some child => do
    let m ← fw m child
    pure (m.write (pagetable, i) 0)
  | none => if m.page pagetable i &&& pteV ≠ 0 then throw "freewalk: leaf" else pure m

/-- `freewalk(pagetable)`, its recursion bounded by `depth`: the loop over the 512 entries, then
`kfree(pagetable)`. -/
def freewalk : Nat → Kmem → UInt64 → Except String Kmem
  | 0, m, _ => .ok m
  | depth + 1, m, pagetable => do
    let m ← (List.finRange 512).foldlM (freewalkStep (freewalk depth) pagetable) m
    kfree m pagetable

/-- `uvmfree(pagetable, sz)`: the user pages, then the tables below the root, three levels deep. -/
def uvmfree (m : Kmem) (pagetable sz : UInt64) : Except String Kmem := do
  let m ← if sz > 0 then uvmunmap m pagetable 0 (pgRoundUp sz / pgSize) true else pure m
  freewalk 3 m pagetable

/-! ## What one call frees -/

/-- `freewalk d` from `c` frees the pages `S`, in order, and touches nothing else: from any memory
that agrees with `m` on `S` and has its `end`, it returns with `S` pushed on the free list and every
other page as it was. -/
def Frees (d : Nat) (m : Kmem) (c : UInt64) (S : List UInt64) : Prop :=
  ∀ m', (∀ x ∈ S, m'.page x = m.page x) → m'.kend = m.kend →
    ∃ m'', freewalk d m' c = .ok m'' ∧ m''.freelist = S.reverse ++ m'.freelist ∧
      m''.kend = m'.kend ∧ ∀ x, x ∉ S → m''.page x = m'.page x

section
variable {d : Nat} {m : Kmem} {t : UInt64}

/-- `kfree` of the table at the end of `freewalk`. -/
theorem freewalk_kfree {m' m'' : Kmem} (ht : t % pgSize = 0) (hlo : m''.kend ≤ t)
    (hhi : t < phystop) (hloop : (List.finRange 512).foldlM (freewalkStep (freewalk d) t) m' = .ok m'') :
    freewalk (d + 1) m' t = .ok { m''.fill t 0x0101010101010101 with freelist := t :: m''.freelist } := by
  rw [freewalk, hloop]
  exact kfree_ok ht hlo hhi

/-- What `kfree` of the table leaves: the table pushed, and no other page changed. -/
theorem kfree_fill_page {m'' : Kmem} {x : UInt64} (hx : x ≠ t) :
    ({ m''.fill t 0x0101010101010101 with freelist := t :: m''.freelist } : Kmem).page x = m''.page x := by
  simp [fill, hx]

/-- A table with no valid entry, which `kfree` takes, frees itself. -/
theorem frees_empty (hv : ∀ i, m.page t i &&& pteV = 0) (ht : t % pgSize = 0) (hlo : m.kend ≤ t)
    (hhi : t < phystop) : Frees (d + 1) m t [t] := by
  intro m' hagree hkend
  have hpt : m'.page t = m.page t := hagree t List.mem_cons_self
  -- every turn of the loop finds an invalid entry and does nothing
  obtain ⟨b, hloop, rfl⟩ := foldlM_ok_of_step (freewalkStep (freewalk d) t) (fun _ b => b = m')
    (List.finRange 512) (fun pre i post b _ hb => ⟨b, by
      subst hb
      simp only [freewalkStep, hpt, hv i, interior_of_invalid (hv i), ne_eq, not_true_eq_false,
        if_false]
      rfl, hb⟩) rfl
  refine ⟨_, freewalk_kfree ht (hkend ▸ hlo) hhi hloop, rfl, rfl, fun x hx => ?_⟩
  exact kfree_fill_page fun h => hx (h ▸ List.mem_cons_self)

/-- The loop of `freewalk` over `t` after the entries `pre`, started on `m'`: their subtrees are on
the free list, no other page has changed but `t`, and the entries still to come are as they were. -/
structure LoopFreed (S : Fin 512 → List UInt64) (t : UInt64) (m' : Kmem) (pre : List (Fin 512))
    (b : Kmem) : Prop where
  freelist : b.freelist = (pre.flatMap S).reverse ++ m'.freelist
  kend : b.kend = m'.kend
  page : ∀ x, x ∉ pre.flatMap S → x ≠ t → b.page x = m'.page x
  entry : ∀ j, j ∉ pre → b.page t j = m'.page t j

section
variable (S : Fin 512 → List UInt64)
  (hv : ∀ i, m.page t i &&& pteV ≠ 0 → (interior (m.page t i)).isSome)
  (hsub : ∀ i c, interior (m.page t i) = some c → Frees d m c (S i))
  (hnone : ∀ i, interior (m.page t i) = none → S i = [])
  (hdisj : ∀ i j, i ≠ j → ∀ x ∈ S i, x ∉ S j) (htS : ∀ i, t ∉ S i)
include hv hsub hnone hdisj htS

/-- One turn of the loop, at the entry `i` after `pre`, on memory that agrees with `m` on `t` and on
the subtrees. -/
theorem LoopFreed.step {m' b : Kmem} {pre post : List (Fin 512)} {i : Fin 512}
    (hagree : ∀ x ∈ (List.finRange 512).flatMap S ++ [t], m'.page x = m.page x) (hkend : m'.kend = m.kend)
    (hl : pre ++ i :: post = List.finRange 512) (hb : LoopFreed S t m' pre b) :
    ∃ b', freewalkStep (freewalk d) t b i = .ok b' ∧ LoopFreed S t m' (pre ++ [i]) b' := by
  have hi : i ∉ pre := by
    have hnd := List.nodup_finRange 512
    rw [← hl] at hnd
    exact fun h => (List.nodup_append.mp hnd).2.2 i h i List.mem_cons_self rfl
  have hbi : b.page t i = m.page t i :=
    (hb.entry i hi).trans (congrFun (hagree t (List.mem_append_right _ List.mem_cons_self)) i)
  cases hc : interior (m.page t i) with
  | none =>
    have hinv : m.page t i &&& pteV = 0 := by
      by_contra h
      have := hv i h
      rw [hc] at this
      cases this
    refine ⟨b, ?_, ?_⟩
    · simp only [freewalkStep, hbi, hc, hinv, ne_eq, not_true_eq_false, if_false]
      rfl
    · have hS : (pre ++ [i]).flatMap S = pre.flatMap S := by
        rw [List.flatMap_append, List.flatMap_singleton, hnone i hc, List.append_nil]
      exact ⟨hS ▸ hb.freelist, hb.kend, hS ▸ hb.page,
        fun j hj => hb.entry j (fun h => hj (List.mem_append_left _ h))⟩
  | some c =>
    -- the subtree of `c` frees `S i`, where `b` still agrees with `m`
    have hpre : ∀ x ∈ S i, x ∉ pre.flatMap S := by
      intro x hx h
      obtain ⟨j, hj, hxj⟩ := List.mem_flatMap.mp h
      exact hdisj j i (fun e => hi (e ▸ hj)) x hxj hx
    have hagree' : ∀ x ∈ S i, b.page x = m.page x := by
      intro x hx
      rw [hb.page x (hpre x hx) (fun e => htS i (e ▸ hx))]
      exact hagree x (List.mem_append_left _ (List.mem_flatMap.mpr ⟨i, List.mem_finRange i, hx⟩))
    obtain ⟨b'', hrun, hfl'', hk'', hpage''⟩ := hsub i c hc b hagree' (hb.kend.trans hkend)
    refine ⟨b''.write (t, i) 0, ?_, ⟨?_, ?_, ?_, ?_⟩⟩
    · simp only [freewalkStep, hbi, hc]
      rw [hrun]
      rfl
    · simp [hfl'', hb.freelist]
    · rw [write_kend, hk'', hb.kend]
    · intro x hx hxt
      rw [List.flatMap_append, List.flatMap_singleton, List.mem_append, not_or] at hx
      rw [write_page_of_ne _ _ _ hxt, hpage'' x hx.2, hb.page x hx.1 hxt]
    · intro j hj
      have hji : j ≠ i := fun e => hj (List.mem_append_right _ (e ▸ List.mem_singleton_self i))
      rw [write_page, if_neg (fun h => hji h.2), hpage'' t (htS i),
        hb.entry j (fun h => hj (List.mem_append_left _ h))]

/-- A table whose valid entries all point to tables, where the subtree of entry `i` frees the pages
`S i`, the `S i` being disjoint and without the table, and which `kfree` takes: it frees them all,
entry by entry, and then itself. -/
theorem frees_table (ht : t % pgSize = 0) (hlo : m.kend ≤ t) (hhi : t < phystop) :
    Frees (d + 1) m t ((List.finRange 512).flatMap S ++ [t]) := by
  intro m' hagree hkend
  obtain ⟨b, hloop, hb⟩ := foldlM_ok_of_step (freewalkStep (freewalk d) t) (LoopFreed S t m')
    (List.finRange 512) (fun pre i post b hl hb => hb.step S hv hsub hnone hdisj htS hagree hkend hl)
    ⟨by simp, rfl, fun _ _ _ => rfl, fun _ _ => rfl⟩
  refine ⟨_, freewalk_kfree ht (hb.kend ▸ hkend ▸ hlo) hhi hloop, ?_, hb.kend, fun x hx => ?_⟩
  · simp [hb.freelist]
  · have hxt : x ≠ t := fun h => hx (h ▸ List.mem_append_right _ List.mem_cons_self)
    rw [kfree_fill_page hxt]
    exact hb.page x (fun h => hx (List.mem_append_left _ h)) hxt

end

end

/-! ## A tree of three levels -/

/-- The nodes of a tree of three levels in the order `freewalk` frees their tables: under each entry
of the root, the level-0 tables entry by entry and then the level-1 table; the root last. -/
def nodeOrder : List Node :=
  (List.finRange 512).flatMap (fun i => (List.finRange 512).map (Node.l0 i) ++ [Node.l1 i]) ++
    [Node.root]

/-- The tables of the tree at `root`, in the order `freewalk` frees them. -/
def freeOrder (m : Kmem) (root : UInt64) : List UInt64 := nodeOrder.filterMap (m.table root)

theorem mem_nodeOrder (n : Node) : n ∈ nodeOrder := by
  cases n with
  | root => simp [nodeOrder]
  | l1 i => simp [nodeOrder]
  | l0 i j => simp [nodeOrder]

theorem nodup_nodeOrder : nodeOrder.Nodup := by
  have hnd := List.nodup_finRange 512
  rw [nodeOrder, List.nodup_append]
  refine ⟨List.nodup_flatMap.mpr ⟨fun i _ => ?_, hnd.imp fun {i i'} hne => ?_⟩,
    List.nodup_singleton _, ?_⟩
  · rw [List.nodup_append]
    exact ⟨hnd.map fun j j' h => by cases h; rfl, List.nodup_singleton _, by simp⟩
  · intro n hn hn'
    simp only [List.mem_append, List.mem_map, List.mem_finRange, true_and, List.mem_singleton] at hn hn'
    rcases hn with ⟨j, rfl⟩ | rfl <;> rcases hn' with ⟨j', h⟩ | h <;> cases h <;> exact hne rfl
  · intro a ha b hb
    rw [List.mem_singleton] at hb
    subst hb
    simp only [List.mem_flatMap, List.mem_append, List.mem_map, List.mem_singleton] at ha
    obtain ⟨i, -, ⟨j, -, rfl⟩ | rfl⟩ := ha <;> simp

theorem mem_freeOrder {m : Kmem} {root x : UInt64} : x ∈ freeOrder m root ↔ m.IsTable root x := by
  simp [freeOrder, IsTable, mem_nodeOrder]

/-- The tables of a tree are distinct, so `freeOrder` lists each once. -/
theorem nodup_freeOrder {m : Kmem} {root : UInt64} (ht : Tree m root) : (freeOrder m root).Nodup :=
  nodup_nodeOrder.filterMap fun n n' t hn hn' => ht.inj n n' t hn hn'

theorem interior_aligned {pte t : UInt64} (h : interior pte = some t) : t % pgSize = 0 := by
  rw [← (interior_eq_some h).2]
  exact pte2pa_aligned pte

section
variable {m : Kmem} {root : UInt64}

/-- The tables under the root's entry `i`, in the order `freewalk` frees them. -/
theorem filterMap_l1 {i : Fin 512} {t1 : UInt64} (h : m.l1 root i = some t1) :
    ((List.finRange 512).map (Node.l0 i) ++ [Node.l1 i]).filterMap (m.table root) =
      (List.finRange 512).flatMap (fun j => (m.l0 root i j).toList) ++ [t1] := by
  have key : ∀ l : List (Fin 512), (l.map (Node.l0 i)).filterMap (m.table root) =
      l.flatMap (fun j => (m.l0 root i j).toList) := by
    intro l
    induction l with
    | nil => rfl
    | cons j l ih =>
      rw [List.map_cons, List.filterMap_cons, List.flatMap_cons, ← ih]
      cases hj : m.l0 root i j <;> simp [table, hj]
  rw [List.filterMap_append, key]
  simp [table, h]

/-- On a tree with no leaf whose tables `kfree` takes, `freewalk` from the root frees every table
once, in `freeOrder`. -/
theorem frees_tree (ht : Tree m root) (hleaf : ∀ i j k, m.leaf root i j k = none)
    (hr : root % pgSize = 0) (hrange : ∀ t, m.IsTable root t → m.kend ≤ t ∧ t < phystop) :
    Frees 3 m root (freeOrder m root) := by
  -- level 0: no valid entry
  have h0 : ∀ i j t0, m.l0 root i j = some t0 → Frees 1 m t0 [t0] := by
    intro i j t0 h
    have hv : ∀ k, m.page t0 k &&& pteV = 0 := fun k => leafOf_eq_none.mp (by
      simpa [leaf, entry, h] using hleaf i j k)
    have hr0 := hrange t0 ⟨.l0 i j, h⟩
    obtain ⟨t1, -, h'⟩ := Option.bind_eq_some_iff.mp h
    exact frees_empty hv (interior_aligned h') hr0.1 hr0.2
  -- level 1: the level-0 tables below it
  have h1 : ∀ i t1, m.l1 root i = some t1 →
      Frees 2 m t1 ((List.finRange 512).flatMap (fun j => (m.l0 root i j).toList) ++ [t1]) := by
    intro i t1 h
    have hl0 : ∀ j, m.l0 root i j = interior (m.page t1 j) := fun j => by simp [l0, h]
    have hr1 := hrange t1 ⟨.l1 i, h⟩
    refine frees_table (fun j => (m.l0 root i j).toList) (fun j hv => ht.l1_valid i t1 j h hv)
      ?_ ?_ ?_ ?_ (interior_aligned h) hr1.1 hr1.2
    · intro j c hc
      rw [hl0, hc]
      exact h0 i j c (by rw [hl0, hc])
    · intro j hc
      rw [hl0, hc]
      rfl
    · intro j j' hjj x hx hx'
      simp only [Option.mem_toList] at hx hx'
      have := ht.inj (.l0 i j) (.l0 i j') x hx hx'
      cases this
      exact hjj rfl
    · intro j hj
      simp only [Option.mem_toList] at hj
      cases ht.inj (.l1 i) (.l0 i j) t1 h hj
  -- the root: the tables under each entry
  have hfr : freeOrder m root = (List.finRange 512).flatMap
      (fun i => ((List.finRange 512).map (Node.l0 i) ++ [Node.l1 i]).filterMap (m.table root)) ++
        [root] := by
    simp only [freeOrder, nodeOrder, List.filterMap_append, List.filterMap_flatMap]
    rfl
  rw [hfr]
  have hrr := hrange root ⟨.root, rfl⟩
  refine frees_table _ ht.root_valid ?_ ?_ ?_ ?_ hr hrr.1 hrr.2
  · intro i c hc
    rw [filterMap_l1 hc]
    exact h1 i c hc
  · intro i hc
    have hl0 : ∀ j, m.l0 root i j = none := fun j => by simp [l0, l1, hc]
    simp [table, hl0, l1, hc]
  · intro i i' hii x hx hx'
    simp only [List.mem_filterMap, List.mem_append, List.mem_map, List.mem_finRange, true_and,
      List.mem_singleton] at hx hx'
    obtain ⟨n, hn, hnx⟩ := hx
    obtain ⟨n', hn', hnx'⟩ := hx'
    obtain rfl := ht.inj n n' x hnx hnx'
    rcases hn with ⟨j, rfl⟩ | rfl <;> rcases hn' with ⟨j', h⟩ | h <;> cases h <;> exact hii rfl
  · intro i hi
    simp only [List.mem_filterMap, List.mem_append, List.mem_map, List.mem_finRange, true_and,
      List.mem_singleton] at hi
    obtain ⟨n, hn, hnt⟩ := hi
    have := ht.inj n .root root hnt rfl
    rcases hn with ⟨j, rfl⟩ | rfl <;> cases this

/-- `freewalk` on a tree with no leaf, whose tables `kfree` takes: it never panics, and pushes every
table once on a free list that held none of them. -/
theorem freewalk_tree (ht : Tree m root) (hleaf : ∀ i j k, m.leaf root i j k = none)
    (hr : root % pgSize = 0) (hrange : ∀ t, m.IsTable root t → m.kend ≤ t ∧ t < phystop) :
    ∃ m', freewalk 3 m root = .ok m' ∧ m'.freelist.Nodup ∧
      ∀ x, x ∈ m'.freelist ↔ x ∈ m.freelist ∨ m.IsTable root x := by
  obtain ⟨m', hrun, hfl, -, -⟩ := frees_tree ht hleaf hr hrange m (fun _ _ => rfl) rfl
  refine ⟨m', hrun, ?_, fun x => ?_⟩
  · rw [hfl, List.nodup_append]
    refine ⟨List.nodup_reverse.mpr (nodup_freeOrder ht), ht.nodup, fun x hx y hy hxy => ?_⟩
    rw [List.mem_reverse, mem_freeOrder] at hx
    exact ht.table_not_free x hx (hxy ▸ hy)
  · rw [hfl, List.mem_append, List.mem_reverse, mem_freeOrder, or_comm]

/-- A page below `MAXVA` is mapped by the leaf at its indices. -/
theorem map_addr {n : Nat} (hn : n * 4096 < 2 ^ 38) :
    m.map root (addr 0 n) = m.leaf root (px 2 (addr 0 n)) (px 1 (addr 0 n)) (px 0 (addr 0 n)) := by
  have hlt : addr 0 n < maxVA := by
    rw [UInt64.lt_iff_toNat_lt, addr_toNat (by simp; omega), maxVA_toNat]
    simpa using hn
  simp only [map, hlt, if_true]

end

section
variable {m : Kmem} {root sz : UInt64}

/-- `uvmfree(pagetable, sz)` on a tree whose leaves map exactly the pages below `PGROUNDUP(sz)`,
`sz ≤ MAXVA`, each page at one leaf only and not `PTE_V` alone, and whose pages and tables `kfree`
takes: it never panics, and the free list then holds what it held, every page the tree mapped and
every table of the tree, each once. -/
theorem uvmfree_spec (ht : Tree m root) (hr : root % pgSize = 0) (hsz : sz.toNat ≤ 2 ^ 38)
    (hmapped : ∀ k < (sz.toNat + 4095) / 4096, ∃ pa f,
      m.map root (addr 0 k) = some (pa, f) ∧ f ≠ pteV)
    (hleaves : ∀ i j k x, m.leaf root i j k = some x → ∃ n < (sz.toNat + 4095) / 4096,
      i = px 2 (addr 0 n) ∧ j = px 1 (addr 0 n) ∧ k = px 0 (addr 0 n))
    (hone : ∀ i j k i' j' k' x f f', m.leaf root i j k = some (x, f) →
      m.leaf root i' j' k' = some (x, f') → i = i' ∧ j = j' ∧ k = k')
    (hkend : 0 < m.kend) (hpages : ∀ x, m.IsLeaf root x → m.kend ≤ x ∧ x < phystop)
    (htables : ∀ t, m.IsTable root t → m.kend ≤ t ∧ t < phystop) :
    ∃ m', uvmfree m root sz = .ok m' ∧ m'.freelist.Nodup ∧
      ∀ x, x ∈ m'.freelist ↔ x ∈ m.freelist ∨ m.IsLeaf root x ∨ m.IsTable root x := by
  have hpg : ∀ n < (sz.toNat + 4095) / 4096, n * 4096 < 2 ^ 38 := fun n hn => by omega
  -- the pages of the process are the leaves, at their own addresses
  have hleafmap : ∀ x, m.IsLeaf root x ↔
      ∃ n < (sz.toNat + 4095) / 4096, ∃ f, m.map root (addr 0 n) = some (x, f) := by
    intro x
    constructor
    · rintro ⟨i, j, k, f, h⟩
      obtain ⟨n, hn, rfl, rfl, rfl⟩ := hleaves i j k _ h
      exact ⟨n, hn, f, by rw [map_addr (hpg n hn)]; exact h⟩
    · rintro ⟨n, hn, f, h⟩
      rw [map_addr (hpg n hn)] at h
      exact ⟨_, _, _, f, h⟩
  by_cases hs : sz > 0
  · -- `uvmunmap` frees the pages, then `freewalk` the tables
    have hup := pgRoundUp_toNat (show sz.toNat + 4095 < 2 ^ 64 by omega)
    have hn : (pgRoundUp sz / pgSize).toNat = (sz.toNat + 4095) / 4096 := by
      rw [UInt64.toNat_div, hup]
      show _ / 4096 = _
      omega
    have hva : (0 : UInt64) % pgSize = 0 := by decide
    have hmax : (0 : UInt64).toNat + (pgRoundUp sz / pgSize).toNat * 4096 ≤ 2 ^ 38 := by
      rw [hn]
      simp
      omega
    have hmapped' : ∀ k < (pgRoundUp sz / pgSize).toNat, ∃ pa f,
        m.map root (addr 0 k) = some (pa, f) ∧ f ≠ pteV := by
      rw [hn]
      exact hmapped
    -- each page is freed by `kfree`, and mapped there alone
    have hfree : true = true → 0 < m.kend ∧ ∀ k < (pgRoundUp sz / pgSize).toNat, ∀ pa f,
        m.map root (addr 0 k) = some (pa, f) → m.kend ≤ pa ∧ pa < phystop ∧ ∀ i j k' f',
          m.leaf root i j k' = some (pa, f') →
            i = px 2 (addr 0 k) ∧ j = px 1 (addr 0 k) ∧ k' = px 0 (addr 0 k) := by
      refine fun _ => ⟨hkend, ?_⟩
      rw [hn]
      intro k hk pa f hm
      have hl : m.IsLeaf root pa := (hleafmap pa).mpr ⟨k, hk, f, hm⟩
      refine ⟨(hpages pa hl).1, (hpages pa hl).2, fun i j k' f' h' => ?_⟩
      rw [map_addr (hpg k hk)] at hm
      obtain ⟨rfl, rfl, rfl⟩ := hone _ _ _ _ _ _ _ _ _ h' hm
      exact ⟨rfl, rfl, rfl⟩
    obtain ⟨m1, hrun1, ht1, hrem, hfl1, hk1, htab1, -, hsub1⟩ :=
      uvmunmap_spec ht hva hmax hmapped' hfree
    rw [hn] at hrem hfl1
    have hleaf1 : ∀ i j k, m1.leaf root i j k = none := by
      intro i j k
      cases h : m1.leaf root i j k with
      | none => rfl
      | some x =>
        obtain ⟨n, hn', rfl, rfl, rfl⟩ := hleaves i j k x (hsub1 i j k x h)
        rw [← map_addr (hpg n hn'), hrem.1 n hn'] at h
        cases h
    obtain ⟨m2, hrun2, hnd, hfl2⟩ := freewalk_tree ht1 hleaf1 hr (by
      rw [isTable_eq htab1, hk1]
      exact htables)
    refine ⟨m2, ?_, hnd, fun x => ?_⟩
    · simp only [uvmfree, if_pos hs, hrun1]
      exact (pure_bind m1 _).trans hrun2
    · rw [hfl2, hfl1, isTable_eq htab1, hleafmap]
      simp only [true_and, or_assoc]
  · -- nothing is mapped: `freewalk` alone
    have h0 : (sz.toNat + 4095) / 4096 = 0 := by
      have : sz = 0 := by
        by_contra h
        exact hs (UInt64.pos_iff_ne_zero.mpr h)
      subst this
      rfl
    have hleaf0 : ∀ i j k, m.leaf root i j k = none := by
      intro i j k
      cases h : m.leaf root i j k with
      | none => rfl
      | some x =>
        obtain ⟨n, hn, -⟩ := hleaves i j k x h
        omega
    obtain ⟨m2, hrun2, hnd, hfl2⟩ := freewalk_tree ht hleaf0 hr htables
    refine ⟨m2, ?_, hnd, fun x => ?_⟩
    · simp only [uvmfree, if_neg hs]
      exact (pure_bind m _).trans hrun2
    · rw [hfl2, hleafmap, h0]
      simp

/-- `exit` of the process `exec` gave one page: its tree at `0x3000` as `uvmalloc` left it. -/
theorem uvmfree_spec_one_page :
    ∃ m1, uvmalloc ⟨fun _ _ => 0, [0x5000, 0x6000, 0x7000, 0x8000, 0x9000, 0xa000], 0x1000⟩ 0x3000 0 4096 0 =
        .ok (m1, 4096) ∧
      ∃ m', uvmfree m1 0x3000 4096 = .ok m' ∧ m'.freelist.Nodup ∧
        ∀ x, x ∈ m'.freelist ↔ x ∈ m1.freelist ∨ m1.IsLeaf 0x3000 x ∨ m1.IsTable 0x3000 x := by
  obtain ⟨m1, ps, hrun, gr, hlen, -⟩ := uvmalloc_first_page
  have h0 : ∀ i j k, Kmem.leaf ⟨fun _ _ => 0, [0x5000, 0x6000, 0x7000, 0x8000, 0x9000, 0xa000], 0x1000⟩
      0x3000 i j k = none := by
    intro i j k
    simp [leaf, entry, l0, l1]
  have hmax : (0 : UInt64).toNat + ps.length * 4096 ≤ 2 ^ 38 := by rw [hlen]; decide
  -- what `kfree` takes: the pages that were free
  have hrange : ∀ x ∈ [(0x5000 : UInt64), 0x6000, 0x7000, 0x8000, 0x9000, 0xa000], m1.kend ≤ x ∧ x < phystop := by
    intro x hx
    rw [gr.kend]
    simp only [List.mem_cons, List.not_mem_nil, or_false] at hx
    rcases hx with rfl | rfl | rfl | rfl | rfl | rfl <;> exact ⟨by decide, by decide⟩
  have hleaves : ∀ i j k x, m1.leaf 0x3000 i j k = some x → ∃ n < ((4096 : UInt64).toNat + 4095) / 4096,
      i = px 2 (addr 0 n) ∧ j = px 1 (addr 0 n) ∧ k = px 0 (addr 0 n) := by
    intro i j k x h
    obtain ⟨n, hn, hp⟩ := gr.leaf_of_noLeaf h0 h
    exact ⟨n, by rw [hlen] at hn; simpa using hn, hp⟩
  -- both leaves of a page are the leaf of its address
  have hone : ∀ i j k i' j' k' x f f', m1.leaf 0x3000 i j k = some (x, f) →
      m1.leaf 0x3000 i' j' k' = some (x, f') → i = i' ∧ j = j' ∧ k = k' := by
    intro i j k i' j' k' x f f' h h'
    obtain ⟨n, hn, rfl⟩ := List.getElem_of_mem (gr.mem_of_isLeaf h0 hmax ⟨i, j, k, f, h⟩)
    obtain ⟨rfl, rfl, rfl⟩ := gr.leaf_only (Tree.empty rfl (by decide) (by decide) (by simp [pgSize]) (by decide))
      hmax hn h
    obtain ⟨rfl, rfl, rfl⟩ := gr.leaf_only (Tree.empty rfl (by decide) (by decide) (by simp [pgSize]) (by decide))
      hmax hn h'
    exact ⟨rfl, rfl, rfl⟩
  refine ⟨m1, hrun, uvmfree_spec gr.tree (by decide) (by decide) (fun k hk => ?_) hleaves hone
    (by rw [gr.kend]; decide) (fun x hx => hrange x (gr.fresh x (gr.mem_of_isLeaf h0 hmax hx)).1)
    (fun t ht => ?_)⟩
  · obtain rfl : k = 0 := by simp at hk; omega
    exact ⟨_, _, gr.mapped 0 (by omega), uvmPerm_ne 0⟩
  · rcases gr.tables t ht with h | h
    · rw [Tree.isTable_of_empty rfl h, gr.kend]
      exact ⟨by decide, by decide⟩
    · exact hrange t h

end

end Xv6.Vm
