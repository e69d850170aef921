import Mathlib
import Xv6.Vm.Grow

/-!
# Copying a process's memory (`vm.c`: `uvmcopy`)

`fork` copies the parent's memory below `sz` into the child's page table. For each page, `walk`
finds the parent's PTE, `kalloc` takes a page, `memmove` copies the parent's page into it, and
`mappages` maps it in the child with the parent's flags. A failed `kalloc` or `mappages` goes to
`err`, which unmaps and frees the pages mapped so far. Both trees are in one memory: the child's
tables and pages come off the free list, so the parent's are never written.

* `uvmcopy` : the function as the C code runs it, the `uint flags` passed on as the `int perm`;
* `Copied` : the state after some pages: the child maps each to a fresh page holding the parent's,
  with the parent's flags, and the parent's tables and pages are as they were;
* `Copied.turn`, `Copied.undo` : one turn of the loop, and the roll-back at `err`;
* `uvmcopy_spec` : on a parent that maps every page below `sz` and a child that maps none of them,
  `uvmcopy` never panics; `0` leaves every page copied, `-1` leaves the child as it was with every
  page it took free again or hung as a table; either way the parent's tree, what it maps and its
  pages are as they were.
-/

namespace Xv6.Vm

open Kmem

/-- `memmove(mem, (char*)pa, PGSIZE)`: the page at `pa` over the page at `mem`. -/
def Kmem.copyPage (m : Kmem) (mem pa : UInt64) : Kmem :=
  { m with page := Function.update m.page mem (m.page pa) }

/-- `PTE_FLAGS(*pte)` kept in a `uint`, then passed as the `int perm` of `mappages`. -/
def flagsPerm (flags : UInt64) : Int32 := Int32.ofNat flags.toUInt32.toNat

/-- `err:` in `uvmcopy` at `i`: `uvmunmap(new, 0, i / PGSIZE, 1)`, then `-1`. -/
def uvmcopyErr (m : Kmem) (new i : UInt64) : Except String (Kmem × Int) :=
  match uvmunmap m new 0 (i / pgSize) true with
  | .error e => .error e
  | .ok m' => .ok (m', -1)

/-- The loop of `uvmcopy` from `i`; `fuel` bounds the turns. -/
def uvmcopyLoop (old new sz : UInt64) : Nat → Kmem → UInt64 → Except String (Kmem × Int)
  | 0, m, _ => .ok (m, 0)
  | fuel + 1, m, i =>
    if i < sz then
      match walk m old i false with
      | .error e => .error e
      | .ok (_, none) => .error "uvmcopy: pte should exist"
      | .ok (m1, some pte) =>
        if m1.read pte &&& pteV = 0 then .error "uvmcopy: page not present"
        else
          let pa := pte2pa (m1.read pte)
          let flags := pteFlags (m1.read pte)
          let (m2, mem) := kalloc m1
          if mem = 0 then uvmcopyErr m2 new i
          else
            match mappages (m2.copyPage mem pa) new i pgSize mem (flagsPerm flags) with
            | .error e => .error e
            | .ok (m3, r) =>
              if r ≠ 0 then
                match kfree m3 mem with
                | .error e => .error e
                | .ok m4 => uvmcopyErr m4 new i
              else uvmcopyLoop old new sz fuel m3 (i + pgSize)
    else .ok (m, 0)

/-- `uvmcopy(old, new, sz)`: memory after, and `0` or `-1`. The loop takes one turn per page below
`sz`. -/
def uvmcopy (m : Kmem) (old new sz : UInt64) : Except String (Kmem × Int) :=
  uvmcopyLoop old new sz (sz.toNat / 4096 + 1) m 0

/-! ## Flags -/

theorem flagsPerm_eq {f : UInt64} (h : f < 1024) : flagsPerm f = Int32.ofNat f.toNat := by
  have h' := UInt64.lt_iff_toNat_lt.mp h
  simp only [flagsPerm, UInt64.toNat_toUInt32]
  congr 1
  exact Nat.mod_eq_of_lt (by simp at h'; omega)

theorem flagsPerm_toInt {f : UInt64} (h : f < 1024) : (flagsPerm f).toInt = f.toNat := by
  have h' := UInt64.lt_iff_toNat_lt.mp h
  rw [flagsPerm_eq h, Int32.toInt_ofNat_of_lt (by simp at h'; omega)]

theorem permBits_flagsPerm {f : UInt64} (h : f < 1024) : permBits (flagsPerm f) = f := by
  have h' := UInt64.lt_iff_toNat_lt.mp h
  rw [flagsPerm_eq h]
  exact asInt_of_lt (by simp at h'; omega)

theorem pteFlags_lt (pte : UInt64) : pteFlags pte < 1024 := by
  rw [UInt64.lt_iff_toNat_lt, pteFlags, UInt64.toNat_and]
  exact lt_of_le_of_lt Nat.and_le_right (by decide)

/-- Flags with `PTE_V` set already: `mappages`'s `| PTE_V` changes nothing. -/
theorem or_pteV_of_valid {f : UInt64} (h : f &&& pteV ≠ 0) : f ||| pteV = f := by
  have hv : pteV = 1 := by decide
  rw [hv] at h ⊢
  have h1 : f.toNat % 2 = 1 := by
    have : (f &&& 1).toNat ≠ 0 := fun h0 => h (UInt64.toNat_inj.mp (by simpa using h0))
    rw [UInt64.toNat_and, UInt64.toNat_one, Nat.and_one_is_mod] at this
    omega
  apply UInt64.toNat_inj.mp
  rw [UInt64.toNat_or, UInt64.toNat_one]
  apply Nat.eq_of_testBit_eq
  intro i
  rw [Nat.testBit_or]
  cases i with
  | zero => simp [Nat.testBit_zero, h1]
  | succ i => simp [Nat.testBit_succ]

theorem pteFlags_valid {pte : UInt64} (h : pte &&& pteV ≠ 0) : pteFlags pte &&& pteV ≠ 0 := by
  rwa [pteFlags, UInt64.and_assoc, show (0x3FF : UInt64) &&& pteV = pteV by decide]

/-- The flags of a mapped page, handed back to `mappages`: the leaf it writes has them. -/
theorem permBits_flagsPerm_or {m : Kmem} {root a pa f : UInt64} (h : m.map root a = some (pa, f)) :
    permBits (flagsPerm f) ||| pteV = f ∧ 0 ≤ (flagsPerm f).toInt ∧ (flagsPerm f).toInt < 1024 := by
  obtain ⟨-, t0, -, hv, -, rfl⟩ := map_eq_some h
  have hlt := pteFlags_lt (m.page t0 (px 0 a))
  refine ⟨by rw [permBits_flagsPerm hlt, or_pteV_of_valid (pteFlags_valid hv)], ?_, ?_⟩
  · rw [flagsPerm_toInt hlt]
    omega
  · rw [flagsPerm_toInt hlt]
    exact_mod_cast UInt64.lt_iff_toNat_lt.mp hlt

/-! ## Two trees in one memory -/

/-- A tree whose tables keep their pages, in memory whose free list is part of the old one and
meets `Tree`'s conditions for another root, is still a tree. -/
theorem Tree.of_free {m m' : Kmem} {root root' : UInt64} (ht : Tree m root) (ht' : Tree m' root')
    (h : ∀ t, m.IsTable root t → m'.page t = m.page t) (hfl : ∀ x ∈ m'.freelist, x ∈ m.freelist) :
    Tree m' root where
  root_valid i hv := by
    rw [h root ⟨.root, rfl⟩] at hv
    rw [l1_congr h]
    exact ht.root_valid i hv
  l1_valid i t1 j h1 hv := by
    rw [l1_congr h] at h1
    rw [h t1 ⟨.l1 i, h1⟩] at hv ⊢
    exact ht.l1_valid i t1 j h1 hv
  inj := by
    rw [table_congr h]
    exact ht.inj
  leaf_not_table := by
    rw [isLeaf_congr h, isTable_congr h]
    exact ht.leaf_not_table
  nodup := ht'.nodup
  zero_not_free := ht'.zero_not_free
  aligned_free := ht'.aligned_free
  table_not_free t := by
    rw [isTable_congr h]
    exact fun h1 hf => ht.table_not_free t h1 (hfl t hf)
  leaf_not_free pa := by
    rw [isLeaf_congr h]
    exact fun hl hf => ht.leaf_not_free pa hl (hfl pa hf)

/-- `kalloc` and then `memmove` from a page that is not free: the page comes off the free list
holding the copy, and no other page changes. -/
theorem copyPage_alloc (m : Kmem) {p pa : UInt64} (rest : List UInt64) (junk : UInt64) (hpa : pa ≠ p) :
    (({ m with freelist := rest }.fill p junk).copyPage p pa).page p = m.page pa ∧
      (∀ x, x ≠ p → (({ m with freelist := rest }.fill p junk).copyPage p pa).page x = m.page x) ∧
      (({ m with freelist := rest }.fill p junk).copyPage p pa).freelist = rest ∧
      (({ m with freelist := rest }.fill p junk).copyPage p pa).kend = m.kend := by
  refine ⟨by simp [copyPage, fill, hpa], fun x hx => by simp [copyPage, fill, hx], rfl, rfl⟩

/-! ## The state of the loop -/

/-- The state of `uvmcopy` after it copied the first `ps.length` pages from `0` into the pages `ps`,
started on `m0`: the child's tree `new` maps each to its page of `ps`, taken off the free list and
holding what the parent's page held, with the parent's flags; the tables hung on the way came off the
free list; every page that was free is free, a table of the child, or one of `ps`; and the parent's
tables and pages are as they were. -/
structure Copied (m0 m : Kmem) (old new : UInt64) (ps : List UInt64) : Prop where
  tree : Tree m new
  kend : m.kend = m0.kend
  free_sub : ∀ x ∈ m.freelist, x ∈ m0.freelist
  nodup : ps.Nodup
  fresh : ∀ p ∈ ps, p ∈ m0.freelist ∧ p ∉ m.freelist ∧ ¬ m.IsTable new p
  mapped : ∀ k (hk : k < ps.length), ∃ pa f, m0.map old (addr 0 k) = some (pa, f) ∧
    m.map new (addr 0 k) = some (ps[k], f) ∧ m.page ps[k] = m0.page pa
  frame : ∀ va, va % pgSize = 0 → (∀ k < ps.length, va ≠ addr 0 k) → m.map new va = m0.map new va
  leaves : ∀ i j k x, m.leaf new i j k = some x → m0.leaf new i j k = some x ∨
    ∃ k' < ps.length, i = px 2 (addr 0 k') ∧ j = px 1 (addr 0 k') ∧ k = px 0 (addr 0 k')
  tables : ∀ x, m.IsTable new x → m0.IsTable new x ∨ x ∈ m0.freelist
  back : ∀ x ∈ m0.freelist, x ∈ m.freelist ∨ m.IsTable new x ∨ x ∈ ps
  parent : ∀ x, m0.IsTable old x ∨ m0.IsLeaf old x → m.page x = m0.page x

namespace Copied

variable {m0 m : Kmem} {old new : UInt64} {ps : List UInt64}

theorem start (ht : Tree m0 new) : Copied m0 m0 old new [] where
  tree := ht
  kend := rfl
  free_sub _ h := h
  nodup := List.nodup_nil
  fresh _ h := absurd h List.not_mem_nil
  mapped k hk := absurd hk (Nat.not_lt_zero k)
  frame _ _ _ := rfl
  leaves _ _ _ _ h := .inl h
  tables _ h := .inl h
  back _ h := .inl h
  parent _ _ := rfl

theorem parent_map (cp : Copied m0 m old new ps) : m.map old = m0.map old :=
  map_congr fun t h => cp.parent t (.inl h)

/-- A page of `ps` is mapped by the leaf at its own address alone. -/
theorem leaf_only (cp : Copied m0 m old new ps) (hn0 : Tree m0 new) (hmax : ps.length * 4096 ≤ 2 ^ 38)
    {k : Nat} (hk : k < ps.length) {i j k' : Fin 512} {f' : UInt64}
    (hl : m.leaf new i j k' = some (ps[k], f')) :
    i = px 2 (addr 0 k) ∧ j = px 1 (addr 0 k) ∧ k' = px 0 (addr 0 k) := by
  have hfree0 := (cp.fresh ps[k] (List.getElem_mem hk)).1
  rcases cp.leaves i j k' _ hl with h0 | ⟨k'', hk'', rfl, rfl, rfl⟩
  · exact absurd hfree0 (hn0.leaf_not_free _ ⟨i, j, k', f', h0⟩)
  · have hlt : addr 0 k'' < maxVA := by
      rw [UInt64.lt_iff_toNat_lt, addr_toNat (by simp; omega), maxVA_toNat]
      simp
      omega
    have hmap : m.map new (addr 0 k'') = some (ps[k], f') := by
      simpa only [map, hlt, if_true] using hl
    obtain ⟨_, _, _, hm, _⟩ := cp.mapped k'' hk''
    rw [hm] at hmap
    have heq : ps[k''] = ps[k] := (Prod.mk.inj (Option.some.inj hmap)).1
    obtain rfl : k'' = k := (List.Nodup.getElem_inj_iff cp.nodup).mp heq
    exact ⟨rfl, rfl, rfl⟩

section
variable (ht0 : Tree m0 old) (hsep : ∀ x, m0.IsTable new x → ¬ m0.IsTable old x ∧ ¬ m0.IsLeaf old x)
include ht0

theorem parent_tree (cp : Copied m0 m old new ps) : Tree m old :=
  ht0.of_free cp.tree (fun t h => cp.parent t (.inl h)) cp.free_sub

/-- A page of `ps` is not one of the parent's. -/
theorem fresh_not_parent (cp : Copied m0 m old new ps) {q : UInt64} (hq : q ∈ ps)
    (hx : m0.IsTable old q ∨ m0.IsLeaf old q) : False := by
  rcases hx with hx | hx
  · exact ht0.table_not_free q hx (cp.fresh q hq).1
  · exact ht0.leaf_not_free q hx (cp.fresh q hq).1

include hsep

/-- The parent's tables and pages are neither tables of the child nor free. -/
theorem parent_off (cp : Copied m0 m old new ps) {x : UInt64} (hx : m0.IsTable old x ∨ m0.IsLeaf old x) :
    ¬ m.IsTable new x ∧ x ∉ m.freelist := by
  have hx0 : x ∉ m0.freelist := by
    rcases hx with h | h
    · exact ht0.table_not_free x h
    · exact ht0.leaf_not_free x h
  refine ⟨fun h => ?_, fun h => hx0 (cp.free_sub x h)⟩
  rcases cp.tables x h with h' | h'
  · rcases hx with hx | hx
    · exact (hsep x h').1 hx
    · exact (hsep x h').2 hx
  · exact hx0 h'

/-- One turn of `uvmcopy` at the page after `ps`, which the parent maps to `pa` with `f` and the
child does not map, with the page `p` that `kalloc` took: `mappages` maps it holding a copy of `pa`,
and `p` joins `ps`; or `walk` finds no table, and `kfree` gives `p` back. -/
theorem turn (cp : Copied m0 m old new ps) (hmax : (ps.length + 1) * 4096 ≤ 2 ^ 38)
    {pa f : UInt64} (hpar : m0.map old (addr 0 ps.length) = some (pa, f))
    (hm0 : m0.map new (addr 0 ps.length) = none)
    (hrange : ∀ x ∈ m0.freelist, m0.kend ≤ x ∧ x < phystop) {p : UInt64} {rest : List UInt64}
    (hfl : m.freelist = p :: rest) :
    ∃ m' r, mappages (({ m with freelist := rest }.fill p 0x0505050505050505).copyPage p pa) new
        (addr 0 ps.length) pgSize p (flagsPerm f) = .ok (m', r) ∧
      (r = 0 ∧ Copied m0 m' old new (ps ++ [p]) ∨
        r = -1 ∧ ∃ m4, kfree m' p = .ok m4 ∧ Copied m0 m4 old new ps) := by
  have hz : (0 : UInt64).toNat = 0 := rfl
  have ha0 : (0 : UInt64) % pgSize = 0 := by decide
  have hne : ∀ k < ps.length, addr 0 ps.length ≠ addr 0 k := by
    intro k hk h
    have := addr_inj (by rw [hz]; omega) (by rw [hz]; omega) h
    omega
  have hlt : addr 0 ps.length < maxVA := by
    rw [UInt64.lt_iff_toNat_lt, addr_toNat (by rw [hz]; omega), maxVA_toNat, hz]
    omega
  obtain ⟨hflags, hperm0, hperm1⟩ := permBits_flagsPerm_or hpar
  -- the page `p` off the free list, and the parent's page `pa`
  have hp : p ∈ m.freelist := by rw [hfl]; exact List.mem_cons_self
  have hpt : ¬ m.IsTable new p := cp.tree.not_table_of_free hp
  have hprest : p ∉ rest := (List.nodup_cons.mp (hfl ▸ cp.tree.nodup)).1
  have hpal : p % pgSize = 0 := cp.tree.aligned_free p hp
  have hpaleaf : m0.IsLeaf old pa := ⟨_, _, _, f, by simpa only [map, hlt, if_true] using hpar⟩
  have hpap : pa ≠ p := fun h => (cp.parent_off ht0 hsep (.inr hpaleaf)).2 (h ▸ hp)
  obtain ⟨hcopy, hframe2, hfl2, hkend2⟩ :=
    copyPage_alloc m rest 0x0505050505050505 hpap
  set m2 := ({ m with freelist := rest }.fill p 0x0505050505050505).copyPage p pa with hm2
  have hagree : ∀ t, m.IsTable new t → m2.page t = m.page t :=
    fun t h => hframe2 t (fun e => hpt (e ▸ h))
  have ht2 : Tree m2 new :=
    cp.tree.of_sublist hagree (by rw [hfl2, hfl]; exact List.sublist_cons_self p rest)
  have hma : m2.map new (addr 0 ps.length) = none := by
    rw [map_congr hagree, cp.frame _ (addr_aligned ha0 _) hne]
    exact hm0
  have hpt2 : ¬ m2.IsTable new p := by rw [isTable_congr hagree]; exact hpt
  have hpf2 : p ∉ m2.freelist := by rw [hfl2]; exact hprest
  obtain ⟨m1, m', r, hrun, g, hr⟩ :=
    mappages_page ht2 (addr_aligned ha0 _) hlt hma hpt2 hpf2 hpal hperm0 hperm1
  -- what `walk` leaves, before the leaf is written
  have hrest0 : ∀ x ∈ rest, x ∈ m0.freelist := fun x h =>
    cp.free_sub x (by rw [hfl]; exact List.mem_cons_of_mem p h)
  have htab1 : ∀ x, m1.IsTable new x → m.IsTable new x ∨ x ∈ rest := by
    intro x h
    rcases g.table x h with h' | h'
    · exact .inl (by rwa [isTable_congr hagree] at h')
    · exact .inr (by rwa [hfl2] at h')
  have hfree1 : ∀ x ∈ m1.freelist, x ∈ rest := fun x h => hfl2 ▸ g.free_subset h
  have hpt1 : ¬ m1.IsTable new p := fun h =>
    (htab1 p h).elim (fun h' => hpt h') hprest
  have hpf1 : p ∉ m1.freelist := fun h => hprest (hfree1 p h)
  have hkeep1 : ∀ x, ¬ m.IsTable new x → x ∉ m.freelist → m1.page x = m.page x := by
    intro x hx hxf
    have hxp : x ≠ p := fun h => hxf (h ▸ hp)
    rw [g.frame x (by rwa [isTable_congr hagree]) (fun h => hxf (by
      rw [hfl]; exact List.mem_cons_of_mem p (hfl2 ▸ h))), hframe2 x hxp]
  have hp1 : m1.page p = m0.page pa := by
    rw [g.frame p hpt2 hpf2, hcopy, cp.parent pa (.inr hpaleaf)]
  have hps1 : ∀ q ∈ ps, ¬ m1.IsTable new q ∧ q ∉ m1.freelist ∧ m1.page q = m.page q := by
    intro q hq
    obtain ⟨-, hqf, hqt⟩ := cp.fresh q hq
    have hqrest : q ∉ rest := fun h => hqf (by rw [hfl]; exact List.mem_cons_of_mem p h)
    exact ⟨fun h => (htab1 q h).elim hqt hqrest, fun h => hqrest (hfree1 q h), hkeep1 q hqt hqf⟩
  have hparent1 : ∀ x, m0.IsTable old x ∨ m0.IsLeaf old x →
      ¬ m1.IsTable new x ∧ x ∉ m1.freelist ∧ m1.page x = m0.page x := by
    intro x hx
    obtain ⟨hxt, hxf⟩ := cp.parent_off ht0 hsep hx
    have hxrest : x ∉ rest := fun h => hxf (by rw [hfl]; exact List.mem_cons_of_mem p h)
    exact ⟨fun h => (htab1 x h).elim hxt hxrest, fun h => hxrest (hfree1 x h),
      (hkeep1 x hxt hxf).trans (cp.parent x hx)⟩
  have hmap1 : m1.map new = m.map new := g.map_eq.trans (map_congr hagree)
  have hleaf1 : m1.leaf new = m.leaf new := g.leaf.trans (leaf_congr hagree)
  have htabs1 : ∀ x, m1.IsTable new x → m0.IsTable new x ∨ x ∈ m0.freelist := fun x h =>
    (htab1 x h).elim (cp.tables x) (fun h' => .inr (hrest0 x h'))
  have hback1 : ∀ x ∈ m0.freelist, x ∈ m1.freelist ∨ m1.IsTable new x ∨ x ∈ ps ∨ x = p := by
    intro x hx
    rcases cp.back x hx with h | ⟨n, hn⟩ | h
    · rw [hfl, List.mem_cons] at h
      rcases h with rfl | h
      · exact .inr (.inr (.inr rfl))
      · rcases g.used x (by rwa [hfl2]) with h' | h'
        · exact .inl h'
        · exact .inr (.inl h')
    · exact .inr (.inl ⟨n, g.keep n x (by rwa [table_congr hagree])⟩)
    · exact .inr (.inr (.inl h))
  have hkend1 : m1.kend = m0.kend := g.kend.trans (hkend2.trans cp.kend)
  rcases hr with ⟨rfl, rfl⟩ | ⟨rfl, ht', htab', hfl', hkend', hpage', hleaf', hmap'⟩
  · -- `walk` found no table: `kfree` gives `p` back
    have hr0 := hrange p (cp.free_sub p hp)
    refine ⟨m', -1, hrun, .inr ⟨rfl, _, kfree_ok hpal (hkend1 ▸ hr0.1) hr0.2, ?_⟩⟩
    have hagree4 : ∀ x, x ≠ p → ({ m'.fill p 0x0101010101010101 with
        freelist := p :: m'.freelist } : Kmem).page x = m'.page x := fun x hx => by simp [hx]
    have hagree4t : ∀ t, m'.IsTable new t → ({ m'.fill p 0x0101010101010101 with
        freelist := p :: m'.freelist } : Kmem).page t = m'.page t :=
      fun t ht => hagree4 t fun e => hpt1 (e ▸ ht)
    have hpl1 : ¬ m'.IsLeaf new p := by
      rw [isLeaf_eq hleaf1]
      exact fun h => cp.tree.leaf_not_free p h hp
    exact {
      tree := g.tree.push hpt1 hpl1 hpf1 hpal (fun h0 => cp.tree.zero_not_free (h0 ▸ hp))
      kend := hkend1
      free_sub := by
        intro x hx
        rcases List.mem_cons.mp hx with rfl | h
        · exact cp.free_sub x hp
        · exact hrest0 x (hfree1 x h)
      nodup := cp.nodup
      fresh := by
        intro q hq
        have hqp : q ≠ p := fun h => (cp.fresh q hq).2.1 (h ▸ hp)
        refine ⟨(cp.fresh q hq).1, ?_, ?_⟩
        · simpa [hqp] using (hps1 q hq).2.1
        · rw [isTable_congr hagree4t]
          exact (hps1 q hq).1
      mapped := fun k hk => by
        obtain ⟨pa', f', h0, hmk, hpk⟩ := cp.mapped k hk
        have hqp : ps[k] ≠ p := fun h => (cp.fresh _ (List.getElem_mem hk)).2.1 (h ▸ hp)
        refine ⟨pa', f', h0, by rw [map_congr hagree4t, hmap1]; exact hmk, ?_⟩
        rw [hagree4 _ hqp, (hps1 _ (List.getElem_mem hk)).2.2, hpk]
      frame := fun va hva hk => by rw [map_congr hagree4t, hmap1]; exact cp.frame va hva hk
      leaves := fun i j k x h => by
        rw [leaf_congr hagree4t, hleaf1] at h
        exact cp.leaves i j k x h
      tables := fun x h => htabs1 x (by rwa [isTable_congr hagree4t] at h)
      back := by
        intro x hx
        rcases hback1 x hx with h | h | h | rfl
        · exact .inl (List.mem_cons_of_mem p h)
        · exact .inr (.inl (by rwa [isTable_congr hagree4t]))
        · exact .inr (.inr h)
        · exact .inl List.mem_cons_self
      parent := fun x hx => by
        have hxp : x ≠ p := fun h => (cp.parent_off ht0 hsep hx).2 (h ▸ hp)
        rw [hagree4 x hxp, (hparent1 x hx).2.2] }
  · -- the leaf is written: `p` joins `ps`
    refine ⟨m', 0, hrun, .inl ⟨rfl, ?_⟩⟩
    exact {
      tree := ht'
      kend := hkend'.trans hkend1
      free_sub := fun x hx => hrest0 x (hfree1 x (hfl' ▸ hx))
      nodup := List.nodup_append.mpr ⟨cp.nodup, List.nodup_singleton p,
        fun a ha b hb => by rw [List.mem_singleton.mp hb]; exact fun h => (cp.fresh a ha).2.1 (h ▸ hp)⟩
      fresh := by
        intro q hq
        rcases List.mem_append.mp hq with hq | hq
        · exact ⟨(cp.fresh q hq).1, by rw [hfl']; exact (hps1 q hq).2.1,
            by rw [isTable_eq htab']; exact (hps1 q hq).1⟩
        · obtain rfl := List.mem_singleton.mp hq
          exact ⟨cp.free_sub q hp, by rw [hfl']; exact hpf1, by rw [isTable_eq htab']; exact hpt1⟩
      mapped := by
        intro k hk
        by_cases hkl : k = ps.length
        · subst hkl
          refine ⟨pa, f, hpar, ?_, ?_⟩
          · rw [hmap' _ (addr_aligned ha0 _), if_pos rfl, hflags]
            simp
          · rw [List.getElem_append_right (le_refl _)]
            simp only [Nat.sub_self, List.getElem_singleton]
            rw [hpage' p hpt1, hp1]
        · have hk' : k < ps.length := by simp at hk; omega
          obtain ⟨pa', f', h0, hmk, hpk⟩ := cp.mapped k hk'
          refine ⟨pa', f', h0, ?_, ?_⟩
          · rw [hmap' _ (addr_aligned ha0 k), if_neg (fun h => hne k hk' h.symm),
              List.getElem_append_left hk', map_congr hagree]
            exact hmk
          · rw [List.getElem_append_left hk', hpage' _ (hps1 _ (List.getElem_mem hk')).1,
              (hps1 _ (List.getElem_mem hk')).2.2, hpk]
      frame := by
        intro va hva hk
        rw [hmap' va hva, if_neg (hk ps.length (by simp)), map_congr hagree]
        exact cp.frame va hva (fun k hk' => hk k (by simp; omega))
      leaves := by
        intro i j k x h
        rw [hleaf'] at h
        split at h
        · rename_i hij
          exact .inr ⟨ps.length, by simp, hij⟩
        · rw [congrFun (congrFun (congrFun (leaf_congr hagree) i) j) k] at h
          rcases cp.leaves i j k x h with h' | ⟨k', hk', hij⟩
          · exact .inl h'
          · exact .inr ⟨k', by simp; omega, hij⟩
      tables := fun x h => htabs1 x (by rwa [isTable_eq htab'] at h)
      back := by
        intro x hx
        rcases hback1 x hx with h | h | h | rfl
        · exact .inl (hfl' ▸ h)
        · exact .inr (.inl (by rwa [isTable_eq htab']))
        · exact .inr (.inr (List.mem_append_left _ h))
        · exact .inr (.inr (List.mem_append_right _ (List.mem_singleton_self _)))
      parent := fun x hx => by
        rw [hpage' x (hparent1 x hx).1]
        exact (hparent1 x hx).2.2 }

/-- The roll-back at `err:` after the pages `ps`: `uvmunmap(new, 0, i / PGSIZE, 1)` unmaps and frees
them, memory is as `Undone` says, and the parent's pages are as they were. -/
theorem undo (cp : Copied m0 m old new ps) (hn0 : Tree m0 new) (hmax : ps.length * 4096 ≤ 2 ^ 38)
    (hflags : ∀ k < ps.length, ∀ pa f, m0.map old (addr 0 k) = some (pa, f) → f ≠ pteV)
    (hkend : 0 < m0.kend) (hrange : ∀ x ∈ m0.freelist, m0.kend ≤ x ∧ x < phystop)
    (hm0 : ∀ k < ps.length, m0.map new (addr 0 k) = none) :
    ∃ m', uvmcopyErr m new (addr 0 ps.length) = .ok (m', -1) ∧ Undone m0 m' new ∧
      ∀ x, m0.IsTable old x ∨ m0.IsLeaf old x → m'.page x = m0.page x := by
  have hz : (0 : UInt64).toNat = 0 := rfl
  have hn : (addr 0 ps.length / pgSize).toNat = ps.length := by
    rw [UInt64.toNat_div, addr_toNat (by rw [hz]; omega), hz]
    show (0 + ps.length * 4096) / 4096 = ps.length
    omega
  -- the pages `ps` are the ones mapped, and only there
  have hps : ∀ k (hk : k < ps.length) x f, m.map new (addr 0 k) = some (x, f) → x = ps[k] := by
    intro k hk x f hm
    obtain ⟨_, _, _, hm', _⟩ := cp.mapped k hk
    rw [hm'] at hm
    exact (Prod.mk.inj (Option.some.inj hm)).1.symm
  have hmapped : ∀ k < (addr 0 ps.length / pgSize).toNat, ∃ pa f,
      m.map new (addr 0 k) = some (pa, f) ∧ f ≠ pteV := by
    intro k hk
    rw [hn] at hk
    obtain ⟨pa, f, h0, hm, -⟩ := cp.mapped k hk
    exact ⟨ps[k], f, hm, hflags k hk pa f h0⟩
  have hfree : true = true → 0 < m.kend ∧ ∀ k < (addr 0 ps.length / pgSize).toNat, ∀ pa f,
      m.map new (addr 0 k) = some (pa, f) → m.kend ≤ pa ∧ pa < phystop ∧ ∀ i j k' f',
        m.leaf new i j k' = some (pa, f') →
          i = px 2 (addr 0 k) ∧ j = px 1 (addr 0 k) ∧ k' = px 0 (addr 0 k) := by
    intro _
    refine ⟨cp.kend ▸ hkend, fun k hk pa f hm => ?_⟩
    rw [hn] at hk
    obtain rfl := hps k hk pa f hm
    have hr0 := hrange _ (cp.fresh _ (List.getElem_mem hk)).1
    rw [cp.kend]
    exact ⟨hr0.1, hr0.2, fun i j k' f' hl => cp.leaf_only hn0 hmax hk hl⟩
  obtain ⟨m', hrun, ht', hr, hfl, hkend', htab, hpage, -⟩ :=
    uvmunmap_spec cp.tree (by decide) (by rw [hz, hn]; omega) hmapped hfree
  rw [hn] at hr hfl
  have hfl' : ∀ x ∈ m'.freelist, x ∈ m.freelist ∨ x ∈ ps := by
    intro x hx
    rcases (hfl x).mp hx with h | ⟨-, k, hk, f, hm⟩
    · exact .inl h
    · exact .inr (hps k hk x f hm ▸ List.getElem_mem hk)
  refine ⟨m', by simp only [uvmcopyErr, hrun], ⟨ht', hkend'.trans cp.kend, ?_, ?_, ?_⟩, ?_⟩
  · intro x hx
    rcases hfl' x hx with h | h
    · exact cp.free_sub x h
    · exact (cp.fresh x h).1
  · intro va hva
    by_cases hin : ∃ k < ps.length, va = addr 0 k
    · obtain ⟨k, hk, rfl⟩ := hin
      rw [hr.1 k hk, hm0 k hk]
    · have hin' : ∀ k < ps.length, va ≠ addr 0 k := fun k hk h => hin ⟨k, hk, h⟩
      rw [hr.2 va hva hin']
      exact cp.frame va hva hin'
  · intro x hx
    rcases cp.back x hx with h | h | h
    · exact .inl ((hfl x).mpr (.inl h))
    · exact .inr (by rwa [isTable_eq htab])
    · obtain ⟨k, hk, rfl⟩ := List.getElem_of_mem h
      obtain ⟨-, f, -, hm, -⟩ := cp.mapped k hk
      exact .inl ((hfl _).mpr (.inr ⟨rfl, k, hk, f, hm⟩))
  · intro x hx
    obtain ⟨hxt, hxf⟩ := cp.parent_off ht0 hsep hx
    have hxf' : x ∉ m'.freelist := fun h =>
      (hfl' x h).elim hxf fun hq => cp.fresh_not_parent ht0 hq hx
    rw [hpage x hxt hxf', cp.parent x hx]

end

end Copied

/-! ## The loop -/

section
variable {m0 : Kmem} {old new sz : UInt64} {npages : Nat}

/-- The loop of `uvmcopy` from the page after `ps`, over the `npages` pages below `sz`, which the
parent maps and the child does not: it copies the rest of them, or rolls back. -/
theorem uvmcopyLoop_spec (ht0 : Tree m0 old) (hn0 : Tree m0 new)
    (hsep : ∀ x, m0.IsTable new x → ¬ m0.IsTable old x ∧ ¬ m0.IsLeaf old x)
    (hlo : ∀ t < npages, t * 4096 < sz.toNat) (hhi : sz.toNat ≤ npages * 4096)
    (hmax : npages * 4096 ≤ 2 ^ 38)
    (hpar : ∀ k < npages, ∃ pa f, m0.map old (addr 0 k) = some (pa, f) ∧ f ≠ pteV)
    (hfree : ∀ k < npages, m0.map new (addr 0 k) = none)
    (hkend : 0 < m0.kend) (hrange : ∀ x ∈ m0.freelist, m0.kend ≤ x ∧ x < phystop) :
    ∀ fuel ps m, Copied m0 m old new ps → ps.length ≤ npages → npages ≤ ps.length + fuel →
      ∃ m' r, uvmcopyLoop old new sz fuel m (addr 0 ps.length) = .ok (m', r) ∧
        ((r = 0 ∧ ∃ ps', ps'.length = npages ∧ Copied m0 m' old new ps') ∨
          (r = -1 ∧ Undone m0 m' new ∧
            ∀ x, m0.IsTable old x ∨ m0.IsLeaf old x → m'.page x = m0.page x)) := by
  have hz : (0 : UInt64).toNat = 0 := rfl
  have hflags : ∀ k < npages, ∀ pa f, m0.map old (addr 0 k) = some (pa, f) → f ≠ pteV := by
    intro k hk pa f h
    obtain ⟨pa', f', h', hf⟩ := hpar k hk
    rw [h] at h'
    rwa [(Prod.mk.inj (Option.some.inj h')).2]
  intro fuel
  induction fuel with
  | zero =>
    intro ps m cp hle hfuel
    exact ⟨m, 0, rfl, .inl ⟨rfl, ps, by omega, cp⟩⟩
  | succ fuel ih =>
    intro ps m cp hle hfuel
    have hat : (addr 0 ps.length).toNat = ps.length * 4096 := by
      rw [addr_toNat (by rw [hz]; omega), hz, Nat.zero_add]
    have hundo := fun (m' : Kmem) (cp' : Copied m0 m' old new ps) => cp'.undo ht0 hsep hn0
      (Nat.le_trans (Nat.mul_le_mul_right 4096 hle) hmax) (fun k hk => hflags k (by omega))
      hkend hrange (fun k hk => hfree k (by omega))
    unfold uvmcopyLoop
    by_cases hlt : ps.length < npages
    · have ha : addr 0 ps.length < sz := by
        rw [UInt64.lt_iff_toNat_lt, hat]
        exact hlo _ hlt
      rw [if_pos ha]
      -- `walk` finds the parent's entry for the page
      obtain ⟨pa, f, hpar0, -⟩ := hpar _ hlt
      have hparm : m.map old (addr 0 ps.length) = some (pa, f) := by
        rw [cp.parent_map]
        exact hpar0
      obtain ⟨hmaxva, t0, h0, hv, hpa, hf⟩ := map_eq_some hparm
      have hw : walk m old (addr 0 ps.length) false =
          .ok (m, some (t0, px 0 (addr 0 ps.length))) := by
        simp [walk_read (cp.parent_tree ht0), UInt64.not_le.mpr hmaxva, h0]
      have hread : m.read (t0, px 0 (addr 0 ps.length)) = m.page t0 (px 0 (addr 0 ps.length)) := rfl
      simp only [hw, hread, hv, if_false, hpa, hf]
      cases hfl : m.freelist with
      | nil =>
        -- `kalloc` found no page: roll back
        obtain ⟨m', hrun, hund, hpg⟩ := hundo m cp
        simp only [kalloc_nil hfl, if_true, hrun]
        exact ⟨m', -1, rfl, .inr ⟨rfl, hund, hpg⟩⟩
      | cons p rest =>
        have hpz : p ≠ 0 := fun h => cp.tree.zero_not_free (h ▸ hfl ▸ List.mem_cons_self)
        obtain ⟨m', r, hrun, hr⟩ :=
          cp.turn ht0 hsep (Nat.le_trans (Nat.mul_le_mul_right 4096 hlt) hmax) hpar0 (hfree _ hlt)
            hrange hfl
        simp only [kalloc_cons hfl, hpz, if_false, hrun]
        rcases hr with ⟨rfl, cp'⟩ | ⟨rfl, m4, hk, cp4⟩
        · -- the page is copied: the next turn
          simp only [ne_eq, not_true_eq_false, if_false]
          have hnext := ih (ps ++ [p]) m' cp' (by simp; omega) (by simp; omega)
          rw [List.length_append, List.length_singleton] at hnext
          rwa [← addr_succ]
        · -- `walk` found no table: `kfree` and roll back
          obtain ⟨m5, hrun5, hund, hpg⟩ := hundo m4 cp4
          simp only [ne_eq, show (-1 : Int) ≠ 0 by decide, not_false_eq_true, if_true, hk, hrun5]
          exact ⟨m5, -1, rfl, .inr ⟨rfl, hund, hpg⟩⟩
    · have ha : ¬ addr 0 ps.length < sz := by
        rw [UInt64.lt_iff_toNat_lt, hat]
        omega
      rw [if_neg ha]
      exact ⟨m, 0, rfl, .inl ⟨rfl, ps, by omega, cp⟩⟩

end

section
variable {m : Kmem} {old new sz : UInt64}

/-- `uvmcopy` of the parent's memory below `sz ≤ MAXVA` into a child's tree in the same memory,
where the parent maps every page below `sz` by a leaf that is not `PTE_V` alone, the child maps none
of them, the child's tables are none of the parent's tables and pages, and `kfree` takes every free
page: it never panics. `0` leaves the child mapping each page below `sz`, in order, to a fresh page
off the free list that holds a copy of the parent's page, with the parent's flags (`Copied`); `-1`
leaves the child mapping what it mapped, with every page it took free again or hung as a table
(`Undone`). Either way the parent is still a tree, maps what it mapped, and its pages hold what
they held. -/
theorem uvmcopy_spec (ht : Tree m old) (hn : Tree m new)
    (hsep : ∀ x, m.IsTable new x → ¬ m.IsTable old x ∧ ¬ m.IsLeaf old x) (hsz : sz.toNat ≤ 2 ^ 38)
    (hpar : ∀ k, k * 4096 < sz.toNat → ∃ pa f, m.map old (addr 0 k) = some (pa, f) ∧ f ≠ pteV)
    (hfree : ∀ k, k * 4096 < sz.toNat → m.map new (addr 0 k) = none)
    (hkend : 0 < m.kend) (hrange : ∀ x ∈ m.freelist, m.kend ≤ x ∧ x < phystop) :
    ∃ m' r, uvmcopy m old new sz = .ok (m', r) ∧ Tree m' old ∧ m'.map old = m.map old ∧
      (∀ x, m.IsLeaf old x → m'.page x = m.page x) ∧
      ((r = 0 ∧ ∃ ps, ps.length = (sz.toNat + 4095) / 4096 ∧ Copied m m' old new ps) ∨
        (r = -1 ∧ Undone m m' new)) := by
  have hlo : ∀ t < (sz.toNat + 4095) / 4096, t * 4096 < sz.toNat := by
    intro t ht
    omega
  have hmax : (sz.toNat + 4095) / 4096 * 4096 ≤ 2 ^ 38 := by omega
  obtain ⟨m', r, hrun, hr⟩ := uvmcopyLoop_spec ht hn hsep hlo (by omega) hmax
    (fun k hk => hpar k (hlo k hk)) (fun k hk => hfree k (hlo k hk)) hkend hrange
    (sz.toNat / 4096 + 1) [] m (Copied.start hn) (by simp) (by simp; omega)
  have h00 : addr 0 ([] : List UInt64).length = 0 := by simp [addr]
  rw [h00] at hrun
  -- in both outcomes the parent's pages are kept, and the free pages were free
  obtain ⟨htree', hfl, hpg⟩ : Tree m' new ∧ (∀ x ∈ m'.freelist, x ∈ m.freelist) ∧
      ∀ x, m.IsTable old x ∨ m.IsLeaf old x → m'.page x = m.page x := by
    rcases hr with ⟨-, ps, -, cp⟩ | ⟨-, hund, hpg⟩
    · exact ⟨cp.tree, cp.free_sub, cp.parent⟩
    · exact ⟨hund.tree, hund.free_sub, hpg⟩
  refine ⟨m', r, hrun, ht.of_free htree' (fun t h => hpg t (.inl h)) hfl,
    map_congr (fun t h => hpg t (.inl h)), fun x h => hpg x (.inr h), ?_⟩
  rcases hr with ⟨rfl, ps, hps, cp⟩ | ⟨rfl, hund, -⟩
  · exact .inl ⟨rfl, ps, hps, cp⟩
  · exact .inr ⟨rfl, hund⟩

/-- `fork` of the process `exec` gave one page: the parent's tree at `0x3000` as `uvmalloc` left it,
the child's empty tree at `0x4000`. -/
theorem uvmcopy_spec_one_page :
    ∃ m1, uvmalloc ⟨fun _ _ => 0, [0x5000, 0x6000, 0x7000, 0x8000, 0x9000, 0xa000], 0x1000⟩ 0x3000 0 4096 0 =
        .ok (m1, 4096) ∧
      ∃ m' r, uvmcopy m1 0x3000 0x4000 4096 = .ok (m', r) ∧ Tree m' 0x3000 ∧ m'.map 0x3000 = m1.map 0x3000 ∧
        (∀ x, m1.IsLeaf 0x3000 x → m'.page x = m1.page x) ∧
        ((r = 0 ∧ ∃ ps, ps.length = ((4096 : UInt64).toNat + 4095) / 4096 ∧ Copied m1 m' 0x3000 0x4000 ps) ∨
          (r = -1 ∧ Undone m1 m' 0x4000)) := by
  obtain ⟨m1, ps, hrun, gr, hlen, hz⟩ := uvmalloc_first_page
  have hout : (0x4000 : UInt64) ∉ [0x5000, 0x6000, 0x7000, 0x8000, 0x9000, 0xa000] := by decide
  have hn : Tree m1 0x4000 := Tree.empty hz gr.tree.nodup gr.tree.zero_not_free gr.tree.aligned_free
    fun h => hout (gr.free_sub _ h)
  -- the child's one table is neither a table nor a page of the parent
  have hsep : ∀ x, m1.IsTable 0x4000 x → ¬ m1.IsTable 0x3000 x ∧ ¬ m1.IsLeaf 0x3000 x := by
    intro x hx
    obtain rfl := Tree.isTable_of_empty hz hx
    refine ⟨fun h => ?_, fun h => ?_⟩
    · rcases gr.tables _ h with h' | h'
      · exact absurd (Tree.isTable_of_empty rfl h') (by decide)
      · exact hout h'
    · have hps := gr.mem_of_isLeaf (fun i j k => by simp [leaf, entry, l0, l1]) (by rw [hlen]; decide) h
      exact hout (gr.fresh _ hps).1
  have hpar : ∀ k, k * 4096 < (4096 : UInt64).toNat →
      ∃ pa f, m1.map 0x3000 (addr 0 k) = some (pa, f) ∧ f ≠ pteV := by
    intro k hk
    obtain rfl : k = 0 := by simp at hk; omega
    exact ⟨_, _, gr.mapped 0 (by omega), uvmPerm_ne 0⟩
  have hfree : ∀ k, k * 4096 < (4096 : UInt64).toNat → m1.map 0x4000 (addr 0 k) = none := by
    intro k _
    simp [map, leaf, entry, l0, l1, hz]
  have hrange : ∀ x ∈ m1.freelist, m1.kend ≤ x ∧ x < phystop := by
    intro x hx
    have h0 := gr.free_sub x hx
    rw [gr.kend]
    simp only [List.mem_cons, List.not_mem_nil, or_false] at h0
    rcases h0 with rfl | rfl | rfl | rfl | rfl | rfl <;> exact ⟨by decide, by decide⟩
  exact ⟨m1, hrun, uvmcopy_spec gr.tree hn hsep (by decide) hpar hfree (by rw [gr.kend]; decide) hrange⟩

end

end Xv6.Vm
