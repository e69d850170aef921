import Xv6.Vm.PageTree

/-!
# Walking, mapping and unmapping (`vm.c`: `walk`, `mappages`, `uvmunmap`)

The three functions as the C code runs them on the memory of `Xv6.Vm.PageTree`, and what they do to
the tree read as a map.

* `walk_read` : without `alloc`, `walk` finds the level-0 table of `va` exactly when both interior
  entries exist, and changes nothing;
* `Grows`, `walkLoop_alloc` : with `alloc`, it only hangs fresh zeroed tables, taken from the free
  list, from invalid entries: the tree stays one and maps what it mapped;
* `mappages_spec` : on an unmapped range, `mappages` maps the pages one by one; `0` means all of
  them, `-1` a strict prefix;
* `uvmunmap_spec` : on a fully mapped range, `uvmunmap` removes exactly those mappings, and with
  `do_free` pushes exactly their pages on the free list.
-/

namespace Xv6.Vm

open Kmem

/-- The loop of `walk`, from the table `pagetable` at `level + 1` down to level 1: a valid entry is
followed; a missing one is filled with a fresh zeroed table when `alloc` allows and `kalloc` finds
a page. The result is the level-0 table, or `none` for `return 0`. -/
def walkLoop (va : UInt64) (alloc : Bool) : Nat → Kmem → UInt64 → Kmem × Option UInt64
  | 0, m, pagetable => (m, some pagetable)
  | level + 1, m, pagetable =>
    let e := (pagetable, px (level + 1) va)
    if m.read e &&& pteV ≠ 0 then walkLoop va alloc level m (pte2pa (m.read e))
    else if !alloc then (m, none)
    else
      let (m1, p) := kalloc m
      if p = 0 then (m1, none)
      else walkLoop va alloc level ((m1.fill p 0).write e (pa2pte p ||| pteV)) p

/-- `walk(pagetable, va, alloc)`: the PTE for `va`, as its level-0 table and index, or `none` for
`0`; `va` at or above `MAXVA` panics. -/
def walk (m : Kmem) (pagetable va : UInt64) (alloc : Bool) :
    Except String (Kmem × Option (UInt64 × Fin 512)) :=
  if va ≥ maxVA then .error "walk"
  else
    let r := walkLoop va alloc 2 m pagetable
    .ok (r.1, r.2.map fun t => (t, px 0 va))

/-- The `int perm` of `mappages` as the `uint64` it is or-ed into: sign-extended. -/
def permBits (perm : Int32) : UInt64 := perm.toInt64.toUInt64

/-- The loop of `mappages`, mapping `a` to `pa` and going on by pages until `a == last`; `n`
bounds the turns, and `size / PGSIZE` of them reach `last`. -/
def mappagesLoop (pagetable last : UInt64) (perm : Int32) :
    Nat → Kmem → UInt64 → UInt64 → Except String (Kmem × Int)
  | 0, m, _, _ => .ok (m, 0)
  | n + 1, m, a, pa =>
    match walk m pagetable a true with
    | .error e => .error e
    | .ok (m1, none) => .ok (m1, -1)
    | .ok (m1, some e) =>
      if m1.read e &&& pteV ≠ 0 then .error "mappages: remap"
      else
        let m2 := m1.write e (pa2pte pa ||| permBits perm ||| pteV)
        if a = last then .ok (m2, 0)
        else mappagesLoop pagetable last perm n m2 (a + pgSize) (pa + pgSize)

/-- `mappages(pagetable, va, size, pa, perm)`: memory after, and `0`, or `-1` when `walk` could not
allocate a table. -/
def mappages (m : Kmem) (pagetable va size pa : UInt64) (perm : Int32) :
    Except String (Kmem × Int) :=
  if va % pgSize ≠ 0 then .error "mappages: va not aligned"
  else if size % pgSize ≠ 0 then .error "mappages: size not aligned"
  else if size = 0 then .error "mappages: size"
  else mappagesLoop pagetable (va + size - pgSize) perm (size / pgSize).toNat m va pa

/-- The loop of `uvmunmap` over `a < stop`; `n` bounds the turns. -/
def uvmunmapLoop (pagetable stop : UInt64) (doFree : Bool) :
    Nat → Kmem → UInt64 → Except String Kmem
  | 0, m, _ => .ok m
  | n + 1, m, a =>
    if a < stop then
      match walk m pagetable a false with
      | .error e => .error e
      | .ok (_, none) => .error "uvmunmap: walk"
      | .ok (m1, some e) =>
        if m1.read e &&& pteV = 0 then .error "uvmunmap: not mapped"
        else if pteFlags (m1.read e) = pteV then .error "uvmunmap: not a leaf"
        else
          match (if doFree then kfree m1 (pte2pa (m1.read e)) else .ok m1) with
          | .error e => .error e
          | .ok m2 => uvmunmapLoop pagetable stop doFree n (m2.write e 0) (a + pgSize)
    else .ok m

/-- `uvmunmap(pagetable, va, npages, do_free)`. -/
def uvmunmap (m : Kmem) (pagetable va npages : UInt64) (doFree : Bool) : Except String Kmem :=
  if va % pgSize ≠ 0 then .error "uvmunmap: not aligned"
  else uvmunmapLoop pagetable (va + npages * pgSize) doFree npages.toNat m va

/-! ## `walk` without `alloc` -/

section
variable {m : Kmem} {root : UInt64}

theorem interior_of_isSome {pte : UInt64} (hs : (interior pte).isSome) :
    interior pte = some (pte2pa pte) := by
  obtain ⟨t, ht⟩ := Option.isSome_iff_exists.mp hs
  rw [ht, (interior_eq_some ht).2]

/-- Without `alloc` the loop reads the tree: valid entries above level 0 are interior. -/
theorem walkLoop_read (ht : Tree m root) (va : UInt64) :
    walkLoop va false 2 m root = (m, m.l0 root (px 2 va) (px 1 va)) := by
  rw [walkLoop]
  simp only [Kmem.read, Nat.reduceAdd]
  by_cases h2 : m.page root (px 2 va) &&& pteV = 0
  · -- no level-1 table
    have hl1 : m.l1 root (px 2 va) = none := interior_of_invalid h2
    simp [h2, l0, hl1]
  · have hl1 : m.l1 root (px 2 va) = some (pte2pa (m.page root (px 2 va))) :=
      interior_of_isSome (ht.root_valid _ h2)
    set t1 := pte2pa (m.page root (px 2 va))
    rw [if_pos h2, walkLoop]
    simp only [Kmem.read, Nat.reduceAdd]
    by_cases h1 : m.page t1 (px 1 va) &&& pteV = 0
    · simp [h1, l0, hl1, interior_of_invalid h1]
    · rw [if_pos h1, walkLoop]
      simp [l0, hl1, interior_of_isSome (ht.l1_valid _ t1 _ hl1 h1)]

/-- `walk(pagetable, va, 0)` on a tree: a panic at or above `MAXVA`; below, the PTE of `va` in its
level-0 table exactly when both interior entries exist, and memory unchanged. -/
theorem walk_read (ht : Tree m root) (va : UInt64) :
    walk m root va false =
      if va ≥ maxVA then .error "walk"
      else .ok (m, (m.l0 root (px 2 va) (px 1 va)).map fun t => (t, px 0 va)) := by
  simp only [walk, walkLoop_read ht]

end

/-! ## `walk` with `alloc` -/

/-- What `walk` with `alloc` may do to memory: hang tables taken from the free list, keeping the
tree, what it maps, the tables it had, and every page that is neither a table nor free; a page it
takes off the free list is one of the tables. -/
structure Grows (m m' : Kmem) (root : UInt64) : Prop where
  tree : Tree m' root
  leaf : m'.leaf root = m.leaf root
  table : ∀ t, m'.IsTable root t → m.IsTable root t ∨ t ∈ m.freelist
  keep : ∀ n t, m.table root n = some t → m'.table root n = some t
  free : ∃ d, m'.freelist = m.freelist.drop d
  frame : ∀ x, ¬ m.IsTable root x → x ∉ m.freelist → m'.page x = m.page x
  kend : m'.kend = m.kend
  used : ∀ x ∈ m.freelist, x ∈ m'.freelist ∨ m'.IsTable root x

namespace Grows

variable {m m' m'' : Kmem} {root : UInt64}

theorem refl (ht : Tree m root) : Grows m m root :=
  ⟨ht, rfl, fun _ h => .inl h, fun _ _ h => h, ⟨0, rfl⟩, fun _ _ _ => rfl, rfl, fun _ h => .inl h⟩

theorem free_subset (g : Grows m m' root) {x : UInt64} (hx : x ∈ m'.freelist) : x ∈ m.freelist := by
  obtain ⟨d, hd⟩ := g.free
  rw [hd] at hx
  exact List.mem_of_mem_drop hx

theorem map_eq (g : Grows m m' root) : m'.map root = m.map root := by
  funext va
  simp only [map, g.leaf]

theorem trans (g : Grows m m' root) (g' : Grows m' m'' root) : Grows m m'' root where
  tree := g'.tree
  leaf := g'.leaf.trans g.leaf
  table t h := by
    rcases g'.table t h with h' | h'
    · exact g.table t h'
    · exact .inr (g.free_subset h')
  keep n t h := g'.keep n t (g.keep n t h)
  free := by
    obtain ⟨d, hd⟩ := g.free
    obtain ⟨d', hd'⟩ := g'.free
    exact ⟨d + d', by rw [hd', hd, List.drop_drop, Nat.add_comm]⟩
  frame x hx hf := by
    have hx' : ¬ m'.IsTable root x := fun h => (g.table x h).elim hx hf
    have hf' : x ∉ m'.freelist := fun h => hf (g.free_subset h)
    rw [g'.frame x hx' hf', g.frame x hx hf]
  kend := g'.kend.trans g.kend
  used x hx := by
    rcases g.used x hx with h | ⟨n, hn⟩
    · exact g'.used x h
    · exact .inr ⟨n, g'.keep n x hn⟩

end Grows

section
variable {m : Kmem} {root p : UInt64} {rest : List UInt64}

/-- `kalloc()` on a tree, followed by `memset(pagetable, 0, PGSIZE)`: the page comes off the free
list, zeroed, and the tree stays as it was. -/
theorem Tree.alloc (ht : Tree m root) (hfl : m.freelist = p :: rest) (junk : UInt64) :
    let m2 := ({ m with freelist := rest }.fill p junk).fill p 0
    Tree m2 root ∧ (∀ t, m.IsTable root t → m2.page t = m.page t) ∧ m2.page p = (fun _ => 0) ∧
      ¬ m2.IsTable root p ∧ ¬ m2.IsLeaf root p ∧ p ∉ m2.freelist ∧ p % pgSize = 0 ∧ p ≠ 0 ∧
      m2.freelist = rest ∧ (∀ x, x ≠ p → m2.page x = m.page x) := by
  intro m2
  have hp : p ∈ m.freelist := by rw [hfl]; exact List.mem_cons_self
  have hpt := ht.not_table_of_free hp
  have hframe : ∀ x, x ≠ p → m2.page x = m.page x := by
    intro x hx
    simp [m2, hx]
  have hagree : ∀ t, m.IsTable root t → m2.page t = m.page t :=
    fun t htab => hframe t (fun e => hpt (e ▸ htab))
  have hsub : m2.freelist.Sublist m.freelist := by
    rw [hfl]
    exact List.sublist_cons_self p rest
  have hnd := ht.nodup
  rw [hfl] at hnd
  refine ⟨ht.of_sublist hagree hsub, hagree, by simp [m2], ?_, ?_, (List.nodup_cons.mp hnd).1,
    ht.aligned_free p hp, fun h0 => ht.zero_not_free (h0 ▸ hp), rfl, hframe⟩
  · rw [isTable_congr hagree]
    exact hpt
  · rw [isLeaf_congr hagree]
    exact fun hl => ht.leaf_not_free p hl hp

end

theorem kalloc_nil {m : Kmem} (h : m.freelist = []) : kalloc m = (m, 0) := by
  simp [kalloc, h]

theorem kalloc_cons {m : Kmem} {p : UInt64} {rest : List UInt64} (h : m.freelist = p :: rest) :
    kalloc m = ({ m with freelist := rest }.fill p 0x0505050505050505, p) := by
  simp [kalloc, h]

section
variable {m : Kmem} {root p : UInt64} {rest : List UInt64}

/-- A table hung by `walk`: the page taken off the free list, zeroed, and written into the entry `e`
of a table, at a node that had none. -/
theorem Grows.hang (ht : Tree m root) (hfl : m.freelist = p :: rest) (junk : UInt64)
    {e : UInt64 × Fin 512} {v : UInt64} {n0 : Node} (he : m.IsTable root e.1)
    (hn0 : m.table root n0 = none)
    (h3 : Tree ((({ m with freelist := rest }.fill p junk).fill p 0).write e v) root ∧
      ((({ m with freelist := rest }.fill p junk).fill p 0).write e v).table root =
        Function.update ((({ m with freelist := rest }.fill p junk).fill p 0).table root) n0
          (some p) ∧
      ((({ m with freelist := rest }.fill p junk).fill p 0).write e v).leaf root =
        (({ m with freelist := rest }.fill p junk).fill p 0).leaf root) :
    Grows m ((({ m with freelist := rest }.fill p junk).fill p 0).write e v) root := by
  obtain ⟨-, hagree, -, -, -, -, -, -, hrest, hframe⟩ := ht.alloc hfl junk
  obtain ⟨ht3, htab3, hleaf3⟩ := h3
  have hp : p ∈ m.freelist := by rw [hfl]; exact List.mem_cons_self
  refine ⟨ht3, hleaf3.trans (leaf_congr hagree), ?_, ?_, ⟨1, by simp [hfl]⟩, ?_, rfl, ?_⟩
  · rintro t ⟨n, hn⟩
    rw [htab3] at hn
    by_cases h : n = n0
    · subst h
      rw [Function.update_self, Option.some.injEq] at hn
      exact .inr (hn ▸ hp)
    · rw [Function.update_of_ne h, table_congr hagree] at hn
      exact .inl ⟨n, hn⟩
  · intro n t hn
    have hne : n ≠ n0 := by
      rintro rfl
      rw [hn0] at hn
      cases hn
    rw [htab3, Function.update_of_ne hne, table_congr hagree]
    exact hn
  · intro x hx hf
    have hxp : x ≠ p := fun h => hf (h ▸ hp)
    have hxe : x ≠ e.1 := fun h => hx (h ▸ he)
    rw [write_page_of_ne _ _ _ hxe, hframe x hxp]
  · -- the head of the list is the new table, the rest stays free
    intro x hx
    rw [hfl, List.mem_cons] at hx
    rcases hx with rfl | hx
    · exact .inr ⟨n0, by rw [htab3, Function.update_self]⟩
    · exact .inl (by simpa [hrest] using hx)

/-- The loop at level 1, from the level-1 table under the root's entry `i`. -/
theorem walkLoop_alloc_l1 (ht : Tree m root) {i : Fin 512} {t1 : UInt64}
    (h1 : m.l1 root i = some t1) (va : UInt64) :
    Grows m (walkLoop va true 1 m t1).1 root ∧ ∀ t0, (walkLoop va true 1 m t1).2 = some t0 →
      (walkLoop va true 1 m t1).1.l0 root i (px 1 va) = some t0 := by
  rw [walkLoop]
  simp only [Kmem.read, Nat.zero_add]
  by_cases hv : m.page t1 (px 1 va) &&& pteV = 0
  · simp only [hv, ne_eq, not_true_eq_false, if_false, Bool.not_true, Bool.false_eq_true]
    cases hfl : m.freelist with
    | nil =>
      simp only [kalloc_nil hfl, if_true]
      exact ⟨Grows.refl ht, fun _ h => by cases h⟩
    | cons p rest =>
      obtain ⟨ht2, hagree, hp0, hpt, hpl, hpf, hpa, hpz, -, -⟩ := ht.alloc hfl 0x0505050505050505
      have h1' := (congrFun (l1_congr hagree) i).trans h1
      have hv2 : _ &&& pteV = 0 := (congrFun (hagree t1 ⟨.l1 i, h1⟩) (px 1 va)).symm ▸ hv
      have h3 := ht2.addL0 hp0 hpa hpt hpl hpf h1' hv2
      have hn0 : m.table root (.l0 i (px 1 va)) = none := by
        simp only [table, l0, h1, Option.bind_some, interior_of_invalid hv]
      simp only [kalloc_cons hfl, hpz, if_false, walkLoop]
      refine ⟨Grows.hang ht hfl _ ⟨.l1 i, h1⟩ hn0 h3, ?_⟩
      rintro t0 ⟨⟩
      have := congrFun h3.2.1 (.l0 i (px 1 va))
      simpa [table] using this
  · rw [if_pos hv, walkLoop]
    refine ⟨Grows.refl ht, ?_⟩
    rintro t0 ⟨⟩
    simp [l0, h1, interior_of_isSome (ht.l1_valid _ t1 _ h1 hv)]

/-- `walk`'s loop with `alloc`, from the root: it grows the tree, and the table it returns is the
level-0 table of `va` in the grown tree. -/
theorem walkLoop_alloc (ht : Tree m root) (va : UInt64) :
    Grows m (walkLoop va true 2 m root).1 root ∧ ∀ t0, (walkLoop va true 2 m root).2 = some t0 →
      (walkLoop va true 2 m root).1.l0 root (px 2 va) (px 1 va) = some t0 := by
  rw [walkLoop]
  simp only [Kmem.read, Nat.reduceAdd]
  by_cases hv : m.page root (px 2 va) &&& pteV = 0
  · simp only [hv, ne_eq, not_true_eq_false, if_false, Bool.not_true, Bool.false_eq_true]
    cases hfl : m.freelist with
    | nil =>
      simp only [kalloc_nil hfl, if_true]
      exact ⟨Grows.refl ht, fun _ h => by cases h⟩
    | cons p rest =>
      obtain ⟨ht2, hagree, hp0, hpt, hpl, hpf, hpa, hpz, -, -⟩ := ht.alloc hfl 0x0505050505050505
      have hv2 : _ &&& pteV = 0 := (congrFun (hagree root ⟨.root, rfl⟩) (px 2 va)).symm ▸ hv
      have h3 := ht2.addL1 hp0 hpa hpt hpl hpf hv2
      have hn0 : m.table root (.l1 (px 2 va)) = none := by
        simp only [table, l1, interior_of_invalid hv]
      simp only [kalloc_cons hfl, hpz, if_false]
      have g := Grows.hang ht hfl _ ⟨.root, rfl⟩ hn0 h3
      have h1 : ((({ m with freelist := rest }.fill p 0x0505050505050505).fill p 0).write
          (root, px 2 va) (pa2pte p ||| pteV)).l1 root (px 2 va) = some p := by
        have := congrFun h3.2.1 (.l1 (px 2 va))
        simpa [table] using this
      obtain ⟨g', hr⟩ := walkLoop_alloc_l1 g.tree h1 va
      exact ⟨g.trans g', hr⟩
  · rw [if_pos hv]
    exact walkLoop_alloc_l1 ht (interior_of_isSome (ht.root_valid _ hv)) va

end

/-! ## `mappages` -/

/-- The page `k` pages after `a`. -/
def addr (a : UInt64) (k : Nat) : UInt64 := a + k.toUInt64 * pgSize

/-- `m'` maps the first `j` pages from `va` to the pages from `pa`, with `flags`, and elsewhere what
`m` maps. -/
def Gained (m m' : Kmem) (root va pa flags : UInt64) (j : Nat) : Prop :=
  (∀ k < j, m'.map root (addr va k) = some (addr pa k, flags)) ∧
    ∀ va', va' % pgSize = 0 → (∀ k < j, va' ≠ addr va k) → m'.map root va' = m.map root va'

theorem addr_succ (a : UInt64) (k : Nat) : addr a (k + 1) = addr a k + pgSize := by
  apply UInt64.toNat_inj.mp
  simp only [addr, UInt64.toNat_add, UInt64.toNat_mul, Nat.toUInt64_eq, UInt64.toNat_ofNat',
    pgSize]
  simp
  omega

theorem addr_toNat {a : UInt64} {k : Nat} (h : a.toNat + k * 4096 < 2 ^ 64) :
    (addr a k).toNat = a.toNat + k * 4096 := by
  simp only [addr, UInt64.toNat_add, UInt64.toNat_mul, Nat.toUInt64_eq, UInt64.toNat_ofNat',
    pgSize]
  simp
  omega

theorem addr_aligned {a : UInt64} (ha : a % pgSize = 0) (k : Nat) : addr a k % pgSize = 0 := by
  have := toNat_mod_of_aligned ha
  apply UInt64.toNat_inj.mp
  simp only [addr, UInt64.toNat_mod, UInt64.toNat_add, UInt64.toNat_mul, Nat.toUInt64_eq,
    UInt64.toNat_ofNat', pgSize]
  simp
  omega

section
variable {m : Kmem} {root : UInt64}

/-- Writing the level-0 entry of a page `a` below `MAXVA` changes the map at `a` alone. -/
theorem map_writeLeaf (ht : Tree m root) {a t0 v : UInt64} (ha : a % pgSize = 0) (hlt : a < maxVA)
    (h0 : m.l0 root (px 2 a) (px 1 a) = some t0)
    (hv : ∀ pa f, leafOf v = some (pa, f) → ¬ m.IsTable root pa ∧ pa ∉ m.freelist) :
    Tree (m.write (t0, px 0 a) v) root ∧ (m.write (t0, px 0 a) v).table root = m.table root ∧
      ∀ va', va' % pgSize = 0 →
        (m.write (t0, px 0 a) v).map root va' = if va' = a then leafOf v else m.map root va' := by
  obtain ⟨ht', htab, hleaf⟩ := ht.writeLeaf (k := px 0 a) h0 hv
  refine ⟨ht', htab, fun va' hva' => ?_⟩
  simp only [map, hleaf]
  by_cases he : va' = a
  · subst he
    simp [hlt]
  · rw [if_neg he]
    by_cases hlt' : va' < maxVA
    · have hpx : ¬ (px 2 va' = px 2 a ∧ px 1 va' = px 1 a ∧ px 0 va' = px 0 a) :=
        fun h => he (eq_of_px hva' ha hlt' hlt h.1 h.2.1 h.2.2)
      simp [hlt', hpx]
    · simp [hlt']

end

theorem leafOf_leafPte {p f : UInt64} (hp : p % pgSize = 0) (hf : f < 1024) (hv : f &&& pteV ≠ 0) :
    leafOf (pa2pte p ||| f) = some (p, f) := by
  simp only [leafOf, and_leafPte hf (by decide : pteV < 1024), hv, ne_eq, not_false_eq_true,
    if_true, pte2pa_leafPte hp hf, pteFlags_leafPte hf]

theorem leafOf_eq_none {pte : UInt64} : leafOf pte = none ↔ pte &&& pteV = 0 := by
  unfold leafOf
  split <;> simp_all

/-- The flags `mappages` writes, for a `perm` that holds flag bits only. -/
theorem permBits_or_lt {perm : Int32} (h0 : 0 ≤ perm.toInt) (h1 : perm.toInt < 1024) :
    permBits perm ||| pteV < 1024 := by
  have hle : (0 : Int64) ≤ perm.toInt64 := by
    rw [Int64.le_iff_toInt_le, Int32.toInt_toInt64]
    simpa using h0
  have hp : (permBits perm).toNat < 2 ^ 10 := by
    rw [permBits, Int64.toNat_toUInt64_of_le hle, Int64.toNatClampNeg, Int32.toInt_toInt64]
    omega
  rw [UInt64.lt_iff_toNat_lt, UInt64.toNat_or]
  exact Nat.or_lt_two_pow hp (by decide)

theorem or_pteV_valid (f : UInt64) : (f ||| pteV) &&& pteV ≠ 0 := by
  rw [or_and_self]
  decide

section
variable {m : Kmem} {root : UInt64}

/-- One turn of `mappages` at a page `a` below `MAXVA` that is unmapped, for a page `pa` that is
neither a table nor free: `walk` grows the tree and either finds no table, or finds the entry,
invalid, whose write maps `a` to `pa` and changes nothing else. -/
theorem mappages_turn (ht : Tree m root) {a pa f : UInt64} (ha : a % pgSize = 0)
    (hlt : a < maxVA) (hfree : m.map root a = none) (hpt : ¬ m.IsTable root pa)
    (hpf : pa ∉ m.freelist) (hpa : pa % pgSize = 0) (hf : f < 1024) (hfv : f &&& pteV ≠ 0) :
    ∃ m1 r, walk m root a true = .ok (m1, r) ∧ Grows m m1 root ∧
      (r = none ∨ ∃ t0, r = some (t0, px 0 a) ∧ m1.read (t0, px 0 a) &&& pteV = 0 ∧
        Tree (m1.write (t0, px 0 a) (pa2pte pa ||| f)) root ∧
        (m1.write (t0, px 0 a) (pa2pte pa ||| f)).table root = m1.table root ∧
        ∀ va', va' % pgSize = 0 → (m1.write (t0, px 0 a) (pa2pte pa ||| f)).map root va' =
          if va' = a then some (pa, f) else m.map root va') := by
  obtain ⟨g, hr⟩ := walkLoop_alloc ht a
  refine ⟨(walkLoop a true 2 m root).1, (walkLoop a true 2 m root).2.map fun t => (t, px 0 a),
    by simp [walk, UInt64.not_le.mpr hlt], g, ?_⟩
  cases hr2 : (walkLoop a true 2 m root).2 with
  | none => exact .inl rfl
  | some t0 =>
    refine .inr ⟨t0, rfl, ?_⟩
    have h0 := hr t0 hr2
    have hinv : (walkLoop a true 2 m root).1.read (t0, px 0 a) &&& pteV = 0 := by
      have hm : (walkLoop a true 2 m root).1.map root a = none := by rw [g.map_eq]; exact hfree
      simp only [map, hlt, if_true, leaf, entry, h0, Option.map_some, Option.bind_some] at hm
      exact leafOf_eq_none.mp hm
    have hv : ∀ p' f', leafOf (pa2pte pa ||| f) = some (p', f') →
        ¬ (walkLoop a true 2 m root).1.IsTable root p' ∧
          p' ∉ (walkLoop a true 2 m root).1.freelist := by
      intro p' f' hl
      rw [leafOf_leafPte hpa hf hfv, Option.some.injEq, Prod.mk.injEq] at hl
      obtain ⟨rfl, -⟩ := hl
      exact ⟨fun h => (g.table pa h).elim hpt hpf, fun h => hpf (g.free_subset h)⟩
    obtain ⟨ht2, htab2, hmap2⟩ := map_writeLeaf g.tree ha hlt h0 hv
    refine ⟨hinv, ht2, htab2, fun va' hva' => ?_⟩
    rw [hmap2 va' hva', leafOf_leafPte hpa hf hfv, g.map_eq]

end

section
variable {root : UInt64} {perm : Int32} {va pa : UInt64} {n : Nat} {m0 : Kmem}

/-- The loop of `mappages` from the `t`-th page of a range that was unmapped in `m0`, onto pages
that were neither tables nor free there: the pages before `t` are mapped already. -/
theorem mappagesLoop_spec (hperm0 : 0 ≤ perm.toInt) (hperm1 : perm.toInt < 1024)
    (hva : va % pgSize = 0) (hpa : pa % pgSize = 0) (hn : va.toNat + n * 4096 ≤ 2 ^ 38)
    (hfree : ∀ k < n, m0.map root (addr va k) = none)
    (hpages : ∀ k < n, ¬ m0.IsTable root (addr pa k) ∧ addr pa k ∉ m0.freelist) :
    ∀ fuel t (m : Kmem), t + fuel = n → t < n → Tree m root →
      Gained m0 m root va pa (permBits perm ||| pteV) t →
      (∀ x, m.IsTable root x → m0.IsTable root x ∨ x ∈ m0.freelist) →
      (∀ x ∈ m.freelist, x ∈ m0.freelist) →
      ∃ m' r, mappagesLoop root (addr va (n - 1)) perm fuel m (addr va t) (addr pa t) =
          .ok (m', r) ∧ Tree m' root ∧
        ((r = 0 ∧ Gained m0 m' root va pa (permBits perm ||| pteV) n) ∨
          (r = -1 ∧ ∃ j < n, Gained m0 m' root va pa (permBits perm ||| pteV) j)) := by
  intro fuel
  induction fuel with
  | zero =>
    intro t m h1 h2
    omega
  | succ fuel ih =>
    intro t m hfuel htn ht hg htab hfl
    set f := permBits perm ||| pteV with hfdef
    have hf : f < 1024 := permBits_or_lt hperm0 hperm1
    have hfv : f &&& pteV ≠ 0 := or_pteV_valid _
    -- the pages of the range, in numbers
    have hat : (addr va t).toNat = va.toNat + t * 4096 := addr_toNat (by omega)
    have hlt : addr va t < maxVA := by
      rw [UInt64.lt_iff_toNat_lt, hat, maxVA_toNat]
      omega
    have hne : ∀ k < t, addr va t ≠ addr va k := by
      intro k hk h
      have := congrArg UInt64.toNat h
      rw [hat, addr_toNat (by omega)] at this
      omega
    have hmt : m.map root (addr va t) = none := by
      rw [hg.2 _ (addr_aligned hva t) hne]
      exact hfree t htn
    obtain ⟨hpt0, hpf0⟩ := hpages t htn
    have hpt : ¬ m.IsTable root (addr pa t) := fun h => (htab _ h).elim hpt0 hpf0
    have hpf : addr pa t ∉ m.freelist := fun h => hpf0 (hfl _ h)
    obtain ⟨m1, r, hw, g, hr⟩ :=
      mappages_turn ht (addr_aligned hva t) hlt hmt hpt hpf (addr_aligned hpa t) hf hfv
    rw [mappagesLoop, hw]
    rcases hr with rfl | ⟨t0, rfl, hinv, ht2, htab2, hmap2⟩
    · -- `walk` found no table: `-1`, with the pages before `t` mapped
      refine ⟨m1, -1, rfl, g.tree, .inr ⟨rfl, t, htn, ?_, ?_⟩⟩
      · intro k hk
        rw [g.map_eq]
        exact hg.1 k hk
      · intro va' hva' hk
        rw [g.map_eq]
        exact hg.2 va' hva' hk
    · have hg' : Gained m0 (m1.write (t0, px 0 (addr va t)) (pa2pte (addr pa t) ||| f)) root va pa
          f (t + 1) := by
        constructor
        · intro k hk
          rw [hmap2 _ (addr_aligned hva k)]
          by_cases hkt : k = t
          · subst hkt
            simp
          · have hk' : k < t := by omega
            rw [if_neg (hne k hk').symm]
            exact hg.1 k hk'
        · intro va' hva' hk
          rw [hmap2 va' hva', if_neg (hk t (by omega))]
          exact hg.2 va' hva' (fun k hk' => hk k (by omega))
      have hor : pa2pte (addr pa t) ||| permBits perm ||| pteV = pa2pte (addr pa t) ||| f :=
        UInt64.or_assoc _ _ _
      simp only [hinv, ne_eq, not_true_eq_false, if_false, hor]
      by_cases hlast : t + 1 = n
      · -- `a == last`: the whole range is mapped
        have ha : addr va t = addr va (n - 1) := by
          rw [← hlast, Nat.add_sub_cancel]
        rw [if_pos ha]
        exact ⟨_, 0, rfl, ht2, .inl ⟨rfl, hlast ▸ hg'⟩⟩
      · have ha : addr va t ≠ addr va (n - 1) := by
          intro h
          have := congrArg UInt64.toNat h
          rw [hat, addr_toNat (by omega)] at this
          omega
        rw [if_neg ha, ← addr_succ, ← addr_succ]
        refine ih (t + 1) _ (by omega) (by omega) ht2 hg' ?_ ?_
        · rintro x ⟨nd, hnd⟩
          rw [htab2] at hnd
          rcases g.table x ⟨nd, hnd⟩ with h | h
          · exact htab x h
          · exact .inr (hfl x h)
        · intro x hx
          exact hfl x (g.free_subset hx)

end

section
variable {m : Kmem} {root va size pa : UInt64} {perm : Int32}

/-- `mappages` on a tree, for a page-aligned range below `MAXVA` that is unmapped, onto page-aligned
physical pages that are neither tables nor free, with a `perm` of flag bits: it never panics; `0`
means the range is mapped page by page to `pa` with `perm | PTE_V`, `-1` that a strict prefix of
it is; the tree stays a tree and maps what it mapped elsewhere. -/
theorem mappages_spec (ht : Tree m root) (hva : va % pgSize = 0) (hsz : size % pgSize = 0)
    (hpos : size ≠ 0) (hmax : va.toNat + size.toNat ≤ 2 ^ 38) (hpa : pa % pgSize = 0)
    (hperm0 : 0 ≤ perm.toInt) (hperm1 : perm.toInt < 1024)
    (hfree : ∀ k < size.toNat / 4096, m.map root (addr va k) = none)
    (hpages : ∀ k < size.toNat / 4096, ¬ m.IsTable root (addr pa k) ∧ addr pa k ∉ m.freelist) :
    ∃ m' r, mappages m root va size pa perm = .ok (m', r) ∧ Tree m' root ∧
      ((r = 0 ∧ Gained m m' root va pa (permBits perm ||| pteV) (size.toNat / 4096)) ∨
        (r = -1 ∧ ∃ j < size.toNat / 4096,
          Gained m m' root va pa (permBits perm ||| pteV) j)) := by
  have hs := toNat_mod_of_aligned hsz
  have hs0 : size.toNat ≠ 0 := fun h => hpos (UInt64.toNat_inj.mp (h.trans rfl))
  have hn : (size / pgSize).toNat = size.toNat / 4096 := by
    simp [UInt64.toNat_div, pgSize]
  have hlast : va + size - pgSize = addr va (size.toNat / 4096 - 1) := by
    apply UInt64.toNat_inj.mp
    rw [addr_toNat (by omega)]
    have hle : pgSize ≤ va + size := by
      rw [UInt64.le_iff_toNat_le, UInt64.toNat_add]
      simp only [pgSize]
      simp
      omega
    rw [UInt64.toNat_sub_of_le _ _ hle, UInt64.toNat_add]
    simp only [pgSize]
    simp
    omega
  have h0 : Gained m m root va pa (permBits perm ||| pteV) 0 :=
    ⟨fun k hk => absurd hk (Nat.not_lt_zero k), fun _ _ _ => rfl⟩
  have hva0 : addr va 0 = va := by simp [addr]
  have hpa0 : addr pa 0 = pa := by simp [addr]
  have hrun := mappagesLoop_spec hperm0 hperm1 hva hpa (by omega) hfree hpages
    (size.toNat / 4096) 0 m (by omega) (by omega) ht h0 (fun x h => .inl h) (fun x h => h)
  rw [hva0, hpa0] at hrun
  simp only [mappages, hva, hsz, ne_eq, not_true_eq_false, if_false, hpos, hn, hlast]
  exact hrun

end

/-- The entry that `walk` with `alloc` returns is the level-0 entry of `va` in the grown tree. -/
theorem walk_alloc_entry {m m1 : Kmem} {root va : UInt64} {e : UInt64 × Fin 512}
    (ht : Tree m root) (hw : walk m root va true = .ok (m1, some e)) :
    m1.l0 root (px 2 va) (px 1 va) = some e.1 ∧ e.2 = px 0 va := by
  unfold walk at hw
  split at hw
  · cases hw
  · obtain ⟨rfl, he⟩ := Prod.mk.inj (Except.ok.inj hw)
    cases h2 : (walkLoop va true 2 m root).2 with
    | none =>
      rw [h2] at he
      cases he
    | some t0 =>
      rw [h2, Option.map_some, Option.some.injEq] at he
      subst he
      exact ⟨(walkLoop_alloc ht va).2 t0 h2, rfl⟩

section
variable {m : Kmem} {root a pa : UInt64} {perm : Int32}

/-- `mappages` of the one page `a`, below `MAXVA` and unmapped, onto a page `pa` that is neither a
table nor free: `walk` grows the tree to `m1`; then `-1` leaves `m1` as it is, and `0` writes the
leaf of `a` alone, into a table of `m1`. -/
theorem mappages_page (ht : Tree m root) (ha : a % pgSize = 0) (hlt : a < maxVA)
    (hfree : m.map root a = none) (hpt : ¬ m.IsTable root pa) (hpf : pa ∉ m.freelist)
    (hpa : pa % pgSize = 0) (hperm0 : 0 ≤ perm.toInt) (hperm1 : perm.toInt < 1024) :
    ∃ m1 m' r, mappages m root a pgSize pa perm = .ok (m', r) ∧ Grows m m1 root ∧
      ((r = -1 ∧ m' = m1) ∨
        (r = 0 ∧ Tree m' root ∧ m'.table root = m1.table root ∧ m'.freelist = m1.freelist ∧
          m'.kend = m1.kend ∧ (∀ x, ¬ m1.IsTable root x → m'.page x = m1.page x) ∧
          (∀ i j k, m'.leaf root i j k = if i = px 2 a ∧ j = px 1 a ∧ k = px 0 a
            then some (pa, permBits perm ||| pteV) else m.leaf root i j k) ∧
          ∀ va', va' % pgSize = 0 →
            m'.map root va' = if va' = a then some (pa, permBits perm ||| pteV) else m.map root va'))
    := by
  set f := permBits perm ||| pteV with hfdef
  have hf : f < 1024 := permBits_or_lt hperm0 hperm1
  have hfv : f &&& pteV ≠ 0 := or_pteV_valid _
  have hone : mappages m root a pgSize pa perm = mappagesLoop root a perm 1 m a pa := by
    have hlast : a + pgSize - pgSize = a := UInt64.add_sub_cancel a pgSize
    simp only [mappages, ha, hlast, ne_eq, not_true_eq_false, if_false]
    rfl
  obtain ⟨m1, r, hw, g, hr⟩ := mappages_turn ht ha hlt hfree hpt hpf hpa hf hfv
  refine ⟨m1, ?_⟩
  rw [hone, mappagesLoop, hw]
  rcases hr with rfl | ⟨t0, rfl, hinv, ht2, htab2, hmap2⟩
  · exact ⟨m1, -1, rfl, g, .inl ⟨rfl, rfl⟩⟩
  · have h0 : m1.l0 root (px 2 a) (px 1 a) = some t0 := (walk_alloc_entry ht hw).1
    have hv : ∀ p' f', leafOf (pa2pte pa ||| f) = some (p', f') →
        ¬ m1.IsTable root p' ∧ p' ∉ m1.freelist := by
      intro p' f' hl
      rw [leafOf_leafPte hpa hf hfv, Option.some.injEq, Prod.mk.injEq] at hl
      obtain ⟨rfl, -⟩ := hl
      exact ⟨fun h => (g.table pa h).elim hpt hpf, fun h => hpf (g.free_subset h)⟩
    obtain ⟨-, -, hleaf⟩ := g.tree.writeLeaf (k := px 0 a) h0 hv
    have hor : pa2pte pa ||| permBits perm ||| pteV = pa2pte pa ||| f := UInt64.or_assoc _ _ _
    simp only [hinv, ne_eq, not_true_eq_false, if_false, hor, if_true]
    refine ⟨_, 0, rfl, g, .inr ⟨rfl, ht2, htab2, rfl, rfl, ?_, ?_, hmap2⟩⟩
    · intro x hx
      apply write_page_of_ne
      rintro rfl
      exact hx ⟨.l0 _ _, h0⟩
    · intro i j k
      simp only [hleaf, leafOf_leafPte hpa hf hfv, g.leaf]

end

/-! ## `uvmunmap` -/

theorem pte2pa_aligned (pte : UInt64) : pte2pa pte % pgSize = 0 := by
  apply UInt64.toNat_inj.mp
  simp only [pte2pa, UInt64.toNat_mod, UInt64.toNat_shiftLeft, UInt64.toNat_shiftRight,
    Nat.shiftLeft_eq, Nat.shiftRight_eq_div_pow, pgSize]
  simp

/-- `kfree`'s junk and a write to another page commute. -/
theorem write_push_comm {m : Kmem} {pa t v w : UInt64} {k : Fin 512} {l : List UInt64}
    (h : pa ≠ t) :
    ({ m.fill pa v with freelist := l } : Kmem).write (t, k) w =
      { (m.write (t, k) w).fill pa v with freelist := l } := by
  simp only [Kmem.write, Kmem.fill]
  congr 1
  funext x
  by_cases h1 : x = t
  · subst h1
    simp [Function.update_of_ne h.symm]
  · by_cases h2 : x = pa
    · subst h2
      simp [h1]
    · simp [h1, h2]

section
variable {m : Kmem} {root : UInt64}

theorem isTable_eq {m' : Kmem} (h : m'.table root = m.table root) :
    m'.IsTable root = m.IsTable root := by
  funext t
  simp only [IsTable, h]

/-- A mapped page below `MAXVA`: its level-0 table, and the valid entry there. -/
theorem map_eq_some {a pa f : UInt64} (h : m.map root a = some (pa, f)) :
    a < maxVA ∧ ∃ t0, m.l0 root (px 2 a) (px 1 a) = some t0 ∧
      m.page t0 (px 0 a) &&& pteV ≠ 0 ∧ pte2pa (m.page t0 (px 0 a)) = pa ∧
      pteFlags (m.page t0 (px 0 a)) = f := by
  unfold map at h
  split at h
  · refine ⟨by assumption, ?_⟩
    simp only [leaf, entry] at h
    cases h0 : m.l0 root (px 2 a) (px 1 a) with
    | none => simp [h0] at h
    | some t0 =>
      simp only [h0, Option.map_some, Option.bind_some, leafOf] at h
      split at h
      · simp only [Option.some.injEq, Prod.mk.injEq] at h
        exact ⟨t0, rfl, by assumption, h.1, h.2⟩
      · cases h
  · cases h

/-- Clearing the level-0 entry of a page `a` below `MAXVA`: the tree unmaps `a` and nothing else,
and maps no page it did not map. -/
theorem clearLeaf (ht : Tree m root) {a t0 : UInt64} (ha : a % pgSize = 0) (hlt : a < maxVA)
    (h0 : m.l0 root (px 2 a) (px 1 a) = some t0) :
    Tree (m.write (t0, px 0 a) 0) root ∧ (m.write (t0, px 0 a) 0).table root = m.table root ∧
      (∀ va', va' % pgSize = 0 →
        (m.write (t0, px 0 a) 0).map root va' = if va' = a then none else m.map root va') ∧
      (∀ i j k x, (m.write (t0, px 0 a) 0).leaf root i j k = some x →
        m.leaf root i j k = some x ∧ ¬ (i = px 2 a ∧ j = px 1 a ∧ k = px 0 a)) := by
  have hnone : ∀ pa' f', leafOf 0 = some (pa', f') → ¬ m.IsTable root pa' ∧ pa' ∉ m.freelist := by
    intro pa' f' h
    simp [leafOf] at h
  obtain ⟨ht', htab', hleaf'⟩ := ht.writeLeaf (k := px 0 a) h0 hnone
  obtain ⟨-, -, hmap'⟩ := map_writeLeaf ht ha hlt h0 hnone
  refine ⟨ht', htab', fun va' hva' => hmap' va' hva', ?_⟩
  intro i j k x hx
  rw [hleaf'] at hx
  dsimp only at hx
  split at hx
  · simp [leafOf] at hx
  · exact ⟨hx, by assumption⟩

/-- `kfree` of a page between `end` and `PHYSTOP`. -/
theorem kfree_ok {pa : UInt64} (hpa : pa % pgSize = 0) (hlo : m.kend ≤ pa) (hhi : pa < phystop) :
    kfree m pa = .ok { m.fill pa 0x0101010101010101 with freelist := pa :: m.freelist } := by
  have hlo' : ¬ pa < m.kend := UInt64.not_lt.mpr hlo
  have hhi' : ¬ pa ≥ phystop := UInt64.not_le.mpr hhi
  simp [kfree, hpa, hlo', hhi']

/-- One turn of `uvmunmap` at a mapped page `a` whose flags are not `PTE_V` alone: `walk` finds its
entry, the checks pass, `kfree` (with `do_free`) takes its page, and clearing the entry unmaps `a`
and nothing else. With `do_free` the page must pass `kfree`'s check and be mapped there alone. -/
theorem uvmunmap_turn (ht : Tree m root) {a pa f : UInt64} (ha : a % pgSize = 0)
    (hmap : m.map root a = some (pa, f)) (hf : f ≠ pteV) (doFree : Bool)
    (hfree : doFree = true → 0 < m.kend ∧ m.kend ≤ pa ∧ pa < phystop ∧ ∀ i j k f',
      m.leaf root i j k = some (pa, f') → i = px 2 a ∧ j = px 1 a ∧ k = px 0 a) :
    ∃ t0 m1, walk m root a false = .ok (m, some (t0, px 0 a)) ∧
      ¬ (m.read (t0, px 0 a) &&& pteV = 0) ∧ ¬ (pteFlags (m.read (t0, px 0 a)) = pteV) ∧
      (if doFree then kfree m (pte2pa (m.read (t0, px 0 a))) else .ok m) = .ok m1 ∧
      Tree (m1.write (t0, px 0 a) 0) root ∧
      (∀ va', va' % pgSize = 0 →
        (m1.write (t0, px 0 a) 0).map root va' = if va' = a then none else m.map root va') ∧
      (∀ i j k x, (m1.write (t0, px 0 a) 0).leaf root i j k = some x → m.leaf root i j k = some x) ∧
      (m1.write (t0, px 0 a) 0).freelist = (if doFree then pa :: m.freelist else m.freelist) ∧
      (m1.write (t0, px 0 a) 0).kend = m.kend ∧
      (m1.write (t0, px 0 a) 0).table root = m.table root := by
  obtain ⟨hlt, t0, h0, hv, hpa, hfl⟩ := map_eq_some hmap
  have hw : walk m root a false = .ok (m, some (t0, px 0 a)) := by
    simp [walk_read ht, UInt64.not_le.mpr hlt, h0]
  have hread : m.read (t0, px 0 a) = m.page t0 (px 0 a) := rfl
  obtain ⟨ht', htab', hmap', hsub⟩ := clearLeaf ht ha hlt h0
  cases doFree with
  | false =>
    exact ⟨t0, m, hw, by rw [hread]; exact hv, by rw [hread, hfl]; exact hf, rfl, ht', hmap',
      fun i j k x hx => (hsub i j k x hx).1, rfl, rfl, htab'⟩
  | true =>
    obtain ⟨hkend, hlo, hhi, honly⟩ := hfree rfl
    have hpal : pa % pgSize = 0 := hpa ▸ pte2pa_aligned _
    have hleafpa : m.IsLeaf root pa := ⟨px 2 a, px 1 a, px 0 a, f, by
      simpa only [map, hlt, if_true] using hmap⟩
    have hpt : ¬ (m.write (t0, px 0 a) 0).IsTable root pa := by
      rw [isTable_eq htab']
      exact ht.leaf_not_table pa hleafpa
    have hpt0 : pa ≠ t0 := fun h => hpt ⟨.l0 _ _, by rw [htab', h]; exact h0⟩
    have hnotleaf : ¬ (m.write (t0, px 0 a) 0).IsLeaf root pa := by
      rintro ⟨i, j, k, f', hl⟩
      obtain ⟨hl0, hne⟩ := hsub i j k _ hl
      exact hne (honly i j k f' hl0)
    have hpz : pa ≠ 0 := by
      rintro rfl
      exact absurd hkend (UInt64.not_lt.mpr hlo)
    have hpush := ht'.push (v := 0x0101010101010101) hpt hnotleaf
      (ht.leaf_not_free pa hleafpa) hpal hpz
    -- the pushed page is not a table, so the tree reads the same
    have hagree : ∀ t, (m.write (t0, px 0 a) 0).IsTable root t →
        ({ (m.write (t0, px 0 a) 0).fill pa 0x0101010101010101 with
          freelist := pa :: m.freelist } : Kmem).page t = (m.write (t0, px 0 a) 0).page t := by
      intro t htab
      have hne : t ≠ pa := fun e => hpt (e ▸ htab)
      simp [hne]
    refine ⟨t0, { m.fill pa 0x0101010101010101 with freelist := pa :: m.freelist }, hw,
      by rw [hread]; exact hv, by rw [hread, hfl]; exact hf,
      by rw [if_pos rfl, hread, hpa]; exact kfree_ok hpal hlo hhi, ?_, ?_, ?_, ?_, rfl, ?_⟩
    · rw [write_push_comm hpt0]
      exact hpush
    · intro va' hva'
      rw [write_push_comm hpt0, map_congr hagree]
      exact hmap' va' hva'
    · intro i j k x hx
      rw [write_push_comm hpt0, leaf_congr hagree] at hx
      exact (hsub i j k x hx).1
    · rw [write_push_comm hpt0]
      rfl
    · rw [write_push_comm hpt0, table_congr hagree]
      exact htab'

end

/-- What `kfree` does when it returns: the page goes on the free list, and no other page changes. -/
theorem kfree_eq_ok {m m1 : Kmem} {pa : UInt64} (h : kfree m pa = .ok m1) :
    m1.freelist = pa :: m.freelist ∧ ∀ x, x ≠ pa → m1.page x = m.page x := by
  unfold kfree at h
  split at h
  · cases h
  · cases h
    exact ⟨rfl, fun x hx => by simp [hx]⟩

/-- The pages one turn of `uvmunmap` writes: the entry it clears, in a level-0 table of the tree,
and with `do_free` the page it frees. -/
theorem uvmunmap_turn_page {m m1 : Kmem} {root a t0 : UInt64} {doFree : Bool} (ht : Tree m root)
    (hw : walk m root a false = .ok (m, some (t0, px 0 a)))
    (hk : (if doFree then kfree m (pte2pa (m.read (t0, px 0 a))) else .ok m) = .ok m1) :
    m.IsTable root t0 ∧
      ∀ x, x ∉ m1.freelist → x ≠ t0 → (m1.write (t0, px 0 a) 0).page x = m.page x := by
  have hl0 : m.l0 root (px 2 a) (px 1 a) = some t0 := by
    rw [walk_read ht] at hw
    split at hw
    · cases hw
    · obtain ⟨-, h⟩ := Prod.mk.inj (Except.ok.inj hw)
      obtain ⟨t, ht0, he⟩ := Option.map_eq_some_iff.mp h
      rw [ht0, (Prod.mk.inj he).1]
  refine ⟨⟨.l0 _ _, hl0⟩, fun x hx hxt => ?_⟩
  rw [write_page_of_ne _ _ _ hxt]
  cases doFree with
  | false => cases hk; rfl
  | true =>
    obtain ⟨hfl, hpage⟩ := kfree_eq_ok hk
    exact hpage x fun h => hx (by rw [hfl, h]; exact List.mem_cons_self)

/-- `m'` maps none of the first `j` pages from `va`, and elsewhere what `m` maps. -/
def Removed (m m' : Kmem) (root va : UInt64) (j : Nat) : Prop :=
  (∀ k < j, m'.map root (addr va k) = none) ∧
    ∀ va', va' % pgSize = 0 → (∀ k < j, va' ≠ addr va k) → m'.map root va' = m.map root va'

section
variable {root va : UInt64} {n : Nat} {m0 : Kmem} {doFree : Bool}

/-- The loop of `uvmunmap` from the `t`-th page of a range that was fully mapped in `m0`: the
pages before `t` are unmapped, and with `do_free` their pages are on the free list. -/
theorem uvmunmapLoop_spec (hva : va % pgSize = 0) (hn : va.toNat + n * 4096 ≤ 2 ^ 38)
    (hmapped : ∀ k < n, ∃ pa f, m0.map root (addr va k) = some (pa, f) ∧ f ≠ pteV)
    (hfree : doFree = true → 0 < m0.kend ∧ ∀ k < n, ∀ pa f,
      m0.map root (addr va k) = some (pa, f) → m0.kend ≤ pa ∧ pa < phystop ∧ ∀ i j k' f',
        m0.leaf root i j k' = some (pa, f') →
          i = px 2 (addr va k) ∧ j = px 1 (addr va k) ∧ k' = px 0 (addr va k)) :
    ∀ fuel t (m : Kmem), t + fuel = n → Tree m root → Removed m0 m root va t →
      (∀ i j k x, m.leaf root i j k = some x → m0.leaf root i j k = some x) →
      (∀ x, x ∈ m.freelist ↔ x ∈ m0.freelist ∨
        (doFree = true ∧ ∃ k < t, ∃ f, m0.map root (addr va k) = some (x, f))) →
      m.kend = m0.kend → m.table root = m0.table root →
      (∀ x, ¬ m0.IsTable root x → x ∉ m.freelist → m.page x = m0.page x) →
      ∃ m', uvmunmapLoop root (addr va n) doFree fuel m (addr va t) = .ok m' ∧ Tree m' root ∧
        Removed m0 m' root va n ∧ (∀ x, x ∈ m'.freelist ↔ x ∈ m0.freelist ∨
          (doFree = true ∧ ∃ k < n, ∃ f, m0.map root (addr va k) = some (x, f))) ∧
        m'.kend = m0.kend ∧ m'.table root = m0.table root ∧
        (∀ x, ¬ m0.IsTable root x → x ∉ m'.freelist → m'.page x = m0.page x) ∧
        ∀ i j k x, m'.leaf root i j k = some x → m0.leaf root i j k = some x := by
  intro fuel
  induction fuel with
  | zero =>
    intro t m hfuel ht hr hsub hfl hkend htab hpage
    obtain rfl : t = n := by omega
    exact ⟨m, rfl, ht, hr, hfl, hkend, htab, hpage, hsub⟩
  | succ fuel ih =>
    intro t m hfuel ht hr hsub hfl hkend htab hpage
    have htn : t < n := by omega
    have hat : (addr va t).toNat = va.toNat + t * 4096 := addr_toNat (by omega)
    have hne : ∀ k < t, addr va t ≠ addr va k := by
      intro k hk h
      have := congrArg UInt64.toNat h
      rw [hat, addr_toNat (by omega)] at this
      omega
    have hstop : addr va t < addr va n := by
      rw [UInt64.lt_iff_toNat_lt, hat, addr_toNat (by omega)]
      omega
    obtain ⟨pa, f, hm0, hf⟩ := hmapped t htn
    have hmt : m.map root (addr va t) = some (pa, f) := by
      rw [hr.2 _ (addr_aligned hva t) hne]
      exact hm0
    have hfree' : doFree = true → 0 < m.kend ∧ m.kend ≤ pa ∧ pa < phystop ∧ ∀ i j k f',
        m.leaf root i j k = some (pa, f') →
          i = px 2 (addr va t) ∧ j = px 1 (addr va t) ∧ k = px 0 (addr va t) := by
      intro hd
      obtain ⟨hpos, hall⟩ := hfree hd
      obtain ⟨hlo, hhi, honly⟩ := hall t htn pa f hm0
      exact ⟨hkend ▸ hpos, hkend ▸ hlo, hhi, fun i j k f' hl => honly i j k f' (hsub i j k _ hl)⟩
    obtain ⟨t0, m1, hw, hv, hflag, hk, ht2, hmap2, hsub2, hfl2, hkend2, htab2⟩ :=
      uvmunmap_turn ht (addr_aligned hva t) hmt hf doFree hfree'
    obtain ⟨ht0, hpage2⟩ := uvmunmap_turn_page ht hw hk
    rw [uvmunmapLoop, if_pos hstop, hw]
    simp only [hv, hflag, if_false, hk]
    rw [← addr_succ]
    refine ih (t + 1) _ (by omega) ht2 ⟨?_, ?_⟩ (fun i j k x hx => hsub i j k x (hsub2 i j k x hx))
      ?_ (hkend2.trans hkend) (htab2.trans htab) ?_
    · intro k hk'
      rw [hmap2 _ (addr_aligned hva k)]
      by_cases hkt : k = t
      · subst hkt
        simp
      · have hk'' : k < t := by omega
        rw [if_neg (hne k hk'').symm]
        exact hr.1 k hk''
    · intro va' hva' hk'
      rw [hmap2 va' hva', if_neg (hk' t (by omega))]
      exact hr.2 va' hva' (fun k hk'' => hk' k (by omega))
    · intro x
      rw [hfl2]
      cases doFree with
      | false => simpa using hfl x
      | true =>
        simp only [if_true, List.mem_cons, hfl x, true_and]
        constructor
        · rintro (rfl | h | ⟨k, hk', f', hk''⟩)
          · exact .inr ⟨t, by omega, f, hm0⟩
          · exact .inl h
          · exact .inr ⟨k, by omega, f', hk''⟩
        · rintro (h | ⟨k, hk', f', hk''⟩)
          · exact .inr (.inl h)
          · by_cases hkt : k = t
            · subst hkt
              rw [hm0] at hk''
              obtain ⟨rfl, -⟩ := Prod.mk.inj (Option.some.inj hk'')
              exact .inl rfl
            · exact .inr (.inr ⟨k, by omega, f', hk''⟩)
    · -- the entry cleared is in a table, and a page freed is on the list
      intro x hx hxf
      have hxt : x ≠ t0 := fun h => hx (by rw [h, ← isTable_eq htab]; exact ht0)
      have hxm : x ∉ m.freelist := fun h => hxf (by
        rw [hfl2]
        cases doFree
        · exact h
        · exact List.mem_cons_of_mem _ h)
      rw [hpage2 x hxf hxt, hpage x hx hxm]

end

section
variable {m : Kmem} {root va npages : UInt64} {doFree : Bool}

/-- `uvmunmap` on a tree, over a page-aligned range below `MAXVA` whose pages are all mapped by
leaves: it never panics, unmaps exactly the range, and with `do_free` pushes exactly the range's
pages on the free list, each of which must pass `kfree`'s check and be mapped there alone. -/
theorem uvmunmap_spec (ht : Tree m root) (hva : va % pgSize = 0)
    (hmax : va.toNat + npages.toNat * 4096 ≤ 2 ^ 38)
    (hmapped : ∀ k < npages.toNat, ∃ pa f, m.map root (addr va k) = some (pa, f) ∧ f ≠ pteV)
    (hfree : doFree = true → 0 < m.kend ∧ ∀ k < npages.toNat, ∀ pa f,
      m.map root (addr va k) = some (pa, f) → m.kend ≤ pa ∧ pa < phystop ∧ ∀ i j k' f',
        m.leaf root i j k' = some (pa, f') →
          i = px 2 (addr va k) ∧ j = px 1 (addr va k) ∧ k' = px 0 (addr va k)) :
    ∃ m', uvmunmap m root va npages doFree = .ok m' ∧ Tree m' root ∧
      Removed m m' root va npages.toNat ∧ (∀ x, x ∈ m'.freelist ↔ x ∈ m.freelist ∨
        (doFree = true ∧ ∃ k < npages.toNat, ∃ f, m.map root (addr va k) = some (x, f))) ∧
      m'.kend = m.kend ∧ m'.table root = m.table root ∧
      (∀ x, ¬ m.IsTable root x → x ∉ m'.freelist → m'.page x = m.page x) ∧
      ∀ i j k x, m'.leaf root i j k = some x → m.leaf root i j k = some x := by
  have hstop : va + npages * pgSize = addr va npages.toNat := by
    simp [addr]
  have hva0 : addr va 0 = va := by simp [addr]
  have hrun := uvmunmapLoop_spec hva hmax hmapped hfree npages.toNat 0 m (by omega) ht
    ⟨fun k hk => absurd hk (Nat.not_lt_zero k), fun _ _ _ => rfl⟩ (fun _ _ _ _ h => h)
    (fun x => by simp) rfl rfl (fun _ _ _ => rfl)
  rw [hva0] at hrun
  simp only [uvmunmap, hva, ne_eq, not_true_eq_false, if_false, hstop]
  exact hrun

end

/-! ## The page table as a map -/

/-- The page table read as a map, and what `walk`, `mappages` and `uvmunmap` do to it, on a tree as
the kernel keeps it (`Tree`): valid entries above level 0 are interior, the tables are distinct and
no leaf is a table, and the free list holds none of them. `mappages` is taken onto page-aligned
physical pages that are neither tables nor free, with a `perm` of flag bits. -/
theorem pagetable_map_refinement (m : Kmem) (root : UInt64) (ht : Tree m root) :
    (∀ va, walk m root va false =
      if va ≥ maxVA then .error "walk"
      else .ok (m, (m.l0 root (px 2 va) (px 1 va)).map fun t => (t, px 0 va))) ∧
    (∀ va size pa perm, va % pgSize = 0 → size % pgSize = 0 → size ≠ 0 →
      va.toNat + size.toNat ≤ 2 ^ 38 → pa % pgSize = 0 → 0 ≤ perm.toInt → perm.toInt < 1024 →
      (∀ k < size.toNat / 4096, m.map root (addr va k) = none) →
      (∀ k < size.toNat / 4096, ¬ m.IsTable root (addr pa k) ∧ addr pa k ∉ m.freelist) →
      ∃ m' r, mappages m root va size pa perm = .ok (m', r) ∧ Tree m' root ∧
        ((r = 0 ∧ Gained m m' root va pa (permBits perm ||| pteV) (size.toNat / 4096)) ∨
          (r = -1 ∧ ∃ j < size.toNat / 4096,
            Gained m m' root va pa (permBits perm ||| pteV) j)) ∧
        (size = pgSize → r = -1 → ∀ va', va' % pgSize = 0 → m'.map root va' = m.map root va')) ∧
    (∀ va npages doFree, va % pgSize = 0 → va.toNat + npages.toNat * 4096 ≤ 2 ^ 38 →
      (∀ k < npages.toNat, ∃ pa f, m.map root (addr va k) = some (pa, f) ∧ f ≠ pteV) →
      (doFree = true → 0 < m.kend ∧ ∀ k < npages.toNat, ∀ pa f,
        m.map root (addr va k) = some (pa, f) → m.kend ≤ pa ∧ pa < phystop ∧ ∀ i j k' f',
          m.leaf root i j k' = some (pa, f') →
            i = px 2 (addr va k) ∧ j = px 1 (addr va k) ∧ k' = px 0 (addr va k)) →
      ∃ m', uvmunmap m root va npages doFree = .ok m' ∧ Tree m' root ∧
        Removed m m' root va npages.toNat ∧ (∀ x, x ∈ m'.freelist ↔ x ∈ m.freelist ∨
          (doFree = true ∧ ∃ k < npages.toNat, ∃ f, m.map root (addr va k) = some (x, f)))) := by
  refine ⟨walk_read ht, ?_, ?_⟩
  · intro va size pa perm hva hsz hpos hmax hpa hp0 hp1 hfree hpages
    obtain ⟨m', r, hrun, ht', hr⟩ := mappages_spec ht hva hsz hpos hmax hpa hp0 hp1 hfree hpages
    refine ⟨m', r, hrun, ht', hr, ?_⟩
    -- a one-page call that fails gained a strict prefix of one page: nothing
    rintro rfl rfl va' hva'
    rcases hr with ⟨h, -⟩ | ⟨-, j, hj, hg⟩
    · cases h
    · have hj0 : j = 0 := by
        have h1 : pgSize.toNat / 4096 = 1 := rfl
        omega
      subst hj0
      exact hg.2 va' hva' (fun k hk => absurd hk (Nat.not_lt_zero k))
  · intro va npages doFree hva hmax hmapped hfree
    obtain ⟨m', hrun, ht', hr, hfl, -, -⟩ := uvmunmap_spec ht hva hmax hmapped hfree
    exact ⟨m', hrun, ht', hr, hfl⟩

/-- On an empty tree with two free pages, a one-page `mappages` with `PTE_R | PTE_U` returns and
keeps a tree. -/
theorem pagetable_map_refinement_empty :
    ∃ m' r, mappages ⟨fun _ _ => 0, [0x1000, 0x2000], 0x1000⟩ 0x3000 0 4096 0x5000 18 =
      .ok (m', r) ∧ Tree m' 0x3000 := by
  have ht : Tree ⟨fun _ _ => 0, [0x1000, 0x2000], 0x1000⟩ 0x3000 :=
    Tree.empty rfl (by decide) (by decide) (by simp [pgSize]) (by decide)
  have htab : ∀ t, Kmem.IsTable ⟨fun _ _ => 0, [0x1000, 0x2000], 0x1000⟩ 0x3000 t → t = 0x3000 :=
    fun t h => Tree.isTable_of_empty rfl h
  obtain ⟨m', r, hrun, ht', -⟩ := (pagetable_map_refinement _ _ ht).2.1 0 4096 0x5000 18
    (by decide) (by decide) (by decide) (by decide) (by decide) (by decide) (by decide)
    (by decide) (fun k hk => by
      obtain rfl : k = 0 := by
        have h1 : (4096 : UInt64).toNat / 4096 = 1 := rfl
        omega
      exact ⟨fun h => absurd (htab _ h) (by decide), by decide⟩)
  exact ⟨m', r, hrun, ht'⟩

/-- A physical address that is not page-aligned: `mappages` returns `0` and maps the page of `va`
to the page below `pa`, not to `pa`. Here `pa = 0x4001` and `perm = PTE_R`, on an empty tree. -/
theorem mappages_unaligned_pa :
    Tree ⟨fun _ _ => 0, [0x1000, 0x2000], 0x1000⟩ 0x3000 ∧
      (mappages ⟨fun _ _ => 0, [0x1000, 0x2000], 0x1000⟩ 0x3000 0 4096 0x4001 2).toOption.map
        (fun r => (r.2, r.1.map 0x3000 0)) = some (0, some (0x4000, 3)) :=
  ⟨Tree.empty rfl (by decide) (by decide) (by simp [pgSize]) (by decide), by decide⟩

end Xv6.Vm
