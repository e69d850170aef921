import Xv6.Vm.Translate

/-!
# Physical pages, the page allocator and the Sv39 tree (`kalloc.c`, `riscv.h`)

Physical memory is kept by pages of 512 doublewords, with `kmem.freelist` as a list, head first.
A page table is the tree of such pages that hangs from a root: the root's entry `PX(2, va)` and a
level-1 table's entry `PX(1, va)` are interior entries (valid, with `R`, `W` and `X` clear) that
point to the next table, and the level-0 entry `PX(0, va)` maps the page of `va`.

* `kalloc`, `kfree` : the allocator, with the junk each one writes;
* `Kmem.l1`, `Kmem.l0`, `Kmem.entry`, `Kmem.leaf`, `Kmem.map` : the tree read as a partial map
  from virtual pages to a physical page and flags;
* `Tree` : what a tree that the kernel builds satisfies: valid entries above level 0 are interior,
  its tables are distinct and no leaf is a table, and the free list holds none of them;
* `reading_congr`, `map_writeLeaf`, `Tree.writeLeaf` : what writes do to the reading;
* `leafPte` : the bits of `PA2PTE(pa) | flags`, read back by `PTE2PA` and `PTE_FLAGS`.
-/

namespace Xv6.Vm

/-- `PTE_R` -/
def pteR : UInt64 := (1 : UInt64) <<< (1 : UInt64)

/-- `PTE_X` -/
def pteX : UInt64 := (1 : UInt64) <<< (3 : UInt64)

/-- `PA2PTE(pa)`: `((((uint64)pa) >> 12) << 10)` -/
def pa2pte (pa : UInt64) : UInt64 := (pa >>> 12) <<< 10

/-- `PTE_FLAGS(pte)`: `(pte) & 0x3FF` -/
def pteFlags (pte : UInt64) : UInt64 := pte &&& 0x3FF

/-- `PX(level, va)`: `((((uint64) (va)) >> PXSHIFT(level)) & PXMASK)`, the index of the entry for
`va` in its table at `level`. -/
def px (level : Nat) (va : UInt64) : Fin 512 :=
  Fin.ofNat 512 ((va >>> (12 + 9 * level).toUInt64) &&& 0x1FF).toNat

/-- `PHYSTOP`: `KERNBASE + 128*1024*1024` -/
def phystop : UInt64 := 0x80000000 + 128 * 1024 * 1024

/-- Physical memory by pages, and the allocator. -/
structure Kmem where
  /-- the 512 doublewords of the page at each page address -/
  page : UInt64 → Fin 512 → UInt64
  /-- `kmem.freelist`, head first -/
  freelist : List UInt64
  /-- `end`, the first address after the kernel -/
  kend : UInt64

namespace Kmem

/-- `*pte`, for the entry `e.2` of the table at `e.1` -/
def read (m : Kmem) (e : UInt64 × Fin 512) : UInt64 := m.page e.1 e.2

/-- `*pte = v` -/
def write (m : Kmem) (e : UInt64 × Fin 512) (v : UInt64) : Kmem :=
  { m with page := Function.update m.page e.1 (Function.update (m.page e.1) e.2 v) }

/-- `memset(pa, c, PGSIZE)`, with `v` the doubleword of eight bytes `c` -/
def fill (m : Kmem) (pa v : UInt64) : Kmem :=
  { m with page := Function.update m.page pa (fun _ => v) }

@[simp] theorem write_freelist (m : Kmem) (e : UInt64 × Fin 512) (v : UInt64) :
    (m.write e v).freelist = m.freelist := rfl
@[simp] theorem write_kend (m : Kmem) (e : UInt64 × Fin 512) (v : UInt64) :
    (m.write e v).kend = m.kend := rfl
@[simp] theorem fill_freelist (m : Kmem) (pa v : UInt64) : (m.fill pa v).freelist = m.freelist := rfl
@[simp] theorem fill_kend (m : Kmem) (pa v : UInt64) : (m.fill pa v).kend = m.kend := rfl

theorem write_page (m : Kmem) (e : UInt64 × Fin 512) (v : UInt64) (t : UInt64) (i : Fin 512) :
    (m.write e v).page t i = if t = e.1 ∧ i = e.2 then v else m.page t i := by
  by_cases ht : t = e.1
  · subst ht
    by_cases hi : i = e.2
    · subst hi; simp [write]
    · simp [write, hi]
  · simp [write, ht]

theorem write_page_of_ne (m : Kmem) (e : UInt64 × Fin 512) (v : UInt64) {t : UInt64}
    (ht : t ≠ e.1) : (m.write e v).page t = m.page t := by
  simp [write, ht]

@[simp] theorem fill_page (m : Kmem) (pa v t : UInt64) :
    (m.fill pa v).page t = if t = pa then fun _ => v else m.page t := by
  by_cases ht : t = pa <;> simp [fill, ht]

end Kmem

/-- `kalloc()`: the head of the free list, filled with junk (`memset(r, 5, PGSIZE)`), or `0` when
the list is empty. -/
def kalloc (m : Kmem) : Kmem × UInt64 :=
  match m.freelist with
  | [] => (m, 0)
  | r :: rest => ({ m with freelist := rest }.fill r 0x0505050505050505, r)

/-- `kfree(pa)`: a page between `end` and `PHYSTOP`, filled with junk (`memset(pa, 1, PGSIZE)`) and
pushed on the free list; any other address panics. -/
def kfree (m : Kmem) (pa : UInt64) : Except String Kmem :=
  if pa % pgSize ≠ 0 ∨ pa < m.kend ∨ pa ≥ phystop then .error "kfree"
  else .ok { m.fill pa 0x0101010101010101 with freelist := pa :: m.freelist }


/-- The table an interior entry points to: the entry is valid, with `R`, `W` and `X` clear. -/
def interior (pte : UInt64) : Option UInt64 :=
  if pte &&& pteV ≠ 0 ∧ pte &&& (pteR ||| pteW ||| pteX) = 0 then some (pte2pa pte) else none

/-! ## The bits of an entry -/

theorem or_and_self (a b : UInt64) : (a ||| b) &&& b = b := by
  apply UInt64.toBitVec_inj.mp
  simp only [UInt64.toBitVec_and, UInt64.toBitVec_or]
  ext i hi
  simp only [BitVec.getElem_and, BitVec.getElem_or]
  cases a.toBitVec[i] <;> cases b.toBitVec[i] <;> rfl

/-- A page-aligned address in numbers. -/
theorem toNat_mod_of_aligned {a : UInt64} (h : a % pgSize = 0) : a.toNat % 4096 = 0 := by
  have := congrArg UInt64.toNat h
  simpa [pgSize, UInt64.toNat_mod] using this

theorem pa2pte_toNat (p : UInt64) : (pa2pte p).toNat = p.toNat / 4096 * 1024 := by
  have := p.toNat_lt
  simp only [pa2pte, UInt64.toNat_shiftLeft, UInt64.toNat_shiftRight, Nat.shiftLeft_eq,
    Nat.shiftRight_eq_div_pow]
  simp
  omega

/-- Below the ten flag bits, `(2^10 a + f) & c` sees only `f`. -/
theorem nat_and_low {a f c : Nat} (hf : f < 2 ^ 10) (hc : c < 2 ^ 10) :
    (2 ^ 10 * a + f) &&& c = f &&& c := by
  apply Nat.eq_of_testBit_eq
  intro j
  simp only [Nat.testBit_and, Nat.testBit_two_pow_mul_add _ hf]
  split
  · rfl
  · have hle : 2 ^ 10 ≤ 2 ^ j := Nat.pow_le_pow_right (by omega) (by omega)
    simp [Nat.testBit_lt_two_pow (lt_of_lt_of_le hc hle)]

section leaf
variable {p f : UInt64} (hp : p % pgSize = 0) (hf : f < 1024)
include hf

/-- `PA2PTE(pa) | f`, for flags `f` below `2^10`, in numbers. -/
theorem leafPte_toNat : (pa2pte p ||| f).toNat = 2 ^ 10 * (p.toNat / 4096) + f.toNat := by
  have hf' : f.toNat < 2 ^ 10 := UInt64.lt_iff_toNat_lt.mp hf
  rw [UInt64.toNat_or, pa2pte_toNat, Nat.mul_comm, ← Nat.two_pow_add_eq_or_of_lt hf']

theorem and_leafPte {c : UInt64} (hc : c < 1024) : (pa2pte p ||| f) &&& c = f &&& c := by
  have hf' : f.toNat < 2 ^ 10 := UInt64.lt_iff_toNat_lt.mp hf
  have hc' : c.toNat < 2 ^ 10 := UInt64.lt_iff_toNat_lt.mp hc
  apply UInt64.toNat_inj.mp
  rw [UInt64.toNat_and, UInt64.toNat_and, leafPte_toNat hf, nat_and_low hf' hc']

theorem pteFlags_leafPte : pteFlags (pa2pte p ||| f) = f := by
  have hf' : f.toNat < 2 ^ 10 := UInt64.lt_iff_toNat_lt.mp hf
  rw [pteFlags, and_leafPte hf (by decide)]
  apply UInt64.toNat_inj.mp
  rw [UInt64.toNat_and, show (0x3FF : UInt64).toNat = 2 ^ 10 - 1 from rfl,
    Nat.and_two_pow_sub_one_eq_mod, Nat.mod_eq_of_lt hf']

include hp in
theorem pte2pa_leafPte : pte2pa (pa2pte p ||| f) = p := by
  have hp' := toNat_mod_of_aligned hp
  have hf' : f.toNat < 2 ^ 10 := UInt64.lt_iff_toNat_lt.mp hf
  have hlt := p.toNat_lt
  apply UInt64.toNat_inj.mp
  simp only [pte2pa, UInt64.toNat_shiftLeft, UInt64.toNat_shiftRight, leafPte_toNat hf,
    Nat.shiftLeft_eq, Nat.shiftRight_eq_div_pow]
  simp
  omega

end leaf

theorem interior_table {p : UInt64} (hp : p % pgSize = 0) : interior (pa2pte p ||| pteV) = some p := by
  have hV : pteV < 1024 := by decide
  simp only [interior, and_leafPte hV hV, and_leafPte hV (by decide : pteR ||| pteW ||| pteX < 1024),
    pte2pa_leafPte hp hV]
  rw [if_pos (by decide)]

@[simp] theorem interior_zero : interior 0 = none := by decide

theorem interior_of_invalid {pte : UInt64} (h : pte &&& pteV = 0) : interior pte = none := by
  simp [interior, h]

theorem interior_eq_some {pte t : UInt64} (h : interior pte = some t) :
    pte &&& pteV ≠ 0 ∧ pte2pa pte = t := by
  unfold interior at h
  split at h
  · exact ⟨(by assumption : _ ∧ _).1, Option.some.inj h⟩
  · cases h

/-! ## Indices -/

theorem px_val {l : Nat} (hl : l ≤ 2) (va : UInt64) :
    (px l va).val = va.toNat / 2 ^ (12 + 9 * l) % 512 := by
  have hs : ((12 + 9 * l).toUInt64).toNat % 64 = 12 + 9 * l := by
    rw [Nat.toUInt64_eq, UInt64.toNat_ofNat']; omega
  simp only [px, Fin.val_ofNat, UInt64.toNat_and, UInt64.toNat_shiftRight, hs,
    Nat.shiftRight_eq_div_pow, show (0x1FF : UInt64).toNat = 2 ^ 9 - 1 from rfl,
    Nat.and_two_pow_sub_one_eq_mod]
  omega

/-- A page below `MAXVA` is named by its three indices. -/
theorem eq_of_px {va va' : UInt64} (hva : va % pgSize = 0) (hva' : va' % pgSize = 0)
    (hlt : va < maxVA) (hlt' : va' < maxVA) (h2 : px 2 va = px 2 va') (h1 : px 1 va = px 1 va')
    (h0 : px 0 va = px 0 va') : va = va' := by
  have e2 : va.toNat / 2 ^ 30 % 512 = va'.toNat / 2 ^ 30 % 512 := by
    have := congrArg Fin.val h2
    rwa [px_val (by omega) va, px_val (by omega) va'] at this
  have e1 : va.toNat / 2 ^ 21 % 512 = va'.toNat / 2 ^ 21 % 512 := by
    have := congrArg Fin.val h1
    rwa [px_val (by omega) va, px_val (by omega) va'] at this
  have e0 : va.toNat / 2 ^ 12 % 512 = va'.toNat / 2 ^ 12 % 512 := by
    have := congrArg Fin.val h0
    rwa [px_val (by omega) va, px_val (by omega) va'] at this
  have a := toNat_mod_of_aligned hva
  have a' := toNat_mod_of_aligned hva'
  rw [UInt64.lt_iff_toNat_lt, maxVA_toNat] at hlt hlt'
  apply UInt64.toNat_inj.mp
  omega

/-! ## The tree as a map -/

/-- What a level-0 entry maps: its physical page and flags, when it is valid. -/
def leafOf (pte : UInt64) : Option (UInt64 × UInt64) :=
  if pte &&& pteV ≠ 0 then some (pte2pa pte, pteFlags pte) else none

/-- Where a table sits in the tree: the root, the level-1 table under the root's entry `i`, or the
level-0 table under the entries `i` and `j`. -/
inductive Node where
  | root
  | l1 (i : Fin 512)
  | l0 (i j : Fin 512)
  deriving DecidableEq

namespace Kmem

variable (m : Kmem) (root : UInt64)

/-- The level-1 table of the root's entry `i`. -/
def l1 (i : Fin 512) : Option UInt64 := interior (m.page root i)

/-- The level-0 table of the root's entry `i` and that table's entry `j`. -/
def l0 (i j : Fin 512) : Option UInt64 := (m.l1 root i).bind fun t1 => interior (m.page t1 j)

/-- The level-0 entry `k` under the interior entries `i` and `j`, when both exist. -/
def entry (i j k : Fin 512) : Option UInt64 := (m.l0 root i j).map fun t0 => m.page t0 k

/-- What the level-0 entry `k` under `i` and `j` maps, when it exists. -/
def leaf (i j k : Fin 512) : Option (UInt64 × UInt64) := (m.entry root i j k).bind leafOf

/-- The tree as a partial map from virtual pages below `MAXVA` to a physical page and flags. -/
def map (va : UInt64) : Option (UInt64 × UInt64) :=
  if va < maxVA then m.leaf root (px 2 va) (px 1 va) (px 0 va) else none

/-- The table at a node of the tree. -/
def table : Node → Option UInt64
  | .root => some root
  | .l1 i => m.l1 root i
  | .l0 i j => m.l0 root i j

/-- A page is a table of the tree. -/
def IsTable (t : UInt64) : Prop := ∃ n, m.table root n = some t

/-- A page is mapped by a valid level-0 entry. -/
def IsLeaf (pa : UInt64) : Prop := ∃ i j k f, m.leaf root i j k = some (pa, f)

end Kmem

/-- A page table as the kernel keeps it, with the allocator beside it. -/
structure Tree (m : Kmem) (root : UInt64) : Prop where
  /-- a valid entry of the root is an interior entry -/
  root_valid : ∀ i, m.page root i &&& pteV ≠ 0 → (m.l1 root i).isSome
  /-- a valid entry of a level-1 table is an interior entry -/
  l1_valid : ∀ i t1 j, m.l1 root i = some t1 → m.page t1 j &&& pteV ≠ 0 →
    (interior (m.page t1 j)).isSome
  /-- distinct nodes hold distinct tables -/
  inj : ∀ n n' t, m.table root n = some t → m.table root n' = some t → n = n'
  leaf_not_table : ∀ pa, m.IsLeaf root pa → ¬ m.IsTable root pa
  nodup : m.freelist.Nodup
  zero_not_free : (0 : UInt64) ∉ m.freelist
  aligned_free : ∀ p ∈ m.freelist, p % pgSize = 0
  table_not_free : ∀ t, m.IsTable root t → t ∉ m.freelist
  leaf_not_free : ∀ pa, m.IsLeaf root pa → pa ∉ m.freelist

namespace Kmem

/-! ## Pages outside the tree

Each reading looks only at tables, so memory that agrees on the tables reads the same tree. -/

section congr
variable {m m' : Kmem} {root : UInt64} (h : ∀ t, m.IsTable root t → m'.page t = m.page t)
include h

theorem l1_congr : m'.l1 root = m.l1 root := by
  funext i
  simp only [l1, h root ⟨.root, rfl⟩]

theorem l0_congr : m'.l0 root = m.l0 root := by
  funext i j
  simp only [l0, l1_congr h]
  cases hi : m.l1 root i with
  | none => rfl
  | some t1 => simp only [Option.bind_some, h t1 ⟨.l1 i, hi⟩]

theorem entry_congr : m'.entry root = m.entry root := by
  funext i j k
  simp only [entry, l0_congr h]
  cases hj : m.l0 root i j with
  | none => rfl
  | some t0 => simp only [Option.map_some, h t0 ⟨.l0 i j, hj⟩]

theorem table_congr : m'.table root = m.table root := by
  funext n
  cases n <;> simp only [table, l1_congr h, l0_congr h]

theorem leaf_congr : m'.leaf root = m.leaf root := by
  funext i j k
  simp only [leaf, entry_congr h]

theorem map_congr : m'.map root = m.map root := by
  funext va
  simp only [map, leaf_congr h]

theorem isTable_congr : m'.IsTable root = m.IsTable root := by
  funext t
  simp only [IsTable, table_congr h]

theorem isLeaf_congr : m'.IsLeaf root = m.IsLeaf root := by
  funext pa
  simp only [IsLeaf, leaf_congr h]

end congr

end Kmem

open Kmem

namespace Tree

variable {m m' : Kmem} {root : UInt64}

/-- Changes away from the tables, with pages taken off the free list, keep a tree. -/
theorem of_sublist (ht : Tree m root) (h : ∀ t, m.IsTable root t → m'.page t = m.page t)
    (hfl : m'.freelist.Sublist m.freelist) : Tree m' root where
  root_valid i hv := by
    rw [h root ⟨.root, rfl⟩] at hv
    rw [l1_congr h]
    exact ht.root_valid i hv
  l1_valid i t1 j h1 hv := by
    rw [l1_congr h] at h1
    rw [h t1 ⟨.l1 i, h1⟩] at hv ⊢
    exact ht.l1_valid i t1 j h1 hv
  inj := by
    rw [table_congr h]
    exact ht.inj
  leaf_not_table := by
    rw [isLeaf_congr h, isTable_congr h]
    exact ht.leaf_not_table
  nodup := ht.nodup.sublist hfl
  zero_not_free h0 := ht.zero_not_free (hfl.subset h0)
  aligned_free p hp := ht.aligned_free p (hfl.subset hp)
  table_not_free t := by
    rw [isTable_congr h]
    exact fun ht' hf => ht.table_not_free t ht' (hfl.subset hf)
  leaf_not_free pa := by
    rw [isLeaf_congr h]
    exact fun hl hf => ht.leaf_not_free pa hl (hfl.subset hf)

theorem not_table_of_free (ht : Tree m root) {p : UInt64} (hp : p ∈ m.freelist) :
    ¬ m.IsTable root p :=
  fun htab => ht.table_not_free p htab hp

theorem table_ne_root (ht : Tree m root) {i : Fin 512} {t : UInt64} (h1 : m.l1 root i = some t) :
    t ≠ root := by
  rintro rfl
  cases ht.inj (.l1 i) .root _ h1 rfl

theorem l0_ne_root (ht : Tree m root) {i j : Fin 512} {t : UInt64} (h0 : m.l0 root i j = some t) :
    t ≠ root := by
  rintro rfl
  cases ht.inj (.l0 i j) .root _ h0 rfl

theorem l0_ne_l1 (ht : Tree m root) {i j i' : Fin 512} {t0 t1 : UInt64}
    (h0 : m.l0 root i j = some t0) (h1 : m.l1 root i' = some t1) : t0 ≠ t1 := by
  rintro rfl
  cases ht.inj (.l0 i j) (.l1 i') _ h0 h1

end Tree

/-! ## Growing the tree -/

/-- A new value at a point that held none keeps a partial function injective, when the value is
new. -/
theorem inj_update {α β : Type} [DecidableEq α] {f : α → Option β} {a : α} {b : β}
    (hinj : ∀ x y c, f x = some c → f y = some c → x = y) (hb : ∀ x, f x ≠ some b) :
    ∀ x y c, Function.update f a (some b) x = some c → Function.update f a (some b) y = some c →
      x = y := by
  intro x y c hx hy
  by_cases hxa : x = a <;> by_cases hya : y = a
  · rw [hxa, hya]
  · subst hxa
    rw [Function.update_self] at hx
    rw [Function.update_of_ne hya, ← hx] at hy
    exact absurd hy (hb y)
  · subst hya
    rw [Function.update_self] at hy
    rw [Function.update_of_ne hxa, ← hy] at hx
    exact absurd hx (hb x)
  · rw [Function.update_of_ne hxa] at hx
    rw [Function.update_of_ne hya] at hy
    exact hinj x y c hx hy

theorem isLeaf_eq {m m' : Kmem} {root : UInt64} (h : m'.leaf root = m.leaf root) :
    m'.IsLeaf root = m.IsLeaf root := by
  funext pa
  simp only [IsLeaf, h]

namespace Tree

variable {m m' : Kmem} {root : UInt64}

/-- A tree that gained one table `p`, at a node that had none, and kept its leaves. -/
theorem of_grow (ht : Tree m root) {n0 : Node} {p : UInt64}
    (htab : m'.table root = Function.update (m.table root) n0 (some p))
    (hpt : ¬ m.IsTable root p) (hpl : ¬ m.IsLeaf root p) (hpf : p ∉ m.freelist)
    (hleaf : m'.leaf root = m.leaf root) (hfl : m'.freelist = m.freelist)
    (hroot : ∀ i, m'.page root i &&& pteV ≠ 0 → (m'.l1 root i).isSome)
    (hl1 : ∀ i t1 j, m'.l1 root i = some t1 → m'.page t1 j &&& pteV ≠ 0 →
      (interior (m'.page t1 j)).isSome) : Tree m' root where
  root_valid := hroot
  l1_valid := hl1
  inj := by
    rw [htab]
    exact inj_update ht.inj (fun n hn => hpt ⟨n, hn⟩)
  leaf_not_table pa hl := by
    rintro ⟨n, hn⟩
    rw [isLeaf_eq hleaf] at hl
    rw [htab] at hn
    by_cases h : n = n0
    · subst h
      rw [Function.update_self, Option.some.injEq] at hn
      exact hpl (hn ▸ hl)
    · rw [Function.update_of_ne h] at hn
      exact ht.leaf_not_table pa hl ⟨n, hn⟩
  nodup := hfl ▸ ht.nodup
  zero_not_free := hfl ▸ ht.zero_not_free
  aligned_free := hfl ▸ ht.aligned_free
  table_not_free t := by
    rintro ⟨n, hn⟩
    rw [hfl]
    rw [htab] at hn
    by_cases h : n = n0
    · subst h
      rw [Function.update_self, Option.some.injEq] at hn
      exact hn ▸ hpf
    · rw [Function.update_of_ne h] at hn
      exact ht.table_not_free t ⟨n, hn⟩
  leaf_not_free pa hl := by
    rw [hfl]
    rw [isLeaf_eq hleaf] at hl
    exact ht.leaf_not_free pa hl

/-- A fresh zeroed page `p` written into the root's invalid entry `i` becomes the level-1 table
there, and maps nothing yet. -/
theorem addL1 (ht : Tree m root) {p : UInt64} {i : Fin 512} (hp0 : m.page p = fun _ => 0)
    (hpa : p % pgSize = 0) (hpt : ¬ m.IsTable root p) (hpl : ¬ m.IsLeaf root p)
    (hpf : p ∉ m.freelist) (hi : m.page root i &&& pteV = 0) :
    Tree (m.write (root, i) (pa2pte p ||| pteV)) root ∧
      (m.write (root, i) (pa2pte p ||| pteV)).table root =
        Function.update (m.table root) (.l1 i) (some p) ∧
      (m.write (root, i) (pa2pte p ||| pteV)).leaf root = m.leaf root := by
  set m' := m.write (root, i) (pa2pte p ||| pteV) with hm'
  have hproot : p ≠ root := fun h => hpt ⟨.root, by rw [h]; rfl⟩
  have hpage : ∀ t, t ≠ root → m'.page t = m.page t := fun t h => write_page_of_ne _ _ _ h
  have hl1i : m.l1 root i = none := interior_of_invalid hi
  have hl1 : m'.l1 root = Function.update (m.l1 root) i (some p) := by
    funext i'
    by_cases h : i' = i
    · subst h
      simp [l1, m', write_page, interior_table hpa]
    · simp [l1, m', write_page, h]
  have hl0 : m'.l0 root = m.l0 root := by
    funext i' j
    by_cases h : i' = i
    · subst h
      simp only [l0, hl1, hl1i, Function.update_self, Option.bind_some, Option.bind_none,
        hpage p hproot, hp0, interior_zero]
    · simp only [l0, hl1, Function.update_of_ne h]
      cases h1 : m.l1 root i' with
      | none => rfl
      | some t1 => simp only [Option.bind_some, hpage t1 (ht.table_ne_root h1)]
  have hentry : m'.entry root = m.entry root := by
    funext i' j k
    simp only [entry, hl0]
    cases h0 : m.l0 root i' j with
    | none => rfl
    | some t0 => simp only [Option.map_some, hpage t0 (ht.l0_ne_root h0)]
  have hleaf : m'.leaf root = m.leaf root := by
    funext i' j k
    simp only [leaf, hentry]
  have htab : m'.table root = Function.update (m.table root) (.l1 i) (some p) := by
    funext n
    cases n with
    | root => rfl
    | l1 i' =>
      by_cases h : i' = i
      · subst h
        simp [table, hl1]
      · simp [table, hl1, h]
    | l0 i' j => simp [table, hl0]
  refine ⟨ht.of_grow htab hpt hpl hpf hleaf rfl ?_ ?_, htab, hleaf⟩
  · intro i' hv
    rw [hl1]
    by_cases h : i' = i
    · subst h
      simp
    · rw [Function.update_of_ne h]
      have hv' : m.page root i' &&& pteV ≠ 0 := by simpa [m', write_page, h] using hv
      exact ht.root_valid i' hv'
  · intro i' t1 j h1 hv
    rw [hl1] at h1
    by_cases h : i' = i
    · subst h
      rw [Function.update_self, Option.some.injEq] at h1
      subst h1
      rw [hpage _ hproot, hp0] at hv
      exact absurd (by decide : (0 : UInt64) &&& pteV = 0) hv
    · rw [Function.update_of_ne h] at h1
      rw [hpage t1 (ht.table_ne_root h1)] at hv ⊢
      exact ht.l1_valid i' t1 j h1 hv

/-- A fresh zeroed page `p` written into the invalid entry `j` of the level-1 table under `i`
becomes the level-0 table there, whose entries are all `0`. -/
theorem addL0 (ht : Tree m root) {p t1 : UInt64} {i j : Fin 512} (hp0 : m.page p = fun _ => 0)
    (hpa : p % pgSize = 0) (hpt : ¬ m.IsTable root p) (hpl : ¬ m.IsLeaf root p)
    (hpf : p ∉ m.freelist) (h1 : m.l1 root i = some t1) (hj : m.page t1 j &&& pteV = 0) :
    Tree (m.write (t1, j) (pa2pte p ||| pteV)) root ∧
      (m.write (t1, j) (pa2pte p ||| pteV)).table root =
        Function.update (m.table root) (.l0 i j) (some p) ∧
      (m.write (t1, j) (pa2pte p ||| pteV)).leaf root = m.leaf root := by
  set m' := m.write (t1, j) (pa2pte p ||| pteV) with hm'
  have ht1 : t1 ≠ root := ht.table_ne_root h1
  have hpt1 : p ≠ t1 := fun h => hpt ⟨.l1 i, by rw [h]; exact h1⟩
  have hpage : ∀ t, t ≠ t1 → m'.page t = m.page t := fun t h => write_page_of_ne _ _ _ h
  have hl1 : m'.l1 root = m.l1 root := by
    funext i'
    simp only [l1, hpage root ht1.symm]
  have hl0ij : m.l0 root i j = none := by
    simp only [l0, h1, Option.bind_some, interior_of_invalid hj]
  have hl0 : m'.l0 root = fun i' j' => if i' = i ∧ j' = j then some p else m.l0 root i' j' := by
    funext i' j'
    simp only [l0, hl1]
    cases h1' : m.l1 root i' with
    | none =>
      have hi' : i' ≠ i := by rintro rfl; rw [h1] at h1'; cases h1'
      simp [hi']
    | some t1' =>
      by_cases ht' : t1' = t1
      · subst ht'
        have hi' : i' = i := by
          have := ht.inj (.l1 i') (.l1 i) t1' h1' h1
          cases this; rfl
        subst hi'
        by_cases hj' : j' = j
        · subst hj'
          simp [m', write_page, interior_table hpa]
        · simp [m', write_page, hj']
      · have hi' : i' ≠ i := by rintro rfl; rw [h1] at h1'; exact ht' (Option.some.inj h1').symm
        simp [hpage t1' ht', hi']
  have hentry : m'.entry root =
      fun i' j' k => if i' = i ∧ j' = j then some 0 else m.entry root i' j' k := by
    funext i' j' k
    simp only [entry, hl0]
    by_cases hij : i' = i ∧ j' = j
    · simp only [hij, and_self, if_true, Option.map_some, hpage p hpt1, hp0]
    · simp only [hij, if_false]
      cases h0 : m.l0 root i' j' with
      | none => rfl
      | some t0 => simp only [Option.map_some, hpage t0 (ht.l0_ne_l1 h0 h1)]
  have hleaf : m'.leaf root = m.leaf root := by
    funext i' j' k
    simp only [leaf, hentry]
    by_cases hij : i' = i ∧ j' = j
    · obtain ⟨rfl, rfl⟩ := hij
      simp [entry, hl0ij, leafOf]
    · simp [hij]
  have htab : m'.table root = Function.update (m.table root) (.l0 i j) (some p) := by
    funext n
    cases n with
    | root => rfl
    | l1 i' => simp [table, hl1]
    | l0 i' j' =>
      by_cases h : i' = i ∧ j' = j
      · obtain ⟨rfl, rfl⟩ := h
        simp [table, hl0]
      · simp only [table, hl0, h, if_false]
        rw [Function.update_of_ne (by rintro ⟨⟩; exact h ⟨rfl, rfl⟩)]
        rfl
  refine ⟨ht.of_grow htab hpt hpl hpf hleaf rfl ?_ ?_, htab, hleaf⟩
  · intro i' hv
    rw [hpage root ht1.symm] at hv
    rw [hl1]
    exact ht.root_valid i' hv
  · intro i' t1' j' h1' hv
    rw [hl1] at h1'
    by_cases ht' : t1' = t1
    · subst ht'
      have hi' : i' = i := by
        have := ht.inj (.l1 i') (.l1 i) t1' h1' h1
        cases this; rfl
      by_cases hj' : j' = j
      · subst hj'
        simp [m', write_page, interior_table hpa]
      · have hv' : m.page t1' j' &&& pteV ≠ 0 := by simpa [m', write_page, hj'] using hv
        simpa [m', write_page, hj'] using ht.l1_valid i' t1' j' h1' hv'
    · rw [hpage t1' ht'] at hv ⊢
      exact ht.l1_valid i' t1' j' h1' hv

/-- Writing the level-0 entry `k` of the table under `i` and `j` changes what that entry maps and
nothing else; the tree stays one when the page it now maps is neither a table nor free. -/
theorem writeLeaf (ht : Tree m root) {i j k : Fin 512} {t0 v : UInt64}
    (h0 : m.l0 root i j = some t0)
    (hv : ∀ pa f, leafOf v = some (pa, f) → ¬ m.IsTable root pa ∧ pa ∉ m.freelist) :
    Tree (m.write (t0, k) v) root ∧ (m.write (t0, k) v).table root = m.table root ∧
      (m.write (t0, k) v).leaf root =
        fun i' j' k' => if i' = i ∧ j' = j ∧ k' = k then leafOf v else m.leaf root i' j' k' := by
  set m' := m.write (t0, k) v with hm'
  have hpage : ∀ t, t ≠ t0 → m'.page t = m.page t := fun t h => write_page_of_ne _ _ _ h
  have hroot : m'.page root = m.page root := hpage root (ht.l0_ne_root h0).symm
  have hl1 : m'.l1 root = m.l1 root := by
    funext i'
    simp only [l1, hroot]
  have hl0 : m'.l0 root = m.l0 root := by
    funext i' j'
    simp only [l0, hl1]
    cases h1 : m.l1 root i' with
    | none => rfl
    | some t1 => simp only [Option.bind_some, hpage t1 (ht.l0_ne_l1 h0 h1).symm]
  have htab : m'.table root = m.table root := by
    funext n
    cases n <;> simp only [table, hl1, hl0]
  have hentry : m'.entry root =
      fun i' j' k' => if i' = i ∧ j' = j ∧ k' = k then some v else m.entry root i' j' k' := by
    funext i' j' k'
    simp only [entry, hl0]
    cases h0' : m.l0 root i' j' with
    | none =>
      have hij : ¬ (i' = i ∧ j' = j ∧ k' = k) := by
        rintro ⟨rfl, rfl, -⟩
        rw [h0] at h0'
        cases h0'
      simp only [Option.map_none, hij, if_false]
    | some t0' =>
      by_cases ht' : t0' = t0
      · subst ht'
        have hij := ht.inj (.l0 i' j') (.l0 i j) t0' h0' h0
        cases hij
        by_cases hk : k' = k
        · subst hk
          simp [m', write_page]
        · simp [m', write_page, hk]
      · have hij : ¬ (i' = i ∧ j' = j ∧ k' = k) := by
          rintro ⟨rfl, rfl, -⟩
          rw [h0] at h0'
          exact ht' (Option.some.inj h0').symm
        simp only [Option.map_some, hpage t0' ht', hij, if_false]
  have hleaf : m'.leaf root =
      fun i' j' k' => if i' = i ∧ j' = j ∧ k' = k then leafOf v else m.leaf root i' j' k' := by
    funext i' j' k'
    simp only [leaf, hentry]
    split <;> rfl
  have hnew : ∀ pa, m'.IsLeaf root pa → m.IsLeaf root pa ∨ ∃ f, leafOf v = some (pa, f) := by
    rintro pa ⟨i', j', k', f, hl⟩
    rw [hleaf] at hl
    dsimp only at hl
    split at hl
    · exact .inr ⟨f, hl⟩
    · exact .inl ⟨i', j', k', f, hl⟩
  have htable : m'.IsTable root = m.IsTable root := by
    funext t
    simp only [IsTable, htab]
  refine ⟨⟨?_, ?_, ?_, ?_, ht.nodup, ht.zero_not_free, ht.aligned_free, ?_, ?_⟩, htab, hleaf⟩
  · intro i' hv'
    rw [hroot] at hv'
    rw [hl1]
    exact ht.root_valid i' hv'
  · intro i' t1 j' h1 hv'
    rw [hl1] at h1
    rw [hpage t1 (ht.l0_ne_l1 h0 h1).symm] at hv' ⊢
    exact ht.l1_valid i' t1 j' h1 hv'
  · rw [htab]
    exact ht.inj
  · intro pa hl
    rw [htable]
    rcases hnew pa hl with hl' | ⟨f, hf⟩
    · exact ht.leaf_not_table pa hl'
    · exact (hv pa f hf).1
  · intro t htab'
    rw [htable] at htab'
    exact ht.table_not_free t htab'
  · intro pa hl
    rcases hnew pa hl with hl' | ⟨f, hf⟩
    · exact ht.leaf_not_free pa hl'
    · exact (hv pa f hf).2

/-- A page that is neither a table, nor mapped, nor free, pushed on the free list after
`memset`: what `kfree` does. -/
theorem push (ht : Tree m root) {pa v : UInt64} (hpt : ¬ m.IsTable root pa)
    (hpl : ¬ m.IsLeaf root pa) (hpf : pa ∉ m.freelist) (hpa : pa % pgSize = 0) (h0 : pa ≠ 0) :
    Tree { m.fill pa v with freelist := pa :: m.freelist } root := by
  set m' : Kmem := { m.fill pa v with freelist := pa :: m.freelist } with hm'
  have h : ∀ t, m.IsTable root t → m'.page t = m.page t := by
    intro t htab
    have hne : t ≠ pa := fun e => hpt (e ▸ htab)
    simp [m', hne]
  have hmem : ∀ t, t ∈ m'.freelist ↔ t = pa ∨ t ∈ m.freelist := fun t => List.mem_cons
  refine ⟨?_, ?_, ?_, ?_, ?_, ?_, ?_, ?_, ?_⟩
  · intro i hv
    rw [h root ⟨.root, rfl⟩] at hv
    rw [l1_congr h]
    exact ht.root_valid i hv
  · intro i t1 j h1 hv
    rw [l1_congr h] at h1
    rw [h t1 ⟨.l1 i, h1⟩] at hv ⊢
    exact ht.l1_valid i t1 j h1 hv
  · rw [table_congr h]
    exact ht.inj
  · rw [isLeaf_congr h, isTable_congr h]
    exact ht.leaf_not_table
  · exact List.nodup_cons.mpr ⟨hpf, ht.nodup⟩
  · rw [hmem]
    rintro (e | e)
    · exact h0 e.symm
    · exact ht.zero_not_free e
  · intro p hp
    rcases (hmem p).mp hp with rfl | hp'
    · exact hpa
    · exact ht.aligned_free p hp'
  · intro t htab hf
    rw [isTable_congr h] at htab
    rcases (hmem t).mp hf with rfl | hf'
    · exact hpt htab
    · exact ht.table_not_free t htab hf'
  · intro p hl hf
    rw [isLeaf_congr h] at hl
    rcases (hmem p).mp hf with rfl | hf'
    · exact hpl hl
    · exact ht.leaf_not_free p hl hf'

/-- Below a zeroed root there is no table but the root. -/
theorem isTable_of_empty {m : Kmem} {root t : UInt64} (h0 : m.page root = fun _ => 0)
    (h : m.IsTable root t) : t = root := by
  obtain ⟨n, hn⟩ := h
  cases n with
  | root => exact (Option.some.inj hn).symm
  | l1 i => simp [table, l1, h0] at hn
  | l0 i j => simp [table, l0, l1, h0] at hn

/-- A zeroed root with nothing below it, off the free list: the tree `uvmcreate` returns. -/
theorem empty {m : Kmem} {root : UInt64} (h0 : m.page root = fun _ => 0) (hnd : m.freelist.Nodup)
    (hz : (0 : UInt64) ∉ m.freelist) (hal : ∀ p ∈ m.freelist, p % pgSize = 0)
    (hr : root ∉ m.freelist) : Tree m root := by
  have hl1 : ∀ i, m.l1 root i = none := by
    intro i
    simp [l1, h0]
  have hleaf : ∀ pa, ¬ m.IsLeaf root pa := by
    rintro pa ⟨i, j, k, f, h⟩
    simp [leaf, entry, l0, hl1] at h
  have hroot : ∀ n t, m.table root n = some t → n = .root := by
    intro n t h
    cases n with
    | root => rfl
    | l1 i => simp [table, hl1] at h
    | l0 i j => simp [table, l0, hl1] at h
  refine ⟨?_, ?_, ?_, fun pa hl => absurd hl (hleaf pa), hnd, hz, hal, ?_,
    fun pa hl => absurd hl (hleaf pa)⟩
  · intro i hv
    simp [h0] at hv
  · intro i t1 j h1
    simp [hl1] at h1
  · intro n n' t hn hn'
    rw [hroot n t hn, hroot n' t hn']
  · intro t htab
    rw [isTable_of_empty h0 htab]
    exact hr

end Tree

end Xv6.Vm
