import Mathlib
import Xv6.Vm.Walk
import Xv6.User.Umalloc
import Xv6.Lib.Trans

/-!
# Growing and shrinking a process (`vm.c`: `uvmalloc`, `uvmdealloc`; `proc.c`: `growproc`;
`sysproc.c`: `sys_sbrk`)

The functions as the C code runs them on the memory of `Xv6.Vm.PageTree`, with `PGROUNDUP`, the
`int` count `uvmdealloc` hands to `uvmunmap`, and the signed `int n` added to the 64-bit size.

* `growproc_refines` : every run of `growproc` that returns has the size effect of
  `Xv6.Umalloc.growprocSize`, the `sbrk` the user allocator is written against, for the outcome
  `uvmalloc` had;
* `uvmdealloc_spec` : shrinking below `PGROUNDUP(oldsz)` unmaps and frees exactly the pages from
  `PGROUNDUP(newsz)` up;
* `uvmalloc_spec` : growing over unmapped pages either maps each new page to a fresh zeroed page
  from the free list, with `PTE_R | PTE_U | xperm`, or leaves the map as it was and puts every page
  it took back on the free list, bar the tables `walk` hung;
* `sbrk_shrink_past_zero` : `sbrk(n)` with `n` below `-sz` returns the old size as if it had moved
  the break, and leaves it where it was.
-/

namespace Xv6.Vm

open Kmem

/-- `PGROUNDUP(sz)`: `(((sz)+PGSIZE-1) & ~(PGSIZE-1))` -/
def pgRoundUp (sz : UInt64) : UInt64 := (sz + pgSize - 1) &&& ~~~(pgSize - 1)

/-- A `uint64` stored in an `int` and passed on as a `uint64`: truncated to 32 bits, then
sign-extended. -/
def asInt (q : UInt64) : UInt64 := (Int32.ofNat q.toNat).toInt64.toUInt64

/-- `uvmdealloc(pagetable, oldsz, newsz)`: memory after and the new size; the pages from
`PGROUNDUP(newsz)` to `PGROUNDUP(oldsz)` are unmapped and freed. -/
def uvmdealloc (m : Kmem) (pagetable oldsz newsz : UInt64) : Except String (Kmem × UInt64) :=
  if newsz ≥ oldsz then .ok (m, oldsz)
  else if pgRoundUp newsz < pgRoundUp oldsz then
    match uvmunmap m pagetable (pgRoundUp newsz)
        (asInt ((pgRoundUp oldsz - pgRoundUp newsz) / pgSize)) true with
    | .error e => .error e
    | .ok m' => .ok (m', newsz)
  else .ok (m, newsz)

/-- `PTE_R|PTE_U|xperm`, the `int perm` that `uvmalloc` hands to `mappages`. -/
def uvmPerm (xperm : Int32) : Int32 := 2 ||| 16 ||| xperm

/-- The loop of `uvmalloc` from `a`, `oldsz` already rounded up: each turn maps one fresh zeroed
page; a failed `kalloc` or `mappages` undoes the turns before it and returns `0`. -/
def uvmallocLoop (pagetable oldsz newsz : UInt64) (xperm : Int32) :
    Nat → Kmem → UInt64 → Except String (Kmem × UInt64)
  | 0, m, _ => .ok (m, newsz)
  | fuel + 1, m, a =>
    if a < newsz then
      let (m1, mem) := kalloc m
      if mem = 0 then
        match uvmdealloc m1 pagetable a oldsz with
        | .error e => .error e
        | .ok (m2, _) => .ok (m2, 0)
      else
        match mappages (m1.fill mem 0) pagetable a pgSize mem (uvmPerm xperm) with
        | .error e => .error e
        | .ok (m2, r) =>
          if r ≠ 0 then
            match kfree m2 mem with
            | .error e => .error e
            | .ok m3 =>
              match uvmdealloc m3 pagetable a oldsz with
              | .error e => .error e
              | .ok (m4, _) => .ok (m4, 0)
          else uvmallocLoop pagetable oldsz newsz xperm fuel m2 (a + pgSize)
    else .ok (m, newsz)

/-- `uvmalloc(pagetable, oldsz, newsz, xperm)`: memory after and the new size, or `0`. The loop
takes at most one turn per page below `newsz`. -/
def uvmalloc (m : Kmem) (pagetable oldsz newsz : UInt64) (xperm : Int32) :
    Except String (Kmem × UInt64) :=
  if newsz < oldsz then .ok (m, oldsz)
  else uvmallocLoop pagetable (pgRoundUp oldsz) newsz xperm (newsz.toNat / 4096 + 1) m
    (pgRoundUp oldsz)

/-- The part of `struct proc` that `growproc` reads and writes. -/
structure Space where
  sz : UInt64
  pagetable : UInt64

/-- `growproc(n)`: memory after, the process after, and `0` or `-1`. The `int n` is sign-extended
and added to the 64-bit size; `PTE_W` is the `xperm`. -/
def growproc (m : Kmem) (p : Space) (n : Int32) : Except String (Kmem × Space × Int) :=
  let sz := p.sz
  if n > 0 then
    match uvmalloc m p.pagetable sz (sz + n.toInt64.toUInt64) 4 with
    | .error e => .error e
    | .ok (m', sz') => if sz' = 0 then .ok (m', p, -1) else .ok (m', { p with sz := sz' }, 0)
  else if n < 0 then
    match uvmdealloc m p.pagetable sz (sz + n.toInt64.toUInt64) with
    | .error e => .error e
    | .ok (m', sz') => .ok (m', { p with sz := sz' }, 0)
  else .ok (m, p, 0)

/-- `sys_sbrk()`: memory after, the process after, and the old size, or `-1` as a `uint64`. -/
def sysSbrk (m : Kmem) (p : Space) (n : Int32) : Except String (Kmem × Space × UInt64) :=
  let addr := p.sz
  match growproc m p n with
  | .error e => .error e
  | .ok (m', p', r) => if r < 0 then .ok (m', p', 0xFFFFFFFFFFFFFFFF) else .ok (m', p', addr)

/-! ## Sizes -/

theorem pgRoundUp_toNat {sz : UInt64} (h : sz.toNat + 4095 < 2 ^ 64) :
    (pgRoundUp sz).toNat = (sz.toNat + 4095) / 4096 * 4096 := by
  have hs : (sz + pgSize - 1).toNat = sz.toNat + 4095 := by
    simp only [UInt64.toNat_sub, UInt64.toNat_add, UInt64.toNat_one,
      show pgSize.toNat = 4096 from rfl]
    omega
  rw [show pgRoundUp sz = pgRoundDown (sz + pgSize - 1) from rfl, pgRoundDown_toNat, hs]

theorem pgRoundUp_of_aligned {a : UInt64} (ha : a % pgSize = 0) : pgRoundUp a = a := by
  have h := toNat_mod_of_aligned ha
  have hlt := a.toNat_lt
  apply UInt64.toNat_inj.mp
  rw [pgRoundUp_toNat (by omega)]
  omega

theorem pgRoundUp_aligned (sz : UInt64) : pgRoundUp sz % pgSize = 0 := by
  apply UInt64.toNat_inj.mp
  rw [UInt64.toNat_mod, show pgRoundUp sz = pgRoundDown (sz + pgSize - 1) from rfl,
    pgRoundDown_toNat]
  simp [pgSize]

/-- A count below `2^31` goes through the `int` unchanged. -/
theorem asInt_of_lt {q : UInt64} (h : q.toNat < 2 ^ 31) : asInt q = q := by
  have hi : (Int32.ofNat q.toNat).toInt = q.toNat := by
    rw [Int32.toInt_ofNat', Int.bmod_def, show (Int32.size : Int) = 2 ^ 32 from rfl]
    split <;> omega
  have hle : (0 : Int64) ≤ (Int32.ofNat q.toNat).toInt64 := by
    rw [Int64.le_iff_toInt_le, Int32.toInt_toInt64, hi]
    simp
  apply UInt64.toNat_inj.mp
  rw [asInt, Int64.toNat_toUInt64_of_le hle, Int64.toNatClampNeg, Int32.toInt_toInt64, hi]
  simp

/-- `sz + n` for an `int n`: the sum as integers, modulo `2^64`. -/
theorem add_sext_toNat (sz : UInt64) (n : Int32) :
    ((sz + n.toInt64.toUInt64).toNat : Int) = ((sz.toNat : Int) + n.toInt) % 2 ^ 64 := by
  have h := BitVec.toInt_eq_toNat_cond n.toInt64.toBitVec
  rw [Int64.toInt_toBitVec, Int64.toNat_toBitVec, Int32.toInt_toInt64] at h
  have hlt := n.toInt64.toUInt64.toNat_lt
  rw [UInt64.toNat_add, Int.natCast_emod, Int.natCast_add]
  split at h <;> push_cast at h <;> omega

/-! ## `growproc` on the size alone -/

theorem uvmdealloc_size {m m' : Kmem} {root oldsz newsz s : UInt64}
    (h : uvmdealloc m root oldsz newsz = .ok (m', s)) :
    s = Umalloc.uvmdeallocSize oldsz newsz := by
  unfold uvmdealloc at h
  rw [Umalloc.uvmdeallocSize]
  split at h
  · rw [if_pos ‹_›]
    exact (Prod.mk.inj (Except.ok.inj h)).2.symm
  · rw [if_neg ‹_›]
    split at h
    · split at h
      · cases h
      · exact (Prod.mk.inj (Except.ok.inj h)).2.symm
    · exact (Prod.mk.inj (Except.ok.inj h)).2.symm

/-- Every way out of the loop of `uvmalloc` returns `newsz`, or `0` after the roll-back. -/
theorem uvmallocLoop_size {root oldsz newsz : UInt64} {xperm : Int32} (fuel : Nat) (m : Kmem)
    (a : UInt64) {m' : Kmem} {s : UInt64}
    (h : uvmallocLoop root oldsz newsz xperm fuel m a = .ok (m', s)) : s = newsz ∨ s = 0 := by
  fun_induction uvmallocLoop root oldsz newsz xperm fuel m a with
  | case1 | case9 => exact .inl (Prod.mk.inj (Except.ok.inj h)).2.symm
  | case3 | case7 => exact .inr (Prod.mk.inj (Except.ok.inj h)).2.symm
  | case8 =>
    rename_i ih
    exact ih h
  | case2 | case4 | case5 | case6 => cases h

/-- `uvmalloc` on the size alone: what `uvmallocSize` says, for the outcome of the loop. -/
theorem uvmalloc_size {m m' : Kmem} {root oldsz newsz s : UInt64} {xperm : Int32}
    (h : uvmalloc m root oldsz newsz xperm = .ok (m', s)) :
    ∃ grows, s = Umalloc.uvmallocSize grows oldsz newsz := by
  unfold uvmalloc at h
  unfold Umalloc.uvmallocSize
  split at h
  · exact ⟨true, by rw [if_pos ‹_›]; exact (Prod.mk.inj (Except.ok.inj h)).2.symm⟩
  · rcases uvmallocLoop_size _ _ _ h with rfl | rfl
    · exact ⟨true, by rw [if_neg ‹_›, if_pos rfl]⟩
    · exact ⟨false, by rw [if_neg ‹_›]; rfl⟩

/-- The three ways `growproc` returns. -/
theorem growproc_cases {m m' : Kmem} {p p' : Space} {n : Int32} {r : Int}
    (h : growproc m p n = .ok (m', p', r)) :
    (0 < n ∧ ∃ s, uvmalloc m p.pagetable p.sz (p.sz + n.toInt64.toUInt64) 4 = .ok (m', s) ∧
      (s = 0 ∧ p' = p ∧ r = -1 ∨ s ≠ 0 ∧ p' = { p with sz := s } ∧ r = 0)) ∨
    (¬ 0 < n ∧ n < 0 ∧ ∃ s, uvmdealloc m p.pagetable p.sz (p.sz + n.toInt64.toUInt64) = .ok (m', s) ∧
      p' = { p with sz := s } ∧ r = 0) ∨
    (¬ 0 < n ∧ ¬ n < 0 ∧ m' = m ∧ p' = p ∧ r = 0) := by
  dsimp only [growproc] at h
  split at h
  · refine .inl ⟨‹_›, ?_⟩
    split at h
    · cases h
    · rename_i m1 s hs
      split at h
      · obtain ⟨rfl, rfl, rfl⟩ : m1 = m' ∧ p = p' ∧ -1 = r := by simpa using h
        exact ⟨s, hs, .inl ⟨‹_›, rfl, rfl⟩⟩
      · obtain ⟨rfl, rfl, rfl⟩ : m1 = m' ∧ { p with sz := s } = p' ∧ 0 = r := by simpa using h
        exact ⟨s, hs, .inr ⟨‹_›, rfl, rfl⟩⟩
  · refine .inr ?_
    split at h
    · split at h
      · cases h
      · rename_i m1 s hs
        obtain ⟨rfl, rfl, rfl⟩ : m1 = m' ∧ { p with sz := s } = p' ∧ 0 = r := by simpa using h
        exact .inl ⟨‹_›, ‹_›, s, hs, rfl, rfl⟩
    · obtain ⟨rfl, rfl, rfl⟩ : m = m' ∧ p = p' ∧ 0 = r := by simpa using h
      exact .inr ⟨‹_›, ‹_›, rfl, rfl, rfl⟩

/-- `growproc` on the size alone: every run that returns has the effect of `growprocSize` on
`p->sz`, for the outcome `uvmalloc` had; `-1` leaves the process as it was. -/
theorem growproc_refines {m m' : Kmem} {p p' : Space} {n : Int32} {r : Int}
    (h : growproc m p n = .ok (m', p', r)) :
    ∃ grows, (if r = 0 then some p'.sz else none) = Umalloc.growprocSize grows p.sz n ∧
      p'.pagetable = p.pagetable ∧ (r = 0 ∨ r = -1 ∧ p' = p) := by
  rcases growproc_cases h with ⟨hn, s, hs, ⟨hs0, rfl, rfl⟩ | ⟨hs0, rfl, rfl⟩⟩ |
    ⟨hn, hneg, s, hs, rfl, rfl⟩ | ⟨hn, hneg, -, rfl, rfl⟩
  · obtain ⟨grows, rfl⟩ := uvmalloc_size hs
    refine ⟨grows, ?_, rfl, .inr ⟨rfl, rfl⟩⟩
    simp [Umalloc.growprocSize, hn, hs0]
  · obtain ⟨grows, rfl⟩ := uvmalloc_size hs
    refine ⟨grows, ?_, rfl, .inl rfl⟩
    simp [Umalloc.growprocSize, hn, hs0]
  · refine ⟨true, ?_, rfl, .inl rfl⟩
    simp [Umalloc.growprocSize, hn, hneg, uvmdealloc_size hs]
  · refine ⟨true, ?_, rfl, .inl rfl⟩
    simp [Umalloc.growprocSize, hn, hneg]

/-- `sys_sbrk` on the size alone: `sysSbrk` of the user allocator, with `-1` for `none`. -/
theorem sysSbrk_refines {m m' : Kmem} {p p' : Space} {n : Int32} {ret : UInt64}
    (h : sysSbrk m p n = .ok (m', p', ret)) :
    ∃ grows, ((Umalloc.sysSbrk grows p.sz n).1 = some ret ∨
      (Umalloc.sysSbrk grows p.sz n).1 = none ∧ ret = 0xFFFFFFFFFFFFFFFF) ∧
      (Umalloc.sysSbrk grows p.sz n).2 = p'.sz := by
  unfold sysSbrk at h
  split at h
  · cases h
  · rename_i m1 p1 r hg
    obtain ⟨grows, hsz, -, hr⟩ := growproc_refines hg
    refine ⟨grows, ?_⟩
    rcases hr with rfl | ⟨rfl, rfl⟩
    · obtain ⟨rfl, rfl, rfl⟩ : m1 = m' ∧ p1 = p' ∧ p.sz = ret := by simpa using h
      rw [if_pos rfl] at hsz
      simp [Umalloc.sysSbrk, ← hsz]
    · obtain ⟨rfl, rfl, rfl⟩ : m1 = m' ∧ p1 = p' ∧ 0xFFFFFFFFFFFFFFFF = ret := by simpa using h
      rw [if_neg (by decide)] at hsz
      simp [Umalloc.sysSbrk, ← hsz]
/-- What `growproc` makes of the size when `sz + n` lies in `[0, 2^64)`: `0` means the size
became `sz + n` as integers, and `-1` leaves the process alone. -/
theorem growproc_size {m m' : Kmem} {p p' : Space} {n : Int32} {r : Int}
    (h : growproc m p n = .ok (m', p', r)) (h0 : 0 ≤ (p.sz.toNat : Int) + n.toInt)
    (h1 : (p.sz.toNat : Int) + n.toInt < 2 ^ 64) :
    (r = 0 ∧ (p'.sz.toNat : Int) = p.sz.toNat + n.toInt) ∨ (r = -1 ∧ p' = p) := by
  have hadd := add_sext_toNat p.sz n
  rw [Int.emod_eq_of_lt h0 h1] at hadd
  rcases growproc_cases h with ⟨hn, s, hs, ⟨-, rfl, rfl⟩ | ⟨hs0, rfl, rfl⟩⟩ |
    ⟨hn, hneg, s, hs, rfl, rfl⟩ | ⟨hn, hneg, -, rfl, rfl⟩
  · exact .inr ⟨rfl, rfl⟩
  · -- `uvmalloc` did not return `0`, so it returned the sum, which lies above `sz`
    refine .inl ⟨rfl, ?_⟩
    have hpos : 0 < n.toInt := by simpa using Int32.lt_iff_toInt_lt.mp hn
    have hnot : ¬ p.sz + n.toInt64.toUInt64 < p.sz := by
      rw [UInt64.lt_iff_toNat_lt]
      omega
    obtain ⟨grows, rfl⟩ := uvmalloc_size hs
    unfold Umalloc.uvmallocSize at hs0 ⊢
    rw [if_neg hnot] at hs0 ⊢
    cases grows with
    | false => exact absurd rfl hs0
    | true => exact hadd
  · refine .inl ⟨rfl, ?_⟩
    have hlt : n.toInt < 0 := by simpa using Int32.lt_iff_toInt_lt.mp hneg
    have hnot : ¬ p.sz + n.toInt64.toUInt64 ≥ p.sz := by
      rw [ge_iff_le, UInt64.le_iff_toNat_le]
      omega
    rw [uvmdealloc_size hs, Umalloc.uvmdeallocSize, if_neg hnot]
    exact hadd
  · refine .inl ⟨rfl, ?_⟩
    have h1 : ¬ 0 < n.toInt := by simpa using mt Int32.lt_iff_toInt_lt.mpr hn
    have h2 : ¬ n.toInt < 0 := by simpa using mt Int32.lt_iff_toInt_lt.mpr hneg
    omega

/-- `growproc(n)` for `n` below `-sz`: `sz + n` wraps to above `sz`, so `uvmdealloc` returns the old
size and touches nothing; `growproc` reports success and `sys_sbrk` returns the old size. -/
theorem growproc_below_zero {m : Kmem} {p : Space} {n : Int32}
    (hbelow : (p.sz.toNat : Int) + n.toInt < 0) :
    growproc m p n = .ok (m, p, 0) ∧ sysSbrk m p n = .ok (m, p, p.sz) := by
  have hadd := add_sext_toNat p.sz n
  have hlo := Int32.le_toInt n
  have hlt : n < 0 := Int32.lt_iff_toInt_lt.mpr (by simp; omega)
  have hn : ¬ 0 < n := fun h => by
    have := Int32.lt_iff_toInt_lt.mp h
    simp at this
    omega
  have hge : p.sz + n.toInt64.toUInt64 ≥ p.sz := by
    rw [ge_iff_le, UInt64.le_iff_toNat_le]
    omega
  have hg : growproc m p n = .ok (m, p, 0) := by
    simp [growproc, hn, hlt, uvmdealloc, hge]
  exact ⟨hg, by simp [sysSbrk, hg]⟩
/-- A process of one page, `sz = 0x1000` with its page at `0x5000` mapped `R | W | U` in a tree,
calls `sbrk(-0x2000)`: `growproc` returns `0` and `sys_sbrk` the old size `0x1000`, as if the break
had moved by `n`; but `sz + n` is `-0x1000`, and the size and the page are as they were. -/
theorem sbrk_shrink_past_zero :
    ∃ m, mappages ⟨fun _ _ => 0, [0x1000, 0x2000], 0x1000⟩ 0x3000 0 4096 0x5000 22 = .ok (m, 0) ∧
      Tree m 0x3000 ∧ m.map 0x3000 0 = some (0x5000, 23) ∧
      growproc m ⟨0x1000, 0x3000⟩ (-0x2000) = .ok (m, ⟨0x1000, 0x3000⟩, 0) ∧
      sysSbrk m ⟨0x1000, 0x3000⟩ (-0x2000) = .ok (m, ⟨0x1000, 0x3000⟩, 0x1000) := by
  have ht : Tree ⟨fun _ _ => 0, [0x1000, 0x2000], 0x1000⟩ 0x3000 :=
    Tree.empty rfl (by decide) (by decide) (by simp [pgSize]) (by decide)
  have htab : ∀ t, Kmem.IsTable ⟨fun _ _ => 0, [0x1000, 0x2000], 0x1000⟩ 0x3000 t → t = 0x3000 :=
    fun t h => Tree.isTable_of_empty rfl h
  have h1 : (4096 : UInt64).toNat / 4096 = 1 := rfl
  have hva : (0 : UInt64) % pgSize = 0 := by decide
  have hsz : (4096 : UInt64) % pgSize = 0 := by decide
  have hpa : (0x5000 : UInt64) % pgSize = 0 := by decide
  have hperm : 0 ≤ (22 : Int32).toInt := by decide
  obtain ⟨m, r, hrun, ht', -⟩ := mappages_spec ht hva hsz (by decide) (by decide) hpa hperm
    (by decide)
    (fun k hk => by
      obtain rfl : k = 0 := by omega
      decide)
    (fun k hk => by
      obtain rfl : k = 0 := by omega
      exact ⟨fun h => absurd (htab _ h) (by decide), by decide⟩)
  have hval : (mappages ⟨fun _ _ => 0, [0x1000, 0x2000], 0x1000⟩ 0x3000 0 4096 0x5000 22).toOption.map
      (fun x => (x.2, x.1.map 0x3000 0)) = some (0, some (0x5000, 23)) := by decide
  rw [hrun] at hval
  obtain ⟨rfl, hmap⟩ : r = 0 ∧ m.map 0x3000 0 = some (0x5000, 23) := by
    simpa [Except.toOption] using hval
  exact ⟨m, hrun, ht', hmap, growproc_below_zero (by decide)⟩

/-! ## `uvmdealloc` -/

theorem addr_inj {a : UInt64} {k k' : Nat} (hk : a.toNat + k * 4096 < 2 ^ 64)
    (hk' : a.toNat + k' * 4096 < 2 ^ 64) (h : addr a k = addr a k') : k = k' := by
  have := congrArg UInt64.toNat h
  rw [addr_toNat hk, addr_toNat hk'] at this
  omega

/-- Pages from `a` below a bound: the first `k` of `n` pages lie below it too. -/
theorem add_pages_le {a k n b : Nat} (hk : k ≤ n) (h : a + n * 4096 ≤ b) : a + k * 4096 ≤ b :=
  Nat.le_trans (Nat.add_le_add_left (Nat.mul_le_mul_right 4096 hk) a) h

section
variable {m : Kmem} {root : UInt64}

/-- `uvmdealloc` below `oldsz`, on a tree that maps the `npg` pages from `PGROUNDUP(newsz)` to
`PGROUNDUP(oldsz)` by leaves that `kfree` takes: it returns `newsz`, unmaps exactly those pages,
pushes exactly their pages on the free list, and keeps the tables. -/
theorem uvmdealloc_spec (ht : Tree m root) {oldsz newsz : UInt64} {npg : Nat}
    (hlt : newsz < oldsz) (hmax : oldsz.toNat ≤ 2 ^ 38)
    (hnpg : (pgRoundUp newsz).toNat + npg * 4096 = (pgRoundUp oldsz).toNat)
    (hmapped : ∀ k < npg, ∃ pa f, m.map root (addr (pgRoundUp newsz) k) = some (pa, f) ∧ f ≠ pteV)
    (hkend : 0 < m.kend)
    (hfree : ∀ k < npg, ∀ pa f, m.map root (addr (pgRoundUp newsz) k) = some (pa, f) →
      m.kend ≤ pa ∧ pa < phystop ∧ ∀ i j k' f', m.leaf root i j k' = some (pa, f') →
        i = px 2 (addr (pgRoundUp newsz) k) ∧ j = px 1 (addr (pgRoundUp newsz) k) ∧
          k' = px 0 (addr (pgRoundUp newsz) k)) :
    ∃ m', uvmdealloc m root oldsz newsz = .ok (m', newsz) ∧ Tree m' root ∧
      Removed m m' root (pgRoundUp newsz) npg ∧ (∀ x, x ∈ m'.freelist ↔ x ∈ m.freelist ∨
        ∃ k < npg, ∃ f, m.map root (addr (pgRoundUp newsz) k) = some (x, f)) ∧
      m'.kend = m.kend ∧ m'.table root = m.table root := by
  have hge : ¬ newsz ≥ oldsz := UInt64.not_le.mpr hlt
  have hlt' := UInt64.lt_iff_toNat_lt.mp hlt
  have hlo := pgRoundUp_toNat (show newsz.toNat + 4095 < 2 ^ 64 by omega)
  have hhi := pgRoundUp_toNat (show oldsz.toNat + 4095 < 2 ^ 64 by omega)
  by_cases hpg : pgRoundUp newsz < pgRoundUp oldsz
  · have hq : ((pgRoundUp oldsz - pgRoundUp newsz) / pgSize).toNat = npg := by
      rw [UInt64.toNat_div, UInt64.toNat_sub_of_le _ _ (UInt64.le_of_lt hpg)]
      show _ / 4096 = npg
      omega
    have hcount : asInt ((pgRoundUp oldsz - pgRoundUp newsz) / pgSize) =
        (pgRoundUp oldsz - pgRoundUp newsz) / pgSize := asInt_of_lt (by omega)
    have hmapped' : ∀ k < ((pgRoundUp oldsz - pgRoundUp newsz) / pgSize).toNat, ∃ pa f,
        m.map root (addr (pgRoundUp newsz) k) = some (pa, f) ∧ f ≠ pteV := hq ▸ hmapped
    have hfree' : true = true → 0 < m.kend ∧
        ∀ k < ((pgRoundUp oldsz - pgRoundUp newsz) / pgSize).toNat, ∀ pa f,
          m.map root (addr (pgRoundUp newsz) k) = some (pa, f) → m.kend ≤ pa ∧ pa < phystop ∧
            ∀ i j k' f', m.leaf root i j k' = some (pa, f') →
              i = px 2 (addr (pgRoundUp newsz) k) ∧ j = px 1 (addr (pgRoundUp newsz) k) ∧
                k' = px 0 (addr (pgRoundUp newsz) k) := fun _ => ⟨hkend, hq ▸ hfree⟩
    obtain ⟨m', hrun, ht', hr, hfl, hk, htab, -⟩ :=
      uvmunmap_spec ht (pgRoundUp_aligned newsz) (by omega) hmapped' hfree'
    refine ⟨m', ?_, ht', hq ▸ hr, fun x => by simpa [hq] using hfl x, hk, htab⟩
    simp only [uvmdealloc, hge, if_false, hpg, if_true, hcount, hrun]
  · obtain rfl : npg = 0 := by
      rw [UInt64.lt_iff_toNat_lt] at hpg
      omega
    refine ⟨m, by simp only [uvmdealloc, hge, if_false, hpg], ht,
      ⟨fun k hk => absurd hk (Nat.not_lt_zero k), fun _ _ _ => rfl⟩, fun x => by simp, rfl, rfl⟩

end
/-! ## `uvmalloc` -/

/-- The state of `uvmalloc` after it mapped the pages `ps` from `a0`, started on `m0`: each page was
taken off the free list, zeroed, and mapped with `flags` by a leaf of its own; the tables hung on
the way came off the free list; and every page that was free is free, a table, or one of `ps`. -/
structure Grown (m0 m : Kmem) (root a0 flags : UInt64) (ps : List UInt64) : Prop where
  tree : Tree m root
  kend : m.kend = m0.kend
  free_sub : ∀ x ∈ m.freelist, x ∈ m0.freelist
  nodup : ps.Nodup
  fresh : ∀ p ∈ ps, p ∈ m0.freelist ∧ p ∉ m.freelist ∧ ¬ m.IsTable root p ∧ m.page p = fun _ => 0
  mapped : ∀ k (hk : k < ps.length), m.map root (addr a0 k) = some (ps[k], flags)
  frame : ∀ va', va' % pgSize = 0 → (∀ k < ps.length, va' ≠ addr a0 k) →
    m.map root va' = m0.map root va'
  leaves : ∀ i j k x, m.leaf root i j k = some x → m0.leaf root i j k = some x ∨
    ∃ k' < ps.length, i = px 2 (addr a0 k') ∧ j = px 1 (addr a0 k') ∧ k = px 0 (addr a0 k')
  tables : ∀ x, m.IsTable root x → m0.IsTable root x ∨ x ∈ m0.freelist
  back : ∀ x ∈ m0.freelist, x ∈ m.freelist ∨ m.IsTable root x ∨ x ∈ ps

/-- What a failed `uvmalloc` leaves: a tree that maps what `m0` mapped, in which every page that was
free is free again or a table, and no other page is free. -/
structure Undone (m0 m : Kmem) (root : UInt64) : Prop where
  tree : Tree m root
  kend : m.kend = m0.kend
  free_sub : ∀ x ∈ m.freelist, x ∈ m0.freelist
  map : ∀ va, va % pgSize = 0 → m.map root va = m0.map root va
  back : ∀ x ∈ m0.freelist, x ∈ m.freelist ∨ m.IsTable root x

namespace Grown

variable {m0 m : Kmem} {root a0 flags : UInt64} {ps : List UInt64}

theorem start (ht : Tree m0 root) : Grown m0 m0 root a0 flags [] where
  tree := ht
  kend := rfl
  free_sub _ h := h
  nodup := List.nodup_nil
  fresh _ h := absurd h List.not_mem_nil
  mapped k hk := absurd hk (Nat.not_lt_zero k)
  frame _ _ _ := rfl
  leaves _ _ _ _ h := .inl h
  tables _ h := .inl h
  back _ h := .inl h

/-- The leaf at the indices of the `n`-th page is the one that maps it. -/
theorem leaf_at (gr : Grown m0 m root a0 flags ps) (hmax : a0.toNat + ps.length * 4096 ≤ 2 ^ 38)
    {n : Nat} (hn : n < ps.length) :
    m.leaf root (px 2 (addr a0 n)) (px 1 (addr a0 n)) (px 0 (addr a0 n)) = some (ps[n], flags) := by
  have hlt : addr a0 n < maxVA := by
    rw [UInt64.lt_iff_toNat_lt, addr_toNat (by omega), maxVA_toNat]
    omega
  simpa only [map, hlt, if_true] using gr.mapped n hn

/-- A page of `ps` is mapped by the leaf at its own address alone. -/
theorem leaf_only (gr : Grown m0 m root a0 flags ps) (ht0 : Tree m0 root)
    (hmax : a0.toNat + ps.length * 4096 ≤ 2 ^ 38) {k : Nat} (hk : k < ps.length)
    {i j k' : Fin 512} {f' : UInt64} (hl : m.leaf root i j k' = some (ps[k], f')) :
    i = px 2 (addr a0 k) ∧ j = px 1 (addr a0 k) ∧ k' = px 0 (addr a0 k) := by
  have hfree0 := (gr.fresh ps[k] (List.getElem_mem hk)).1
  rcases gr.leaves i j k' _ hl with h0 | ⟨k'', hk'', rfl, rfl, rfl⟩
  · exact absurd hfree0 (ht0.leaf_not_free _ ⟨i, j, k', f', h0⟩)
  · rw [gr.leaf_at hmax hk''] at hl
    have heq : ps[k''] = ps[k] := (Prod.mk.inj (Option.some.inj hl)).1
    obtain rfl : k'' = k := (List.Nodup.getElem_inj_iff gr.nodup).mp heq
    exact ⟨rfl, rfl, rfl⟩

/-- Grown from a tree with no leaf, as `exec` grows `uvmcreate`'s: the leaves are those of `ps`. -/
theorem leaf_of_noLeaf (gr : Grown m0 m root a0 flags ps) (h0 : ∀ i j k, m0.leaf root i j k = none)
    {i j k : Fin 512} {x : UInt64 × UInt64} (hl : m.leaf root i j k = some x) :
    ∃ n < ps.length, i = px 2 (addr a0 n) ∧ j = px 1 (addr a0 n) ∧ k = px 0 (addr a0 n) := by
  rcases gr.leaves i j k x hl with h | h
  · rw [h0] at h
    cases h
  · exact h

/-- ... and the pages they map are those of `ps`. -/
theorem mem_of_isLeaf (gr : Grown m0 m root a0 flags ps) (h0 : ∀ i j k, m0.leaf root i j k = none)
    (hmax : a0.toNat + ps.length * 4096 ≤ 2 ^ 38) {x : UInt64} (hx : m.IsLeaf root x) : x ∈ ps := by
  obtain ⟨i, j, k, f, hl⟩ := hx
  obtain ⟨n, hn, rfl, rfl, rfl⟩ := gr.leaf_of_noLeaf h0 hl
  rw [gr.leaf_at hmax hn] at hl
  rw [← (Prod.mk.inj (Option.some.inj hl)).1]
  exact List.getElem_mem hn

/-- The roll-back `uvmdealloc(pagetable, a, oldsz)` at the page after `ps`: the pages `ps` are
unmapped and freed, and memory is as `Undone` says. -/
theorem undo (gr : Grown m0 m root a0 flags ps) (ht0 : Tree m0 root) (ha0 : a0 % pgSize = 0)
    (hmax : a0.toNat + ps.length * 4096 ≤ 2 ^ 38) (hflags : flags ≠ pteV) (hkend : 0 < m0.kend)
    (hrange : ∀ x ∈ m0.freelist, m0.kend ≤ x ∧ x < phystop)
    (hm0 : ∀ k < ps.length, m0.map root (addr a0 k) = none) :
    ∃ m' s, uvmdealloc m root (addr a0 ps.length) a0 = .ok (m', s) ∧ Undone m0 m' root := by
  rcases Nat.eq_zero_or_pos ps.length with h0 | hpos
  · -- nothing was mapped: `uvmdealloc` returns at once
    have hnil : ps = [] := List.eq_nil_of_length_eq_zero h0
    subst hnil
    refine ⟨m, a0, by simp [uvmdealloc, addr], gr.tree, gr.kend, gr.free_sub,
      fun va hva => gr.frame va hva (fun k hk => absurd hk (Nat.not_lt_zero k)), ?_⟩
    intro x hx
    rcases gr.back x hx with h | h | h
    · exact .inl h
    · exact .inr h
    · exact absurd h List.not_mem_nil
  · have hat := addr_toNat (a := a0) (k := ps.length) (by omega)
    have hlt : a0 < addr a0 ps.length := by
      rw [UInt64.lt_iff_toNat_lt, hat]
      omega
    have hup0 := pgRoundUp_of_aligned ha0
    have hup1 := pgRoundUp_of_aligned (addr_aligned ha0 ps.length)
    have hpa : ∀ k (hk : k < ps.length) pa f, m.map root (addr a0 k) = some (pa, f) → pa = ps[k] := by
      intro k hk pa f hm
      rw [gr.mapped k hk] at hm
      exact (Prod.mk.inj (Option.some.inj hm)).1.symm
    have hnpg : (pgRoundUp a0).toNat + ps.length * 4096 = (pgRoundUp (addr a0 ps.length)).toNat := by
      rw [hup0, hup1, hat]
    obtain ⟨m', hrun, ht', hr, hfl, hk, htab⟩ := uvmdealloc_spec gr.tree hlt (by omega) hnpg (by
        rw [hup0]
        exact fun k hk => ⟨ps[k], flags, gr.mapped k hk, hflags⟩)
      (gr.kend ▸ hkend) (by
        rw [hup0]
        intro k hk pa f hm
        obtain rfl := hpa k hk pa f hm
        have hr0 := hrange _ (gr.fresh _ (List.getElem_mem hk)).1
        rw [gr.kend]
        exact ⟨hr0.1, hr0.2, fun i j k' f' hl => gr.leaf_only ht0 hmax hk hl⟩)
    rw [hup0] at hr hfl
    refine ⟨m', a0, hrun, ht', hk.trans gr.kend, ?_, ?_, ?_⟩
    · intro x hx
      rcases (hfl x).mp hx with h | ⟨k, hk, f, hm⟩
      · exact gr.free_sub x h
      · obtain rfl := hpa k hk x f hm
        exact (gr.fresh _ (List.getElem_mem hk)).1
    · intro va hva
      by_cases hin : ∃ k < ps.length, va = addr a0 k
      · obtain ⟨k, hk, rfl⟩ := hin
        rw [hr.1 k hk, hm0 k hk]
      · have hin' : ∀ k < ps.length, va ≠ addr a0 k := fun k hk h => hin ⟨k, hk, h⟩
        rw [hr.2 va hva hin']
        exact gr.frame va hva hin'
    · intro x hx
      rcases gr.back x hx with h | h | h
      · exact .inl ((hfl x).mpr (.inl h))
      · exact .inr (by rwa [isTable_eq htab])
      · obtain ⟨k, hk, rfl⟩ := List.getElem_of_mem h
        exact .inl ((hfl _).mpr (.inr ⟨k, hk, flags, gr.mapped k hk⟩))

/-- One turn of `uvmalloc` at the page after `ps`, below `MAXVA` and unmapped in `m0`, with the
page `p` that `kalloc` took: `mappages` maps it, and `p` joins `ps`; or `walk` finds no table, and
`kfree` gives `p` back. -/
theorem turn (gr : Grown m0 m root a0 (permBits perm ||| pteV) ps) (ha0 : a0 % pgSize = 0)
    (hmax : a0.toNat + (ps.length + 1) * 4096 ≤ 2 ^ 38)
    (hm0 : m0.map root (addr a0 ps.length) = none)
    (hrange : ∀ x ∈ m0.freelist, m0.kend ≤ x ∧ x < phystop) {p : UInt64} {rest : List UInt64}
    (hfl : m.freelist = p :: rest) (hperm0 : 0 ≤ perm.toInt) (hperm1 : perm.toInt < 1024) :
    ∃ m' r, mappages (({ m with freelist := rest }.fill p 0x0505050505050505).fill p 0) root
        (addr a0 ps.length) pgSize p perm = .ok (m', r) ∧
      (r = 0 ∧ Grown m0 m' root a0 (permBits perm ||| pteV) (ps ++ [p]) ∨
        r = -1 ∧ ∃ m4, kfree m' p = .ok m4 ∧ Grown m0 m4 root a0 (permBits perm ||| pteV) ps) := by
  have hne : ∀ k < ps.length, addr a0 ps.length ≠ addr a0 k := by
    intro k hk h
    have := addr_inj (by omega) (by omega) h
    omega
  have hlt : addr a0 ps.length < maxVA := by
    rw [UInt64.lt_iff_toNat_lt, addr_toNat (by omega), maxVA_toNat]
    omega
  obtain ⟨ht2, hagree, hp0, hpt, -, hpf, hpa, hpz, hrest, hframe⟩ :=
    gr.tree.alloc hfl 0x0505050505050505
  have hp : p ∈ m.freelist := by rw [hfl]; exact List.mem_cons_self
  have hpps : p ∉ ps := fun h => (gr.fresh p h).2.1 hp
  have hprest : p ∉ rest := (List.nodup_cons.mp (hfl ▸ gr.tree.nodup)).1
  have hma : (({ m with freelist := rest }.fill p 0x0505050505050505).fill p 0).map root
      (addr a0 ps.length) = none := by
    rw [map_congr hagree, gr.frame _ (addr_aligned ha0 _) hne]
    exact hm0
  obtain ⟨m1, m', r, hrun, g, hr⟩ :=
    mappages_page ht2 (addr_aligned ha0 _) hlt hma hpt hpf hpa hperm0 hperm1
  -- what `kalloc` and `walk` leave, before the leaf is written
  have htab1 : ∀ x, m1.IsTable root x → m.IsTable root x ∨ x ∈ rest := by
    intro x h
    rcases g.table x h with h' | h'
    · exact .inl (by rwa [isTable_congr hagree] at h')
    · exact .inr (by simpa [hrest] using h')
  have hfree1 : ∀ x ∈ m1.freelist, x ∈ rest := fun x h => by simpa [hrest] using g.free_subset h
  have hrest0 : ∀ x ∈ rest, x ∈ m0.freelist := fun x h =>
    gr.free_sub x (by rw [hfl]; exact List.mem_cons_of_mem p h)
  have hpt1 : ¬ m1.IsTable root p := fun h =>
    (htab1 p h).elim (fun h' => gr.tree.table_not_free p h' hp) hprest
  have hpf1 : p ∉ m1.freelist := fun h => hprest (hfree1 p h)
  have hqrest : ∀ q ∈ ps, q ∉ rest := fun q hq h =>
    (gr.fresh q hq).2.1 (by rw [hfl]; exact List.mem_cons_of_mem p h)
  have hps1 : ∀ q ∈ ps, ¬ m1.IsTable root q ∧ q ∉ m1.freelist := fun q hq =>
    ⟨fun h => (htab1 q h).elim (gr.fresh q hq).2.2.1 (hqrest q hq),
      fun h => hqrest q hq (hfree1 q h)⟩
  have hpage1 : ∀ q, q ∈ ps ∨ q = p → m1.page q = fun _ => 0 := by
    rintro q (hq | rfl)
    · have hqp : q ≠ p := fun h => hpps (h ▸ hq)
      have hqt2 : ¬ (({ m with freelist := rest }.fill p 0x0505050505050505).fill p 0).IsTable root q := by
        rw [isTable_congr hagree]
        exact (gr.fresh q hq).2.2.1
      have hqf2 : q ∉ (({ m with freelist := rest }.fill p 0x0505050505050505).fill p 0).freelist := by
        rw [hrest]
        exact hqrest q hq
      rw [g.frame q hqt2 hqf2, hframe q hqp, (gr.fresh q hq).2.2.2]
    · rw [g.frame q hpt hpf, hp0]
  have hmap1 : m1.map root = m.map root := g.map_eq.trans (map_congr hagree)
  have hleaf1 : m1.leaf root = m.leaf root := g.leaf.trans (leaf_congr hagree)
  have htabs1 : ∀ x, m1.IsTable root x → m0.IsTable root x ∨ x ∈ m0.freelist := fun x h =>
    (htab1 x h).elim (gr.tables x) (fun h' => .inr (hrest0 x h'))
  have hback1 : ∀ x ∈ m0.freelist, x ∈ m1.freelist ∨ m1.IsTable root x ∨ x ∈ ps ∨ x = p := by
    intro x hx
    rcases gr.back x hx with h | ⟨n, hn⟩ | h
    · rw [hfl, List.mem_cons] at h
      rcases h with rfl | h
      · exact .inr (.inr (.inr rfl))
      · rcases g.used x (by simpa [hrest] using h) with h' | h'
        · exact .inl h'
        · exact .inr (.inl h')
    · exact .inr (.inl ⟨n, g.keep n x (by rwa [table_congr hagree])⟩)
    · exact .inr (.inr (.inl h))
  have hkend1 : m1.kend = m0.kend := g.kend.trans gr.kend
  rcases hr with ⟨rfl, rfl⟩ | ⟨rfl, ht', htab', hfl', hkend', hpage', hleaf', hmap'⟩
  · -- `walk` found no table: `kfree` gives `p` back
    have hr0 := hrange p (gr.free_sub p hp)
    refine ⟨m', -1, hrun, .inr ⟨rfl, _, kfree_ok hpa (hkend1 ▸ hr0.1) hr0.2, ?_⟩⟩
    have hagree4 : ∀ t, m'.IsTable root t → ({ m'.fill p 0x0101010101010101 with
        freelist := p :: m'.freelist } : Kmem).page t = m'.page t := by
      intro t ht
      have hne : t ≠ p := fun e => hpt1 (e ▸ ht)
      simp [hne]
    have hpl1 : ¬ m'.IsLeaf root p := by
      rw [isLeaf_eq hleaf1]
      exact fun h => gr.tree.leaf_not_free p h hp
    exact {
      tree := g.tree.push hpt1 hpl1 hpf1 hpa hpz
      kend := hkend1
      free_sub := by
        intro x hx
        rcases List.mem_cons.mp hx with rfl | h
        · exact gr.free_sub x hp
        · exact hrest0 x (hfree1 x h)
      nodup := gr.nodup
      fresh := by
        intro q hq
        have hqp : q ≠ p := fun h => hpps (h ▸ hq)
        refine ⟨(gr.fresh q hq).1, ?_, ?_, ?_⟩
        · simpa [hqp] using (hps1 q hq).2
        · rw [isTable_congr hagree4]
          exact (hps1 q hq).1
        · simpa [hqp] using hpage1 q (.inl hq)
      mapped := fun k hk => by rw [map_congr hagree4, hmap1]; exact gr.mapped k hk
      frame := fun va hva hk => by rw [map_congr hagree4, hmap1]; exact gr.frame va hva hk
      leaves := fun i j k x h => by
        rw [leaf_congr hagree4, hleaf1] at h
        exact gr.leaves i j k x h
      tables := fun x h => htabs1 x (by rwa [isTable_congr hagree4] at h)
      back := by
        intro x hx
        rcases hback1 x hx with h | h | h | rfl
        · exact .inl (List.mem_cons_of_mem p h)
        · exact .inr (.inl (by rwa [isTable_congr hagree4]))
        · exact .inr (.inr h)
        · exact .inl List.mem_cons_self }
  · -- the leaf is written: `p` joins `ps`
    refine ⟨m', 0, hrun, .inl ⟨rfl, ?_⟩⟩
    have hlen : (ps ++ [p]).length = ps.length + 1 := by simp
    exact {
      tree := ht'
      kend := hkend'.trans hkend1
      free_sub := fun x hx => hrest0 x (hfree1 x (hfl' ▸ hx))
      nodup := List.nodup_append.mpr ⟨gr.nodup, List.nodup_singleton p,
        fun a ha b hb => by rw [List.mem_singleton.mp hb]; exact fun h => hpps (h ▸ ha)⟩
      fresh := by
        intro q hq
        rcases List.mem_append.mp hq with hq | hq
        · refine ⟨(gr.fresh q hq).1, by rw [hfl']; exact (hps1 q hq).2, ?_, ?_⟩
          · rw [isTable_eq htab']
            exact (hps1 q hq).1
          · rw [hpage' q (hps1 q hq).1]
            exact hpage1 q (.inl hq)
        · obtain rfl := List.mem_singleton.mp hq
          refine ⟨gr.free_sub q hp, by rw [hfl']; exact hpf1, by rw [isTable_eq htab']; exact hpt1, ?_⟩
          rw [hpage' q hpt1]
          exact hpage1 q (.inr rfl)
      mapped := by
        intro k hk
        rw [hmap' _ (addr_aligned ha0 k), map_congr hagree]
        by_cases hkl : k = ps.length
        · subst hkl
          simp
        · have hk' : k < ps.length := by simp at hk; omega
          rw [if_neg (fun h => hne k hk' h.symm), List.getElem_append_left hk']
          exact gr.mapped k hk'
      frame := by
        intro va hva hk
        rw [hmap' va hva, if_neg (hk ps.length (by simp)), map_congr hagree]
        exact gr.frame va hva (fun k hk' => hk k (by simp; omega))
      leaves := by
        intro i j k x h
        rw [hleaf'] at h
        split at h
        · rename_i hij
          exact .inr ⟨ps.length, by simp, hij⟩
        · rw [congrFun (congrFun (congrFun (leaf_congr hagree) i) j) k] at h
          rcases gr.leaves i j k x h with h' | ⟨k', hk', hij⟩
          · exact .inl h'
          · exact .inr ⟨k', by simp; omega, hij⟩
      tables := fun x h => htabs1 x (by rwa [isTable_eq htab'] at h)
      back := by
        intro x hx
        rcases hback1 x hx with h | h | h | rfl
        · exact .inl (hfl' ▸ h)
        · exact .inr (.inl (by rwa [isTable_eq htab']))
        · exact .inr (.inr (List.mem_append_left _ h))
        · exact .inr (.inr (List.mem_append_right _ (List.mem_singleton_self _))) }

end Grown

/-- `PTE_R` is among the flags `uvmalloc` maps with, so its leaves are never `PTE_V` alone. -/
theorem uvmPerm_ne (xperm : Int32) : permBits (uvmPerm xperm) ||| pteV ≠ pteV := by
  intro h
  have h1 := congrArg (fun v : UInt64 => v.toBitVec.getLsbD 1) h
  simp [permBits, uvmPerm, pteV] at h1

section
variable {m0 : Kmem} {root a0 newsz : UInt64} {xperm : Int32} {npages : Nat}

/-- The loop of `uvmalloc` from the page after `ps`, over the `npages` pages from `a0` that lie
below `newsz`, unmapped in `m0` and below `MAXVA`: it maps the rest of them, or rolls back. -/
theorem uvmallocLoop_spec (ht0 : Tree m0 root) (ha0 : a0 % pgSize = 0)
    (hlo : ∀ t < npages, a0.toNat + t * 4096 < newsz.toNat)
    (hhi : newsz.toNat ≤ a0.toNat + npages * 4096) (hmax : a0.toNat + npages * 4096 ≤ 2 ^ 38)
    (hfree : ∀ k < npages, m0.map root (addr a0 k) = none)
    (hperm0 : 0 ≤ (uvmPerm xperm).toInt) (hperm1 : (uvmPerm xperm).toInt < 1024)
    (hkend : 0 < m0.kend) (hrange : ∀ x ∈ m0.freelist, m0.kend ≤ x ∧ x < phystop) :
    ∀ fuel ps m, Grown m0 m root a0 (permBits (uvmPerm xperm) ||| pteV) ps →
      ps.length ≤ npages → npages ≤ ps.length + fuel →
      ∃ m' s, uvmallocLoop root a0 newsz xperm fuel m (addr a0 ps.length) = .ok (m', s) ∧
        ((s = newsz ∧ ∃ ps', ps'.length = npages ∧
            Grown m0 m' root a0 (permBits (uvmPerm xperm) ||| pteV) ps') ∨
          (s = 0 ∧ Undone m0 m' root)) := by
  intro fuel
  induction fuel with
  | zero =>
    intro ps m gr hle hfuel
    exact ⟨m, newsz, rfl, .inl ⟨rfl, ps, by omega, gr⟩⟩
  | succ fuel ih =>
    intro ps m gr hle hfuel
    have hat := addr_toNat (a := a0) (k := ps.length) (by omega)
    rw [uvmallocLoop]
    by_cases hlt : ps.length < npages
    · have ha : addr a0 ps.length < newsz := by
        rw [UInt64.lt_iff_toNat_lt, hat]
        exact hlo _ hlt
      rw [if_pos ha]
      have hundo := gr.undo ht0 ha0 (add_pages_le hle hmax) (uvmPerm_ne xperm) hkend hrange
        (fun k hk => hfree k (by omega))
      cases hfl : m.freelist with
      | nil =>
        -- `kalloc` found no page: roll back
        obtain ⟨m', s, hrun, hund⟩ := hundo
        simp only [kalloc_nil hfl, if_true, hrun]
        exact ⟨m', 0, rfl, .inr ⟨rfl, hund⟩⟩
      | cons p rest =>
        have hpz : p ≠ 0 := fun h => gr.tree.zero_not_free (h ▸ hfl ▸ List.mem_cons_self)
        obtain ⟨m', r, hrun, hr⟩ :=
          gr.turn ha0 (add_pages_le hlt hmax) (hfree _ hlt) hrange hfl hperm0 hperm1
        simp only [kalloc_cons hfl, hpz, if_false, hrun]
        rcases hr with ⟨rfl, gr'⟩ | ⟨rfl, m4, hk, gr4⟩
        · -- the page is mapped: the next turn
          simp only [ne_eq, not_true_eq_false, if_false]
          have hnext := ih (ps ++ [p]) m' gr' (by simp; omega) (by simp; omega)
          rw [List.length_append, List.length_singleton] at hnext
          rwa [← addr_succ]
        · -- `walk` found no table: `kfree` and roll back
          obtain ⟨m5, s, hrun5, hund⟩ := gr4.undo ht0 ha0 (add_pages_le hle hmax)
            (uvmPerm_ne xperm) hkend hrange (fun k hk => hfree k (by omega))
          simp only [ne_eq, show (-1 : Int) ≠ 0 by decide, not_false_eq_true, if_true, hk, hrun5]
          exact ⟨m5, 0, rfl, .inr ⟨rfl, hund⟩⟩
    · have ha : ¬ addr a0 ps.length < newsz := by
        rw [UInt64.lt_iff_toNat_lt, hat]
        omega
      rw [if_neg ha]
      exact ⟨m, newsz, rfl, .inl ⟨rfl, ps, by omega, gr⟩⟩

end

section
variable {m : Kmem} {root : UInt64}

/-- `uvmalloc` on a tree, from `oldsz` up to `newsz ≤ MAXVA`, over pages that are unmapped from
`PGROUNDUP(oldsz)` up to `newsz`, with a free list of pages that `kfree` takes and a `perm` of flag
bits: it never panics, and either returns `newsz` with the pages of the range mapped in order to
fresh zeroed pages from the free list (`Grown`), or returns `0` with memory as `Undone` says. -/
theorem uvmalloc_spec (ht : Tree m root) {oldsz newsz : UInt64} {xperm : Int32}
    (hle : oldsz ≤ newsz) (hmax : newsz.toNat ≤ 2 ^ 38)
    (hfree : ∀ k, (pgRoundUp oldsz).toNat + k * 4096 < newsz.toNat →
      m.map root (addr (pgRoundUp oldsz) k) = none)
    (hperm0 : 0 ≤ (uvmPerm xperm).toInt) (hperm1 : (uvmPerm xperm).toInt < 1024)
    (hkend : 0 < m.kend) (hrange : ∀ x ∈ m.freelist, m.kend ≤ x ∧ x < phystop) :
    ∃ m' s, uvmalloc m root oldsz newsz xperm = .ok (m', s) ∧
      ((s = newsz ∧ ∃ ps, ps.length = (newsz.toNat - (pgRoundUp oldsz).toNat + 4095) / 4096 ∧
          Grown m m' root (pgRoundUp oldsz) (permBits (uvmPerm xperm) ||| pteV) ps) ∨
        (s = 0 ∧ Undone m m' root)) := by
  have hle' := UInt64.le_iff_toNat_le.mp hle
  have hup := pgRoundUp_toNat (show oldsz.toNat + 4095 < 2 ^ 64 by omega)
  -- the pages of the range, in numbers
  obtain ⟨d, hd⟩ : ∃ d, d = newsz.toNat - (pgRoundUp oldsz).toNat := ⟨_, rfl⟩
  rw [← hd]
  have hlo : ∀ t < (d + 4095) / 4096, (pgRoundUp oldsz).toNat + t * 4096 < newsz.toNat := by
    intro t ht
    omega
  obtain ⟨m', s, hrun, hr⟩ := uvmallocLoop_spec ht
    (pgRoundUp_aligned oldsz) hlo (by omega) (by omega) (fun k hk => hfree k (hlo k hk)) hperm0
    hperm1 hkend hrange (newsz.toNat / 4096 + 1) [] m (Grown.start ht) (by simp) (by simp; omega)
  refine ⟨m', s, ?_, hr⟩
  simp only [uvmalloc, UInt64.not_lt.mpr hle, if_false]
  simpa [addr] using hrun

/-- `exec`'s first `uvmalloc`, of one page onto `uvmcreate`'s empty tree at `0x3000`, with six free
pages: it maps the page, and the zeroed page `0x4000`, off the free list, is left as it was. -/
theorem uvmalloc_first_page :
    ∃ m ps, uvmalloc ⟨fun _ _ => 0, [0x5000, 0x6000, 0x7000, 0x8000, 0x9000, 0xa000], 0x1000⟩ 0x3000 0 4096 0 =
        .ok (m, 4096) ∧
      Grown ⟨fun _ _ => 0, [0x5000, 0x6000, 0x7000, 0x8000, 0x9000, 0xa000], 0x1000⟩ m 0x3000 0
        (permBits (uvmPerm 0) ||| pteV) ps ∧ ps.length = 1 ∧ m.page 0x4000 = fun _ => 0 := by
  have ht0 : Tree ⟨fun _ _ => 0, [0x5000, 0x6000, 0x7000, 0x8000, 0x9000, 0xa000], 0x1000⟩ 0x3000 :=
    Tree.empty rfl (by decide) (by decide) (by simp [pgSize]) (by decide)
  obtain ⟨m, s, hrun, hr⟩ := uvmalloc_spec ht0 (show (0 : UInt64) ≤ 4096 by decide) (by decide)
    (fun k _ => by simp [Kmem.map, Kmem.leaf, Kmem.entry, Kmem.l0, Kmem.l1])
    (show 0 ≤ (uvmPerm 0).toInt by decide) (by decide) (by decide) (fun x hx => by
      simp only [List.mem_cons, List.not_mem_nil, or_false] at hx
      rcases hx with rfl | rfl | rfl | rfl | rfl | rfl <;> exact ⟨by decide, by decide⟩)
  -- the run itself says which outcome it is, and what it left at `0x4000`
  obtain ⟨r, hr', hchk⟩ := Trans.exists_of_toOption_map
    (x := uvmalloc ⟨fun _ _ => 0, [0x5000, 0x6000, 0x7000, 0x8000, 0x9000, 0xa000], 0x1000⟩ 0x3000 0 4096 0)
    (f := fun r => r.2 == 4096 && (List.finRange 512).all fun i => r.1.page 0x4000 i == 0) (v := true)
    (by decide +kernel)
  rw [hrun] at hr'
  cases hr'
  simp only [Bool.and_eq_true, beq_iff_eq, List.all_eq_true, List.mem_finRange, true_implies] at hchk
  obtain ⟨rfl, hz⟩ := hchk
  have h00 : pgRoundUp (0 : UInt64) = 0 := by decide
  rcases hr with ⟨-, ps, hlen, gr⟩ | ⟨h0, -⟩
  · rw [h00] at gr hlen
    exact ⟨m, ps, hrun, gr, hlen, funext hz⟩
  · exact absurd h0 (by decide)

end

/-! ## `growproc` on memory -/

section
variable {m : Kmem} {p : Space} {n : Int32}

/-- `growproc(n)` for `n > 0` on a tree, where `sz + n` stays below `MAXVA` over unmapped pages:
`0` makes the size `sz + n` and maps the new pages readable and writable for the user, each to a
fresh zeroed page (`Grown`); `-1` leaves the process as it was and memory as `Undone` says. -/
theorem growproc_grow (ht : Tree m p.pagetable) (hn : 0 < n)
    (hmax : (p.sz.toNat : Int) + n.toInt ≤ 2 ^ 38)
    (hfree : ∀ k : Nat, (((pgRoundUp p.sz).toNat + k * 4096 : Nat) : Int) < p.sz.toNat + n.toInt →
      m.map p.pagetable (addr (pgRoundUp p.sz) k) = none)
    (hkend : 0 < m.kend) (hrange : ∀ x ∈ m.freelist, m.kend ≤ x ∧ x < phystop) :
    ∃ m' p' r, growproc m p n = .ok (m', p', r) ∧ p'.pagetable = p.pagetable ∧
      ((r = 0 ∧ (p'.sz.toNat : Int) = p.sz.toNat + n.toInt ∧
          ∃ ps, Grown m m' p.pagetable (pgRoundUp p.sz) 23 ps) ∨
        (r = -1 ∧ p' = p ∧ Undone m m' p.pagetable)) := by
  have hpos : 0 < n.toInt := by simpa using Int32.lt_iff_toInt_lt.mp hn
  have hadd := add_sext_toNat p.sz n
  rw [Int.emod_eq_of_lt (by omega) (by omega)] at hadd
  have hle : p.sz ≤ p.sz + n.toInt64.toUInt64 := by
    rw [UInt64.le_iff_toNat_le]
    omega
  have hflags : permBits (uvmPerm 4) ||| pteV = 23 := by decide
  have hperm0 : 0 ≤ (uvmPerm 4).toInt := by decide
  obtain ⟨m', s, hrun, hr⟩ := uvmalloc_spec ht hle (by omega)
    (fun k hk => hfree k (by omega)) hperm0 (by decide) hkend hrange
  rw [hflags] at hr
  rcases hr with ⟨rfl, ps, -, gr⟩ | ⟨rfl, hund⟩
  · have hs0 : p.sz + n.toInt64.toUInt64 ≠ 0 := fun h => by
      rw [h] at hadd
      simp at hadd
      omega
    exact ⟨m', { p with sz := p.sz + n.toInt64.toUInt64 }, 0,
      by simp [growproc, hn, hrun, hs0], rfl, .inl ⟨rfl, hadd, ps, gr⟩⟩
  · exact ⟨m', p, -1, by simp [growproc, hn, hrun], rfl, .inr ⟨rfl, rfl, hund⟩⟩

/-- `growproc(n)` for `n < 0` with `sz + n ≥ 0`, on a tree that maps the `npg` pages from
`PGROUNDUP(sz + n)` to `PGROUNDUP(sz)` by leaves that `kfree` takes: `0`, the size `sz + n`, and
exactly those pages unmapped and freed. -/
theorem growproc_shrink (ht : Tree m p.pagetable) (hn : n < 0)
    (h0 : 0 ≤ (p.sz.toNat : Int) + n.toInt) (hmax : p.sz.toNat ≤ 2 ^ 38) {npg : Nat}
    (hnpg : (pgRoundUp (p.sz + n.toInt64.toUInt64)).toNat + npg * 4096 = (pgRoundUp p.sz).toNat)
    (hmapped : ∀ k < npg, ∃ pa f,
      m.map p.pagetable (addr (pgRoundUp (p.sz + n.toInt64.toUInt64)) k) = some (pa, f) ∧ f ≠ pteV)
    (hkend : 0 < m.kend)
    (hfree : ∀ k < npg, ∀ pa f,
      m.map p.pagetable (addr (pgRoundUp (p.sz + n.toInt64.toUInt64)) k) = some (pa, f) →
        m.kend ≤ pa ∧ pa < phystop ∧ ∀ i j k' f', m.leaf p.pagetable i j k' = some (pa, f') →
          i = px 2 (addr (pgRoundUp (p.sz + n.toInt64.toUInt64)) k) ∧
          j = px 1 (addr (pgRoundUp (p.sz + n.toInt64.toUInt64)) k) ∧
          k' = px 0 (addr (pgRoundUp (p.sz + n.toInt64.toUInt64)) k)) :
    ∃ m' p', growproc m p n = .ok (m', p', 0) ∧ p'.pagetable = p.pagetable ∧
      (p'.sz.toNat : Int) = p.sz.toNat + n.toInt ∧ Tree m' p.pagetable ∧
      Removed m m' p.pagetable (pgRoundUp (p.sz + n.toInt64.toUInt64)) npg ∧
      ∀ x, x ∈ m'.freelist ↔ x ∈ m.freelist ∨ ∃ k < npg, ∃ f,
        m.map p.pagetable (addr (pgRoundUp (p.sz + n.toInt64.toUInt64)) k) = some (x, f) := by
  have hneg : n.toInt < 0 := by simpa using Int32.lt_iff_toInt_lt.mp hn
  have hnpos : ¬ 0 < n := fun h => by
    have := Int32.lt_iff_toInt_lt.mp h
    simp at this
    omega
  have hadd := add_sext_toNat p.sz n
  rw [Int.emod_eq_of_lt h0 (by omega)] at hadd
  have hlt : p.sz + n.toInt64.toUInt64 < p.sz := by
    rw [UInt64.lt_iff_toNat_lt]
    omega
  obtain ⟨m', hrun, ht', hr, hfl, -, -⟩ :=
    uvmdealloc_spec ht hlt hmax hnpg hmapped hkend hfree
  exact ⟨m', { p with sz := p.sz + n.toInt64.toUInt64 }, by simp [growproc, hnpos, hn, hrun], rfl,
    hadd, ht', hr, hfl⟩

end

end Xv6.Vm
