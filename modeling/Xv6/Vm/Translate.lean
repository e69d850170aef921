import Xv6.Vm.Copy

/-!
# Copies through the page table (`vm.c`: `walkaddr`, `copyin`, `copyout`, `copyinstr`)

The copies as the C code runs them, on `uint64` addresses, over a page table read as a partial map
from virtual pages to PTEs and a physical memory of bytes. A virtual address `a` below `MAXVA`
translates through the PTE of its page to `PTE2PA(pte) + a % PGSIZE`.

* `pgRoundDown`, `pte2pa`, `chunk` : the address arithmetic, and `turn_toNat`, which reads one turn
  of a copy loop in numbers: no addition wraps past `2^64`;
* `copyin_refines` : `copyin` is the copy of `Xv6.Vm.Copy` over the address space the page table
  and the physical memory make (`PageTable.mem`), and `copyin_spec` its answer: `0` exactly when
  every page of the range is a valid user page below `MAXVA` whose physical page is not `0`;
* `copyout_spec` : `copyout` returns `0` exactly when every page of the range is a valid, user,
  writable page below `MAXVA`, and then writes the bytes in order at their translations;
* `copyinstr_spec` : `copyinstr` returns `0` exactly when the string ends within `max` bytes, on
  pages `walkaddr` accepts, and then copies it with its NUL.
-/

namespace Xv6.Vm

open Bytes

/-- `PGSIZE` -/
def pgSize : UInt64 := 4096

/-- `MAXVA`: `1L << (9 + 9 + 9 + 12 - 1)`, one bit below what Sv39 allows. -/
def maxVA : UInt64 := (1 : UInt64) <<< (9 + 9 + 9 + 12 - 1 : UInt64)

/-- `PTE_V` -/
def pteV : UInt64 := (1 : UInt64) <<< (0 : UInt64)

/-- `PTE_W` -/
def pteW : UInt64 := (1 : UInt64) <<< (2 : UInt64)

/-- `PTE_U` -/
def pteU : UInt64 := (1 : UInt64) <<< (4 : UInt64)

/-- `PGROUNDDOWN(a)`: `((a)) & ~(PGSIZE-1)` -/
def pgRoundDown (a : UInt64) : UInt64 := a &&& ~~~(pgSize - 1)

/-- `PTE2PA(pte)`: `((pte) >> 10) << 12` -/
def pte2pa (pte : UInt64) : UInt64 := (pte >>> 10) <<< 12

/-- A page table as `walk(pagetable, va, 0)` reads it below `MAXVA`: the level-0 PTE of each
virtual page, or `none` where an interior entry is not valid and `walk` returns 0. -/
structure PageTable where
  pte : Nat → Option UInt64

/-- `walk(pagetable, va, 0)`, for `va` below `MAXVA`: the PTE of the page `va` lies in. -/
def PageTable.walk (pt : PageTable) (va : UInt64) : Option UInt64 := pt.pte (va.toNat / 4096)

/-- `walkaddr`: the physical page of a valid user page below `MAXVA`, and `0` otherwise. -/
def walkaddr (pt : PageTable) (va : UInt64) : UInt64 :=
  if va ≥ maxVA then 0
  else
    match pt.walk va with
    | none => 0
    | some pte => if pte &&& pteV = 0 then 0 else if pte &&& pteU = 0 then 0 else pte2pa pte

/-- `n = PGSIZE - (va - va0); if(n > len) n = len;`: what one turn of a copy loop takes, the rest of
the page of `va` or less. -/
def chunk (va len : UInt64) : UInt64 :=
  let n := pgSize - (va - pgRoundDown va)
  if n > len then len else n

/-- The loop of `copyin`, with the bytes copied to `dst` so far; `fuel` bounds its turns. -/
def copyinLoop (pt : PageTable) (pmem : Nat → UInt8) : Nat → UInt64 → UInt64 → List UInt8 → Int × List UInt8
  | 0, _, _, dst => (0, dst)
  | fuel + 1, srcva, len, dst =>
    if len > 0 then
      let va0 := pgRoundDown srcva
      let pa0 := walkaddr pt va0
      if pa0 = 0 then (-1, dst)
      else
        let n := chunk srcva len
        copyinLoop pt pmem fuel (va0 + pgSize) (len - n) (dst ++ readBytes pmem (pa0 + (srcva - va0)).toNat n.toNat)
    else (0, dst)

/-- `copyin(pagetable, dst, srcva, len)`: the answer and the bytes copied to `dst`. Each turn copies
at least one byte, so `len` turns are enough. -/
def copyin (pt : PageTable) (pmem : Nat → UInt8) (srcva len : UInt64) : Int × List UInt8 :=
  copyinLoop pt pmem len.toNat srcva len []

/-- The loop of `copyout`, from the kernel bytes `src`, `s` of which it has copied. -/
def copyoutLoop (pt : PageTable) (src : Nat → UInt8) :
    Nat → (Nat → UInt8) → UInt64 → Nat → UInt64 → Int × (Nat → UInt8)
  | 0, pmem, _, _, _ => (0, pmem)
  | fuel + 1, pmem, dstva, s, len =>
    if len > 0 then
      let va0 := pgRoundDown dstva
      if va0 ≥ maxVA then (-1, pmem)
      else
        match pt.walk va0 with
        | none => (-1, pmem)
        | some pte =>
          if pte &&& pteV = 0 ∨ pte &&& pteU = 0 ∨ pte &&& pteW = 0 then (-1, pmem)
          else
            let pa0 := pte2pa pte
            let n := chunk dstva len
            copyoutLoop pt src fuel (writeBytes pmem (pa0 + (dstva - va0)).toNat (readBytes src s n.toNat))
              (va0 + pgSize) (s + n.toNat) (len - n)
    else (0, pmem)

/-- `copyout(pagetable, dstva, src, len)`: the answer and physical memory after. -/
def copyout (pt : PageTable) (pmem : Nat → UInt8) (dstva : UInt64) (src : Nat → UInt8) (len : UInt64) :
    Int × (Nat → UInt8) :=
  copyoutLoop pt src len.toNat pmem dstva 0 len

/-- The inner loop of `copyinstr`: the bytes from `p` before a NUL, at most `n` of them, and whether
it met the NUL. -/
def scanStr (pmem : Nat → UInt8) : Nat → Nat → List UInt8 × Bool
  | _, 0 => ([], false)
  | p, n + 1 => if pmem p = 0 then ([], true) else ((scanStr pmem (p + 1) n).1.cons (pmem p), (scanStr pmem (p + 1) n).2)

/-- The loop of `copyinstr`: a turn that meets the NUL writes it and ends the loop with `0`; one
that does not has taken `n` of the `max` bytes. -/
def copyinstrLoop (pt : PageTable) (pmem : Nat → UInt8) : Nat → UInt64 → UInt64 → List UInt8 → Int × List UInt8
  | 0, _, _, dst => (-1, dst)
  | fuel + 1, srcva, max, dst =>
    if max > 0 then
      let va0 := pgRoundDown srcva
      let pa0 := walkaddr pt va0
      if pa0 = 0 then (-1, dst)
      else
        let n := chunk srcva max
        let r := scanStr pmem (pa0 + (srcva - va0)).toNat n.toNat
        if r.2 then (0, dst ++ r.1 ++ [0])
        else copyinstrLoop pt pmem fuel (va0 + pgSize) (max - n) (dst ++ r.1)
    else (-1, dst)

/-- `copyinstr(pagetable, dst, srcva, max)`: the answer and the bytes copied to `dst`. -/
def copyinstr (pt : PageTable) (pmem : Nat → UInt8) (srcva max : UInt64) : Int × List UInt8 :=
  copyinstrLoop pt pmem max.toNat srcva max []

/-! ## The page table as a map -/

/-- The PTE of the page of `a`, when `a` lies below `MAXVA`. -/
def PageTable.pteAt (pt : PageTable) (a : Nat) : Option UInt64 := if a < 2 ^ 38 then pt.pte (a / 4096) else none

/-- `translate(a)`: the physical address of `a` through the PTE of its page. -/
def PageTable.translate (pt : PageTable) (a : Nat) : Nat :=
  match pt.pte (a / 4096) with
  | some pte => (pte2pa pte).toNat + a % 4096
  | none => 0

/-- What `walkaddr` accepts of the page of `a`: it lies below `MAXVA`, its PTE is valid and user,
and the physical page is not `0`, the answer `walkaddr` gives for a page it refuses. -/
def PageTable.readable (pt : PageTable) (a : Nat) : Bool :=
  match pt.pteAt a with
  | some pte => pte &&& pteV != 0 && pte &&& pteU != 0 && pte2pa pte != 0
  | none => false

/-- What `copyout` accepts of the page of `a`: it lies below `MAXVA` and its PTE is valid, user and
writable. -/
def PageTable.writable (pt : PageTable) (a : Nat) : Bool :=
  match pt.pteAt a with
  | some pte => pte &&& pteV != 0 && pte &&& pteU != 0 && pte &&& pteW != 0
  | none => false

/-- Physical memory after the bytes `src (s + k)` are written at the translations of `a + k`, for
`k < len` in order: the effect of copying `len` bytes from `src + s` to `a`. -/
def PageTable.writeSeq (pt : PageTable) (src pmem : Nat → UInt8) (a s : Nat) : Nat → Nat → UInt8
  | 0 => pmem
  | len + 1 => Function.update (pt.writeSeq src pmem a s len) (pt.translate (a + len)) (src (s + len))

/-- The string at `a` read byte by byte: the bytes before the first NUL and the NUL, if the NUL
comes within `max` bytes, each on a page `walkaddr` accepts. -/
def PageTable.strAt (pt : PageTable) (pmem : Nat → UInt8) : Nat → Nat → Option (List UInt8)
  | _, 0 => none
  | a, max + 1 =>
    if pt.readable a then
      if pmem (pt.translate a) = 0 then some [0]
      else (pt.strAt pmem (a + 1) max).map (pmem (pt.translate a) :: ·)
    else none

/-- The address space a page table makes of physical memory, as the copies of `Xv6.Vm.Copy` see
it. -/
def PageTable.mem (pt : PageTable) (pmem : Nat → UInt8) : Mem where
  user := pt.readable
  writable := pt.writable
  data a := pmem (pt.translate a)

/-! ## The arithmetic of one turn -/

theorem pgRoundDown_toNat (a : UInt64) : (pgRoundDown a).toNat = a.toNat / 4096 * 4096 := by
  have hs : pgRoundDown a = (a >>> 12) <<< 12 := by
    apply UInt64.toBitVec_inj.mp
    ext i hi
    have hc : (4095#64)[i] = decide (i < 12) := by
      rw [BitVec.getElem_eq_testBit_toNat]
      exact Nat.testBit_two_pow_sub_one 12 i
    simp only [pgRoundDown, pgSize, UInt64.toBitVec_and, UInt64.toBitVec_not, UInt64.toBitVec_shiftLeft,
      UInt64.toBitVec_shiftRight, BitVec.getElem_and, BitVec.getElem_not]
    by_cases h : i < 12
    · simp [h, hc]
    · simp [h, hc, show 12 + (i - 12) = i by omega, BitVec.getLsbD_eq_getElem hi]
  have hlt := a.toNat_lt
  rw [hs, UInt64.toNat_shiftLeft, UInt64.toNat_shiftRight, show UInt64.toNat 12 % 64 = 12 from rfl,
    Nat.shiftRight_eq_div_pow, Nat.shiftLeft_eq, Nat.mod_eq_of_lt (by omega)]

theorem pte2pa_toNat (pte : UInt64) : (pte2pa pte).toNat = pte.toNat / 1024 * 4096 % 2 ^ 64 := by
  rw [pte2pa, UInt64.toNat_shiftLeft, UInt64.toNat_shiftRight, show UInt64.toNat 12 % 64 = 12 from rfl,
    show UInt64.toNat 10 % 64 = 10 from rfl, Nat.shiftRight_eq_div_pow, Nat.shiftLeft_eq]

/-- A physical page address is a multiple of `PGSIZE`, so an offset in the page does not wrap. -/
theorem pte2pa_add_toNat (pte a : UInt64) (ha : a.toNat < 4096) :
    (pte2pa pte + a).toNat = (pte2pa pte).toNat + a.toNat := by
  have hdvd : 4096 ∣ (pte2pa pte).toNat := by
    rw [pte2pa_toNat]
    exact (Nat.dvd_mod_iff (by decide)).mpr (Dvd.intro_left _ rfl)
  have hlt := (pte2pa pte).toNat_lt
  have hle : (pte2pa pte).toNat + 4096 ≤ 2 ^ 64 := by omega
  rw [UInt64.toNat_add, Nat.mod_eq_of_lt (by omega)]

theorem maxVA_toNat : maxVA.toNat = 2 ^ 38 := by decide

/-- One turn of a copy loop in numbers: the page of `a` starts at `a / 4096 * 4096`, `a` lies
`a % 4096` into it, and the turn takes the rest of the page or the `len` bytes left. -/
theorem turn_toNat (a len : UInt64) :
    (pgRoundDown a).toNat = a.toNat / 4096 * 4096 ∧ (a - pgRoundDown a).toNat = a.toNat % 4096 ∧
      (chunk a len).toNat = min (4096 - a.toNat % 4096) len.toNat ∧
      (len - chunk a len).toNat = len.toNat - (chunk a len).toNat := by
  have hr := pgRoundDown_toNat a
  have hmod := Nat.mod_lt a.toNat (show 0 < 4096 by decide)
  have hdiv := Nat.div_add_mod a.toNat 4096
  have hoff : (a - pgRoundDown a).toNat = a.toNat % 4096 := by
    rw [UInt64.toNat_sub_of_le _ _ (UInt64.le_iff_toNat_le.mpr (by omega)), hr]
    omega
  have hn : (pgSize - (a - pgRoundDown a)).toNat = 4096 - a.toNat % 4096 := by
    rw [UInt64.toNat_sub_of_le _ _ (UInt64.le_iff_toNat_le.mpr (by rw [hoff]; exact Nat.le_of_lt (by exact hmod))),
      hoff]
    rfl
  have hc : (chunk a len).toNat = min (4096 - a.toNat % 4096) len.toNat := by
    unfold chunk
    dsimp only
    split
    · next h =>
      rw [gt_iff_lt, UInt64.lt_iff_toNat_lt, hn] at h
      omega
    · next h =>
      rw [gt_iff_lt, UInt64.lt_iff_toNat_lt, hn] at h
      rw [hn]
      omega
  refine ⟨hr, hoff, hc, ?_⟩
  rw [UInt64.toNat_sub_of_le _ _ (UInt64.le_iff_toNat_le.mpr (by omega))]

/-- Below `MAXVA`, the start of the next page does not wrap. -/
theorem next_page_toNat {a : UInt64} (h : ¬ pgRoundDown a ≥ maxVA) :
    (pgRoundDown a + pgSize).toNat = a.toNat / 4096 * 4096 + 4096 := by
  have hlt : (pgRoundDown a).toNat < 2 ^ 38 := by
    rw [ge_iff_le, UInt64.le_iff_toNat_le, maxVA_toNat] at h
    omega
  rw [UInt64.toNat_add, ← pgRoundDown_toNat, Nat.mod_eq_of_lt (by rw [show pgSize.toNat = 4096 from rfl]; omega)]
  rfl

/-! ## Pages -/

section Pages
variable (pt : PageTable)

/-- Addresses of one page have one PTE: `MAXVA` is a page boundary. -/
theorem pteAt_add {a k : Nat} (hk : k < 4096 - a % 4096) : pt.pteAt (a + k) = pt.pteAt a := by
  have hdiv : (a + k) / 4096 = a / 4096 := by omega
  unfold PageTable.pteAt
  rw [hdiv]
  by_cases ha : a < 2 ^ 38
  · rw [if_pos ha, if_pos (by omega)]
  · rw [if_neg ha, if_neg (by omega)]

theorem pteAt_pageStart (a : Nat) : pt.pteAt (a / 4096 * 4096) = pt.pteAt a := by
  have h := pteAt_add pt (a := a / 4096 * 4096) (k := a % 4096) (by omega)
  rw [← h, show a / 4096 * 4096 + a % 4096 = a by omega]

theorem readable_add {a k : Nat} (hk : k < 4096 - a % 4096) : pt.readable (a + k) = pt.readable a := by
  simp only [PageTable.readable, pteAt_add pt hk]

theorem writable_add {a k : Nat} (hk : k < 4096 - a % 4096) : pt.writable (a + k) = pt.writable a := by
  simp only [PageTable.writable, pteAt_add pt hk]

/-- Within a mapped page, translation moves with the address. -/
theorem translate_add {a k : Nat} {pte : UInt64} (hp : pt.pte (a / 4096) = some pte) (hk : k < 4096 - a % 4096) :
    pt.translate (a + k) = (pte2pa pte).toNat + a % 4096 + k := by
  have hdiv : (a + k) / 4096 = a / 4096 := by omega
  have hmod : (a + k) % 4096 = a % 4096 + k := by omega
  unfold PageTable.translate
  rw [hdiv, hmod, hp, Nat.add_assoc]

theorem pteAt_eq_some {a : Nat} {pte : UInt64} (h : pt.pteAt a = some pte) :
    a < 2 ^ 38 ∧ pt.pte (a / 4096) = some pte := by
  unfold PageTable.pteAt at h
  split at h
  · next ha => exact ⟨ha, h⟩
  · cases h

theorem readable_pgRoundDown (a : Nat) : pt.readable (Xv6.pgRoundDown a) = pt.readable a := by
  rw [Xv6.pgRoundDown, Xv6.pgSize, show a - a % 4096 = a / 4096 * 4096 by omega]
  simp only [PageTable.readable, pteAt_pageStart]

theorem writable_pgRoundDown (a : Nat) : pt.writable (Xv6.pgRoundDown a) = pt.writable a := by
  rw [Xv6.pgRoundDown, Xv6.pgSize, show a - a % 4096 = a / 4096 * 4096 by omega]
  simp only [PageTable.writable, pteAt_pageStart]

/-- `walkaddr` of a page start reads the PTE of the page. -/
theorem walkaddr_pgRoundDown (a : UInt64) :
    walkaddr pt (pgRoundDown a) =
      match pt.pteAt a.toNat with
      | none => 0
      | some pte => if pte &&& pteV = 0 then 0 else if pte &&& pteU = 0 then 0 else pte2pa pte := by
  have hr := pgRoundDown_toNat a
  rw [← pteAt_pageStart pt a.toNat, ← hr]
  unfold walkaddr PageTable.walk PageTable.pteAt
  by_cases hlt : (pgRoundDown a).toNat < 2 ^ 38
  · have hge : ¬ pgRoundDown a ≥ maxVA := by
      rw [ge_iff_le, UInt64.le_iff_toNat_le, maxVA_toNat]
      omega
    rw [if_neg hge, if_pos hlt]
  · have hge : pgRoundDown a ≥ maxVA := by
      rw [ge_iff_le, UInt64.le_iff_toNat_le, maxVA_toNat]
      omega
    rw [if_pos hge, if_neg hlt]

/-- `walkaddr` refuses the page of `a` exactly when `readable` does; a page it accepts is the
physical page of its PTE. -/
theorem walkaddr_cases (a : UInt64) :
    walkaddr pt (pgRoundDown a) = 0 ∧ pt.readable a.toNat = false ∨
      ∃ pte, pt.pteAt a.toNat = some pte ∧ walkaddr pt (pgRoundDown a) = pte2pa pte ∧
        pte2pa pte ≠ 0 ∧ pt.readable a.toNat = true := by
  rw [walkaddr_pgRoundDown, PageTable.readable]
  cases pt.pteAt a.toNat with
  | none => exact .inl ⟨rfl, rfl⟩
  | some pte =>
    by_cases hv : pte &&& pteV = 0
    · exact .inl ⟨by simp [hv], by simp [hv]⟩
    · by_cases hu : pte &&& pteU = 0
      · exact .inl ⟨by simp [hv, hu], by simp [hu]⟩
      · by_cases hp : pte2pa pte = 0
        · exact .inl ⟨by simp [hv, hu, hp], by simp [hp]⟩
        · exact .inr ⟨pte, rfl, by simp [hv, hu], hp, by simp [hv, hu, hp]⟩

end Pages

/-! ## `copyin` -/

section Copyin
variable (pt : PageTable) (pmem : Nat → UInt8)

/-- A turn over an accepted page reads the bytes the address space shows. -/
theorem readBytes_turn {a : UInt64} {n : Nat} {pte : UInt64} (hpte : pt.pteAt a.toNat = some pte)
    (hn : n ≤ 4096 - a.toNat % 4096) :
    readBytes pmem (pte2pa pte + (a - pgRoundDown a)).toNat n = readBytes (pt.mem pmem).data a.toNat n := by
  obtain ⟨-, hoff, -, -⟩ := turn_toNat a 0
  have hp := (pteAt_eq_some pt hpte).2
  rw [pte2pa_add_toNat _ _ (by omega), hoff]
  apply readBytes_congr
  intro k hk
  show pmem _ = pmem (pt.translate (a.toNat + k))
  rw [translate_add pt hp (by omega)]

/-- `copyin` is the copy of `Xv6.Vm.Copy` over the address space of the page table: the same
answer, and the same bytes. -/
theorem copyinLoop_refines : ∀ (fuel : Nat) (srcva len : UInt64) (dst : List UInt8),
    copyinLoop pt pmem fuel srcva len dst =
      (if (Xv6.copyinLoop (pt.mem pmem) fuel srcva.toNat len.toNat).2 then 0 else -1,
        dst ++ (Xv6.copyinLoop (pt.mem pmem) fuel srcva.toNat len.toNat).1)
  | 0, _, _, dst => by simp [copyinLoop, Xv6.copyinLoop]
  | fuel + 1, srcva, len, dst => by
    obtain ⟨-, hoff, hn, hrest⟩ := turn_toNat srcva len
    have huser : (pt.mem pmem).user (Xv6.pgRoundDown srcva.toNat) = pt.readable srcva.toNat :=
      readable_pgRoundDown pt _
    by_cases hlen : len > 0
    · have hlen' : len.toNat > 0 := UInt64.lt_iff_toNat_lt.mp hlen
      rcases walkaddr_cases pt srcva with ⟨hz, hrd⟩ | ⟨pte, hpte, hpa, hpa0, hrd⟩
      · rw [copyinLoop, if_pos hlen, if_pos hz, Xv6.copyinLoop, if_pos hlen', huser, hrd]
        simp
      · have hne : walkaddr pt (pgRoundDown srcva) ≠ 0 := hpa ▸ hpa0
        rw [copyinLoop, if_pos hlen, if_neg hne, Xv6.copyinLoop, if_pos hlen', huser, hrd, if_pos rfl]
        -- the turn's numbers, as the copy over the address space counts them
        have hlt := (pteAt_eq_some pt hpte).1
        have hmin : min (Xv6.pgSize - (srcva.toNat - Xv6.pgRoundDown srcva.toNat)) len.toNat =
            (chunk srcva len).toNat := by
          rw [hn, Xv6.pgRoundDown, Xv6.pgSize]
          omega
        have hnext : (pgRoundDown srcva + pgSize).toNat = Xv6.pgRoundDown srcva.toNat + Xv6.pgSize := by
          have hge : ¬ pgRoundDown srcva ≥ maxVA := by
            rw [ge_iff_le, UInt64.le_iff_toNat_le, maxVA_toNat, pgRoundDown_toNat]
            omega
          rw [next_page_toNat hge, Xv6.pgRoundDown, Xv6.pgSize]
          omega
        have hbytes := readBytes_turn pt pmem hpte (n := (chunk srcva len).toNat) (by omega)
        dsimp only
        rw [copyinLoop_refines fuel, hrest, hnext, hmin, hpa, hbytes, List.append_assoc]
    · have h0 : len.toNat = 0 := by
        rw [gt_iff_lt, UInt64.lt_iff_toNat_lt] at hlen
        exact Nat.eq_zero_of_not_pos hlen
      simp [copyinLoop, Xv6.copyinLoop, hlen, h0]

theorem copyin_refines (srcva len : UInt64) :
    copyin pt pmem srcva len =
      (if (Xv6.copyin (pt.mem pmem) srcva.toNat len.toNat).2 then 0 else -1,
        (Xv6.copyin (pt.mem pmem) srcva.toNat len.toNat).1) := by
  rw [copyin, copyinLoop_refines, List.nil_append]
  rfl

/-- `copyin` answers `0` exactly when every page of the range is one `walkaddr` accepts, `-1`
otherwise, and on `0` has copied the bytes at the translations of the range. -/
theorem copyin_spec (va len : UInt64) :
    ((copyin pt pmem va len).1 = 0 ↔ ∀ k < len.toNat, pt.readable (va.toNat + k) = true) ∧
      ((copyin pt pmem va len).1 = 0 ∨ (copyin pt pmem va len).1 = -1) ∧
      ((copyin pt pmem va len).1 = 0 →
        (copyin pt pmem va len).2 = (List.range len.toNat).map fun k => pmem (pt.translate (va.toNat + k))) := by
  have hread : Readable (pt.mem pmem) va.toNat len.toNat ↔ ∀ k < len.toNat, pt.readable (va.toNat + k) = true := by
    unfold Readable
    simp only [PageTable.mem, readable_pgRoundDown]
  rw [copyin_refines]
  by_cases hc : (Xv6.copyin (pt.mem pmem) va.toNat len.toNat).2 = true
  · have hr := copyin_snd_iff.mp hc
    rw [if_pos hc]
    refine ⟨⟨fun _ => hread.mp hr, fun _ => rfl⟩, .inl rfl, fun _ => ?_⟩
    rw [copyin_of_readable hr]
    rfl
  · have hne : (-1 : Int) ≠ 0 := by decide
    rw [if_neg hc]
    refine ⟨⟨fun h => absurd h hne, fun h => absurd (copyin_snd_iff.mpr (hread.mpr h)) hc⟩, .inr rfl,
      fun h => absurd h hne⟩

end Copyin

/-! ## `copyout` -/

section Copyout
variable (pt : PageTable) (src : Nat → UInt8)

theorem writeSeq_add (pmem : Nat → UInt8) (a s n : Nat) :
    ∀ m, pt.writeSeq src (pt.writeSeq src pmem a s n) (a + n) (s + n) m = pt.writeSeq src pmem a s (n + m)
  | 0 => rfl
  | m + 1 => by
    rw [PageTable.writeSeq, writeSeq_add pmem a s n m, Nat.add_assoc a, Nat.add_assoc s]
    rfl

/-- A turn's `memmove` into one mapped page writes its bytes in order. -/
theorem writeBytes_turn (pmem : Nat → UInt8) {a : Nat} {pte : UInt64} (hp : pt.pte (a / 4096) = some pte)
    (s : Nat) : ∀ n, n ≤ 4096 - a % 4096 →
      writeBytes pmem ((pte2pa pte).toNat + a % 4096) (readBytes src s n) = pt.writeSeq src pmem a s n
  | 0, _ => writeBytes_nil _ _
  | n + 1, hn => by
    rw [readBytes_add, writeBytes_append, writeBytes_turn pmem hp s n (by omega), length_readBytes,
      show readBytes src (s + n) 1 = [src (s + n)] from rfl, writeBytes_singleton, PageTable.writeSeq,
      translate_add pt hp (by omega)]

/-- Where the translations of the range are distinct, each byte reads back. -/
theorem writeSeq_translate (pmem : Nat → UInt8) (a s : Nat) :
    ∀ len, (∀ i < len, ∀ j < len, pt.translate (a + i) = pt.translate (a + j) → i = j) →
      ∀ i < len, pt.writeSeq src pmem a s len (pt.translate (a + i)) = src (s + i)
  | 0, _, i, hi => absurd hi (Nat.not_lt_zero i)
  | len + 1, hinj, i, hi => by
    rw [PageTable.writeSeq]
    by_cases hil : i = len
    · rw [hil, Function.update_self]
    · have hne : pt.translate (a + i) ≠ pt.translate (a + len) := fun e => hil (hinj i hi len (by omega) e)
      rw [Function.update_of_ne hne]
      exact writeSeq_translate pmem a s len (fun i hi j hj => hinj i (by omega) j (by omega)) i (by omega)

/-- An address no byte of the range translates to keeps its byte. -/
theorem writeSeq_of_ne (pmem : Nat → UInt8) (a s : Nat) {x : Nat} :
    ∀ len, (∀ k < len, pt.translate (a + k) ≠ x) → pt.writeSeq src pmem a s len x = pmem x
  | 0, _ => rfl
  | len + 1, hx => by
    rw [PageTable.writeSeq, Function.update_of_ne (hx len (by omega)).symm]
    exact writeSeq_of_ne pmem a s len fun k hk => hx k (by omega)

/-- A turn of `copyout`: the check of the page's PTE, then the `memmove`. -/
theorem copyoutLoop_succ (pmem : Nat → UInt8) (dstva : UInt64) (s : Nat) {len : UInt64} (fuel : Nat)
    (hlen : len > 0) :
    copyoutLoop pt src (fuel + 1) pmem dstva s len =
      match pt.pteAt dstva.toNat with
      | none => (-1, pmem)
      | some pte =>
        if pte &&& pteV = 0 ∨ pte &&& pteU = 0 ∨ pte &&& pteW = 0 then (-1, pmem)
        else copyoutLoop pt src fuel
          (writeBytes pmem (pte2pa pte + (dstva - pgRoundDown dstva)).toNat (readBytes src s (chunk dstva len).toNat))
          (pgRoundDown dstva + pgSize) (s + (chunk dstva len).toNat) (len - chunk dstva len) := by
  have hr := pgRoundDown_toNat dstva
  rw [copyoutLoop, if_pos hlen]
  unfold PageTable.pteAt PageTable.walk
  dsimp only
  rw [hr, show dstva.toNat / 4096 * 4096 / 4096 = dstva.toNat / 4096 by omega]
  by_cases hlt : dstva.toNat < 2 ^ 38
  · have hge : ¬ pgRoundDown dstva ≥ maxVA := by
      rw [ge_iff_le, UInt64.le_iff_toNat_le, maxVA_toNat, hr]
      omega
    rw [if_neg hge, if_pos hlt]
  · have hge : pgRoundDown dstva ≥ maxVA := by
      rw [ge_iff_le, UInt64.le_iff_toNat_le, maxVA_toNat, hr]
      omega
    rw [if_pos hge, if_neg hlt]

theorem writable_iff {a : Nat} {pte : UInt64} (h : pt.pteAt a = some pte) :
    pt.writable a = true ↔ ¬(pte &&& pteV = 0 ∨ pte &&& pteU = 0 ∨ pte &&& pteW = 0) := by
  simp [PageTable.writable, h, and_assoc]

/-- `copyout` over writable pages writes the bytes in order and returns `0`. -/
theorem copyoutLoop_of_writable : ∀ fuel (pmem : Nat → UInt8) (dstva : UInt64) (s : Nat) (len : UInt64),
    len.toNat ≤ fuel → (∀ k < len.toNat, pt.writable (dstva.toNat + k) = true) →
      copyoutLoop pt src fuel pmem dstva s len = (0, pt.writeSeq src pmem dstva.toNat s len.toNat)
  | 0, pmem, dstva, s, len, hf, _ => by
    rw [show len.toNat = 0 by omega]
    rfl
  | fuel + 1, pmem, dstva, s, len, hf, hw => by
    by_cases hlen : len > 0
    · have hlen' : 0 < len.toNat := UInt64.lt_iff_toNat_lt.mp hlen
      obtain ⟨-, hoff, hn, hrest⟩ := turn_toNat dstva len
      have h0 := hw 0 hlen'
      rw [Nat.add_zero] at h0
      rw [copyoutLoop_succ pt src pmem dstva s fuel hlen]
      cases hpte : pt.pteAt dstva.toNat with
      | none => simp [PageTable.writable, hpte] at h0
      | some pte =>
        obtain ⟨hlt, hp⟩ := pteAt_eq_some pt hpte
        dsimp only
        rw [if_neg ((writable_iff pt hpte).mp h0), pte2pa_add_toNat _ _ (by omega), hoff,
          writeBytes_turn pt src pmem hp s _ (by omega)]
        -- the next turn starts where this one ended, unless this one took everything
        have hnext : (chunk dstva len).toNat < len.toNat →
            (pgRoundDown dstva + pgSize).toNat = dstva.toNat + (chunk dstva len).toNat := by
          intro hlt'
          have hge : ¬ pgRoundDown dstva ≥ maxVA := by
            rw [ge_iff_le, UInt64.le_iff_toNat_le, maxVA_toNat, pgRoundDown_toNat]
            omega
          rw [next_page_toNat hge]
          omega
        have hw' : ∀ k < (len - chunk dstva len).toNat,
            pt.writable ((pgRoundDown dstva + pgSize).toNat + k) = true := by
          intro k hk
          rw [hrest] at hk
          rw [hnext (by omega), Nat.add_assoc]
          exact hw _ (by omega)
        rw [copyoutLoop_of_writable fuel _ _ _ _ (by omega) hw', hrest]
        by_cases hlt' : (chunk dstva len).toNat < len.toNat
        · rw [hnext hlt', writeSeq_add, Nat.add_sub_cancel' (by omega)]
        · rw [show len.toNat - (chunk dstva len).toNat = 0 by omega, show (chunk dstva len).toNat = len.toNat by omega]
          rfl
    · rw [show len.toNat = 0 by rw [gt_iff_lt, UInt64.lt_iff_toNat_lt] at hlen; exact Nat.eq_zero_of_not_pos hlen]
      simp [copyoutLoop, hlen]
      rfl

/-- `copyout` with a page of the range it may not write returns `-1`. -/
theorem copyoutLoop_of_not_writable : ∀ fuel (pmem : Nat → UInt8) (dstva : UInt64) (s : Nat) (len : UInt64),
    len.toNat ≤ fuel → (∃ k < len.toNat, pt.writable (dstva.toNat + k) = false) →
      (copyoutLoop pt src fuel pmem dstva s len).1 = -1
  | 0, pmem, dstva, s, len, hf, ⟨k, hk, _⟩ => absurd hk (by omega)
  | fuel + 1, pmem, dstva, s, len, hf, ⟨k, hk, hbad⟩ => by
    have hlen : len > 0 := UInt64.lt_iff_toNat_lt.mpr (by simp; omega)
    obtain ⟨-, hoff, hn, hrest⟩ := turn_toNat dstva len
    rw [copyoutLoop_succ pt src pmem dstva s fuel hlen]
    cases hpte : pt.pteAt dstva.toNat with
    | none => rfl
    | some pte =>
      dsimp only
      by_cases hcond : pte &&& pteV = 0 ∨ pte &&& pteU = 0 ∨ pte &&& pteW = 0
      · rw [if_pos hcond]
      · rw [if_neg hcond]
        have hok := (writable_iff pt hpte).mpr hcond
        -- the page of `dstva` is writable, so the bad byte lies past this turn
        have hkn : (chunk dstva len).toNat ≤ k := by
          by_contra hkn
          rw [writable_add pt (by omega), hok] at hbad
          cases hbad
        have hge : ¬ pgRoundDown dstva ≥ maxVA := by
          have hlt := (pteAt_eq_some pt hpte).1
          rw [ge_iff_le, UInt64.le_iff_toNat_le, maxVA_toNat, pgRoundDown_toNat]
          omega
        apply copyoutLoop_of_not_writable fuel _ _ _ _ (by omega)
        refine ⟨k - (chunk dstva len).toNat, by omega, ?_⟩
        rw [next_page_toNat hge]
        rw [show dstva.toNat / 4096 * 4096 + 4096 + (k - (chunk dstva len).toNat) = dstva.toNat + k by omega]
        exact hbad

/-- `copyout` answers `0` exactly when every page of the range is a valid, user, writable page below
`MAXVA`, `-1` otherwise, and on `0` has written the bytes in order at the translations of the
range. -/
theorem copyout_spec (pmem : Nat → UInt8) (va len : UInt64) :
    ((copyout pt pmem va src len).1 = 0 ↔ ∀ k < len.toNat, pt.writable (va.toNat + k) = true) ∧
      ((copyout pt pmem va src len).1 = 0 ∨ (copyout pt pmem va src len).1 = -1) ∧
      ((copyout pt pmem va src len).1 = 0 → (copyout pt pmem va src len).2 = pt.writeSeq src pmem va.toNat 0 len.toNat) := by
  have hne : (-1 : Int) ≠ 0 := by decide
  by_cases hw : ∀ k < len.toNat, pt.writable (va.toNat + k) = true
  · have h := copyoutLoop_of_writable pt src len.toNat pmem va 0 len le_rfl hw
    rw [copyout, h]
    exact ⟨⟨fun _ => hw, fun _ => rfl⟩, .inl rfl, fun _ => rfl⟩
  · have hbad : ∃ k < len.toNat, pt.writable (va.toNat + k) = false := by
      simp only [not_forall, Bool.not_eq_true] at hw
      obtain ⟨k, hk, hf⟩ := hw
      exact ⟨k, hk, hf⟩
    have h := copyoutLoop_of_not_writable pt src len.toNat pmem va 0 len le_rfl hbad
    rw [copyout, h]
    exact ⟨⟨fun e => absurd e hne, fun e => absurd e hw⟩, .inr rfl, fun e => absurd e hne⟩

end Copyout

/-! ## `copyinstr` -/

section Copyinstr
variable (pt : PageTable) (pmem : Nat → UInt8)

/-- The inner loop over `n` bytes of one accepted page reads the string as far as they go. -/
theorem strAt_scan : ∀ (n a P max : Nat), n ≤ max →
    (∀ j < n, pt.readable (a + j) = true ∧ pt.translate (a + j) = P + j) →
      pt.strAt pmem a max =
        match scanStr pmem P n with
        | (bytes, true) => some (bytes ++ [0])
        | (bytes, false) => (pt.strAt pmem (a + n) (max - n)).map (bytes ++ ·)
  | 0, a, P, max, _, _ => by simp [scanStr]
  | n + 1, a, P, max, hn, hpage => by
    obtain ⟨m, rfl⟩ : ∃ m, max = m + 1 := ⟨max - 1, by omega⟩
    obtain ⟨hrd, htr⟩ := hpage 0 (by omega)
    simp only [Nat.add_zero] at hrd htr
    rw [PageTable.strAt, if_pos hrd, htr, scanStr]
    by_cases h0 : pmem P = 0
    · rw [if_pos h0, if_pos h0]
      rfl
    · rw [if_neg h0, if_neg h0]
      have ih := strAt_scan n (a + 1) (P + 1) m (by omega) fun j hj => by
        obtain ⟨h1, h2⟩ := hpage (j + 1) (by omega)
        rw [Nat.add_assoc a 1 j, Nat.add_comm 1 j, h2]
        exact ⟨h1, by omega⟩
      rw [ih]
      cases scanStr pmem (P + 1) n with
      | mk bytes found =>
        cases found with
        | true => rfl
        | false =>
          simp only [Option.map_map, Function.comp_def, List.cons_append]
          rw [show a + 1 + n = a + (n + 1) by omega, show m - n = m + 1 - (n + 1) by omega]

/-- `copyinstr`'s loop, page by page, reads the string byte by byte: it returns `0` with the string
copied where there is one, and `-1` where there is not. -/
theorem copyinstrLoop_strAt : ∀ (fuel : Nat) (srcva max : UInt64) (dst : List UInt8), max.toNat ≤ fuel →
    (∀ str, pt.strAt pmem srcva.toNat max.toNat = some str → copyinstrLoop pt pmem fuel srcva max dst = (0, dst ++ str)) ∧
      (pt.strAt pmem srcva.toNat max.toNat = none → (copyinstrLoop pt pmem fuel srcva max dst).1 = -1)
  | 0, srcva, max, dst, hf => by
    rw [show max.toNat = 0 by omega]
    exact ⟨fun str h => (by cases h), fun _ => rfl⟩
  | fuel + 1, srcva, max, dst, hf => by
    by_cases hmax : max > 0
    · have hmax' : 0 < max.toNat := UInt64.lt_iff_toNat_lt.mp hmax
      obtain ⟨m, hm⟩ : ∃ m, max.toNat = m + 1 := ⟨max.toNat - 1, by omega⟩
      obtain ⟨-, hoff, hn, hrest⟩ := turn_toNat srcva max
      rcases walkaddr_cases pt srcva with ⟨hz, hrd⟩ | ⟨pte, hpte, hpa, hpa0, hrd⟩
      · -- a page `walkaddr` refuses: no string, and `-1`
        have hnone : pt.strAt pmem srcva.toNat max.toNat = none := by
          rw [hm, PageTable.strAt, hrd]
          rfl
        rw [hnone]
        refine ⟨fun str h => (by cases h), fun _ => ?_⟩
        rw [copyinstrLoop, if_pos hmax, if_pos hz]
      · have hne : walkaddr pt (pgRoundDown srcva) ≠ 0 := hpa ▸ hpa0
        obtain ⟨hlt, hp⟩ := pteAt_eq_some pt hpte
        have hpage : ∀ j < (chunk srcva max).toNat, pt.readable (srcva.toNat + j) = true ∧
            pt.translate (srcva.toNat + j) = (pte2pa pte).toNat + srcva.toNat % 4096 + j := by
          intro j hj
          exact ⟨(readable_add pt (by omega)).trans hrd, translate_add pt hp (by omega)⟩
        have hscan := strAt_scan pt pmem (chunk srcva max).toNat srcva.toNat
          ((pte2pa pte).toNat + srcva.toNat % 4096) max.toNat (by omega) hpage
        rw [copyinstrLoop, if_pos hmax, if_neg hne]
        dsimp only
        rw [hpa, pte2pa_add_toNat _ _ (by omega), hoff, hscan]
        cases scanStr pmem ((pte2pa pte).toNat + srcva.toNat % 4096) (chunk srcva max).toNat with
        | mk bytes found =>
          cases found with
          | true =>
            refine ⟨fun str h => ?_, fun h => by cases h⟩
            cases h
            simp
          | false =>
            -- the string goes on at the next page, or the `max` bytes are spent
            simp only [Bool.false_eq_true, if_false]
            have ih := copyinstrLoop_strAt fuel (pgRoundDown srcva + pgSize) (max - chunk srcva max) (dst ++ bytes)
              (by omega)
            have hat : pt.strAt pmem (pgRoundDown srcva + pgSize).toNat (max - chunk srcva max).toNat =
                pt.strAt pmem (srcva.toNat + (chunk srcva max).toNat) (max.toNat - (chunk srcva max).toNat) := by
              rw [hrest]
              by_cases hlt' : (chunk srcva max).toNat < max.toNat
              · have hge : ¬ pgRoundDown srcva ≥ maxVA := by
                  rw [ge_iff_le, UInt64.le_iff_toNat_le, maxVA_toNat, pgRoundDown_toNat]
                  omega
                rw [next_page_toNat hge, show srcva.toNat / 4096 * 4096 + 4096 = srcva.toNat + (chunk srcva max).toNat by omega]
              · rw [show max.toNat - (chunk srcva max).toNat = 0 by omega]
                simp only [PageTable.strAt]
            rw [hat] at ih
            refine ⟨fun str h => ?_, fun h => ?_⟩
            · obtain ⟨str', h', rfl⟩ := Option.map_eq_some_iff.mp h
              rw [ih.1 str' h', List.append_assoc]
            · exact ih.2 (Option.map_eq_none_iff.mp h)
    · have h0 : max.toNat = 0 := by
        rw [gt_iff_lt, UInt64.lt_iff_toNat_lt] at hmax
        exact Nat.eq_zero_of_not_pos hmax
      rw [h0]
      refine ⟨fun str h => (by cases h), fun _ => ?_⟩
      rw [copyinstrLoop, if_neg hmax]

/-- The string at `a`: its NUL is the first within `max` bytes, every page up to it is accepted, and
the string is its bytes and the NUL. -/
theorem strAt_eq_some : ∀ (max a : Nat) (str : List UInt8), pt.strAt pmem a max = some str ↔
    ∃ k < max, (∀ j ≤ k, pt.readable (a + j) = true) ∧ pmem (pt.translate (a + k)) = 0 ∧
      (∀ j < k, pmem (pt.translate (a + j)) ≠ 0) ∧
      str = (List.range k).map (fun j => pmem (pt.translate (a + j))) ++ [0]
  | 0, a, str => by simp [PageTable.strAt]
  | m + 1, a, str => by
    rw [PageTable.strAt]
    constructor
    · intro h
      by_cases hrd : pt.readable a = true
      · rw [if_pos hrd] at h
        by_cases h0 : pmem (pt.translate a) = 0
        · rw [if_pos h0] at h
          cases h
          refine ⟨0, by omega, fun j hj => ?_, by simpa using h0, fun j hj => absurd hj (Nat.not_lt_zero j), by simp⟩
          rw [show j = 0 by omega, Nat.add_zero]
          exact hrd
        · -- the first byte is not the NUL: the string is it and the string at `a + 1`
          rw [if_neg h0] at h
          obtain ⟨str', h', rfl⟩ := Option.map_eq_some_iff.mp h
          obtain ⟨k, hk, hrds, hnul, hbefore, rfl⟩ := (strAt_eq_some m (a + 1) str').mp h'
          refine ⟨k + 1, by omega, fun j hj => ?_, by rw [← Nat.add_assoc, Nat.add_right_comm]; exact hnul, fun j hj => ?_, ?_⟩
          · cases j with
            | zero => exact hrd
            | succ j =>
              rw [← Nat.add_assoc, Nat.add_right_comm]
              exact hrds j (by omega)
          · cases j with
            | zero => exact h0
            | succ j =>
              rw [← Nat.add_assoc, Nat.add_right_comm]
              exact hbefore j (by omega)
          · simp [List.range_succ_eq_map, Function.comp_def, Nat.add_assoc, Nat.add_comm 1]
      · rw [if_neg hrd] at h
        cases h
    · rintro ⟨k, hk, hrds, hnul, hbefore, rfl⟩
      have hrd := hrds 0 (Nat.zero_le k)
      rw [Nat.add_zero] at hrd
      rw [if_pos hrd]
      cases k with
      | zero =>
        rw [Nat.add_zero] at hnul
        rw [if_pos hnul]
        rfl
      | succ k =>
        have h0 := hbefore 0 (by omega)
        rw [Nat.add_zero] at h0
        rw [if_neg h0]
        have h' := (strAt_eq_some m (a + 1) _).mpr ⟨k, by omega, fun j hj => ?_, ?_, fun j hj => ?_, rfl⟩
        · rw [h']
          simp [List.range_succ_eq_map, Function.comp_def, Nat.add_assoc, Nat.add_comm 1]
        · rw [Nat.add_assoc, Nat.add_comm 1]
          exact hrds (j + 1) (by omega)
        · rw [Nat.add_assoc, Nat.add_comm 1]
          exact hnul
        · rw [Nat.add_assoc, Nat.add_comm 1]
          exact hbefore (j + 1) (by omega)

/-- `copyinstr` answers `0` exactly when the string's NUL comes within `max` bytes on pages
`walkaddr` accepts, `-1` otherwise, and on `0` has copied the string with its NUL. -/
theorem copyinstr_spec (va max : UInt64) :
    ((copyinstr pt pmem va max).1 = 0 ↔
      ∃ k < max.toNat, (∀ j ≤ k, pt.readable (va.toNat + j) = true) ∧ pmem (pt.translate (va.toNat + k)) = 0 ∧
        ∀ j < k, pmem (pt.translate (va.toNat + j)) ≠ 0) ∧
      ((copyinstr pt pmem va max).1 = 0 ∨ (copyinstr pt pmem va max).1 = -1) ∧
      (∀ k < max.toNat, (∀ j ≤ k, pt.readable (va.toNat + j) = true) → pmem (pt.translate (va.toNat + k)) = 0 →
        (∀ j < k, pmem (pt.translate (va.toNat + j)) ≠ 0) →
        (copyinstr pt pmem va max).2 = (List.range k).map (fun j => pmem (pt.translate (va.toNat + j))) ++ [0]) := by
  have hne : (-1 : Int) ≠ 0 := by decide
  have hloop := copyinstrLoop_strAt pt pmem max.toNat va max [] le_rfl
  cases hs : pt.strAt pmem va.toNat max.toNat with
  | some str =>
    obtain ⟨k, hk, hrds, hnul, hbefore, hstr⟩ := (strAt_eq_some pt pmem _ _ _).mp hs
    have hc : copyinstr pt pmem va max = (0, str) := hloop.1 str hs
    rw [hc]
    refine ⟨⟨fun _ => ⟨k, hk, hrds, hnul, hbefore⟩, fun _ => rfl⟩, .inl rfl, fun k' hk' hrds' hnul' hbefore' => ?_⟩
    -- the first NUL is one byte
    have hkk : k' = k := by
      by_contra hne'
      rcases Nat.lt_or_gt_of_ne hne' with hlt | hlt
      · exact hbefore k' hlt hnul'
      · exact hbefore' k hlt hnul
    rw [hkk, hstr]
  | none =>
    have hc : (copyinstr pt pmem va max).1 = -1 := hloop.2 hs
    rw [hc]
    refine ⟨⟨fun e => absurd e hne, fun ⟨k, hk, hrds, hnul, hbefore⟩ => ?_⟩, .inr rfl, fun k hk hrds hnul hbefore => ?_⟩
    · have := (strAt_eq_some pt pmem _ _ _).mpr ⟨k, hk, hrds, hnul, hbefore, rfl⟩
      rw [hs] at this
      cases this
    · have := (strAt_eq_some pt pmem _ _ _).mpr ⟨k, hk, hrds, hnul, hbefore, rfl⟩
      rw [hs] at this
      cases this

end Copyinstr

/-! ## The copies against the page table -/

/-- The three copies against the page table, for every page table, physical memory, address and
length. `copyin` returns `0` exactly when every page of the range is a valid user page below `MAXVA`
on a physical page other than `0`, and then has copied the translated bytes. `copyout` returns `0`
exactly when every page of the range is a valid, user, writable page below `MAXVA`, and then has
written the bytes in order at their translations and nowhere else, so that each reads back where no
two bytes of the range translate to one address. `copyinstr` returns `0` exactly when the string's
NUL is the first within `max` bytes, on pages `copyin` accepts, and then has copied the string with
its NUL. Each returns `-1` otherwise. -/
theorem copy_user_translate (pt : PageTable) (pmem src : Nat → UInt8) (va len max : UInt64) :
    (((copyin pt pmem va len).1 = 0 ↔ ∀ k < len.toNat, pt.readable (va.toNat + k) = true) ∧
      ((copyin pt pmem va len).1 = 0 ∨ (copyin pt pmem va len).1 = -1) ∧
      ((copyin pt pmem va len).1 = 0 →
        (copyin pt pmem va len).2 = (List.range len.toNat).map fun k => pmem (pt.translate (va.toNat + k)))) ∧
    (((copyout pt pmem va src len).1 = 0 ↔ ∀ k < len.toNat, pt.writable (va.toNat + k) = true) ∧
      ((copyout pt pmem va src len).1 = 0 ∨ (copyout pt pmem va src len).1 = -1) ∧
      ((copyout pt pmem va src len).1 = 0 →
        (copyout pt pmem va src len).2 = pt.writeSeq src pmem va.toNat 0 len.toNat) ∧
      ((copyout pt pmem va src len).1 = 0 →
        (∀ i < len.toNat, ∀ j < len.toNat, pt.translate (va.toNat + i) = pt.translate (va.toNat + j) → i = j) →
        ∀ i < len.toNat, (copyout pt pmem va src len).2 (pt.translate (va.toNat + i)) = src i) ∧
      ((copyout pt pmem va src len).1 = 0 → ∀ x, (∀ k < len.toNat, pt.translate (va.toNat + k) ≠ x) →
        (copyout pt pmem va src len).2 x = pmem x)) ∧
    (((copyinstr pt pmem va max).1 = 0 ↔
        ∃ k < max.toNat, (∀ j ≤ k, pt.readable (va.toNat + j) = true) ∧ pmem (pt.translate (va.toNat + k)) = 0 ∧
          ∀ j < k, pmem (pt.translate (va.toNat + j)) ≠ 0) ∧
      ((copyinstr pt pmem va max).1 = 0 ∨ (copyinstr pt pmem va max).1 = -1) ∧
      (∀ k < max.toNat, (∀ j ≤ k, pt.readable (va.toNat + j) = true) → pmem (pt.translate (va.toNat + k)) = 0 →
        (∀ j < k, pmem (pt.translate (va.toNat + j)) ≠ 0) →
        (copyinstr pt pmem va max).2 = (List.range k).map (fun j => pmem (pt.translate (va.toNat + j))) ++ [0])) := by
  obtain ⟨hout, hret, hwrite⟩ := copyout_spec pt src pmem va len
  refine ⟨copyin_spec pt pmem va len, ⟨hout, hret, hwrite, fun h hinj i hi => ?_, fun h x hx => ?_⟩,
    copyinstr_spec pt pmem va max⟩
  · rw [hwrite h, writeSeq_translate pt src pmem va.toNat 0 len.toNat hinj i hi, Nat.zero_add]
  · rw [hwrite h]
    exact writeSeq_of_ne pt src pmem va.toNat 0 len.toNat hx

/-- One page, page 0 on physical page 1 (`PTE_V | PTE_R | PTE_W | PTE_U`): `copyin` of its first
three bytes reads physical bytes `4096` to `4098`. -/
theorem copy_user_translate_page :
    (copyin ⟨fun k => if k = 0 then some 1047 else none⟩ (fun x => x.toUInt8) 0 3).1 = 0 ∧
      (copyin ⟨fun k => if k = 0 then some 1047 else none⟩ (fun x => x.toUInt8) 0 3).2 = [0, 1, 2] := by
  have h := (copy_user_translate ⟨fun k => if k = 0 then some 1047 else none⟩ (fun x => x.toUInt8)
    (fun _ => 0) 0 3 3).1
  have hr : ∀ k < (3 : UInt64).toNat, PageTable.readable ⟨fun k => if k = 0 then some 1047 else none⟩
      ((0 : UInt64).toNat + k) = true := by decide
  have h0 := h.1.mpr hr
  refine ⟨h0, ?_⟩
  rw [h.2.2 h0]
  decide

/-- Where a plain reading of the page table and the copies part. A valid user page on physical page
`0`: `walkaddr` answers `0` for it, so `copyin` refuses it. Two virtual pages on physical page 1:
`copyout` of `4097` bytes writes its byte `4096` over its byte `0`. -/
theorem copy_translate_gaps :
    (∃ (pt : PageTable) (pmem : Nat → UInt8), (∃ pte, pt.pteAt 0 = some pte ∧ pte &&& pteV ≠ 0 ∧ pte &&& pteU ≠ 0) ∧
      (copyin pt pmem 0 1).1 = -1) ∧
    (∃ (pt : PageTable) (pmem src : Nat → UInt8), (copyout pt pmem 0 src 4097).1 = 0 ∧
      (copyout pt pmem 0 src 4097).2 (pt.translate 0) ≠ src 0) := by
  refine ⟨⟨⟨fun _ => some 17⟩, fun _ => 0, ⟨17, rfl, by decide, by decide⟩, by decide⟩, ?_⟩
  -- pages 0 and 1 both on physical page 1
  let pt : PageTable := ⟨fun k => if k ≤ 1 then some 1047 else none⟩
  let src : Nat → UInt8 := fun k => if k = 0 then 1 else 2
  have hpte : ∀ k < 4097, pt.pteAt k = some 1047 := by
    intro k hk
    simp only [PageTable.pteAt, pt]
    rw [if_pos (by omega), if_pos (by omega)]
  have hw : ∀ k < (4097 : UInt64).toNat, pt.writable ((0 : UInt64).toNat + k) = true := by
    intro k hk
    rw [PageTable.writable, hpte _ (by simpa using hk)]
    decide
  obtain ⟨hout, -, hwrite⟩ := copyout_spec pt src (fun _ => 0) 0 4097
  have h0 := hout.mpr hw
  refine ⟨pt, fun _ => 0, src, h0, ?_⟩
  rw [hwrite h0]
  have htr : pt.translate 0 = pt.translate ((0 : UInt64).toNat + 4096) := by decide
  show pt.writeSeq src (fun _ => 0) (0 : UInt64).toNat 0 (4096 + 1) (pt.translate 0) ≠ src 0
  rw [PageTable.writeSeq, htr, Function.update_self]
  decide

end Xv6.Vm
