import Mathlib

/-!
# The user-space allocator (`umalloc.c`: `malloc`, `free`, `morecore`) over `sys_sbrk`

The K&R allocator keeps a circular free list of blocks, each headed by a `Header` that lies in
the heap itself; `freep` points at the list and the static `base` is its first element. The model
keeps the headers as a map from address to `Header`, so that every assignment of the source is one
update, read back from the current state as the source reads it.

* `sysSbrk` : `sys_sbrk` on the process size, as `growproc` runs it with `uvmalloc` and
  `uvmdealloc`;
* `free`, `morecore`, `malloc` : the source's loops, each turn spending one unit of `fuel`; `none`
  means the fuel ran out, never a result of the code;
* `nunits_toNat`, `nunits_usable` : the unit count of `malloc` is exact, with no wrap;
* `sbrkArg_toInt_iff` : `morecore` hands `sbrk` its byte count only below `2^31`;
* `malloc_beyond_break` : a request near `2^32` bytes is granted at the break without the break
  moving.
-/

namespace Xv6.Umalloc

/-- `union header`: the next block of the free list and this block's size, in headers. -/
structure Header where
  ptr : UInt64
  size : UInt32
  deriving DecidableEq, Repr

/-- `sizeof(Header)`: a pointer and a `uint`, padded to the alignment of a `long`. -/
def headerSize : UInt64 := 16

/-- The allocator's memory: the header at each address, `freep`, and the process size `p->sz`,
which is the break. -/
structure Heap where
  mem : UInt64 → Header
  freep : UInt64
  brk : UInt64

/-- `x->s.ptr = v` -/
def Heap.setPtr (h : Heap) (x v : UInt64) : Heap :=
  { h with mem := Function.update h.mem x { h.mem x with ptr := v } }

/-- `x->s.size = v` -/
def Heap.setSize (h : Heap) (x : UInt64) (v : UInt32) : Heap :=
  { h with mem := Function.update h.mem x { h.mem x with size := v } }

@[simp] theorem Heap.setPtr_freep (h : Heap) (x v : UInt64) : (h.setPtr x v).freep = h.freep := rfl
@[simp] theorem Heap.setPtr_brk (h : Heap) (x v : UInt64) : (h.setPtr x v).brk = h.brk := rfl
@[simp] theorem Heap.setSize_freep (h : Heap) (x : UInt64) (v : UInt32) :
    (h.setSize x v).freep = h.freep := rfl
@[simp] theorem Heap.setSize_brk (h : Heap) (x : UInt64) (v : UInt32) :
    (h.setSize x v).brk = h.brk := rfl

/-- The block that `x + k` headers addresses: `Header` pointer arithmetic. -/
def offset (x : UInt64) (k : UInt32) : UInt64 := x + k.toUInt64 * headerSize

/-! ## The kernel side: `sys_sbrk` -/

/-- `uvmalloc` on the size alone: `0` when it runs out of pages, which `grows` says. -/
def uvmallocSize (grows : Bool) (oldsz newsz : UInt64) : UInt64 :=
  if newsz < oldsz then oldsz else if grows then newsz else 0

/-- `uvmdealloc` on the size alone. -/
def uvmdeallocSize (oldsz newsz : UInt64) : UInt64 :=
  if newsz ≥ oldsz then oldsz else newsz

/-- `growproc(n)` on the size alone: the new `p->sz`, or `none` for `-1`. The `int` is
sign-extended and added to the 64-bit size. -/
def growprocSize (grows : Bool) (sz : UInt64) (n : Int32) : Option UInt64 :=
  if n > 0 then
    let sz' := uvmallocSize grows sz (sz + n.toInt64.toUInt64)
    if sz' = 0 then none else some sz'
  else if n < 0 then some (uvmdeallocSize sz (sz + n.toInt64.toUInt64))
  else some sz

/-- `sys_sbrk`: the old size, or `none` for `-1`, and the new size. -/
def sysSbrk (grows : Bool) (sz : UInt64) (n : Int32) : Option UInt64 × UInt64 :=
  match growprocSize grows sz n with
  | none => (none, sz)
  | some sz' => (some sz, sz')

/-! ## The allocator -/

section
variable (base : UInt64) (grows : Bool)

/-- The search loop of `free`: the block after which `bp` goes, either between two blocks or at
the point where the circular list wraps from its highest address to its lowest. -/
def freeFind (h : Heap) (bp : UInt64) : Nat → UInt64 → Option UInt64
  | 0, _ => none
  | fuel + 1, p =>
    let nx := (h.mem p).ptr
    if bp > p ∧ bp < nx then some p
    else if p ≥ nx ∧ (bp > p ∨ bp < nx) then some p
    else freeFind h bp fuel nx

/-- `free(ap)`: insert the block at `bp`, joining it to the block above and then to the block
below when they touch. -/
def free (fuel : Nat) (h : Heap) (ap : UInt64) : Option Heap := do
  let bp := ap - headerSize
  let p ← freeFind h bp fuel h.freep
  let h1 :=
    if offset bp (h.mem bp).size = (h.mem p).ptr then
      let ha := h.setSize bp ((h.mem bp).size + (h.mem (h.mem p).ptr).size)
      ha.setPtr bp (ha.mem (ha.mem p).ptr).ptr
    else h.setPtr bp (h.mem p).ptr
  let h2 :=
    if offset p (h1.mem p).size = bp then
      let hb := h1.setSize p ((h1.mem p).size + (h1.mem bp).size)
      hb.setPtr p (hb.mem bp).ptr
    else h1.setPtr p bp
  some { h2 with freep := p }

/-- `nu * sizeof(Header)` as the `int` that `sbrk` takes: the product is formed in 64 bits and
converted to `int`. -/
def sbrkArg (nu : UInt32) : Int32 := Int32.ofNat (nu.toUInt64 * headerSize).toNat

/-- `morecore(nu)`: at least `4096` headers from `sbrk`, handed to `free`; the result is `freep`,
or `0`. -/
def morecore (fuel : Nat) (h : Heap) (nu : UInt32) : Option (Heap × UInt64) :=
  let nu := if nu < 4096 then 4096 else nu
  match sysSbrk grows h.brk (sbrkArg nu) with
  | (none, _) => some (h, 0)
  | (some p, sz) => do
    let h' ← free fuel ({ h with brk := sz }.setSize p nu) (p + headerSize)
    some (h', h'.freep)

/-- `nunits`: the request in headers, one more for the header itself. The sum is formed in 64
bits, as `sizeof` makes it, and stored in a `uint`. -/
def nunits (nbytes : UInt32) : UInt32 :=
  ((nbytes.toUInt64 + headerSize - 1) / headerSize + 1).toUInt32

/-- The loop of `malloc` from `prevp` and `p = prevp->s.ptr`: the first block that fits is taken
whole, or split from its tail; after a full turn `morecore` adds a block. -/
def mallocLoop (nu : UInt32) : Nat → Heap → UInt64 → UInt64 → Option (Heap × UInt64)
  | 0, _, _, _ => none
  | fuel + 1, h, prevp, p =>
    if (h.mem p).size ≥ nu then
      if (h.mem p).size = nu then
        some ({ h.setPtr prevp (h.mem p).ptr with freep := prevp }, p + headerSize)
      else
        let h1 := h.setSize p ((h.mem p).size - nu)
        let q := offset p (h1.mem p).size
        some ({ h1.setSize q nu with freep := prevp }, q + headerSize)
    else if p = h.freep then
      match morecore grows fuel h nu with
      | none => none
      | some (h', q) =>
        if q = 0 then some (h', 0) else mallocLoop nu fuel h' q (h'.mem q).ptr
    else mallocLoop nu fuel h p (h.mem p).ptr

/-- `malloc(nbytes)`: the allocator's state after the call and the pointer returned, `0` when
`sbrk` fails. The first call makes `base` a list of one empty block. -/
def malloc (fuel : Nat) (h : Heap) (nbytes : UInt32) : Option (Heap × UInt64) :=
  let h0 :=
    if h.freep = 0 then { h.setPtr base base with freep := base }.setSize base 0 else h
  mallocLoop grows (nunits nbytes) fuel h0 h0.freep (h0.mem h0.freep).ptr

end

/-! ## Sizes -/

/-- `malloc`'s unit count is exact: the 64-bit sum does not wrap, and the quotient fits a `uint`. -/
theorem nunits_toNat (nbytes : UInt32) :
    (nunits nbytes).toNat = (nbytes.toNat + 15) / 16 + 1 := by
  have hlt := nbytes.toNat_lt
  have h16 : headerSize.toNat = 16 := rfl
  have hsum : (nbytes.toUInt64 + headerSize - 1).toNat = nbytes.toNat + 15 := by
    simp only [UInt64.toNat_sub, UInt64.toNat_add, UInt32.toNat_toUInt64, h16,
      UInt64.toNat_one]
    omega
  simp only [nunits, UInt64.toNat_toUInt32, UInt64.toNat_add, UInt64.toNat_div, hsum, h16,
    UInt64.toNat_one]
  omega

/-- The block `malloc` asks for leaves room for the request after its header. -/
theorem nunits_usable (nbytes : UInt32) :
    nbytes.toNat ≤ ((nunits nbytes).toNat - 1) * 16 := by
  rw [nunits_toNat]
  omega

/-- `morecore` hands `sbrk` the byte count of its block exactly when that count is below
`2^31`; from there on the `int` wraps, to a negative count, to `0`, or to a small one. -/
theorem sbrkArg_toInt_iff (nu : UInt32) :
    (sbrkArg nu).toInt = nu.toNat * 16 ↔ nu.toNat * 16 < 2 ^ 31 := by
  have hlt := nu.toNat_lt
  have hprod : (nu.toUInt64 * headerSize).toNat = nu.toNat * 16 := by
    have h16 : headerSize.toNat = 16 := rfl
    simp only [UInt64.toNat_mul, UInt32.toNat_toUInt64, h16]
    omega
  have hsize : (Int32.size : Int) = 2 ^ 32 := rfl
  rw [sbrkArg, hprod, Int32.toInt_ofNat', Int.bmod_def, hsize]
  split <;> omega

/-! ## Requests past `2^31` bytes -/

/-- Two requests on a fresh heap whose `base` is at `0x1000` and whose break is at `0x4800`, inside
the page `0x4000` that the process size maps whole. For `2^32 - 16` bytes `morecore` wants `2^28`
headers, which the `int` makes `sbrk(0)`; for `2^31` bytes it wants `2^27 + 1`, which the `int` makes
negative, and `uvmdealloc` leaves the size alone since the 64-bit sum is above it. Either way `sbrk`
returns the old break without moving it; `morecore` and `free` write the header at `0x4800`, on the
mapped page, and `malloc` hands out the block it recorded there: a pointer past the break, to a
block that runs far beyond the last mapped page `0x5000`. -/
theorem malloc_beyond_break :
    (malloc 0x1000 true 4 ⟨fun _ => ⟨0, 0⟩, 0, 0x4800⟩ 0xFFFFFFF0).map
        (fun r => (r.2, r.1.brk, (r.1.mem (r.2 - headerSize)).size)) =
      some (0x4810, 0x4800, 0x10000000) ∧
    (malloc 0x1000 true 4 ⟨fun _ => ⟨0, 0⟩, 0, 0x4800⟩ 0x80000000).map
        (fun r => (r.2, r.1.brk, (r.1.mem (r.2 - headerSize)).size)) =
      some (0x4810, 0x4800, 0x8000001) := by
  constructor <;> decide

end Xv6.Umalloc
