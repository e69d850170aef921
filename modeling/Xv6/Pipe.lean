import Mathlib

/-!
# Pipes (`pipe.c`)

`struct pipe` with its 32-bit counters, and `pipewrite` and `piperead` as the source computes
them while they hold `pi->lock`. A section ends when the caller returns or goes to sleep; a
sleeping `pipewrite` is resumed by calling it again with the bytes it has written so far, which is
what the source's `while` loop does after `sleep` returns.

User memory is what `copyin` and `copyout` see of it: `src a` is the byte a user address holds, or
`none` when `copyin` of it fails; `dst a` says whether `copyout` to it succeeds.

* `pipewrite`, `piperead`;
* `pipewrite_ends`, `piperead_ends` : a section leaves both ends as they were;
* `piperead_copyout_fault_drops_byte` : `piperead` advances `nread` before its `copyout`, so a byte
  whose `copyout` fails leaves the pipe without being counted in any return value.
-/

namespace Xv6

/-- `PIPESIZE` -/
def pipeSize : Nat := 512

/-- `struct pipe`, its lock apart. -/
structure Pipe where
  data : Fin pipeSize → UInt8
  nread : UInt32
  nwrite : UInt32
  readopen : Bool
  writeopen : Bool

/-- The pipe as `pipealloc` sets it up, in a page that `kalloc` filled with junk. -/
def pipeInit : Pipe := ⟨fun _ => 5, 0, 0, true, true⟩

/-- The slot of a counter value: `n % PIPESIZE`. -/
def slot (n : UInt32) : Fin pipeSize := ⟨n.toNat % pipeSize, Nat.mod_lt _ (by decide)⟩

/-- How a section of `pipewrite` ends: it returns, or sleeps on a full pipe having written `i`
bytes. -/
inductive WriteEnd where
  | ret (r : Int)
  | sleep (i : Nat)
  deriving DecidableEq, Repr

/-- The loop of `pipewrite` from byte `i` with `k = n - i` bytes to go. -/
def pipewriteLoop (src : Nat → Option UInt8) (addr : Nat) (killed : Bool) :
    Nat → Pipe → Nat → Pipe × WriteEnd
  | 0, p, i => (p, .ret i)
  | k + 1, p, i =>
    if !p.readopen || killed then (p, .ret (-1))
    else if p.nwrite = p.nread + 512 then (p, .sleep i)
    else
      match src (addr + i) with
      | none => (p, .ret i)
      | some ch =>
        pipewriteLoop src addr killed k
          { p with data := Function.update p.data (slot p.nwrite) ch, nwrite := p.nwrite + 1 } (i + 1)

/-- `pipewrite(pi, addr, n)`, entered or resumed with `i` bytes written. -/
def pipewrite (src : Nat → Option UInt8) (addr : Nat) (n : Int) (killed : Bool) (p : Pipe) (i : Nat) :
    Pipe × WriteEnd :=
  pipewriteLoop src addr killed (n - i).toNat p i

/-- How `piperead` ends: it returns `r`, having copied the bytes `out` to the reader, or sleeps on an
empty pipe. -/
inductive ReadEnd where
  | ret (r : Int) (out : List UInt8)
  | sleep
  deriving DecidableEq, Repr

/-- The copying loop of `piperead` from byte `i` with `k = n - i` bytes to go. -/
def pipereadCopy (dst : Nat → Bool) (addr : Nat) : Nat → Pipe → Nat → List UInt8 → Pipe × Nat × List UInt8
  | 0, p, i, out => (p, i, out)
  | k + 1, p, i, out =>
    if p.nread = p.nwrite then (p, i, out)
    else
      -- `ch = pi->data[pi->nread++ % PIPESIZE]` comes before the `copyout`
      let ch := p.data (slot p.nread)
      let p' := { p with nread := p.nread + 1 }
      if dst (addr + i) then pipereadCopy dst addr k p' (i + 1) (out ++ [ch]) else (p', i, out)

/-- `piperead(pi, addr, n)`. -/
def piperead (dst : Nat → Bool) (addr : Nat) (n : Int) (killed : Bool) (p : Pipe) : Pipe × ReadEnd :=
  if p.nread = p.nwrite && p.writeopen then
    if killed then (p, .ret (-1) []) else (p, .sleep)
  else
    let r := pipereadCopy dst addr n.toNat p 0 []
    (r.1, .ret r.2.1 r.2.2)

/-! ## The ends a section leaves open

A section moves bytes and counters only: `pipeclose` alone closes an end. -/

theorem pipewriteLoop_ends (src : Nat → Option UInt8) (addr : Nat) (killed : Bool) :
    ∀ (k : Nat) (p : Pipe) (i : Nat), (pipewriteLoop src addr killed k p i).1.readopen = p.readopen ∧
      (pipewriteLoop src addr killed k p i).1.writeopen = p.writeopen
  | 0, _, _ => ⟨rfl, rfl⟩
  | k + 1, p, i => by
    unfold pipewriteLoop
    split
    · exact ⟨rfl, rfl⟩
    split
    · exact ⟨rfl, rfl⟩
    split
    · exact ⟨rfl, rfl⟩
    · exact pipewriteLoop_ends src addr killed k _ (i + 1)

theorem pipewrite_ends (src : Nat → Option UInt8) (addr : Nat) (n : Int) (killed : Bool) (p : Pipe)
    (i : Nat) : (pipewrite src addr n killed p i).1.readopen = p.readopen ∧
      (pipewrite src addr n killed p i).1.writeopen = p.writeopen :=
  pipewriteLoop_ends src addr killed _ p i

theorem pipereadCopy_ends (dst : Nat → Bool) (addr : Nat) :
    ∀ (k : Nat) (p : Pipe) (i : Nat) (out : List UInt8), (pipereadCopy dst addr k p i out).1.readopen = p.readopen ∧
      (pipereadCopy dst addr k p i out).1.writeopen = p.writeopen
  | 0, _, _, _ => ⟨rfl, rfl⟩
  | k + 1, p, i, out => by
    unfold pipereadCopy
    split
    · exact ⟨rfl, rfl⟩
    split
    · exact pipereadCopy_ends dst addr k _ (i + 1) _
    · exact ⟨rfl, rfl⟩

theorem piperead_ends (dst : Nat → Bool) (addr : Nat) (n : Int) (killed : Bool) (p : Pipe) :
    (piperead dst addr n killed p).1.readopen = p.readopen ∧ (piperead dst addr n killed p).1.writeopen = p.writeopen := by
  unfold piperead
  split
  · split <;> exact ⟨rfl, rfl⟩
  · exact pipereadCopy_ends dst addr _ p 0 []

/-- The user buffer `"ab"` at address 0. -/
def abSrc (a : Nat) : Option UInt8 := if a = 0 then some 97 else if a = 1 then some 98 else none

/-- A writer's `"ab"` is accepted whole; a read of one byte into an unmapped buffer returns 0, and the
next read returns `"b"`: the `'a'` is delivered by no call, though the writer was told it was
accepted. -/
theorem piperead_copyout_fault_drops_byte :
    (pipewrite abSrc 0 2 false pipeInit 0).2 = .ret 2 ∧
    (piperead (fun _ => false) 0 1 false (pipewrite abSrc 0 2 false pipeInit 0).1).2 = .ret 0 [] ∧
    (piperead (fun _ => true) 0 1 false
      (piperead (fun _ => false) 0 1 false (pipewrite abSrc 0 2 false pipeInit 0).1).1).2 = .ret 1 [98] ∧
    ¬ [98] <+: ([97, 98] : List UInt8) := by
  decide

end Xv6
