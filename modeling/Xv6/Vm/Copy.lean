import Xv6.Lib.Bytes

/-!
# Copying to and from a process (`vm.c`: `copyin`, `copyout`; `proc.c`: `either_copyin`, `either_copyout`)

An address space as the copies see it through a page table: for each page, whether `walkaddr`
finds it (a valid user page below `MAXVA`) and whether it is writable as well, and the byte at each
virtual address.

* `copyin`, `copyout` : page by page, stopping at the first page the check refuses; what was
  already copied stays copied;
* `copyin_of_readable`, `copyout_of_writable` : over pages that pass the check, the copies are
  `readBytes` and `writeBytes`.
-/

namespace Xv6

open Bytes

/-- `PGSIZE` -/
def pgSize : Nat := 4096

/-- `PGROUNDDOWN(a)` -/
def pgRoundDown (a : Nat) : Nat := a - a % pgSize

/-- An address space as `copyin` and `copyout` see it. -/
structure Mem where
  /-- `walkaddr(pagetable, va0) != 0` for the page at `va0` -/
  user : Nat → Bool
  /-- what `copyout` checks: the page is found and `PTE_W` is set -/
  writable : Nat → Bool
  data : Nat → UInt8

/-- The loop of `copyin`: the bytes moved to `dst`, and whether it returned `0`. Each turn copies
what is left of one page; `fuel` bounds the turns. -/
def copyinLoop (m : Mem) : Nat → Nat → Nat → List UInt8 × Bool
  | 0, _, _ => ([], true)
  | fuel + 1, srcva, len =>
    if len > 0 then
      if m.user (pgRoundDown srcva) then
        let n := min (pgSize - (srcva - pgRoundDown srcva)) len
        let r := copyinLoop m fuel (pgRoundDown srcva + pgSize) (len - n)
        (readBytes m.data srcva n ++ r.1, r.2)
      else ([], false)
    else ([], true)

/-- `copyin(pagetable, dst, srcva, len)`: each turn moves at least one byte, so `len` turns are
enough. -/
def copyin (m : Mem) (srcva len : Nat) : List UInt8 × Bool := copyinLoop m len srcva len

/-- The loop of `copyout`, with the `len` bytes still to copy from `src`. -/
def copyoutLoop : Nat → Mem → Nat → List UInt8 → Mem × Bool
  | 0, m, _, _ => (m, true)
  | fuel + 1, m, dstva, src =>
    if src.length > 0 then
      if m.writable (pgRoundDown dstva) then
        let n := min (pgSize - (dstva - pgRoundDown dstva)) src.length
        copyoutLoop fuel { m with data := writeBytes m.data dstva (src.take n) }
          (pgRoundDown dstva + pgSize) (src.drop n)
      else (m, false)
    else (m, true)

/-- `copyout(pagetable, dstva, src, len)` -/
def copyout (m : Mem) (dstva : Nat) (src : List UInt8) : Mem × Bool :=
  copyoutLoop src.length m dstva src

/-- `either_copyin(dst, user_src, src, len)`: from the process through its page table, or from
kernel memory by `memmove`. -/
def eitherCopyin (m : Mem) (user_src : Bool) (src len : Nat) : List UInt8 × Bool :=
  if user_src then copyin m src len else (readBytes m.data src len, true)

/-- `either_copyout(user_dst, dst, src, len)` -/
def eitherCopyout (m : Mem) (user_dst : Bool) (dst : Nat) (src : List UInt8) : Mem × Bool :=
  if user_dst then copyout m dst src else ({ m with data := writeBytes m.data dst src }, true)

/-- Every page of `[a, a + len)` passes `copyin`'s check. -/
def Readable (m : Mem) (a len : Nat) : Prop := ∀ k < len, m.user (pgRoundDown (a + k)) = true

/-- Every page of `[a, a + len)` passes `copyout`'s check. -/
def Writable (m : Mem) (a len : Nat) : Prop := ∀ k < len, m.writable (pgRoundDown (a + k)) = true

/-! ## One page at a time -/

/-- A turn moves at least one byte. -/
theorem chunk_pos {a len : Nat} (h : 0 < len) : 0 < min (pgSize - (a - pgRoundDown a)) len := by
  unfold pgRoundDown pgSize
  have := Nat.mod_lt a (show 0 < 4096 by decide)
  omega

/-- A turn that does not finish the copy ends at the page boundary, where the next turn starts. -/
theorem next_page {a len : Nat} (h : min (pgSize - (a - pgRoundDown a)) len < len) :
    pgRoundDown a + pgSize = a + min (pgSize - (a - pgRoundDown a)) len := by
  unfold pgRoundDown pgSize at *
  have := Nat.mod_lt a (show 0 < 4096 by decide)
  omega

theorem copyinLoop_of_readable (m : Mem) :
    ∀ fuel a len, len ≤ fuel → Readable m a len → copyinLoop m fuel a len = (readBytes m.data a len, true)
  | 0, a, len, hf, _ => by
    obtain rfl : len = 0 := by omega
    rfl
  | fuel + 1, a, len, hf, hr => by
    by_cases hlen : 0 < len
    · have hpage : m.user (pgRoundDown a) = true := by simpa using hr 0 hlen
      simp only [copyinLoop, if_pos hlen, hpage, if_true]
      have hpos := chunk_pos (a := a) hlen
      have hnext := @next_page a len
      have hle := Nat.min_le_right (pgSize - (a - pgRoundDown a)) len
      generalize min (pgSize - (a - pgRoundDown a)) len = n at hpos hnext hle ⊢
      -- the rest starts at the next page, and is empty when this page held all of it
      have hrest : Readable m (pgRoundDown a + pgSize) (len - n) := by
        intro k hk
        rw [hnext (by omega)]
        simpa [Nat.add_assoc] using hr (n + k) (by omega)
      have hread : readBytes m.data (pgRoundDown a + pgSize) (len - n) =
          readBytes m.data (a + n) (len - n) := by
        by_cases hlt : n < len
        · rw [hnext hlt]
        · rw [show len - n = 0 by omega]
          rfl
      rw [copyinLoop_of_readable m fuel _ _ (by omega) hrest, hread, ← readBytes_add,
        Nat.add_sub_cancel' (by omega : n ≤ len)]
    · obtain rfl : len = 0 := by omega
      simp [copyinLoop, readBytes]

/-- Within the page of `a`, addresses share its page start. -/
theorem pgRoundDown_add {a k : Nat} (hk : k < pgSize - (a - pgRoundDown a)) : pgRoundDown (a + k) = pgRoundDown a := by
  unfold pgRoundDown pgSize at *
  omega

/-- `copyin` returns `0` only over readable pages. -/
theorem readable_of_copyinLoop (m : Mem) :
    ∀ fuel a len, len ≤ fuel → (copyinLoop m fuel a len).2 = true → Readable m a len
  | 0, a, len, hf, _ => by
    intro k hk
    omega
  | fuel + 1, a, len, hf, h => by
    by_cases hlen : 0 < len
    · by_cases hpage : m.user (pgRoundDown a) = true
      · simp only [copyinLoop, if_pos hlen, hpage, if_true] at h
        have hpos := chunk_pos (a := a) hlen
        have hnext := @next_page a len
        have hle := Nat.min_le_right (pgSize - (a - pgRoundDown a)) len
        have hpg := Nat.min_le_left (pgSize - (a - pgRoundDown a)) len
        generalize min (pgSize - (a - pgRoundDown a)) len = n at hpos hnext hle hpg h
        have hrest := readable_of_copyinLoop m fuel _ _ (by omega) h
        intro k hk
        by_cases hkn : k < n
        · -- the first page
          rw [pgRoundDown_add (by omega)]
          exact hpage
        · -- the rest, from the next page on
          have hk' := hrest (k - n) (by omega)
          rwa [hnext (by omega), Nat.add_assoc, Nat.add_sub_cancel' (by omega)] at hk'
      · simp [copyinLoop, hlen, hpage] at h
    · intro k hk
      omega

/-- `copyin` over readable pages copies the bytes and returns `0`. -/
theorem copyin_of_readable {m : Mem} {a len : Nat} (hr : Readable m a len) :
    copyin m a len = (readBytes m.data a len, true) :=
  copyinLoop_of_readable m len a len le_rfl hr

theorem copyin_snd_iff {m : Mem} {a len : Nat} : (copyin m a len).2 = true ↔ Readable m a len := by
  constructor
  · exact readable_of_copyinLoop m len a len le_rfl
  · intro hr
    rw [copyin_of_readable hr]

theorem copyoutLoop_of_writable :
    ∀ fuel (m : Mem) a (src : List UInt8), src.length ≤ fuel → Writable m a src.length →
      copyoutLoop fuel m a src = ({ m with data := writeBytes m.data a src }, true)
  | 0, m, a, src, hf, _ => by
    obtain rfl : src = [] := List.eq_nil_of_length_eq_zero (by omega)
    simp [copyoutLoop]
  | fuel + 1, m, a, src, hf, hw => by
    by_cases hlen : 0 < src.length
    · have hpage : m.writable (pgRoundDown a) = true := by simpa using hw 0 hlen
      simp only [copyoutLoop, if_pos hlen, hpage, if_true]
      have hpos := chunk_pos (a := a) hlen
      have hnext := @next_page a src.length
      have hle := Nat.min_le_right (pgSize - (a - pgRoundDown a)) src.length
      generalize min (pgSize - (a - pgRoundDown a)) src.length = n at hpos hnext hle ⊢
      have hrest : Writable { m with data := writeBytes m.data a (src.take n) }
          (pgRoundDown a + pgSize) (src.drop n).length := by
        intro k hk
        rw [List.length_drop] at hk
        rw [hnext (by omega)]
        simpa [Nat.add_assoc] using hw (n + k) (by omega)
      rw [copyoutLoop_of_writable fuel _ _ _ (by simp; omega) hrest]
      by_cases hlt : n < src.length
      · -- the two pieces, at `a` and at the next page, make the whole write
        have hsplit : writeBytes (writeBytes m.data a (src.take n)) (a + n) (src.drop n) =
            writeBytes m.data a src := by
          conv_rhs => rw [← List.take_append_drop n src]
          rw [writeBytes_append, List.length_take, Nat.min_eq_left hlt.le]
        rw [hnext hlt, hsplit]
      · rw [List.drop_eq_nil_of_le (by omega), List.take_of_length_le (by omega), writeBytes_nil]
    · obtain rfl : src = [] := List.eq_nil_of_length_eq_zero (by omega)
      simp [copyoutLoop]

/-- `copyout` over writable pages writes the bytes and returns `0`. -/
theorem copyout_of_writable {m : Mem} {a : Nat} {src : List UInt8} (hw : Writable m a src.length) :
    copyout m a src = ({ m with data := writeBytes m.data a src }, true) :=
  copyoutLoop_of_writable src.length m a src le_rfl hw

theorem eitherCopyin_spec {m : Mem} {user_src : Bool} {a len : Nat}
    (hr : user_src = true → Readable m a len) :
    eitherCopyin m user_src a len = (readBytes m.data a len, true) := by
  cases user_src with
  | false => rfl
  | true => exact copyin_of_readable (hr rfl)

theorem eitherCopyout_spec {m : Mem} {user_dst : Bool} {a : Nat} {src : List UInt8}
    (hw : user_dst = true → Writable m a src.length) :
    eitherCopyout m user_dst a src = ({ m with data := writeBytes m.data a src }, true) := by
  cases user_dst with
  | false => rfl
  | true => exact copyout_of_writable (hw rfl)

end Xv6
