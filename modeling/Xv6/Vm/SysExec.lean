import Mathlib
import Xv6.Vm.Exec

/-!
# `sys_exec` (`sysfile.c`), with `fetchaddr` and `fetchstr` (`syscall.c`)

`sys_exec` copies the path and the caller's argument vector into the kernel before `exec` replaces
the image: `argv[i]` is read with `fetchaddr` at `uargv + 8 * i` until a `0`, and each string it
points to is copied by `fetchstr` into a page of its own from `kalloc`. Whatever happens, with
`exec` or at `bad`, the pages are given back by `kfree`, from `argv[0]` up to the first `0`.

The caller's memory is the model of `Xv6.Vm.Translate`, the allocator the `Kmem` of
`Xv6.Vm.PageTree`. The strings `fetchstr` copies into the pages are carried as lists, which is all
`exec` reads of them; `exec` itself is a parameter, a function of the allocator, the path and the
strings.

* `fetchaddr_eq_some`, `fetchstr_eq_some` : what the two fetches read;
* `ArgvAt` : the caller's `argv[]`, in its memory, holds given strings and ends in `0`;
* `fetchArgs` : the loop; `fetchArgs_sound` (the strings it gets are the caller's, fewer than
  `MAXARG`, and the pages it holds are the head of the free list), `fetchArgs_reads` and
  `fetchArgs_ok_iff` (it gets every argument vector of fewer than `MAXARG` strings that fit in a
  page each, when there are pages for them);
* `freeArgv_ok` : the loop of `kfree`s gives the pages back, last first;
* `sysExec_frees_argv` : `sys_exec` never panics and leaks no page, on every path;
* `sysExec_argv_main` : the strings of the caller's `argv[]` are the ones `exec` puts on the stack
  of the new image.
-/

namespace Xv6.Vm

open Bytes

/-! ## The model -/

/-- `fetchaddr(addr, ip)` in a process of size `sz`: the doubleword at `addr`, which `copyin` reads
when its eight bytes lie below `sz`; `none` is `-1`. -/
def fetchaddr (pt : PageTable) (pmem : Nat → UInt8) (sz addr : UInt64) : Option UInt64 :=
  -- both tests needed, in case of overflow
  if addr ≥ sz ∨ addr + 8 > sz then none
  else
    let r := copyin pt pmem addr 8
    if r.1 ≠ 0 then none else some (getLE (fun k => r.2.getD k 0) 0 8).toUInt64

/-- `fetchstr(addr, buf, max)`: the string `copyinstr` leaves in `buf`, without its NUL (its
length is what `fetchstr` returns); `none` is `-1`. -/
def fetchstr (pt : PageTable) (pmem : Nat → UInt8) (addr max : UInt64) : Option (List UInt8) :=
  let r := copyinstr pt pmem addr max
  if r.1 < 0 then none else some r.2.dropLast

/-- Where the loop of `sys_exec` stops: the allocator, the pages of `argv[]` before its first `0`,
the strings copied into them, and whether it got to `break` (`true`) or to `bad` (`false`). -/
structure Fetched where
  kmem : Kmem
  pages : List UInt64
  strs : List (List UInt8)
  ok : Bool

/-- The loop of `sys_exec` from `argv[i]`, with the pages `kalloc` gave so far and the strings in
them. A `fetchaddr` that fails, `MAXARG` pointers, no free page or a `fetchstr` that fails is `goto
bad`; a page that `fetchstr` fails on stays in `argv[i]`. -/
def fetchArgs (pt : PageTable) (pmem : Nat → UInt8) (sz uargv : UInt64) :
    Nat → Nat → Kmem → List UInt64 → List (List UInt8) → Fetched
  | 0, _, m, pages, strs => ⟨m, pages, strs, false⟩
  | fuel + 1, i, m, pages, strs =>
    if i ≥ maxArg then ⟨m, pages, strs, false⟩
    else
      match fetchaddr pt pmem sz (uargv + 8 * i.toUInt64) with
      | none => ⟨m, pages, strs, false⟩
      | some uarg =>
        if uarg = 0 then ⟨m, pages, strs, true⟩
        else
          let (m, pa) := kalloc m
          if pa = 0 then ⟨m, pages, strs, false⟩
          else
            match fetchstr pt pmem uarg pgSize with
            | none => ⟨m, pages ++ [pa], strs, false⟩
            | some s => fetchArgs pt pmem sz uargv fuel (i + 1) m (pages ++ [pa]) (strs ++ [s])

/-- `for(i = 0; i < NELEM(argv) && argv[i] != 0; i++) kfree(argv[i])`, over `argv[i..]`. -/
def freeArgv : List UInt64 → Kmem → Except String Kmem
  | [], m => .ok m
  | pa :: argv, m =>
    if pa = 0 then .ok m
    else do
      let m ← kfree m pa
      freeArgv argv m

/-- `sys_exec()`, with `a0` the path and `a1` the argument vector: the new allocator and what it
returns. `exec` gets the allocator, the path and the strings, and answers with the allocator it
leaves and its own answer. `argv[]` is the pages of the loop, then the `0`s of the `memset`. -/
def sysExec (exec : Kmem → List UInt8 → List (List UInt8) → Kmem × Int) (pt : PageTable)
    (pmem : Nat → UInt8) (sz a0 a1 : UInt64) (m : Kmem) : Except String (Kmem × Int) :=
  match fetchstr pt pmem a0 maxPath.toUInt64 with
  | none => .ok (m, -1)
  | some path =>
    let f := fetchArgs pt pmem sz a1 (maxArg + 1) 0 m [] []
    let argv := f.pages ++ List.replicate (maxArg - f.pages.length) 0
    if f.ok then do
      let (m, ret) := exec f.kmem path f.strs
      let m ← freeArgv argv m
      pure (m, ret)
    else do
      let m ← freeArgv argv f.kmem
      pure (m, -1)

/-! ## The two fetches -/

/-- The eight bytes at `a` lie below `sz`, on pages `walkaddr` accepts. -/
def WordIn (pt : PageTable) (sz a : UInt64) : Prop :=
  a.toNat + 8 ≤ sz.toNat ∧ ∀ k < 8, pt.readable (a.toNat + k) = true

/-- `fetchaddr`'s two tests refuse exactly the words that do not end below `sz`, for a size at
least eight below `2 ^ 64`: the second catches what wraps around. -/
theorem fetchaddr_bounds {sz addr : UInt64} (hsz : sz.toNat + 8 ≤ 2 ^ 64) :
    (addr ≥ sz ∨ addr + 8 > sz) ↔ sz.toNat < addr.toNat + 8 := by
  have h8 : (8 : UInt64).toNat = 8 := rfl
  have hlt := addr.toNat_lt
  rw [ge_iff_le, gt_iff_lt, UInt64.le_iff_toNat_le, UInt64.lt_iff_toNat_lt, UInt64.toNat_add, h8]
  omega

section Fetch
variable {pt : PageTable} {pmem : Nat → UInt8}

/-- The doubleword of the eight bytes `copyin` copies is the one memory holds at `addr`. -/
theorem copyin_word {addr : UInt64} (h : (copyin pt pmem addr 8).1 = 0) :
    getLE (fun k => (copyin pt pmem addr 8).2.getD k 0) 0 8 = getLE (pt.mem pmem).data addr.toNat 8 := by
  have hbytes := (copyin_spec pt pmem addr 8).2.2 h
  apply getLE_congr
  intro k hk
  have hk' : k < ((List.range (8 : UInt64).toNat).map fun j => pmem (pt.translate (addr.toNat + j))).length := by
    simpa using hk
  rw [hbytes, Nat.zero_add, List.getD_eq_getElem _ _ hk', List.getElem_map, List.getElem_range]
  rfl

/-- `fetchaddr` answers with `v` exactly when the word at `addr` lies below `sz` on readable pages
and holds `v`. -/
theorem fetchaddr_eq_some {sz addr v : UInt64} (hsz : sz.toNat + 8 ≤ 2 ^ 64) :
    fetchaddr pt pmem sz addr = some v ↔ WordIn pt sz addr ∧ v.toNat = getLE (pt.mem pmem).data addr.toNat 8 := by
  have hread := (copyin_spec pt pmem addr 8).1
  have h8 : (8 : UInt64).toNat = 8 := rfl
  rw [h8] at hread
  unfold fetchaddr WordIn
  by_cases hb : addr ≥ sz ∨ addr + 8 > sz
  · have hout := (fetchaddr_bounds hsz).mp hb
    rw [if_pos hb]
    constructor
    · intro h
      cases h
    · intro h
      omega
  · have hle : addr.toNat + 8 ≤ sz.toNat := by
      have := (fetchaddr_bounds hsz).not.mp hb
      omega
    rw [if_neg hb]
    by_cases hc : (copyin pt pmem addr 8).1 = 0
    · have hword := getLE_lt (fun k => (copyin pt pmem addr 8).2.getD k 0) 0 8
      dsimp only
      rw [if_neg (not_not.mpr hc), Option.some.injEq, copyin_word hc] at *
      constructor
      · rintro rfl
        refine ⟨⟨hle, hread.mp hc⟩, ?_⟩
        rw [UInt64.toNat_ofNat', Nat.mod_eq_of_lt hword]
      · rintro ⟨-, hv⟩
        apply UInt64.toNat_inj.mp
        rw [hv, UInt64.toNat_ofNat', Nat.mod_eq_of_lt hword]
    · dsimp only
      rw [if_pos hc]
      constructor
      · intro h
        cases h
      · rintro ⟨⟨-, hr⟩, -⟩
        exact absurd (hread.mpr hr) hc

/-- `fetchstr` answers with `s` exactly when the string at `addr` is `s` and its NUL, within `max`
bytes on readable pages. -/
theorem fetchstr_eq_some {addr max : UInt64} {s : List UInt8} :
    fetchstr pt pmem addr max = some s ↔ pt.strAt pmem addr.toNat max.toNat = some (s ++ [0]) := by
  have hloop := copyinstrLoop_strAt pt pmem max.toNat addr max [] le_rfl
  cases hs : pt.strAt pmem addr.toNat max.toNat with
  | some str =>
    have hc : copyinstr pt pmem addr max = (0, str) := by
      rw [copyinstr, hloop.1 str hs, List.nil_append]
    obtain ⟨k, -, -, -, -, hstr⟩ := (strAt_eq_some pt pmem _ _ _).mp hs
    rw [fetchstr, hc]
    simp only [lt_self_iff_false, if_false, Option.some.injEq]
    constructor
    · rintro rfl
      rw [hstr, List.dropLast_concat]
    · intro h
      rw [h, List.dropLast_concat]
  | none =>
    have hc : (copyinstr pt pmem addr max).1 = -1 := hloop.2 hs
    rw [fetchstr, hc]
    simp

/-- A string `strAt` finds within `max` bytes is shorter than `max`. -/
theorem length_lt_of_strAt {a max : Nat} {s : List UInt8} (h : pt.strAt pmem a max = some (s ++ [0])) :
    s.length < max := by
  obtain ⟨k, hk, -, -, -, hstr⟩ := (strAt_eq_some pt pmem _ _ _).mp h
  have hs : s = (List.range k).map fun j => pmem (pt.translate (a + j)) := List.append_inj_left' hstr rfl
  rw [hs, List.length_map, List.length_range]
  exact hk

end Fetch

/-! ## The caller's argument vector -/

/-- The `i`-th pointer of the caller's `argv[]`: the doubleword at `uargv + 8 * i`. -/
def argPtr (pt : PageTable) (pmem : Nat → UInt8) (uargv : UInt64) (i : Nat) : Nat :=
  getLE (pt.mem pmem).data (uargv + 8 * i.toUInt64).toNat 8

/-- The first pointers of the caller's `argv[]` point to the strings `strs`: each lies below `sz`
on readable pages, is not `0`, and points to its string and the NUL within a page's bytes. -/
structure ArgsAt (pt : PageTable) (pmem : Nat → UInt8) (sz uargv : UInt64) (strs : List (List UInt8)) :
    Prop where
  words : ∀ i < strs.length, WordIn pt sz (uargv + 8 * i.toUInt64)
  ptrs : ∀ i < strs.length, argPtr pt pmem uargv i ≠ 0
  args : ∀ i (h : i < strs.length), pt.strAt pmem (argPtr pt pmem uargv i) 4096 = some (strs[i] ++ [0])

/-- The caller's `argv[]` is the strings `strs`, then a `0` that also lies below `sz`. -/
structure ArgvAt (pt : PageTable) (pmem : Nat → UInt8) (sz uargv : UInt64) (strs : List (List UInt8)) : Prop
    extends ArgsAt pt pmem sz uargv strs where
  end_word : WordIn pt sz (uargv + 8 * strs.length.toUInt64)
  last : argPtr pt pmem uargv strs.length = 0

section Argv
variable {pt : PageTable} {pmem : Nat → UInt8} {sz uargv : UInt64}

theorem ArgsAt.nil : ArgsAt pt pmem sz uargv [] where
  words _ h := absurd h (Nat.not_lt_zero _)
  ptrs _ h := absurd h (Nat.not_lt_zero _)
  args _ h := absurd h (Nat.not_lt_zero _)

/-- One more pointer, not `0`, to one more string. -/
theorem ArgsAt.snoc {strs : List (List UInt8)} {s : List UInt8} (h : ArgsAt pt pmem sz uargv strs)
    (hw : WordIn pt sz (uargv + 8 * strs.length.toUInt64)) (hp : argPtr pt pmem uargv strs.length ≠ 0)
    (hs : pt.strAt pmem (argPtr pt pmem uargv strs.length) 4096 = some (s ++ [0])) :
    ArgsAt pt pmem sz uargv (strs ++ [s]) where
  words i hi := by
    rw [List.length_append, List.length_singleton] at hi
    rcases Nat.lt_succ_iff_lt_or_eq.mp hi with hi | rfl
    · exact h.words i hi
    · exact hw
  ptrs i hi := by
    rw [List.length_append, List.length_singleton] at hi
    rcases Nat.lt_succ_iff_lt_or_eq.mp hi with hi | rfl
    · exact h.ptrs i hi
    · exact hp
  args i hi := by
    rw [List.length_append, List.length_singleton] at hi
    rcases Nat.lt_succ_iff_lt_or_eq.mp hi with hi' | rfl
    · rw [List.getElem_append_left hi']
      exact h.args i hi'
    · rw [List.getElem_concat_length rfl]
      exact hs

/-- The strings of the caller's `argv[]` are shorter than a page. -/
theorem ArgsAt.length_lt {strs : List (List UInt8)} (h : ArgsAt pt pmem sz uargv strs) :
    ∀ s ∈ strs, s.length < 4096 := by
  intro s hs
  obtain ⟨i, hi, rfl⟩ := List.getElem_of_mem hs
  exact length_lt_of_strAt (h.args i hi)

end Argv

/-! ## The loop -/

/-- What `freerange` leaves and `kfree` keeps: `end` above `0`, and every free page one that
`kfree` takes (aligned, between `end` and `PHYSTOP`). -/
structure FreeRange (m : Kmem) : Prop where
  kend_pos : 0 < m.kend
  free : ∀ x ∈ m.freelist, x % pgSize = 0 ∧ m.kend ≤ x ∧ x < phystop

/-- A page `kfree` takes is not `0`. -/
theorem FreeRange.ne_zero {m : Kmem} (hm : FreeRange m) {x : UInt64} (hx : x ∈ m.freelist) : x ≠ 0 := by
  intro h0
  have hle := (hm.free x hx).2.1
  rw [h0, UInt64.le_iff_toNat_le] at hle
  have hpos := UInt64.lt_iff_toNat_lt.mp hm.kend_pos
  exact absurd hle (by simp only [UInt64.toNat_zero] at hpos ⊢; omega)

@[simp] theorem kalloc_kend (m : Kmem) : (kalloc m).1.kend = m.kend := by
  unfold kalloc
  split <;> rfl

theorem kalloc_freelist {m : Kmem} {p : UInt64} {rest : List UInt64} (h : m.freelist = p :: rest) :
    (kalloc m).1.freelist = rest ∧ (kalloc m).2 = p := by
  rw [kalloc_cons h]
  exact ⟨rfl, rfl⟩

section Turn
variable (pt : PageTable) (pmem : Nat → UInt8) (sz uargv : UInt64)

/-- What one turn of the loop does: it stops at `bad`; or it finds `argv[i] = 0` and breaks; or,
with `argv[i]` not `0` and a page `p` at the head of the free list, it stops at `bad` if `p` is
`0`, stops at `bad` with `p` in `argv[i]` if `fetchstr` fails, or goes on to `argv[i + 1]`. -/
theorem fetchArgs_succ (fuel i : Nat) (m : Kmem) (pages : List UInt64) (strs : List (List UInt8)) :
    fetchArgs pt pmem sz uargv (fuel + 1) i m pages strs = ⟨m, pages, strs, false⟩ ∨
      (i < maxArg ∧ fetchaddr pt pmem sz (uargv + 8 * i.toUInt64) = some 0 ∧
        fetchArgs pt pmem sz uargv (fuel + 1) i m pages strs = ⟨m, pages, strs, true⟩) ∨
      ∃ uarg p rest, i < maxArg ∧ fetchaddr pt pmem sz (uargv + 8 * i.toUInt64) = some uarg ∧ uarg ≠ 0 ∧
        m.freelist = p :: rest ∧
        (p = 0 ∧ fetchArgs pt pmem sz uargv (fuel + 1) i m pages strs = ⟨(kalloc m).1, pages, strs, false⟩ ∨
          p ≠ 0 ∧
            (fetchArgs pt pmem sz uargv (fuel + 1) i m pages strs = ⟨(kalloc m).1, pages ++ [p], strs, false⟩ ∨
              ∃ s, fetchstr pt pmem uarg pgSize = some s ∧
                fetchArgs pt pmem sz uargv (fuel + 1) i m pages strs =
                  fetchArgs pt pmem sz uargv fuel (i + 1) (kalloc m).1 (pages ++ [p]) (strs ++ [s]))) := by
  rw [fetchArgs]
  by_cases hi : i ≥ maxArg
  · exact .inl (if_pos hi)
  rw [if_neg hi]
  have hi' : i < maxArg := Nat.lt_of_not_ge hi
  cases ha : fetchaddr pt pmem sz (uargv + 8 * i.toUInt64) with
  | none => exact .inl rfl
  | some uarg =>
    by_cases h0 : uarg = 0
    · subst h0
      exact .inr (.inl ⟨hi', rfl, if_pos rfl⟩)
    dsimp only
    rw [if_neg h0]
    cases hfl : m.freelist with
    | nil =>
      left
      simp [kalloc, hfl]
    | cons p rest =>
      obtain ⟨hrest, hp⟩ := kalloc_freelist hfl
      refine .inr (.inr ⟨uarg, p, rest, hi', rfl, h0, rfl, ?_⟩)
      rw [← hp]
      by_cases hp0 : (kalloc m).2 = 0
      · exact .inl ⟨hp0, if_pos hp0⟩
      refine .inr ⟨hp0, ?_⟩
      rw [if_neg hp0]
      cases hs : fetchstr pt pmem uarg pgSize with
      | none => exact .inl rfl
      | some s => exact .inr ⟨s, rfl, rfl⟩

end Turn

/-- What the loop keeps at `argv[i]`, from the allocator `m0`: the free list it started with is the
`i` pages it holds, then the free list now; `end` is unchanged; `i` strings, and `i` at most
`MAXARG`. -/
structure Fetching (m0 : Kmem) (i : Nat) (m : Kmem) (pages : List UInt64) (strs : List (List UInt8)) :
    Prop where
  split : m0.freelist = pages ++ m.freelist
  kend : m.kend = m0.kend
  pages_length : pages.length = i
  strs_length : strs.length = i
  le_max : i ≤ maxArg

/-- What the loop leaves, from the allocator `m0`: the free list it started with is the pages in
`argv[]`, then the free list it leaves; `end` is unchanged; at most `MAXARG` pages, and on `break`
fewer, with one string for each. -/
structure Takes (m0 : Kmem) (f : Fetched) : Prop where
  split : m0.freelist = f.pages ++ f.kmem.freelist
  kend : f.kmem.kend = m0.kend
  le_max : f.pages.length ≤ maxArg
  ok : f.ok = true → f.strs.length = f.pages.length ∧ f.pages.length < maxArg

section Loop
variable {pt : PageTable} {pmem : Nat → UInt8} {sz uargv : UInt64} {m0 m : Kmem} {i : Nat}
  {pages : List UInt64} {strs : List (List UInt8)}

theorem Fetching.start (m0 : Kmem) : Fetching m0 0 m0 [] [] where
  split := rfl
  kend := rfl
  pages_length := rfl
  strs_length := rfl
  le_max := Nat.zero_le _

/-- A stop at `bad` keeps what the loop held, whatever strings it had. -/
theorem Fetching.bad (h : Fetching m0 i m pages strs) (strs' : List (List UInt8)) :
    Takes m0 ⟨m, pages, strs', false⟩ where
  split := h.split
  kend := h.kend
  le_max := h.pages_length ▸ h.le_max
  ok := by
    intro hok
    cases hok

/-- A page from the head of the free list joins `argv[]`. -/
theorem Fetching.alloc (h : Fetching m0 i m pages strs) (hi : i < maxArg) {p : UInt64} {rest : List UInt64}
    (hfl : m.freelist = p :: rest) (s : List UInt8) :
    Fetching m0 (i + 1) (kalloc m).1 (pages ++ [p]) (strs ++ [s]) where
  split := by rw [h.split, hfl, (kalloc_freelist hfl).1, List.append_assoc, List.singleton_append]
  kend := by rw [kalloc_kend, h.kend]
  pages_length := by rw [List.length_append, h.pages_length, List.length_singleton]
  strs_length := by rw [List.length_append, h.strs_length, List.length_singleton]
  le_max := hi

/-- The loop holds the first pages of the free list in `argv[]`, and leaves the rest. -/
theorem fetchArgs_takes (hm : FreeRange m0) :
    ∀ fuel i m pages strs, Fetching m0 i m pages strs → Takes m0 (fetchArgs pt pmem sz uargv fuel i m pages strs)
  | 0, _, _, _, strs, h => h.bad strs
  | fuel + 1, i, m, pages, strs, h => by
    rcases fetchArgs_succ pt pmem sz uargv fuel i m pages strs with
      hbad | ⟨hi, -, hdone⟩ | ⟨uarg, p, rest, hi, -, -, hfl, hp⟩
    · rw [hbad]
      exact h.bad strs
    · rw [hdone]
      exact ⟨h.split, h.kend, h.pages_length ▸ h.le_max,
        fun _ => ⟨h.strs_length.trans h.pages_length.symm, h.pages_length ▸ hi⟩⟩
    -- the page at the head of the free list is not `0`
    have hp0 : p ≠ 0 := by
      apply hm.ne_zero
      rw [h.split, hfl]
      exact List.mem_append_right _ List.mem_cons_self
    rcases hp with ⟨hp0', -⟩ | ⟨-, hstop | ⟨s, -, hnext⟩⟩
    · exact absurd hp0' hp0
    · rw [hstop]
      exact (h.alloc hi hfl []).bad strs
    · rw [hnext]
      exact fetchArgs_takes hm fuel (i + 1) _ _ _ (h.alloc hi hfl s)

/-- On `break`, the strings the loop copied are the caller's argument vector, and its `0`. -/
theorem fetchArgs_sound (hsz : sz.toNat + 8 ≤ 2 ^ 64) :
    ∀ fuel i m pages strs, strs.length = i → ArgsAt pt pmem sz uargv strs →
      (fetchArgs pt pmem sz uargv fuel i m pages strs).ok = true →
      ArgvAt pt pmem sz uargv (fetchArgs pt pmem sz uargv fuel i m pages strs).strs
  | 0, _, _, _, _, _, _, hok => by cases hok
  | fuel + 1, i, m, pages, strs, hi, ha, hok => by
    rcases fetchArgs_succ pt pmem sz uargv fuel i m pages strs with
      hbad | ⟨-, hword, hdone⟩ | ⟨uarg, p, rest, -, hword, h0, -, hp⟩
    · rw [hbad] at hok
      cases hok
    · obtain ⟨hw, hv⟩ := (fetchaddr_eq_some hsz).mp hword
      subst hi
      rw [hdone]
      exact { ha with end_word := hw, last := hv.symm }
    rcases hp with ⟨-, hstop⟩ | ⟨-, hstop | ⟨s, hs, hnext⟩⟩
    · rw [hstop] at hok
      cases hok
    · rw [hstop] at hok
      cases hok
    -- `argv[i]` points to the string `fetchstr` copied
    obtain ⟨hw, hv⟩ := (fetchaddr_eq_some hsz).mp hword
    subst hi
    have hptr : argPtr pt pmem uargv strs.length = uarg.toNat := hv.symm
    have hnz : argPtr pt pmem uargv strs.length ≠ 0 := by
      rw [hptr]
      intro h
      exact h0 (UInt64.toNat_inj.mp h)
    rw [hnext] at hok ⊢
    exact fetchArgs_sound hsz fuel _ _ _ _ (by rw [List.length_append, List.length_singleton])
      (ha.snoc hw hnz (by rw [hptr]; exact fetchstr_eq_some.mp hs)) hok

/-- From `argv[i]` on, the loop copies the rest of an argument vector of fewer than `MAXARG`
strings, each within a page, taking a page for each from the head of the free list. -/
theorem fetchArgs_reads (hsz : sz.toNat + 8 ≤ 2 ^ 64) (hargv : ArgvAt pt pmem sz uargv strs)
    (hn : strs.length < maxArg) :
    ∀ k fuel i m pages, i + k = strs.length → k < fuel → k ≤ m.freelist.length → (0 : UInt64) ∉ m.freelist →
      ∃ m', fetchArgs pt pmem sz uargv fuel i m pages (strs.take i) = ⟨m', pages ++ m.freelist.take k, strs, true⟩ ∧
        m'.freelist = m.freelist.drop k
  | _, 0, _, _, _, _, hf, _, _ => absurd hf (Nat.not_lt_zero _)
  | 0, fuel + 1, i, m, pages, hik, _, _, _ => by
    -- `argv[argc]` is the `0` that ends the vector
    have hi : i = strs.length := hik
    subst hi
    have hword : fetchaddr pt pmem sz (uargv + 8 * strs.length.toUInt64) = some 0 :=
      (fetchaddr_eq_some hsz).mpr ⟨hargv.end_word, hargv.last.symm⟩
    refine ⟨m, ?_, rfl⟩
    rw [fetchArgs, if_neg (Nat.not_le_of_lt hn), hword, List.take_length]
    simp
  | k + 1, fuel + 1, i, m, pages, hik, hf, hk, hz => by
    have hi : i < strs.length := by omega
    obtain ⟨p, rest, hfl⟩ : ∃ p rest, m.freelist = p :: rest := by
      cases hfl : m.freelist with
      | nil => rw [hfl, List.length_nil] at hk; omega
      | cons p rest => exact ⟨p, rest, rfl⟩
    have hp0 : p ≠ 0 := by
      intro h
      apply hz
      rw [hfl, h]
      exact List.mem_cons_self
    -- `argv[i]` points to the `i`-th string
    have hlt : argPtr pt pmem uargv i < 2 ^ 64 := getLE_lt _ _ 8
    have hptr : (argPtr pt pmem uargv i).toUInt64.toNat = argPtr pt pmem uargv i := by
      rw [UInt64.toNat_ofNat', Nat.mod_eq_of_lt hlt]
    have hword : fetchaddr pt pmem sz (uargv + 8 * i.toUInt64) = some (argPtr pt pmem uargv i).toUInt64 :=
      (fetchaddr_eq_some hsz).mpr ⟨hargv.words i hi, hptr⟩
    have hne : (argPtr pt pmem uargv i).toUInt64 ≠ 0 := by
      intro h
      apply hargv.ptrs i hi
      rw [← hptr, h]
      rfl
    have hs : fetchstr pt pmem (argPtr pt pmem uargv i).toUInt64 pgSize = some strs[i] := by
      rw [fetchstr_eq_some, hptr]
      exact hargv.args i hi
    rw [fetchArgs, if_neg (by omega), hword]
    dsimp only
    rw [if_neg hne, kalloc_cons hfl]
    dsimp only
    rw [if_neg hp0, hs]
    dsimp only
    rw [← List.take_succ_eq_append_getElem hi]
    obtain ⟨m', hrun, hfree⟩ := fetchArgs_reads hsz hargv hn k fuel (i + 1)
      ({ m with freelist := rest }.fill p 0x0505050505050505) (pages ++ [p]) (by omega) (by omega)
      (by show k ≤ rest.length; rw [hfl, List.length_cons] at hk; omega)
      (by show (0 : UInt64) ∉ rest; intro h; apply hz; rw [hfl]; exact List.mem_cons_of_mem _ h)
    refine ⟨m', ?_, ?_⟩
    · rw [hrun, hfl, List.take_succ_cons, List.append_assoc, List.singleton_append]
      rfl
    · rw [hfree, hfl, List.drop_succ_cons]
      rfl

/-- `sys_exec`'s loop gets to `exec` with the strings `strs` exactly when the caller's `argv[]` holds
them and then `0`, they are fewer than `MAXARG`, and the free list has a page for each. -/
theorem fetchArgs_ok_iff (hsz : sz.toNat + 8 ≤ 2 ^ 64) (hm : FreeRange m) (strs : List (List UInt8)) :
    ((fetchArgs pt pmem sz uargv (maxArg + 1) 0 m [] []).ok = true ∧
        (fetchArgs pt pmem sz uargv (maxArg + 1) 0 m [] []).strs = strs) ↔
      ArgvAt pt pmem sz uargv strs ∧ strs.length < maxArg ∧ strs.length ≤ m.freelist.length := by
  constructor
  · rintro ⟨hok, rfl⟩
    have ht : Takes m (fetchArgs pt pmem sz uargv (maxArg + 1) 0 m [] []) :=
      fetchArgs_takes hm _ 0 m [] [] (Fetching.start m)
    obtain ⟨hlen, hlt⟩ := ht.ok hok
    refine ⟨fetchArgs_sound hsz _ 0 m [] [] rfl ArgsAt.nil hok, hlen.trans_lt hlt, ?_⟩
    rw [hlen, ht.split, List.length_append]
    exact Nat.le_add_right _ _
  · rintro ⟨hargv, hn, hfree⟩
    obtain ⟨m', hrun, -⟩ := fetchArgs_reads hsz hargv hn strs.length (maxArg + 1) 0 m [] (Nat.zero_add _)
      (Nat.lt_succ_of_lt hn) hfree (fun h => hm.ne_zero h rfl)
    rw [List.take_zero] at hrun
    rw [hrun]
    exact ⟨rfl, rfl⟩

/-- A caller whose `argv[]` at `0` is `{16, 0}`, with "hi" at `16`, all on one page mapped to
physical page 1, and one free page: the loop gets `{"hi"}`. -/
theorem fetchArgs_ok_iff_hi :
    ArgvAt ⟨fun k => if k = 0 then some 1047 else none⟩
        (fun a => if a = 4096 then 16 else if a = 4112 then 104 else if a = 4113 then 105 else 0) 4096 0
        [[104, 105]] ∧
      [[104, 105]].length < maxArg ∧ [[104, 105]].length ≤ (Kmem.mk (fun _ _ => 0) [0x80001000] 0x80000000).freelist.length :=
  (fetchArgs_ok_iff (m := Kmem.mk (fun _ _ => 0) [0x80001000] 0x80000000) (by decide)
    ⟨by decide, fun x hx => by simp only [List.mem_singleton] at hx; subst hx; decide⟩ [[104, 105]]).mp
    ⟨by decide, by decide⟩

end Loop

/-! ## Giving the pages back -/

/-- The loop of `kfree`s over `argv[]`, pages that are not `0` and that `kfree` takes, then `0`s,
pushes the pages on the free list in turn, the last on top; `end` is unchanged. -/
theorem freeArgv_ok (n : Nat) : ∀ (pages : List UInt64) (m : Kmem),
    (∀ x ∈ pages, x ≠ 0 ∧ x % pgSize = 0 ∧ m.kend ≤ x ∧ x < phystop) →
    ∃ m', freeArgv (pages ++ List.replicate n 0) m = .ok m' ∧ m'.freelist = pages.reverse ++ m.freelist ∧
      m'.kend = m.kend
  | [], m, _ => by
    refine ⟨m, ?_, rfl, rfl⟩
    cases n with
    | zero => rfl
    | succ n => rfl
  | p :: pages, m, h => by
    obtain ⟨hp0, hal, hlo, hhi⟩ := h p List.mem_cons_self
    obtain ⟨m', hrun, hfl, hkend⟩ := freeArgv_ok n pages
      { m.fill p 0x0101010101010101 with freelist := p :: m.freelist }
      (fun x hx => h x (List.mem_cons_of_mem _ hx))
    refine ⟨m', ?_, ?_, hkend⟩
    · rw [List.cons_append, freeArgv, if_neg hp0, kfree_ok hal hlo hhi]
      exact hrun
    · rw [hfl, List.reverse_cons, List.append_assoc, List.singleton_append]

/-- `sys_exec` never panics, and gives back every page it takes. When it does not get to `exec`, it
answers `-1` with the free list it started with, up to order. When it does, `exec` runs on an
allocator without the pages that hold the strings, fewer than `MAXARG`, and they come back on top
of the free list `exec` leaves. -/
theorem sysExec_frees_argv (exec : Kmem → List UInt8 → List (List UInt8) → Kmem × Int)
    (hexec : ∀ m path strs, (exec m path strs).1.kend = m.kend) (pt : PageTable) (pmem : Nat → UInt8)
    (sz a0 a1 : UInt64) {m : Kmem} (hm : FreeRange m) :
    (∃ m', sysExec exec pt pmem sz a0 a1 m = .ok (m', -1) ∧ m'.freelist.Perm m.freelist) ∨
      ∃ pages m1 path strs, pages.length < maxArg ∧ m.freelist = pages ++ m1.freelist ∧ m1.kend = m.kend ∧
        ∃ m', sysExec exec pt pmem sz a0 a1 m = .ok (m', (exec m1 path strs).2) ∧
          m'.freelist = pages.reverse ++ (exec m1 path strs).1.freelist := by
  cases hpath : fetchstr pt pmem a0 maxPath.toUInt64 with
  | none =>
    refine .inl ⟨m, ?_, List.Perm.refl _⟩
    rw [sysExec, hpath]
  | some path =>
    have ht : Takes m (fetchArgs pt pmem sz a1 (maxArg + 1) 0 m [] []) :=
      fetchArgs_takes hm _ 0 m [] [] (Fetching.start m)
    rw [sysExec, hpath]
    dsimp only
    generalize fetchArgs pt pmem sz a1 (maxArg + 1) 0 m [] [] = f at ht ⊢
    -- every page in `argv[]` came off the free list, so `kfree` takes it back
    have hpages : ∀ x ∈ f.pages, x ≠ 0 ∧ x % pgSize = 0 ∧ m.kend ≤ x ∧ x < phystop := by
      intro x hx
      have hx' : x ∈ m.freelist := by
        rw [ht.split]
        exact List.mem_append_left _ hx
      exact ⟨hm.ne_zero hx', hm.free x hx'⟩
    cases hok : f.ok with
    | false =>
      obtain ⟨m', hfree, hfl, -⟩ := freeArgv_ok (maxArg - f.pages.length) f.pages f.kmem
        (by rw [ht.kend]; exact hpages)
      refine .inl ⟨m', ?_, ?_⟩
      · rw [if_neg Bool.false_ne_true, hfree]
        rfl
      · rw [hfl, ht.split]
        exact (List.reverse_perm _).append_right _
    | true =>
      obtain ⟨-, hlt⟩ := ht.ok hok
      refine .inr ⟨f.pages, f.kmem, path, f.strs, hlt, ht.split, ht.kend, ?_⟩
      obtain ⟨m', hfree, hfl, -⟩ := freeArgv_ok (maxArg - f.pages.length) f.pages (exec f.kmem path f.strs).1
        (by rw [hexec, ht.kend]; exact hpages)
      refine ⟨m', ?_, hfl⟩
      rw [if_pos rfl]
      -- `let (m, ret) := exec ...`
      cases hx : exec f.kmem path f.strs with
      | mk m2 r =>
        rw [hx] at hfree
        dsimp only
        rw [hfree]
        rfl

/-- `exec("hi", {"hi"})` from the caller of `fetchArgs_ok_iff_hi`, with an `exec` that returns `0`
and leaves the allocator alone. -/
theorem sysExec_frees_argv_hi :
    (∃ m', sysExec (fun m _ _ => (m, 0)) ⟨fun k => if k = 0 then some 1047 else none⟩
        (fun a => if a = 4096 then 16 else if a = 4112 then 104 else if a = 4113 then 105 else 0) 4096 16 0
        (Kmem.mk (fun _ _ => 0) [0x80001000] 0x80000000) = .ok (m', -1) ∧ m'.freelist.Perm [0x80001000]) ∨
      ∃ (pages : List UInt64) (m1 : Kmem) (_ : List UInt8) (_ : List (List UInt8)), pages.length < maxArg ∧
        [0x80001000] = pages ++ m1.freelist ∧ m1.kend = 0x80000000 ∧
        ∃ m', sysExec (fun m _ _ => (m, 0)) ⟨fun k => if k = 0 then some 1047 else none⟩
            (fun a => if a = 4096 then 16 else if a = 4112 then 104 else if a = 4113 then 105 else 0) 4096 16 0
            (Kmem.mk (fun _ _ => 0) [0x80001000] 0x80000000) = .ok (m', 0) ∧
          m'.freelist = pages.reverse ++ m1.freelist :=
  sysExec_frees_argv (fun m _ _ => (m, 0)) (fun _ _ _ => rfl) _ _ 4096 16 0
    ⟨by decide, fun x hx => by simp only [List.mem_singleton] at hx; subst hx; decide⟩

/-! ## From the caller to `main` -/

/-- What the caller passes is what `main` gets. When `sys_exec`'s loop gets to `exec`, the strings it
copied are those of the caller's `argv[]`, each within a page, and fewer than `MAXARG`, so that
`ustack[argc]` lies in `exec`'s `ustack[MAXARG]`; and on a new image whose stack page they fit in,
`exec` lays out these same strings for `main`. -/
theorem sysExec_argv_main (pt : PageTable) (pmem : Nat → UInt8) (sz uargv : UInt64) {m : Kmem} {f : Fetched}
    (hsz : sz.toNat + 8 ≤ 2 ^ 64) (hm : FreeRange m)
    (hf : fetchArgs pt pmem sz uargv (maxArg + 1) 0 m [] [] = f) (hok : f.ok = true)
    (npt : PageTable) (npmem : Nat → UInt8) (nsz : UInt64) (hal : nsz.toNat % 4096 = 0)
    (h2 : 2 * 4096 ≤ nsz.toNat) (hguard : (npt.pte ((nsz.toNat - 2 * 4096) / 4096)).isSome)
    (hw : npt.writable (nsz.toNat - 4096) = true)
    (hfit : (f.strs.map (·.length + 16)).sum + 8 * (f.strs.length + 1) + 15 ≤ 4096) :
    ArgvAt pt pmem sz uargv f.strs ∧ f.strs.length < maxArg ∧
      ∃ sp npt' npmem', execStack npt npmem nsz f.strs = .ok (some (f.strs.length.toUInt64, sp, npt', npmem')) ∧
        Laid npt' npmem nsz.toNat f.strs sp npmem' := by
  subst hf
  have hargv := fetchArgs_sound hsz _ 0 m [] [] rfl ArgsAt.nil hok
  obtain ⟨hlen, hlt⟩ := (fetchArgs_takes hm _ 0 m [] [] (Fetching.start m)).ok hok
  have hn := hlen.trans_lt hlt
  exact ⟨hargv, hn, StackRoom.execStack_ok ⟨hal, h2, hguard, hw, hargv.toArgsAt.length_lt, hn.le, hfit⟩ npmem⟩

/-- The caller of `fetchArgs_ok_iff_hi`, and a new image of two pages, the stack page on physical
page 2: `main` gets `{"hi"}`. -/
theorem sysExec_argv_main_hi :
    ArgvAt ⟨fun k => if k = 0 then some 1047 else none⟩
        (fun a => if a = 4096 then 16 else if a = 4112 then 104 else if a = 4113 then 105 else 0) 4096 0
        [[104, 105]] ∧
      [[104, 105]].length < maxArg ∧
      ∃ sp npt' npmem', execStack ⟨fun k => if k = 0 then some 1047 else if k = 1 then some 2071 else none⟩
          (fun _ => 0) 8192 [[104, 105]] = .ok (some (1, sp, npt', npmem')) ∧
        Laid npt' (fun _ => 0) 8192 [[104, 105]] sp npmem' :=
  sysExec_argv_main _ _ 4096 0 (m := Kmem.mk (fun _ _ => 0) [0x80001000] 0x80000000)
    (f := ⟨(Kmem.mk (fun _ _ => 0) [] 0x80000000).fill 0x80001000 0x0505050505050505, [0x80001000], [[104, 105]],
      true⟩)
    (by decide) ⟨by decide, fun x hx => by simp only [List.mem_singleton] at hx; subst hx; decide⟩ rfl rfl
    _ _ 8192 (by decide) (by decide) (by decide) (by decide) (by decide)

end Xv6.Vm
