import Mathlib
import Xv6.Vm.Walk
import Xv6.Param

/-!
# The argument vector of `exec` (`exec.c`: the user stack; `sysfile.c`: `sys_exec`; `syscall.c`:
`fetchaddr`, `fetchstr`)

`sys_exec` reads the caller's `argv[]` one pointer at a time with `fetchaddr`, copies each string
into a page of its own from `kalloc` with `fetchstr`, calls `exec`, and frees the pages whatever
`exec` answered. `exec` lays the strings out on the new image's one stack page, from its top
down, each pushed below the last and the stack pointer put back on a 16-byte boundary; then the
array of their addresses ending in `0`, which `main(argc, argv)` finds at `a1`. Memory is the
model of `Xv6.Vm.Translate`: a page table read as the PTE of each virtual page, and physical
memory by bytes.

* `uvmclear`, `pushArg`, `pushArgs`, `pushUstack`, `execStack` : lines 89 to 128 of `exec`, from
  the image's size `sz` after the stack's `uvmalloc`;
* `Pushed` : what the strings pushed so far leave on the stack page; `Pushed.push` for one more,
  `pushArgs_spec` for the loop;
* `StackRoom` : what `exec` needs of the new image and the strings;
* `execStack_spec` : on a writable stack page, with the strings short enough to fit, the stack
  reads back as the argument vector: `argv[i]` at `sp + 8 * i` points to the `i`-th string and its
  NUL, `argv[argc]` is `0`, and no byte outside the page's used part changes;
* `execStack_too_big` : strings that do not fit in the page make `exec` fail.
-/

namespace Xv6.Vm

open Bytes

/-! ## The stack of the new image -/

/-- `uvmclear(pagetable, va)`: `PTE_U` cleared in the PTE of the page of `va`, which makes it the
stack's guard page; a page that `walk` does not reach panics. -/
def uvmclear (pt : PageTable) (va : UInt64) : Except String PageTable :=
  match pt.walk va with
  | none => .error "uvmclear"
  | some pte => .ok ⟨Function.update pt.pte (va.toNat / 4096) (some (pte &&& ~~~pteU))⟩

/-- The kernel page `argv[argc]` as `copyout` reads it: the string, then its NUL. -/
def strByte (s : List UInt8) (k : Nat) : UInt8 := s.getD k 0

/-- One turn of `for(argc = 0; argv[argc]; argc++)`: `sp -= strlen(argv[argc]) + 1`,
`sp -= sp % 16`, the check against `stackbase`, and the `copyout` of the string with its NUL.
`none` is `goto bad`. -/
def pushArg (pt : PageTable) (stackbase sp : UInt64) (pmem : Nat → UInt8) (arg : List UInt8) :
    Option (UInt64 × (Nat → UInt8)) :=
  let sp := sp - (arg.length + 1).toUInt64
  let sp := sp - sp % 16
  if sp < stackbase then none
  else
    let r := copyout pt pmem sp (strByte arg) (arg.length + 1).toUInt64
    if r.1 < 0 then none else some (sp, r.2)

/-- The loop that pushes the strings, with `ustack[0..argc)` so far; `argc` is its length. -/
def pushArgs (pt : PageTable) (stackbase : UInt64) :
    List (List UInt8) → UInt64 → (Nat → UInt8) → List UInt64 → Option (UInt64 × (Nat → UInt8) × List UInt64)
  | [], sp, pmem, ustack => some (sp, pmem, ustack)
  | arg :: argv, sp, pmem, ustack =>
    if ustack.length ≥ maxArg then none
    else
      match pushArg pt stackbase sp pmem arg with
      | none => none
      | some (sp, pmem) => pushArgs pt stackbase argv sp pmem (ustack ++ [sp])

/-- `ustack[]` as `copyout` reads it: byte `k % 8` of the word `k / 8`, from the lowest. -/
def ustackByte (ustack : List UInt64) (k : Nat) : UInt8 := leByte (ustack.getD (k / 8) 0).toNat (k % 8)

/-- `ustack[argc] = 0`, then `sp -= (argc+1) * sizeof(uint64)`, `sp -= sp % 16`, the check against
`stackbase` and the `copyout` of the `argc + 1` pointers. -/
def pushUstack (pt : PageTable) (stackbase sp : UInt64) (pmem : Nat → UInt8) (ustack : List UInt64) :
    Option (UInt64 × (Nat → UInt8)) :=
  let argc := ustack.length.toUInt64
  let sp := sp - (argc + 1) * 8
  let sp := sp - sp % 16
  if sp < stackbase then none
  else
    let r := copyout pt pmem sp (ustackByte (ustack ++ [0])) ((argc + 1) * 8)
    if r.1 < 0 then none else some (sp, r.2)

/-- `exec` from `uvmclear` to `p->trapframe->a1 = sp`, on the image of size `sz` that the stack's
`uvmalloc` left: `argc`, `sp`, the page table and physical memory, or `none` for `goto bad`. -/
def execStack (pt : PageTable) (pmem : Nat → UInt8) (sz : UInt64) (argv : List (List UInt8)) :
    Except String (Option (UInt64 × UInt64 × PageTable × (Nat → UInt8))) := do
  let pt ← uvmclear pt (sz - (userStack + 1).toUInt64 * pgSize)
  let sp := sz
  let stackbase := sp - userStack.toUInt64 * pgSize
  match pushArgs pt stackbase argv sp pmem [] with
  | none => pure none
  | some (sp, pmem, ustack) =>
    match pushUstack pt stackbase sp pmem ustack with
    | none => pure none
    | some (sp, pmem) => pure (some (ustack.length.toUInt64, sp, pt, pmem))

/-! ## The arithmetic of a push -/

theorem sub_toNat {x : UInt64} {n : Nat} (h : n ≤ x.toNat) : (x - n.toUInt64).toNat = x.toNat - n := by
  have hn : n % 2 ^ 64 = n := Nat.mod_eq_of_lt (Nat.lt_of_le_of_lt h x.toNat_lt)
  have hle : n.toUInt64 ≤ x := by
    rw [UInt64.le_iff_toNat_le, UInt64.toNat_ofNat', hn]
    exact h
  rw [UInt64.toNat_sub_of_le _ _ hle, UInt64.toNat_ofNat', hn]

theorem round16_toNat (t : UInt64) : (t - t % 16).toNat = t.toNat - t.toNat % 16 := by
  have hle : t % 16 ≤ t := by
    rw [UInt64.le_iff_toNat_le, UInt64.toNat_mod]
    exact Nat.mod_le _ _
  rw [UInt64.toNat_sub_of_le _ _ hle, UInt64.toNat_mod]
  rfl

/-- A push of `d` bytes from `sp`, with no wrap: the new `sp` is 16-byte aligned, and lies at least
`d` and at most `d + 15` bytes below. -/
theorem push_toNat (sp d : UInt64) (h : d.toNat ≤ sp.toNat) :
    (sp - d - (sp - d) % 16).toNat % 16 = 0 ∧ (sp - d - (sp - d) % 16).toNat + d.toNat ≤ sp.toNat ∧
      sp.toNat ≤ (sp - d - (sp - d) % 16).toNat + d.toNat + 15 := by
  have ht : (sp - d).toNat = sp.toNat - d.toNat := UInt64.toNat_sub_of_le _ _ (UInt64.le_iff_toNat_le.mpr h)
  rw [round16_toNat, ht]
  omega

/-- `strlen(s) + 1` as a `uint64`, for a string shorter than a page. -/
theorem strlen_toNat {s : List UInt8} (h : s.length < 4096) : ((s.length + 1).toUInt64).toNat = s.length + 1 := by
  rw [UInt64.toNat_ofNat']
  exact Nat.mod_eq_of_lt (by omega)

/-- `(argc+1) * sizeof(uint64)` as a `uint64`, for `argc` at most `MAXARG`. -/
theorem argv_size_toNat {ustack : List UInt64} (h : ustack.length ≤ maxArg) :
    ((ustack.length.toUInt64 + 1) * 8).toNat = (ustack.length + 1) * 8 := by
  unfold maxArg at h
  rw [UInt64.toNat_mul, UInt64.toNat_add, UInt64.toNat_ofNat']
  simp only [UInt64.toNat_one, show UInt64.toNat 8 = 8 from rfl]
  rw [Nat.mod_eq_of_lt (a := ustack.length) (by omega), Nat.mod_eq_of_lt (by omega), Nat.mod_eq_of_lt (by omega)]

/-! ## A page of the new image -/

section Page

variable {pt : PageTable}

theorem pte_of_writable {p : Nat} (hw : pt.writable p = true) : ∃ pte, pt.pte (p / 4096) = some pte := by
  unfold PageTable.writable at hw
  split at hw
  · next pte h => exact ⟨pte, (pteAt_eq_some pt h).2⟩
  · cases hw

/-- An address of the page at `p` is writable when the page is. -/
theorem writable_of_page {p a : Nat} (hp : p % 4096 = 0) (h1 : p ≤ a) (h2 : a < p + 4096)
    (hw : pt.writable p = true) : pt.writable a = true := by
  have h := writable_add pt (a := p) (k := a - p) (by omega)
  rw [show p + (a - p) = a by omega] at h
  rw [h, hw]

/-- Two addresses of one mapped page translate to two addresses. -/
theorem translate_inj {a b : Nat} {pte : UInt64} (hab : a / 4096 = b / 4096) (hm : pt.pte (a / 4096) = some pte)
    (h : pt.translate a = pt.translate b) : a = b := by
  have ha : pt.translate a = (pte2pa pte).toNat + a % 4096 := by
    unfold PageTable.translate
    rw [hm]
  have hb : pt.translate b = (pte2pa pte).toNat + b % 4096 := by
    unfold PageTable.translate
    rw [← hab, hm]
  rw [ha, hb] at h
  omega

/-- A `copyout` within the writable page at `p` succeeds, writes each byte where it reads back,
and changes no byte outside the translations of its range. -/
theorem copyout_page {p : Nat} (hp : p % 4096 = 0) (hw : pt.writable p = true) (pmem src : Nat → UInt8)
    (va len : UInt64) (h1 : p ≤ va.toNat) (h2 : va.toNat + len.toNat ≤ p + 4096) :
    (copyout pt pmem va src len).1 = 0 ∧
      (∀ k < len.toNat, (copyout pt pmem va src len).2 (pt.translate (va.toNat + k)) = src k) ∧
      ∀ x, (∀ k < len.toNat, pt.translate (va.toNat + k) ≠ x) → (copyout pt pmem va src len).2 x = pmem x := by
  obtain ⟨pte, hpte⟩ := pte_of_writable hw
  obtain ⟨hout, -, hwrite⟩ := copyout_spec pt src pmem va len
  have hok : (copyout pt pmem va src len).1 = 0 :=
    hout.mpr fun k hk => writable_of_page hp (by omega) (by omega) hw
  refine ⟨hok, fun k hk => ?_, fun x hx => ?_⟩
  · have hinj : ∀ i < len.toNat, ∀ j < len.toNat, pt.translate (va.toNat + i) = pt.translate (va.toNat + j) → i = j := by
      intro i hi j hj e
      have hpi : (va.toNat + i) / 4096 = p / 4096 := by omega
      have hpj : (va.toNat + j) / 4096 = p / 4096 := by omega
      have := translate_inj (by rw [hpi, hpj]) (by rw [hpi]; exact hpte) e
      omega
    rw [hwrite hok, writeSeq_translate pt src pmem va.toNat 0 len.toNat hinj k hk, Nat.zero_add]
  · rw [hwrite hok]
    exact writeSeq_of_ne pt src pmem va.toNat 0 len.toNat hx

end Page

/-- `uvmclear` of a page that `walk` reaches changes that page's PTE alone. -/
theorem uvmclear_eq {pt : PageTable} (va : UInt64) (h : (pt.pte (va.toNat / 4096)).isSome) :
    ∃ pt', uvmclear pt va = .ok pt' ∧ ∀ n, n ≠ va.toNat / 4096 → pt'.pte n = pt.pte n := by
  obtain ⟨pte, hpte⟩ := Option.isSome_iff_exists.mp h
  refine ⟨⟨Function.update pt.pte (va.toNat / 4096) (some (pte &&& ~~~pteU))⟩, ?_, fun n hn => Function.update_of_ne hn _ _⟩
  rw [uvmclear, PageTable.walk, hpte]

theorem writable_congr {pt pt' : PageTable} {a : Nat} (h : pt'.pte (a / 4096) = pt.pte (a / 4096)) :
    pt'.writable a = pt.writable a := by
  simp only [PageTable.writable, PageTable.pteAt, h]

/-! ## The strings on the stack -/

/-- The string `s` and its NUL at `q`, as the process reads them through `pt`. -/
def StrAt (pt : PageTable) (pmem : Nat → UInt8) (q : Nat) (s : List UInt8) : Prop :=
  ∀ k ≤ s.length, pmem (pt.translate (q + k)) = strByte s k

/-- What the pushes of the strings `done` leave on the stack page that ends at `top`: `sp` aligned
below `top`, the `i`-th string with its NUL at `ustack[i]` between `sp` and `top`, and physical
memory as it was outside the translations of `[sp, top)`. -/
structure Pushed (pt : PageTable) (pmem0 : Nat → UInt8) (top : Nat) (done : List (List UInt8))
    (sp : UInt64) (pmem : Nat → UInt8) (ustack : List UInt64) : Prop where
  aligned : sp.toNat % 16 = 0
  le_top : sp.toNat ≤ top
  length : ustack.length = done.length
  strs : ∀ i < done.length, sp.toNat ≤ (ustack.getD i 0).toNat ∧
    (ustack.getD i 0).toNat + (done.getD i []).length < top ∧ StrAt pt pmem (ustack.getD i 0).toNat (done.getD i [])
  frame : ∀ x, (∀ a, sp.toNat ≤ a → a < top → pt.translate a ≠ x) → pmem x = pmem0 x

/-- `sp = sz`: nothing pushed yet. -/
theorem Pushed.start (pt : PageTable) (pmem0 : Nat → UInt8) {sz : UInt64} (h16 : sz.toNat % 16 = 0) :
    Pushed pt pmem0 sz.toNat [] sz pmem0 [] where
  aligned := h16
  le_top := le_rfl
  length := rfl
  strs := fun i hi => absurd hi (Nat.not_lt_zero i)
  frame := fun _ _ => rfl

section Push

variable {pt : PageTable} {pmem0 : Nat → UInt8} {top : Nat} {stackbase : UInt64}
  (hbase : stackbase.toNat = top - 4096) (hal : top % 4096 = 0) (h2 : 2 * 4096 ≤ top)
  (hw : pt.writable (top - 4096) = true)

include hal hw in
/-- Two addresses of the stack page translate to two addresses. -/
theorem stack_translate_ne {a b : Nat} (ha : top - 4096 ≤ a) (ha' : a < top) (hb : top - 4096 ≤ b) (hb' : b < top)
    (hne : a ≠ b) : pt.translate a ≠ pt.translate b := by
  obtain ⟨pte, hpte⟩ := pte_of_writable hw
  have hpa : a / 4096 = (top - 4096) / 4096 := by omega
  have hpb : b / 4096 = (top - 4096) / 4096 := by omega
  exact fun e => hne (translate_inj (by rw [hpa, hpb]) (by rw [hpa]; exact hpte) e)

include hbase hal h2 hw

/-- One more string: its push fits in the page, so it succeeds, the string reads back at the new
`sp`, and the strings pushed before stay where they were. -/
theorem Pushed.push {done : List (List UInt8)} {sp : UInt64} {pmem : Nat → UInt8} {ustack : List UInt64}
    (hp : Pushed pt pmem0 top done sp pmem ustack) {arg : List UInt8} (hlen : arg.length < 4096)
    (hfit : top - sp.toNat + arg.length + 16 ≤ 4096) :
    ∃ sp' pmem', pushArg pt stackbase sp pmem arg = some (sp', pmem') ∧ sp.toNat ≤ sp'.toNat + arg.length + 16 ∧
      Pushed pt pmem0 top (done ++ [arg]) sp' pmem' (ustack ++ [sp']) := by
  have hle := hp.le_top
  have hn : arg.length + 1 ≤ sp.toNat := by omega
  have hlen64 := strlen_toNat hlen
  obtain ⟨halign, hbelow, habove⟩ := push_toNat sp (arg.length + 1).toUInt64 (hlen64.trans_le hn)
  rw [hlen64] at hbelow habove
  generalize hsp : (sp - (arg.length + 1).toUInt64) - (sp - (arg.length + 1).toUInt64) % 16 = sp'
    at halign hbelow habove
  -- the new `sp` stays on the page
  have hge : ¬ sp' < stackbase := by
    rw [UInt64.lt_iff_toNat_lt, hbase]
    omega
  obtain ⟨hok, hread, hkeep⟩ := copyout_page (by omega) hw pmem (strByte arg) sp' (arg.length + 1).toUInt64
    (by omega) (by rw [hlen64]; omega)
  rw [hlen64] at hread hkeep
  refine ⟨sp', (copyout pt pmem sp' (strByte arg) (arg.length + 1).toUInt64).2, ?_, by omega, ?_⟩
  · rw [pushArg]
    dsimp only
    rw [hsp, if_neg hge, hok, if_neg (lt_irrefl 0)]
  · refine ⟨halign, by omega, by simp [hp.length], fun i hi => ?_, fun x hx => ?_⟩
    · rw [List.length_append, List.length_singleton] at hi
      by_cases hi' : i < done.length
      · -- a string pushed before: the new bytes lie below it
        rw [List.getD_append _ _ _ _ (by rw [hp.length]; exact hi'), List.getD_append _ _ _ _ hi']
        obtain ⟨hq, hqtop, hstr⟩ := hp.strs i hi'
        refine ⟨by omega, hqtop, fun k hk => ?_⟩
        rw [hkeep _ fun j hj => stack_translate_ne hal hw (by omega) (by omega) (by omega) (by omega) (by omega)]
        exact hstr k hk
      · -- the string just pushed
        have hieq : i = done.length := by omega
        subst hieq
        rw [List.getD_append_right _ _ _ _ (by rw [hp.length]), List.getD_append_right _ _ _ _ le_rfl, hp.length,
          Nat.sub_self, List.getD_cons_zero, List.getD_cons_zero]
        exact ⟨le_rfl, by omega, fun k hk => hread k (by omega)⟩
    · rw [hkeep x fun k hk => hx _ (by omega) (by omega)]
      exact hp.frame x fun a ha ha' => hx a (by omega) ha'

/-- The loop over the strings `rest`: with `argc` below `MAXARG` at each turn and room on the page
for every string, each push succeeds; `slack` is the room left for what comes after. -/
theorem pushArgs_spec : ∀ (rest done : List (List UInt8)) (sp : UInt64) (pmem : Nat → UInt8) (ustack : List UInt64),
    Pushed pt pmem0 top done sp pmem ustack → (∀ s ∈ rest, s.length < 4096) → done.length + rest.length ≤ maxArg →
    ∀ slack, top - sp.toNat + (rest.map (·.length + 16)).sum + slack ≤ 4096 →
    ∃ sp' pmem' ustack', pushArgs pt stackbase rest sp pmem ustack = some (sp', pmem', ustack') ∧
      top - sp'.toNat + slack ≤ 4096 ∧ Pushed pt pmem0 top (done ++ rest) sp' pmem' ustack'
  | [], done, sp, pmem, ustack, hp, _, _, slack, hfit =>
    ⟨sp, pmem, ustack, rfl, by simpa using hfit, by rw [List.append_nil]; exact hp⟩
  | arg :: rest, done, sp, pmem, ustack, hp, hlen, hn, slack, hfit => by
    rw [List.map_cons, List.sum_cons] at hfit
    rw [List.length_cons] at hn
    obtain ⟨sp1, pmem1, hstep, hsp1, hp1⟩ := hp.push hbase hal h2 hw (hlen arg List.mem_cons_self) (by omega)
    have hle1 := hp1.le_top
    obtain ⟨sp', pmem', ustack', hrun, hfit', hp'⟩ := pushArgs_spec rest (done ++ [arg]) sp1 pmem1 (ustack ++ [sp1])
      hp1 (fun s hs => hlen s (List.mem_cons_of_mem _ hs)) (by rw [List.length_append, List.length_singleton]; omega)
      slack (by omega)
    refine ⟨sp', pmem', ustack', ?_, hfit', by rw [List.append_cons]; exact hp'⟩
    rw [pushArgs, if_neg (by rw [hp.length]; omega), hstep]
    exact hrun

end Push

/-! ## The array of pointers -/

/-- The bytes of `ustack[]` read back: word `i` is `ustack[i]`. -/
theorem getLE_ustackByte (ustack : List UInt64) (i : Nat) : getLE (ustackByte ustack) (8 * i) 8 = (ustack.getD i 0).toNat := by
  have h : getLE (ustackByte ustack) (8 * i) 8 = getLE (leByte (ustack.getD i 0).toNat) 0 8 := by
    apply getLE_congr
    intro k hk
    rw [ustackByte, show (8 * i + k) / 8 = i by omega, show (8 * i + k) % 8 = k by omega, Nat.zero_add]
  rw [h, getLE_leByte, Nat.mul_zero, pow_zero, Nat.div_one]
  exact Nat.mod_eq_of_lt (UInt64.toNat_lt _)

/-- The stack `exec` hands to `main(argc, argv)`, as the process reads it through `pt`: at `sp`,
16-byte aligned and on the page below `top`, the words of `argv[]`, each pointing to its string and
NUL above `sp`, then a `0`; and physical memory as it was outside the translations of `[sp, top)`. -/
structure Laid (pt : PageTable) (pmem0 : Nat → UInt8) (top : Nat) (argv : List (List UInt8)) (sp : UInt64)
    (pmem : Nat → UInt8) : Prop where
  aligned : sp.toNat % 16 = 0
  base : top - 4096 ≤ sp.toNat
  args : ∀ i < argv.length, ∃ q, getLE (pt.mem pmem).data (sp.toNat + 8 * i) 8 = q ∧ sp.toNat ≤ q ∧
    q + (argv.getD i []).length < top ∧ readBytes (pt.mem pmem).data q ((argv.getD i []).length + 1) = argv.getD i [] ++ [0]
  last : getLE (pt.mem pmem).data (sp.toNat + 8 * argv.length) 8 = 0
  frame : ∀ x, (∀ a, sp.toNat ≤ a → a < top → pt.translate a ≠ x) → pmem x = pmem0 x

/-- A string read back byte by byte with its NUL. -/
theorem StrAt.readBytes {pt : PageTable} {pmem : Nat → UInt8} {q : Nat} {s : List UInt8} (h : StrAt pt pmem q s) :
    Bytes.readBytes (pt.mem pmem).data q (s.length + 1) = s ++ [0] := by
  apply List.ext_getElem (by simp)
  intro k hk _
  have hk' : k < s.length + 1 := by simpa using hk
  rw [getElem_readBytes]
  show pmem (pt.translate (q + k)) = _
  rw [h k (by omega), strByte, List.getElem_append]
  split
  · next hks => exact (List.getD_eq_getElem _ _ hks)
  · next hks =>
    rw [List.getD_eq_default _ _ (by omega)]
    simp [show k - s.length = 0 by omega]

section Array

variable {pt : PageTable} {pmem0 : Nat → UInt8} {top : Nat} {stackbase : UInt64}
  (hbase : stackbase.toNat = top - 4096) (hal : top % 4096 = 0) (h2 : 2 * 4096 ≤ top)
  (hw : pt.writable (top - 4096) = true)
include hbase hal h2 hw

/-- The push of `argv[]` after all the strings: with room for it, it succeeds and the stack is the
argument vector. -/
theorem Pushed.array {argv : List (List UInt8)} {sp : UInt64} {pmem : Nat → UInt8} {ustack : List UInt64}
    (hp : Pushed pt pmem0 top argv sp pmem ustack) (hn : argv.length ≤ maxArg)
    (hfit : top - sp.toNat + 8 * (argv.length + 1) + 15 ≤ 4096) :
    ∃ sp' pmem', pushUstack pt stackbase sp pmem ustack = some (sp', pmem') ∧ Laid pt pmem0 top argv sp' pmem' := by
  have hle := hp.le_top
  have hl := hp.length
  have hsize : ((ustack.length.toUInt64 + 1) * 8).toNat = (ustack.length + 1) * 8 := argv_size_toNat (by omega)
  obtain ⟨halign, hbelow, habove⟩ := push_toNat sp ((ustack.length.toUInt64 + 1) * 8) (by omega)
  generalize hsp : (sp - (ustack.length.toUInt64 + 1) * 8) - (sp - (ustack.length.toUInt64 + 1) * 8) % 16 = sp'
    at halign hbelow habove
  have hge : ¬ sp' < stackbase := by
    rw [UInt64.lt_iff_toNat_lt, hbase]
    omega
  obtain ⟨hok, hread, hkeep⟩ := copyout_page (by omega) hw pmem (ustackByte (ustack ++ [0])) sp'
    ((ustack.length.toUInt64 + 1) * 8) (by omega) (by omega)
  rw [hsize] at hread hkeep
  refine ⟨sp', (copyout pt pmem sp' (ustackByte (ustack ++ [0])) ((ustack.length.toUInt64 + 1) * 8)).2, ?_, ?_⟩
  · rw [pushUstack]
    dsimp only
    rw [hsp, if_neg hge, hok, if_neg (lt_irrefl 0)]
  -- the word `i` of the array, read through the page table
  have hword : ∀ i ≤ argv.length, getLE (pt.mem (copyout pt pmem sp' (ustackByte (ustack ++ [0]))
      ((ustack.length.toUInt64 + 1) * 8)).2).data (sp'.toNat + 8 * i) 8 = ((ustack ++ [0]).getD i 0).toNat := by
    intro i hi
    rw [← getLE_ustackByte]
    apply getLE_congr
    intro k hk
    rw [Nat.add_assoc]
    exact hread (8 * i + k) (by omega)
  refine ⟨halign, by omega, fun i hi => ?_, ?_, fun x hx => ?_⟩
  · obtain ⟨hq, hqtop, hstr⟩ := hp.strs i hi
    refine ⟨(ustack.getD i 0).toNat, ?_, by omega, hqtop, StrAt.readBytes fun k hk => ?_⟩
    · rw [hword i (by omega), List.getD_append _ _ _ _ (by rw [hp.length]; exact hi)]
    · rw [hkeep _ fun j hj => stack_translate_ne hal hw (by omega) (by omega) (by omega) (by omega) (by omega)]
      exact hstr k hk
  · rw [hword argv.length le_rfl, List.getD_append_right _ _ _ _ (by rw [hp.length]), hp.length, Nat.sub_self,
      List.getD_cons_zero]
    rfl
  · rw [hkeep x fun k hk => hx _ (by omega) (by omega)]
    exact hp.frame x fun a ha ha' => hx a (by omega) ha'

end Array

/-! ## What a failed push leaves -/

/-- A push that succeeds lies at least `strlen + 1` bytes below the old `sp`, on or above
`stackbase`. -/
theorem pushArg_lower {pt : PageTable} {stackbase sp sp' : UInt64} {pmem pmem' : Nat → UInt8} {arg : List UInt8}
    (hlen : arg.length < 4096) (hn : arg.length + 1 ≤ sp.toNat) (h : pushArg pt stackbase sp pmem arg = some (sp', pmem')) :
    sp'.toNat + arg.length + 1 ≤ sp.toNat ∧ stackbase.toNat ≤ sp'.toNat := by
  have hlen64 := strlen_toNat hlen
  obtain ⟨-, hbelow, -⟩ := push_toNat sp (arg.length + 1).toUInt64 (hlen64.trans_le hn)
  rw [hlen64] at hbelow
  rw [pushArg] at h
  dsimp only at h
  split at h
  · cases h
  · next hge =>
    split at h
    · cases h
    · cases h
      rw [UInt64.lt_iff_toNat_lt] at hge
      omega

/-- The push of `argv[]`, when it succeeds, lies `(argc + 1) * 8` bytes or more below the old `sp`,
on or above `stackbase`. -/
theorem pushUstack_lower {pt : PageTable} {stackbase sp sp' : UInt64} {pmem pmem' : Nat → UInt8} {ustack : List UInt64}
    (hm : ustack.length ≤ maxArg) (hn : (ustack.length + 1) * 8 ≤ sp.toNat)
    (h : pushUstack pt stackbase sp pmem ustack = some (sp', pmem')) :
    sp'.toNat + (ustack.length + 1) * 8 ≤ sp.toNat ∧ stackbase.toNat ≤ sp'.toNat := by
  have hsize := argv_size_toNat hm
  obtain ⟨-, hbelow, -⟩ := push_toNat sp ((ustack.length.toUInt64 + 1) * 8) (by omega)
  rw [hsize] at hbelow
  rw [pushUstack] at h
  dsimp only at h
  split at h
  · cases h
  · next hge =>
    split at h
    · cases h
    · cases h
      rw [UInt64.lt_iff_toNat_lt] at hge
      omega

/-- The loop, when it succeeds, used at least `strlen + 1` bytes a string, stayed on or above
`stackbase`, and left `argc` at most `MAXARG`. -/
theorem pushArgs_lower {pt : PageTable} {stackbase : UInt64} (h4 : 4096 ≤ stackbase.toNat) :
    ∀ (rest : List (List UInt8)) (sp : UInt64) (pmem : Nat → UInt8) (ustack : List UInt64) (sp' : UInt64)
      (pmem' : Nat → UInt8) (ustack' : List UInt64), (∀ s ∈ rest, s.length < 4096) → stackbase.toNat ≤ sp.toNat →
      pushArgs pt stackbase rest sp pmem ustack = some (sp', pmem', ustack') →
      sp'.toNat + (rest.map (·.length + 1)).sum ≤ sp.toNat ∧ stackbase.toNat ≤ sp'.toNat ∧
        ustack'.length = ustack.length + rest.length ∧ (0 < rest.length → ustack'.length ≤ maxArg)
  | [], sp, pmem, ustack, sp', pmem', ustack', _, hb, h => by
    cases h
    simpa using hb
  | arg :: rest, sp, pmem, ustack, sp', pmem', ustack', hlen, hb, h => by
    have hl := hlen arg List.mem_cons_self
    rw [pushArgs] at h
    split at h
    · cases h
    · next hlt =>
      cases hs : pushArg pt stackbase sp pmem arg with
      | none =>
        rw [hs] at h
        cases h
      | some r =>
        obtain ⟨sp1, pmem1⟩ := r
        rw [hs] at h
        obtain ⟨h1, hb1⟩ := pushArg_lower hl (by omega) hs
        obtain ⟨h2, hb2, hl2, hm2⟩ := pushArgs_lower h4 rest sp1 pmem1 (ustack ++ [sp1]) sp' pmem' ustack'
          (fun s hs' => hlen s (List.mem_cons_of_mem _ hs')) hb1 h
        simp only [List.map_cons, List.sum_cons, List.length_cons, List.length_append, List.length_nil] at hl2 ⊢
        refine ⟨by omega, hb2, by omega, fun _ => ?_⟩
        by_cases hr : 0 < rest.length
        · exact hm2 hr
        · omega

/-! ## `exec`'s stack -/

/-- The guard page `sz - (USERSTACK+1)*PGSIZE` and `stackbase = sz - USERSTACK*PGSIZE`, with no
wrap below a size of two pages. -/
theorem stack_consts_toNat {sz : UInt64} (h2 : 2 * 4096 ≤ sz.toNat) :
    (sz - (userStack + 1).toUInt64 * pgSize).toNat = sz.toNat - 2 * 4096 ∧
      (sz - userStack.toUInt64 * pgSize).toNat = sz.toNat - 4096 := by
  have hg : ((userStack + 1).toUInt64 * pgSize).toNat = 8192 := by decide
  have hb : (userStack.toUInt64 * pgSize).toNat = 4096 := by decide
  constructor
  · rw [UInt64.toNat_sub_of_le _ _ (UInt64.le_iff_toNat_le.mpr (by omega)), hg]
  · rw [UInt64.toNat_sub_of_le _ _ (UInt64.le_iff_toNat_le.mpr (by omega)), hb]

/-- What `exec` needs of the new image and the strings to get past its stack: `sz` page-aligned
with the guard page reached by `walk` and the stack page below `sz` writable, at most `MAXARG`
strings shorter than a page, and room for them, each rounded to 16 bytes, and for the array. -/
structure StackRoom (pt : PageTable) (sz : UInt64) (argv : List (List UInt8)) : Prop where
  aligned : sz.toNat % 4096 = 0
  two_pages : 2 * 4096 ≤ sz.toNat
  guard : (pt.pte ((sz.toNat - 2 * 4096) / 4096)).isSome
  writable : pt.writable (sz.toNat - 4096) = true
  short : ∀ s ∈ argv, s.length < 4096
  few : argv.length ≤ maxArg
  fits : (argv.map (·.length + 16)).sum + 8 * (argv.length + 1) + 15 ≤ 4096

/-- With room on the stack, `exec` gets past it: `uvmclear`, the loop of strings and the array. -/
theorem StackRoom.execStack_ok {pt : PageTable} {sz : UInt64} {argv : List (List UInt8)}
    (h : StackRoom pt sz argv) (pmem : Nat → UInt8) :
    ∃ sp pt' pmem', execStack pt pmem sz argv = .ok (some (argv.length.toUInt64, sp, pt', pmem')) ∧
      Laid pt' pmem sz.toNat argv sp pmem' := by
  obtain ⟨hal, h2, hguard, hw, hlen, hn, hfit⟩ := h
  obtain ⟨hg, hb⟩ := stack_consts_toNat h2
  obtain ⟨pt', hclear, hsame⟩ := uvmclear_eq (sz - (userStack + 1).toUInt64 * pgSize) (by rw [hg]; exact hguard)
  -- `uvmclear` leaves the stack page as it was
  have hw' : pt'.writable (sz.toNat - 4096) = true := by
    rw [writable_congr (hsame _ (by rw [hg]; omega)), hw]
  obtain ⟨sp1, pmem1, ustack, hrun, hfit1, hp1⟩ := pushArgs_spec hb hal h2 hw' argv [] sz pmem []
    (Pushed.start pt' pmem (by omega)) hlen (by simpa using hn) (8 * (argv.length + 1) + 15) (by omega)
  rw [List.nil_append] at hp1
  obtain ⟨sp2, pmem2, hpush, hlaid⟩ := hp1.array hb hal h2 hw' hn (by omega)
  refine ⟨sp2, pt', pmem2, ?_, hlaid⟩
  rw [execStack, hclear]
  dsimp only [bind, Except.bind]
  rw [hrun]
  dsimp only
  rw [hpush, hp1.length]
  rfl

/-- `exec` builds the argument vector on the stack. On an image whose size `sz` is page-aligned,
with the guard page reached by `walk` and the stack page below `sz` writable, `argc` at most
`MAXARG` strings shorter than a page, and room for them, each rounded to 16 bytes, and for the
array: `exec` gets past its stack, returns `argc`, and the page table it installs shows `main` the
argument vector at `sp`, each `argv[i]` pointing to the `i`-th string and its NUL, `argv[argc]`
equal to `0`, and physical memory as it was outside the stack's used part. -/
theorem execStack_spec (pt : PageTable) (pmem : Nat → UInt8) (sz : UInt64) (argv : List (List UInt8))
    (hal : sz.toNat % 4096 = 0) (h2 : 2 * 4096 ≤ sz.toNat) (hguard : (pt.pte ((sz.toNat - 2 * 4096) / 4096)).isSome)
    (hw : pt.writable (sz.toNat - 4096) = true) (hlen : ∀ s ∈ argv, s.length < 4096) (hn : argv.length ≤ maxArg)
    (hfit : (argv.map (·.length + 16)).sum + 8 * (argv.length + 1) + 15 ≤ 4096) :
    ∃ sp pt' pmem', execStack pt pmem sz argv = .ok (some (argv.length.toUInt64, sp, pt', pmem')) ∧
      Laid pt' pmem sz.toNat argv sp pmem' :=
  StackRoom.execStack_ok ⟨hal, h2, hguard, hw, hlen, hn, hfit⟩ pmem

/-- `exec("hi")` on a two-page image: the guard page on physical page 1, the stack page on page 2. -/
theorem execStack_spec_hi :
    ∃ sp pt' pmem', execStack ⟨fun k => if k = 0 then some 1047 else if k = 1 then some 2071 else none⟩
        (fun _ => 0) 8192 [[104, 105]] = .ok (some (1, sp, pt', pmem')) ∧
      Laid pt' (fun _ => 0) 8192 [[104, 105]] sp pmem' :=
  execStack_spec _ _ 8192 [[104, 105]] (by decide) (by decide) (by decide) (by decide) (by decide) (by decide)
    (by decide)

/-- Strings that do not fit in the stack page with their NULs and the array make `exec` fail:
`goto bad`, whatever the page table. -/
theorem execStack_too_big (pt : PageTable) (pmem : Nat → UInt8) (sz : UInt64) (argv : List (List UInt8))
    (h2 : 2 * 4096 ≤ sz.toNat) (hguard : (pt.pte ((sz.toNat - 2 * 4096) / 4096)).isSome)
    (hlen : ∀ s ∈ argv, s.length < 4096) (hbig : 4096 < (argv.map (·.length + 1)).sum + 8 * (argv.length + 1)) :
    execStack pt pmem sz argv = .ok none := by
  obtain ⟨hg, hb⟩ := stack_consts_toNat h2
  obtain ⟨pt', hclear, -⟩ := uvmclear_eq (sz - (userStack + 1).toUInt64 * pgSize) (by rw [hg]; exact hguard)
  rw [execStack, hclear]
  dsimp only [bind, Except.bind]
  cases hrun : pushArgs pt' (sz - userStack.toUInt64 * pgSize) argv sz pmem [] with
  | none => rfl
  | some r =>
    obtain ⟨sp1, pmem1, ustack⟩ := r
    obtain ⟨hs1, hb1, hl1, hm1⟩ := pushArgs_lower (by omega) argv sz pmem [] sp1 pmem1 ustack hlen (by omega) hrun
    rw [List.length_nil, Nat.zero_add] at hl1
    have hm : ustack.length ≤ maxArg := by
      by_cases h0 : 0 < argv.length
      · exact hm1 h0
      · unfold maxArg
        omega
    dsimp only
    cases hpush : pushUstack pt' (sz - userStack.toUInt64 * pgSize) sp1 pmem1 ustack with
    | none => rfl
    | some r2 =>
      obtain ⟨sp2, pmem2⟩ := r2
      obtain ⟨hs2, hb2⟩ := pushUstack_lower hm (by unfold maxArg at hm; omega) hpush
      omega

/-- A string of 4095 bytes with its NUL fills the stack page, leaving no room for the array. -/
theorem execStack_too_big_page :
    execStack ⟨fun _ => some 1047⟩ (fun _ => 0) 8192 [List.replicate 4095 97] = .ok none :=
  execStack_too_big _ _ 8192 _ (by decide) (by decide)
    (by simp only [List.mem_singleton, forall_eq, List.length_replicate]; omega)
    (by simp only [List.map_cons, List.map_nil, List.sum_cons, List.sum_nil, List.length_replicate,
      List.length_cons, List.length_nil]; omega)

end Xv6.Vm
