import Xv6.Lib.Ring
import Xv6.Lib.Trans

/-!
# The console's input (`console.c`: `struct cons`, `consoleintr`, `consoleread`)

`cons.buf` is a ring of `INPUT_BUF_SIZE` bytes between three `uint` counters that wrap: the bytes
`consoleread` has not read run from `r` to `w`, and the line being edited from `w` to `e`.
`consoleintr` edits the line, and commits it (moves `w` to `e`) on a newline, a `^D` or a full
buffer; `consoleread` takes committed bytes, a line at a time, and sleeps on `&cons.r` while there
are none. The echo (`consputc`) and `procdump` only write to the UART, and are left out.

* `Cons`, `consoleintr` (with `killLine`, the `^U` loop, and `store`, the default case),
  `consoleread`; the system `consSys` of interrupts and reads;
* `Cons.Ok` : `w - r ≤ e - r ≤ INPUT_BUF_SIZE`, kept by every step (`consSys_ok`);
* `Cons.unread`, `Cons.edit` : the committed bytes not yet read, and the line being edited;
* `consoleintr_cases` : `consoleintr` leaves the buffer, cuts the line, or stores a byte at its end;
* `consoleread_eq` : a section of `consoleread` is `readSpec` over the unread bytes, so it takes
  bytes from their front and leaves the line;
* `copyout_fault_drops_byte` : a byte whose `either_copyout` fails is taken and never delivered.
-/

namespace Xv6.Console

open Ring Trans

/-- `INPUT_BUF_SIZE` -/
def inputBufSize : Nat := 128

instance : NeZero inputBufSize := ⟨by decide⟩

/-- The character `x` as a byte. -/
def byte (x : Char) : UInt8 := x.toNat.toUInt8

/-- `C(x)`: the control character of `x`, `x - '@'`. -/
def ctrl (x : Char) : UInt8 := byte x - byte '@'

/-- `struct cons`, its lock apart. -/
structure Cons where
  buf : Fin inputBufSize → UInt8
  /-- Read index -/
  r : UInt32
  /-- Write index -/
  w : UInt32
  /-- Edit index -/
  e : UInt32

/-- The slot of `cons.buf[i % INPUT_BUF_SIZE]`. -/
def bufSlot (i : UInt32) : Fin inputBufSize := slot inputBufSize i.toNat

/-- The loop of `^U`: `while(cons.e != cons.w && cons.buf[(cons.e-1) % INPUT_BUF_SIZE] != '\n')
cons.e--;`. Each turn brings `e` one nearer to `w`, so `e - w` turns are enough. -/
def killLine : Nat → Cons → Cons
  | 0, cs => cs
  | k + 1, cs =>
    if cs.e ≠ cs.w ∧ cs.buf (bufSlot (cs.e - 1)) ≠ byte '\n' then killLine k { cs with e := cs.e - 1 }
    else cs

/-- The default case of `consoleintr` once the byte is taken: it goes in at `e`, and the line is
committed on a newline, a `^D` or a full buffer. -/
def store (cs : Cons) (c : UInt8) : Cons :=
  let cs := { cs with buf := Function.update cs.buf (bufSlot cs.e) c, e := cs.e + 1 }
  if c = byte '\n' ∨ c = ctrl 'D' ∨ cs.e - cs.r = inputBufSize.toUInt32 then { cs with w := cs.e }
  else cs

/-- `consoleintr(c)`, for the byte `c` that `uartgetc` read. -/
def consoleintr (cs : Cons) (c : UInt8) : Cons :=
  if c = ctrl 'P' then cs
  else if c = ctrl 'U' then killLine (cs.e - cs.w).toNat cs
  else if c = ctrl 'H' ∨ c = 0x7f then
    if cs.e ≠ cs.w then { cs with e := cs.e - 1 } else cs
  else if c ≠ 0 ∧ cs.e - cs.r < inputBufSize.toUInt32 then
    store cs (if c = byte '\r' then byte '\n' else c)
  else cs

/-- How a section of `consoleread` ends: it returns `r`, or sleeps on an empty buffer still wanting
`n` bytes. -/
inductive ReadEnd where
  | ret (r : Int)
  | sleep (n : Int)
  deriving DecidableEq, Repr

/-- The loop of `consoleread` from its test `cons.r == cons.w`, for a read of `target` bytes to
`addr` that still wants `n` and has copied out `out`; `dst a` says whether `either_copyout` to `a`
succeeds. Each turn that goes on takes a byte, so `w - r + 1` turns are enough. -/
def readLoop (dst : Nat → Bool) (addr : Nat) (target : Int) (killed : Bool) :
    Nat → Cons → Int → List UInt8 → Cons × ReadEnd × List UInt8
  | 0, cs, n, out => (cs, .sleep n, out)
  | fuel + 1, cs, n, out =>
    if n > 0 then
      if cs.r = cs.w then
        if killed then (cs, .ret (-1), out) else (cs, .sleep n, out)
      else
        let c := cs.buf (bufSlot cs.r)
        let cs := { cs with r := cs.r + 1 }
        if c = ctrl 'D' then
          -- a `^D` after some bytes is kept for the next read, which returns 0
          (if n < target then { cs with r := cs.r - 1 } else cs, .ret (target - n), out)
        else if !dst (addr + out.length) then (cs, .ret (target - n), out)
        else if c = byte '\n' then (cs, .ret (target - (n - 1)), out ++ [c])
        else readLoop dst addr target killed fuel cs (n - 1) (out ++ [c])
    else (cs, .ret (target - n), out)

/-- A section of `consoleread(user_dst, addr, target)`: from its start (`n = target`, nothing
copied) or from its `sleep`. -/
def consoleread (dst : Nat → Bool) (addr : Nat) (target : Int) (killed : Bool) (cs : Cons) (n : Int)
    (out : List UInt8) : Cons × ReadEnd × List UInt8 :=
  readLoop dst addr target killed ((cs.w - cs.r).toNat + 1) cs n out

/-! ## The system -/

/-- A `consoleread` asleep on `&cons.r`: where its bytes go, how many it asked for and still wants,
and those it has copied out. -/
structure Reader where
  addr : Nat
  target : Int
  n : Int
  out : List UInt8

/-- The console's input, the process of each `consoleread` asleep, and what each `consoleread` that
returned gave its caller: its value and the bytes it copied out, in the order they returned. -/
structure ConsSys where
  cons : Cons
  readers : Nat → Option Reader
  returned : List (Int × List UInt8)

/-- A step under `cons.lock`. -/
inductive ConsEv where
  /-- `uartintr` hands a byte to `consoleintr`. -/
  | intr (c : UInt8)
  /-- Process `p` calls `consoleread` for `n` bytes to `addr`, and runs until it returns or sleeps;
  `dst` says where in its buffer `either_copyout` succeeds, `killed` whether it has been killed. -/
  | read (p addr : Nat) (n : Int) (dst : Nat → Bool) (killed : Bool)
  /-- The `consoleread` of process `p` comes back from its `sleep` and runs on. -/
  | wake (p : Nat) (dst : Nat → Bool) (killed : Bool)

/-- A section of a read by `p` ends: `p` sleeps, or the read returns. -/
def ConsSys.finish (s : ConsSys) (p addr : Nat) (target : Int) : Cons × ReadEnd × List UInt8 → ConsSys
  | (cs, .sleep n, out) => { s with cons := cs, readers := Function.update s.readers p (some ⟨addr, target, n, out⟩) }
  | (cs, .ret v, out) =>
    { s with cons := cs, readers := Function.update s.readers p none, returned := s.returned ++ [(v, out)] }

def consNext (s : ConsSys) : ConsEv → Outcome ConsSys
  | .intr c => .ok { s with cons := consoleintr s.cons c }
  | .read p addr n dst killed =>
    match s.readers p with
    | none => .ok (s.finish p addr n (consoleread dst addr n killed s.cons n []))
    | some _ => .blocked
  | .wake p dst killed =>
    match s.readers p with
    | some rd => .ok (s.finish p rd.addr rd.target (consoleread dst rd.addr rd.target killed s.cons rd.n rd.out))
    | none => .blocked

/-- `cons` as the kernel's zeroed data leaves it. -/
def consInit : Cons := ⟨fun _ => 0, 0, 0, 0⟩

def consSys : System ConsSys ConsEv := ⟨⟨consInit, fun _ => none, []⟩, consNext⟩

/-! ## Counters -/

section Counters

variable {a b c : UInt32}

/-- Differences of counters add up when they do not pass each other. -/
theorem sub_add_sub (h : (b - c).toNat ≤ (a - c).toNat) : (a - c).toNat = (a - b).toNat + (b - c).toNat := by
  have := a.toNat_lt; have := b.toNat_lt; have := c.toNat_lt
  simp only [UInt32.toNat_sub] at *
  omega

theorem sub_add_sub_of_lt (h : (a - b).toNat + (b - c).toNat < 2 ^ 32) :
    (a - c).toNat = (a - b).toNat + (b - c).toNat := by
  have := a.toNat_lt; have := b.toNat_lt; have := c.toNat_lt
  simp only [UInt32.toNat_sub] at *
  omega

theorem sub_one_sub (h : a ≠ b) : (a - 1 - b).toNat = (a - b).toNat - 1 := by
  have hne : a.toNat ≠ b.toNat := fun h' => h (UInt32.toNat_inj.mp h')
  have := a.toNat_lt; have := b.toNat_lt
  simp only [UInt32.toNat_sub, UInt32.toNat_one]
  omega

theorem add_one_sub (h : (a - b).toNat < inputBufSize) : (a + 1 - b).toNat = (a - b).toNat + 1 := by
  have := a.toNat_lt; have := b.toNat_lt
  simp only [inputBufSize, UInt32.toNat_sub, UInt32.toNat_add, UInt32.toNat_one] at *
  omega

theorem sub_add_one (h : a ≠ b) : (a - (b + 1)).toNat = (a - b).toNat - 1 := by
  have hne : a.toNat ≠ b.toNat := fun h' => h (UInt32.toNat_inj.mp h')
  have := a.toNat_lt; have := b.toNat_lt
  simp only [UInt32.toNat_sub, UInt32.toNat_add, UInt32.toNat_one]
  omega

/-- `b` plus the distance to `a` names the slot of `a`. -/
theorem counter_mod (a b : UInt32) : (b.toNat + (a - b).toNat) % inputBufSize = a.toNat % inputBufSize := by
  have h : (b.toNat + (a - b).toNat) % 2 ^ 32 = a.toNat := by
    have := a.toNat_lt; have := b.toNat_lt
    simp only [UInt32.toNat_sub]
    omega
  rw [← h, Nat.mod_mod_of_dvd _ (by decide : inputBufSize ∣ 2 ^ 32)]

theorem bufSlot_eq (a b : UInt32) : bufSlot a = slot inputBufSize (b.toNat + (a - b).toNat) :=
  slot_eq_iff.mpr (counter_mod a b).symm

theorem succ_mod (a : UInt32) : (a + 1).toNat % inputBufSize = (a.toNat + 1) % inputBufSize := by
  rw [UInt32.toNat_add, UInt32.toNat_one, Nat.mod_mod_of_dvd _ (by decide : inputBufSize ∣ 2 ^ 32)]

end Counters

/-! ## The queue and the line -/

/-- The committed bytes not yet read, from `r` to `w`. -/
def Cons.unread (cs : Cons) : List UInt8 := view cs.buf cs.r.toNat (cs.w - cs.r).toNat

/-- The line being edited, from `w` to `e`. -/
def Cons.edit (cs : Cons) : List UInt8 := view cs.buf cs.w.toNat (cs.e - cs.w).toNat

/-- Every byte in the buffer, from `r` to `e`. -/
def Cons.pending (cs : Cons) : List UInt8 := view cs.buf cs.r.toNat (cs.e - cs.r).toNat

/-- The counters are in order and the buffer holds what lies between them: `w - r ≤ e - r ≤
INPUT_BUF_SIZE`, with the differences taken as `uint`s. -/
structure Cons.Ok (cs : Cons) : Prop where
  w_le : (cs.w - cs.r).toNat ≤ (cs.e - cs.r).toNat
  e_le : (cs.e - cs.r).toNat ≤ inputBufSize

variable {cs cs' cs'' : Cons}

theorem Cons.Ok.pending_eq (hok : cs.Ok) : cs.pending = cs.unread ++ cs.edit := by
  rw [Cons.pending, sub_add_sub hok.w_le, Nat.add_comm, view_add, Cons.unread, Cons.edit]
  rw [view_congr_mod cs.buf (counter_mod cs.w cs.r)]

theorem consInit_ok : consInit.Ok := ⟨Nat.le_refl _, by decide⟩

/-! ## `consoleintr` -/

/-- `e` moved back towards `w`, all else kept: what `^U`, backspace and delete can do. -/
structure Erased (cs cs' : Cons) : Prop where
  buf : cs'.buf = cs.buf
  r : cs'.r = cs.r
  w : cs'.w = cs.w
  e_le : (cs'.e - cs.w).toNat ≤ (cs.e - cs.w).toNat

theorem Erased.refl (cs : Cons) : Erased cs cs := ⟨rfl, rfl, rfl, Nat.le_refl _⟩

theorem Erased.trans (h1 : Erased cs cs') (h2 : Erased cs' cs'') : Erased cs cs'' :=
  ⟨h2.buf.trans h1.buf, h2.r.trans h1.r, h2.w.trans h1.w, by
    have := h2.e_le
    rw [h1.w] at this
    exact Nat.le_trans this h1.e_le⟩

theorem erased_dec (h : cs.e ≠ cs.w) : Erased cs { cs with e := cs.e - 1 } :=
  ⟨rfl, rfl, rfl, by
    show (cs.e - 1 - cs.w).toNat ≤ (cs.e - cs.w).toNat
    rw [sub_one_sub h]
    exact Nat.sub_le _ _⟩

theorem killLine_erased : ∀ (k : Nat) (cs : Cons), Erased cs (killLine k cs)
  | 0, cs => Erased.refl cs
  | k + 1, cs => by
    unfold killLine
    split
    · next h => exact (erased_dec h.1).trans (killLine_erased k _)
    · exact Erased.refl cs

/-- An erasure leaves the committed bytes and cuts the line. -/
theorem Erased.unread_eq (h : Erased cs cs') : cs'.unread = cs.unread := by
  rw [Cons.unread, Cons.unread, h.buf, h.r, h.w]

theorem Erased.edit_prefix (h : Erased cs cs') : cs'.edit <+: cs.edit := by
  have hsplit := Nat.add_sub_of_le h.e_le
  rw [Cons.edit, Cons.edit, h.buf, h.w, ← hsplit, view_add]
  exact List.prefix_append _ _

theorem Erased.ok (h : Erased cs cs') (hok : cs.Ok) : cs'.Ok := by
  have hsplit := sub_add_sub hok.w_le
  have hle := h.e_le
  have he := hok.e_le
  have hsplit' : (cs'.e - cs.r).toNat = (cs'.e - cs.w).toNat + (cs.w - cs.r).toNat :=
    sub_add_sub_of_lt (by unfold inputBufSize at he; omega)
  constructor
  · rw [h.r, h.w]
    omega
  · rw [h.r]
    omega

/-- `store` writes at `e`, past the bytes from `r`, and moves `e` on; it may move `w` to `e`. -/
theorem store_eq (cs : Cons) (c : UInt8) :
    ∃ w', store cs c = { cs with buf := Function.update cs.buf (bufSlot cs.e) c, e := cs.e + 1, w := w' } ∧
      (w' = cs.w ∨ w' = cs.e + 1) := by
  unfold store
  dsimp only
  split
  · exact ⟨_, rfl, .inr rfl⟩
  · exact ⟨_, rfl, .inl rfl⟩

section Store

variable (hroom : (cs.e - cs.r).toNat < inputBufSize)
include hroom

/-- A byte stored goes to the end of what the buffer holds. -/
theorem store_pending (c : UInt8) : (store cs c).pending = cs.pending ++ [c] := by
  obtain ⟨w', heq, -⟩ := store_eq cs c
  rw [heq, Cons.pending, Cons.pending]
  simp only
  rw [add_one_sub hroom, bufSlot_eq cs.e cs.r, view_push cs.buf hroom]

variable (hok : cs.Ok)
include hok

/-- The committed bytes stay as they were, or the line is committed with the byte. -/
theorem store_unread (c : UInt8) :
    (store cs c).unread = cs.unread ∨ ((store cs c).unread = (store cs c).pending ∧ (store cs c).edit = []) := by
  obtain ⟨w', heq, hw'⟩ := store_eq cs c
  rw [heq]
  rcases hw' with rfl | rfl
  · -- `e` lies a whole queue past `r`, so the write misses the committed bytes
    left
    rw [Cons.unread, Cons.unread, bufSlot_eq cs.e cs.r]
    apply view_update_of_ne
    intro i hi
    exact slot_ne _ (Nat.lt_of_lt_of_le hi hok.w_le) (by unfold inputBufSize at hroom ⊢; omega)
  · right
    refine ⟨rfl, ?_⟩
    simp [Cons.edit]

theorem store_ok (c : UInt8) : (store cs c).Ok := by
  obtain ⟨w', heq, hw'⟩ := store_eq cs c
  have hle := hok.w_le
  have he := add_one_sub hroom
  rw [heq]
  rcases hw' with rfl | rfl
  · constructor
    · show (cs.w - cs.r).toNat ≤ (cs.e + 1 - cs.r).toNat
      omega
    · show (cs.e + 1 - cs.r).toNat ≤ inputBufSize
      omega
  · constructor
    · exact Nat.le_refl _
    · show (cs.e + 1 - cs.r).toNat ≤ inputBufSize
      omega

end Store

theorem lt_inputBufSize {a : UInt32} (h : a < inputBufSize.toUInt32) : a.toNat < inputBufSize :=
  UInt32.lt_iff_toNat_lt.mp h

/-- What `consoleintr` can do: erase back towards `w`, or store a byte in a buffer with room. -/
theorem consoleintr_cases (cs : Cons) (c : UInt8) :
    Erased cs (consoleintr cs c) ∨ ((cs.e - cs.r).toNat < inputBufSize ∧ ∃ c', consoleintr cs c = store cs c') := by
  unfold consoleintr
  split
  · exact .inl (Erased.refl cs)
  split
  · exact .inl (killLine_erased _ cs)
  split
  · split
    · next h => exact .inl (erased_dec h)
    · exact .inl (Erased.refl cs)
  split
  · next h => exact .inr ⟨lt_inputBufSize h.2, _, rfl⟩
  · exact .inl (Erased.refl cs)

/-- `^U`, backspace and delete only erase from the line being edited. -/
theorem consoleintr_erase {c : UInt8} (hc : c = ctrl 'U' ∨ c = ctrl 'H' ∨ c = 0x7f) :
    Erased cs (consoleintr cs c) := by
  unfold consoleintr
  rcases hc with rfl | rfl | rfl
  · rw [if_neg (by decide), if_pos rfl]
    exact killLine_erased _ cs
  all_goals
    rw [if_neg (by decide), if_neg (by decide), if_pos (by decide)]
    split
    · next h => exact erased_dec h
    · exact Erased.refl cs

theorem consoleintr_ok (hok : cs.Ok) (c : UInt8) : (consoleintr cs c).Ok := by
  rcases consoleintr_cases cs c with h | ⟨hroom, c', heq⟩
  · exact h.ok hok
  · rw [heq]
    exact store_ok hroom hok c'

/-! ## `consoleread` -/

/-- A section of `consoleread` as a loop over the unread bytes `q`: how many it takes from their
front, how it ends, and what it has copied out. -/
def readSpec (dst : Nat → Bool) (addr : Nat) (target : Int) (killed : Bool) :
    List UInt8 → Int → List UInt8 → Nat × ReadEnd × List UInt8
  | [], n, out => if n > 0 then (0, if killed then .ret (-1) else .sleep n, out) else (0, .ret (target - n), out)
  | c :: q, n, out =>
    if n > 0 then
      if c = ctrl 'D' then (if n < target then 0 else 1, .ret (target - n), out)
      else if !dst (addr + out.length) then (1, .ret (target - n), out)
      else if c = byte '\n' then (1, .ret (target - (n - 1)), out ++ [c])
      else
        let r := readSpec dst addr target killed q (n - 1) (out ++ [c])
        (r.1 + 1, r.2)
    else (0, .ret (target - n), out)

/-- `r` moved on past `k` bytes. -/
def Cons.advance (cs : Cons) (k : Nat) : Cons := { cs with r := cs.r + k.toUInt32 }

theorem Cons.advance_zero (cs : Cons) : cs.advance 0 = cs := by
  simp [Cons.advance]

theorem Cons.advance_one (cs : Cons) : cs.advance 1 = { cs with r := cs.r + 1 } := rfl

theorem Cons.advance_succ (cs : Cons) (k : Nat) : { cs with r := cs.r + 1 }.advance k = cs.advance (k + 1) := by
  simp only [Cons.advance, Cons.mk.injEq, and_true, true_and, Nat.toUInt32, UInt32.ofNat_add]
  grind

theorem unread_nil (h : cs.unread = []) : cs.r = cs.w := by
  have hlen := congrArg List.length h
  rw [Cons.unread, length_view, List.length_nil] at hlen
  have := cs.r.toNat_lt; have := cs.w.toNat_lt
  simp only [UInt32.toNat_sub] at hlen
  exact UInt32.toNat_inj.mp (by omega)

/-- The first unread byte is the one at `r`, and the rest are unread once `r` has passed it. -/
theorem unread_cons {c : UInt8} {q : List UInt8} (h : cs.unread = c :: q) :
    cs.r ≠ cs.w ∧ cs.buf (bufSlot cs.r) = c ∧ { cs with r := cs.r + 1 }.unread = q := by
  have hlen := congrArg List.length h
  rw [Cons.unread, length_view, List.length_cons] at hlen
  have hne : cs.r ≠ cs.w := by
    rintro heq
    rw [heq, UInt32.sub_self] at hlen
    cases hlen
  rw [Cons.unread, hlen, view_succ_left, List.cons.injEq] at h
  refine ⟨hne, h.1, ?_⟩
  rw [← h.2, Cons.unread]
  simp only
  rw [sub_add_one (Ne.symm hne), hlen, Nat.add_sub_cancel, view_congr_mod cs.buf (succ_mod cs.r)]

/-- A section of `consoleread` is `readSpec` over the unread bytes: it moves `r` past the bytes it
takes, and changes nothing else in the buffer. -/
theorem readLoop_eq (dst : Nat → Bool) (addr : Nat) (target : Int) (killed : Bool) :
    ∀ (q : List UInt8) (fuel : Nat) (cs : Cons) (n : Int) (out : List UInt8), cs.unread = q → q.length < fuel →
      readLoop dst addr target killed fuel cs n out =
        (cs.advance (readSpec dst addr target killed q n out).1, (readSpec dst addr target killed q n out).2)
  | _, 0, _, _, _, _, hf => absurd hf (Nat.not_lt_zero _)
  | [], fuel + 1, cs, n, out, hq, _ => by
    have hr := unread_nil hq
    by_cases hn : n > 0
    · cases killed <;> simp [readLoop, readSpec, hn, hr, Cons.advance_zero]
    · simp [readLoop, readSpec, hn, Cons.advance_zero]
  | c :: q, fuel + 1, cs, n, out, hq, hf => by
    obtain ⟨hne, hc, hq'⟩ := unread_cons hq
    by_cases hn : n > 0
    · by_cases hD : c = ctrl 'D'
      · by_cases hlt : n < target
        · simp [readLoop, readSpec, hn, hne, hc, hD, hlt, Cons.advance_zero]
        · simp [readLoop, readSpec, hn, hne, hc, hD, hlt, Cons.advance_one]
      by_cases hdst : dst (addr + out.length) = true
      · by_cases hnl : c = byte '\n'
        · have hD' : byte '\n' ≠ ctrl 'D' := by decide
          simp [readLoop, readSpec, hn, hne, hc, hdst, hnl, hD', Cons.advance_one]
        · -- the byte is copied out and the loop goes on from the next
          have ih := readLoop_eq dst addr target killed q fuel _ (n - 1) (out ++ [c]) hq'
            (Nat.lt_of_succ_lt_succ hf)
          simp only [readLoop, readSpec, hn, hne, hc, hD, hdst, hnl, if_true, if_false, ih,
            Cons.advance_succ, Bool.not_true, Bool.false_eq_true]
      · simp [readLoop, readSpec, hn, hne, hc, hD, hdst, Cons.advance_one]
    · simp [readLoop, readSpec, hn, Cons.advance_zero]

theorem consoleread_eq (dst : Nat → Bool) (addr : Nat) (target : Int) (killed : Bool) (cs : Cons) (n : Int)
    (out : List UInt8) :
    consoleread dst addr target killed cs n out =
      (cs.advance (readSpec dst addr target killed cs.unread n out).1,
        (readSpec dst addr target killed cs.unread n out).2) :=
  readLoop_eq dst addr target killed cs.unread _ cs n out rfl (by rw [Cons.unread, length_view]; exact Nat.lt_succ_self _)

/-- A section takes no more bytes than are unread. -/
theorem readSpec_le (dst : Nat → Bool) (addr : Nat) (target : Int) (killed : Bool) :
    ∀ (q : List UInt8) (n : Int) (out : List UInt8), (readSpec dst addr target killed q n out).1 ≤ q.length
  | [], n, out => by
    unfold readSpec
    split <;> simp
  | c :: q, n, out => by
    have ih := readSpec_le dst addr target killed q (n - 1) (out ++ [c])
    unfold readSpec
    split
    · split
      · split <;> simp
      split
      · simp
      split
      · simp
      · simpa using ih
    · simp

/-- What a section copies out is what it had, then bytes from the front of the unread ones, no
more than it takes. -/
theorem readSpec_out (dst : Nat → Bool) (addr : Nat) (target : Int) (killed : Bool) :
    ∀ (q : List UInt8) (n : Int) (out : List UInt8),
      ∃ j ≤ (readSpec dst addr target killed q n out).1, (readSpec dst addr target killed q n out).2.2 = out ++ q.take j
  | [], n, out => ⟨0, by unfold readSpec; split <;> simp⟩
  | c :: q, n, out => by
    obtain ⟨j, hj, hout⟩ := readSpec_out dst addr target killed q (n - 1) (out ++ [c])
    unfold readSpec
    split
    · split
      · exact ⟨0, Nat.zero_le _, by simp⟩
      split
      · exact ⟨0, Nat.zero_le _, by simp⟩
      split
      · exact ⟨1, Nat.le_refl _, by simp⟩
      · refine ⟨j + 1, Nat.succ_le_succ hj, ?_⟩
        simp only [hout, List.take_succ_cons, List.append_assoc, List.singleton_append]
    · exact ⟨0, Nat.zero_le _, by simp⟩

theorem sub_add_nat {a b : UInt32} {k : Nat} (hk : k ≤ (a - b).toNat) :
    (a - (b + k.toUInt32)).toNat = (a - b).toNat - k := by
  have := a.toNat_lt; have := b.toNat_lt
  have hk' : k < 2 ^ 32 := Nat.lt_of_le_of_lt hk (UInt32.toNat_lt _)
  simp only [UInt32.toNat_sub, UInt32.toNat_add, Nat.toUInt32, UInt32.toNat_ofNat'] at *
  omega

theorem advance_mod (r : UInt32) (k : Nat) : (r + k.toUInt32).toNat % inputBufSize = (r.toNat + k) % inputBufSize := by
  rw [UInt32.toNat_add, Nat.mod_mod_of_dvd _ (by decide : inputBufSize ∣ 2 ^ 32), Nat.toUInt32,
    UInt32.toNat_ofNat', Nat.add_mod, Nat.mod_mod_of_dvd _ (by decide : inputBufSize ∣ 2 ^ 32), ← Nat.add_mod]

section Advance

variable {k : Nat} (hk : k ≤ (cs.w - cs.r).toNat)
include hk

/-- Moving `r` past `k` unread bytes takes them off the front. -/
theorem Cons.advance_unread : (cs.advance k).unread = cs.unread.drop k := by
  have hsplit := Nat.add_sub_of_le hk
  rw [Cons.unread, Cons.unread, Cons.advance]
  simp only
  rw [sub_add_nat hk, ← hsplit, drop_view, Nat.add_sub_cancel_left,
    view_congr_mod cs.buf (advance_mod cs.r k)]

theorem Cons.Ok.advance (hok : cs.Ok) : (cs.advance k).Ok := by
  have hw := sub_add_nat hk
  have he := sub_add_nat (Nat.le_trans hk hok.w_le)
  have hle := hok.w_le
  have hsz := hok.e_le
  constructor
  · show (cs.w - (cs.r + k.toUInt32)).toNat ≤ (cs.e - (cs.r + k.toUInt32)).toNat
    omega
  · show (cs.e - (cs.r + k.toUInt32)).toNat ≤ inputBufSize
    omega

end Advance

/-- A read leaves the line being edited. -/
theorem Cons.advance_edit (cs : Cons) (k : Nat) : (cs.advance k).edit = cs.edit := rfl

theorem unread_length (cs : Cons) : cs.unread.length = (cs.w - cs.r).toNat := length_view _ _ _

/-- A section of `consoleread` keeps the counters in order. -/
theorem consoleread_ok (hok : cs.Ok) (dst : Nat → Bool) (addr : Nat) (target : Int) (killed : Bool) (n : Int)
    (out : List UInt8) : (consoleread dst addr target killed cs n out).1.Ok := by
  rw [consoleread_eq]
  apply hok.advance
  rw [← unread_length]
  exact readSpec_le dst addr target killed _ n out

/-! ## Every reachable state -/

theorem ConsSys.finish_cons (s : ConsSys) (p addr : Nat) (target : Int) (res : Cons × ReadEnd × List UInt8) :
    (s.finish p addr target res).cons = res.1 := by
  obtain ⟨cs, e, out⟩ := res
  cases e <;> rfl

theorem consNext_ok {s s' : ConsSys} (hok : s.cons.Ok) {e : ConsEv} (h : consNext s e = .ok s') : s'.cons.Ok := by
  cases e with
  | intr c =>
    cases h
    exact consoleintr_ok hok c
  | read p addr n dst killed =>
    simp only [consNext] at h
    split at h
    · cases h
      rw [ConsSys.finish_cons]
      exact consoleread_ok hok dst addr n killed n []
    · cases h
  | wake p dst killed =>
    simp only [consNext] at h
    split at h
    · cases h
      rw [ConsSys.finish_cons]
      exact consoleread_ok hok dst _ _ killed _ _
    · cases h

/-- `w - r ≤ e - r ≤ INPUT_BUF_SIZE` in every reachable state. -/
theorem consSys_ok {s : ConsSys} (hs : Reachable consSys s) : s.cons.Ok :=
  Reachable.induct consSys (P := fun s => s.cons.Ok) consInit_ok (fun _ _ _ hok h => consNext_ok hok h) hs

/-- `ab` and a return are typed, then read twice, the first time into a buffer that
`either_copyout` cannot write. -/
def droppedByteTrace : List ConsEv :=
  [.intr (byte 'a'), .intr (byte 'b'), .intr (byte '\r'), .read 1 0 10 (fun _ => false) false,
    .read 1 0 10 (fun _ => true) false]

/-- The first read takes the `a` and returns 0 having copied nothing; the second returns `b\n`; and
nothing is left in the buffer. The committed bytes were `ab\n`, and no read delivers the `a`. -/
theorem copyout_fault_drops_byte :
    ∃ s, Reachable consSys s ∧ s.returned = [(0, []), (2, [byte 'b', byte '\n'])] ∧
      s.cons.unread = [] ∧ s.cons.edit = [] ∧ ¬ [byte 'b', byte '\n'] <+: [byte 'a', byte 'b', byte '\n'] := by
  have hrun : (run consSys consSys.init droppedByteTrace).holds (fun s =>
      s.returned == [(0, []), (2, [byte 'b', byte '\n'])] && s.cons.r == s.cons.w && s.cons.w == s.cons.e) = true := by
    decide +kernel
  obtain ⟨s, hs, hp⟩ := Reachable.run_holds _ .init hrun
  simp only [Bool.and_eq_true, beq_iff_eq] at hp
  obtain ⟨⟨hret, hrw⟩, hwe⟩ := hp
  refine ⟨s, hs, hret, ?_, ?_, by decide⟩
  · simp [Cons.unread, hrw]
  · simp [Cons.edit, hwe]

end Xv6.Console
