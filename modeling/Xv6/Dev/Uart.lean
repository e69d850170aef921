import Xv6.Lib.Ring
import Xv6.Lib.Trans

/-!
# The UART's transmit ring (`uart.c`: `uartputc`, `uartstart`, `uartintr`)

`uart_tx_buf` is a ring of `UART_TX_BUF_SIZE` bytes between two `uint64` counters: `uartputc`
writes at `uart_tx_w`, sleeping while the ring is full, and `uartstart` sends from `uart_tx_r` for
as long as the UART reports `LSR_TX_IDLE`. Each section runs under `uart_tx_lock`; `uartstart` runs
at the end of `uartputc` and in `uartintr`. How the device sets `LSR_TX_IDLE` is left open: each
read of `LSR` in a section is an input of the step. `uartputc_sync`, which writes `THR` itself for
`printf` and the console's echo, and the spin of a `panicked` kernel are left out.

* `TxRing`, `uartstart`, `uartputc`; the system `uartSys` of `uartputc`s, their wakeups and
  `uartintr`s, with the log `put` of the bytes `uartputc` put in the ring;
* `TxRing.Ok` : `uart_tx_w - uart_tx_r ≤ UART_TX_BUF_SIZE` as a `uint64` difference, and the bytes
  written to `THR` followed by those in the ring are the bytes put (`uartSys_ok`);
* `uartputc_fresh` : `uartputc` writes a slot that holds no byte still to be sent;
* `tx_counters_wrap` : `uart_tx_r ≤ uart_tx_w` fails once `uart_tx_w` wraps.
-/

namespace Xv6.Uart

open Ring Trans

/-- `UART_TX_BUF_SIZE` -/
def uartTxBufSize : Nat := 32

instance : NeZero uartTxBufSize := ⟨by decide⟩

/-- The transmit ring and what the UART has been handed. -/
structure TxRing where
  /-- `uart_tx_buf` -/
  buf : Fin uartTxBufSize → UInt8
  /-- `uart_tx_w` -/
  w : UInt64
  /-- `uart_tx_r` -/
  r : UInt64
  /-- the bytes `uartstart` wrote to `THR`, in order -/
  thr : List UInt8

/-- The slot of `uart_tx_buf[i % UART_TX_BUF_SIZE]`. -/
def txSlot (i : UInt64) : Fin uartTxBufSize := slot uartTxBufSize i.toNat

/-- The loop of `uartstart`, whose `k`-th read of `LSR` finds `LSR_TX_IDLE` set when `idle k`. Each
turn that goes on sends a byte, so `uart_tx_w - uart_tx_r + 1` turns are enough. -/
def startLoop (idle : Nat → Bool) : Nat → Nat → TxRing → TxRing
  | 0, _, u => u
  | fuel + 1, k, u =>
    if u.w = u.r then u
    else if !idle k then u
    else
      -- `wakeup(&uart_tx_r)` lets a `uartputc` asleep on a full ring test it again
      startLoop idle fuel (k + 1) { u with r := u.r + 1, thr := u.thr ++ [u.buf (txSlot u.r)] }

/-- `uartstart()` -/
def uartstart (idle : Nat → Bool) (u : TxRing) : TxRing := startLoop idle ((u.w - u.r).toNat + 1) 0 u

/-- `uartputc(c)` from its test of a full ring: it sleeps (`none`), or puts `c` at `uart_tx_w` and
starts the UART. -/
def uartputc (idle : Nat → Bool) (u : TxRing) (c : UInt8) : Option TxRing :=
  if u.w = u.r + uartTxBufSize.toUInt64 then none
  else some (uartstart idle { u with buf := Function.update u.buf (txSlot u.w) c, w := u.w + 1 })

/-! ## The system -/

/-- The ring, the byte of each process asleep in `uartputc`, and the log of the bytes `uartputc`
put in the ring, in the order they took `uart_tx_lock` (no code reads it). -/
structure UartSys where
  uart : TxRing
  putters : Nat → Option UInt8
  put : List UInt8

/-- A section under `uart_tx_lock`; `idle k` is what its `k`-th read of `LSR` finds. -/
inductive UartEv where
  /-- Process `p` calls `uartputc(c)`. -/
  | putc (p : Nat) (c : UInt8) (idle : Nat → Bool)
  /-- The `uartputc` of process `p` comes back from its `sleep` and tests the ring again. -/
  | wake (p : Nat) (idle : Nat → Bool)
  /-- `uartintr`'s `uartstart`. -/
  | intr (idle : Nat → Bool)

/-- `uartputc(c)` by `p`, from its test: `p` sleeps, or the byte is put. -/
def UartSys.putc (s : UartSys) (p : Nat) (c : UInt8) (idle : Nat → Bool) : UartSys :=
  match uartputc idle s.uart c with
  | none => { s with putters := Function.update s.putters p (some c) }
  | some u => { s with uart := u, putters := Function.update s.putters p none, put := s.put ++ [c] }

def uartNext (s : UartSys) : UartEv → Outcome UartSys
  | .putc p c idle =>
    match s.putters p with
    | none => .ok (s.putc p c idle)
    | some _ => .blocked
  | .wake p idle =>
    match s.putters p with
    | some c => .ok (s.putc p c idle)
    | none => .blocked
  | .intr idle => .ok { s with uart := uartstart idle s.uart }

/-- The zeroed ring, nothing sent and nothing put. -/
def uartInit : TxRing := ⟨fun _ => 0, 0, 0, []⟩

def uartSys : System UartSys UartEv := ⟨⟨uartInit, fun _ => none, []⟩, uartNext⟩

/-! ## Counters -/

section Counters

variable {a b : UInt64}

theorem add_one_sub (h : (a - b).toNat < uartTxBufSize) : (a + 1 - b).toNat = (a - b).toNat + 1 := by
  have := a.toNat_lt; have := b.toNat_lt
  simp only [uartTxBufSize, UInt64.toNat_sub, UInt64.toNat_add, UInt64.toNat_one] at *
  omega

theorem sub_add_one (h : a ≠ b) : (a - (b + 1)).toNat = (a - b).toNat - 1 := by
  have hne : a.toNat ≠ b.toNat := fun h' => h (UInt64.toNat_inj.mp h')
  have := a.toNat_lt; have := b.toNat_lt
  simp only [UInt64.toNat_sub, UInt64.toNat_add, UInt64.toNat_one]
  omega

/-- The ring is full exactly when `uart_tx_w` is a ring ahead of `uart_tx_r`. -/
theorem full_iff : a = b + uartTxBufSize.toUInt64 ↔ (a - b).toNat = uartTxBufSize := by
  have := a.toNat_lt; have := b.toNat_lt
  rw [← UInt64.toNat_inj]
  simp only [uartTxBufSize, UInt64.toNat_sub, UInt64.toNat_add, Nat.toUInt64, UInt64.toNat_ofNat']
  omega

/-- `b` plus the distance to `a` names the slot of `a`. -/
theorem counter_mod (a b : UInt64) :
    (b.toNat + (a - b).toNat) % uartTxBufSize = a.toNat % uartTxBufSize := by
  have h : (b.toNat + (a - b).toNat) % 2 ^ 64 = a.toNat := by
    have := a.toNat_lt; have := b.toNat_lt
    simp only [UInt64.toNat_sub]
    omega
  rw [← h, Nat.mod_mod_of_dvd _ (by decide : uartTxBufSize ∣ 2 ^ 64)]

theorem txSlot_eq (a b : UInt64) : txSlot a = slot uartTxBufSize (b.toNat + (a - b).toNat) :=
  slot_eq_iff.mpr (counter_mod a b).symm

theorem succ_mod (a : UInt64) : (a + 1).toNat % uartTxBufSize = (a.toNat + 1) % uartTxBufSize := by
  rw [UInt64.toNat_add, UInt64.toNat_one, Nat.mod_mod_of_dvd _ (by decide : uartTxBufSize ∣ 2 ^ 64)]

end Counters

/-! ## The ring -/

/-- The bytes from `uart_tx_r` to `uart_tx_w`, still to be sent. -/
def TxRing.queued (u : TxRing) : List UInt8 := view u.buf u.r.toNat (u.w - u.r).toNat

/-- At most a ring of bytes waits, and the bytes `THR` got, then those that wait, are the bytes
`put`. -/
structure TxRing.Ok (u : TxRing) (put : List UInt8) : Prop where
  le : (u.w - u.r).toNat ≤ uartTxBufSize
  fifo : u.thr ++ u.queued = put

variable {u u' : TxRing} {put : List UInt8}

/-- One turn of `uartstart`: the byte at `uart_tx_r` goes to `THR`. -/
theorem TxRing.Ok.send (hok : u.Ok put) (hne : u.w ≠ u.r) :
    ({ u with r := u.r + 1, thr := u.thr ++ [u.buf (txSlot u.r)] } : TxRing).Ok put := by
  have hlen := sub_add_one hne
  have hpos : 0 < (u.w - u.r).toNat := by
    have := u.w.toNat_lt; have := u.r.toNat_lt
    have hne' : u.w.toNat ≠ u.r.toNat := fun h' => hne (UInt64.toNat_inj.mp h')
    simp only [UInt64.toNat_sub]
    omega
  have hq : u.queued = u.buf (txSlot u.r) :: view u.buf (u.r.toNat + 1) ((u.w - u.r).toNat - 1) := by
    rw [TxRing.queued, ← Nat.sub_add_cancel hpos, view_succ_left, Nat.add_sub_cancel]
    rfl
  constructor
  · show (u.w - (u.r + 1)).toNat ≤ uartTxBufSize
    have := hok.le
    omega
  · show (u.thr ++ [u.buf (txSlot u.r)]) ++ view u.buf (u.r + 1).toNat (u.w - (u.r + 1)).toNat = put
    rw [hlen, view_congr_mod u.buf (succ_mod u.r), List.append_assoc, List.singleton_append, ← hq]
    exact hok.fifo

theorem startLoop_ok (idle : Nat → Bool) : ∀ (fuel k : Nat) (u : TxRing), u.Ok put → (startLoop idle fuel k u).Ok put
  | 0, _, _, hok => hok
  | fuel + 1, k, u, hok => by
    unfold startLoop
    split
    · exact hok
    split
    · exact hok
    · next hne _ => exact startLoop_ok idle fuel (k + 1) _ (hok.send hne)

theorem uartstart_ok (idle : Nat → Bool) (hok : u.Ok put) : (uartstart idle u).Ok put :=
  startLoop_ok idle _ 0 u hok

/-- `uartputc` writes a slot that holds no byte still to be sent. -/
theorem uartputc_fresh (hok : u.Ok put) (hfull : u.w ≠ u.r + uartTxBufSize.toUInt64) :
    ∀ i < (u.w - u.r).toNat, slot uartTxBufSize (u.r.toNat + i) ≠ txSlot u.w := by
  have hlt : (u.w - u.r).toNat < uartTxBufSize := Nat.lt_of_le_of_ne hok.le (mt full_iff.mpr hfull)
  intro i hi
  rw [txSlot_eq u.w u.r]
  exact slot_ne _ hi (by unfold uartTxBufSize at hlt ⊢; omega)

/-- A byte put goes behind those that wait, and the UART sends from the front. -/
theorem uartputc_ok (idle : Nat → Bool) (hok : u.Ok put) {c : UInt8} (h : uartputc idle u c = some u') :
    u'.Ok (put ++ [c]) := by
  unfold uartputc at h
  split at h
  · cases h
  · next hfull =>
    cases h
    have hlt : (u.w - u.r).toNat < uartTxBufSize := Nat.lt_of_le_of_ne hok.le (mt full_iff.mpr hfull)
    apply uartstart_ok
    constructor
    · show (u.w + 1 - u.r).toNat ≤ uartTxBufSize
      rw [add_one_sub hlt]
      exact hlt
    · show u.thr ++ view (Function.update u.buf (txSlot u.w) c) u.r.toNat (u.w + 1 - u.r).toNat = put ++ [c]
      rw [add_one_sub hlt, txSlot_eq u.w u.r, view_push u.buf hlt, ← List.append_assoc]
      have hfifo := hok.fifo
      rw [TxRing.queued] at hfifo
      rw [hfifo]

/-! ## Every reachable state -/

theorem UartSys.putc_ok {s : UartSys} (hok : s.uart.Ok s.put) (p : Nat) (c : UInt8) (idle : Nat → Bool) :
    (s.putc p c idle).uart.Ok (s.putc p c idle).put := by
  unfold UartSys.putc
  split
  · exact hok
  · next h => exact uartputc_ok idle hok h

theorem uartNext_ok {s s' : UartSys} (hok : s.uart.Ok s.put) {e : UartEv} (h : uartNext s e = .ok s') :
    s'.uart.Ok s'.put := by
  cases e with
  | putc p c idle =>
    simp only [uartNext] at h
    split at h
    · cases h
      exact s.putc_ok hok p c idle
    · cases h
  | wake p idle =>
    simp only [uartNext] at h
    split at h
    · cases h
      exact s.putc_ok hok p _ idle
    · cases h
  | intr idle =>
    cases h
    exact uartstart_ok idle hok

theorem uartInit_ok : uartInit.Ok [] := ⟨Nat.zero_le _, rfl⟩

theorem uartSys_ok {s : UartSys} (hs : Reachable uartSys s) : s.uart.Ok s.put :=
  Reachable.induct uartSys (P := fun s => s.uart.Ok s.put) uartInit_ok (fun _ _ _ hok h => uartNext_ok hok h) hs

/-- The transmit ring in every reachable state: at most `UART_TX_BUF_SIZE` bytes wait, as a
`uint64` difference; the bytes written to `THR`, then those waiting, are the bytes `uartputc` put,
in the order it took `uart_tx_lock`; and a `uartputc` that finds room writes a slot holding none of
the waiting bytes. -/
theorem uart_tx_fifo {s : UartSys} (hs : Reachable uartSys s) :
    (s.uart.w - s.uart.r).toNat ≤ uartTxBufSize ∧ s.uart.thr ++ s.uart.queued = s.put ∧
      (s.uart.w ≠ s.uart.r + uartTxBufSize.toUInt64 →
        ∀ i < (s.uart.w - s.uart.r).toNat, slot uartTxBufSize (s.uart.r.toNat + i) ≠ txSlot s.uart.w) := by
  have hok := uartSys_ok hs
  exact ⟨hok.le, hok.fifo, uartputc_fresh hok⟩

/-- `hi` put by two processes while the UART is busy, then sent by an interrupt that finds it idle
once. -/
def hiTrace : List UartEv :=
  [.putc 1 104 (fun _ => false), .putc 2 105 (fun _ => false), .intr fun k => k == 0]

theorem uart_tx_fifo_hi :
    ∃ s, Reachable uartSys s ∧ s.put = [104, 105] ∧ s.uart.thr = [104] ∧
      s.uart.thr ++ s.uart.queued = s.put ∧ (s.uart.w - s.uart.r).toNat ≤ uartTxBufSize := by
  have hrun : (run uartSys uartSys.init hiTrace).holds (fun s =>
      s.put == [104, 105] && s.uart.thr == [104]) = true := by
    decide +kernel
  obtain ⟨s, hs, hp⟩ := Reachable.run_holds _ .init hrun
  simp only [Bool.and_eq_true, beq_iff_eq] at hp
  obtain ⟨hle, hfifo, -⟩ := uart_tx_fifo hs
  exact ⟨s, hs, hp.1, hp.2, hfifo, hle⟩

/-! ## The counters wrap -/

/-- Every byte put has been sent, and process 1 is not in `uartputc`. -/
structure Drained (s : UartSys) : Prop where
  empty : s.uart.w = s.uart.r
  free : s.putters 1 = none

theorem not_full_of_drained {s : UartSys} (h : Drained s) : s.uart.w ≠ s.uart.r + uartTxBufSize.toUInt64 := by
  rw [Ne, full_iff, h.empty, UInt64.sub_self]
  decide

/-- `uartputc` on an empty ring puts the byte. -/
theorem uartputc_empty {u : TxRing} (h : u.w = u.r) (idle : Nat → Bool) (c : UInt8) :
    uartputc idle u c = some (uartstart idle { u with buf := Function.update u.buf (txSlot u.w) c, w := u.w + 1 }) := by
  unfold uartputc
  rw [if_neg (by rw [full_iff, h, UInt64.sub_self]; decide)]

/-- `uartstart` with one byte waiting sends it if its first read of `LSR` finds the UART idle. -/
theorem uartstart_one {u : TxRing} (h : u.w = u.r + 1) (idle : Nat → Bool) :
    uartstart idle u = if idle 0 then { u with r := u.r + 1, thr := u.thr ++ [u.buf (txSlot u.r)] } else u := by
  have hne : u.r + 1 ≠ u.r := by simp
  have hd : (u.w - u.r).toNat = 1 := by
    have := u.r.toNat_lt
    rw [h]
    simp only [UInt64.toNat_sub, UInt64.toNat_add, UInt64.toNat_one]
    omega
  unfold uartstart
  rw [hd]
  cases hi : idle 0 <;> simp [startLoop, hi, h, hne]

/-- A byte put in a drained ring with the UART idle is sent at once. -/
theorem putc_drained {s : UartSys} (h : Drained s) (c : UInt8) :
    ∃ s', uartNext s (.putc 1 c fun _ => true) = .ok s' ∧ Drained s' ∧ s'.uart.w = s.uart.w + 1 := by
  refine ⟨s.putc 1 c fun _ => true, by simp only [uartNext, h.free], ?_⟩
  simp only [UartSys.putc, uartputc_empty h.empty]
  rw [uartstart_one (by simp [h.empty])]
  exact ⟨⟨by simp [h.empty], by simp⟩, rfl⟩

/-- A byte put in a drained ring with the UART busy waits. -/
theorem putc_stalled {s : UartSys} (h : Drained s) (c : UInt8) :
    ∃ s', uartNext s (.putc 1 c fun _ => false) = .ok s' ∧ s'.uart.w = s.uart.w + 1 ∧ s'.uart.r = s.uart.r := by
  refine ⟨s.putc 1 c fun _ => false, by simp only [uartNext, h.free], ?_⟩
  simp only [UartSys.putc, uartputc_empty h.empty]
  rw [uartstart_one (by simp [h.empty])]
  exact ⟨rfl, rfl⟩

/-- `uart_tx_w` takes every value, modulo `2^64`, with the ring drained. -/
theorem drained_reachable : ∀ k : Nat, ∃ s, Reachable uartSys s ∧ Drained s ∧ s.uart.w = k.toUInt64
  | 0 => ⟨_, .init, ⟨rfl, rfl⟩, rfl⟩
  | k + 1 => by
    obtain ⟨s, hs, hd, hw⟩ := drained_reachable k
    obtain ⟨s', hstep, hd', hw'⟩ := putc_drained hd 0
    refine ⟨s', .step (.putc 1 0 fun _ => true) hs hstep, hd', ?_⟩
    rw [hw', hw]
    simp only [Nat.toUInt64, UInt64.ofNat_add]
    rfl

/-- `uart_tx_r ≤ uart_tx_w` fails once `uart_tx_w` wraps: after `2^64 - 1` bytes sent, one more
put while the UART is busy leaves `uart_tx_w = 0` below `uart_tx_r = 2^64 - 1`. -/
theorem tx_counters_wrap : ∃ s, Reachable uartSys s ∧ s.uart.w < s.uart.r ∧ (s.uart.w - s.uart.r).toNat = 1 := by
  obtain ⟨s, hs, hd, hw⟩ := drained_reachable (2 ^ 64 - 1)
  obtain ⟨s', hstep, hw', hr'⟩ := putc_stalled hd 0
  refine ⟨s', .step (.putc 1 0 fun _ => false) hs hstep, ?_, ?_⟩ <;>
    rw [hw', hr', ← hd.empty, hw] <;> decide

end Xv6.Uart
