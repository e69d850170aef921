import Mathlib
import Xv6.Lib.Ring
import Xv6.Lib.Trans

/-!
# The virtio disk's descriptors (`virtio_disk.c`)

`virtio_disk_rw` takes three of the `NUM` descriptors with `alloc3_desc`, sleeping on
`disk.free[0]` while there are not three free; it chains them head, data, status with
`VRING_DESC_F_NEXT`, records the buffer in `disk.info` at the head, puts the head on the avail
ring and sleeps until `b->disk` drops; then it frees the chain with `free_chain`.
`virtio_disk_intr` reads the used ring from `disk.used_idx` to `used->idx` and clears `b->disk`
for the buffer recorded at each head. Each section runs under `vdisk_lock`. The device is a queue:
it reads the avail ring in order, holds the chains it read, and completes each one once, in any
order, writing status `0` and the head into the used ring. The avail and used counters are
`uint16`s and wrap; the rings are read through `Ring.view`.

* `allocDesc`, `freeDesc`, `freeChain`, `alloc3Desc`, `submit` and `virtioDiskIntr`, as the system
  `virtioSys` of the calls, their wakeups, the interrupt and the device;
* `alloc3Desc_spec` : `alloc3_desc` takes three distinct free descriptors or leaves the free set;
* `VirtioInv` : every descriptor is free or in the chain of one request, each chain linked by
  `VRING_DESC_F_NEXT`, and the heads on the rings and in the device are those of the requests whose
  `b->disk` is set, each once (`virtioInv_reachable`);
* `virtio_descriptors` : in every reachable state, `free_chain` frees exactly a finished request's
  chain, and `virtio_disk_intr` clears `b->disk` exactly for the buffers at the completed heads,
  neither of them panicking.
-/

namespace Xv6.Virtio

open Ring Trans

/-- `NUM` -/
def num : Nat := 8

instance : NeZero num := ⟨by decide⟩

/-- `VRING_DESC_F_NEXT` -/
def vringDescFNext : UInt16 := 1

/-- `VRING_DESC_F_WRITE` -/
def vringDescFWrite : UInt16 := 2

/-- A descriptor's `flags` and `next`, which chain it; its `addr` and `len` are the device's to
read, and no function here reads them. -/
structure Desc where
  flags : UInt16
  next : UInt16
  deriving DecidableEq, Repr

/-- `disk.info[i]`: the buffer (by its index; `none` is a null pointer) of the request whose chain
starts at `i`, and the status byte the device writes. -/
structure Info where
  b : Option Nat
  status : UInt8
  deriving DecidableEq, Repr

/-- `struct virtq_avail`: the driver's `idx` and the heads in `ring`. -/
structure Avail where
  idx : UInt16
  ring : Fin num → UInt16

/-- `struct virtq_used`: the device's `idx`, and the `id` of each `virtq_used_elem` of `ring`. -/
structure Used where
  idx : UInt16
  ring : Fin num → UInt32

/-- `struct disk`, without the command headers `ops` and the lock. -/
structure Disk where
  desc : Fin num → Desc
  avail : Avail
  used : Used
  free : Fin num → Bool
  /-- `disk.used_idx`: how far the driver has read the used ring -/
  usedIdx : UInt16
  info : Fin num → Info

/-- `disk.desc[i]`, which `free_chain` reads before `free_desc` checks `i`; past `NUM` it reads no
descriptor of the table. -/
def Disk.descAt (d : Disk) (i : Nat) : Desc := if h : i < num then d.desc ⟨i, h⟩ else ⟨0, 0⟩

/-- `disk.info[id]` for an `id` read from the used ring. -/
def Disk.infoAt (d : Disk) (id : Nat) : Info := if h : id < num then d.info ⟨id, h⟩ else ⟨none, 0⟩

/-! ## Descriptors -/

/-- `alloc_desc()`: the first free descriptor, taken; `none` is its `-1`. -/
def allocDesc (d : Disk) : Option (Fin num × Disk) :=
  match (List.finRange num).find? fun i => d.free i with
  | none => none
  | some i => some (i, { d with free := Function.update d.free i false })

/-- `free_desc(i)` -/
def freeDesc (d : Disk) (i : Nat) : Except String Disk :=
  if h : num ≤ i then .error "free_desc 1"
  else if d.free ⟨i, by omega⟩ then .error "free_desc 2"
  else .ok { d with
    desc := Function.update d.desc ⟨i, by omega⟩ ⟨0, 0⟩
    free := Function.update d.free ⟨i, by omega⟩ true }

/-- The loop of `free_chain(i)`: `free_desc` along `next` while `VRING_DESC_F_NEXT` is set. Each turn
frees a descriptor that was not free, or panics, so `NUM + 1` turns never run out. -/
def freeChainLoop : Nat → Disk → Nat → Except String Disk
  | 0, d, _ => .ok d
  | fuel + 1, d, i => do
    let flag := (d.descAt i).flags
    let nxt := (d.descAt i).next
    let d ← freeDesc d i
    if flag &&& vringDescFNext ≠ 0 then freeChainLoop fuel d nxt.toNat else return d

/-- `free_chain(i)` -/
def freeChain (d : Disk) (i : Nat) : Except String Disk := freeChainLoop (num + 1) d i

/-- The loop of `alloc3_desc(idx)` with `n` turns to go, `taken` holding `idx[0..i)`: each turn puts
`alloc_desc()` in `idx[i]`, and on a `-1` frees `idx[0..i)` and returns `-1` (`none`). -/
def alloc3Loop : Nat → List (Fin num) → Disk → Except String (Option (List (Fin num)) × Disk)
  | 0, taken, d => .ok (some taken, d)
  | n + 1, taken, d =>
    match allocDesc d with
    | none => do
      let d ← taken.foldlM (fun d j => freeDesc d j.val) d
      return (none, d)
    | some (i, d) => alloc3Loop n (taken ++ [i]) d

/-- `alloc3_desc(idx)`: the three descriptors in `idx`, or `none` with every one given back. -/
def alloc3Desc (d : Disk) : Except String (Option (List (Fin num)) × Disk) := alloc3Loop 3 [] d

/-- The body of `virtio_disk_rw` between `alloc3_desc` and its `sleep(b)`: the chain `idx[0]`,
`idx[1]`, `idx[2]`, the request recorded at its head, and the head on the avail ring. (The command
header `ops[idx[0]]` and the descriptors' `addr` and `len` are the device's to read.) -/
def submit (d : Disk) (b : Nat) (write : Bool) (idx : List (Fin num)) : Disk :=
  let i0 := idx.getD 0 0
  let i1 := idx.getD 1 0
  let i2 := idx.getD 2 0
  { d with
    desc := Function.update (Function.update (Function.update d.desc
      i0 ⟨vringDescFNext, i1.val.toUInt16⟩)
      i1 ⟨(if write then 0 else vringDescFWrite) ||| vringDescFNext, i2.val.toUInt16⟩)
      i2 ⟨vringDescFWrite, 0⟩
    info := Function.update d.info i0 ⟨some b, 0xff⟩
    avail := ⟨d.avail.idx + 1, Function.update d.avail.ring (slot num d.avail.idx.toNat) i0.val.toUInt16⟩ }

/-! ## The system -/

/-- A call of `virtio_disk_rw(b, write)` asleep: in the loop around `alloc3_desc`, or with its
chain `idx` queued, until `b->disk` drops. -/
inductive Req where
  | alloc (b : Nat) (write : Bool)
  | wait (b : Nat) (idx : List (Fin num))
  deriving DecidableEq, Repr

/-- The buffer of a request. -/
def Req.buf : Req → Nat
  | .alloc b _ => b
  | .wait b _ => b

/-- The device: the next avail entry it reads, and the heads of the chains it holds. -/
structure Device where
  lastAvail : UInt16
  pending : List Nat

/-- The disk, the device, and for each buffer `b->disk` and its sleep-lock, which `bread` and
`bwrite` hold across `virtio_disk_rw`; for each process, its call of `virtio_disk_rw`. -/
structure VirtioSys where
  disk : Disk
  dev : Device
  bdisk : Nat → Bool
  locked : Nat → Bool
  reqs : Nat → Option Req

/-- A section under `vdisk_lock`, or a step of the device. -/
inductive VirtioEv where
  /-- Process `p`, holding `b`'s sleep-lock, calls `virtio_disk_rw(b, write)`. -/
  | rw (p b : Nat) (write : Bool)
  /-- The call of `p` comes back from `sleep(&disk.free[0])` and tries `alloc3_desc` again. -/
  | retry (p : Nat)
  /-- The call of `p` comes back from `sleep(b)`. -/
  | finish (p : Nat)
  /-- `virtio_disk_intr()` -/
  | intr
  /-- The device reads the next entry of the avail ring. -/
  | fetch
  /-- The device completes the `k`-th chain it holds. -/
  | complete (k : Nat)
  deriving DecidableEq, Repr

/-- `virtio_disk_rw` by `p` from its call of `alloc3_desc`: `p` sleeps on `disk.free[0]` with every
descriptor given back, or the chain is queued and `p` sleeps on `b`. -/
def VirtioSys.request (s : VirtioSys) (p b : Nat) (write : Bool) : Outcome VirtioSys :=
  match alloc3Desc s.disk with
  | .error m => .panic m
  | .ok (none, d) => .ok { s with disk := d, reqs := Function.update s.reqs p (some (.alloc b write)) }
  | .ok (some idx, d) =>
    .ok { s with
      disk := submit d b write idx
      bdisk := Function.update s.bdisk b true
      reqs := Function.update s.reqs p (some (.wait b idx)) }

/-- `virtio_disk_rw` by `p` after `sleep(b)`, once `b->disk` is `0`: `disk.info[idx[0]].b = 0` and
`free_chain(idx[0])`; `p` returns and its caller lets go of `b`. -/
def VirtioSys.finish (s : VirtioSys) (p : Nat) : Outcome VirtioSys :=
  match s.reqs p with
  | some (.wait b idx) =>
    if s.bdisk b then .blocked
    else
      let i0 := idx.getD 0 0
      match freeChain { s.disk with info := Function.update s.disk.info i0 { s.disk.info i0 with b := none } } i0.val with
      | .error m => .panic m
      | .ok d => .ok { s with disk := d, locked := Function.update s.locked b false, reqs := Function.update s.reqs p none }
  | _ => .blocked

/-- The loop of `virtio_disk_intr`, while `disk.used_idx != used->idx`: the status at the head the
used ring names, then `b->disk = 0` for the buffer recorded there (a null one faults in the
kernel). `used->idx - disk.used_idx + 1` turns are enough. -/
def intrLoop : Nat → VirtioSys → Outcome VirtioSys
  | 0, s => .ok s
  | fuel + 1, s =>
    if s.disk.usedIdx = s.disk.used.idx then .ok s
    else
      let id := (s.disk.used.ring (slot num s.disk.usedIdx.toNat)).toNat
      if (s.disk.infoAt id).status ≠ 0 then .panic "virtio_disk_intr status"
      else
        match (s.disk.infoAt id).b with
        | none => .panic "kerneltrap"
        | some b =>
          intrLoop fuel { s with
            bdisk := Function.update s.bdisk b false
            disk := { s.disk with usedIdx := s.disk.usedIdx + 1 } }

/-- `virtio_disk_intr()` -/
def virtioDiskIntr (s : VirtioSys) : Outcome VirtioSys :=
  intrLoop ((s.disk.used.idx - s.disk.usedIdx).toNat + 1) s

/-- The device reads the head at its next avail entry. -/
def VirtioSys.fetch (s : VirtioSys) : Outcome VirtioSys :=
  if s.dev.lastAvail = s.disk.avail.idx then .blocked
  else .ok { s with dev := ⟨s.dev.lastAvail + 1,
    s.dev.pending ++ [(s.disk.avail.ring (slot num s.dev.lastAvail.toNat)).toNat]⟩ }

/-- The device completes the `k`-th chain it holds: status `0` at its head, and the head on the used
ring. -/
def VirtioSys.complete (s : VirtioSys) (k : Nat) : Outcome VirtioSys :=
  match s.dev.pending[k]? with
  | none => .blocked
  | some h =>
    .ok { s with
      disk := { s.disk with
        info := if hh : h < num then Function.update s.disk.info ⟨h, hh⟩ { s.disk.info ⟨h, hh⟩ with status := 0 }
          else s.disk.info
        used := ⟨s.disk.used.idx + 1, Function.update s.disk.used.ring (slot num s.disk.used.idx.toNat) h.toUInt32⟩ }
      dev := ⟨s.dev.lastAvail, s.dev.pending.eraseIdx k⟩ }

def virtioNext (s : VirtioSys) : VirtioEv → Outcome VirtioSys
  | .rw p b write =>
    -- `p` is in no call, and takes `b`'s sleep-lock
    if s.reqs p = none ∧ s.locked b = false then
      ({ s with locked := Function.update s.locked b true }).request p b write
    else .blocked
  | .retry p =>
    match s.reqs p with
    | some (.alloc b write) => s.request p b write
    | _ => .blocked
  | .finish p => s.finish p
  | .intr => virtioDiskIntr s
  | .fetch => s.fetch
  | .complete k => s.complete k

/-- `virtio_disk_init`: every descriptor free, the rings and counters zero; no buffer at the disk. -/
def diskInit : Disk where
  desc := fun _ => ⟨0, 0⟩
  avail := ⟨0, fun _ => 0⟩
  used := ⟨0, fun _ => 0⟩
  free := fun _ => true
  usedIdx := 0
  info := fun _ => ⟨none, 0⟩

def virtioSys : System VirtioSys VirtioEv where
  init := ⟨diskInit, ⟨0, []⟩, fun _ => false, fun _ => false, fun _ => none⟩
  next := virtioNext

/-! ## What the descriptor functions do -/

section Descriptors

variable {d d' : Disk}

theorem allocDesc_eq_none : allocDesc d = none ↔ ∀ i, d.free i = false := by
  unfold allocDesc
  split
  · rename_i h
    refine iff_of_true rfl fun i => ?_
    simpa using List.find?_eq_none.mp h i (List.mem_finRange i)
  · rename_i i h
    refine iff_of_false (fun h' => by cases h') fun hall => ?_
    have := List.find?_some h
    rw [hall i] at this
    cases this

theorem allocDesc_eq_some {i : Fin num} (h : allocDesc d = some (i, d')) :
    d.free i = true ∧ d' = { d with free := Function.update d.free i false } := by
  unfold allocDesc at h
  split at h
  · cases h
  · rename_i j hj
    cases h
    exact ⟨List.find?_some hj, rfl⟩

/-- `free_desc` of a taken descriptor zeroes it and gives it back. -/
theorem freeDesc_of_taken {i : Fin num} (h : d.free i = false) :
    freeDesc d i.val =
      .ok { d with desc := Function.update d.desc i ⟨0, 0⟩, free := Function.update d.free i true } := by
  unfold freeDesc
  rw [dif_neg (Nat.not_le.mpr i.isLt), if_neg (by simp [h])]

/-- The disk with the descriptors of `l` zeroed and given back. -/
def Disk.release (d : Disk) (l : List (Fin num)) : Disk :=
  { d with desc := fun i => if i ∈ l then ⟨0, 0⟩ else d.desc i, free := fun i => d.free i || decide (i ∈ l) }

/-- `free_desc` of each of distinct taken descriptors, in turn. -/
theorem freeAll_eq : ∀ {l : List (Fin num)} {d : Disk}, l.Nodup → (∀ j ∈ l, d.free j = false) →
    l.foldlM (fun d j => freeDesc d j.val) d = .ok (d.release l)
  | [], d, _, _ => by
    cases d
    simp [Disk.release]
    rfl
  | j :: l, d, hnd, htaken => by
    rw [List.nodup_cons] at hnd
    have hl : ∀ k ∈ l, (Function.update d.free j true) k = false := by
      intro k hk
      rw [Function.update_of_ne (fun h => hnd.1 (by rw [← h]; exact hk))]
      exact htaken k (List.mem_cons_of_mem _ hk)
    rw [List.foldlM_cons, freeDesc_of_taken (htaken j List.mem_cons_self)]
    refine (freeAll_eq hnd.2 hl).trans ?_
    congr 1
    simp only [Disk.release, Disk.mk.injEq, List.mem_cons]
    refine ⟨funext fun i => ?_, trivial, trivial, funext fun i => ?_, trivial, trivial⟩ <;>
      by_cases hij : i = j
    all_goals simp [hij, Function.update_of_ne]

/-- A chain linked head, data, status: three distinct descriptors, each of the first two with
`VRING_DESC_F_NEXT` set and `next` at the following one, the last without it. -/
def Chained (d : Disk) (idx : List (Fin num)) : Prop :=
  ∃ i0 i1 i2, idx = [i0, i1, i2] ∧ idx.Nodup ∧
    (d.desc i0).flags &&& vringDescFNext ≠ 0 ∧ (d.desc i0).next.toNat = i1.val ∧
    (d.desc i1).flags &&& vringDescFNext ≠ 0 ∧ (d.desc i1).next.toNat = i2.val ∧
    (d.desc i2).flags &&& vringDescFNext = 0

/-- One turn of `free_chain` at a taken descriptor: it is freed, and the loop follows its `next`
when its `VRING_DESC_F_NEXT` is set. -/
theorem freeChainLoop_succ {fuel : Nat} {i : Fin num} (h : d.free i = false) :
    freeChainLoop (fuel + 1) d i.val =
      let d' := { d with desc := Function.update d.desc i ⟨0, 0⟩, free := Function.update d.free i true }
      if (d.desc i).flags &&& vringDescFNext ≠ 0 then freeChainLoop fuel d' (d.desc i).next.toNat
      else .ok d' := by
  rw [freeChainLoop, Disk.descAt, dif_pos i.isLt, freeDesc_of_taken h]
  rfl

/-- `free_chain` of a taken chain frees exactly its three descriptors. -/
theorem freeChain_of_chained {idx : List (Fin num)} (hc : Chained d idx) (htaken : ∀ i ∈ idx, d.free i = false) :
    freeChain d (idx.getD 0 0).val = .ok (d.release idx) := by
  obtain ⟨i0, i1, i2, rfl, hnd, f0, n0, f1, n1, f2⟩ := hc
  have h01 : i1 ≠ i0 := fun h => by simp [h] at hnd
  have h02 : i2 ≠ i0 := fun h => by simp [h] at hnd
  have h12 : i2 ≠ i1 := fun h => by simp [h] at hnd
  rw [← freeAll_eq hnd htaken]
  -- three turns, each at a descriptor the turns before did not touch
  rw [List.getD_cons_zero, freeChain, show num + 1 = 6 + 1 + 1 + 1 from rfl,
    freeChainLoop_succ (htaken i0 (by simp))]
  simp only [if_pos f0, n0]
  rw [freeChainLoop_succ (by simpa [h01] using htaken i1 (by simp))]
  simp only [Function.update_of_ne h01, if_pos f1, n1]
  rw [freeChainLoop_succ (by simpa [h02, h12] using htaken i2 (by simp))]
  simp only [Function.update_of_ne h02, Function.update_of_ne h12, f2, ne_eq, not_true_eq_false,
    if_false, List.foldlM_cons, List.foldlM_nil, freeDesc_of_taken (htaken i0 (by simp))]
  rw [ok_bind, freeDesc_of_taken (by simpa [h01] using htaken i1 (by simp)), ok_bind,
    freeDesc_of_taken (by simpa [h02, h12] using htaken i2 (by simp)), ok_bind]
  rfl

/-- What the loop of `alloc3_desc` does from `taken`, descriptors it already took: it takes `n`
more distinct free ones, changing no descriptor, or gives back every one it holds, zeroing those and
no descriptor taken before it ran. Nothing but descriptors changes. -/
theorem alloc3Loop_spec : ∀ (n : Nat) (taken : List (Fin num)) (d : Disk), taken.Nodup →
    (∀ j ∈ taken, d.free j = false) →
    ∃ r d', alloc3Loop n taken d = .ok (r, d') ∧ d' = { d with desc := d'.desc, free := d'.free } ∧
      (r = none → (∀ i, d'.free i = (d.free i || decide (i ∈ taken))) ∧
        ∀ i, d.free i = false → i ∉ taken → d'.desc i = d.desc i) ∧
      ∀ idx, r = some idx → ∃ new, idx = taken ++ new ∧ new.length = n ∧ idx.Nodup ∧
        (∀ i ∈ new, d.free i = true) ∧ d'.desc = d.desc ∧ ∀ i, d'.free i = (d.free i && decide (i ∉ new))
  | 0, taken, d, hnd, _ =>
    ⟨some taken, d, rfl, rfl, (fun h => by cases h), fun idx h => by
      cases h
      exact ⟨[], by simp, rfl, hnd, by simp, rfl, by simp⟩⟩
  | n + 1, taken, d, hnd, htaken => by
    rw [alloc3Loop]
    cases ha : allocDesc d with
    | none =>
      -- no descriptor is free: those taken go back
      refine ⟨none, d.release taken, ?_, rfl, fun _ => ⟨fun i => rfl, fun i _ hi => ?_⟩, fun idx h => by cases h⟩
      · simp only [freeAll_eq hnd htaken]
        rfl
      · simp [Disk.release, hi]
    | some p =>
      obtain ⟨i, d1⟩ := p
      obtain ⟨hfree, rfl⟩ := allocDesc_eq_some ha
      have hi : i ∉ taken := fun h => by
        rw [htaken i h] at hfree
        cases hfree
      have hnd' : (taken ++ [i]).Nodup :=
        List.nodup_append.mpr ⟨hnd, List.nodup_singleton i, fun a ha b hb hab => hi (by
          rw [← List.mem_singleton.mp hb, ← hab]
          exact ha)⟩
      have htaken' : ∀ j ∈ taken ++ [i], (Function.update d.free i false) j = false := by
        intro j hj
        rcases List.mem_append.mp hj with hj | hj
        · rw [Function.update_of_ne (fun h => hi (by rw [← h]; exact hj))]
          exact htaken j hj
        · rw [List.mem_singleton.mp hj, Function.update_self]
      obtain ⟨r, d', hrun, hd', hnone, hsome⟩ := alloc3Loop_spec n (taken ++ [i]) { d with free := Function.update d.free i false } hnd' htaken'
      refine ⟨r, d', hrun, by rw [hd'], fun hr => ⟨fun j => ?_, fun j hj hjt => ?_⟩, fun idx hr => ?_⟩
      · -- the descriptor this turn took goes back with the others
        rw [(hnone hr).1 j]
        by_cases hji : j = i
        · subst hji
          simp [hfree]
        · simp [hji]
      · have hji : j ≠ i := fun h => by
          rw [h, hfree] at hj
          cases hj
        exact (hnone hr).2 j (by simpa [Function.update_of_ne hji] using hj) (by simp [hjt, hji])
      · obtain ⟨new, hidx, hlen, hnodup, hnew, hdesc, hfree'⟩ := hsome idx hr
        refine ⟨i :: new, by rw [hidx, List.append_assoc, List.singleton_append], by simp [hlen], hnodup,
          fun j hj => ?_, hdesc, fun j => ?_⟩
        · rcases List.mem_cons.mp hj with rfl | hj
          · exact hfree
          · have := hnew j hj
            by_cases hji : j = i
            · subst hji
              simp at this
            · simpa [Function.update_of_ne hji] using this
        · rw [hfree' j]
          by_cases hji : j = i
          · subst hji
            simp
          · simp [hji]

/-- `alloc3_desc` never panics: it takes three distinct free descriptors and changes none, or takes
none and leaves the free set as it was. It changes no taken descriptor, and nothing else. -/
theorem alloc3Desc_spec (d : Disk) :
    ∃ r d', alloc3Desc d = .ok (r, d') ∧ d' = { d with desc := d'.desc, free := d'.free } ∧
      (∀ i, d.free i = false → d'.desc i = d.desc i) ∧ (r = none → d'.free = d.free) ∧
      ∀ idx, r = some idx → idx.length = 3 ∧ idx.Nodup ∧ (∀ i ∈ idx, d.free i = true) ∧
        ∀ i, d'.free i = (d.free i && decide (i ∉ idx)) := by
  obtain ⟨r, d', hrun, hd', hnone, hsome⟩ := alloc3Loop_spec 3 [] d List.nodup_nil (by simp)
  refine ⟨r, d', hrun, hd', fun i hi => ?_, fun hr => funext fun i => by simpa using (hnone hr).1 i, fun idx hr => ?_⟩
  · cases r with
    | none => exact (hnone rfl).2 i hi List.not_mem_nil
    | some idx =>
      obtain ⟨-, -, -, -, -, hdesc, -⟩ := hsome idx rfl
      rw [hdesc]
  · obtain ⟨new, rfl, hlen, hnodup, hnew, -, hfree⟩ := hsome idx hr
    exact ⟨hlen, hnodup, hnew, hfree⟩

end Descriptors

theorem Chained.head_mem {d : Disk} {idx : List (Fin num)} (hc : Chained d idx) : idx.getD 0 0 ∈ idx := by
  obtain ⟨i0, i1, i2, rfl, -⟩ := hc
  simp

/-- A chain stays linked while its descriptors stay. -/
theorem Chained.congr {d d' : Disk} {idx : List (Fin num)} (hc : Chained d idx)
    (h : ∀ i ∈ idx, d'.desc i = d.desc i) : Chained d' idx := by
  obtain ⟨i0, i1, i2, rfl, hnd, f0, n0, f1, n1, f2⟩ := hc
  refine ⟨i0, i1, i2, rfl, hnd, ?_⟩
  rw [h i0 (by simp), h i1 (by simp), h i2 (by simp)]
  exact ⟨f0, n0, f1, n1, f2⟩

theorem Disk.infoAt_val (d : Disk) (i : Fin num) : d.infoAt i.val = d.info i := by
  simp [Disk.infoAt]

/-- A descriptor's number fits in a `next` field. -/
theorem toUInt16_toNat_val (i : Fin num) : i.val.toUInt16.toNat = i.val := by
  have := i.isLt
  simp only [num, Nat.toUInt16_eq, UInt16.toNat_ofNat'] at *
  omega

/-! ## What `virtio_disk_rw` writes -/

section Submit

variable {d : Disk} {b : Nat} {write : Bool} {i0 i1 i2 : Fin num}

@[simp] theorem submit_free (idx : List (Fin num)) : (submit d b write idx).free = d.free := rfl

@[simp] theorem submit_used (idx : List (Fin num)) : (submit d b write idx).used = d.used := rfl

@[simp] theorem submit_usedIdx (idx : List (Fin num)) : (submit d b write idx).usedIdx = d.usedIdx := rfl

theorem submit_avail (idx : List (Fin num)) :
    (submit d b write idx).avail =
      ⟨d.avail.idx + 1, Function.update d.avail.ring (slot num d.avail.idx.toNat) (idx.getD 0 0).val.toUInt16⟩ :=
  rfl

/-- The descriptors outside the chain are as they were. -/
theorem submit_desc_of_not_mem {i : Fin num} (hi : i ∉ [i0, i1, i2]) :
    (submit d b write [i0, i1, i2]).desc i = d.desc i := by
  simp only [List.mem_cons, List.not_mem_nil, or_false, not_or] at hi
  simp [submit, Function.update_of_ne hi.1, Function.update_of_ne hi.2.1, Function.update_of_ne hi.2.2]

/-- The chain `virtio_disk_rw` writes is linked head, data, status. -/
theorem submit_chained (hnd : [i0, i1, i2].Nodup) : Chained (submit d b write [i0, i1, i2]) [i0, i1, i2] := by
  have h01 : i0 ≠ i1 := fun h => by simp [h] at hnd
  have h02 : i0 ≠ i2 := fun h => by simp [h] at hnd
  have h12 : i1 ≠ i2 := fun h => by simp [h] at hnd
  refine ⟨i0, i1, i2, rfl, hnd, ?_⟩
  simp only [submit, List.getD_cons_zero, List.getD_cons_succ, Function.update_self,
    Function.update_of_ne h01, Function.update_of_ne h02, Function.update_of_ne h12, toUInt16_toNat_val]
  exact ⟨by decide, trivial, by cases write <;> decide, trivial, by decide⟩

theorem submit_info_head (idx : List (Fin num)) : (submit d b write idx).info (idx.getD 0 0) = ⟨some b, 0xff⟩ := by
  simp [submit]

theorem submit_info_of_ne {idx : List (Fin num)} {i : Fin num} (hi : i ≠ idx.getD 0 0) :
    (submit d b write idx).info i = d.info i :=
  Function.update_of_ne hi _ _

end Submit

/-! ## Counters -/

section Counters

variable {a b : UInt16}

theorem add_one_sub (h : (a - b).toNat < num) : (a + 1 - b).toNat = (a - b).toNat + 1 := by
  have := a.toNat_lt; have := b.toNat_lt
  simp only [num, UInt16.toNat_sub, UInt16.toNat_add, UInt16.toNat_one] at *
  omega

theorem sub_add_one (h : a ≠ b) : (a - (b + 1)).toNat = (a - b).toNat - 1 := by
  have hne : a.toNat ≠ b.toNat := fun h' => h (UInt16.toNat_inj.mp h')
  have := a.toNat_lt; have := b.toNat_lt
  simp only [UInt16.toNat_sub, UInt16.toNat_add, UInt16.toNat_one]
  omega

theorem sub_pos (h : a ≠ b) : 0 < (a - b).toNat := by
  have hne : a.toNat ≠ b.toNat := fun h' => h (UInt16.toNat_inj.mp h')
  have := a.toNat_lt; have := b.toNat_lt
  simp only [UInt16.toNat_sub]
  omega

/-- From a read counter, the distance names the write counter's slot. -/
theorem slot_dist (a b : UInt16) : slot num (b.toNat + (a - b).toNat) = slot num a.toNat := by
  rw [slot_eq_iff]
  have := a.toNat_lt; have := b.toNat_lt
  simp only [num, UInt16.toNat_sub]
  omega

theorem succ_mod (a : UInt16) : (a + 1).toNat % num = (a.toNat + 1) % num := by
  have := a.toNat_lt
  simp only [num, UInt16.toNat_add, UInt16.toNat_one]
  omega

/-- A write at the write counter appends to the queue from the read counter. -/
theorem view_push_at {α : Type} (buf : Fin num → α) {r w : UInt16} (h : (w - r).toNat < num) (x : α) :
    view (Function.update buf (slot num w.toNat) x) r.toNat (w + 1 - r).toNat = view buf r.toNat (w - r).toNat ++ [x] := by
  rw [add_one_sub h, ← slot_dist w r, view_push buf h]

/-- A read at the read counter takes the queue's first entry. -/
theorem view_pop_at {α : Type} (buf : Fin num → α) {r w : UInt16} (h : w ≠ r) :
    view buf r.toNat (w - r).toNat = buf (slot num r.toNat) :: view buf (r + 1).toNat (w - (r + 1)).toNat := by
  rw [sub_add_one h, view_congr_mod buf (succ_mod r), ← view_succ_left, Nat.sub_add_cancel (sub_pos h)]

end Counters

/-! ## The queue between the driver and the device -/

/-- The heads on the avail ring that the device has not read. -/
def VirtioSys.unread (s : VirtioSys) : List Nat :=
  (view s.disk.avail.ring s.dev.lastAvail.toNat (s.disk.avail.idx - s.dev.lastAvail).toNat).map UInt16.toNat

/-- The heads on the used ring that the driver has not read. -/
def VirtioSys.done (s : VirtioSys) : List Nat :=
  (view s.disk.used.ring s.disk.usedIdx.toNat (s.disk.used.idx - s.disk.usedIdx).toNat).map UInt32.toNat

/-- The chains between the driver and the device, by their heads: on the avail ring, held by the
device, and on the used ring. -/
def VirtioSys.heads (s : VirtioSys) : List Nat := s.unread ++ s.dev.pending ++ s.done

/-- The buffers recorded at the completed heads, in the used ring's order. -/
def VirtioSys.doneBufs (s : VirtioSys) : List Nat := s.done.filterMap fun h => (s.disk.infoAt h).b

/-- One turn of `virtio_disk_intr` reads the first completed head. -/
theorem done_pop {s : VirtioSys} (h : s.disk.usedIdx ≠ s.disk.used.idx) (c : Nat) :
    s.done = (s.disk.used.ring (slot num s.disk.usedIdx.toNat)).toNat ::
      VirtioSys.done { s with
        bdisk := Function.update s.bdisk c false
        disk := { s.disk with usedIdx := s.disk.usedIdx + 1 } } := by
  simp only [VirtioSys.done]
  rw [view_pop_at _ (Ne.symm h), List.map_cons]

/-- The loop of `virtio_disk_intr` over completed heads that each have status `0` and a buffer: it
reads the used ring to its end and clears `b->disk` exactly for the buffers recorded at them. -/
theorem intrLoop_eq : ∀ (fuel : Nat) (s : VirtioSys), s.done.length < fuel →
    (∀ h ∈ s.done, (s.disk.infoAt h).status = 0 ∧ (s.disk.infoAt h).b ≠ none) →
    intrLoop fuel s = .ok { s with
      bdisk := fun c => s.bdisk c && decide (c ∉ s.doneBufs)
      disk := { s.disk with usedIdx := s.disk.used.idx } }
  | 0, s, hlen, _ => absurd hlen (Nat.not_lt_zero _)
  | fuel + 1, s, hlen, hdone => by
    rw [intrLoop]
    by_cases heq : s.disk.usedIdx = s.disk.used.idx
    · -- nothing completed: the loop stops at once
      have hnil : s.done = [] := by simp [VirtioSys.done, heq]
      have hd : { s.disk with usedIdx := s.disk.used.idx } = s.disk := by rw [← heq]
      simp only [if_pos heq, VirtioSys.doneBufs, hnil, List.filterMap_nil, List.not_mem_nil,
        not_false_eq_true, decide_true, Bool.and_true, hd]
    · set id := (s.disk.used.ring (slot num s.disk.usedIdx.toNat)).toNat
      obtain ⟨hst, hb⟩ := hdone id (by rw [done_pop heq 0]; exact List.mem_cons_self)
      obtain ⟨c, hc⟩ := Option.ne_none_iff_exists'.mp hb
      set s1 : VirtioSys := { s with
        bdisk := Function.update s.bdisk c false
        disk := { s.disk with usedIdx := s.disk.usedIdx + 1 } }
      have hsplit : s.done = id :: s1.done := done_pop heq c
      have hinfo : ∀ h, s1.disk.infoAt h = s.disk.infoAt h := fun _ => rfl
      have hbufs : s.doneBufs = c :: s1.doneBufs := by
        simp only [VirtioSys.doneBufs, hsplit, List.filterMap_cons, hc, hinfo]
      rw [if_neg heq, if_neg (by rw [hst]; exact not_not.mpr rfl)]
      simp only [hc]
      -- the turns that remain, from the next completed head
      rw [intrLoop_eq fuel s1 (by rw [hsplit, List.length_cons] at hlen; omega)
        (fun h hh => by rw [hinfo]; exact hdone h (by rw [hsplit]; exact List.mem_cons_of_mem _ hh))]
      congr 2
      funext c'
      rw [hbufs]
      rcases eq_or_ne c' c with rfl | hne
      · simp [s1]
      · simp [s1, hne]

/-! ## The invariant -/

/-- What holds in every reachable state. -/
structure VirtioInv (s : VirtioSys) : Prop where
  /-- A queued request's chain is linked head, data, status. -/
  chained : ∀ p b idx, s.reqs p = some (.wait b idx) → Chained s.disk idx
  /-- A descriptor is taken exactly when it is in a queued request's chain. -/
  taken_iff : ∀ i, s.disk.free i = false ↔ ∃ p b idx, s.reqs p = some (.wait b idx) ∧ i ∈ idx
  /-- Two requests' chains share no descriptor. -/
  apart : ∀ p q b c idx idx', s.reqs p = some (.wait b idx) → s.reqs q = some (.wait c idx') → p ≠ q →
    ∀ i ∈ idx, i ∉ idx'
  /-- A queued request is recorded at its head. -/
  info_b : ∀ p b idx, s.reqs p = some (.wait b idx) → (s.disk.info (idx.getD 0 0)).b = some b
  /-- A buffer's sleep-lock is held exactly while a call is on it, and one call is. -/
  locked_iff : ∀ b, s.locked b = true ↔ ∃ p r, s.reqs p = some r ∧ r.buf = b
  one_call : ∀ p q r r', s.reqs p = some r → s.reqs q = some r' → r.buf = r'.buf → p = q
  /-- Each chain between the driver and the device is there once, and they are the chains of the
  queued requests whose `b->disk` is set. -/
  heads_nodup : s.heads.Nodup
  mem_heads : ∀ h, h ∈ s.heads ↔ ∃ p b idx, s.reqs p = some (.wait b idx) ∧ (idx.getD 0 0).val = h ∧ s.bdisk b = true
  /-- `b->disk` is set only for a queued request's buffer. -/
  bdisk_queued : ∀ b, s.bdisk b = true → ∃ p idx, s.reqs p = some (.wait b idx)
  /-- The device wrote status `0` at each head it completed. -/
  done_status : ∀ h ∈ s.done, (s.disk.infoAt h).status = 0

section Inv

variable {s s' : VirtioSys}

/-- A head between the driver and the device is a taken descriptor. -/
theorem VirtioInv.head_taken (hi : VirtioInv s) {h : Nat} (hh : h ∈ s.heads) :
    ∃ hlt : h < num, s.disk.free ⟨h, hlt⟩ = false := by
  obtain ⟨p, b, idx, hp, rfl, -⟩ := (hi.mem_heads h).mp hh
  exact ⟨(idx.getD 0 0).isLt, (hi.taken_iff _).mpr ⟨p, b, idx, hp, (hi.chained p b idx hp).head_mem⟩⟩

/-- The heads, and distinct free descriptors, fit in the table together. -/
theorem VirtioInv.heads_length_add (hi : VirtioInv s) {l : List (Fin num)} (hl : l.Nodup)
    (hfree : ∀ i ∈ l, s.disk.free i = true) : s.heads.length + l.length ≤ num := by
  have hdisj : Disjoint s.heads.toFinset (l.map Fin.val).toFinset := by
    rw [Finset.disjoint_left]
    intro h hh hl'
    obtain ⟨hlt, htaken⟩ := hi.head_taken (List.mem_toFinset.mp hh)
    obtain ⟨i, hi', rfl⟩ := List.mem_map.mp (List.mem_toFinset.mp hl')
    rw [hfree i hi'] at htaken
    cases htaken
  have hsub : s.heads.toFinset ∪ (l.map Fin.val).toFinset ⊆ Finset.range num := by
    intro h hh
    rcases Finset.mem_union.mp hh with hh | hh
    · exact Finset.mem_range.mpr (hi.head_taken (List.mem_toFinset.mp hh)).1
    · obtain ⟨i, -, rfl⟩ := List.mem_map.mp (List.mem_toFinset.mp hh)
      exact Finset.mem_range.mpr i.isLt
  have hcard := Finset.card_le_card hsub
  rw [Finset.card_union_of_disjoint hdisj, List.toFinset_card_of_nodup hi.heads_nodup,
    List.toFinset_card_of_nodup (hl.map Fin.val_injective), List.length_map, Finset.card_range] at hcard
  exact hcard

/-- The queue is read off the rings, their counters and the device. -/
theorem heads_congr (h1 : s'.disk.avail = s.disk.avail) (h2 : s'.disk.used = s.disk.used)
    (h3 : s'.disk.usedIdx = s.disk.usedIdx) (h4 : s'.dev = s.dev) : s'.heads = s.heads ∧ s'.done = s.done := by
  simp only [VirtioSys.heads, VirtioSys.unread, VirtioSys.done, h1, h2, h3, h4, and_self]

/-- `p`'s call, the only one on `b` if there is one, becomes the call `r0` on `b`, and `b`'s lock is
taken: each lock is held exactly while a call is on its buffer, and one call is. -/
theorem VirtioInv.locks_replace (hi : VirtioInv s) {p b : Nat} (r0 : Req) (hr0 : r0.buf = b)
    (hpbuf : ∀ r, s.reqs p = some r → r.buf = b) (hb : ∀ q r, s.reqs q = some r → r.buf = b → q = p) :
    (∀ b', Function.update s.locked b true b' = true ↔
        ∃ q r, Function.update s.reqs p (some r0) q = some r ∧ r.buf = b') ∧
      ∀ q q' r r', Function.update s.reqs p (some r0) q = some r →
        Function.update s.reqs p (some r0) q' = some r' → r.buf = r'.buf → q = q' := by
  refine ⟨fun b' => ?_, fun q q' r r' hq hq' hbuf => ?_⟩
  · by_cases hbb : b' = b
    · subst hbb
      simp only [Function.update_self, true_iff]
      exact ⟨p, r0, by simp, hr0⟩
    · rw [Function.update_of_ne hbb, hi.locked_iff b']
      constructor
      · rintro ⟨q, r, hq, hr⟩
        have hqp : q ≠ p := fun hqp => hbb (by rw [← hr, hpbuf r (hqp ▸ hq)])
        exact ⟨q, r, by rwa [Function.update_of_ne hqp], hr⟩
      · rintro ⟨q, r, hq, hr⟩
        by_cases hqp : q = p
        · subst hqp
          rw [Function.update_self, Option.some.injEq] at hq
          subst hq
          exact absurd (hr.symm.trans hr0) hbb
        · exact ⟨q, r, by rwa [Function.update_of_ne hqp] at hq, hr⟩
  · -- a second call on `b` would be `p`'s
    by_cases hqp : q = p <;> by_cases hqp' : q' = p
    · rw [hqp, hqp']
    · subst hqp
      rw [Function.update_self, Option.some.injEq] at hq
      subst hq
      rw [Function.update_of_ne hqp'] at hq'
      exact absurd (hb q' r' hq' (hbuf.symm.trans hr0)) hqp'
    · subst hqp'
      rw [Function.update_self, Option.some.injEq] at hq'
      subst hq'
      rw [Function.update_of_ne hqp] at hq
      exact absurd (hb q r hq (hbuf.trans hr0)) hqp
    · rw [Function.update_of_ne hqp] at hq
      rw [Function.update_of_ne hqp'] at hq'
      exact hi.one_call q q' r r' hq hq' hbuf

/-- The call of `p` is in the loop around `alloc3_desc` or not yet made, on `b`. -/
theorem buf_of_calling {p b : Nat} (hp : s.reqs p = none ∨ ∃ w, s.reqs p = some (.alloc b w)) :
    ∀ r, s.reqs p = some r → r.buf = b := by
  intro r hr
  rcases hp with hp | ⟨w, hp⟩
  · rw [hp] at hr
    cases hr
  · rw [hp] at hr
    cases hr
    rfl

theorem not_wait_of_calling {p b : Nat} (hp : s.reqs p = none ∨ ∃ w, s.reqs p = some (.alloc b w)) :
    ∀ c idx, s.reqs p ≠ some (.wait c idx) := by
  intro c idx h
  rcases hp with hp | ⟨w, hp⟩ <;> rw [hp] at h <;> cases h

/-- After `p`'s call, which was not queued, becomes `r0`, the queued calls are those queued before
and `r0`. -/
theorem wait_update_iff {p : Nat} {r0 : Req} (hp : ∀ c idx, s.reqs p ≠ some (.wait c idx)) (q c : Nat)
    (idx : List (Fin num)) :
    Function.update s.reqs p (some r0) q = some (.wait c idx) ↔ (q = p ∧ r0 = .wait c idx) ∨ s.reqs q = some (.wait c idx) := by
  rcases eq_or_ne q p with rfl | hq
  · simp [hp]
  · simp [hq]

/-- A free descriptor is in no queued chain. -/
theorem VirtioInv.not_mem_of_free (hi : VirtioInv s) {q c : Nat} {idx : List (Fin num)}
    (hq : s.reqs q = some (.wait c idx)) {i : Fin num} (hfr : s.disk.free i = true) : i ∉ idx := by
  intro hmem
  rw [(hi.taken_iff i).mpr ⟨q, c, idx, hq, hmem⟩] at hfr
  cases hfr

/-- The device's queue after a head is put on the avail ring: one more unread entry. -/
theorem unread_push (h : (s.disk.avail.idx - s.dev.lastAvail).toNat < num) {i : Fin num}
    (hav : s'.disk.avail =
      ⟨s.disk.avail.idx + 1, Function.update s.disk.avail.ring (slot num s.disk.avail.idx.toNat) i.val.toUInt16⟩)
    (hdev : s'.dev = s.dev) : s'.unread = s.unread ++ [i.val] := by
  simp only [VirtioSys.unread, hav, hdev]
  rw [view_push_at _ h, List.map_append, List.map_singleton, toUInt16_toNat_val]

/-- The driver's queue after the device puts a head on the used ring: one more completed entry. -/
theorem done_push (h : (s.disk.used.idx - s.disk.usedIdx).toNat < num) {x : Nat} (hx : x < num)
    (hused : s'.disk.used =
      ⟨s.disk.used.idx + 1, Function.update s.disk.used.ring (slot num s.disk.used.idx.toNat) x.toUInt32⟩)
    (hidx : s'.disk.usedIdx = s.disk.usedIdx) : s'.done = s.done ++ [x] := by
  have hx' : x.toUInt32.toNat = x := by
    simp only [num] at hx
    simp only [Nat.toUInt32_eq, UInt32.toNat_ofNat']
    omega
  simp only [VirtioSys.done, hused, hidx]
  rw [view_push_at _ h, List.map_append, List.map_singleton, hx']

/-- `alloc3_desc` finding fewer than three free: the process sleeps in its loop, and nothing else
changes but descriptors that were free. -/
theorem VirtioInv.request_none (hi : VirtioInv s) {p b : Nat} (write : Bool) {d : Disk}
    (hp : s.reqs p = none ∨ ∃ w, s.reqs p = some (.alloc b w)) (hb : ∀ q r, s.reqs q = some r → r.buf = b → q = p)
    (hd : d = { s.disk with desc := d.desc, free := d.free }) (hfree : d.free = s.disk.free)
    (hkeep : ∀ i, s.disk.free i = false → d.desc i = s.disk.desc i) :
    VirtioInv { s with
      locked := Function.update s.locked b true, disk := d, reqs := Function.update s.reqs p (some (.alloc b write)) } := by
  set s' : VirtioSys := { s with
    locked := Function.update s.locked b true, disk := d, reqs := Function.update s.reqs p (some (.alloc b write)) }
  -- `p`'s call is not queued, before or after; every other call is as it was
  have hwait : ∀ q b' idx, s'.reqs q = some (.wait b' idx) ↔ s.reqs q = some (.wait b' idx) := fun q b' idx =>
    (wait_update_iff (not_wait_of_calling hp) q b' idx).trans (by simp)
  have hinfo : d.info = s.disk.info := by rw [hd]
  have hlocks := hi.locks_replace (.alloc b write) rfl (buf_of_calling hp) hb
  obtain ⟨hheads, hdone⟩ : s'.heads = s.heads ∧ s'.done = s.done := heads_congr (show d.avail = _ by rw [hd])
    (show d.used = _ by rw [hd]) (show d.usedIdx = _ by rw [hd]) rfl
  refine ⟨fun q b' idx hq => ?_, fun i => ?_, fun q q' c c' idx idx' hq hq' => ?_, fun q b' idx hq => ?_,
    hlocks.1, hlocks.2, ?_, fun h => ?_, fun b' hb' => ?_, fun h hh => ?_⟩
  · have hq := (hwait q b' idx).mp hq
    exact (hi.chained q b' idx hq).congr fun i hi' =>
      hkeep i ((hi.taken_iff i).mpr ⟨q, b', idx, hq, hi'⟩)
  · simp only [s', hfree, hwait]
    exact hi.taken_iff i
  · exact hi.apart q q' c c' idx idx' ((hwait q c idx).mp hq) ((hwait q' c' idx').mp hq')
  · simp only [s', hinfo]
    exact hi.info_b q b' idx ((hwait q b' idx).mp hq)
  · rw [hheads]
    exact hi.heads_nodup
  · rw [hheads, hi.mem_heads]
    simp only [s', hwait]
  · obtain ⟨q, idx, hq⟩ := hi.bdisk_queued b' hb'
    exact ⟨q, idx, (hwait q b' idx).mpr hq⟩
  · rw [hdone] at hh
    simpa [s', Disk.infoAt, hinfo] using hi.done_status h hh

/-- `alloc3_desc` taking three: the chain is linked, recorded at its head and put on the avail ring,
and `b->disk` is set. -/
theorem VirtioInv.request_some (hi : VirtioInv s) {p b : Nat} (write : Bool) {d : Disk} {idx : List (Fin num)}
    (hp : s.reqs p = none ∨ ∃ w, s.reqs p = some (.alloc b w)) (hb : ∀ q r, s.reqs q = some r → r.buf = b → q = p)
    (hd : d = { s.disk with desc := d.desc, free := d.free })
    (hkeep : ∀ i, s.disk.free i = false → d.desc i = s.disk.desc i)
    (hlen : idx.length = 3) (hnd : idx.Nodup) (hfr : ∀ i ∈ idx, s.disk.free i = true)
    (hfree : ∀ i, d.free i = (s.disk.free i && decide (i ∉ idx))) :
    VirtioInv { s with
      locked := Function.update s.locked b true, disk := submit d b write idx,
      bdisk := Function.update s.bdisk b true, reqs := Function.update s.reqs p (some (.wait b idx)) } := by
  obtain ⟨i0, i1, i2, rfl⟩ := List.length_eq_three.mp hlen
  set s' : VirtioSys := { s with
    locked := Function.update s.locked b true, disk := submit d b write [i0, i1, i2],
    bdisk := Function.update s.bdisk b true, reqs := Function.update s.reqs p (some (.wait b [i0, i1, i2])) }
  have hnot := not_wait_of_calling hp
  have hwait : ∀ q c idx, s'.reqs q = some (.wait c idx) ↔
      (q = p ∧ Req.wait b [i0, i1, i2] = .wait c idx) ∨ s.reqs q = some (.wait c idx) :=
    wait_update_iff hnot
  -- every other queued call is on another buffer, its chain apart from the new one
  have hother : ∀ q c idx, s.reqs q = some (.wait c idx) → c ≠ b := fun q c idx hq hc =>
    hnot c idx (by rw [← hb q _ hq hc]; exact hq)
  have hout : ∀ q c idx, s.reqs q = some (.wait c idx) → ∀ i ∈ idx, i ∉ [i0, i1, i2] :=
    fun q c idx hq i hmem hnew => hi.not_mem_of_free hq (hfr i hnew) hmem
  have hinfo : d.info = s.disk.info := by rw [hd]
  have havail : d.avail = s.disk.avail := by rw [hd]
  have hused : d.used = s.disk.used := by rw [hd]
  have husedIdx : d.usedIdx = s.disk.usedIdx := by rw [hd]
  have hlocks := hi.locks_replace (.wait b [i0, i1, i2]) rfl (buf_of_calling hp) hb
  -- the new head joins the queue; the device's part and the used ring are as they were
  have hbound : (s.disk.avail.idx - s.dev.lastAvail).toNat < num := by
    have h3 := hi.heads_length_add hnd hfr
    simp only [VirtioSys.heads, VirtioSys.unread, List.length_append, List.length_map, length_view] at h3
    simp only [num] at h3 ⊢
    omega
  have hunread : s'.unread = s.unread ++ [i0.val] :=
    unread_push hbound (by simp only [s', submit_avail, havail]; rfl) rfl
  have hdone : s'.done = s.done := by simp only [s', VirtioSys.done, submit_used, submit_usedIdx, hused, husedIdx]
  have hi0 : i0.val ∉ s.heads := fun hh => by
    obtain ⟨hlt, htaken⟩ := hi.head_taken hh
    rw [hfr i0 (by simp)] at htaken
    cases htaken
  have hperm : s'.heads.Perm (i0.val :: s.heads) := by
    simp only [VirtioSys.heads, hunread, hdone, List.append_assoc, List.singleton_append]
    exact List.perm_middle
  refine ⟨fun q c idx hq => ?_, fun i => ?_, fun q q' c c' idx idx' hq hq' hqq i hi1 hi2 => ?_,
    fun q c idx hq => ?_, hlocks.1, hlocks.2, hperm.nodup_iff.mpr (List.nodup_cons.mpr ⟨hi0, hi.heads_nodup⟩),
    fun h => ?_, fun c hc => ?_, fun h hh => ?_⟩
  · rcases (hwait q c idx).mp hq with ⟨-, heq⟩ | hq
    · cases heq
      exact submit_chained hnd
    · exact (hi.chained q c idx hq).congr fun i hmem => by
        rw [submit_desc_of_not_mem (hout q c idx hq i hmem), hkeep i ((hi.taken_iff i).mpr ⟨q, c, idx, hq, hmem⟩)]
  · simp only [s', submit_free, hfree, Bool.and_eq_false_iff, hi.taken_iff, decide_eq_false_iff_not, not_not]
    constructor
    · rintro (⟨q, c, idx, hq, hmem⟩ | hmem)
      · exact ⟨q, c, idx, (hwait q c idx).mpr (.inr hq), hmem⟩
      · exact ⟨p, b, [i0, i1, i2], (hwait p b _).mpr (.inl ⟨rfl, rfl⟩), hmem⟩
    · rintro ⟨q, c, idx, hq, hmem⟩
      rcases (hwait q c idx).mp hq with ⟨-, heq⟩ | hq
      · cases heq
        exact .inr hmem
      · exact .inl ⟨q, c, idx, hq, hmem⟩
  · rcases (hwait q c idx).mp hq with ⟨rfl, heq⟩ | hq1 <;> rcases (hwait q' c' idx').mp hq' with ⟨rfl, heq'⟩ | hq1'
    · exact hqq rfl
    · cases heq
      exact hout q' c' idx' hq1' i hi2 hi1
    · cases heq'
      exact hout q c idx hq1 i hi1 hi2
    · exact hi.apart q q' c c' idx idx' hq1 hq1' hqq i hi1 hi2
  · rcases (hwait q c idx).mp hq with ⟨-, heq⟩ | hq
    · cases heq
      exact congrArg Info.b (submit_info_head _)
    · have hhead := (hi.chained q c idx hq).head_mem
      have hne : idx.getD 0 0 ≠ [i0, i1, i2].getD 0 0 := fun h =>
        hout q c idx hq _ hhead (by rw [h]; simp)
      simp only [s', submit_info_of_ne hne, hinfo]
      exact hi.info_b q c idx hq
  · rw [hperm.mem_iff, List.mem_cons, hi.mem_heads]
    constructor
    · rintro (rfl | ⟨q, c, idx, hq, rfl, hc⟩)
      · exact ⟨p, b, [i0, i1, i2], (hwait p b _).mpr (.inl ⟨rfl, rfl⟩), rfl, by simp [s']⟩
      · refine ⟨q, c, idx, (hwait q c idx).mpr (.inr hq), rfl, ?_⟩
        simpa [s', Function.update_of_ne (hother q c idx hq)] using hc
    · rintro ⟨q, c, idx, hq, rfl, hc⟩
      rcases (hwait q c idx).mp hq with ⟨-, heq⟩ | hq
      · cases heq
        exact .inl rfl
      · refine .inr ⟨q, c, idx, hq, rfl, ?_⟩
        simpa [s', Function.update_of_ne (hother q c idx hq)] using hc
  · rcases eq_or_ne c b with rfl | hcb
    · exact ⟨p, [i0, i1, i2], by simp [s']⟩
    · obtain ⟨q, idx, hq⟩ := hi.bdisk_queued c (by simpa [s', Function.update_of_ne hcb] using hc)
      exact ⟨q, idx, (hwait q c idx).mpr (.inr hq)⟩
  · -- a completed head is taken, so not the new head
    rw [hdone] at hh
    have hmem : h ∈ s.heads := List.mem_append_right _ hh
    obtain ⟨hlt, htaken⟩ := hi.head_taken hmem
    have hne : (⟨h, hlt⟩ : Fin num) ≠ [i0, i1, i2].getD 0 0 := fun heq =>
      hi0 (by rw [show i0.val = h from (congrArg Fin.val heq).symm]; exact hmem)
    simpa [s', Disk.infoAt, hlt, submit_info_of_ne hne, hinfo] using hi.done_status h hh

theorem reqs_update_none {p q : Nat} {r : Req} :
    Function.update s.reqs p none q = some r ↔ q ≠ p ∧ s.reqs q = some r := by
  rcases eq_or_ne q p with rfl | hq
  · simp
  · simp [hq]

/-- `p`'s call on `r0.buf` returns and lets go of its lock: each lock is still held exactly while a
call is on its buffer, and one call is. -/
theorem VirtioInv.locks_remove (hi : VirtioInv s) {p : Nat} {r0 : Req} (hp : s.reqs p = some r0) :
    (∀ b', Function.update s.locked r0.buf false b' = true ↔ ∃ q r, Function.update s.reqs p none q = some r ∧ r.buf = b') ∧
      ∀ q q' r r', Function.update s.reqs p none q = some r →
        Function.update s.reqs p none q' = some r' → r.buf = r'.buf → q = q' := by
  refine ⟨fun b' => ?_, fun q q' r r' hq hq' hbuf => ?_⟩
  · simp only [reqs_update_none]
    rcases eq_or_ne b' r0.buf with rfl | hb'
    · -- the only call on the buffer was `p`'s
      simp only [Function.update_self, Bool.false_eq_true, false_iff, not_exists, not_and]
      intro q r hq hr
      exact hq.1 (hi.one_call q p r r0 hq.2 hp hr)
    · rw [Function.update_of_ne hb', hi.locked_iff b']
      constructor
      · rintro ⟨q, r, hq, hr⟩
        refine ⟨q, r, ⟨fun hqp => hb' ?_, hq⟩, hr⟩
        rw [hqp, hp, Option.some.injEq] at hq
        rw [← hr, hq]
      · rintro ⟨q, r, ⟨-, hq⟩, hr⟩
        exact ⟨q, r, hq, hr⟩
  · exact hi.one_call q q' r r' (reqs_update_none.mp hq).2 (reqs_update_none.mp hq').2 hbuf

/-- `virtio_disk_rw` after its `sleep(b)`: `free_chain` frees exactly the request's chain, and does
not panic. -/
theorem VirtioInv.finish_eq (hi : VirtioInv s) {p b : Nat} {idx : List (Fin num)} (hp : s.reqs p = some (.wait b idx))
    (hb : s.bdisk b = false) :
    s.finish p = .ok { s with
      disk := Disk.release { s.disk with
        info := Function.update s.disk.info (idx.getD 0 0) { s.disk.info (idx.getD 0 0) with b := none } } idx
      locked := Function.update s.locked b false, reqs := Function.update s.reqs p none } := by
  -- recording the null buffer changes no descriptor
  have hc : Chained { s.disk with
      info := Function.update s.disk.info (idx.getD 0 0) { s.disk.info (idx.getD 0 0) with b := none } } idx :=
    (hi.chained p b idx hp).congr fun _ _ => rfl
  have htaken : ∀ i ∈ idx, s.disk.free i = false := fun i hmem => (hi.taken_iff i).mpr ⟨p, b, idx, hp, hmem⟩
  simp only [VirtioSys.finish, hp, hb, Bool.false_eq_true, if_false]
  rw [freeChain_of_chained hc htaken]

/-- The request's chain given back and its call returned: every other chain and call is as it was. -/
theorem VirtioInv.finish (hi : VirtioInv s) {p b : Nat} {idx : List (Fin num)} (hp : s.reqs p = some (.wait b idx))
    (hb : s.bdisk b = false) :
    VirtioInv { s with
      disk := Disk.release { s.disk with
        info := Function.update s.disk.info (idx.getD 0 0) { s.disk.info (idx.getD 0 0) with b := none } } idx
      locked := Function.update s.locked b false, reqs := Function.update s.reqs p none } := by
  set i0 := idx.getD 0 0
  set d1 : Disk := { s.disk with info := Function.update s.disk.info i0 { s.disk.info i0 with b := none } }
  set s' : VirtioSys := { s with
    disk := d1.release idx, locked := Function.update s.locked b false, reqs := Function.update s.reqs p none }
  have hwait : ∀ q c j, s'.reqs q = some (.wait c j) ↔ q ≠ p ∧ s.reqs q = some (.wait c j) :=
    fun _ _ _ => reqs_update_none
  -- the other chains are apart from the one given back
  have hout : ∀ q c j, q ≠ p → s.reqs q = some (.wait c j) → ∀ i ∈ j, i ∉ idx :=
    fun q c j hqp hq i hj hmem => hi.apart p q b c idx j hp hq (Ne.symm hqp) i hmem hj
  have hstatus : ∀ h, (s'.disk.infoAt h).status = (s.disk.infoAt h).status := by
    intro h
    simp only [s', d1, Disk.release, Disk.infoAt]
    split
    · rename_i hlt
      rcases eq_or_ne (⟨h, hlt⟩ : Fin num) i0 with heq | hne
      · rw [heq, Function.update_self]
      · rw [Function.update_of_ne hne]
    · rfl
  obtain ⟨hheads, hdone⟩ : s'.heads = s.heads ∧ s'.done = s.done := heads_congr rfl rfl rfl rfl
  have hlocks := hi.locks_remove hp
  refine ⟨fun q c j hq => ?_, fun i => ?_, fun q q' c c' j j' hq hq' => ?_, fun q c j hq => ?_,
    hlocks.1, hlocks.2, by rw [hheads]; exact hi.heads_nodup, fun h => ?_, fun c hc => ?_, fun h hh => ?_⟩
  · obtain ⟨hqp, hq⟩ := (hwait q c j).mp hq
    exact (hi.chained q c j hq).congr fun i hmem => by simp [s', Disk.release, hout q c j hqp hq i hmem, d1]
  · simp only [s', Disk.release, Bool.or_eq_false_iff, decide_eq_false_iff_not, hi.taken_iff, d1, hwait]
    constructor
    · rintro ⟨⟨q, c, j, hq, hmem⟩, hnot⟩
      refine ⟨q, c, j, ⟨fun hqp => hnot ?_, hq⟩, hmem⟩
      rw [hqp, hp, Option.some.injEq, Req.wait.injEq] at hq
      rw [hq.2]
      exact hmem
    · rintro ⟨q, c, j, ⟨hqp, hq⟩, hmem⟩
      exact ⟨⟨q, c, j, hq, hmem⟩, hout q c j hqp hq i hmem⟩
  · exact hi.apart q q' c c' j j' ((hwait q c j).mp hq).2 ((hwait q' c' j').mp hq').2
  · obtain ⟨hqp, hq⟩ := (hwait q c j).mp hq
    have hne : j.getD 0 0 ≠ i0 := fun h =>
      hout q c j hqp hq _ (hi.chained q c j hq).head_mem (by rw [h]; exact (hi.chained p b idx hp).head_mem)
    simp only [s', d1, Disk.release, Function.update_of_ne hne]
    exact hi.info_b q c j hq
  · rw [hheads, hi.mem_heads]
    simp only [s', hwait]
    constructor
    · rintro ⟨q, c, j, hq, rfl, hc⟩
      -- `p`'s chain is not between the driver and the device, `b->disk` being `0`
      refine ⟨q, c, j, ⟨fun hqp => ?_, hq⟩, rfl, hc⟩
      rw [hqp, hp, Option.some.injEq, Req.wait.injEq] at hq
      rw [← hq.1, hb] at hc
      cases hc
    · rintro ⟨q, c, j, ⟨-, hq⟩, rfl, hc⟩
      exact ⟨q, c, j, hq, rfl, hc⟩
  · obtain ⟨q, j, hq⟩ := hi.bdisk_queued c hc
    refine ⟨q, j, (hwait q c j).mpr ⟨fun hqp => ?_, hq⟩⟩
    rw [hqp, hp, Option.some.injEq, Req.wait.injEq] at hq
    rw [← hq.1, hb] at hc
    cases hc
  · rw [hdone] at hh
    rw [hstatus]
    exact hi.done_status h hh

/-- A head between the driver and the device is a queued request's, with `b->disk` set and the
buffer recorded there. -/
theorem VirtioInv.info_of_head (hi : VirtioInv s) {h : Nat} (hh : h ∈ s.heads) :
    ∃ q c idx, s.reqs q = some (.wait c idx) ∧ (idx.getD 0 0).val = h ∧ s.bdisk c = true ∧
      (s.disk.infoAt h).b = some c := by
  obtain ⟨q, c, idx, hq, rfl, hc⟩ := (hi.mem_heads h).mp hh
  exact ⟨q, c, idx, hq, rfl, hc, by rw [Disk.infoAt_val]; exact hi.info_b q c idx hq⟩

/-- A queued request's buffer is recorded at a completed head exactly when its own head is
completed: no other request is on that buffer. -/
theorem VirtioInv.mem_doneBufs (hi : VirtioInv s) {q c : Nat} {idx : List (Fin num)} (hq : s.reqs q = some (.wait c idx)) :
    c ∈ s.doneBufs ↔ (idx.getD 0 0).val ∈ s.done := by
  simp only [VirtioSys.doneBufs, List.mem_filterMap]
  constructor
  · rintro ⟨h, hh, hc⟩
    obtain ⟨q', c', idx', hq', rfl, -, hc'⟩ := hi.info_of_head (List.mem_append_right _ hh)
    rw [hc, Option.some.injEq] at hc'
    subst hc'
    have hqq : q = q' := hi.one_call q q' _ _ hq hq' rfl
    subst hqq
    rw [hq, Option.some.injEq, Req.wait.injEq] at hq'
    rw [hq'.2]
    exact hh
  · intro hh
    exact ⟨_, hh, by rw [Disk.infoAt_val]; exact hi.info_b q c idx hq⟩

/-- `virtio_disk_intr` does not panic: every completed head has status `0` and a buffer. -/
theorem VirtioInv.intr_eq (hi : VirtioInv s) :
    virtioDiskIntr s = .ok { s with
      bdisk := fun c => s.bdisk c && decide (c ∉ s.doneBufs)
      disk := { s.disk with usedIdx := s.disk.used.idx } } := by
  refine intrLoop_eq _ s (by simp [VirtioSys.done]) fun h hh => ⟨hi.done_status h hh, ?_⟩
  obtain ⟨-, c, -, -, -, -, hc⟩ := hi.info_of_head (List.mem_append_right _ hh)
  rw [hc]
  exact Option.some_ne_none c

/-- After `virtio_disk_intr` the used ring is read to its end, and the chains still between the
driver and the device are those whose `b->disk` it left set. -/
theorem VirtioInv.intr (hi : VirtioInv s) :
    VirtioInv { s with
      bdisk := fun c => s.bdisk c && decide (c ∉ s.doneBufs)
      disk := { s.disk with usedIdx := s.disk.used.idx } } := by
  set s' : VirtioSys := { s with
    bdisk := fun c => s.bdisk c && decide (c ∉ s.doneBufs)
    disk := { s.disk with usedIdx := s.disk.used.idx } }
  have hdone : s'.done = [] := by simp [s', VirtioSys.done]
  have hheads : s'.heads = s.unread ++ s.dev.pending := by
    simp only [VirtioSys.heads, hdone, List.append_nil]
    rfl
  -- the chains the device still holds or has not read are not completed
  have hsplit := List.nodup_append.mp (show (s.unread ++ s.dev.pending ++ s.done).Nodup from hi.heads_nodup)
  have hnot : ∀ h ∈ s.unread ++ s.dev.pending, h ∉ s.done := fun h hh hd => hsplit.2.2 h hh h hd rfl
  refine ⟨hi.chained, hi.taken_iff, hi.apart, hi.info_b, hi.locked_iff, hi.one_call,
    by rw [hheads]; exact hsplit.1, fun h => ?_, fun c hc => ?_, fun h hh => ?_⟩
  · rw [hheads]
    constructor
    · intro hh
      obtain ⟨q, c, idx, hq, rfl, hc⟩ := (hi.mem_heads _).mp (List.mem_append_left _ hh)
      refine ⟨q, c, idx, hq, rfl, ?_⟩
      simp only [s', hc, Bool.true_and, decide_eq_true_eq, hi.mem_doneBufs hq]
      exact hnot _ hh
    · rintro ⟨q, c, idx, hq, rfl, hc⟩
      simp only [s', Bool.and_eq_true, decide_eq_true_eq, hi.mem_doneBufs hq] at hc
      rcases List.mem_append.mp ((hi.mem_heads _).mpr ⟨q, c, idx, hq, rfl, hc.1⟩) with hh | hh
      · exact hh
      · exact absurd hh hc.2
  · exact hi.bdisk_queued c (Bool.and_eq_true_iff.mp hc).1
  · rw [hdone] at hh
    cases hh

/-- A step of the device that moves a chain within the queue keeps the invariant. -/
theorem VirtioInv.of_dev (hi : VirtioInv s) {dev : Device} (hperm : ({ s with dev := dev } : VirtioSys).heads.Perm s.heads) :
    VirtioInv { s with dev := dev } :=
  ⟨hi.chained, hi.taken_iff, hi.apart, hi.info_b, hi.locked_iff, hi.one_call, hperm.nodup_iff.mpr hi.heads_nodup,
    fun h => by rw [hperm.mem_iff]; exact hi.mem_heads h, hi.bdisk_queued, hi.done_status⟩

/-- The device reading the avail ring moves the first unread head to the chains it holds. -/
theorem VirtioInv.fetch (hi : VirtioInv s) (hs : s.fetch = .ok s') : VirtioInv s' := by
  unfold VirtioSys.fetch at hs
  split at hs
  · cases hs
  · rename_i hne
    cases hs
    set x := (s.disk.avail.ring (slot num s.dev.lastAvail.toNat)).toNat
    set s1 : VirtioSys := { s with dev := ⟨s.dev.lastAvail + 1, s.dev.pending ++ [x]⟩ }
    have hunread : s.unread = x :: s1.unread := by
      simp only [VirtioSys.unread]
      rw [view_pop_at _ (Ne.symm hne), List.map_cons]
    -- the head goes from the front of the unread ones to the back of the held ones
    have hmove := List.perm_append_singleton x (s1.unread ++ s.dev.pending)
    rw [List.append_assoc] at hmove
    refine hi.of_dev (List.Perm.append_right s.done ?_)
    rw [hunread, List.cons_append]
    exact hmove

/-- The device completing the `k`-th chain it holds, at head `h`. -/
theorem complete_eq {k h : Nat} (hk : s.dev.pending[k]? = some h) (hlt : h < num) :
    s.complete k = .ok { s with
      disk := { s.disk with
        info := Function.update s.disk.info ⟨h, hlt⟩ { s.disk.info ⟨h, hlt⟩ with status := 0 }
        used := ⟨s.disk.used.idx + 1, Function.update s.disk.used.ring (slot num s.disk.used.idx.toNat) h.toUInt32⟩ }
      dev := ⟨s.dev.lastAvail, s.dev.pending.eraseIdx k⟩ } := by
  simp only [VirtioSys.complete, hk, dif_pos hlt]

/-- The device completing a chain it holds: status `0` at its head, and the head on the used ring. -/
theorem VirtioInv.complete (hi : VirtioInv s) {k : Nat} (hs : s.complete k = .ok s') : VirtioInv s' := by
  cases hk : s.dev.pending[k]? with
  | none => simp [VirtioSys.complete, hk] at hs
  | some h =>
    obtain ⟨hkl, hkh⟩ := List.getElem?_eq_some_iff.mp hk
    have hmem : h ∈ s.heads :=
      List.mem_append_left _ (List.mem_append_right _ (hkh ▸ List.getElem_mem hkl))
    obtain ⟨hlt, -⟩ := hi.head_taken hmem
    rw [complete_eq hk hlt] at hs
    cases hs
    set s' : VirtioSys := { s with
      disk := { s.disk with
        info := Function.update s.disk.info ⟨h, hlt⟩ { s.disk.info ⟨h, hlt⟩ with status := 0 }
        used := ⟨s.disk.used.idx + 1, Function.update s.disk.used.ring (slot num s.disk.used.idx.toNat) h.toUInt32⟩ }
      dev := ⟨s.dev.lastAvail, s.dev.pending.eraseIdx k⟩ }
    -- the completed chains and the one the device holds fit in the table
    have hbound : (s.disk.used.idx - s.disk.usedIdx).toNat < num := by
      have hle := hi.heads_length_add List.nodup_nil (fun _ h => by cases h)
      simp only [VirtioSys.heads, VirtioSys.done, List.length_append, List.length_map, length_view,
        List.length_nil, Nat.add_zero] at hle
      omega
    have hdone : s'.done = s.done ++ [h] := done_push hbound hlt rfl rfl
    have hheads : s'.heads = s.unread ++ s.dev.pending.eraseIdx k ++ s.done ++ [h] := by
      simp only [VirtioSys.heads, hdone, List.append_assoc]
      rfl
    have hperm : s'.heads.Perm s.heads := by
      have hpend : (h :: s.dev.pending.eraseIdx k).Perm s.dev.pending := hkh ▸ List.getElem_cons_eraseIdx_perm hkl
      have hmid : (s.unread ++ s.dev.pending.eraseIdx k ++ s.done ++ [h]).Perm
          (s.unread ++ (h :: s.dev.pending.eraseIdx k) ++ s.done) := by
        refine (List.perm_append_singleton _ _).trans ?_
        simp only [List.append_assoc, List.cons_append]
        exact List.perm_middle.symm
      rw [hheads]
      exact hmid.trans ((hpend.append_left _).append_right _)
    -- only the status at the completed head changes
    have hbuf : ∀ i, (s'.disk.info i).b = (s.disk.info i).b := by
      intro i
      rcases eq_or_ne i ⟨h, hlt⟩ with rfl | hne
      · simp [s']
      · simp [s', Function.update_of_ne hne]
    have hat : ∀ h', h' ≠ h → s'.disk.infoAt h' = s.disk.infoAt h' := by
      intro h' hne
      simp only [s', Disk.infoAt]
      split
      · exact Function.update_of_ne (fun heq => hne (congrArg Fin.val heq)) _ _
      · rfl
    have hself : (s'.disk.infoAt h).status = 0 := by simp [s', Disk.infoAt, hlt]
    refine ⟨hi.chained, hi.taken_iff, hi.apart, fun q c idx hq => ?_, hi.locked_iff, hi.one_call,
      hperm.nodup_iff.mpr hi.heads_nodup, fun h => by rw [hperm.mem_iff]; exact hi.mem_heads h, hi.bdisk_queued,
      fun h' hh => ?_⟩
    · rw [hbuf]
      exact hi.info_b q c idx hq
    · rw [hdone, List.mem_append, List.mem_singleton] at hh
      rcases eq_or_ne h' h with rfl | hne
      · exact hself
      · rw [hat h' hne]
        exact hi.done_status h' (hh.resolve_right hne)

/-- `virtio_disk_rw` from its call of `alloc3_desc`, by `p` on `b` with `b`'s lock taken: it does not
panic, and keeps the invariant. -/
theorem VirtioInv.request (hi : VirtioInv s) {p b : Nat} (write : Bool)
    (hp : s.reqs p = none ∨ ∃ w, s.reqs p = some (.alloc b w)) (hb : ∀ q r, s.reqs q = some r → r.buf = b → q = p) :
    ∃ s', ({ s with locked := Function.update s.locked b true } : VirtioSys).request p b write = .ok s' ∧
      VirtioInv s' := by
  obtain ⟨r, d, hrun, hd, hkeep, hnone, hsome⟩ := alloc3Desc_spec s.disk
  cases r with
  | none => exact ⟨_, by simp only [VirtioSys.request, hrun], hi.request_none write hp hb hd (hnone rfl) hkeep⟩
  | some idx =>
    obtain ⟨hlen, hnd, hfr, hfree⟩ := hsome idx rfl
    exact ⟨_, by simp only [VirtioSys.request, hrun], hi.request_some write hp hb hd hkeep hlen hnd hfr hfree⟩

/-- No step of the driver or the device panics, and each one that moves keeps the invariant. -/
theorem VirtioInv.step (hi : VirtioInv s) (e : VirtioEv) :
    virtioNext s e = .blocked ∨ ∃ s', virtioNext s e = .ok s' ∧ VirtioInv s' := by
  cases e with
  | rw p b write =>
    simp only [virtioNext]
    split
    · rename_i hg
      -- `b`'s lock being free, no call is on `b`
      have hb : ∀ q r, s.reqs q = some r → r.buf = b → q = p := fun q r hq hr => by
        have hlock := (hi.locked_iff b).mpr ⟨q, r, hq, hr⟩
        rw [hg.2] at hlock
        cases hlock
      exact .inr (hi.request write (.inl hg.1) hb)
    · exact .inl rfl
  | retry p =>
    simp only [virtioNext]
    split
    · rename_i b write hp
      -- the call holds `b`'s lock already
      have hlock : s.locked b = true := (hi.locked_iff b).mpr ⟨p, _, hp, rfl⟩
      have hb : ∀ q r, s.reqs q = some r → r.buf = b → q = p := fun q r hq hr => hi.one_call q p r _ hq hp hr
      have hs : ({ s with locked := Function.update s.locked b true } : VirtioSys) = s := by
        rw [Function.update_eq_self_iff.mpr hlock.symm]
      have hreq := hi.request write (.inr ⟨write, hp⟩) hb
      rw [hs] at hreq
      exact .inr hreq
    · exact .inl rfl
  | finish p =>
    simp only [virtioNext]
    cases hp : s.reqs p with
    | none => exact .inl (by simp [VirtioSys.finish, hp])
    | some r =>
      cases r with
      | alloc b w => exact .inl (by simp [VirtioSys.finish, hp])
      | wait b idx =>
        cases hb : s.bdisk b with
        | true => exact .inl (by simp [VirtioSys.finish, hp, hb])
        | false => exact .inr ⟨_, hi.finish_eq hp hb, hi.finish hp hb⟩
  | intr => exact .inr ⟨_, hi.intr_eq, hi.intr⟩
  | fetch =>
    cases h : s.fetch with
    | ok s' => exact .inr ⟨s', h, hi.fetch h⟩
    | blocked => exact .inl h
    | panic m =>
      unfold VirtioSys.fetch at h
      split at h <;> cases h
  | complete k =>
    cases h : s.complete k with
    | ok s' => exact .inr ⟨s', h, hi.complete h⟩
    | blocked => exact .inl h
    | panic m =>
      unfold VirtioSys.complete at h
      split at h <;> cases h

theorem VirtioInv.next (hi : VirtioInv s) {e : VirtioEv} (h : virtioNext s e = .ok s') : VirtioInv s' := by
  rcases hi.step e with hb | ⟨t, ht, hit⟩
  · rw [hb] at h
    cases h
  · rw [ht] at h
    cases h
    exact hit

theorem VirtioInv.not_panic (hi : VirtioInv s) (e : VirtioEv) (m : String) : virtioNext s e ≠ .panic m := by
  rcases hi.step e with hb | ⟨t, ht, -⟩ <;> intro h
  · rw [hb] at h
    cases h
  · rw [ht] at h
    cases h

end Inv

theorem virtioInv_init : VirtioInv virtioSys.init where
  chained := fun _ _ _ h => by cases h
  taken_iff := fun _ => by simp [virtioSys, diskInit]
  apart := fun _ _ _ _ _ _ h => by cases h
  info_b := fun _ _ _ h => by cases h
  locked_iff := fun _ => by simp [virtioSys]
  one_call := fun _ _ _ _ h => by cases h
  heads_nodup := by simp [virtioSys, diskInit, VirtioSys.heads, VirtioSys.unread, VirtioSys.done]
  mem_heads := fun _ => by simp [virtioSys, diskInit, VirtioSys.heads, VirtioSys.unread, VirtioSys.done]
  bdisk_queued := fun _ h => by cases h
  done_status := fun _ h => by simp [virtioSys, diskInit, VirtioSys.done] at h

theorem virtioInv_reachable {s : VirtioSys} (hs : Reachable virtioSys s) : VirtioInv s :=
  Reachable.induct virtioSys virtioInv_init (fun _ _ _ hi h => hi.next h) hs

/-- Two calls, the device completing the second first: the interrupt clears only the second buffer's
`b->disk`, and its chain goes back; the first keeps its three descriptors. -/
example : (run virtioSys virtioSys.init [.rw 1 5 false, .rw 2 6 true, .fetch, .fetch, .complete 1, .intr, .finish 2]).holds
    (fun s => decide ((List.finRange num).countP (fun i => s.disk.free i) = 5) && s.bdisk 5 && !s.bdisk 6) = true := by
  decide +kernel

/-- In every state any interleaving of calls, interrupts and the device's steps reaches: each
descriptor is free or in the linked chain of exactly one request in flight, and `free_chain` at the
chain's head frees exactly that chain; `alloc3_desc` takes three distinct free descriptors or leaves
the free set as it was; no step panics, `free_desc`'s among them; and `virtio_disk_intr` clears
`b->disk` exactly for the buffers recorded at the completed heads, each the buffer of the request whose
head it is. -/
theorem virtio_descriptors {s : VirtioSys} (hs : Reachable virtioSys s) :
    (∀ i, s.disk.free i = false ↔ ∃ p b idx, s.reqs p = some (.wait b idx) ∧ i ∈ idx) ∧
    (∀ p q b c idx idx', s.reqs p = some (.wait b idx) → s.reqs q = some (.wait c idx') → p ≠ q →
      ∀ i ∈ idx, i ∉ idx') ∧
    (∀ p b idx, s.reqs p = some (.wait b idx) →
      Chained s.disk idx ∧ freeChain s.disk (idx.getD 0 0).val = .ok (s.disk.release idx)) ∧
    (∃ r d, alloc3Desc s.disk = .ok (r, d) ∧ (r = none → d.free = s.disk.free) ∧
      ∀ idx, r = some idx → idx.length = 3 ∧ idx.Nodup ∧ (∀ i ∈ idx, s.disk.free i = true) ∧
        ∀ i, d.free i = (s.disk.free i && decide (i ∉ idx))) ∧
    (∀ e m, virtioNext s e ≠ .panic m) ∧
    virtioDiskIntr s = .ok { s with
      bdisk := fun c => s.bdisk c && decide (c ∉ s.doneBufs)
      disk := { s.disk with usedIdx := s.disk.used.idx } } ∧
    ∀ h ∈ s.done, ∃ p b idx, s.reqs p = some (.wait b idx) ∧ (idx.getD 0 0).val = h ∧
      (s.disk.infoAt h).b = some b := by
  have hi := virtioInv_reachable hs
  obtain ⟨r, d, hrun, -, -, hnone, hsome⟩ := alloc3Desc_spec s.disk
  refine ⟨hi.taken_iff, hi.apart, fun p b idx hp => ⟨hi.chained p b idx hp, ?_⟩, ⟨r, d, hrun, hnone, hsome⟩,
    hi.not_panic, hi.intr_eq, fun h hh => ?_⟩
  · exact freeChain_of_chained (hi.chained p b idx hp) fun i hmem => (hi.taken_iff i).mpr ⟨p, b, idx, hp, hmem⟩
  · obtain ⟨p, b, idx, hp, hhead, -, hb⟩ := hi.info_of_head (List.mem_append_right _ hh)
    exact ⟨p, b, idx, hp, hhead, hb⟩

/-- Three processes call `virtio_disk_rw`: the first two queue chains, the third finds fewer than
three free descriptors and sleeps on `disk.free[0]`; the device reads both chains and completes the
second, whose buffer the used ring now names, while it still holds the first. -/
theorem virtio_descriptors_in_flight :
    ∃ s, Reachable virtioSys s ∧ s.doneBufs = [11] ∧ s.reqs 3 = some (.alloc 12 false) ∧
      s.dev.pending.length = 1 ∧
    (∀ i, s.disk.free i = false ↔ ∃ p b idx, s.reqs p = some (.wait b idx) ∧ i ∈ idx) ∧
    (∀ p q b c idx idx', s.reqs p = some (.wait b idx) → s.reqs q = some (.wait c idx') → p ≠ q →
      ∀ i ∈ idx, i ∉ idx') ∧
    (∀ p b idx, s.reqs p = some (.wait b idx) →
      Chained s.disk idx ∧ freeChain s.disk (idx.getD 0 0).val = .ok (s.disk.release idx)) ∧
    (∃ r d, alloc3Desc s.disk = .ok (r, d) ∧ (r = none → d.free = s.disk.free) ∧
      ∀ idx, r = some idx → idx.length = 3 ∧ idx.Nodup ∧ (∀ i ∈ idx, s.disk.free i = true) ∧
        ∀ i, d.free i = (s.disk.free i && decide (i ∉ idx))) ∧
    (∀ e m, virtioNext s e ≠ .panic m) ∧
    virtioDiskIntr s = .ok { s with
      bdisk := fun c => s.bdisk c && decide (c ∉ s.doneBufs)
      disk := { s.disk with usedIdx := s.disk.used.idx } } ∧
    ∀ h ∈ s.done, ∃ p b idx, s.reqs p = some (.wait b idx) ∧ (idx.getD 0 0).val = h ∧
      (s.disk.infoAt h).b = some b := by
  have hrun : (run virtioSys virtioSys.init
      [.rw 1 10 false, .rw 2 11 true, .rw 3 12 false, .fetch, .fetch, .complete 1]).holds (fun s =>
      s.doneBufs == [11] && s.reqs 3 == some (.alloc 12 false) && s.dev.pending.length == 1) = true := by
    decide +kernel
  obtain ⟨s, hs, hp⟩ := Reachable.run_holds _ .init hrun
  simp only [Bool.and_eq_true, beq_iff_eq] at hp
  obtain ⟨⟨hdone, h3⟩, hpend⟩ := hp
  exact ⟨s, hs, hdone, h3, hpend, virtio_descriptors hs⟩

end Xv6.Virtio
