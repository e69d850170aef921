import Xv6.Bio.Log
import Xv6.Vm.Copy

/-!
# What the callers of the cache must do

`bio.c` relies on its callers for two things it does not check. The buffers they hold at once,
with the buffers the log pins, must leave a free one whenever a block is missing, or `bget`
panics. And every change to a buffer's data must be logged before the buffer is released: a
released buffer stays cached and valid, so the change is what later readers see, and what a later
`log_write` of the block commits, though its own operation failed.

* `bget_panic_capacity` : `bget` panics only when the references processes hold and the blocks the
  log pins are at least `NBUF`;
* `readersTrace`, `bget_no_buffers_reachable` : thirty readers outside any transaction hold a
  buffer each, and a thirty-first panics;
* `writeiTurn` : a turn of `writei`'s loop as the cache sees it; `failed_write_reaches_disk` : a
  turn whose copy from user memory fails half-way leaves its bytes in the cache, unlogged, and a
  later operation that logs the block commits them.
-/

namespace Xv6.Bio
open Trans Bytes

/-- `bget` panics only when the references processes hold and the blocks the log pins account for
every one of the `NBUF` buffers. -/
theorem bget_panic_capacity {α : Type} {nbuf size start : Nat} {encode : List Nat → α → α} {zero : α}
    {disk : Nat → α} {s : LogCache α} (hs : Reachable (logCacheSys nbuf size start encode zero disk) s)
    {b : Nat} {m : String} (h : bget s.bufs b = .error m) : nbuf ≤ s.refs.length + (pinned s).length := by
  obtain ⟨-, -, hbusy⟩ := bget_eq_error h
  have hall : s.bufs.filter (0 < ·.refcnt) = s.bufs :=
    List.filter_eq_self.mpr fun x hx => by simpa [Nat.pos_iff_ne_zero] using hbusy x hx
  rw [← length_bufs_reachable hs, ← hall]
  exact (pinInv_reachable hs).cache.inUse_le

/-! ## Readers outside transactions -/

/-- Thirty processes each `read` a block no other reads (`fileread`, `readi`, `bread`) and hold its
buffer: asleep in `virtio_disk_rw`, whose descriptors admit only a few requests at once, or not
yet at their `brelse`. -/
def readersTrace : List (LogCacheEv Nat) :=
  (List.range 30).flatMap fun p => [.bget p (100 + p), .lock p (100 + p)]

/-- A thirty-first reader's `bget` finds its block uncached and no buffer free. -/
theorem bget_no_buffers_reachable :
    ∃ s, Reachable xvLogCache s ∧
      logCacheNext 2 (fun lh _ => lh.length) s (.bget 30 130) = .panic "bget: no buffers" := by
  have hlast : run xvLogCache xvLogCache.init (readersTrace ++ [.bget 30 130]) = .panic "bget: no buffers" := by
    apply Outcome.panics_iff.mp
    decide +kernel
  cases hrun : run xvLogCache xvLogCache.init readersTrace with
  | ok t =>
    obtain ⟨ht, he⟩ := Reachable.run_last_panic _ Reachable.init hrun hlast
    exact ⟨t, ht, he⟩
  | blocked =>
    rw [run_append, hrun] at hlast
    cases hlast
  | panic m =>
    -- the thirty readers themselves run without a panic
    have hfree : (run xvLogCache xvLogCache.init readersTrace).panics m = false := by
      rw [run_append, hrun] at hlast
      cases hlast
      decide +kernel
    rw [hrun] at hfree
    simp [Outcome.panics] at hfree

/-! ## `writei`'s copy from user memory -/

/-- One turn of `writei`'s loop on block `addr`, as the cache sees it: `bread`, the bytes
`either_copyin` moved into `bp->data + off % BSIZE`, then `log_write` and `brelse` when it
returned `0`, and `brelse` alone when it returned `-1`. -/
def writeiTurn (p addr off : Nat) (copied : List UInt8 × Bool) : List (LogCacheEv (Nat → UInt8)) :=
  [.bget p addr, .lock p addr, .write p addr fun d => writeBytes d (off % bSize) copied.1] ++
    if copied.2 then [.logWrite p addr, .brelse p addr] else [.brelse p addr]

/-- The log and the cache of `xvLogCache` with blocks of bytes, a header laid out as its `n`, and
a zeroed disk. -/
def xvByteCache : System (LogCache (Nat → UInt8)) (LogCacheEv (Nat → UInt8)) :=
  logCacheSys nBuf logSize 2 (fun lh d => set32 d 0 lh.length) (fun _ => 0) fun _ _ => 0

/-- A user address space whose first page is mapped, with byte 66 at address 0 and byte 65 at
4095, the page's last; nothing above it is mapped. -/
def firstPageMem : Mem :=
  ⟨fun va => va == 0, fun va => va == 0, fun a => if a = 0 then 66 else if a = 4095 then 65 else 0⟩

/-- `write(fd, 4095, 2)` to a file whose data block is 60, at offset 0: the copy moves the byte at
4095 into the buffer and fails at the unmapped page, so `writei` releases the buffer without
logging it; the operation ends and its commit has nothing to write. -/
def failedWriteTrace : List (LogCacheEv (Nat → UInt8)) :=
  [.beginOp] ++ writeiTurn 0 60 0 (eitherCopyin firstPageMem true 4095 (min 2 (bSize - 0 % bSize))) ++
    [.endOp, .commit 0, .commit 0]

/-- Then another process's `write(fd, 0, 1)` at offset 1 of the same block succeeds and commits. -/
def laterWriteTrace : List (LogCacheEv (Nat → UInt8)) :=
  [.beginOp] ++ writeiTurn 1 60 1 (eitherCopyin firstPageMem true 0 (min 1 (bSize - 1 % bSize))) ++
    [.endOp, .commit 1, .commit 1, .commit 1, .commit 1, .commit 1]

/-- Between operations after the failed write, the valid buffer of block 60, which is in no
transaction, holds the byte the failed write copied while the disk holds 0; after the later
write's commit the disk holds it too. -/
theorem failed_write_reaches_disk :
    (∃ s, Reachable xvByteCache s ∧ s.log.outstanding = 0 ∧ s.log.committing = false ∧ s.log.lh = [] ∧
      (∃ x, lookup s.bufs 60 = some x ∧ x.valid = true ∧ x.data 0 = 65) ∧ s.disk 60 0 = 0) ∧
    (∃ s, Reachable xvByteCache s ∧ s.log.outstanding = 0 ∧ s.log.committing = false ∧ s.log.lh = [] ∧
      s.disk 60 0 = 65 ∧ s.disk 60 1 = 66) := by
  have h1 : (run xvByteCache xvByteCache.init failedWriteTrace).holds (fun s =>
      s.log.outstanding == 0 && !s.log.committing && s.log.lh.isEmpty &&
        (lookup s.bufs 60).map (fun (x : Buf (Nat → UInt8)) => x.valid && x.data 0 == 65) == some true &&
          s.disk 60 0 == 0) = true := by
    decide +kernel
  have h2 : (run xvByteCache xvByteCache.init (failedWriteTrace ++ laterWriteTrace)).holds (fun s =>
      s.log.outstanding == 0 && !s.log.committing && s.log.lh.isEmpty && s.disk 60 0 == 65 &&
        s.disk 60 1 == 66) = true := by
    decide +kernel
  obtain ⟨s, hs, hp⟩ := Reachable.run_holds _ .init h1
  obtain ⟨s', hs', hp'⟩ := Reachable.run_holds _ .init h2
  simp only [Bool.and_eq_true, beq_iff_eq, Bool.not_eq_eq_eq_not, Bool.not_true, List.isEmpty_iff] at hp hp'
  obtain ⟨⟨⟨⟨ho, hc⟩, hlh⟩, hx⟩, hd⟩ := hp
  obtain ⟨x, hx, hxv⟩ := Option.map_eq_some_iff.mp hx
  simp only [Bool.and_eq_true, beq_iff_eq] at hxv
  obtain ⟨⟨⟨⟨ho', hc'⟩, hlh'⟩, hd0⟩, hd1⟩ := hp'
  exact ⟨⟨s, hs, ho, hc, hlh, ⟨x, hx, hxv.1, hxv.2⟩, hd⟩, ⟨s', hs', ho', hc', hlh', hd0, hd1⟩⟩

end Xv6.Bio
