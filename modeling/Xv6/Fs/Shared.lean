import Mathlib
import Xv6.Fs.File
import Xv6.Lib.Tiles

/-!
# Writes through a shared open file

Processes that share one `struct file` on an inode (after `fork` or `dup`) each call `filewrite`
through it, any number of times, in any interleaving. What they share is `f->off`, and what
serialises its updates is the inode's sleep lock: a turn of `filewrite`'s loop (`filewriteChunk`:
`writei` at `f->off`, then `f->off += r`) runs with `ilock` held, and between two turns the lock is
dropped and any other process may run a turn of its own. A step of the system is one process's
turn, whole.

Beside the disk and the file, the state keeps where each process is (its call, and the bytes `i` of
it written), what its calls returned, and a ghost log of the chunks in the order they reached the
file.

* `sharedSys` : the system; `sharedNext_spec` : what one turn does;
* `freeBlocks`, `not_full_of_newRefs` : a disk with more than `MAXFILE + 1` free blocks does not
  fill up from writes to one inode;
* `SharedInv` : the content is the initial content with the chunks of the log written one after the
  other from the initial offset, and `f->off` at their end; every chunk is a whole chunk of a call;
  each call's chunks tile what it has written; every call that returned returned its `n`;
* `sharedInv_reachable` : the invariant in every reachable state.
-/

namespace Xv6.Blocks

open Trans Bytes Splice Ranges

/-- A call `filewrite(f, addr, n)` of a process, with the process's memory: while the call runs the
process is in the kernel, and no other process writes its memory. -/
structure WriteCall where
  mem : Mem
  addr : Nat
  n : Int32

/-- The bytes a call asks for: `n`, or none for `n < 0`. -/
def WriteCall.len (c : WriteCall) : Nat := c.n.toNatClampNeg

/-- `n1` of `filewrite`'s loop at byte `i` of call `c`: the bytes left, at most `max`. -/
def WriteCall.chunkLen (c : WriteCall) (i : Nat) : Nat := min (c.len - i) fileWriteMax

/-- Where a process is: in its call `k`, with `i` bytes of it written (`filewrite`'s local `i`). -/
structure Proc where
  k : Nat
  i : Nat

/-- A chunk that reached the file: bytes `[lo, lo + len)` of call `k` of process `p`. -/
structure Piece where
  p : Nat
  k : Nat
  lo : Nat
  len : Nat

/-- The disk, the shared file, where each process is and what its calls returned, and the log of
the chunks written. -/
structure Sharing where
  disk : DiskState
  f : File
  procs : Nat → Proc
  ret : Nat → List Int
  log : List Piece

namespace Sharing

/-- No process has called `filewrite` yet. -/
def start (s : DiskState) (f : File) : Sharing := ⟨s, f, fun _ => ⟨0, 0⟩, fun _ => [], []⟩

/-- A chunk of `r` bytes of process `p`'s call reached the disk `s`, with `f->off` now `off`. -/
@[simps]
def chunk (st : Sharing) (p : Nat) (s : DiskState) (off : UInt32) (r : Nat) : Sharing :=
  { st with disk := s, f := { st.f with off := off },
            log := st.log ++ [⟨p, (st.procs p).k, (st.procs p).i, r⟩] }

/-- `i += r` in process `p`. -/
@[simps]
def advance (st : Sharing) (p r : Nat) : Sharing :=
  { st with procs := Function.update st.procs p ⟨(st.procs p).k, (st.procs p).i + r⟩ }

/-- Process `p`'s call returns `r`, and its next call starts. -/
@[simps]
def finish (st : Sharing) (p : Nat) (r : Int) : Sharing :=
  { st with procs := Function.update st.procs p ⟨(st.procs p).k + 1, 0⟩,
            ret := Function.update st.ret p (st.ret p ++ [r]) }

end Sharing

section System

variable (sb : Superblock) (calls : List (List WriteCall))

/-- The calls process `p` makes, in order. -/
def callsOf (p : Nat) : List WriteCall := calls[p]?.getD []

/-- Call `k` of process `p`. -/
def callAt (p k : Nat) : Option WriteCall := (callsOf calls p)[k]?

/-- A turn of process `p`: blocked once it has made all its calls; else one turn of the loop of
its `filewrite`, or the return once the loop is over. -/
def sharedNext (st : Sharing) (p : Nat) : Outcome Sharing :=
  match callAt calls p (st.procs p).k with
  | none => .blocked
  | some c =>
    let i := (st.procs p).i
    if !st.f.writable then .ok (st.finish p (-1))
    else if (i : Int) < c.n.toInt then
      let n1 := min (c.n.toInt - i) (fileWriteMax : Int)
      match filewriteChunk sb c.mem st.disk st.f.ip (c.addr + i) st.f.off n1.toNat with
      | .error m => .panic m
      | .ok (s, off, r) =>
        -- a short chunk ends the loop, and `i` stays where it was
        if r ≠ n1 then
          .ok ((st.chunk p s off r.toNat).finish p (if (i : Int) = c.n.toInt then c.n.toInt else -1))
        else .ok ((st.chunk p s off r.toNat).advance p r.toNat)
    else .ok (st.finish p (if (i : Int) = c.n.toInt then c.n.toInt else -1))

/-- The processes writing through the file `f` on the disk `s`. -/
def sharedSys (s : DiskState) (f : File) : System Sharing Nat where
  init := Sharing.start s f
  next := sharedNext sb calls

/-- The bytes process `p` has written: its calls before the current one whole, and `i` bytes of the
current one. -/
def doneOf (st : Sharing) (p : Nat) : Nat :=
  (((callsOf calls p).take (st.procs p).k).map WriteCall.len).sum + (st.procs p).i

/-- The bytes call `k` of process `p` has written. -/
def doneAt (st : Sharing) (p k : Nat) : Nat :=
  if k < (st.procs p).k then ((callAt calls p k).map WriteCall.len).getD 0
  else if k = (st.procs p).k then (st.procs p).i else 0

/-- The bytes all the calls ask for. -/
def callsTotal : Nat := ∑ p ∈ Finset.range calls.length, ((callsOf calls p).map WriteCall.len).sum

/-- The bytes of a chunk: its range of its call's buffer. -/
def Piece.bytes (pc : Piece) : List UInt8 :=
  match callAt calls pc.p pc.k with
  | some c => readBytes c.mem.data (c.addr + pc.lo) pc.len
  | none => []

/-- The bytes of the log, chunk after chunk. -/
def written (log : List Piece) : List UInt8 := log.flatMap (Piece.bytes calls)

end System

/-! ## Room on the disk -/

section Room

variable (sb : Superblock)

/-- The blocks of the disk that the bitmap marks free. -/
def freeBlocks (s : DiskState) : Finset Nat :=
  (Finset.range sb.size).filter fun x => inUse sb s.blk x = false

/-- The positions of inode `i` that can hold a block: its `MAXFILE` blocks and its indirect block. -/
def posOf (i : Nat) : Finset Pos := insert (.ind i) ((Finset.range maxFile).image (.data i))

theorem card_posOf_le (i : Nat) : (posOf i).card ≤ maxFile + 1 :=
  calc (posOf i).card ≤ ((Finset.range maxFile).image (Pos.data i)).card + 1 := Finset.card_insert_le _ _
    _ ≤ (Finset.range maxFile).card + 1 := Nat.add_le_add_right Finset.card_image_le 1
    _ = maxFile + 1 := by rw [Finset.card_range]

/-- A position that holds a block is one of its inode's: no block lies past `MAXFILE`. -/
theorem mem_posOf {s : DiskState} {p : Pos} {x : Nat} (h : Refs sb s p x) : p ∈ posOf p.inum := by
  cases p with
  | ind i => exact Finset.mem_insert_self _ _
  | data i bn =>
    refine Finset.mem_insert_of_mem (Finset.mem_image.mpr ⟨bn, Finset.mem_range.mpr ?_, rfl⟩)
    by_contra hge
    have h0 : blockAddr s i bn = 0 := by
      unfold blockAddr maxFile at *
      rw [dif_neg (by omega), if_neg (by omega)]
    exact h.2.2.1 (h.blockAddr_eq.symm.trans h0)

variable {sb}

/-- Writes to inode `i` alone do not fill a disk that had more than `MAXFILE + 1` free blocks: each
block free at the start that is in use now is held at a position of inode `i`, a different one for
each block, and inode `i` has only `MAXFILE + 1` positions. -/
theorem not_full_of_newRefs {s0 s : DiskState} (hs0 : AllocInv sb s0) (hs : AllocInv sb s) {i : Nat}
    (hnew : NewRefsOf sb s0 s i) (hroom : maxFile + 1 < (freeBlocks sb s0).card) : ¬ Full sb s := by
  intro hfull
  have hsub : freeBlocks sb s0 ⊆ (posOf i).image (refAt s) := by
    intro x hx
    rw [freeBlocks, Finset.mem_filter, Finset.mem_range] at hx
    obtain ⟨hmeta, hnot⟩ := free_of_not_inUse hs0 hx.1 hx.2
    rcases (hs.inUse_iff x hx.1).mp (hfull x hx.1) with hlt | ⟨p, hp⟩
    · omega
    · have hpi : p.inum = i := by
        by_contra hne
        exact hnot p (hnew p x hp hne)
      exact Finset.mem_image.mpr ⟨p, hpi ▸ mem_posOf sb hp, hp.2.2.2⟩
  have := (Finset.card_le_card hsub).trans (Finset.card_image_le.trans (card_posOf_le i))
  omega

end Room

/-- The bytes of the log. -/
def total (log : List Piece) : Nat := (log.map Piece.len).sum

/-- The ranges of the chunks of call `k` of process `p`, in the order they reached the file. -/
def rangesOf (log : List Piece) (p k : Nat) : List (Nat × Nat) :=
  (log.filter fun pc => pc.p == p && pc.k == k).map fun pc => (pc.lo, pc.len)

/-! ## Sums over the processes -/

/-- Raising one term of a sum raises the sum by as much. -/
theorem sum_bump {s : Finset Nat} {f g : Nat → Nat} {p d : Nat} (hp : p ∈ s)
    (hg : ∀ q, q ≠ p → g q = f q) (hgp : g p = f p + d) : ∑ q ∈ s, g q = ∑ q ∈ s, f q + d := by
  have hrest : ∑ q ∈ s.erase p, g q = ∑ q ∈ s.erase p, f q :=
    Finset.sum_congr rfl fun q hq => hg q (Finset.ne_of_mem_erase hq)
  rw [← Finset.add_sum_erase s g hp, ← Finset.add_sum_erase s f hp, hgp, hrest]
  omega

/-- A sum below another, with room `d` to spare in one term. -/
theorem sum_add_le {s : Finset Nat} {f g : Nat → Nat} {p d : Nat} (hp : p ∈ s)
    (hle : ∀ q ∈ s, f q ≤ g q) (hpd : f p + d ≤ g p) : ∑ q ∈ s, f q + d ≤ ∑ q ∈ s, g q := by
  rw [← Finset.add_sum_erase s f hp, ← Finset.add_sum_erase s g hp]
  have hrest : ∑ q ∈ s.erase p, f q ≤ ∑ q ∈ s.erase p, g q :=
    Finset.sum_le_sum fun q hq => hle q (Finset.mem_of_mem_erase hq)
  omega

/-! ## The accounts of the log -/

section Accounts

variable {calls : List (List WriteCall)}

@[simp] theorem total_append (log : List Piece) (pc : Piece) :
    total (log ++ [pc]) = total log + pc.len := by
  simp [total]

theorem bytes_of_callAt {pc : Piece} {c : WriteCall} (h : callAt calls pc.p pc.k = some c) :
    pc.bytes calls = readBytes c.mem.data (c.addr + pc.lo) pc.len := by
  simp [Piece.bytes, h]

@[simp] theorem written_append (log : List Piece) (pc : Piece) :
    written calls (log ++ [pc]) = written calls log ++ pc.bytes calls := by
  simp [written]

/-- The log's bytes are as many as its chunks say, when each chunk is of a call. -/
theorem length_written {log : List Piece} (h : ∀ pc ∈ log, (callAt calls pc.p pc.k).isSome) :
    (written calls log).length = total log := by
  rw [written, List.length_flatMap, total]
  congr 1
  refine List.map_congr_left fun pc hpc => ?_
  obtain ⟨c, hc⟩ := Option.isSome_iff_exists.mp (h pc hpc)
  rw [bytes_of_callAt hc, length_readBytes]

theorem rangesOf_append (log : List Piece) (pc : Piece) (p k : Nat) :
    rangesOf (log ++ [pc]) p k =
      rangesOf log p k ++ if pc.p = p ∧ pc.k = k then [(pc.lo, pc.len)] else [] := by
  by_cases h : pc.p = p ∧ pc.k = k
  · simp [rangesOf, h]
  · simp [rangesOf, h]

theorem lt_of_callAt {p k : Nat} {c : WriteCall} (h : callAt calls p k = some c) : p < calls.length := by
  by_contra hp
  simp [callAt, callsOf, List.getElem?_eq_none (Nat.le_of_not_lt hp)] at h

theorem mem_of_callAt {p k : Nat} {c : WriteCall} (h : callAt calls p k = some c) :
    ∃ cs ∈ calls, c ∈ cs := by
  have hp := lt_of_callAt h
  refine ⟨calls[p], List.getElem_mem hp, ?_⟩
  simp only [callAt, callsOf, List.getElem?_eq_getElem hp, Option.getD_some] at h
  exact List.mem_of_getElem? h

@[simp] theorem doneOf_chunk (st : Sharing) (p : Nat) (s : DiskState) (off : UInt32) (r q : Nat) :
    doneOf calls (st.chunk p s off r) q = doneOf calls st q := rfl

@[simp] theorem doneAt_chunk (st : Sharing) (p : Nat) (s : DiskState) (off : UInt32) (r q k : Nat) :
    doneAt calls (st.chunk p s off r) q k = doneAt calls st q k := rfl

theorem doneOf_advance (st : Sharing) (p r q : Nat) :
    doneOf calls (st.advance p r) q = if q = p then doneOf calls st p + r else doneOf calls st q := by
  by_cases h : q = p
  · subst h
    simp [doneOf, Nat.add_assoc]
  · simp [doneOf, h]

theorem doneAt_advance (st : Sharing) (p r q k : Nat) :
    doneAt calls (st.advance p r) q k =
      if q = p ∧ k = (st.procs p).k then doneAt calls st q k + r else doneAt calls st q k := by
  by_cases h : q = p
  · subst h
    by_cases hk : k = (st.procs q).k
    · simp [doneAt, hk]
    · simp [doneAt, hk]
  · simp [doneAt, h]

/-- The bytes of the log split at chunk `j`: those before it, its own, and those after it. -/
theorem written_split (log : List Piece) {j : Nat} (hj : j < log.length) :
    written calls log =
      written calls (log.take j) ++ log[j].bytes calls ++ written calls (log.drop (j + 1)) := by
  have hlog := List.take_append_drop j log
  rw [List.drop_eq_getElem_cons hj] at hlog
  conv_lhs => rw [← hlog]
  simp only [written, List.flatMap_append, List.flatMap_cons, List.append_assoc]

/-- A call returns once it has written all its bytes: what every call has written stays. -/
theorem doneAt_finish {st : Sharing} {p : Nat} {c : WriteCall}
    (hc : callAt calls p (st.procs p).k = some c) (hi : (st.procs p).i = c.len) (v : Int) (q k : Nat) :
    doneAt calls (st.finish p v) q k = doneAt calls st q k := by
  by_cases h : q = p
  · subst h
    rcases Nat.lt_trichotomy k (st.procs q).k with hk | rfl | hk
    · simp [doneAt, hk, Nat.lt_succ_of_lt hk]
    · simp [doneAt, hc, hi]
    · simp [doneAt, Nat.not_lt_of_gt hk, Nat.ne_of_gt hk]
      omega
  · simp [doneAt, h]

theorem doneOf_finish {st : Sharing} {p : Nat} {c : WriteCall}
    (hc : callAt calls p (st.procs p).k = some c) (hi : (st.procs p).i = c.len) (v : Int) (q : Nat) :
    doneOf calls (st.finish p v) q = doneOf calls st q := by
  by_cases h : q = p
  · subst h
    obtain ⟨hK, hget⟩ := List.getElem?_eq_some_iff.mp hc
    simp only [doneOf, Sharing.finish_procs, Function.update_self]
    rw [List.map_take, List.map_take,
      List.sum_take_succ _ _ (by simpa only [List.length_map] using hK)]
    simp [hget, hi]
  · simp [doneOf, h]

end Accounts

/-! ## The invariant -/

section Inv

variable (sb : Superblock) (calls : List (List WriteCall)) (s0 : DiskState) (f0 : File)

/-- What the shared writes keep, from the disk `s0` and the file `f0`: the log written over the
initial content from the initial offset, with `f->off` at its end and the file otherwise the same;
every chunk a whole chunk of a call; each call's chunks tiling what it has written; the log as long
as the processes have written; every return `n`; each process within its calls. -/
structure SharedInv (st : Sharing) : Prop where
  wrote : WroteAt sb s0 st.disk f0.ip f0.off.toNat (written calls st.log)
  file : st.f = { f0 with off := f0.off + (total st.log).toUInt32 }
  pieces : ∀ pc ∈ st.log, ∃ c, callAt calls pc.p pc.k = some c ∧ pc.lo < c.len ∧
    pc.len = c.chunkLen pc.lo
  tiles : ∀ p k, Tiles (rangesOf st.log p k) 0 (doneAt calls st p k)
  total_eq : total st.log = ∑ p ∈ Finset.range calls.length, doneOf calls st p
  ret : ∀ p, st.ret p = ((callsOf calls p).take (st.procs p).k).map fun c => c.n.toInt
  cur_k : ∀ p, (st.procs p).k ≤ (callsOf calls p).length
  cur_i : ∀ p, (st.procs p).i ≤ ((callAt calls p (st.procs p).k).map WriteCall.len).getD 0

variable {sb calls s0 f0}

theorem sharedInv_start (hs0 : AllocInv sb s0) (hn0 : NoHoles sb s0) :
    SharedInv sb calls s0 f0 (Sharing.start s0 f0) where
  wrote := WroteAt.nil sb hs0 hn0 _ _
  file := by simp [Sharing.start, total]
  pieces := nofun
  tiles p k := by
    by_cases hk : k = 0 <;> simp [Sharing.start, rangesOf, doneAt, hk]
  total_eq := by simp [Sharing.start, total, doneOf]
  ret p := by simp [Sharing.start]
  cur_k p := Nat.zero_le _
  cur_i p := Nat.zero_le _

/-- What a process has written is within what its calls ask for; with room `d` in its current call,
it stays so `d` bytes further on. -/
theorem SharedInv.doneOf_add_le {st : Sharing} (hinv : SharedInv sb calls s0 f0 st) (q d : Nat)
    (hd : (st.procs q).i + d ≤ ((callAt calls q (st.procs q).k).map WriteCall.len).getD 0) :
    doneOf calls st q + d ≤ ((callsOf calls q).map WriteCall.len).sum := by
  have hK := hinv.cur_k q
  unfold doneOf
  rw [List.map_take]
  cases hc : callAt calls q (st.procs q).k with
  | none =>
    -- past the last call: everything was written and `i` is back to `0`
    rw [hc] at hd
    have hlen : (callsOf calls q).length ≤ (st.procs q).k := List.getElem?_eq_none_iff.mp hc
    rw [List.take_of_length_le (by simpa using hlen)]
    simp at hd
    omega
  | some c =>
    rw [hc] at hd
    obtain ⟨hlt, hget⟩ := List.getElem?_eq_some_iff.mp hc
    have hsucc := List.sum_take_succ ((callsOf calls q).map WriteCall.len) _
      (by simpa only [List.length_map] using hlt)
    have hle := List.sum_take_add_sum_drop ((callsOf calls q).map WriteCall.len) ((st.procs q).k + 1)
    simp only [List.getElem_map, hget, Option.map_some, Option.getD_some] at hsucc hd
    omega

theorem SharedInv.total_le {st : Sharing} (hinv : SharedInv sb calls s0 f0 st) :
    total st.log ≤ callsTotal calls := by
  rw [hinv.total_eq, callsTotal]
  exact Finset.sum_le_sum fun q _ => by simpa using hinv.doneOf_add_le q 0 (by simpa using hinv.cur_i q)

theorem SharedInv.total_add_le {st : Sharing} (hinv : SharedInv sb calls s0 f0 st) {p : Nat}
    {c : WriteCall} (hc : callAt calls p (st.procs p).k = some c) {d : Nat}
    (hd : (st.procs p).i + d ≤ c.len) : total st.log + d ≤ callsTotal calls := by
  rw [hinv.total_eq, callsTotal]
  exact sum_add_le (Finset.mem_range.mpr (lt_of_callAt hc))
    (fun q _ => by simpa using hinv.doneOf_add_le q 0 (by simpa using hinv.cur_i q))
    (hinv.doneOf_add_le p d (by simpa [hc] using hd))

theorem SharedInv.length_written {st : Sharing} (hinv : SharedInv sb calls s0 f0 st) :
    (written calls st.log).length = total st.log :=
  Xv6.Blocks.length_written fun pc hpc => by
    obtain ⟨c, hc, -⟩ := hinv.pieces pc hpc
    rw [hc]
    rfl

/-- `f->off` is the initial offset with the log's bytes after it. -/
theorem SharedInv.off_toNat {st : Sharing} (hinv : SharedInv sb calls s0 f0 st)
    (hend : f0.off.toNat + callsTotal calls ≤ maxFile * bSize) :
    st.f.off.toNat = f0.off.toNat + total st.log := by
  rw [hinv.file]
  have := hinv.total_le
  have := maxFile_eq
  unfold bSize at hend
  exact toNat_add_toUInt32 (by omega)

/-- The file is as long as the initial content and the log's bytes after the initial offset. -/
theorem SharedInv.size_eq {st : Sharing} (hinv : SharedInv sb calls s0 f0 st)
    (hoff : f0.off.toNat ≤ (s0.inode f0.ip).size) :
    (st.disk.inode f0.ip).size = max (s0.inode f0.ip).size (f0.off.toNat + total st.log) := by
  rw [size_of_wroteAt sb hinv.wrote hoff, hinv.length_written]

/-- The invariant after a whole chunk of process `p`'s call: the chunk goes at the end of the log,
`f->off` past it, and `i` past it. -/
theorem SharedInv.chunk {st : Sharing} (hinv : SharedInv sb calls s0 f0 st) {p : Nat} {c : WriteCall}
    (hc : callAt calls p (st.procs p).k = some c) (hlt : (st.procs p).i < c.len) {s' : DiskState}
    (hwr : WroteAt sb st.disk s' f0.ip (f0.off.toNat + total st.log)
      (readBytes c.mem.data (c.addr + (st.procs p).i) (c.chunkLen (st.procs p).i)))
    (hoff : f0.off.toNat ≤ (s0.inode f0.ip).size) :
    SharedInv sb calls s0 f0 ((st.chunk p s' (st.f.off + (c.chunkLen (st.procs p).i).toUInt32)
      (c.chunkLen (st.procs p).i)).advance p (c.chunkLen (st.procs p).i)) := by
  have hmle : (st.procs p).i + c.chunkLen (st.procs p).i ≤ c.len := by
    rw [WriteCall.chunkLen]
    omega
  refine ⟨?_, ?_, fun pc hpc => ?_, fun q k => ?_, ?_, fun q => ?_, fun q => ?_, fun q => ?_⟩
  · -- the chunk written where the log ended
    have hnew : Piece.bytes calls ⟨p, (st.procs p).k, (st.procs p).i, c.chunkLen (st.procs p).i⟩ =
        readBytes c.mem.data (c.addr + (st.procs p).i) (c.chunkLen (st.procs p).i) :=
      bytes_of_callAt hc
    simp only [Sharing.advance_disk, Sharing.chunk_disk, Sharing.advance_log, Sharing.chunk_log,
      written_append, hnew]
    exact hinv.wrote.trans sb (by rwa [hinv.length_written]) hoff
  · rw [Sharing.advance_f, show ∀ o, (st.chunk p s' o (c.chunkLen (st.procs p).i)).f = { st.f with off := o }
      from fun _ => rfl, hinv.file]
    simp [total_append, UInt32.add_assoc]
  · simp only [Sharing.advance_log, Sharing.chunk_log, List.mem_append, List.mem_singleton] at hpc
    rcases hpc with hpc | rfl
    · exact hinv.pieces pc hpc
    · exact ⟨c, hc, hlt, rfl⟩
  · -- the chunk extends the tiling of its own call, and of no other
    simp only [Sharing.advance_log, Sharing.chunk_log, rangesOf_append, doneAt_advance, doneAt_chunk,
      Sharing.chunk_procs]
    by_cases h : q = p ∧ k = (st.procs p).k
    · obtain ⟨rfl, rfl⟩ := h
      have hdone : doneAt calls st q (st.procs q).k = (st.procs q).i := by simp [doneAt]
      rw [if_pos ⟨rfl, rfl⟩, if_pos ⟨rfl, rfl⟩]
      have := (hinv.tiles q (st.procs q).k).snoc (c.chunkLen (st.procs q).i)
      rwa [hdone] at this ⊢
    · rw [if_neg (fun h' => h ⟨h'.1.symm, h'.2.symm⟩), if_neg h, List.append_nil]
      exact hinv.tiles q k
  · simp only [Sharing.advance_log, Sharing.chunk_log, total_append, hinv.total_eq]
    exact (sum_bump (Finset.mem_range.mpr (lt_of_callAt hc))
      (fun q hq => by rw [doneOf_advance, if_neg hq, doneOf_chunk])
      (by rw [doneOf_advance, if_pos rfl, doneOf_chunk])).symm
  · simp only [Sharing.advance_ret, Sharing.chunk_ret, Sharing.advance_procs, Sharing.chunk_procs]
    by_cases hq : q = p
    · subst hq
      simp [hinv.ret]
    · simp [Function.update_of_ne hq, hinv.ret]
  · by_cases hq : q = p
    · subst hq
      simpa using hinv.cur_k q
    · simpa [Function.update_of_ne hq] using hinv.cur_k q
  · by_cases hq : q = p
    · subst hq
      simp [hc, hmle]
    · simpa [Function.update_of_ne hq] using hinv.cur_i q

/-- The invariant after process `p`'s call returns its `n`, all its bytes written. -/
theorem SharedInv.finish {st : Sharing} (hinv : SharedInv sb calls s0 f0 st) {p : Nat} {c : WriteCall}
    (hc : callAt calls p (st.procs p).k = some c) (hieq : (st.procs p).i = c.len) :
    SharedInv sb calls s0 f0 (st.finish p c.n.toInt) := by
  obtain ⟨hK, hget⟩ := List.getElem?_eq_some_iff.mp hc
  refine ⟨hinv.wrote, hinv.file, hinv.pieces, fun q k => ?_, ?_, fun q => ?_, fun q => ?_, fun q => ?_⟩
  · rw [doneAt_finish hc hieq]
    exact hinv.tiles q k
  · rw [Sharing.finish_log, hinv.total_eq]
    exact Finset.sum_congr rfl fun q _ => (doneOf_finish hc hieq _ q).symm
  · by_cases hq : q = p
    · subst hq
      simp only [Sharing.finish_ret, Sharing.finish_procs, Function.update_self, hinv.ret,
        List.take_add_one, List.getElem?_eq_getElem hK, hget, Option.toList_some, List.map_append,
        List.map_cons, List.map_nil]
    · simp [Function.update_of_ne hq, hinv.ret]
  · by_cases hq : q = p
    · subst hq
      simp only [Sharing.finish_procs, Function.update_self]
      omega
    · simpa [Function.update_of_ne hq] using hinv.cur_k q
  · by_cases hq : q = p
    · subst hq
      simp
    · simpa [Function.update_of_ne hq] using hinv.cur_i q

/-- Each chunk lies in the content where the log puts it: after the initial offset and the chunks
before it, none of which it overlaps. -/
theorem SharedInv.slice_piece {st : Sharing} (hinv : SharedInv sb calls s0 f0 st)
    (hoff : f0.off.toNat ≤ (s0.inode f0.ip).size) {j : Nat} (hj : j < st.log.length) :
    slice (content st.disk f0.ip) (f0.off.toNat + total (st.log.take j)) st.log[j].len =
      st.log[j].bytes calls := by
  obtain ⟨c, hc, -⟩ := hinv.pieces _ (List.getElem_mem hj)
  have hlen : (st.log[j].bytes calls).length = st.log[j].len := by
    rw [bytes_of_callAt hc, length_readBytes]
  have hpre : (written calls (st.log.take j)).length = total (st.log.take j) :=
    Xv6.Blocks.length_written fun pc hpc => by
      obtain ⟨c', hc', -⟩ := hinv.pieces pc (List.mem_of_mem_take hpc)
      rw [hc']
      rfl
  rw [hinv.wrote.content_eq, written_split _ hj, ← hpre, ← hlen]
  exact slice_splice_mid (by rwa [length_content]) _ _ _

/-- The chunks of a call, in the order of the log, are the bytes of its buffer it has written. -/
theorem SharedInv.flatMap_rangesOf {st : Sharing} (hinv : SharedInv sb calls s0 f0 st) (p k : Nat)
    (c : WriteCall) :
    (rangesOf st.log p k).flatMap (fun r => readBytes c.mem.data (c.addr + r.1) r.2) =
      readBytes c.mem.data c.addr (doneAt calls st p k) := by
  simpa using (hinv.tiles p k).flatMap_readBytes c.mem.data c.addr

/-- Once every process has made all its calls, the log holds every byte they asked for. -/
theorem SharedInv.total_of_done {st : Sharing} (hinv : SharedInv sb calls s0 f0 st)
    (hdone : ∀ p < calls.length, (st.procs p).k = (callsOf calls p).length) :
    total st.log = callsTotal calls := by
  rw [hinv.total_eq, callsTotal]
  refine Finset.sum_congr rfl fun p hp => ?_
  have hk := hdone p (Finset.mem_range.mp hp)
  -- past its last call a process has `i = 0`
  have hi : (st.procs p).i = 0 := by
    have := hinv.cur_i p
    rw [callAt, hk, List.getElem?_eq_none (Nat.le_refl _)] at this
    simpa using this
  simp [doneOf, hk, hi]

/-- A call of at most one chunk that has returned lies whole in the content: its one chunk. -/
theorem SharedInv.contiguous {st : Sharing} (hinv : SharedInv sb calls s0 f0 st)
    (hoff : f0.off.toNat ≤ (s0.inode f0.ip).size) {p k : Nat} {c : WriteCall}
    (hc : callAt calls p k = some c) (hk : k < (st.procs p).k) (hpos : 0 < c.len)
    (hone : c.len ≤ fileWriteMax) :
    ∃ o, slice (content st.disk f0.ip) o c.len = readBytes c.mem.data c.addr c.len := by
  have ht := hinv.tiles p k
  have hdone : doneAt calls st p k = c.len := by simp [doneAt, hk, hc]
  rw [hdone] at ht
  -- the call's chunks tile `[0, n)`, so there is a first one, and it starts at `0`
  obtain ⟨r, rs, hrs⟩ : ∃ r rs, rangesOf st.log p k = r :: rs := by
    cases h : rangesOf st.log p k with
    | nil =>
      rw [h, tiles_nil] at ht
      omega
    | cons r rs => exact ⟨r, rs, rfl⟩
  obtain ⟨pc, hpc, rfl⟩ := List.mem_map.mp (show r ∈ rangesOf st.log p k from hrs ▸ List.mem_cons_self ..)
  rw [List.mem_filter] at hpc
  have hpk : pc.p = p ∧ pc.k = k := by simpa using hpc.2
  obtain ⟨c', hc', -, hlen⟩ := hinv.pieces pc hpc.1
  rw [hpk.1, hpk.2, hc] at hc'
  cases hc'
  rw [hrs, tiles_cons] at ht
  have h0 : pc.lo = 0 := ht.1
  -- a chunk from `0` of a call of at most one chunk is the whole call
  have hlen' : pc.len = c.len := by
    rw [hlen, h0, WriteCall.chunkLen]
    omega
  obtain ⟨j, hj, hget⟩ := List.mem_iff_getElem.mp hpc.1
  have hsl := hinv.slice_piece hoff hj
  rw [hget, bytes_of_callAt (show callAt calls pc.p pc.k = some c by rw [hpk.1, hpk.2, hc]), h0,
    hlen', Nat.add_zero] at hsl
  exact ⟨_, hsl⟩

end Inv

/-! ## A turn -/

section Step

variable {sb : Superblock} {calls : List (List WriteCall)} {s0 : DiskState} {f0 : File}
  (hs0 : AllocInv sb s0) (hi : sb.HasInode f0.ip) (hty : (s0.inode f0.ip).type ≠ .free)
  (hw : f0.writable = true) (hoff : f0.off.toNat ≤ (s0.inode f0.ip).size)
  (hvalid : ∀ cs ∈ calls, ∀ c ∈ cs, 0 ≤ c.n ∧ Readable c.mem c.addr c.len)
  (hend : f0.off.toNat + callsTotal calls ≤ maxFile * bSize)
  (hroom : maxFile + 1 < (freeBlocks sb s0).card)

include hs0 hi hty hw hoff hvalid hend hroom

/-- A turn of process `p` from a state with the invariant: blocked when `p` has made all its calls;
otherwise, while bytes of its call are left, the next whole chunk of them written at `f->off`, and
once they are all written, the return of `n`. A turn never panics, and no chunk comes short. -/
theorem sharedNext_spec {st : Sharing} (hinv : SharedInv sb calls s0 f0 st) (p : Nat) :
    (callAt calls p (st.procs p).k = none ∧ sharedNext sb calls st p = .blocked) ∨
    ∃ c, callAt calls p (st.procs p).k = some c ∧
      (((st.procs p).i < c.len ∧ ∃ s', WroteAt sb st.disk s' f0.ip (f0.off.toNat + total st.log)
          (readBytes c.mem.data (c.addr + (st.procs p).i) (c.chunkLen (st.procs p).i)) ∧
          sharedNext sb calls st p = .ok ((st.chunk p s' (st.f.off + (c.chunkLen (st.procs p).i).toUInt32)
            (c.chunkLen (st.procs p).i)).advance p (c.chunkLen (st.procs p).i))) ∨
        ((st.procs p).i = c.len ∧ sharedNext sb calls st p = .ok (st.finish p c.n.toInt))) := by
  cases hc : callAt calls p (st.procs p).k with
  | none => exact .inl ⟨rfl, by simp [sharedNext, hc]⟩
  | some c =>
    right
    obtain ⟨cs, hcs, hmem⟩ := mem_of_callAt hc
    obtain ⟨h0, hR⟩ := hvalid cs hcs c hmem
    have hN : c.n.toInt = (c.len : Int) := Int32.toInt_eq_toNatClampNeg h0
    have hwr : st.f.writable = true := by rw [hinv.file]; exact hw
    have hip : st.f.ip = f0.ip := by rw [hinv.file]
    have hle : (st.procs p).i ≤ c.len := by simpa [hc] using hinv.cur_i p
    refine ⟨c, rfl, ?_⟩
    by_cases hlt : (st.procs p).i < c.len
    · left
      set i := (st.procs p).i with hi_def
      set m := c.chunkLen i with hm
      have hmle : i + m ≤ c.len := by rw [hm, WriteCall.chunkLen]; omega
      have hoffst := hinv.off_toNat hend
      have hsize := hinv.size_eq hoff
      have hbound := hinv.total_add_le hc hmle
      have hty' : (st.disk.inode f0.ip).type ≠ .free := by rw [hinv.wrote.type_eq]; exact hty
      have hin : st.f.off.toNat ≤ (st.disk.inode f0.ip).size := by
        rw [hoffst, hsize]
        omega
      have hfits : st.f.off.toNat + m ≤ maxFile * bSize := by
        rw [hoffst]
        omega
      obtain ⟨s', t, hch, hlet, hfull, hwr'⟩ := filewriteChunk_spec hinv.wrote.inv hinv.wrote.noHoles
        hi hty' c.mem (c.addr + i) hin hfits (Readable.mono (Readable.shift hR i) (by omega))
      -- the disk does not fill up, and only a full disk cuts a chunk short
      have ht : t = m := by
        by_contra hne
        exact not_full_of_newRefs hs0 hwr'.inv (hinv.wrote.only.trans sb hwr'.only) hroom
          (hfull (by omega))
      rw [ht] at hch hwr'
      refine ⟨hlt, s', by rwa [hoffst] at hwr', ?_⟩
      -- `n1` is the chunk, and `writei` wrote it whole
      have hn1 : min ((c.len : Int) - (i : Int)) (fileWriteMax : Int) = (m : Int) := by
        rw [hm, WriteCall.chunkLen]
        omega
      simp only [sharedNext, hc, hwr, Bool.not_true, Bool.false_eq_true, if_false, hN, ← hi_def]
      rw [if_pos (by exact_mod_cast hlt), hn1, Int.toNat_natCast, hip, hch]
      simp
    · right
      have hieq : (st.procs p).i = c.len := by omega
      refine ⟨hieq, ?_⟩
      simp [sharedNext, hc, hwr, hN, hieq]

/-- The step lemma: every turn keeps the invariant. -/
theorem SharedInv.next {st st' : Sharing} (hinv : SharedInv sb calls s0 f0 st) {p : Nat}
    (h : sharedNext sb calls st p = .ok st') : SharedInv sb calls s0 f0 st' := by
  rcases sharedNext_spec hs0 hi hty hw hoff hvalid hend hroom hinv p with
    ⟨-, hb⟩ | ⟨c, hc, ⟨hlt, s', hwr, hnext⟩ | ⟨hieq, hnext⟩⟩
  · rw [hb] at h
    cases h
  · rw [hnext] at h
    cases h
    exact hinv.chunk hc hlt hwr hoff
  · rw [hnext] at h
    cases h
    exact hinv.finish hc hieq

/-- The run lemma: the invariant holds in every reachable state. -/
theorem sharedInv_reachable (hn0 : NoHoles sb s0) {st : Sharing}
    (hr : Reachable (sharedSys sb calls s0 f0) st) : SharedInv sb calls s0 f0 st :=
  Reachable.induct _ (sharedInv_start hs0 hn0)
    (fun _ _ _ hinv hstep => hinv.next hs0 hi hty hw hoff hvalid hend hroom hstep) hr

end Step

/-! ## One byte over a two-byte file -/

/-- A process's memory, all of it mapped, holding `z` everywhere. -/
def zMem : Mem where
  user _ := true
  writable _ := true
  data _ := 122

/-- `write(fd, buf, 1)` from `zMem`. -/
def zCall : WriteCall := ⟨zMem, 0, 1⟩

/-- The file `f` holding `xy` (inode 2 of the image `mkfs` makes of it), open for writing at
offset `0`. -/
def xyFile : File := ⟨false, true, 2, 0⟩

/-- The image of the two-byte file, with more than `MAXFILE + 1` free blocks: blocks 100 to 399. -/
theorem mkfs_xy_room : ∃ im, mkfs [([102], [120, 121])] = .ok im ∧ AllocInv mkfsSb im.disk ∧
    NoHoles mkfsSb im.disk ∧ (im.disk.inode 2).type = .file ∧ (im.disk.inode 2).size = 2 ∧
    maxFile + 1 < (freeBlocks mkfsSb im.disk).card := by
  obtain ⟨im, hm, hs, hn, hty, hc, -⟩ := mkfs_xy
  obtain ⟨im', hm', hv⟩ := exists_of_toOption_map (x := mkfs [([102], [120, 121])])
    (f := fun im => (List.range' 100 300).all fun b => !inUse mkfsSb im.disk.blk b) (v := true)
    (by decide +kernel)
  rw [hm] at hm'
  cases hm'
  have hsize : (im.disk.inode 2).size = 2 := by
    rw [← length_content, hc]
    rfl
  have hsub : (List.range' 100 300).toFinset ⊆ freeBlocks mkfsSb im.disk := by
    intro b hb
    rw [List.mem_toFinset] at hb
    have hfree := List.all_eq_true.mp hv b hb
    simp only [Bool.not_eq_eq_eq_not, Bool.not_true] at hfree
    have hlt : b < 400 := (List.mem_range'_1.mp hb).2
    simp only [freeBlocks, Finset.mem_filter, Finset.mem_range]
    exact ⟨Nat.lt_of_lt_of_le hlt (by decide), hfree⟩
  have hroom : maxFile + 1 < (freeBlocks mkfsSb im.disk).card :=
    calc maxFile + 1 < (List.range' 100 300).toFinset.card := by
          rw [List.toFinset_card_of_nodup List.nodup_range', List.length_range', maxFile_eq]
          decide
      _ ≤ (freeBlocks mkfsSb im.disk).card := Finset.card_le_card hsub
  exact ⟨im, hm, hs, hn, hty, hsize, hroom⟩

/-- One process writes one byte at offset `0` of the two-byte file: a turn for the chunk, then one
for the return. -/
theorem shared_xy_run : ∃ im, mkfs [([102], [120, 121])] = .ok im ∧ AllocInv mkfsSb im.disk ∧
    NoHoles mkfsSb im.disk ∧ (im.disk.inode 2).type = .file ∧ (im.disk.inode 2).size = 2 ∧
    maxFile + 1 < (freeBlocks mkfsSb im.disk).card ∧
    ∃ st, Reachable (sharedSys mkfsSb [[zCall]] im.disk xyFile) st ∧ (st.procs 0).k = 1 ∧
      st.ret 0 = [1] ∧ (st.disk.inode 2).size = 2 ∧ content st.disk 2 = [122, 121] := by
  obtain ⟨im, hm, hs, hn, hty, hsize, hroom⟩ := mkfs_xy_room
  obtain ⟨im', hm', hv⟩ := exists_of_toOption_map (x := mkfs [([102], [120, 121])])
    (f := fun im => (run (sharedSys mkfsSb [[zCall]] im.disk xyFile) (Sharing.start im.disk xyFile) [0, 0]).holds
        (fun st => (st.procs 0).k == 1 && st.ret 0 == [1] && (st.disk.inode 2).size == 2 &&
          content st.disk 2 == [122, 121])) (v := true) (by decide +kernel)
  rw [hm] at hm'
  cases hm'
  obtain ⟨st, hr, hst⟩ := Reachable.run_holds _ Reachable.init hv
  simp only [Bool.and_eq_true, beq_iff_eq] at hst
  exact ⟨im, hm, hs, hn, hty, hsize, hroom, st, hr, hst.1.1.1, hst.1.1.2, hst.1.2, hst.2⟩

/-- `write(fd, buf, 3073)` from memory holding `v` everywhere: a chunk of `max` bytes, then one of a
single byte. -/
def longCall (v : UInt8) : WriteCall := ⟨⟨fun _ => true, fun _ => true, fun _ => v⟩, 0, 3073⟩

/-- Two processes, each with one long call. -/
def twoLongCalls : List (List WriteCall) := [[longCall 97], [longCall 98]]

/-! ## The shared writes -/

/-- Processes sharing one open file on an inode, each making its `filewrite` calls, in any
interleaving, from a disk with the allocation invariant, no hole and more than `MAXFILE + 1` free
blocks, through a writable file whose offset lies within the file, from readable buffers of `n ≥ 0`
bytes, with a total that ends within `MAXFILE*BSIZE`. In every reachable state: no turn panics, and
a process with a call left can take its turn; every call that returned returned its `n`; the content
is the initial content with the chunks of the log written one after the other from the initial
offset, and `f->off` is at their end; each chunk is `1` to `max` consecutive bytes of one call's
buffer and lies in the content where the log puts it; each call's chunks, in the order of the log,
tile what it has written and are its buffer's bytes so far; a call of at most one chunk that
returned lies whole in the content; and once every process has made all its calls, the log holds
all their bytes and the size is the larger of the initial size and the initial offset plus the sum
of all `n`. -/
theorem shared_file_writes {sb : Superblock} {calls : List (List WriteCall)} {s0 : DiskState}
    {f0 : File} (hs0 : AllocInv sb s0) (hn0 : NoHoles sb s0) (hi : sb.HasInode f0.ip)
    (hty : (s0.inode f0.ip).type ≠ .free) (hw : f0.writable = true)
    (hoff : f0.off.toNat ≤ (s0.inode f0.ip).size)
    (hvalid : ∀ cs ∈ calls, ∀ c ∈ cs, 0 ≤ c.n ∧ Readable c.mem c.addr c.len)
    (hend : f0.off.toNat + callsTotal calls ≤ maxFile * bSize)
    (hroom : maxFile + 1 < (freeBlocks sb s0).card) {st : Sharing}
    (hr : Reachable (sharedSys sb calls s0 f0) st) :
    (∀ p, callAt calls p (st.procs p).k = none ∨ ∃ st', sharedNext sb calls st p = .ok st') ∧
    (∀ p, st.ret p = ((callsOf calls p).take (st.procs p).k).map fun c => c.n.toInt) ∧
    content st.disk f0.ip = splice (content s0 f0.ip) f0.off.toNat (written calls st.log) ∧
    st.f.off.toNat = f0.off.toNat + total st.log ∧
    (∀ j (hj : j < st.log.length), ∃ c, callAt calls st.log[j].p st.log[j].k = some c ∧
      0 < st.log[j].len ∧ st.log[j].len ≤ fileWriteMax ∧
      slice (content st.disk f0.ip) (f0.off.toNat + total (st.log.take j)) st.log[j].len =
        readBytes c.mem.data (c.addr + st.log[j].lo) st.log[j].len) ∧
    (∀ p k, Tiles (rangesOf st.log p k) 0 (doneAt calls st p k) ∧ ∀ c, callAt calls p k = some c →
      (rangesOf st.log p k).flatMap (fun r => readBytes c.mem.data (c.addr + r.1) r.2) =
        readBytes c.mem.data c.addr (doneAt calls st p k)) ∧
    (∀ p k c, callAt calls p k = some c → k < (st.procs p).k → 0 < c.len → c.len ≤ fileWriteMax →
      ∃ o, slice (content st.disk f0.ip) o c.len = readBytes c.mem.data c.addr c.len) ∧
    ((∀ p < calls.length, (st.procs p).k = (callsOf calls p).length) →
      total st.log = callsTotal calls ∧
      (st.disk.inode f0.ip).size = max (s0.inode f0.ip).size (f0.off.toNat + callsTotal calls)) := by
  have hinv := sharedInv_reachable hs0 hi hty hw hoff hvalid hend hroom hn0 hr
  refine ⟨fun p => ?_, hinv.ret, hinv.wrote.content_eq, hinv.off_toNat hend, fun j hj => ?_,
    fun p k => ⟨hinv.tiles p k, fun c _ => hinv.flatMap_rangesOf p k c⟩,
    fun p k c hc hk hpos hone => hinv.contiguous hoff hc hk hpos hone, fun hdone => ?_⟩
  · rcases sharedNext_spec hs0 hi hty hw hoff hvalid hend hroom hinv p with
      ⟨hn, -⟩ | ⟨c, -, ⟨-, s', -, hnext⟩ | ⟨-, hnext⟩⟩
    · exact .inl hn
    · exact .inr ⟨_, hnext⟩
    · exact .inr ⟨_, hnext⟩
  · -- a whole chunk of its call: at least one byte, at most `max`
    obtain ⟨c, hc, hlo, hlen⟩ := hinv.pieces _ (List.getElem_mem hj)
    refine ⟨c, hc, ?_, ?_, ?_⟩
    · rw [hlen, WriteCall.chunkLen]
      unfold fileWriteMax maxOpBlocks bSize
      omega
    · rw [hlen, WriteCall.chunkLen]
      omega
    · rw [hinv.slice_piece hoff hj, bytes_of_callAt hc]
  · have htot := hinv.total_of_done hdone
    exact ⟨htot, by rw [hinv.size_eq hoff, htot]⟩

/-- Two processes write 3073 bytes each to the two-byte file through one `struct file`, and their
chunks alternate: `max` bytes of the first, `max` of the second, then the last byte of each. -/
theorem shared_file_writes_interleaved : ∃ im st, mkfs [([102], [120, 121])] = .ok im ∧
    Reachable (sharedSys mkfsSb twoLongCalls im.disk xyFile) st ∧
    st.log.map (fun c => (c.p, c.len)) = [(0, 3072), (1, 3072), (0, 1), (1, 1)] ∧
    (∀ p, callAt twoLongCalls p (st.procs p).k = none ∨ ∃ st', sharedNext mkfsSb twoLongCalls st p = .ok st') ∧
    (∀ p, st.ret p = ((callsOf twoLongCalls p).take (st.procs p).k).map fun c => c.n.toInt) ∧
    content st.disk xyFile.ip = splice (content im.disk xyFile.ip) xyFile.off.toNat (written twoLongCalls st.log) ∧
    st.f.off.toNat = xyFile.off.toNat + total st.log ∧
    (∀ j (hj : j < st.log.length), ∃ c, callAt twoLongCalls st.log[j].p st.log[j].k = some c ∧
      0 < st.log[j].len ∧ st.log[j].len ≤ fileWriteMax ∧
      slice (content st.disk xyFile.ip) (xyFile.off.toNat + total (st.log.take j)) st.log[j].len =
        readBytes c.mem.data (c.addr + st.log[j].lo) st.log[j].len) ∧
    (∀ p k, Tiles (rangesOf st.log p k) 0 (doneAt twoLongCalls st p k) ∧ ∀ c, callAt twoLongCalls p k = some c →
      (rangesOf st.log p k).flatMap (fun r => readBytes c.mem.data (c.addr + r.1) r.2) =
        readBytes c.mem.data c.addr (doneAt twoLongCalls st p k)) ∧
    (∀ p k c, callAt twoLongCalls p k = some c → k < (st.procs p).k → 0 < c.len → c.len ≤ fileWriteMax →
      ∃ o, slice (content st.disk xyFile.ip) o c.len = readBytes c.mem.data c.addr c.len) ∧
    ((∀ p < twoLongCalls.length, (st.procs p).k = (callsOf twoLongCalls p).length) →
      total st.log = callsTotal twoLongCalls ∧
      (st.disk.inode xyFile.ip).size = max (im.disk.inode xyFile.ip).size (xyFile.off.toNat + callsTotal twoLongCalls)) := by
  obtain ⟨im, hm, hs, hn, hty, -, hroom⟩ := mkfs_xy_room
  obtain ⟨im', hm', hv⟩ := exists_of_toOption_map (x := mkfs [([102], [120, 121])])
    (f := fun im => (run (sharedSys mkfsSb twoLongCalls im.disk xyFile) (Sharing.start im.disk xyFile)
        [0, 1, 0, 1, 0, 1]).holds
      (fun st => st.log.map (fun c => (c.p, c.len)) == [(0, 3072), (1, 3072), (0, 1), (1, 1)])) (v := true)
    (by decide +kernel)
  rw [hm] at hm'
  cases hm'
  obtain ⟨st, hr, hlog⟩ := Reachable.run_holds _ Reachable.init hv
  have hvalid : ∀ cs ∈ twoLongCalls, ∀ c ∈ cs, 0 ≤ c.n ∧ Readable c.mem c.addr c.len := by
    simp only [twoLongCalls, List.mem_cons, List.not_mem_nil, or_false,
      forall_eq_or_imp, forall_eq]
    exact ⟨⟨by decide, fun _ _ => rfl⟩, ⟨by decide, fun _ _ => rfl⟩⟩
  have hty' : (im.disk.inode xyFile.ip).type ≠ .free := by
    rw [show xyFile.ip = 2 from rfl, hty]
    decide
  exact ⟨im, st, hm, hr, beq_iff_eq.mp hlog,
    shared_file_writes hs hn (by decide) hty' rfl (Nat.zero_le _) hvalid (by decide) hroom hr⟩

/-- The size after all the calls is not the initial offset plus the sum of all `n`: one byte
written at offset `0` of a two-byte file, returned whole, leaves the file two bytes long. -/
theorem shared_write_keeps_size : ∃ im st, mkfs [([102], [120, 121])] = .ok im ∧
    Reachable (sharedSys mkfsSb [[zCall]] im.disk xyFile) st ∧ (st.procs 0).k = 1 ∧
    st.ret 0 = [1] ∧ xyFile.off.toNat + callsTotal [[zCall]] = 1 ∧ (st.disk.inode 2).size = 2 ∧
    content st.disk 2 = [122, 121] := by
  obtain ⟨im, hm, -, -, -, -, -, st, hr, hk, hret, hsize, hc⟩ := shared_xy_run
  exact ⟨im, st, hm, hr, hk, hret, by decide, hsize, hc⟩

end Xv6.Blocks
