import Xv6.Bio.Cache
import Xv6.Log.Group

/-!
# The log over the buffer cache (`log.c` with `bio.c`)

`log_write` does not write a block: it records the block in the header and pins its buffer in the
cache (`bpin`), and `commit()` later copies the buffer to the log (`write_log`), writes the header,
copies the log to the block's home (`install_trans`) and unpins the buffer. The model runs these
with the reads and releases of every other process in any interleaving: each section under
`bcache.lock` or `log.lock` is one step, and each turn of `write_log`'s and `install_trans`'s loops
is one step of the committing process, which holds no lock between turns.

The state keeps, as a ghost, the references processes hold: one `(p, b)` for each `bget` of block
`b` by process `p` that `brelse` has not given back.

* `LogCache`, `LogCacheEv`, `logCacheNext`, `logCacheSys`;
* `pinned` : the blocks whose buffers carry a pin from `log_write`: those of the header, less the
  ones `install_trans` has reached;
* `PinInv` : the invariant; `pinInv_reachable` : it holds in every reachable state.
-/

namespace Xv6.Bio
open Trans

/-- How far `commit()` has got: turn `t` of `write_log`, turn `t` of `install_trans`, or back in
`end_op` with the header cleared. -/
inductive CommitAt where
  | writeLog (t : Nat)
  | install (t : Nat)
  | done
  deriving DecidableEq, Repr

/-- The log, the cache, the disk and the progress of a commit, and the references processes hold. -/
structure LogCache (α : Type) where
  log : Log
  bufs : List (Buf α)
  disk : Nat → α
  commit : CommitAt
  refs : List (Nat × Nat)

/-- A step of a process. A process holding block `b`'s buffer changes its data (`write`) and logs it
(`logWrite`), as the callers of `log_write` do; `commit p` is the next step of `commit()` or of the
end of `end_op`, run by `p`. -/
inductive LogCacheEv (α : Type) where
  | beginOp
  | endOp
  | bget (p b : Nat)
  | lock (p b : Nat)
  | write (p b : Nat) (f : α → α)
  | logWrite (p b : Nat)
  | brelse (p b : Nat)
  | commit (p : Nat)

variable {α : Type}

/-! ## Steps on the cache -/

/-- `bget` by process `p`, which now holds a reference. -/
def getBuf (s : LogCache α) (p b : Nat) : Except String (LogCache α) := do
  let bufs ← bget s.bufs b
  return { s with bufs := bufs, refs := s.refs ++ [(p, b)] }

/-- The `acquiresleep` at the end of `bget`, then `bread`'s read of the disk when the buffer is not
valid. The process must hold a reference, and waits while another holds the lock. -/
def lockBuf (s : LogCache α) (p b : Nat) : Outcome (LogCache α) :=
  match lookup s.bufs b with
  | some x =>
    if (p, b) ∈ s.refs ∧ x.holder = none then
      .ok { s with bufs := modify s.bufs b fun y =>
        { y with holder := some p, valid := true, data := if y.valid then y.data else s.disk b } }
    else .blocked
  | none => .blocked

/-- `bread` -/
def bread (s : LogCache α) (p b : Nat) : Outcome (LogCache α) := do
  let s ← Outcome.ofExcept (getBuf s p b)
  lockBuf s p b

/-- `brelse` by process `p`, which gives its reference back. -/
def relseBuf (s : LogCache α) (p b : Nat) : Except String (LogCache α) := do
  let bufs ← brelse s.bufs p b
  return { s with bufs := bufs, refs := s.refs.erase (p, b) }

/-- The holder of block `b`'s buffer changes its data. -/
def setData (s : LogCache α) (b : Nat) (f : α → α) : LogCache α :=
  { s with bufs := modify s.bufs b fun y => { y with data := f y.data } }

/-- `memmove(dst->data, src->data, BSIZE)` between the buffers of blocks `src` and `dst`. -/
def copyData (s : LogCache α) (src dst : Nat) : LogCache α :=
  match lookup s.bufs src with
  | some x => setData s dst fun _ => x.data
  | none => s

/-- `bwrite`: the data of block `b`'s buffer goes to the disk. -/
def bwrite (s : LogCache α) (b : Nat) : LogCache α :=
  match lookup s.bufs b with
  | some x => { s with disk := Function.update s.disk b x.data }
  | none => s

/-! ## `commit()` -/

section Commit
variable (start : Nat) (encode : List Nat → α → α)

/-- `write_head`: the header block at `log.start` gets the header `lh`, as `encode` lays it out. -/
def writeHead (s : LogCache α) (p : Nat) (lh : List Nat) : Outcome (LogCache α) := do
  let s ← bread s p start
  let s := bwrite (setData s start (encode lh)) start
  Outcome.ofExcept (relseBuf s p start)

/-- Turn `t` of `write_log`: the cached block `b` goes to log block `t`. -/
def writeLogTurn (s : LogCache α) (p t b : Nat) : Outcome (LogCache α) := do
  let s ← bread s p (start + t + 1)
  let s ← bread s p b
  let s := bwrite (copyData s b (start + t + 1)) (start + t + 1)
  let s ← Outcome.ofExcept (relseBuf s p b)
  Outcome.ofExcept (relseBuf s p (start + t + 1))

/-- Turn `t` of `install_trans(0)`: log block `t` goes home to block `b`, whose buffer is unpinned. -/
def installTurn (s : LogCache α) (p t b : Nat) : Outcome (LogCache α) := do
  let s ← bread s p (start + t + 1)
  let s ← bread s p b
  let s := bwrite (copyData s (start + t + 1) b) b
  let s := { s with bufs := bunpin s.bufs b, commit := .install (t + 1) }
  let s ← Outcome.ofExcept (relseBuf s p (start + t + 1))
  Outcome.ofExcept (relseBuf s p b)

/-- The next step of `commit()` by process `p`, then the last section of `end_op`. -/
def commitStep (s : LogCache α) (p : Nat) : Outcome (LogCache α) :=
  match s.commit with
  | .writeLog t =>
    match s.log.lh[t]? with
    | some b => do
      let s ← writeLogTurn start s p t b
      return { s with commit := .writeLog (t + 1) }
    | none =>
      -- `if (log.lh.n > 0)`: an empty transaction writes nothing
      if s.log.lh = [] then .ok { s with commit := .done }
      else do
        let s ← writeHead start encode s p s.log.lh
        return { s with commit := .install 0 }
  | .install t =>
    match s.log.lh[t]? with
    | some b => installTurn start s p t b
    | none =>
      -- `log.lh.n = 0; write_head();`
      writeHead start encode { s with log := commitLog s.log, commit := .done } p []
  | .done => .ok { s with log := endCommit s.log, commit := .writeLog 0 }

end Commit

/-! ## The system -/

/-- One step. `start` is `log.start`; `encode` lays a header out in a block. -/
def logCacheNext (start : Nat) (encode : List Nat → α → α) (s : LogCache α) :
    LogCacheEv α → Outcome (LogCache α)
  | .beginOp =>
    match beginOp s.log with
    | some log => .ok { s with log := log }
    | none => .blocked
  | .endOp =>
    match endOp s.log with
    | .ok (log, _) => .ok { s with log := log }
    | .error m => .panic m
  | .bget p b => Outcome.ofExcept (getBuf s p b)
  | .lock p b => lockBuf s p b
  | .write p b f =>
    match lookup s.bufs b with
    | some x => if x.holder = some p then .ok (setData s b f) else .blocked
    | none => .blocked
  | .logWrite p b =>
    match lookup s.bufs b with
    | some x =>
      if x.holder = some p then
        match logWrite s.log b with
        -- a block already in the header is absorbed; a new one is pinned
        | .ok log => .ok { s with log := log, bufs := if b ∈ s.log.lh then s.bufs else bpin s.bufs b }
        | .error m => .panic m
      else .blocked
    | none => .blocked
  | .brelse p b => Outcome.ofExcept (relseBuf s p b)
  | .commit p => if s.log.committing then commitStep start encode s p else .blocked

/-- `NBUF` buffers over the disk `disk`, with a log of `size` blocks at `start`, after `binit` and
`initlog`. -/
def logCacheSys (nbuf size start : Nat) (encode : List Nat → α → α) (zero : α) (disk : Nat → α) :
    System (LogCache α) (LogCacheEv α) where
  init := ⟨⟨size, 0, false, []⟩, binit nbuf zero, disk, .writeLog 0, []⟩
  next := logCacheNext start encode

/-! ## The pins -/

/-- The blocks whose buffers carry a pin from `log_write`: those of the header, less those
`install_trans` has already unpinned. -/
def pinned (s : LogCache α) : List Nat :=
  match s.commit with
  | .install t => s.log.lh.drop t
  | _ => s.log.lh

/-- What the log keeps. -/
structure LogInv (s : LogCache α) : Prop where
  /-- `log_write` absorbs a block already in the header -/
  nodup : s.log.lh.Nodup
  /-- no operation runs during a commit -/
  quiet : s.log.committing = true → s.log.outstanding = 0
  /-- outside a commit, `commit()` is at its start -/
  idle : s.log.committing = false → s.commit = .writeLog 0
  install_le : ∀ t, s.commit = .install t → t ≤ s.log.lh.length
  done_clear : s.commit = .done → s.log.lh = []

/-- The invariant of the log over the cache. -/
structure PinInv (s : LogCache α) : Prop where
  log : LogInv s
  cache : CacheInv (pinned s) s.bufs s.refs

theorem LogInv.of_eq {s s' : LogCache α} (hi : LogInv s) (hl : s'.log = s.log) (hc : s'.commit = s.commit) :
    LogInv s' := by
  obtain ⟨h1, h2, h3, h4, h5⟩ := hi
  refine ⟨?_, ?_, ?_, ?_, ?_⟩ <;> simp only [hl, hc] <;> assumption

/-! ## Steps that change only the cache, the disk and the references -/

/-- `s'` has the log and the commit of `s`, and the cache's invariant and its number of buffers
carry over. -/
structure Keeps (s s' : LogCache α) : Prop where
  log : s'.log = s.log
  commit : s'.commit = s.commit
  cache : CacheInv (pinned s) s.bufs s.refs → CacheInv (pinned s) s'.bufs s'.refs
  length : CacheInv (pinned s) s.bufs s.refs → s'.bufs.length = s.bufs.length

theorem Keeps.pinned_eq {s s' : LogCache α} (h : Keeps s s') : pinned s' = pinned s := by
  simp only [pinned, h.log, h.commit]

theorem Keeps.trans {s s' s'' : LogCache α} (h1 : Keeps s s') (h2 : Keeps s' s'') : Keeps s s'' where
  log := h2.log.trans h1.log
  commit := h2.commit.trans h1.commit
  cache hc := by
    have := h2.cache (h1.pinned_eq ▸ h1.cache hc)
    rwa [h1.pinned_eq] at this
  length hc := (h2.length (h1.pinned_eq ▸ h1.cache hc)).trans (h1.length hc)

theorem PinInv.keeps {s s' : LogCache α} (hi : PinInv s) (h : Keeps s s') : PinInv s' :=
  ⟨hi.log.of_eq h.log h.commit, h.pinned_eq ▸ h.cache hi.cache⟩

theorem getBuf_eq_ok {s s' : LogCache α} {p b : Nat} (h : getBuf s p b = .ok s') :
    ∃ bufs, bget s.bufs b = .ok bufs ∧ s' = { s with bufs := bufs, refs := s.refs ++ [(p, b)] } := by
  obtain ⟨bufs, hb, hs⟩ := bind_eq_ok.mp h
  cases hs
  exact ⟨bufs, hb, rfl⟩

theorem lockBuf_eq_ok {s s' : LogCache α} {p b : Nat} (h : lockBuf s p b = .ok s') :
    (p, b) ∈ s.refs ∧ s' = { s with bufs := modify s.bufs b fun y =>
      { y with holder := some p, valid := true, data := if y.valid then y.data else s.disk b } } := by
  unfold lockBuf at h
  split at h
  · split at h
    · next hp =>
      cases h
      exact ⟨hp.1, rfl⟩
    · cases h
  · cases h

theorem relseBuf_eq_ok {s s' : LogCache α} {p b : Nat} (h : relseBuf s p b = .ok s') :
    ∃ bufs, brelse s.bufs p b = .ok bufs ∧ s' = { s with bufs := bufs, refs := s.refs.erase (p, b) } := by
  obtain ⟨bufs, hb, hs⟩ := bind_eq_ok.mp h
  cases hs
  exact ⟨bufs, hb, rfl⟩

theorem keeps_getBuf {s s' : LogCache α} {p b : Nat} (h : getBuf s p b = .ok s') : Keeps s s' := by
  obtain ⟨bufs, hb, rfl⟩ := getBuf_eq_ok h
  exact ⟨rfl, rfl, fun hc => hc.of_bget hb p, fun _ => length_bget hb⟩

theorem keeps_lockBuf {s s' : LogCache α} {p b : Nat} (h : lockBuf s p b = .ok s') : Keeps s s' := by
  obtain ⟨hp, rfl⟩ := lockBuf_eq_ok h
  exact ⟨rfl, rfl, fun hc => hc.of_lock hp (s.disk b), fun _ => length_modify _ _ _⟩

theorem keeps_bread {s s' : LogCache α} {p b : Nat} (h : bread s p b = .ok s') : Keeps s s' := by
  obtain ⟨s1, h1, h2⟩ := Outcome.bind_eq_ok.mp h
  exact (keeps_getBuf (Outcome.ofExcept_eq_ok.mp h1)).trans (keeps_lockBuf h2)

theorem keeps_relseBuf {s s' : LogCache α} {p b : Nat} (h : relseBuf s p b = .ok s') : Keeps s s' := by
  obtain ⟨bufs, hb, rfl⟩ := relseBuf_eq_ok h
  exact ⟨rfl, rfl, fun hc => hc.of_brelse hb, fun hc => length_brelse hc.keys hb⟩

theorem keeps_setData (s : LogCache α) (b : Nat) (f : α → α) : Keeps s (setData s b f) :=
  ⟨rfl, rfl, fun hc => hc.of_setData b f, fun _ => length_modify _ _ _⟩

theorem keeps_copyData (s : LogCache α) (src dst : Nat) : Keeps s (copyData s src dst) := by
  unfold copyData
  split
  · exact keeps_setData s dst _
  · exact ⟨rfl, rfl, id, fun _ => rfl⟩

theorem keeps_bwrite (s : LogCache α) (b : Nat) : Keeps s (bwrite s b) := by
  unfold bwrite
  split
  · exact ⟨rfl, rfl, id, fun _ => rfl⟩
  · exact ⟨rfl, rfl, id, fun _ => rfl⟩

section Commit
variable {start : Nat} {encode : List Nat → α → α}

theorem keeps_writeHead {s s' : LogCache α} {p : Nat} {lh : List Nat}
    (h : writeHead start encode s p lh = .ok s') : Keeps s s' := by
  obtain ⟨s1, h1, h2⟩ := Outcome.bind_eq_ok.mp h
  have k1 := keeps_bread h1
  have k2 := (keeps_setData s1 start (encode lh)).trans (keeps_bwrite _ start)
  exact k1.trans (k2.trans (keeps_relseBuf (Outcome.ofExcept_eq_ok.mp h2)))

theorem keeps_writeLogTurn {s s' : LogCache α} {p t b : Nat} (h : writeLogTurn start s p t b = .ok s') :
    Keeps s s' := by
  obtain ⟨s1, h1, h⟩ := Outcome.bind_eq_ok.mp h
  obtain ⟨s2, h2, h⟩ := Outcome.bind_eq_ok.mp h
  obtain ⟨s3, h3, h4⟩ := Outcome.bind_eq_ok.mp h
  have k3 := (keeps_copyData s2 b (start + t + 1)).trans (keeps_bwrite _ (start + t + 1))
  exact (keeps_bread h1).trans ((keeps_bread h2).trans (k3.trans
    ((keeps_relseBuf (Outcome.ofExcept_eq_ok.mp h3)).trans (keeps_relseBuf (Outcome.ofExcept_eq_ok.mp h4)))))

/-- What a step of `commit()` does. -/
theorem commitStep_eq_ok {s s' : LogCache α} {p : Nat} (h : commitStep start encode s p = .ok s') :
    (∃ t b s1, s.commit = .writeLog t ∧ s.log.lh[t]? = some b ∧ writeLogTurn start s p t b = .ok s1 ∧
        s' = { s1 with commit := .writeLog (t + 1) }) ∨
    (∃ t, s.commit = .writeLog t ∧ s.log.lh = [] ∧ s' = { s with commit := .done }) ∨
    (∃ t s1, s.commit = .writeLog t ∧ s.log.lh[t]? = none ∧ writeHead start encode s p s.log.lh = .ok s1 ∧
        s' = { s1 with commit := .install 0 }) ∨
    (∃ t b, s.commit = .install t ∧ s.log.lh[t]? = some b ∧ installTurn start s p t b = .ok s') ∨
    (∃ t, s.commit = .install t ∧ s.log.lh[t]? = none ∧
        writeHead start encode { s with log := commitLog s.log, commit := .done } p [] = .ok s') ∨
    (s.commit = .done ∧ s' = { s with log := endCommit s.log, commit := .writeLog 0 }) := by
  unfold commitStep at h
  split at h
  · next t hat =>
    split at h
    · next b hb =>
      obtain ⟨s1, h1, h2⟩ := Outcome.bind_eq_ok.mp h
      cases h2
      exact .inl ⟨t, b, s1, hat, hb, h1, rfl⟩
    · next hb =>
      split at h
      · next he =>
        cases h
        exact .inr (.inl ⟨t, hat, he, rfl⟩)
      · obtain ⟨s1, h1, h2⟩ := Outcome.bind_eq_ok.mp h
        cases h2
        exact .inr (.inr (.inl ⟨t, s1, hat, hb, h1, rfl⟩))
  · next t hat =>
    split at h
    · next b hb => exact .inr (.inr (.inr (.inl ⟨t, b, hat, hb, h⟩)))
    · next hb => exact .inr (.inr (.inr (.inr (.inl ⟨t, hat, hb, h⟩))))
  · next hat =>
    cases h
    exact .inr (.inr (.inr (.inr (.inr ⟨hat, rfl⟩))))

/-! ## What `write_log` reads -/

/-- `bread` of another block leaves a buffer in use caching what it cached, with its data. -/
theorem bread_lookup_of_ne {s s' : LogCache α} (hk : Keys s.bufs) {p b c : Nat} {x : Buf α}
    (hx : lookup s.bufs b = some x) (hpos : 0 < x.refcnt) (hcb : c ≠ b) (h : bread s p c = .ok s') :
    ∃ x', lookup s'.bufs b = some x' ∧ x'.data = x.data ∧ x'.valid = x.valid := by
  obtain ⟨s1, h1, h2⟩ := Outcome.bind_eq_ok.mp h
  obtain ⟨bufs, hg, rfl⟩ := getBuf_eq_ok (Outcome.ofExcept_eq_ok.mp h1)
  obtain ⟨-, rfl⟩ := lockBuf_eq_ok h2
  obtain ⟨x', hx', hd, hv⟩ := lookup_bget_of_pos hk hx hpos hg
  refine ⟨x', ?_, hd, hv⟩
  rw [lookup_modify_of_ne ?_ _ (Ne.symm hcb)]
  · exact hx'
  · intro _
    rfl

/-- `bread` of a valid cached block returns its cached data: the disk is not read. -/
theorem bread_lookup_self {s s' : LogCache α} {p b : Nat} {x : Buf α} (hx : lookup s.bufs b = some x)
    (hv : x.valid = true) (h : bread s p b = .ok s') : ∃ x', lookup s'.bufs b = some x' ∧ x'.data = x.data := by
  obtain ⟨s1, h1, h2⟩ := Outcome.bind_eq_ok.mp h
  obtain ⟨bufs, hg, rfl⟩ := getBuf_eq_ok (Outcome.ofExcept_eq_ok.mp h1)
  obtain ⟨-, rfl⟩ := lockBuf_eq_ok h2
  rcases bget_eq_ok hg with ⟨-, rfl⟩ | ⟨hnone, -⟩
  · rw [lookup_modify ?_, lookup_modify ?_, hx]
    · exact ⟨_, rfl, by simp [hv]⟩
    · intro _
      rfl
    · intro _
      rfl
  · rw [hx] at hnone
    cases hnone

theorem bread_refs {s s' : LogCache α} {p b : Nat} (h : bread s p b = .ok s') : s'.refs = s.refs ++ [(p, b)] := by
  obtain ⟨s1, h1, h2⟩ := Outcome.bind_eq_ok.mp h
  obtain ⟨bufs, -, rfl⟩ := getBuf_eq_ok (Outcome.ofExcept_eq_ok.mp h1)
  obtain ⟨-, rfl⟩ := lockBuf_eq_ok h2
  rfl

/-- `memmove` from the buffer of `src` to the buffer of `dst`, then `bwrite` of `dst`. -/
theorem bwrite_copyData_disk {s : LogCache α} {src dst : Nat} {x y : Buf α} (hx : lookup s.bufs src = some x)
    (hy : lookup s.bufs dst = some y) : (bwrite (copyData s src dst) dst).disk dst = x.data := by
  have hl : lookup (copyData s src dst).bufs dst = some { y with data := x.data } := by
    simp only [copyData, hx, setData]
    rw [lookup_modify ?_, hy]
    · rfl
    · intro _
      rfl
  simp [bwrite, hl]

end Commit

/-! ## The invariant, step by step -/

/-- A step of a running commit that only moves `commit()` on, with the pins where they were. -/
theorem PinInv.setCommit {s : LogCache α} (hi : PinInv s) (hc : s.log.committing = true) (c : CommitAt)
    (hP : pinned { s with commit := c } = pinned s) (hle : ∀ t, c = .install t → t ≤ s.log.lh.length)
    (hdone : c = .done → s.log.lh = []) : PinInv { s with commit := c } where
  log := {
    nodup := hi.log.nodup
    quiet := hi.log.quiet
    idle := fun h => nomatch hc.symm.trans h
    install_le := hle
    done_clear := hdone }
  cache := hP ▸ hi.cache

/-- `install_trans`'s `bunpin` of block `lh[t]`: the pins are those of `lh[t+1..n)`. -/
theorem PinInv.unpin {s : LogCache α} (hi : PinInv s) {t b : Nat} (hc : s.log.committing = true)
    (hat : s.commit = .install t) (hb : s.log.lh[t]? = some b) :
    PinInv { s with bufs := bunpin s.bufs b, commit := .install (t + 1) } := by
  obtain ⟨hlt, hbt⟩ := List.getElem?_eq_some_iff.mp hb
  have hdrop : s.log.lh.drop t = b :: s.log.lh.drop (t + 1) := by
    rw [List.drop_eq_getElem_cons hlt, hbt]
  have hnd : b ∉ s.log.lh.drop (t + 1) := by
    have := hi.log.nodup.sublist (List.drop_sublist t s.log.lh)
    rw [hdrop] at this
    exact (List.nodup_cons.mp this).1
  have hcache : CacheInv (b :: s.log.lh.drop (t + 1)) s.bufs s.refs := by
    have := hi.cache
    simp only [pinned, hat] at this
    rwa [hdrop] at this
  refine ⟨⟨hi.log.nodup, hi.log.quiet, (fun h => nomatch hc.symm.trans h), ?_, (fun h => nomatch h)⟩,
    hcache.of_bunpin hnd⟩
  intro t' ht'
  cases ht'
  show t + 1 ≤ s.log.lh.length
  omega

/-- The last turn of `commit()`: `log.lh.n = 0`, with every pin gone. -/
theorem PinInv.clear {s : LogCache α} (hi : PinInv s) {t : Nat} (hc : s.log.committing = true)
    (hat : s.commit = .install t) (hb : s.log.lh[t]? = none) :
    PinInv { s with log := commitLog s.log, commit := .done } := by
  have hle := hi.log.install_le t hat
  have hnone : s.log.lh.drop t = [] := by
    rw [List.drop_eq_nil_iff]
    exact List.getElem?_eq_none_iff.mp hb
  have hcache : CacheInv [] s.bufs s.refs := by
    have := hi.cache
    simp only [pinned, hat] at this
    rwa [hnone] at this
  exact ⟨⟨List.nodup_nil, hi.log.quiet, (fun h => nomatch hc.symm.trans h), (fun _ h => nomatch h), fun _ => rfl⟩,
    hcache⟩

section Steps
variable {start : Nat} {encode : List Nat → α → α}

theorem PinInv.installTurn {s s' : LogCache α} (hi : PinInv s) {p t b : Nat} (hc : s.log.committing = true)
    (hat : s.commit = .install t) (hb : s.log.lh[t]? = some b) (h : installTurn start s p t b = .ok s') :
    PinInv s' := by
  obtain ⟨s1, h1, h⟩ := Outcome.bind_eq_ok.mp h
  obtain ⟨s2, h2, h⟩ := Outcome.bind_eq_ok.mp h
  obtain ⟨s3, h3, h4⟩ := Outcome.bind_eq_ok.mp h
  have k12 := (keeps_bread h1).trans (keeps_bread h2)
  have k := k12.trans ((keeps_copyData s2 (start + t + 1) b).trans (keeps_bwrite _ b))
  have hi3 := (hi.keeps k).unpin (k.log ▸ hc) (k.commit ▸ hat) (k.log ▸ hb)
  exact (hi3.keeps (keeps_relseBuf (Outcome.ofExcept_eq_ok.mp h3))).keeps
    (keeps_relseBuf (Outcome.ofExcept_eq_ok.mp h4))

theorem PinInv.commitStep {s s' : LogCache α} (hi : PinInv s) {p : Nat} (hc : s.log.committing = true)
    (h : commitStep start encode s p = .ok s') : PinInv s' := by
  rcases commitStep_eq_ok h with ⟨t, b, s1, hat, hb, h1, rfl⟩ | ⟨t, hat, he, rfl⟩ | ⟨t, s1, hat, hb, h1, rfl⟩ |
    ⟨t, b, hat, hb, h1⟩ | ⟨t, hat, hb, h1⟩ | ⟨hat, rfl⟩
  · -- a turn of `write_log`: the pins stay
    have k := keeps_writeLogTurn h1
    refine (hi.keeps k).setCommit (k.log ▸ hc) _ ?_ (fun _ h => nomatch h) (fun h => nomatch h)
    simp only [pinned, k.commit, hat]
  · -- nothing was logged
    refine hi.setCommit hc _ ?_ (fun _ h => nomatch h) (fun _ => he)
    simp only [pinned, hat]
  · -- `write_head`, the commit point; `install_trans` starts with every pin
    have k := keeps_writeHead h1
    refine (hi.keeps k).setCommit (k.log ▸ hc) _ ?_ (fun _ h => ?_) (fun h => nomatch h)
    · simp only [pinned, k.commit, hat, List.drop_zero]
    · cases h
      exact Nat.zero_le _
  · exact hi.installTurn hc hat hb h1
  · exact (hi.clear hc hat hb).keeps (keeps_writeHead h1)
  · -- the end of `end_op`: the header is empty, so no pin is left
    have hlh := hi.log.done_clear hat
    refine ⟨⟨hi.log.nodup, (fun h => nomatch h), fun _ => rfl, (fun _ h => nomatch h), (fun h => nomatch h)⟩, ?_⟩
    have := hi.cache
    simp only [pinned, hat] at this ⊢
    exact this

/-- `log_write` of the block whose buffer the caller holds: a new block is pinned, a logged one
absorbed. -/
theorem PinInv.of_logWrite {s : LogCache α} (hi : PinInv s) {p b : Nat} {x : Buf α} {log : Log}
    (hx : lookup s.bufs b = some x) (hxp : x.holder = some p) (hl : logWrite s.log b = .ok log) :
    PinInv { s with log := log, bufs := if b ∈ s.log.lh then s.bufs else bpin s.bufs b } := by
  obtain ⟨-, -, hout, rfl⟩ := logWrite_eq_ok hl
  -- an operation is in progress, so no commit is
  have hc : s.log.committing = false := by
    cases h : s.log.committing
    · rfl
    · have := hi.log.quiet h
      omega
  have hidle := hi.log.idle hc
  by_cases hb : b ∈ s.log.lh
  · simp only [hb, if_true]
    exact hi
  · simp only [hb, if_false]
    obtain ⟨hxm, -⟩ := lookup_eq_some hx
    obtain ⟨c, -, -, hv⟩ := hi.cache.holder x hxm p hxp
    have hcache : CacheInv s.log.lh s.bufs s.refs := by
      have := hi.cache
      rwa [pinned, hidle] at this
    refine ⟨⟨?_, hi.log.quiet, hi.log.idle, (fun t h => nomatch hidle.symm.trans h),
      (fun h => nomatch hidle.symm.trans h)⟩, ?_⟩
    · rw [List.nodup_append]
      refine ⟨hi.log.nodup, List.nodup_cons.mpr ⟨List.not_mem_nil, List.nodup_nil⟩, ?_⟩
      intro a ha c hc hac
      rw [List.mem_singleton] at hc
      exact hb (hc ▸ hac ▸ ha)
    · have : pinned { s with log := { s.log with lh := s.log.lh ++ [b] }, bufs := bpin s.bufs b } =
          s.log.lh ++ [b] := by
        simp only [pinned, hidle]
      show CacheInv (pinned { s with log := { s.log with lh := s.log.lh ++ [b] }, bufs := bpin s.bufs b })
        (bpin s.bufs b) s.refs
      rw [this]
      exact hcache.of_bpin hb hx hv

theorem PinInv.next {s s' : LogCache α} (hi : PinInv s) {e : LogCacheEv α}
    (h : logCacheNext start encode s e = .ok s') : PinInv s' := by
  cases e with
  | beginOp =>
    simp only [logCacheNext] at h
    split at h
    · next log hlog =>
      obtain ⟨hc, -, rfl⟩ := beginOp_eq_some hlog
      cases h
      exact ⟨⟨hi.log.nodup, fun h => by simp [hc] at h, fun _ => hi.log.idle hc, hi.log.install_le,
        hi.log.done_clear⟩, hi.cache⟩
    · cases h
  | endOp =>
    simp only [logCacheNext] at h
    split at h
    · next log c hlog =>
      obtain ⟨hc, hcases⟩ := endOp_eq_ok hlog
      cases h
      rcases hcases with ⟨-, -, rfl⟩ | ⟨-, -, rfl⟩
      · -- the last operation out starts a commit
        exact ⟨⟨hi.log.nodup, fun _ => rfl, fun h => by simp at h, hi.log.install_le, hi.log.done_clear⟩,
          hi.cache⟩
      · exact ⟨⟨hi.log.nodup, fun h => by simp [hc] at h, fun _ => hi.log.idle hc, hi.log.install_le,
          hi.log.done_clear⟩, hi.cache⟩
    · cases h
  | bget p b => exact hi.keeps (keeps_getBuf (Outcome.ofExcept_eq_ok.mp h))
  | lock p b => exact hi.keeps (keeps_lockBuf h)
  | write p b f =>
    simp only [logCacheNext] at h
    split at h
    · split at h
      · cases h
        exact hi.keeps (keeps_setData s b f)
      · cases h
    · cases h
  | logWrite p b =>
    simp only [logCacheNext] at h
    split at h
    · next x hx =>
      split at h
      · next hxp =>
        split at h
        · next log hl =>
          cases h
          exact hi.of_logWrite hx hxp hl
        · cases h
      · cases h
    · cases h
  | brelse p b => exact hi.keeps (keeps_relseBuf (Outcome.ofExcept_eq_ok.mp h))
  | commit p =>
    simp only [logCacheNext] at h
    split at h
    · next hc => exact hi.commitStep hc h
    · cases h

/-! ### The number of buffers -/

theorem installTurn_length {s s' : LogCache α} (hi : PinInv s) {p t b : Nat} (hc : s.log.committing = true)
    (hat : s.commit = .install t) (hb : s.log.lh[t]? = some b) (h : installTurn start s p t b = .ok s') :
    s'.bufs.length = s.bufs.length := by
  obtain ⟨s1, h1, h⟩ := Outcome.bind_eq_ok.mp h
  obtain ⟨s2, h2, h⟩ := Outcome.bind_eq_ok.mp h
  obtain ⟨s3, h3, h4⟩ := Outcome.bind_eq_ok.mp h
  have k := ((keeps_bread h1).trans (keeps_bread h2)).trans
    ((keeps_copyData s2 (start + t + 1) b).trans (keeps_bwrite _ b))
  have hi3 := (hi.keeps k).unpin (k.log ▸ hc) (k.commit ▸ hat) (k.log ▸ hb)
  have k3 := keeps_relseBuf (Outcome.ofExcept_eq_ok.mp h3)
  have k4 := keeps_relseBuf (Outcome.ofExcept_eq_ok.mp h4)
  rw [k4.length (k3.pinned_eq ▸ k3.cache hi3.cache), k3.length hi3.cache]
  exact (length_modify _ _ _).trans (k.length hi.cache)

/-- No step adds or drops a buffer. -/
theorem length_next {s s' : LogCache α} (hi : PinInv s) {e : LogCacheEv α}
    (h : logCacheNext start encode s e = .ok s') : s'.bufs.length = s.bufs.length := by
  cases e with
  | beginOp =>
    simp only [logCacheNext] at h
    split at h
    · cases h
      rfl
    · cases h
  | endOp =>
    simp only [logCacheNext] at h
    split at h
    · cases h
      rfl
    · cases h
  | bget p b => exact (keeps_getBuf (Outcome.ofExcept_eq_ok.mp h)).length hi.cache
  | lock p b => exact (keeps_lockBuf h).length hi.cache
  | write p b f =>
    simp only [logCacheNext] at h
    split at h
    · split at h
      · cases h
        exact length_modify _ _ _
      · cases h
    · cases h
  | logWrite p b =>
    simp only [logCacheNext] at h
    split at h
    · split at h
      · split at h
        · cases h
          show (if b ∈ s.log.lh then s.bufs else bpin s.bufs b).length = _
          split
          · rfl
          · exact length_modify _ _ _
        · cases h
      · cases h
    · cases h
  | brelse p b => exact (keeps_relseBuf (Outcome.ofExcept_eq_ok.mp h)).length hi.cache
  | commit p =>
    simp only [logCacheNext] at h
    split at h
    · next hc =>
      rcases commitStep_eq_ok h with ⟨t, b, s1, hat, hb, h1, rfl⟩ | ⟨t, hat, he, rfl⟩ |
        ⟨t, s1, hat, hb, h1, rfl⟩ | ⟨t, b, hat, hb, h1⟩ | ⟨t, hat, hb, h1⟩ | ⟨hat, rfl⟩
      · exact (keeps_writeLogTurn h1).length hi.cache
      · rfl
      · exact (keeps_writeHead h1).length hi.cache
      · exact installTurn_length hi hc hat hb h1
      · exact (keeps_writeHead h1).length (hi.clear hc hat hb).cache
      · rfl
    · cases h

end Steps

theorem cacheInv_binit (n : Nat) (zero : α) : CacheInv [] (binit n zero) [] where
  keys b := by simp [binit, List.countP_replicate, Buf.caches]
  pinned_cached _ h := by cases h
  refs_cached _ h := by cases h
  refcnt_eq x hx := by
    rw [binit, List.mem_replicate] at hx
    rw [hx.2]
    rfl
  holder x hx p hp := by
    rw [binit, List.mem_replicate] at hx
    rw [hx.2] at hp
    cases hp

/-- A turn of `write_log` copies to the log the data of the cached buffer of its block, as the
operations last wrote it, not the block's contents on the disk. -/
theorem writeLogTurn_disk {start : Nat} {s s' : LogCache α} (hi : PinInv s) {p t b : Nat} {x : Buf α}
    (hx : lookup s.bufs b = some x) (hb : b ∈ pinned s) (hne : b ≠ start + t + 1)
    (h : writeLogTurn start s p t b = .ok s') : s'.disk (start + t + 1) = x.data := by
  obtain ⟨s1, h1, h⟩ := Outcome.bind_eq_ok.mp h
  obtain ⟨s2, h2, h⟩ := Outcome.bind_eq_ok.mp h
  obtain ⟨s3, h3, h4⟩ := Outcome.bind_eq_ok.mp h
  obtain ⟨hxm, hxb⟩ := lookup_eq_some hx
  -- the buffer of a pinned block is in use and valid
  have hpos := hi.cache.refcnt_pos_of_pinned hxm hxb hb
  have hvalid : x.valid = true := by
    obtain ⟨z, hz, hzb, hzv⟩ := hi.cache.pinned_cached b hb
    rwa [hi.cache.keys.eq hxm hz hxb hzb]
  obtain ⟨x1, hx1, hd1, hv1⟩ := bread_lookup_of_ne hi.cache.keys hx hpos (Ne.symm hne) h1
  obtain ⟨x2, hx2, hd2⟩ := bread_lookup_self hx1 (hv1 ▸ hvalid) h2
  -- the log block stays cached: the committing process holds a reference to it
  have hi2 := hi.keeps ((keeps_bread h1).trans (keeps_bread h2))
  have hL : (p, start + t + 1) ∈ s2.refs := by
    rw [bread_refs h2, bread_refs h1]
    simp
  obtain ⟨y, hy, hyL⟩ := hi2.cache.refs_cached _ hL
  obtain ⟨bufs3, -, rfl⟩ := relseBuf_eq_ok (Outcome.ofExcept_eq_ok.mp h3)
  obtain ⟨bufs4, -, rfl⟩ := relseBuf_eq_ok (Outcome.ofExcept_eq_ok.mp h4)
  rw [← hd1, ← hd2]
  exact bwrite_copyData_disk hx2 (hi2.cache.keys.lookup_eq hy hyL)

theorem pinInv_reachable {nbuf size start : Nat} {encode : List Nat → α → α} {zero : α} {disk : Nat → α}
    {s : LogCache α} (hs : Reachable (logCacheSys nbuf size start encode zero disk) s) : PinInv s := by
  refine Reachable.induct _ ?_ (fun _ _ _ hi h => hi.next h) hs
  exact ⟨⟨List.nodup_nil, (fun h => nomatch h), fun _ => rfl, (fun _ h => nomatch h), (fun h => nomatch h)⟩,
    cacheInv_binit nbuf zero⟩

/-- The cache keeps its `NBUF` buffers. -/
theorem length_bufs_reachable {nbuf size start : Nat} {encode : List Nat → α → α} {zero : α}
    {disk : Nat → α} {s : LogCache α} (hs : Reachable (logCacheSys nbuf size start encode zero disk) s) :
    s.bufs.length = nbuf := by
  induction hs with
  | init => simp [logCacheSys, binit]
  | step e hr hstep ih => rw [length_next (pinInv_reachable hr) hstep, ih]

/-- The log and the cache as `param.h` and `mkfs` size them: `NBUF` buffers, a log of
`nlog = LOGSIZE` blocks from block 2; block contents are numbers, and a header is its length. -/
def xvLogCache : System (LogCache Nat) (LogCacheEv Nat) :=
  logCacheSys nBuf logSize 2 (fun lh _ => lh.length) 0 fun _ => 0

/-- The log over the cache in every reachable state: the header holds distinct blocks; the pinned
blocks are the header's, less those `install_trans` has reached; each is held by exactly one buffer,
valid, whose count is its references and one pin; no other buffer is pinned; `bget` never takes the
buffer of a pinned block; a turn of `write_log` copies the data that buffer holds to the log; and once
`commit()` has returned, no buffer is pinned. -/
theorem log_cache_pins (nbuf size start : Nat) (encode : List Nat → α → α) (zero : α) (disk : Nat → α)
    (s : LogCache α) (hs : Reachable (logCacheSys nbuf size start encode zero disk) s) :
    s.log.lh.Nodup ∧
    (pinned s = s.log.lh ∨ ∃ t, s.commit = .install t ∧ pinned s = s.log.lh.drop t) ∧
    (∀ b ∈ pinned s, s.bufs.countP (·.caches b) = 1 ∧
      ∃ x, lookup s.bufs b = some x ∧ x.valid = true ∧ x.refcnt = refsTo s.refs (some b) + 1) ∧
    (∀ x ∈ s.bufs, x.refcnt = refsTo s.refs x.blockno + pinsOn (pinned s) x.blockno) ∧
    (∀ b ∈ pinned s, ∀ x c bufs', lookup s.bufs b = some x → bget s.bufs c = .ok bufs' →
      ∃ x', lookup bufs' b = some x' ∧ x'.data = x.data) ∧
    (∀ t b x p s', s.commit = .writeLog t → s.log.lh[t]? = some b → b ≠ start + t + 1 →
      lookup s.bufs b = some x → logCacheNext start encode s (.commit p) = .ok s' →
      s'.disk (start + t + 1) = x.data) ∧
    (s.commit = .done → ∀ x ∈ s.bufs, x.refcnt = refsTo s.refs x.blockno) := by
  have hi := pinInv_reachable hs
  have hc := hi.cache
  -- a pinned block's buffer
  have hheld : ∀ b ∈ pinned s, ∃ x, lookup s.bufs b = some x ∧ x.valid = true ∧ 0 < x.refcnt := by
    intro b hb
    obtain ⟨x, hx, hxb, hxv⟩ := hc.pinned_cached b hb
    exact ⟨x, hc.keys.lookup_eq hx hxb, hxv, hc.refcnt_pos_of_pinned hx hxb hb⟩
  refine ⟨hi.log.nodup, ?_, ?_, hc.refcnt_eq, ?_, ?_, ?_⟩
  · unfold pinned
    split
    · next t ht => exact .inr ⟨t, ht, rfl⟩
    · exact .inl rfl
  · intro b hb
    obtain ⟨x, hx, hxv, -⟩ := hheld b hb
    obtain ⟨hxm, hxb⟩ := lookup_eq_some hx
    refine ⟨Nat.le_antisymm (hc.keys b) (List.countP_pos_iff.mpr ⟨x, hxm, Buf.caches_iff.mpr hxb⟩), x, hx, hxv, ?_⟩
    rw [hc.refcnt_eq x hxm, hxb]
    simp [pinsOn, hb]
  · intro b hb x c bufs' hx hg
    obtain ⟨x0, hx0, -, hpos⟩ := hheld b hb
    rw [hx] at hx0
    cases hx0
    obtain ⟨x', hx', hd, -⟩ := lookup_bget_of_pos hc.keys hx hpos hg
    exact ⟨x', hx', hd⟩
  · intro t b x p s' hat hb hne hx h
    simp only [logCacheNext] at h
    split at h
    · rcases commitStep_eq_ok h with ⟨t', b', s1, hat', hb', h1, rfl⟩ | ⟨_, hat', he, -⟩ | ⟨_, _, hat', hb', -⟩ |
        ⟨_, _, hat', -⟩ | ⟨_, hat', -⟩ | ⟨hat', -⟩
      · rw [hat] at hat'
        cases hat'
        rw [hb] at hb'
        cases hb'
        have hmem : b ∈ pinned s := by
          simp only [pinned, hat]
          exact List.mem_of_getElem? hb
        have hdisk := writeLogTurn_disk hi hx hmem hne h1
        exact hdisk
      · rw [he] at hb
        cases hb
      · rw [hat] at hat'
        cases hat'
        rw [hb] at hb'
        cases hb'
      all_goals rw [hat] at hat'; cases hat'
    · cases h
  · intro hat x hx
    have hlh := hi.log.done_clear hat
    rw [hc.refcnt_eq x hx]
    cases x.blockno with
    | none => rfl
    | some b => simp [pinned, hat, hlh, pinsOn]

/-- One operation logs blocks 50 and 51; its commit copies both to the log, writes the header and
installs block 50, and another process then takes block 51's buffer, still pinned. -/
theorem log_cache_pins_installing :
    ∃ s, Reachable xvLogCache s ∧ s.commit = .install 1 ∧ s.log.lh = [50, 51] ∧ pinned s = [51] ∧
      s.refs = [(1, 51)] ∧
    (s.log.lh.Nodup ∧
    (pinned s = s.log.lh ∨ ∃ t, s.commit = .install t ∧ pinned s = s.log.lh.drop t) ∧
    (∀ b ∈ pinned s, s.bufs.countP (·.caches b) = 1 ∧
      ∃ x, lookup s.bufs b = some x ∧ x.valid = true ∧ x.refcnt = refsTo s.refs (some b) + 1) ∧
    (∀ x ∈ s.bufs, x.refcnt = refsTo s.refs x.blockno + pinsOn (pinned s) x.blockno) ∧
    (∀ b ∈ pinned s, ∀ x c bufs', lookup s.bufs b = some x → bget s.bufs c = .ok bufs' →
      ∃ x', lookup bufs' b = some x' ∧ x'.data = x.data) ∧
    (∀ t b x p s', s.commit = .writeLog t → s.log.lh[t]? = some b → b ≠ 2 + t + 1 →
      lookup s.bufs b = some x → logCacheNext 2 (fun lh _ => lh.length) s (.commit p) = .ok s' →
      s'.disk (2 + t + 1) = x.data) ∧
    (s.commit = .done → ∀ x ∈ s.bufs, x.refcnt = refsTo s.refs x.blockno)) := by
  have hrun : (run xvLogCache xvLogCache.init
      [.beginOp, .bget 0 50, .lock 0 50, .write 0 50 (fun _ => 7), .logWrite 0 50, .brelse 0 50,
        .bget 0 51, .lock 0 51, .write 0 51 (fun _ => 8), .logWrite 0 51, .brelse 0 51, .endOp,
        .commit 0, .commit 0, .commit 0, .commit 0, .bget 1 51]).holds (fun s =>
      s.commit == .install 1 && s.log.lh == [50, 51] && pinned s == [51] && s.refs == [(1, 51)]) = true := by
    decide +kernel
  obtain ⟨s, hs, hp⟩ := Reachable.run_holds _ .init hrun
  simp only [Bool.and_eq_true, beq_iff_eq] at hp
  obtain ⟨⟨⟨hc, hlh⟩, hpin⟩, hrefs⟩ := hp
  exact ⟨s, hs, hc, hlh, hpin, hrefs, log_cache_pins nBuf logSize 2 _ 0 _ _ hs⟩

/-- One operation logs block 50 and ends; its commit copies the block to the log, writes the header,
and installs the block. -/
def installOneTrace : List (LogCacheEv Nat) :=
  [.beginOp, .bget 0 50, .lock 0 50, .write 0 50 (fun _ => 7), .logWrite 0 50, .brelse 0 50, .endOp,
   .commit 0, .commit 0, .commit 0]

/-- After the first turn of `install_trans(0)` the header still holds block 50, since `lh.n` is
cleared only after the loop, while its buffer carries no pin. -/
theorem installed_block_unpinned :
    ∃ s, Reachable xvLogCache s ∧ 50 ∈ s.log.lh ∧ ∃ x, lookup s.bufs 50 = some x ∧ x.refcnt = 0 := by
  have hrun : (run xvLogCache xvLogCache.init installOneTrace).holds (fun s =>
      s.log.lh == [50] && (lookup s.bufs 50).map Buf.refcnt == some 0) = true := by
    decide +kernel
  obtain ⟨s, hs, hp⟩ := Reachable.run_holds _ .init hrun
  simp only [Bool.and_eq_true, beq_iff_eq] at hp
  obtain ⟨hlh, hx⟩ := hp
  obtain ⟨x, hx, hx0⟩ := Option.map_eq_some_iff.mp hx
  exact ⟨s, hs, by simp [hlh], x, hx, hx0⟩

end Xv6.Bio
