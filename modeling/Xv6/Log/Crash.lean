import Mathlib
import Xv6.Lib.BlockDev
import Xv6.Param

/-!
# The on-disk redo log: commit, recovery, crash atomicity (`log.c`)

The disk is a map from block numbers to block contents and every `bwrite` is one atomic block
write, so the disk traffic of `commit` and of `recover_from_log` is a list of `BlockDev.Op`s and a
crash leaves a prefix of it. The header block holds `struct logheader` through a `HeadCodec`.

* `commit`, `recoverFromLog`, `crashRecover` : the two procedures' writes, and a crash part way
  through recovery;
* `Recoverable` : what recovery needs of the disk it finds (a header naming blocks outside the log,
  with its slots inside it);
* `recoverFromLog_crashRecover` : a crash during recovery changes nothing that the next recovery
  produces; `recoverFromLog_foldl_crashRecover` for any number of such crashes;
* `recoverFromLog_commit_take` : after a crash at any point of `commit`, recovery leaves every
  block outside the log all as before the commit or all as after it.
-/

namespace Xv6
open BlockDev

/-- Where the log lives on disk: `log.start` (the header block, `sb.logstart`) and `log.size`
(`sb.nlog`, the header included). -/
structure LogRegion where
  start : Nat
  size : Nat

/-- Block `b` lies in the log region `[start, start + size)`. -/
def LogRegion.Mem (L : LogRegion) (b : Nat) : Prop := L.start ≤ b ∧ b < L.start + L.size

instance (L : LogRegion) (b : Nat) : Decidable (L.Mem b) := inferInstanceAs (Decidable (_ ∧ _))

/-- The log slot of entry `tail`: `log.start + tail + 1`. -/
def LogRegion.slot (L : LogRegion) (tail : Nat) : Nat := L.start + tail + 1

/-- How the header block holds `struct logheader`. `write_head` stores `n` and `block[0..n)` into
the buffer it read and leaves the rest of it, `read_head` reads them back; a header fits when
`n ≤ LOGSIZE`. -/
structure HeadCodec (α : Type) where
  decode : α → List Nat
  encode : List Nat → α → α
  decode_encode : ∀ h v, h.length ≤ logSize → decode (encode h v) = h
  encode_encode : ∀ h v, encode h (encode h v) = encode h v

variable {α : Type} (C : HeadCodec α) (L : LogRegion)

/-- `write_log`: entry `tail` of the header goes from the buffer cache to its log slot. -/
def writeLog (lh : List Nat) (cache : Nat → α) : List (Op Nat α) :=
  lh.mapIdx fun tail b => Write.op ⟨L.slot tail, cache b⟩

/-- `write_head`: store a header into the header block. -/
def writeHead (lh : List Nat) : Op Nat α := fun d => ⟨L.start, C.encode lh (d L.start)⟩

/-- `install_trans`: copy log slot `tail` to its home block. The `recovering` flag only decides
whether the buffer is unpinned, so both calls write the same blocks. -/
def installTrans (lh : List Nat) : List (Op Nat α) :=
  lh.mapIdx fun tail b d => ⟨b, d (L.slot tail)⟩

/-- `commit`: nothing for an empty transaction; else log the blocks, write the header (the commit
point), install, and erase the header. -/
def commit (lh : List Nat) (cache : Nat → α) : List (Op Nat α) :=
  if 0 < lh.length then
    writeLog L lh cache ++ [writeHead C L lh] ++ (installTrans L lh ++ [writeHead C L []])
  else []

/-- `read_head`: the header the disk holds. -/
def readHead (d : Nat → α) : List Nat := C.decode (d L.start)

/-- The writes of `recover_from_log` on the disk `d` it starts from. -/
def recoverOps (d : Nat → α) : List (Op Nat α) :=
  installTrans L (readHead C L d) ++ [writeHead C L []]

/-- `recover_from_log`: `read_head`, `install_trans(1)`, clear the header. -/
def recoverFromLog (d : Nat → α) : Nat → α := runOps d (recoverOps C L d)

/-- A crash after the first `j` block writes of `recover_from_log`. -/
def crashRecover (d : Nat → α) (j : Nat) : Nat → α := runOps d ((recoverOps C L d).take j)

/-- A transaction as `commit` finds it: the in-memory header `log.lh` and the cached contents of
its blocks. `log_write` keeps `n` below `log.size - 1` and `LOGSIZE` before it appends, and no
caller logs a block of the log itself. -/
structure Txn (L : LogRegion) (α : Type) where
  block : List Nat
  cache : Nat → α
  fits : block.length < L.size
  small : block.length ≤ logSize
  outside : ∀ b ∈ block, ¬ L.Mem b

/-- What recovery needs of the disk it finds: the header names blocks outside the log, and its
slots lie inside it. -/
structure Recoverable (d : Nat → α) : Prop where
  fits : (readHead C L d).length < L.size
  outside : ∀ b ∈ readHead C L d, ¬ L.Mem b

/-! ## Where the writes go -/

theorem LogRegion.start_mem {L : LogRegion} {n : Nat} (h : n < L.size) : L.Mem L.start :=
  ⟨Nat.le_refl _, by omega⟩

theorem LogRegion.slot_mem {L : LogRegion} {tail : Nat} (h : tail + 1 < L.size) : L.Mem (L.slot tail) :=
  ⟨by unfold LogRegion.slot; omega, by unfold LogRegion.slot; omega⟩

theorem LogRegion.slot_ne_start (L : LogRegion) (tail : Nat) : L.slot tail ≠ L.start := by
  unfold LogRegion.slot; omega

theorem LogRegion.slot_injective (L : LogRegion) : Function.Injective L.slot := by
  intro i j h; unfold LogRegion.slot at h; omega

/-- The writes `install_trans` makes on a disk whose slots it does not change. -/
def installWrites (lh : List Nat) (d : Nat → α) : List (Write Nat α) :=
  lh.mapIdx fun tail b => ⟨b, d (L.slot tail)⟩

theorem installTrans_reads_writes {lh : List Nat} (hfit : lh.length < L.size)
    (hout : ∀ b ∈ lh, ¬ L.Mem b) :
    ∀ op ∈ (installTrans L lh : List (Op Nat α)), ReadsOnly L.Mem op ∧ WritesOutside L.Mem op := by
  intro op hop
  obtain ⟨tail, htail, rfl⟩ := List.mem_mapIdx.mp hop
  refine ⟨fun d d' h => ?_, fun d => hout _ (List.getElem_mem htail)⟩
  have hs : d (L.slot tail) = d' (L.slot tail) := h (L.slot tail) (LogRegion.slot_mem (by omega))
  simp only [hs]

/-- `install_trans` on a disk whose header fits: the fixed writes it computes at the start. -/
theorem runOps_installTrans_take {lh : List Nat} (hfit : lh.length < L.size)
    (hout : ∀ b ∈ lh, ¬ L.Mem b) (d : Nat → α) (j : Nat) :
    runOps d ((installTrans L lh).take j) = writeAll d ((installWrites L lh d).take j) := by
  rw [runOps_eq_writeAll L.Mem _ d
    (fun op hop => installTrans_reads_writes L hfit hout op (List.mem_of_mem_take hop))]
  congr 1
  apply List.ext_getElem <;> simp [installTrans, installWrites]

theorem installWrites_addr_outside {lh : List Nat} (hout : ∀ b ∈ lh, ¬ L.Mem b) (d : Nat → α) :
    ∀ w ∈ installWrites L lh d, ¬ L.Mem w.addr := by
  intro w hw
  obtain ⟨tail, htail, rfl⟩ := List.mem_mapIdx.mp hw
  exact hout _ (List.getElem_mem htail)

/-- Writes outside the log leave every block of the log alone. -/
theorem writeAll_log_block {ws : List (Write Nat α)} (hws : ∀ w ∈ ws, ¬ L.Mem w.addr) (d : Nat → α)
    {b : Nat} (hb : L.Mem b) : writeAll d ws b = d b :=
  writeAll_of_forall_ne ws d (fun w hw he => hws w hw (he ▸ hb))

theorem installWrites_congr {lh : List Nat} {d d' : Nat → α}
    (h : ∀ tail < lh.length, d (L.slot tail) = d' (L.slot tail)) : installWrites L lh d = installWrites L lh d' := by
  apply List.ext_getElem
  · simp [installWrites]
  · intro i h1 h2
    simp only [installWrites, List.getElem_mapIdx]
    rw [h i (by simpa [installWrites] using h1)]

/-! ## Recovery -/

section Recovery
variable {C L}

/-- Recovery installs the slots the header names and clears the header. -/
theorem recoverFromLog_eq {d : Nat → α} (hd : Recoverable C L d) :
    recoverFromLog C L d =
      Function.update (writeAll d (installWrites L (readHead C L d) d)) L.start (C.encode [] (d L.start)) := by
  have hinst := runOps_installTrans_take L hd.fits hd.outside d (readHead C L d).length
  rw [List.take_of_length_le (by simp [installTrans]), List.take_of_length_le (by simp [installWrites])]
    at hinst
  rw [recoverFromLog, recoverOps, runOps_append, hinst]
  simp only [runOps_cons, runOps_nil, writeHead, Write.apply]
  rw [writeAll_log_block L (installWrites_addr_outside L hd.outside d) d (LogRegion.start_mem hd.fits)]

theorem recoverFromLog_start {d : Nat → α} (hd : Recoverable C L d) :
    recoverFromLog C L d L.start = C.encode [] (d L.start) := by
  rw [recoverFromLog_eq hd, Function.update_self]

/-- Recovery leaves an empty header: the state every `commit` starts from. -/
theorem readHead_recoverFromLog {d : Nat → α} (hd : Recoverable C L d) :
    readHead C L (recoverFromLog C L d) = [] := by
  rw [readHead, recoverFromLog_start hd]
  exact C.decode_encode [] _ (Nat.zero_le _)

theorem recoverable_of_readHead_nil {d : Nat → α} (h : readHead C L d = []) (hsize : 0 < L.size) :
    Recoverable C L d :=
  ⟨by rw [h]; exact hsize, by rw [h]; simp⟩

theorem recoverable_recoverFromLog {d : Nat → α} (hd : Recoverable C L d) :
    Recoverable C L (recoverFromLog C L d) :=
  recoverable_of_readHead_nil (readHead_recoverFromLog hd) (Nat.lt_of_le_of_lt (Nat.zero_le _) hd.fits)

theorem recoverFromLog_recoverFromLog {d : Nat → α} (hd : Recoverable C L d) :
    recoverFromLog C L (recoverFromLog C L d) = recoverFromLog C L d := by
  rw [recoverFromLog_eq (recoverable_recoverFromLog hd), readHead_recoverFromLog hd]
  simp only [installWrites, List.mapIdx_nil, writeAll_nil]
  -- the header block already holds the empty header
  rw [recoverFromLog_start hd, C.encode_encode, ← recoverFromLog_start hd, Function.update_eq_self]

/-- A crash inside the installing loop of recovery: the installs done so far. -/
theorem crashRecover_of_le {d : Nat → α} (hd : Recoverable C L d) {j : Nat}
    (hj : j ≤ (readHead C L d).length) :
    crashRecover C L d j = writeAll d ((installWrites L (readHead C L d) d).take j) := by
  rw [crashRecover, recoverOps, List.take_append_of_le_length (by simpa [installTrans] using hj)]
  exact runOps_installTrans_take L hd.fits hd.outside d j

/-- A crash during recovery changes nothing that the next recovery produces, and leaves a disk that
recovery can run on again. -/
theorem recoverFromLog_crashRecover {d : Nat → α} (hd : Recoverable C L d) (j : Nat) :
    Recoverable C L (crashRecover C L d j) ∧ recoverFromLog C L (crashRecover C L d j) = recoverFromLog C L d := by
  by_cases hj : j ≤ (readHead C L d).length
  · -- the crash hit the installing loop: the header and the slots are as they were
    have hW : ∀ w ∈ (installWrites L (readHead C L d) d).take j, ¬ L.Mem w.addr :=
      fun w hw => installWrites_addr_outside L hd.outside d w (List.mem_of_mem_take hw)
    have hlog : ∀ b, L.Mem b → crashRecover C L d j b = d b := by
      intro b hb
      rw [crashRecover_of_le hd hj]
      exact writeAll_log_block L hW d hb
    have hstart := hlog _ (LogRegion.start_mem hd.fits)
    have hhead : readHead C L (crashRecover C L d j) = readHead C L d := by rw [readHead, hstart]; rfl
    have hd' : Recoverable C L (crashRecover C L d j) :=
      ⟨by rw [hhead]; exact hd.fits, by rw [hhead]; exact hd.outside⟩
    refine ⟨hd', ?_⟩
    rw [recoverFromLog_eq hd', recoverFromLog_eq hd, hhead, hstart,
      installWrites_congr L (fun tail ht => hlog _ (LogRegion.slot_mem (by have := hd.fits; omega))),
      crashRecover_of_le hd hj, writeAll_writeAll_take]
  · -- the crash came after the last write: recovery had finished
    have hdone : crashRecover C L d j = recoverFromLog C L d := by
      rw [crashRecover, List.take_of_length_le (by simp [recoverOps, installTrans]; omega)]
      rfl
    rw [hdone]
    exact ⟨recoverable_recoverFromLog hd, recoverFromLog_recoverFromLog hd⟩

/-- Any number of crashes during recovery, each in the recovery that follows the last. -/
theorem recoverFromLog_foldl_crashRecover : ∀ (js : List Nat) {d : Nat → α}, Recoverable C L d →
    recoverFromLog C L (js.foldl (crashRecover C L) d) = recoverFromLog C L d
  | [], _, _ => rfl
  | j :: js, d, hd => by
    obtain ⟨hd', heq⟩ := recoverFromLog_crashRecover hd j
    rw [List.foldl_cons, recoverFromLog_foldl_crashRecover js hd', heq]

end Recovery

/-- Recovery from a disk whose header is empty only rewrites the header. -/
theorem recoverFromLog_of_readHead_nil {C : HeadCodec α} {L : LogRegion} {d : Nat → α}
    (h : readHead C L d = []) (hsize : 0 < L.size) {b : Nat} (hb : ¬ L.Mem b) : recoverFromLog C L d b = d b := by
  have hne : b ≠ L.start := fun he => hb (he ▸ LogRegion.start_mem hsize)
  rw [recoverFromLog_eq (recoverable_of_readHead_nil h hsize), h, Function.update_of_ne hne]
  rfl

/-! ## Commit -/

section Commit
variable {C L}

/-- The disk with every block of the transaction installed. -/
def Txn.installed (T : Txn L α) (d : Nat → α) (b : Nat) : α := if b ∈ T.block then T.cache b else d b

/-- The writes of `write_log` for a transaction. -/
def Txn.logWrites (T : Txn L α) : List (Write Nat α) := T.block.mapIdx fun tail b => ⟨L.slot tail, T.cache b⟩

/-- The disk at the commit point: the slots written, then the header. -/
def Txn.committed (C : HeadCodec α) (T : Txn L α) (d : Nat → α) : Nat → α :=
  (writeHead C L T.block (writeAll d T.logWrites)).apply (writeAll d T.logWrites)

variable (T : Txn L α)

theorem runOps_writeLog_take (d : Nat → α) (k : Nat) :
    runOps d ((writeLog L T.block T.cache).take k) = writeAll d (T.logWrites.take k) := by
  have h : writeLog L T.block T.cache = T.logWrites.map Write.op := by
    apply List.ext_getElem <;> simp [writeLog, Txn.logWrites]
  rw [h, ← List.map_take, runOps_map_op]

theorem logWrites_addr_mem : ∀ w ∈ T.logWrites, L.Mem w.addr := by
  intro w hw
  obtain ⟨tail, htail, rfl⟩ := List.mem_mapIdx.mp hw
  exact LogRegion.slot_mem (by have := T.fits; omega)

/-- After `write_log`, slot `tail` holds the cached contents of entry `tail`. -/
theorem writeAll_logWrites_slot (d : Nat → α) {tail : Nat} (ht : tail < T.block.length) :
    writeAll d T.logWrites (L.slot tail) = T.cache T.block[tail] := by
  have hnd : (T.logWrites.map Write.addr).Nodup := by
    have : T.logWrites.map Write.addr = (List.range T.block.length).map L.slot := by
      apply List.ext_getElem <;> simp [Txn.logWrites]
    rw [this]
    exact List.Nodup.map L.slot_injective List.nodup_range
  have hmem : (⟨L.slot tail, T.cache T.block[tail]⟩ : Write Nat α) ∈ T.logWrites :=
    List.mem_mapIdx.mpr ⟨tail, ht, rfl⟩
  exact writeAll_of_mem_nodup _ d hnd hmem

/-- `write_log` touches only the log. -/
theorem writeAll_logWrites_of_not_mem (d : Nat → α) (k : Nat) {b : Nat} (hb : ¬ L.Mem b) :
    writeAll d (T.logWrites.take k) b = d b :=
  writeAll_of_forall_ne _ d (fun w hw he => hb (he ▸ logWrites_addr_mem T w (List.mem_of_mem_take hw)))

theorem readHead_committed (d : Nat → α) : readHead C L (T.committed C d) = T.block := by
  rw [readHead, Txn.committed, Write.apply, writeHead, Function.update_self]
  exact C.decode_encode _ _ T.small

theorem committed_slot (d : Nat → α) {tail : Nat} (ht : tail < T.block.length) :
    T.committed C d (L.slot tail) = T.cache T.block[tail] := by
  rw [Txn.committed, Write.apply, writeHead, Function.update_of_ne (L.slot_ne_start tail)]
  exact writeAll_logWrites_slot T d ht

theorem committed_of_not_mem (d : Nat → α) {b : Nat} (hb : ¬ L.Mem b) : T.committed C d b = d b := by
  have hne : b ≠ L.start := fun he => hb (he ▸ LogRegion.start_mem T.fits)
  have h := writeAll_logWrites_of_not_mem T d T.block.length hb
  rw [List.take_of_length_le (by simp [Txn.logWrites])] at h
  rw [Txn.committed, Write.apply, writeHead, Function.update_of_ne hne, h]

theorem recoverable_committed (d : Nat → α) : Recoverable C L (T.committed C d) :=
  ⟨by rw [readHead_committed]; exact T.fits, by rw [readHead_committed]; exact T.outside⟩

/-- Recovery from the commit point installs the whole transaction. -/
theorem recoverFromLog_committed (d : Nat → α) {b : Nat} (hb : ¬ L.Mem b) :
    recoverFromLog C L (T.committed C d) b = T.installed d b := by
  have hne : b ≠ L.start := fun he => hb (he ▸ LogRegion.start_mem T.fits)
  -- every install copies a slot that holds the cached block it names
  have hW : installWrites L T.block (T.committed C d) = T.block.map fun b => ⟨b, T.cache b⟩ := by
    apply List.ext_getElem
    · simp [installWrites]
    · intro i h1 h2
      simp only [installWrites, List.getElem_mapIdx, List.getElem_map]
      rw [committed_slot T d (by simpa [installWrites] using h1)]
  rw [recoverFromLog_eq (recoverable_committed T d), Function.update_of_ne hne, readHead_committed, hW,
    writeAll_map_fun, Txn.installed, committed_of_not_mem T d hb]

/-- Past the commit point, `commit` runs the writes recovery would run. -/
theorem commit_eq (hn : 0 < T.block.length) (d : Nat → α) :
    commit C L T.block T.cache = writeLog L T.block T.cache ++ [writeHead C L T.block] ++
      recoverOps C L (T.committed C d) := by
  rw [commit, if_pos hn, recoverOps, readHead_committed]

/-- A crash before the commit point. -/
theorem runOps_commit_take_le (hn : 0 < T.block.length) (d : Nat → α) {k : Nat} (hk : k ≤ T.block.length) :
    runOps d ((commit C L T.block T.cache).take k) = writeAll d (T.logWrites.take k) := by
  rw [commit_eq T hn d, List.append_assoc, List.take_append_of_le_length (by simpa [writeLog] using hk),
    runOps_writeLog_take]

/-- A crash after the commit point is a crash during the recovery from the commit point. -/
theorem runOps_commit_take_gt (hn : 0 < T.block.length) (d : Nat → α) (j : Nat) :
    runOps d ((commit C L T.block T.cache).take (T.block.length + 1 + j)) = crashRecover C L (T.committed C d) j := by
  have hlen : (writeLog L T.block T.cache ++ [writeHead C L T.block]).length = T.block.length + 1 := by
    simp [writeLog]
  have hlog := runOps_writeLog_take T d T.block.length
  rw [List.take_of_length_le (by simp [writeLog]), List.take_of_length_le (by simp [Txn.logWrites])] at hlog
  rw [commit_eq T hn d, ← hlen, List.take_length_add_append, runOps_append, runOps_append, hlog]
  rfl

theorem writeAll_logWrites_start (d : Nat → α) (k : Nat) : writeAll d (T.logWrites.take k) L.start = d L.start := by
  apply writeAll_of_forall_ne
  intro w hw
  obtain ⟨tail, -, rfl⟩ := List.mem_mapIdx.mp (List.mem_of_mem_take hw)
  exact L.slot_ne_start tail

/-- Whatever point of `commit` a crash hits, the disk it leaves can be recovered; recovery leaves the
blocks outside the log as before the commit when the crash came before the header write, and as
after it from the header write on. -/
theorem commit_take_atomic (d : Nat → α) (hclean : readHead C L d = []) (k : Nat) :
    Recoverable C L (runOps d ((commit C L T.block T.cache).take k)) ∧
    (k ≤ T.block.length →
      ∀ b, ¬ L.Mem b → recoverFromLog C L (runOps d ((commit C L T.block T.cache).take k)) b = d b) ∧
    (T.block.length < k →
      ∀ b, ¬ L.Mem b → recoverFromLog C L (runOps d ((commit C L T.block T.cache).take k)) b = T.installed d b) := by
  have hsize : 0 < L.size := Nat.lt_of_le_of_lt (Nat.zero_le _) T.fits
  by_cases hn : 0 < T.block.length
  · by_cases hk : k ≤ T.block.length
    · -- before the commit point: only log slots were written, and the header is still empty
      rw [runOps_commit_take_le T hn d hk]
      have hhead : readHead C L (writeAll d (T.logWrites.take k)) = [] := by
        rw [readHead, writeAll_logWrites_start]; exact hclean
      refine ⟨recoverable_of_readHead_nil hhead hsize, fun _ b hb => ?_, fun hlt => absurd hk (by omega)⟩
      rw [recoverFromLog_of_readHead_nil hhead hsize hb, writeAll_logWrites_of_not_mem T d k hb]
    · -- past the commit point: a crash during the recovery from the commit point
      obtain ⟨j, rfl⟩ : ∃ j, k = T.block.length + 1 + j := ⟨k - (T.block.length + 1), by omega⟩
      rw [runOps_commit_take_gt T hn d j]
      obtain ⟨hrec, heq⟩ := recoverFromLog_crashRecover (recoverable_committed T d) j
      exact ⟨hrec, fun hle => absurd hle (by omega), fun _ b hb => by rw [heq, recoverFromLog_committed T d hb]⟩
  · -- an empty transaction: `commit` writes nothing, and installing it changes nothing
    have hnil : commit C L T.block T.cache = [] := by rw [commit, if_neg hn]
    have hempty : T.block = [] := List.eq_nil_of_length_eq_zero (by omega)
    rw [hnil, List.take_nil, runOps_nil]
    have hkeep : ∀ b, ¬ L.Mem b → recoverFromLog C L d b = d b :=
      fun b hb => recoverFromLog_of_readHead_nil hclean hsize hb
    exact ⟨recoverable_of_readHead_nil hclean hsize, fun _ => hkeep,
      fun _ b hb => by rw [hkeep b hb]; simp [Txn.installed, hempty]⟩

/-- A commit that runs to its end installs the transaction and leaves an empty header, the state the
next commit starts from. -/
theorem commit_complete (d : Nat → α) (hclean : readHead C L d = []) :
    readHead C L (runOps d (commit C L T.block T.cache)) = [] ∧
    ∀ b, ¬ L.Mem b → runOps d (commit C L T.block T.cache) b = T.installed d b := by
  by_cases hn : 0 < T.block.length
  · have hall : commit C L T.block T.cache = (commit C L T.block T.cache).take
        (T.block.length + 1 + (T.block.length + 1)) :=
      (List.take_of_length_le (by simp [commit, hn, writeLog, installTrans]; omega)).symm
    have hdone : crashRecover C L (T.committed C d) (T.block.length + 1) = recoverFromLog C L (T.committed C d) := by
      rw [crashRecover, List.take_of_length_le (by simp [recoverOps, installTrans, readHead_committed])]
      rfl
    rw [hall, runOps_commit_take_gt T hn d, hdone]
    exact ⟨readHead_recoverFromLog (recoverable_committed T d), fun b hb => recoverFromLog_committed T d hb⟩
  · have hnil : T.block = [] := List.eq_nil_of_length_eq_zero (by omega)
    have hc : commit C L T.block T.cache = [] := by rw [commit, if_neg hn]
    rw [hc, runOps_nil]
    exact ⟨hclean, fun b _ => by simp [Txn.installed, hnil]⟩

end Commit

/-! ## Crash atomicity -/

/-- Recovery run to its end after the crashes `js` during earlier recoveries, each recovery starting
from the disk the crash before it left. -/
def recoverAfterCrashes (d : Nat → α) (js : List Nat) : Nat → α := recoverFromLog C L (js.foldl (crashRecover C L) d)

/-- A crash after the first `k` writes of `commit`, then crashes `js` during the recoveries: the
recoveries end where one recovery would, which leaves the blocks outside the log as before the
commit when the crash came before the header write, and as the transaction installs them from the
header write on; a commit that is not interrupted installs it and clears the header. -/
theorem commit_crash_atomic (T : Txn L α) (d : Nat → α) (hclean : readHead C L d = []) (k : Nat)
    (js : List Nat) :
    recoverAfterCrashes C L (runOps d ((commit C L T.block T.cache).take k)) js =
      recoverFromLog C L (runOps d ((commit C L T.block T.cache).take k)) ∧
    (k ≤ T.block.length →
      ∀ b, ¬ L.Mem b → recoverAfterCrashes C L (runOps d ((commit C L T.block T.cache).take k)) js b = d b) ∧
    (T.block.length < k → ∀ b, ¬ L.Mem b →
        recoverAfterCrashes C L (runOps d ((commit C L T.block T.cache).take k)) js b = T.installed d b) ∧
    (readHead C L (runOps d (commit C L T.block T.cache)) = [] ∧
      ∀ b, ¬ L.Mem b → runOps d (commit C L T.block T.cache) b = T.installed d b) := by
  obtain ⟨hrec, hbefore, hafter⟩ := commit_take_atomic T d hclean k
  have hidem := recoverFromLog_foldl_crashRecover js hrec
  rw [recoverAfterCrashes, hidem]
  exact ⟨rfl, hbefore, hafter, commit_complete T d hclean⟩

/-- A header block that holds exactly the header. -/
def listCodec : HeadCodec (List Nat) where
  decode v := v
  encode h _ := h
  decode_encode _ _ _ := rfl
  encode_encode _ _ := rfl

/-- Two blocks logged at `logstart = 2`, `nlog = 30`; a crash after the header write, then a crash
after two installs of the recovery. -/
def twoBlockTxn : Txn ⟨2, 30⟩ (List Nat) := ⟨[40, 41], fun b => [b], by decide, by decide, by decide⟩

theorem commit_crash_atomic_twoBlockTxn :
    readHead listCodec ⟨2, 30⟩ (fun _ => []) = [] ∧
    (recoverAfterCrashes listCodec ⟨2, 30⟩ (runOps (fun _ => []) ((commit listCodec ⟨2, 30⟩ twoBlockTxn.block twoBlockTxn.cache).take 3)) [2] =
      recoverFromLog listCodec ⟨2, 30⟩ (runOps (fun _ => []) ((commit listCodec ⟨2, 30⟩ twoBlockTxn.block twoBlockTxn.cache).take 3)) ∧
    (3 ≤ twoBlockTxn.block.length → ∀ b, ¬ (⟨2, 30⟩ : LogRegion).Mem b → recoverAfterCrashes listCodec ⟨2, 30⟩
        (runOps (fun _ => []) ((commit listCodec ⟨2, 30⟩ twoBlockTxn.block twoBlockTxn.cache).take 3)) [2] b = []) ∧
    (twoBlockTxn.block.length < 3 → ∀ b, ¬ (⟨2, 30⟩ : LogRegion).Mem b → recoverAfterCrashes listCodec ⟨2, 30⟩
        (runOps (fun _ => []) ((commit listCodec ⟨2, 30⟩ twoBlockTxn.block twoBlockTxn.cache).take 3)) [2] b =
          twoBlockTxn.installed (fun _ => []) b) ∧
    (readHead listCodec ⟨2, 30⟩ (runOps (fun _ => []) (commit listCodec ⟨2, 30⟩ twoBlockTxn.block twoBlockTxn.cache)) = [] ∧
      ∀ b, ¬ (⟨2, 30⟩ : LogRegion).Mem b →
        runOps (fun _ => []) (commit listCodec ⟨2, 30⟩ twoBlockTxn.block twoBlockTxn.cache) b =
          twoBlockTxn.installed (fun _ => []) b)) :=
  ⟨rfl, commit_crash_atomic listCodec ⟨2, 30⟩ twoBlockTxn (fun _ => []) rfl 3 [2]⟩

end Xv6
