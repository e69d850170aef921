import Xv6.Lib.Trans
import Xv6.Param

/-!
# Group commit: `begin_op`, `log_write`, `end_op` and `commit` under any interleaving (`log.c`)

The fields of `struct log` that these functions share under `log.lock` (`Log`), and the functions
as the source computes them (`beginOp`, `logWrite`, `endOp`, `commitLog`, `endCommit`). Processes
run them in any interleaving (`logSys`): each section under `log.lock` is one step, and `commit()`,
which runs without the lock, is a step of its own between `end_op`'s two sections.

The system state carries two ghost records that the code does not keep: the blocks each operation
has logged (in its `Phase`), and for every commit the header it wrote with the operations it carried.

* `GroupInv` : the invariant; `groupInv_reachable` : it holds in every reachable state;
* `group_commit` : `log.committing` implies no operation is outstanding, `log.outstanding` counts
  the operations in progress, the two panics of `log_write` and `end_op` that guard this are
  unreachable, and every commit carries every block of each operation it carries.
-/

namespace Xv6
open Trans

/-- The fields of `struct log` that `log.lock` protects: `log.size`, `log.outstanding`,
`log.committing` and the in-memory header `log.lh` (its `n` is the list's length). -/
structure Log where
  size : Nat
  outstanding : Nat
  committing : Bool
  lh : List Nat
  deriving DecidableEq, Repr

/-- `begin_op`: `none` while the caller must sleep (a commit is running, or this operation might
exhaust the log). -/
def beginOp (log : Log) : Option Log :=
  if log.committing then none
  else if log.lh.length + (log.outstanding + 1) * maxOpBlocks > logSize then none
  else some { log with outstanding := log.outstanding + 1 }

/-- `log_write` of block `b`: the two panics, then absorption of a block already logged. -/
def logWrite (log : Log) (b : Nat) : Except String Log :=
  if log.lh.length ≥ logSize ∨ log.lh.length ≥ log.size - 1 then .error "too big a transaction"
  else if log.outstanding < 1 then .error "log_write outside of trans"
  else if b ∈ log.lh then .ok log
  else .ok { log with lh := log.lh ++ [b] }

/-- The first section of `end_op`: the log, and whether this caller must commit. -/
def endOp (log : Log) : Except String (Log × Bool) :=
  if log.committing then .error "log.committing"
  else if log.outstanding - 1 = 0 then .ok ({ log with outstanding := 0, committing := true }, true)
  else .ok ({ log with outstanding := log.outstanding - 1 }, false)

/-- `commit()` as the in-memory log sees it: the header is written out and emptied. -/
def commitLog (log : Log) : Log := { log with lh := [] }

/-- The last section of `end_op`, after `commit()`: clear `log.committing`. -/
def endCommit (log : Log) : Log := { log with committing := false }

/-- Where a process is in the protocol. -/
inductive Phase where
  /-- outside any operation, or asleep in `begin_op` -/
  | idle
  /-- between `begin_op` and `end_op`, having logged the distinct blocks `ws`; `epoch` is the number
  of commits before its `begin_op` -/
  | inOp (ws : List Nat) (epoch : Nat)
  /-- its `end_op` set `log.committing`; `commit()` is next -/
  | committer
  /-- back from `commit()`; the last section of `end_op` is next -/
  | committed
  deriving DecidableEq, Repr

def Phase.isInOp : Phase → Bool
  | .inOp _ _ => true
  | _ => false

example : (Phase.inOp [3] 0).isInOp = true := by simp [Phase.isInOp]

def Phase.isCommitting : Phase → Bool
  | .committer | .committed => true
  | _ => false

example : Phase.idle.isCommitting = false := by simp [Phase.isCommitting]

/-- The log, the processes, and the ghost records: the blocks of the operations that ended since the
last commit, and for each commit the header it wrote and the blocks of the operations it carried. -/
structure LogSys where
  log : Log
  procs : List Phase
  pending : List (List Nat)
  commits : List (List Nat × List (List Nat))
  deriving DecidableEq, Repr

/-- A step of process `p`. -/
inductive LogEv where
  | beginOp (p : Nat)
  | logWrite (p b : Nat)
  | endOp (p : Nat)
  | commit (p : Nat)
  | endCommit (p : Nat)
  deriving DecidableEq, Repr

/-- The distinct blocks an operation has logged, after it logs `b`. -/
def insertBlock (b : Nat) (ws : List Nat) : List Nat := if b ∈ ws then ws else ws ++ [b]

/-- One step. An operation logs at most `maxOp` distinct blocks, as the callers promise. -/
def logNext (maxOp : Nat) (s : LogSys) : LogEv → Outcome LogSys
  | .beginOp p =>
    if s.procs[p]? = some .idle then
      match beginOp s.log with
      | some log => .ok { s with log := log, procs := s.procs.set p (.inOp [] s.commits.length) }
      | none => .blocked
    else .blocked
  | .logWrite p b =>
    match s.procs[p]? with
    | some (.inOp ws ep) =>
      if (insertBlock b ws).length ≤ maxOp then
        match logWrite s.log b with
        | .ok log => .ok { s with log := log, procs := s.procs.set p (.inOp (insertBlock b ws) ep) }
        | .error m => .panic m
      else .blocked
    | _ => .blocked
  | .endOp p =>
    match s.procs[p]? with
    | some (.inOp ws _) =>
      match endOp s.log with
      | .ok (log, true) => .ok { s with log := log, procs := s.procs.set p .committer, pending := s.pending ++ [ws] }
      | .ok (log, false) => .ok { s with log := log, procs := s.procs.set p .idle, pending := s.pending ++ [ws] }
      | .error m => .panic m
    | _ => .blocked
  | .commit p =>
    if s.procs[p]? = some .committer then
      .ok { log := commitLog s.log, procs := s.procs.set p .committed, pending := [],
            commits := s.commits ++ [(s.log.lh, s.pending)] }
    else .blocked
  | .endCommit p =>
    if s.procs[p]? = some .committed then
      .ok { s with log := endCommit s.log, procs := s.procs.set p .idle }
    else .blocked

example : logNext 0 ⟨⟨1, 0, true, []⟩, [.committed], [], []⟩ (.endCommit 0) =
    .ok ⟨⟨1, 0, false, []⟩, [.idle], [], []⟩ := by
  simp [logNext, endCommit]

/-- `nproc` processes on a log of `size` blocks (`sb.nlog`), after `initlog`'s recovery. -/
def logSys (maxOp size nproc : Nat) : System LogSys LogEv where
  init := ⟨⟨size, 0, false, []⟩, List.replicate nproc .idle, [], []⟩
  next := logNext maxOp

/-! ## What each function does -/

theorem beginOp_eq_some {log log' : Log} (h : beginOp log = some log') :
    log.committing = false ∧ log.lh.length + (log.outstanding + 1) * maxOpBlocks ≤ logSize ∧
      log' = { log with outstanding := log.outstanding + 1 } := by
  unfold beginOp at h
  split at h
  · cases h
  · next hc =>
    split at h
    · cases h
    · next hadm => exact ⟨by simpa using hc, by omega, (Option.some.inj h).symm⟩

theorem logWrite_eq_ok {log log' : Log} {b : Nat} (h : logWrite log b = .ok log') :
    log.lh.length < logSize ∧ log.lh.length < log.size - 1 ∧ 1 ≤ log.outstanding ∧
      log' = if b ∈ log.lh then log else { log with lh := log.lh ++ [b] } := by
  unfold logWrite at h
  split at h
  · cases h
  · next hbig =>
    split at h
    · cases h
    · next hout =>
      refine ⟨by omega, by omega, by omega, ?_⟩
      split at h
      · next hb => cases h; simp [hb]
      · next hb => cases h; simp [hb]

theorem endOp_eq_ok {log log' : Log} {c : Bool} (h : endOp log = .ok (log', c)) :
    log.committing = false ∧
      (c = true ∧ log.outstanding - 1 = 0 ∧ log' = { log with outstanding := 0, committing := true } ∨
       c = false ∧ log.outstanding - 1 ≠ 0 ∧ log' = { log with outstanding := log.outstanding - 1 }) := by
  unfold endOp at h
  split at h
  · cases h
  · next hc =>
    refine ⟨by simpa using hc, ?_⟩
    split at h
    · next h0 => cases h; exact .inl ⟨rfl, h0, rfl⟩
    · next h0 => cases h; exact .inr ⟨rfl, h0, rfl⟩

/-- A block logged by `log_write` stays in the header until the next commit. -/
theorem mem_lh_of_logWrite {log log' : Log} {b : Nat} (h : logWrite log b = .ok log') :
    b ∈ log'.lh ∧ ∀ x ∈ log.lh, x ∈ log'.lh := by
  obtain ⟨-, -, -, rfl⟩ := logWrite_eq_ok h
  split
  · next hb => exact ⟨hb, fun _ hx => hx⟩
  · exact ⟨by simp, fun _ hx => by simp [hx]⟩

theorem logWrite_outstanding {log log' : Log} {b : Nat} (h : logWrite log b = .ok log') :
    log'.outstanding = log.outstanding ∧ log'.committing = log.committing := by
  obtain ⟨-, -, -, rfl⟩ := logWrite_eq_ok h
  split <;> exact ⟨rfl, rfl⟩

/-! ## What each step does -/

section Steps
variable {maxOp p : Nat} {s s' : LogSys}

theorem logNext_beginOp (h : logNext maxOp s (.beginOp p) = .ok s') :
    s.procs[p]? = some .idle ∧ s.log.committing = false ∧
      s.log.lh.length + (s.log.outstanding + 1) * maxOpBlocks ≤ logSize ∧
      s' = { s with log := { s.log with outstanding := s.log.outstanding + 1 },
                    procs := s.procs.set p (.inOp [] s.commits.length) } := by
  simp only [logNext] at h
  split at h
  · next hp =>
    split at h
    · next log hlog =>
      obtain ⟨hc, hadm, rfl⟩ := beginOp_eq_some hlog
      cases h
      exact ⟨hp, hc, hadm, rfl⟩
    · cases h
  · cases h

theorem logNext_logWrite {b : Nat} (h : logNext maxOp s (.logWrite p b) = .ok s') :
    ∃ ws ep log, s.procs[p]? = some (.inOp ws ep) ∧ (insertBlock b ws).length ≤ maxOp ∧
      logWrite s.log b = .ok log ∧
      s' = { s with log := log, procs := s.procs.set p (.inOp (insertBlock b ws) ep) } := by
  simp only [logNext] at h
  split at h
  · next ws ep hp =>
    split at h
    · next hmax =>
      split at h
      · next log hlog => cases h; exact ⟨ws, ep, log, hp, hmax, hlog, rfl⟩
      · cases h
    · cases h
  · cases h

theorem logNext_endOp (h : logNext maxOp s (.endOp p) = .ok s') :
    ∃ ws ep log c, s.procs[p]? = some (.inOp ws ep) ∧ endOp s.log = .ok (log, c) ∧
      s' = { s with log := log, procs := s.procs.set p (if c then .committer else .idle),
                    pending := s.pending ++ [ws] } := by
  simp only [logNext] at h
  split at h
  · next ws ep hp =>
    split at h
    · next log hlog => cases h; exact ⟨ws, ep, log, true, hp, hlog, rfl⟩
    · next log hlog => cases h; exact ⟨ws, ep, log, false, hp, hlog, rfl⟩
    · cases h
  · cases h

theorem logNext_commit (h : logNext maxOp s (.commit p) = .ok s') :
    s.procs[p]? = some .committer ∧
      s' = { log := commitLog s.log, procs := s.procs.set p .committed, pending := [],
             commits := s.commits ++ [(s.log.lh, s.pending)] } := by
  simp only [logNext] at h
  split at h
  · next hp => cases h; exact ⟨hp, rfl⟩
  · cases h

theorem logNext_endCommit (h : logNext maxOp s (.endCommit p) = .ok s') :
    s.procs[p]? = some .committed ∧
      s' = { s with log := endCommit s.log, procs := s.procs.set p .idle } := by
  simp only [logNext] at h
  split at h
  · next hp => cases h; exact ⟨hp, rfl⟩
  · cases h

end Steps

/-! ## The invariant -/

/-- The group-commit invariant. -/
structure GroupInv (s : LogSys) : Prop where
  /-- `log.outstanding` counts the operations in progress -/
  outstanding_eq : s.log.outstanding = s.procs.countP Phase.isInOp
  /-- exactly one process runs a commit while `log.committing` is set, and none otherwise -/
  committers : s.procs.countP Phase.isCommitting = if s.log.committing then 1 else 0
  /-- a commit never overlaps an operation -/
  committing_quiet : s.log.committing = true → s.log.outstanding = 0
  /-- an operation in progress has every block it logged in the header, and no commit ran since its
  `begin_op` -/
  inOp_logged : ∀ ws ep, Phase.inOp ws ep ∈ s.procs → (∀ b ∈ ws, b ∈ s.log.lh) ∧ ep = s.commits.length
  /-- so has every operation that ended since the last commit -/
  pending_logged : ∀ ws ∈ s.pending, ∀ b ∈ ws, b ∈ s.log.lh
  /-- every commit wrote every block of each operation it carried -/
  commits_whole : ∀ c ∈ s.commits, ∀ ws ∈ c.2, ∀ b ∈ ws, b ∈ c.1

theorem groupInv_init (size nproc : Nat) : GroupInv (logSys maxOp size nproc).init := by
  refine ⟨?_, ?_, ?_, ?_, ?_, ?_⟩ <;> simp [logSys, Phase.isInOp, Phase.isCommitting, List.countP_replicate]

/-- A member of the table after process `p` changes phase was there before, or is the new phase. -/
theorem mem_procs_set {procs : List Phase} {p : Nat} {ph x : Phase} (h : x ∈ procs.set p ph) :
    x ∈ procs ∨ x = ph :=
  List.mem_or_eq_of_mem_set h

/-- While a commit runs, no process is in an operation. -/
theorem no_inOp_of_committing {s : LogSys} (hi : GroupInv s) (hc : s.log.committing = true) :
    ∀ x ∈ s.procs, x.isInOp = false := by
  have h0 : s.procs.countP Phase.isInOp = 0 := by rw [← hi.outstanding_eq, hi.committing_quiet hc]
  intro x hx
  simpa using List.countP_eq_zero.mp h0 x hx

/-- A process in `commit()` or just back from it means `log.committing` is set. -/
theorem committing_of_phase {s : LogSys} (hi : GroupInv s) {p : Nat} {ph : Phase} (hp : s.procs[p]? = some ph)
    (hph : ph.isCommitting = true) : s.log.committing = true := by
  have hpos : 0 < s.procs.countP Phase.isCommitting :=
    List.countP_pos_iff.mpr ⟨ph, List.mem_of_getElem? hp, hph⟩
  rw [hi.committers] at hpos
  cases hc : s.log.committing
  · simp [hc] at hpos
  · rfl

section Preserve
variable {maxOp p : Nat} {s s' : LogSys}

theorem groupInv_beginOp (hi : GroupInv s) (h : logNext maxOp s (.beginOp p) = .ok s') : GroupInv s' := by
  obtain ⟨hp, hc, -, rfl⟩ := logNext_beginOp h
  have hcount := countP_set Phase.isInOp s.procs p (.inOp [] s.commits.length) .idle hp
  have hcount' := countP_set Phase.isCommitting s.procs p (.inOp [] s.commits.length) .idle hp
  have hidle : s.procs.countP Phase.isCommitting = 0 := by rw [hi.committers, hc]; rfl
  simp [Phase.isInOp, Phase.isCommitting] at hcount hcount'
  refine ⟨?_, ?_, by simp [hc], ?_, hi.pending_logged, hi.commits_whole⟩
  · show s.log.outstanding + 1 = (s.procs.set p _).countP Phase.isInOp
    rw [hi.outstanding_eq]; omega
  · show _ = if s.log.committing then 1 else 0
    rw [hc, hcount', hidle]; rfl
  · intro ws ep hmem
    rcases mem_procs_set hmem with hmem | heq
    · exact hi.inOp_logged ws ep hmem
    · cases heq; exact ⟨by simp, rfl⟩

theorem groupInv_logWrite {b : Nat} (hi : GroupInv s) (h : logNext maxOp s (.logWrite p b) = .ok s') :
    GroupInv s' := by
  obtain ⟨ws, ep, log, hp, -, hlog, rfl⟩ := logNext_logWrite h
  obtain ⟨hb, hkeep⟩ := mem_lh_of_logWrite hlog
  obtain ⟨hout, hcomm⟩ := logWrite_outstanding hlog
  have hcount := countP_set Phase.isInOp s.procs p (.inOp (insertBlock b ws) ep) (.inOp ws ep) hp
  have hcount' := countP_set Phase.isCommitting s.procs p (.inOp (insertBlock b ws) ep) (.inOp ws ep) hp
  simp [Phase.isInOp, Phase.isCommitting] at hcount hcount'
  refine ⟨?_, ?_, ?_, ?_, ?_, hi.commits_whole⟩
  · show log.outstanding = _
    rw [hout, hi.outstanding_eq, hcount]
  · show _ = if log.committing then 1 else 0
    rw [hcomm, ← hi.committers, hcount']
  · show log.committing = true → log.outstanding = 0
    rw [hout, hcomm]; exact hi.committing_quiet
  · intro ws' ep' hmem
    rcases mem_procs_set hmem with hmem | heq
    · obtain ⟨hws, hep⟩ := hi.inOp_logged ws' ep' hmem
      exact ⟨fun x hx => hkeep x (hws x hx), hep⟩
    · cases heq
      obtain ⟨hws, hep⟩ := hi.inOp_logged ws ep (List.mem_of_getElem? hp)
      refine ⟨fun x hx => ?_, hep⟩
      unfold insertBlock at hx
      split at hx
      · exact hkeep x (hws x hx)
      · rcases List.mem_append.mp hx with hx | hx
        · exact hkeep x (hws x hx)
        · rw [List.mem_singleton.mp hx]; exact hb
  · exact fun ws' hws' x hx => hkeep x (hi.pending_logged ws' hws' x hx)

theorem groupInv_endOp (hi : GroupInv s) (h : logNext maxOp s (.endOp p) = .ok s') : GroupInv s' := by
  obtain ⟨ws, ep, log, c, hp, hlog, rfl⟩ := logNext_endOp h
  obtain ⟨hc, hcases⟩ := endOp_eq_ok hlog
  have hws := (hi.inOp_logged ws ep (List.mem_of_getElem? hp)).1
  have hidle : s.procs.countP Phase.isCommitting = 0 := by rw [hi.committers, hc]; rfl
  have hold : ∀ ws' ep', Phase.inOp ws' ep' ∈ s.procs.set p (if c then .committer else .idle) →
      Phase.inOp ws' ep' ∈ s.procs := by
    intro ws' ep' hmem
    rcases mem_procs_set hmem with hmem | heq
    · exact hmem
    · cases c <;> cases heq
  have hpend : ∀ ws' ∈ s.pending ++ [ws], ∀ b ∈ ws', b ∈ s.log.lh := by
    intro ws' hws' b hb
    rcases List.mem_append.mp hws' with hws' | hws'
    · exact hi.pending_logged ws' hws' b hb
    · rw [List.mem_singleton.mp hws'] at hb; exact hws b hb
  rcases hcases with ⟨rfl, h0, rfl⟩ | ⟨rfl, h0, rfl⟩
  · -- the last operation out commits
    have hcount := countP_set Phase.isInOp s.procs p .committer (.inOp ws ep) hp
    have hcount' := countP_set Phase.isCommitting s.procs p .committer (.inOp ws ep) hp
    simp [Phase.isInOp, Phase.isCommitting] at hcount hcount'
    refine ⟨?_, ?_, fun _ => rfl, fun ws' ep' hmem => hi.inOp_logged ws' ep' (hold ws' ep' hmem), hpend,
      hi.commits_whole⟩
    · show 0 = _
      rw [hi.outstanding_eq] at h0; simp only [if_true]; omega
    · show _ = if true then 1 else 0
      simp only [if_true]; omega
  · have hcount := countP_set Phase.isInOp s.procs p .idle (.inOp ws ep) hp
    have hcount' := countP_set Phase.isCommitting s.procs p .idle (.inOp ws ep) hp
    simp [Phase.isInOp, Phase.isCommitting] at hcount hcount'
    refine ⟨?_, ?_, ?_, fun ws' ep' hmem => hi.inOp_logged ws' ep' (hold ws' ep' hmem), hpend,
      hi.commits_whole⟩
    · show s.log.outstanding - 1 = _
      rw [hi.outstanding_eq]; simp only [Bool.false_eq_true, if_false]; omega
    · show _ = if s.log.committing then 1 else 0
      rw [hc]; simp only [Bool.false_eq_true, if_false]; omega
    · show s.log.committing = true → _
      simp [hc]

theorem groupInv_commit (hi : GroupInv s) (h : logNext maxOp s (.commit p) = .ok s') : GroupInv s' := by
  obtain ⟨hp, rfl⟩ := logNext_commit h
  have hc := committing_of_phase hi hp rfl
  have hcount := countP_set Phase.isInOp s.procs p .committed .committer hp
  have hcount' := countP_set Phase.isCommitting s.procs p .committed .committer hp
  simp [Phase.isInOp, Phase.isCommitting] at hcount hcount'
  refine ⟨?_, ?_, hi.committing_quiet, ?_, by simp, ?_⟩
  · show s.log.outstanding = _
    rw [hi.outstanding_eq, hcount]
  · show _ = if s.log.committing then 1 else 0
    rw [hcount', hi.committers]
  · -- no operation is in progress while a commit runs
    intro ws ep hmem
    rcases mem_procs_set hmem with hmem | heq
    · simpa [Phase.isInOp] using no_inOp_of_committing hi hc _ hmem
    · cases heq
  · intro c' hc' ws hws b hb
    rcases List.mem_append.mp hc' with hc' | hc'
    · exact hi.commits_whole c' hc' ws hws b hb
    · rw [List.mem_singleton.mp hc'] at hws ⊢
      exact hi.pending_logged ws hws b hb

theorem groupInv_endCommit (hi : GroupInv s) (h : logNext maxOp s (.endCommit p) = .ok s') : GroupInv s' := by
  obtain ⟨hp, rfl⟩ := logNext_endCommit h
  have hc := committing_of_phase hi hp rfl
  have hone : s.procs.countP Phase.isCommitting = 1 := by rw [hi.committers, hc]; rfl
  have hcount := countP_set Phase.isInOp s.procs p .idle .committed hp
  have hcount' := countP_set Phase.isCommitting s.procs p .idle .committed hp
  simp [Phase.isInOp, Phase.isCommitting] at hcount hcount'
  refine ⟨?_, ?_, by simp [endCommit], ?_, hi.pending_logged, hi.commits_whole⟩
  · show s.log.outstanding = _
    rw [hi.outstanding_eq, hcount]
  · show _ = if false then 1 else 0
    simp only [Bool.false_eq_true, if_false]; omega
  · intro ws ep hmem
    rcases mem_procs_set hmem with hmem | heq
    · exact hi.inOp_logged ws ep hmem
    · cases heq

end Preserve

theorem groupInv_next {maxOp : Nat} {s s' : LogSys} (hi : GroupInv s) :
    ∀ e, logNext maxOp s e = .ok s' → GroupInv s'
  | .beginOp _, h => groupInv_beginOp hi h
  | .logWrite _ _, h => groupInv_logWrite hi h
  | .endOp _, h => groupInv_endOp hi h
  | .commit _, h => groupInv_commit hi h
  | .endCommit _, h => groupInv_endCommit hi h

theorem groupInv_reachable {maxOp size nproc : Nat} {s : LogSys} (hs : Reachable (logSys maxOp size nproc) s) :
    GroupInv s :=
  Reachable.induct _ (groupInv_init size nproc) (fun _ e _ hi h => groupInv_next hi e h) hs

/-- A process in an operation is counted in `log.outstanding`, and no commit is running. -/
theorem inOp_counted {s : LogSys} (hi : GroupInv s) {p : Nat} {ws : List Nat} {ep : Nat}
    (hp : s.procs[p]? = some (.inOp ws ep)) : 1 ≤ s.log.outstanding ∧ s.log.committing = false := by
  have hpos : 0 < s.procs.countP Phase.isInOp :=
    List.countP_pos_iff.mpr ⟨_, List.mem_of_getElem? hp, rfl⟩
  refine ⟨by rw [hi.outstanding_eq]; exact hpos, ?_⟩
  cases hc : s.log.committing
  · rfl
  · have := hi.committing_quiet hc; rw [hi.outstanding_eq] at this; omega

theorem logNext_logWrite_ne_outside {maxOp p b : Nat} {s : LogSys} (hi : GroupInv s) :
    logNext maxOp s (.logWrite p b) ≠ .panic "log_write outside of trans" := by
  simp only [logNext]
  split
  · next ws ep hp =>
    have hout := (inOp_counted hi hp).1
    split
    · split
      · simp
      · next m hlog =>
        unfold logWrite at hlog
        split at hlog
        · cases hlog; simp
        · split at hlog
          · omega
          · split at hlog <;> cases hlog
    · simp
  · simp

theorem logNext_endOp_ne_committing {maxOp p : Nat} {s : LogSys} (hi : GroupInv s) :
    logNext maxOp s (.endOp p) ≠ .panic "log.committing" := by
  simp only [logNext]
  split
  · next ws ep hp =>
    have hc := (inOp_counted hi hp).2
    split
    · simp
    · simp
    · next m hend =>
      unfold endOp at hend
      rw [hc] at hend
      simp only [Bool.false_eq_true, if_false] at hend
      split at hend <;> simp at hend
  · simp

/-- Group commit never splits an operation: a commit runs only when no operation is outstanding,
`log.outstanding` counts the operations in progress, neither `log_write` nor `end_op` can panic for
want of a transaction, an operation in progress has seen no commit since its `begin_op` and has all
its blocks in the header, and each commit wrote every block of every operation it carried. -/
theorem group_commit {maxOp size nproc : Nat} {s : LogSys} (hs : Reachable (logSys maxOp size nproc) s) :
    (s.log.committing = true → s.log.outstanding = 0) ∧
    s.log.outstanding = s.procs.countP Phase.isInOp ∧
    (∀ p b, logNext maxOp s (.logWrite p b) ≠ .panic "log_write outside of trans") ∧
    (∀ p, logNext maxOp s (.endOp p) ≠ .panic "log.committing") ∧
    (∀ ws ep, Phase.inOp ws ep ∈ s.procs → ep = s.commits.length ∧ ∀ b ∈ ws, b ∈ s.log.lh) ∧
    (∀ ws ∈ s.pending, ∀ b ∈ ws, b ∈ s.log.lh) ∧
    (∀ c ∈ s.commits, ∀ ws ∈ c.2, ∀ b ∈ ws, b ∈ c.1) := by
  have hi := groupInv_reachable hs
  refine ⟨hi.committing_quiet, hi.outstanding_eq, fun p b => logNext_logWrite_ne_outside hi,
    fun p => logNext_endOp_ne_committing hi, fun ws ep hmem => ?_, hi.pending_logged, hi.commits_whole⟩
  obtain ⟨hws, hep⟩ := hi.inOp_logged ws ep hmem
  exact ⟨hep, hws⟩

/-- Two processes log a block each and end their operations, the second commits both; process 0
then begins the next operation and logs block 7 while process 1 is idle. -/
theorem group_commit_second_epoch :
    ∃ s, Reachable (logSys maxOpBlocks logSize 2) s ∧ s.commits = [([5, 6], [[5], [6]])] ∧
      s.procs = [.inOp [7] 1, .idle] ∧
      (s.log.committing = true → s.log.outstanding = 0) ∧
      s.log.outstanding = s.procs.countP Phase.isInOp ∧
      (∀ p b, logNext maxOpBlocks s (.logWrite p b) ≠ .panic "log_write outside of trans") ∧
      (∀ p, logNext maxOpBlocks s (.endOp p) ≠ .panic "log.committing") ∧
      (∀ ws ep, Phase.inOp ws ep ∈ s.procs → ep = s.commits.length ∧ ∀ b ∈ ws, b ∈ s.log.lh) ∧
      (∀ ws ∈ s.pending, ∀ b ∈ ws, b ∈ s.log.lh) ∧
      (∀ c ∈ s.commits, ∀ ws ∈ c.2, ∀ b ∈ ws, b ∈ c.1) := by
  have hrun : (run (logSys maxOpBlocks logSize 2) (logSys maxOpBlocks logSize 2).init
      [.beginOp 0, .logWrite 0 5, .beginOp 1, .logWrite 1 6, .endOp 0, .endOp 1, .commit 1, .endCommit 1,
        .beginOp 0, .logWrite 0 7]).holds
      (fun s => s.commits == [([5, 6], [[5], [6]])] && s.procs == [.inOp [7] 1, .idle]) = true := by
    decide +kernel
  obtain ⟨s, hs, hp⟩ := Reachable.run_holds _ .init hrun
  simp only [Bool.and_eq_true, beq_iff_eq] at hp
  exact ⟨s, hs, hp.1, hp.2, group_commit hs⟩

/-! ## Log capacity

`begin_op` admits an operation while `lh.n + (outstanding + 1) * MAXOPBLOCKS ≤ LOGSIZE`: the header
plus the slots the admitted operations may still fill never exceed `LOGSIZE` (`budget_le`), so a
`log_write` that appends finds `lh.n < LOGSIZE`. The log `mkfs` lays out has `nlog = LOGSIZE`
blocks, the header included, and `log_write` also panics once `lh.n ≥ log.size - 1`: three
operations of ten blocks each reach it (`logWrite_too_big_reachable`). -/

/-- The slots an operation may still fill. -/
def Phase.unused : Phase → Nat
  | .inOp ws _ => maxOpBlocks - ws.length
  | _ => 0

theorem sum_unused_le : ∀ procs : List Phase,
    (procs.map Phase.unused).sum ≤ procs.countP Phase.isInOp * maxOpBlocks
  | [] => by simp
  | ph :: procs => by
    have ih := sum_unused_le procs
    rw [List.map_cons, List.sum_cons, List.countP_cons]
    cases ph with
    | inOp ws ep =>
      simp only [Phase.unused, Phase.isInOp, if_true]
      rw [Nat.add_mul, Nat.one_mul]
      omega
    | idle => simp only [Phase.unused, Phase.isInOp, Bool.false_eq_true, if_false, Nat.add_zero]; omega
    | committer => simp only [Phase.unused, Phase.isInOp, Bool.false_eq_true, if_false, Nat.add_zero]; omega
    | committed => simp only [Phase.unused, Phase.isInOp, Bool.false_eq_true, if_false, Nat.add_zero]; omega

/-- The header and the slots that admitted operations may still fill stay within `LOGSIZE`. -/
def Budget (s : LogSys) : Prop := s.log.lh.length + (s.procs.map Phase.unused).sum ≤ logSize

section Capacity
variable {size p : Nat} {s s' : LogSys}

theorem budget_next (hi : GroupInv s) (hb : Budget s) :
    ∀ e, logNext maxOpBlocks s e = .ok s' → Budget s'
  | .beginOp p, h => by
    obtain ⟨hp, -, hadm, rfl⟩ := logNext_beginOp h
    have hsum := sum_map_set Phase.unused s.procs p (.inOp [] s.commits.length) .idle hp
    have hres := sum_unused_le s.procs
    rw [← hi.outstanding_eq] at hres
    simp only [Phase.unused, List.length_nil, Nat.sub_zero] at hsum
    unfold Budget
    simp only
    rw [Nat.add_mul, Nat.one_mul] at hadm
    omega
  | .logWrite p b, h => by
    obtain ⟨ws, ep, log, hp, hmax, hlog, rfl⟩ := logNext_logWrite h
    have hsum := sum_map_set Phase.unused s.procs p (.inOp (insertBlock b ws) ep) (.inOp ws ep) hp
    have hws := (hi.inOp_logged ws ep (List.mem_of_getElem? hp)).1
    obtain ⟨-, -, -, hlog'⟩ := logWrite_eq_ok hlog
    simp only [Phase.unused] at hsum
    unfold Budget at hb ⊢
    simp only
    by_cases hbw : b ∈ ws
    · -- logged before by this operation: absorbed, nothing changes
      have hbl : b ∈ s.log.lh := hws b hbw
      have hins : insertBlock b ws = ws := if_pos hbw
      rw [hlog', if_pos hbl]
      rw [hins] at hsum ⊢
      omega
    · -- a new block for this operation takes one of its slots
      have hlen : (insertBlock b ws).length = ws.length + 1 := by simp [insertBlock, hbw]
      have hgrow : log.lh.length ≤ s.log.lh.length + 1 := by
        rw [hlog']; split <;> simp
      rw [hlen] at hsum hmax
      omega
  | .endOp p, h => by
    obtain ⟨ws, ep, log, c, hp, hlog, rfl⟩ := logNext_endOp h
    have hsum := sum_map_set Phase.unused s.procs p (if c then .committer else .idle) (.inOp ws ep) hp
    obtain ⟨-, hcases⟩ := endOp_eq_ok hlog
    unfold Budget at hb ⊢
    rcases hcases with ⟨rfl, -, rfl⟩ | ⟨rfl, -, rfl⟩
    · simp only [Phase.unused, if_true] at hsum
      show s.log.lh.length + ((s.procs.set p (if true then .committer else .idle)).map Phase.unused).sum ≤ logSize
      simp only [if_true]
      omega
    · simp only [Phase.unused, Bool.false_eq_true, if_false] at hsum
      show s.log.lh.length + ((s.procs.set p (if false then .committer else .idle)).map Phase.unused).sum ≤ logSize
      simp only [Bool.false_eq_true, if_false]
      omega
  | .commit p, h => by
    obtain ⟨hp, rfl⟩ := logNext_commit h
    have hsum := sum_map_set Phase.unused s.procs p .committed .committer hp
    simp only [Phase.unused] at hsum
    unfold Budget at hb ⊢
    simp only [commitLog, List.length_nil]
    omega
  | .endCommit p, h => by
    obtain ⟨hp, rfl⟩ := logNext_endCommit h
    have hsum := sum_map_set Phase.unused s.procs p .idle .committed hp
    simp only [Phase.unused] at hsum
    unfold Budget at hb ⊢
    simp only [endCommit]
    omega

theorem budget_reachable {nproc : Nat} (hs : Reachable (logSys maxOpBlocks size nproc) s) : Budget s := by
  have h := Reachable.induct (logSys maxOpBlocks size nproc) (P := fun s => GroupInv s ∧ Budget s)
    ⟨groupInv_init size nproc, by simp [Budget, logSys, Phase.unused, logSize, maxOpBlocks]⟩
    (fun _ e _ hs h => ⟨groupInv_next hs.1 e h, budget_next hs.1 hs.2 e h⟩) hs
  exact h.2

/-- A `log_write` that appends a block finds `lh.n < LOGSIZE`: `begin_op`'s reservation covers it. -/
theorem logWrite_append_lt_logSize {nproc b ep : Nat} {ws : List Nat} (hs : Reachable (logSys maxOpBlocks size nproc) s)
    (hp : s.procs[p]? = some (.inOp ws ep)) (hmax : (insertBlock b ws).length ≤ maxOpBlocks)
    (hb : b ∉ s.log.lh) : s.log.lh.length < logSize := by
  have hi := groupInv_reachable hs
  have hbud := budget_reachable hs
  have hbw : b ∉ ws := fun h => hb ((hi.inOp_logged ws ep (List.mem_of_getElem? hp)).1 b h)
  have hlen : ws.length + 1 ≤ maxOpBlocks := by simpa [insertBlock, hbw] using hmax
  have hmem := sum_map_set Phase.unused s.procs p .idle (.inOp ws ep) hp
  simp only [Phase.unused] at hmem
  unfold Budget at hbud
  omega

end Capacity

/-- Three operations of ten distinct blocks each: all three pass `begin_op` at once, then log their
blocks one after another, the third stopping before its last block. -/
def threeFullOps : List LogEv :=
  [.beginOp 0, .beginOp 1, .beginOp 2] ++ (List.range 10).map (fun i => .logWrite 0 (100 + i)) ++
    (List.range 10).map (fun i => .logWrite 1 (110 + i)) ++ (List.range 9).map (fun i => .logWrite 2 (120 + i))

/-- On the log `mkfs` lays out (`nlog = LOGSIZE`), the third operation's tenth block finds
`lh.n = 29 = log.size - 1` and `log_write` panics. -/
theorem logWrite_too_big_reachable :
    ∃ s p b, Reachable (logSys maxOpBlocks logSize 3) s ∧
      logNext maxOpBlocks s (.logWrite p b) = .panic "too big a transaction" := by
  have hlast : run (logSys maxOpBlocks logSize 3) (logSys maxOpBlocks logSize 3).init
      (threeFullOps ++ [.logWrite 2 129]) = .panic "too big a transaction" := by decide
  cases hrun : run (logSys maxOpBlocks logSize 3) (logSys maxOpBlocks logSize 3).init threeFullOps with
  | ok t =>
    obtain ⟨ht, he⟩ := Reachable.run_last_panic _ Reachable.init hrun hlast
    exact ⟨t, 2, 129, ht, he⟩
  | blocked => exact absurd hrun (by decide)
  | panic m =>
    rw [run_append, hrun] at hlast
    cases hlast
    exact absurd hrun (by decide)

end Xv6
