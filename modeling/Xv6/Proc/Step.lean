import Xv6.Proc.Table

/-!
# What each section of `proc.c` does

One lemma per section of `procNext`: when the section moves, its guards held and the new table is
the one it computes. Later proofs take a step apart with these and never unfold a section.
-/

namespace Xv6.Procs
open Trans

variable {nproc ncpu : Nat} {s s' : PSys} {c p : Nat} {q : Proc}

theorem PSys.onCpu_eq_ok {k : Nat → Proc → Outcome PSys} (h : s.onCpu c k = .ok s') :
    ∃ p, s.cpus c = some p ∧ k p (s.procs p) = .ok s' := by
  unfold PSys.onCpu at h
  split at h
  · exact ⟨_, ‹_›, h⟩
  · cases h

theorem scheduler_eq_ok (h : scheduler nproc ncpu s c p = .ok s') :
    c < ncpu ∧ p < nproc ∧ s.cpus c = none ∧ (s.procs p).state = .runnable ∧
      s' = (s.upd p Proc.resume).setCpu c (some p) := by
  unfold scheduler at h
  split at h
  · next hg =>
    cases h
    exact ⟨hg.1, hg.2.1, hg.2.2.1, hg.2.2.2, rfl⟩
  · cases h

theorem yield_eq_ok (h : yield s c p q = .ok s') :
    q.pc.preemptible = true ∧ s' = (s.upd p fun r => { r with state := .runnable }).setCpu c none := by
  unfold yield at h
  split at h
  · cases h
    exact ⟨‹_›, rfl⟩
  · cases h

theorem acquire_eq_ok {a : Nat} (h : acquire nproc s p q a = .ok s') :
    q.pc = .user ∧ s.free nproc (.obj a) = true ∧
      s' = s.upd p fun r => { r with pc := .holding (.obj a) } := by
  unfold acquire at h
  split at h
  · next hg =>
    cases h
    exact ⟨hg.1, hg.2, rfl⟩
  · cases h

theorem relock_eq_ok (h : relock nproc s p q = .ok s') :
    ∃ lk after, q.pc = .relock lk after ∧ s.free nproc lk = true ∧
      s' = s.upd p fun r => { r with pc := after } := by
  unfold relock at h
  split at h
  · split at h
    · cases h
      exact ⟨_, _, ‹_›, ‹_›, rfl⟩
    · cases h
  · cases h

theorem release_eq_ok (h : release s p q = .ok s') :
    ∃ lk, q.pc = .holding lk ∧ s' = s.upd p fun r => { r with pc := .user } := by
  unfold release at h
  split at h
  · cases h
    exact ⟨_, ‹_›, rfl⟩
  · cases h

theorem sleep_eq_ok {ch : Chan} (h : sleep s p q ch = .ok s') :
    ∃ lk, q.pc = .holding lk ∧ s' = s.upd p fun r => { r with pc := .sleeping ch lk (.holding lk) } := by
  unfold sleep at h
  split at h
  · cases h
    exact ⟨_, ‹_›, rfl⟩
  · cases h

theorem sleepSched_eq_ok (h : sleepSched s c p q = .ok s') :
    ∃ ch lk after, q.pc = .sleeping ch lk after ∧ q.state = .running ∧
      s' = (s.upd p fun r => { r with chan := some ch, state := .sleeping }).setCpu c none := by
  unfold sleepSched at h
  split at h
  · split at h
    · cases h
      exact ⟨_, _, _, ‹_›, ‹_›, rfl⟩
    · cases h
  · cases h

theorem wakeup_eq_ok {ch : Chan} (h : wakeup s p q ch = .ok s') :
    ∃ lk, q.pc = .holding lk ∧ s' = s.upd p fun r => { r with pc := .wakeup ch 0 (.holding lk) } := by
  unfold wakeup at h
  split at h
  · cases h
    exact ⟨_, ‹_›, rfl⟩
  · cases h

/-- A turn of `wakeup`'s loop skips the caller, wakes another slot that is not between `sleep`'s
sections, or ends the loop. -/
theorem wakeStep_eq_ok (h : wakeStep nproc s p q = .ok s') :
    ∃ ch j after, q.pc = .wakeup ch j after ∧
      ((j < nproc ∧ j = p ∧ s' = s.upd p fun r => { r with pc := .wakeup ch (j + 1) after }) ∨
       (j < nproc ∧ j ≠ p ∧ (s.procs j).locked = false ∧
         s' = (s.upd j (Proc.wake ch)).upd p fun r => { r with pc := .wakeup ch (j + 1) after }) ∨
       (nproc ≤ j ∧ s' = s.upd p fun r => { r with pc := after })) := by
  unfold wakeStep at h
  split at h
  · next ch j after hpc =>
    refine ⟨ch, j, after, hpc, ?_⟩
    split at h
    · split at h
      · cases h
        exact .inl ⟨‹_›, ‹_›, rfl⟩
      · split at h
        · cases h
        · cases h
          exact .inr (.inl ⟨‹_›, ‹_›, Bool.eq_false_iff.mpr ‹_›, rfl⟩)
    · cases h
      exact .inr (.inr ⟨by omega, rfl⟩)
  · cases h

/-- The state `kill` leaves its target in. -/
def killProc (r : Proc) : Proc :=
  { r with killed := true, state := if r.state = .sleeping then .runnable else r.state }

theorem kill_eq_ok {pid : Int32} (h : kill nproc s p q pid = .ok s') :
    q.pc = .user ∧
      ((∃ j, j < nproc ∧ (s.procs j).locked = false ∧ s' = (s.upd j killProc).upd p fun r => { r with ret := 0 }) ∨
        s' = s.upd p fun r => { r with ret := -1 }) := by
  unfold kill at h
  split at h
  · refine ⟨‹_›, ?_⟩
    split at h
    · next j hj =>
      split at h
      · cases h
      · cases h
        have hmem := List.mem_of_find?_eq_some hj
        exact .inl ⟨j, List.mem_range.mp hmem, Bool.eq_false_iff.mpr ‹_›, rfl⟩
    · cases h
      exact .inr rfl
  · cases h

/-- `fork`'s first section: the new slot was UNUSED, and is USED with the next pid, or reclaimed
by `freeproc` after a failed allocation. -/
theorem fork_eq_ok {np : Nat} {ok : Bool} (h : fork nproc s p q np ok = .ok s') :
    q.pc = .user ∧ np < nproc ∧ (s.procs np).state = .unused ∧
      ((ok = true ∧ s' = (({ s with nextpid := s.nextpid + 1 }.upd np
          fun r => { r with state := .used, pid := s.nextpid }).upd np fun r => { r with ret := 0 }).upd p
            fun r => { r with pc := .forked np s.nextpid }) ∨
       (ok = false ∧ s' = (({ s with nextpid := s.nextpid + 1 }.upd np
          fun r => { r with state := .used, pid := s.nextpid }).upd np freeproc).upd p
            fun r => { r with ret := -1 })) := by
  unfold fork at h
  split at h
  · next hg =>
    refine ⟨hg.1, hg.2.1, hg.2.2, ?_⟩
    cases ok
    · cases h
      exact .inr ⟨rfl, rfl⟩
    · cases h
      exact .inl ⟨rfl, rfl⟩
  · cases h

theorem forkFull_eq_ok (h : forkFull nproc s p q = .ok s') :
    q.pc = .user ∧ s' = s.upd p fun r => { r with ret := -1 } := by
  unfold forkFull at h
  split at h
  · next hg =>
    cases h
    exact ⟨hg.1, rfl⟩
  · cases h

theorem forkParent_eq_ok (h : forkParent nproc s p q = .ok s') :
    ∃ np pid, q.pc = .forked np pid ∧ s.free nproc .wait = true ∧
      s' = (s.upd np fun r => { r with parent := some p }).upd p fun r => { r with pc := .parented np pid } := by
  unfold forkParent at h
  split at h
  · split at h
    · cases h
      exact ⟨_, _, ‹_›, ‹_›, rfl⟩
    · cases h
  · cases h

theorem forkRun_eq_ok (h : forkRun s p q = .ok s') :
    ∃ np pid, q.pc = .parented np pid ∧ (s.procs np).locked = false ∧
      s' = (s.upd np fun r => { r with state := .runnable }).upd p fun r => { r with pc := .user, ret := pid.toInt } := by
  unfold forkRun at h
  split at h
  · split at h
    · cases h
    · cases h
      exact ⟨_, _, ‹_›, Bool.eq_false_iff.mpr ‹_›, rfl⟩
  · cases h

theorem exit_eq_ok {status : Int} (h : exit nproc s p q status = .ok s') :
    q.pc = .user ∧ p ≠ initproc ∧ s.free nproc .wait = true ∧
      s' = s.upd p fun r => { r with pc := .reparent 0 status } := by
  unfold exit at h
  split at h
  · split at h
    · cases h
    · split at h
      · cases h
        exact ⟨‹_›, ‹_›, ‹_›, rfl⟩
      · cases h
  · cases h

/-- A turn of `reparent`'s loop hands a child to `initproc` and goes to wake it, or passes a slot
that is no child; after the loop, `exit` goes to wake its parent. -/
theorem reparent_eq_ok (h : reparent nproc s p q = .ok s') :
    ∃ j status, q.pc = .reparent j status ∧
      ((j < nproc ∧ (s.procs j).parent = some p ∧
          s' = (s.upd j fun r => { r with parent := some initproc }).upd p
            fun r => { r with pc := .wakeup (.proc initproc) 0 (.reparent (j + 1) status) }) ∨
       (j < nproc ∧ (s.procs j).parent ≠ some p ∧ s' = s.upd p fun r => { r with pc := .reparent (j + 1) status }) ∨
       (nproc ≤ j ∧ ∃ pp, q.parent = some pp ∧
          s' = s.upd p fun r => { r with pc := .wakeup (.proc pp) 0 (.exitSched status) }) ∨
       (nproc ≤ j ∧ q.parent = none ∧ s' = s.upd p fun r => { r with pc := .exitSched status })) := by
  unfold reparent at h
  split at h
  · next j status hpc =>
    refine ⟨j, status, hpc, ?_⟩
    split at h
    · split at h
      · cases h
        exact .inl ⟨‹_›, ‹_›, rfl⟩
      · cases h
        exact .inr (.inl ⟨‹_›, ‹_›, rfl⟩)
    · split at h
      · cases h
        exact .inr (.inr (.inl ⟨by omega, _, ‹_›, rfl⟩))
      · cases h
        exact .inr (.inr (.inr ⟨by omega, ‹_›, rfl⟩))
  · cases h

theorem exitSched_eq_ok (h : exitSched s c p q = .ok s') :
    ∃ status, q.pc = .exitSched status ∧
      s' = (s.upd p fun r => { r with xstate := status, state := .zombie, pc := .user }).setCpu c none := by
  unfold exitSched at h
  split at h
  · cases h
    exact ⟨_, ‹_›, rfl⟩
  · cases h

theorem wait_eq_ok (h : wait nproc s p q = .ok s') :
    q.pc = .user ∧ s.free nproc .wait = true ∧ s' = s.upd p fun r => { r with pc := .waiting 0 false } := by
  unfold wait at h
  split at h
  · next hg =>
    cases h
    exact ⟨hg.1, hg.2, rfl⟩
  · cases h

/-- A turn of `wait`'s scan: a ZOMBIE child reclaimed, or its status not copied out; a live child
or another slot passed; at the end, `-1` or `sleep`. -/
theorem waitStep_eq_ok {copied : Bool} (h : waitStep nproc s p q copied = .ok s') :
    ∃ j hk, q.pc = .waiting j hk ∧
      ((j < nproc ∧ (s.procs j).parent = some p ∧ (s.procs j).state = .zombie ∧ copied = true ∧
          s' = (s.upd j freeproc).upd p fun r => { r with pc := .user, ret := (s.procs j).pid.toInt }) ∨
       (j < nproc ∧ (s.procs j).parent = some p ∧ (s.procs j).state = .zombie ∧ copied = false ∧
          s' = s.upd p fun r => { r with pc := .user, ret := -1 }) ∨
       (j < nproc ∧ (s.procs j).parent = some p ∧ (s.procs j).state ≠ .zombie ∧
          s' = s.upd p fun r => { r with pc := .waiting (j + 1) true }) ∨
       (j < nproc ∧ (s.procs j).parent ≠ some p ∧ s' = s.upd p fun r => { r with pc := .waiting (j + 1) hk }) ∨
       (nproc ≤ j ∧ (hk = false ∨ q.killed = true) ∧ s' = s.upd p fun r => { r with pc := .user, ret := -1 }) ∨
       (nproc ≤ j ∧ hk = true ∧ q.killed = false ∧
          s' = s.upd p fun r => { r with pc := .sleeping (.proc p) .wait (.waiting 0 false) })) := by
  unfold waitStep at h
  split at h
  · next j hk hpc =>
    refine ⟨j, hk, hpc, ?_⟩
    split at h
    · split at h
      · split at h
        · cases h
        · split at h
          · cases copied
            · cases h
              exact .inr (.inl ⟨‹_›, ‹_›, ‹_›, rfl, rfl⟩)
            · cases h
              exact .inl ⟨‹_›, ‹_›, ‹_›, rfl, rfl⟩
          · cases h
            exact .inr (.inr (.inl ⟨‹_›, ‹_›, ‹_›, rfl⟩))
      · cases h
        exact .inr (.inr (.inr (.inl ⟨‹_›, ‹_›, rfl⟩)))
    · split at h
      · next hend =>
        cases h
        refine .inr (.inr (.inr (.inr (.inl ⟨by omega, ?_, rfl⟩))))
        simpa using hend
      · next hend =>
        cases h
        simp only [Bool.or_eq_true, Bool.not_eq_eq_eq_not, Bool.not_true, not_or] at hend
        exact .inr (.inr (.inr (.inr (.inr ⟨by omega, by simpa using hend.1, by simpa using hend.2, rfl⟩))))
  · cases h

end Xv6.Procs
