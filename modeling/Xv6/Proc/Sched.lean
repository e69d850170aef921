import Xv6.Proc.Frame

/-!
# Scheduling and wakeups

* `CpuOk.running_iff` : a slot is RUNNING exactly when it is the `c->proc` of one CPU;
* `proc_states_and_cpus` : in every reachable table, each section changes states only as
  `PState.next` allows, each RUNNING process is on exactly one CPU, and `scheduler` switches only to
  a RUNNABLE process that no CPU runs;
* `wakeup_no_lost` : when a `wakeup(chan)` called with `lk` held returns, no process is left in a
  `sleep(chan, lk)`: none is SLEEPING there, and none is between `sleep`'s release of `lk` and its
  SLEEPING.
-/

namespace Xv6.Procs
open Trans

variable {nproc ncpu : Nat} {s s' : PSys}

theorem CpuOk.running_iff (h : CpuOk nproc ncpu s) {p : Nat} (hp : p < nproc) :
    (s.procs p).state = .running ↔ ∃! c, c < ncpu ∧ s.cpus c = some p := by
  constructor
  · intro hrun
    obtain ⟨c, hc⟩ := h.on_cpu p hp hrun
    refine ⟨c, ⟨(h.running c p hc).1, hc⟩, ?_⟩
    rintro c' ⟨-, hc'⟩
    exact h.unique c' c p hc' hc
  · rintro ⟨c, ⟨-, hc⟩, -⟩
    exact (h.running c p hc).2.2

/-- `scheduler` switches to a RUNNABLE process, which no CPU runs. -/
theorem CpuOk.scheduler_runnable (h : CpuOk nproc ncpu s) {c p : Nat}
    (hs : procNext nproc ncpu s (.scheduler c p) = .ok s') :
    (s.procs p).state = .runnable ∧ ∀ c', s.cpus c' ≠ some p := by
  obtain ⟨-, -, -, hrunnable, -⟩ := scheduler_eq_ok hs
  refine ⟨hrunnable, fun c' hc' => ?_⟩
  have hrun := (h.running c' p hc').2.2
  rw [hrunnable] at hrun
  cases hrun

theorem proc_states_and_cpus (hs : Reachable (procSys nproc ncpu) s) :
    (∀ e s', procNext nproc ncpu s e = .ok s' → ∀ k,
      (s'.procs k).state = (s.procs k).state ∨ (s.procs k).state.next (s'.procs k).state = true) ∧
    (∀ p < nproc, (s.procs p).state = .running ↔ ∃! c, c < ncpu ∧ s.cpus c = some p) ∧
    (∀ c p s', procNext nproc ncpu s (.scheduler c p) = .ok s' →
      (s.procs p).state = .runnable ∧ ∀ c', s.cpus c' ≠ some p) := by
  have hi := procInv_reachable hs
  exact ⟨fun e s' h => procNext_state hi h, fun p hp => hi.cpu.running_iff hp,
    fun c p s' h => hi.cpu.scheduler_runnable h⟩

/-- Slot 0, `initproc`, switched to on CPU 0 of a table of two slots and two CPUs. -/
theorem init_runs_on_one_cpu :
    ∃ s, Reachable (procSys 2 2) s ∧ (s.procs 0).state = .running ∧ ∃! c, c < 2 ∧ s.cpus c = some 0 := by
  have hrun : (run (procSys 2 2) (procSys 2 2).init [.scheduler 0 0]).holds
      (fun s => (s.procs 0).state == .running) = true := by
    decide +kernel
  obtain ⟨s, hs, hp⟩ := Reachable.run_holds _ .init hrun
  have hstate : (s.procs 0).state = .running := by simpa using hp
  exact ⟨s, hs, hstate, ((proc_states_and_cpus hs).2.1 0 (by decide)).mp hstate⟩

/-! ## No lost wakeup -/

theorem Pc.wakeup_ne {ch : Chan} {j : Nat} {after : Pc} : Pc.wakeup ch j after ≠ after := by
  intro h
  have hsize := congrArg sizeOf h
  simp only [Pc.wakeup.sizeOf_spec] at hsize
  omega

/-- A thread that holds a lock is in no `sleep`. -/
theorem Proc.asleep_of_holds {q : Proc} {ch : Chan} {lk : Lock} (h : q.pc.holds lk = true) :
    q.asleep ch lk = false := by
  unfold Proc.asleep
  split
  · next hpc =>
    rw [hpc] at h
    simp [Pc.holds] at h
  · rfl

theorem wakeup_no_lost (hs : Reachable (procSys nproc ncpu) s) {c b j : Nat} {ch : Chan} {lk : Lock}
    {after : Pc} (hc : s.cpus c = some b) (hpc : (s.procs b).pc = .wakeup ch j after)
    (hlk : after.holds lk = true) (h : procNext nproc ncpu s (.wakeStep c) = .ok s')
    (hdone : (s'.procs b).pc = after) : ∀ a < nproc, (s'.procs a).asleep ch lk = false := by
  have hi := procInv_reachable hs
  obtain ⟨hbn, -⟩ := hi.actor hc
  obtain ⟨b', hc', h⟩ := PSys.onCpu_eq_ok h
  rw [hc, Option.some.injEq] at hc'
  subst hc'
  obtain ⟨ch', j', after', hpc', hcase⟩ := wakeStep_eq_ok h
  rw [hpc, Pc.wakeup.injEq] at hpc'
  obtain ⟨rfl, rfl, rfl⟩ := hpc'
  rcases hcase with ⟨-, -, rfl⟩ | ⟨-, -, -, rfl⟩ | ⟨hj, rfl⟩
  · -- a turn that does not end the loop leaves the caller in `wakeup`
    simp only [PSys.upd_self] at hdone
    exact absurd hdone Pc.wakeup_ne
  · simp only [PSys.upd_self] at hdone
    exact absurd hdone Pc.wakeup_ne
  · -- the loop has tested every other slot under its lock
    intro a ha
    by_cases hab : a = b
    · subst hab
      apply Proc.asleep_of_holds
      rw [hdone]
      exact hlk
    · rw [PSys.upd_ne _ _ hab]
      exact hi.wake_scan b ch j after lk hbn hpc hlk a (Nat.lt_of_lt_of_le ha hj) hab

/-- `initproc` forks slot 1, takes the lock of object 5 and sleeps on it; slot 1 then takes the lock
and calls `wakeup`, whose loop has passed both slots. -/
def wakeupTrace : List PEv :=
  [.scheduler 0 0, .fork 0 1 true, .forkParent 0, .forkRun 0, .acquire 0 5, .sleep 0 (.obj 5), .sleepSched 0,
    .scheduler 0 1, .acquire 0 5, .wakeup 0 (.obj 5), .wakeStep 0, .wakeStep 0]

/-- `initproc` is asleep on the object after the first seven sections of `wakeupTrace`; the `wakeup`
returns, and no slot is left asleep on the object. -/
theorem wakeupTrace_wakes :
    (∃ s, Reachable (procSys 2 1) s ∧ (s.procs 0).asleep (.obj 5) (.obj 5) = true) ∧
    ∃ s s', Reachable (procSys 2 1) s ∧ procNext 2 1 s (.wakeStep 0) = .ok s' ∧
      ∀ a < 2, (s'.procs a).asleep (.obj 5) (.obj 5) = false := by
  have hslept : (run (procSys 2 1) (procSys 2 1).init (wakeupTrace.take 7)).holds
      (fun s => (s.procs 0).asleep (.obj 5) (.obj 5)) = true := by
    decide +kernel
  refine ⟨Reachable.run_holds _ .init hslept, ?_⟩
  have hrun : (run (procSys 2 1) (procSys 2 1).init wakeupTrace).holds (fun s =>
      s.cpus 0 == some 1 && (s.procs 1).pc == .wakeup (.obj 5) 2 (.holding (.obj 5)) &&
        (procNext 2 1 s (.wakeStep 0)).holds fun s' => (s'.procs 1).pc == .holding (.obj 5)) = true := by
    decide +kernel
  obtain ⟨s, hs, hp⟩ := Reachable.run_holds _ .init hrun
  simp only [Bool.and_eq_true, beq_iff_eq] at hp
  obtain ⟨⟨hc, hpc⟩, hnext⟩ := hp
  cases hstep : procNext 2 1 s (.wakeStep 0) with
  | ok s' =>
    rw [hstep] at hnext
    have hdone : (s'.procs 1).pc = .holding (.obj 5) := by simpa [Outcome.holds] using hnext
    exact ⟨s, s', hs, hstep, wakeup_no_lost hs hc hpc (by decide) hstep hdone⟩
  | blocked =>
    rw [hstep] at hnext
    cases hnext
  | panic m =>
    rw [hstep] at hnext
    cases hnext

end Xv6.Procs
