import Xv6.Proc.Tree

/-!
# Process ids (`allocpid`)

`allocpid` hands out `nextpid` and increments it, an `int`, with no test. A `fork` whose copy
fails has taken its pid all the same, so `initproc` alone moves `nextpid` as far as it likes: after
`2^31 - 2` failed forks the next child gets pid `-2^31`, and after `2^32 - 1` the pid `1` of
`initproc` itself. (The C increment past `INT_MAX` is undefined; the model takes the machine's
wrapping `addw`.)

* `ForkReady` : `initproc` runs on CPU 0 in user space, and slot 1 is UNUSED;
* `fork_fails_ready` : a failed `fork` from there keeps `ForkReady` and moves `nextpid` on by one;
* `nextpid_reachable` : every value `2 + k` of `nextpid`, modulo `2^32`, is reached;
* `pid_wraps` : a USED slot with a negative pid, and two live slots with one pid, are reachable;
* `fork_succeeds_with_minus_one` : a `fork` that succeeds can return `-1`, the pid `nextpid`
  reaches after `2^32 - 3` failed forks.
-/

namespace Xv6.Procs
open Trans

/-- `initproc` runs on CPU 0, in user space, with pid 1, and slot 1 is UNUSED. -/
structure ForkReady (s : PSys) : Prop where
  cpu : s.cpus 0 = some 0
  pc : (s.procs 0).pc = .user
  state : (s.procs 0).state = .running
  pid : (s.procs 0).pid = 1
  slot : s.procs 1 = Proc.unused

variable {s : PSys}

/-- `fork` by `initproc` into slot 1, from a table where it can. -/
theorem fork_ready (h : ForkReady s) (ok : Bool) :
    procNext nProc nCpu s (.fork 0 1 ok) =
      let s1 := { s with nextpid := s.nextpid + 1 }.upd 1 fun r => { r with state := .used, pid := s.nextpid }
      if ok then .ok ((s1.upd 1 fun r => { r with ret := 0 }).upd 0 fun r => { r with pc := .forked 1 s.nextpid })
      else .ok ((s1.upd 1 freeproc).upd 0 fun r => { r with ret := -1 }) := by
  have hg : (s.procs 0).pc = .user ∧ 1 < nProc ∧ (s.procs 1).state = .unused :=
    ⟨h.pc, by decide, by rw [h.slot]; rfl⟩
  simp only [procNext, PSys.onCpu, h.cpu, fork, if_pos hg]

/-- A failed `fork` takes a pid and leaves slot 1 UNUSED again. -/
theorem fork_fails_ready (h : ForkReady s) :
    ∃ s', procNext nProc nCpu s (.fork 0 1 false) = .ok s' ∧ ForkReady s' ∧ s'.nextpid = s.nextpid + 1 := by
  refine ⟨_, fork_ready h false, ⟨?_, ?_, ?_, ?_, ?_⟩, rfl⟩
  · simpa using h.cpu
  · simpa using h.pc
  · simpa using h.state
  · simpa using h.pid
  · -- `freeproc` undoes `allocproc` on a slot of the zeroed table
    simp only [PSys.upd_procs, if_neg (show (1 : Nat) ≠ 0 by decide), h.slot]
    rfl

/-- A `fork` that succeeds gives slot 1 the pid `nextpid`, beside `initproc`. -/
theorem fork_ok_ready (h : ForkReady s) :
    ∃ s', procNext nProc nCpu s (.fork 0 1 true) = .ok s' ∧ (s'.procs 0).state = .running ∧
      (s'.procs 0).pid = 1 ∧ (s'.procs 1).state = .used ∧ (s'.procs 1).pid = s.nextpid := by
  refine ⟨_, fork_ready h true, ?_, ?_, ?_, ?_⟩
  · simpa using h.state
  · simpa using h.pid
  · simp
  · simp

/-- `scheduler` on CPU 0 runs `initproc` as `userinit` left it. -/
theorem forkReady_boot :
    ∃ s, procNext nProc nCpu procInit (.scheduler 0 0) = .ok s ∧ ForkReady s ∧ s.nextpid = 2 := by
  refine ⟨_, rfl, ⟨rfl, rfl, rfl, rfl, ?_⟩, rfl⟩
  simp [PSys.setCpu, PSys.upd, procInit, initproc]

/-- `nextpid` takes every value `2 + k`, modulo `2^32`, in a table where `initproc` can go on
forking. -/
theorem nextpid_reachable : ∀ k : Nat,
    ∃ s, Reachable xvProc s ∧ ForkReady s ∧ s.nextpid = Int32.ofNat (2 + k)
  | 0 => by
    obtain ⟨s, hstep, hready, hpid⟩ := forkReady_boot
    exact ⟨s, .step (.scheduler 0 0) .init hstep, hready, hpid⟩
  | k + 1 => by
    obtain ⟨s, hs, hready, hpid⟩ := nextpid_reachable k
    obtain ⟨s', hstep, hready', hpid'⟩ := fork_fails_ready hready
    refine ⟨s', .step (.fork 0 1 false) hs hstep, hready', ?_⟩
    rw [hpid', hpid, ← Nat.add_assoc, Int32.ofNat_add (2 + k) 1]
    rfl

/-- The pids of live slots are neither all positive nor all distinct: after `2^31 - 2` failed
forks a child gets pid `-2^31`, and after `2^32 - 1` one gets `initproc`'s pid `1`. -/
theorem pid_wraps :
    (∃ s, Reachable xvProc s ∧ (s.procs 1).state = .used ∧ (s.procs 1).pid = -2147483648) ∧
    (∃ s, Reachable xvProc s ∧ (s.procs 0).state = .running ∧ (s.procs 1).state = .used ∧
      (s.procs 0).pid = (s.procs 1).pid) := by
  constructor
  · obtain ⟨s, hs, hready, hpid⟩ := nextpid_reachable (2 ^ 31 - 2)
    obtain ⟨s', hstep, -, -, hused, hpid'⟩ := fork_ok_ready hready
    refine ⟨s', .step (.fork 0 1 true) hs hstep, hused, ?_⟩
    rw [hpid', hpid]
    decide
  · obtain ⟨s, hs, hready, hpid⟩ := nextpid_reachable (2 ^ 32 - 1)
    obtain ⟨s', hstep, hrun, hinit, hused, hpid'⟩ := fork_ok_ready hready
    refine ⟨s', .step (.fork 0 1 true) hs hstep, hrun, hused, ?_⟩
    rw [hinit, hpid', hpid]
    decide

/-- `nextpid_reachable`, where moreover every slot but `initproc`'s is UNUSED. -/
theorem nextpid_reachable_alone : ∀ k : Nat,
    ∃ s, Reachable xvProc s ∧ ForkReady s ∧ (∀ j, j ≠ 0 → s.procs j = Proc.unused) ∧
      s.nextpid = Int32.ofNat (2 + k)
  | 0 => by
    obtain ⟨s, hstep, hready, hpid⟩ := forkReady_boot
    refine ⟨s, .step (.scheduler 0 0) .init hstep, hready, ?_, hpid⟩
    obtain rfl := Outcome.ok.inj (hstep.symm.trans rfl)
    intro j hj
    simp [PSys.setCpu, PSys.upd, procInit, initproc, hj]
  | k + 1 => by
    obtain ⟨s, hs, hready, halone, hpid⟩ := nextpid_reachable_alone k
    obtain ⟨s', hstep, hready', hpid'⟩ := fork_fails_ready hready
    have hs' := hstep.symm.trans (fork_ready hready false)
    simp only [Bool.false_eq_true, if_false] at hs'
    obtain rfl := Outcome.ok.inj hs'
    refine ⟨_, .step (.fork 0 1 false) hs hstep, hready', ?_, ?_⟩
    · intro j hj
      by_cases hj1 : j = 1
      · subst hj1
        simp only [PSys.upd_procs, if_neg hj, if_true, halone 1 (by decide)]
        rfl
      · simp [hj, hj1, halone j hj]
    · rw [hpid', hpid, ← Nat.add_assoc, Int32.ofNat_add (2 + k) 1]
      rfl

/-- After `2^32 - 3` failed forks `nextpid` is `-1`: the next `fork` of `initproc` succeeds, leaves
its child RUNNABLE in slot 1 with `initproc` as parent, and returns `-1`, the value of a failed
`fork`. -/
theorem fork_succeeds_with_minus_one :
    ∃ s, Reachable xvProc s ∧ (s.procs 0).pc = .user ∧ (s.procs 0).ret = -1 ∧
      (s.procs 1).state = .runnable ∧ (s.procs 1).parent = some 0 ∧ (s.procs 1).pid = -1 := by
  obtain ⟨s, hs, hready, halone, hpid⟩ := nextpid_reachable_alone (2 ^ 32 - 3)
  have hneg : s.nextpid = -1 := by rw [hpid]; decide
  have h1 := fork_ready hready true
  simp only [if_true] at h1
  obtain ⟨s1, hs1⟩ : ∃ s1, s1 = ((({ s with nextpid := s.nextpid + 1 }.upd 1 fun r =>
      { r with state := .used, pid := s.nextpid }).upd 1 fun r => { r with ret := 0 }).upd 0
        fun r => { r with pc := .forked 1 s.nextpid }) := ⟨_, rfl⟩
  rw [← hs1] at h1
  -- `np->parent = p` under `wait_lock`, which no slot holds
  have hfree : s1.free nProc .wait = true := by
    simp only [PSys.free, List.all_eq_true, List.mem_range]
    intro j _
    by_cases h0 : j = 0
    · subst h0
      simp [hs1, Pc.holds]
    · have hj : (s1.procs j).pc = .user := by
        by_cases h1 : j = 1
        · subst h1
          simp [hs1, halone 1 (by decide), Proc.unused]
        · simp [hs1, h0, h1, halone j h0, Proc.unused]
      simp [hj, Pc.holds]
  have h2 : procNext nProc nCpu s1 (.forkParent 0) = .ok ((s1.upd 1 fun r =>
      { r with parent := some 0 }).upd 0 fun r => { r with pc := .parented 1 s.nextpid }) := by
    rw [hs1] at hfree ⊢
    simp [procNext, PSys.onCpu, hready.cpu, forkParent, hfree]
  -- `np->state = RUNNABLE`, and `fork` returns the pid
  have h3 : procNext nProc nCpu ((s1.upd 1 fun r => { r with parent := some 0 }).upd 0
      fun r => { r with pc := .parented 1 s.nextpid }) (.forkRun 0) =
      .ok ((((s1.upd 1 fun r => { r with parent := some 0 }).upd 0
        fun r => { r with pc := .parented 1 s.nextpid }).upd 1 fun r => { r with state := .runnable }).upd 0
          fun r => { r with pc := .user, ret := s.nextpid.toInt }) := by
    rw [hs1]
    simp [procNext, PSys.onCpu, hready.cpu, forkRun, Proc.locked, halone 1 (by decide), Proc.unused]
  refine ⟨_, .step (.forkRun 0) (.step (.forkParent 0) (.step (.fork 0 1 true) hs h1) h2) h3, ?_⟩
  rw [hs1, hneg]
  simp [halone 1 (by decide), Proc.unused]

end Xv6.Procs
