import Xv6.Proc.Sections

/-!
# What one section does to the table

Only a few of `proc.c`'s sections change a slot's state, a parent pointer or where a `fork` is;
`procNext_effect` lists how, once, and the results on the state machine and the process tree read
that list:

* `PState.next` : the state changes UNUSED→USED, USED→RUNNABLE, USED→UNUSED, RUNNABLE→RUNNING,
  RUNNING→RUNNABLE, RUNNING→SLEEPING, SLEEPING→RUNNABLE, RUNNING→ZOMBIE and ZOMBIE→UNUSED;
* `Effect` : a section keeps every state and parent; or changes one slot's state; or is `allocproc`
  in `fork`, `np->parent = p`, `pp->parent = initproc` in `reparent`, or `freeproc` in `wait`;
* `procNext_effect` : every section of a table that keeps `ProcInv` has one of these effects;
* `procNext_state` : so every slot keeps its state or makes one of the changes of `PState.next`.
-/

namespace Xv6.Procs
open Trans

/-- The state changes of `proc.c`: `allocproc`, `fork`'s RUNNABLE, `freeproc` of a new slot, the
switch to and from a process, `sleep`, `wakeup` and `kill`, `exit`, and `freeproc` in `wait`. -/
def PState.next : PState → PState → Bool
  | .unused, .used | .used, .runnable | .used, .unused | .runnable, .running | .running, .runnable
  | .running, .sleeping | .sleeping, .runnable | .running, .zombie | .zombie, .unused => true
  | _, _ => false

example : PState.sleeping.next .running = false := by simp [PState.next]

/-- No thread comes to be in `fork` between `allocproc` and `np->parent = p`. -/
def ForksKept (s s' : PSys) : Prop :=
  ∀ k np pid, (s'.procs k).pc = .forked np pid → (s.procs k).pc = .forked np pid

/-- A change of a slot that keeps its state and parent and starts no `fork`. -/
def Keeps (f : Proc → Proc) (r : Proc) : Prop :=
  (f r).state = r.state ∧ (f r).parent = r.parent ∧ ∀ np pid, (f r).pc = .forked np pid → r.pc = .forked np pid

/-- `s'` has the states and parents of `s`, and no `fork` that `s` has not. -/
structure Quiet (s s' : PSys) : Prop where
  state : ∀ k, (s'.procs k).state = (s.procs k).state
  parent : ∀ k, (s'.procs k).parent = (s.procs k).parent
  forks : ForksKept s s'

variable {nproc ncpu : Nat} {s s' : PSys} {e : PEv} {c p : Nat}

theorem ForksKept.trans {s'' : PSys} (h1 : ForksKept s s') (h2 : ForksKept s' s'') : ForksKept s s'' :=
  fun k np pid h => h1 k np pid (h2 k np pid h)

theorem ForksKept.upd {j : Nat} {f : Proc → Proc}
    (hf : ∀ np pid, (f (s.procs j)).pc = .forked np pid → (s.procs j).pc = .forked np pid) :
    ForksKept s (s.upd j f) := by
  intro k np pid h
  by_cases hk : k = j
  · subst hk
    rw [PSys.upd_self] at h
    exact hf np pid h
  · rwa [PSys.upd_ne _ _ hk] at h

theorem Quiet.refl (h : s'.procs = s.procs) : Quiet s s' :=
  ⟨fun k => by rw [h], fun k => by rw [h], fun k np pid hk => by rwa [h] at hk⟩

theorem Quiet.trans {s'' : PSys} (h1 : Quiet s s') (h2 : Quiet s' s'') : Quiet s s'' :=
  ⟨fun k => by rw [h2.state, h1.state], fun k => by rw [h2.parent, h1.parent],
    fun k np pid h => h1.forks k np pid (h2.forks k np pid h)⟩

theorem Quiet.upd {j : Nat} {f : Proc → Proc} (hf : Keeps f (s.procs j)) : Quiet s (s.upd j f) := by
  obtain ⟨hst, hpar, hpc⟩ := hf
  refine ⟨fun k => ?_, fun k => ?_, ForksKept.upd hpc⟩ <;> by_cases hk : k = j
  · subst hk
    rw [PSys.upd_self, hst]
  · rw [PSys.upd_ne _ _ hk]
  · subst hk
    rw [PSys.upd_self, hpar]
  · rw [PSys.upd_ne _ _ hk]

/-- A section that moves only its caller's thread, to a place outside `fork`. -/
theorem Quiet.of_moves {x : Pc} (hm : MovesOnly s s' p x) (hx : ∀ np pid, x ≠ .forked np pid) :
    Quiet s s' :=
  ⟨hm.state_eq, hm.parent_eq, fun k np pid h => by
    by_cases hk : k = p
    · subst hk
      rw [hm.pc] at h
      exact absurd h (hx np pid)
    · rwa [hm.other k hk] at h⟩

@[simp] theorem Proc.resume_state (q : Proc) : (Proc.resume q).state = .running := by
  unfold Proc.resume
  split <;> rfl

@[simp] theorem Proc.resume_parent (q : Proc) : (Proc.resume q).parent = q.parent := by
  unfold Proc.resume
  split <;> rfl

theorem Proc.resume_forked {q : Proc} {np : Nat} {pid : Int32} (h : (Proc.resume q).pc = .forked np pid) :
    q.pc = .forked np pid := by
  unfold Proc.resume at h
  split at h
  · cases h
  · exact h

/-- What a section `e` from `s` to `s'` does to the slots' states and parents and to the places of
the `fork`s under way. -/
inductive Effect (s : PSys) (e : PEv) (s' : PSys) : Prop
  /-- No state, parent or `fork` changes. -/
  | quiet (h : Quiet s s')
  /-- Slot `j` changes state: a switch, `sleep`, a wakeup, `exit`, or `fork`'s last section. -/
  | restate (j : Nat) (hnext : (s.procs j).state.next (s'.procs j).state = true)
      (hused : (s'.procs j).state ≠ .unused) (hst : ∀ k, k ≠ j → (s'.procs k).state = (s.procs k).state)
      (hpar : ∀ k, (s'.procs k).parent = (s.procs k).parent) (hf : ForksKept s s')
  /-- `allocproc` in the `fork` of `p`, the process on CPU `c`, makes `np` USED. -/
  | alloc (c p np : Nat) (pid : Int32) (he : e = .fork c np true) (hc : s.cpus c = some p)
      (hu : (s.procs np).state = .unused) (hnp : (s'.procs np).state = .used)
      (hst : ∀ k, k ≠ np → (s'.procs k).state = (s.procs k).state)
      (hpar : ∀ k, (s'.procs k).parent = (s.procs k).parent) (hpc : (s'.procs p).pc = .forked np pid)
      (hf : ∀ k, k ≠ p → (s'.procs k).pc = (s.procs k).pc)
  /-- `np->parent = p` in the `fork` of `p`. -/
  | adopt (c p np : Nat) (pid : Int32) (he : e = .forkParent c) (hc : s.cpus c = some p)
      (hpc : (s.procs p).pc = .forked np pid) (hnp : (s'.procs np).parent = some p)
      (hpar : ∀ k, k ≠ np → (s'.procs k).parent = (s.procs k).parent)
      (hst : ∀ k, (s'.procs k).state = (s.procs k).state) (hpc' : (s'.procs p).pc = .parented np pid)
      (hf : ∀ k, k ≠ p → (s'.procs k).pc = (s.procs k).pc)
  /-- `pp->parent = initproc` in the `reparent` of `p`, for its child `j`. -/
  | handoff (c p j : Nat) (he : e = .reparent c) (hc : s.cpus c = some p) (hj : (s.procs j).parent = some p)
      (hnew : (s'.procs j).parent = some initproc)
      (hpar : ∀ k, k ≠ j → (s'.procs k).parent = (s.procs k).parent)
      (hst : ∀ k, (s'.procs k).state = (s.procs k).state) (hf : ForksKept s s')
  /-- `freeproc` of the ZOMBIE child `j` in the `wait` of `p`, which returns the child's pid. -/
  | reclaim (c p j : Nat) (hk : Bool) (he : e = .waitStep c true) (hc : s.cpus c = some p)
      (hpc : (s.procs p).pc = .waiting j hk) (hj : (s.procs j).parent = some p)
      (hz : (s.procs j).state = .zombie) (hfree : s'.procs j = freeproc (s.procs j))
      (hret : (s'.procs p).pc = .user ∧ (s'.procs p).ret = (s.procs j).pid.toInt)
      (hst : ∀ k, k ≠ j → (s'.procs k).state = (s.procs k).state)
      (hpar : ∀ k, k ≠ j → (s'.procs k).parent = (s.procs k).parent) (hf : ForksKept s s')

/-- One slot changes state, by `f`, between two quiet changes. -/
theorem Effect.of_upd {s1 : PSys} {j : Nat} {f : Proc → Proc} (h1 : Quiet s s1) (h2 : Quiet (s1.upd j f) s')
    (hnext : (s1.procs j).state.next (f (s1.procs j)).state = true) (hused : (f (s1.procs j)).state ≠ .unused)
    (hpar : (f (s1.procs j)).parent = (s1.procs j).parent)
    (hf : ∀ np pid, (f (s1.procs j)).pc = .forked np pid → (s1.procs j).pc = .forked np pid) :
    Effect s e s' := by
  refine .restate j ?_ ?_ (fun k hk => ?_) (fun k => ?_) (fun k np pid h => ?_)
  · rw [h2.state, PSys.upd_self, ← h1.state]
    exact hnext
  · rw [h2.state, PSys.upd_self]
    exact hused
  · rw [h2.state, PSys.upd_ne _ _ hk, h1.state]
  · rw [h2.parent, ← h1.parent]
    by_cases hk : k = j
    · subst hk
      rw [PSys.upd_self, hpar]
    · rw [PSys.upd_ne _ _ hk]
  · exact h1.forks k np pid (ForksKept.upd hf k np pid (h2.forks k np pid h))

/-! ## The sections -/

theorem effect_scheduler (h : scheduler nproc ncpu s c p = .ok s') : Effect s (.scheduler c p) s' := by
  obtain ⟨-, -, -, hrunnable, rfl⟩ := scheduler_eq_ok h
  exact .of_upd (j := p) (f := Proc.resume) (.refl rfl) (.refl rfl) (by simp [hrunnable, PState.next])
    (by simp) (by simp) fun _ _ => Proc.resume_forked

theorem effect_yield (hi : ProcInv nproc ncpu s) (hc : s.cpus c = some p)
    (h : yield s c p (s.procs p) = .ok s') : Effect s (.yield c) s' := by
  obtain ⟨-, rfl⟩ := yield_eq_ok h
  have hrun := (hi.cpu.running c p hc).2.2
  exact .of_upd (j := p) (f := fun r => { r with state := .runnable }) (.refl rfl) (.refl rfl)
    (by simp [hrun, PState.next]) (by simp) rfl fun _ _ h => h

theorem effect_sleepSched (h : sleepSched s c p (s.procs p) = .ok s') : Effect s (.sleepSched c) s' := by
  obtain ⟨ch, -, -, -, hrun, rfl⟩ := sleepSched_eq_ok h
  exact .of_upd (j := p) (f := fun r => { r with chan := some ch, state := .sleeping }) (.refl rfl) (.refl rfl)
    (by simp [hrun, PState.next]) (by simp) rfl fun _ _ h => h

theorem effect_exitSched (hi : ProcInv nproc ncpu s) (hc : s.cpus c = some p)
    (h : exitSched s c p (s.procs p) = .ok s') : Effect s (.exitSched c) s' := by
  obtain ⟨status, -, rfl⟩ := exitSched_eq_ok h
  have hrun := (hi.cpu.running c p hc).2.2
  exact .of_upd (j := p) (f := fun r => { r with xstate := status, state := .zombie, pc := .user }) (.refl rfl)
    (.refl rfl) (by simp [hrun, PState.next]) (by simp) rfl (by simp)

theorem effect_wakeStep (hi : ProcInv nproc ncpu s) (h : wakeStep nproc s p (s.procs p) = .ok s') : Effect s (.wakeStep c) s' := by
  obtain ⟨ch, j, after, hpc, ⟨-, -, rfl⟩ | ⟨-, hjp, -, rfl⟩ | ⟨-, rfl⟩⟩ := wakeStep_eq_ok h
  · exact .quiet (.upd ⟨rfl, rfl, by simp⟩)
  · -- slot `j` wakes if it sleeps on `ch`, and the caller goes on
    have hstep := Quiet.upd (s := s.upd j (Proc.wake ch)) (j := p)
      (f := fun r => { r with pc := .wakeup ch (j + 1) after }) ⟨rfl, rfl, by simp⟩
    by_cases hw : (s.procs j).state = .sleeping ∧ (s.procs j).chan = some ch
    · refine .of_upd (.refl rfl) hstep ?_ ?_ ?_ ?_ <;> simp [Proc.wake, hw, PState.next]
    · exact .quiet ((Quiet.upd ⟨by simp [Proc.wake, hw], by simp [Proc.wake, hw], by simp [Proc.wake, hw]⟩).trans
        hstep)
  · -- back where `wakeup` was called
    rcases Pc.wakeReturn_eq (hi.place.wake_return p ch j after hpc) with ⟨lk, rfl⟩ | ⟨j', st, rfl⟩ | ⟨st, rfl⟩
    all_goals exact .quiet (.upd ⟨rfl, rfl, by simp⟩)

theorem effect_kill {pid : Int32} (h : kill nproc s p (s.procs p) pid = .ok s') : Effect s (.kill c pid) s' := by
  obtain ⟨-, ⟨j, -, -, rfl⟩ | rfl⟩ := kill_eq_ok h
  · have hstep := Quiet.upd (s := s.upd j killProc) (j := p) (f := fun r => { r with ret := 0 })
      ⟨rfl, rfl, fun _ _ h => h⟩
    by_cases hs : (s.procs j).state = .sleeping
    · -- a SLEEPING victim is made RUNNABLE
      refine .of_upd (.refl rfl) hstep ?_ ?_ ?_ ?_ <;> simp [killProc, hs, PState.next]
    · exact .quiet ((Quiet.upd ⟨by simp [killProc, hs], rfl, fun _ _ h => h⟩).trans hstep)
  · exact .quiet (.upd ⟨rfl, rfl, fun _ _ h => h⟩)

theorem effect_fork (hi : ProcInv nproc ncpu s) (hc : s.cpus c = some p) {np : Nat} {ok : Bool}
    (h : fork nproc s p (s.procs p) np ok = .ok s') : Effect s (.fork c np ok) s' := by
  have hrun := (hi.cpu.running c p hc).2.2
  obtain ⟨-, -, hunused, ⟨rfl, rfl⟩ | ⟨rfl, rfl⟩⟩ := fork_eq_ok h
  all_goals
    have hpnp : p ≠ np := by
      rintro rfl
      rw [hrun] at hunused
      cases hunused
  · -- `allocproc`: the slot is USED, and the caller is in `fork`
    refine .alloc c p np s.nextpid rfl hc hunused (by simp [hpnp.symm]) ?_ ?_ (by simp) ?_
    · intro k hk
      by_cases hkp : k = p
      · subst hkp
        simp [hpnp]
      · simp [hkp, hk]
    · intro k
      by_cases hkp : k = p
      · subst hkp
        simp [hpnp]
      · by_cases hkn : k = np <;> simp [hkp, hkn, hpnp.symm]
    · intro k hk
      by_cases hkn : k = np <;> simp [hk, hkn, hpnp.symm]
  · -- `freeproc` of the new slot leaves it as it was
    rw [PSys.upd_upd]
    have hnone := hi.unused_parent np hunused
    have hkeep : Keeps (fun r => freeproc { r with state := .used, pid := s.nextpid }) (s.procs np) :=
      ⟨by simp [freeproc, hunused], by simp [freeproc, hnone], by simp [freeproc]⟩
    have hnext : Quiet s { s with nextpid := s.nextpid + 1 } := .refl rfl
    exact .quiet ((hnext.trans (.upd hkeep)).trans (.upd ⟨rfl, rfl, fun _ _ h => h⟩))

theorem effect_forkParent (hi : ProcInv nproc ncpu s) (hc : s.cpus c = some p)
    (h : forkParent nproc s p (s.procs p) = .ok s') : Effect s (.forkParent c) s' := by
  obtain ⟨hpn, -⟩ := hi.actor hc
  have hrun := (hi.cpu.running c p hc).2.2
  obtain ⟨np, pid, hpc, -, rfl⟩ := forkParent_eq_ok h
  have hnp : np ≠ p := by
    intro hnp
    have hused := (hi.forks_used p np hpn (by simp [hpc, Pc.forks])).2
    rw [hnp, hrun] at hused
    cases hused
  refine .adopt c p np pid rfl hc hpc (by simp [hnp]) (fun k hk => ?_) (fun k => ?_) (by simp) (fun k hk => ?_)
  · by_cases hkp : k = p <;> simp [hkp, hk, hnp.symm]
  · by_cases hkp : k = p
    · subst hkp
      simp [hnp.symm]
    · by_cases hkn : k = np <;> simp [hkp, hkn, hnp]
  · by_cases hkn : k = np <;> simp [hk, hkn, hnp]

theorem effect_forkRun (hi : ProcInv nproc ncpu s) (hc : s.cpus c = some p)
    (h : forkRun s p (s.procs p) = .ok s') : Effect s (.forkRun c) s' := by
  obtain ⟨hpn, -⟩ := hi.actor hc
  obtain ⟨np, pid, hpc, -, rfl⟩ := forkRun_eq_ok h
  -- the slot `fork` made is still USED
  have hused := (hi.forks_used p np hpn (by simp [hpc, Pc.forks])).2
  exact .of_upd (j := np) (f := fun r => { r with state := .runnable }) (.refl rfl)
    (.upd ⟨rfl, rfl, by simp⟩) (by simp [hused, PState.next]) (by simp) rfl fun _ _ h => h

theorem effect_reparent (hc : s.cpus c = some p)
    (h : reparent nproc s p (s.procs p) = .ok s') : Effect s (.reparent c) s' := by
  obtain ⟨j, status, -, ⟨-, hpar, rfl⟩ | ⟨-, -, rfl⟩ | ⟨-, pp, -, rfl⟩ | ⟨-, -, rfl⟩⟩ := reparent_eq_ok h
  · -- a child goes to `initproc`
    refine .handoff c p j rfl hc hpar ?_ (fun k hk => ?_) (fun k => ?_) (fun k np pid h' => ?_)
    · by_cases hjp : j = p <;> simp [hjp]
    · by_cases hkp : k = p
      · subst hkp
        simp [hk]
      · simp [hkp, hk]
    · by_cases hkp : k = p
      · subst hkp
        by_cases hjk : k = j <;> simp [hjk]
      · by_cases hkj : k = j
        · subst hkj
          simp [hkp]
        · simp [hkp, hkj]
    · by_cases hkp : k = p
      · subst hkp
        simp at h'
      · rw [PSys.upd_ne _ _ hkp] at h'
        by_cases hkj : k = j
        · subst hkj
          rwa [PSys.upd_self] at h'
        · rwa [PSys.upd_ne _ _ hkj] at h'
  all_goals exact .quiet (.upd ⟨rfl, rfl, by simp⟩)

theorem effect_waitStep (hi : ProcInv nproc ncpu s) (hc : s.cpus c = some p) {copied : Bool}
    (h : waitStep nproc s p (s.procs p) copied = .ok s') : Effect s (.waitStep c copied) s' := by
  have hrun := (hi.cpu.running c p hc).2.2
  obtain ⟨j, hk, hpc, ⟨-, hpar, hz, rfl, rfl⟩ | ⟨-, -, -, -, rfl⟩ | ⟨-, -, -, rfl⟩ | ⟨-, -, rfl⟩ | ⟨-, -, rfl⟩ |
    ⟨-, -, -, rfl⟩⟩ := waitStep_eq_ok h
  · -- the ZOMBIE child is freed
    have hjp : j ≠ p := by
      rintro rfl
      rw [hrun] at hz
      cases hz
    refine .reclaim c p j hk rfl hc hpc hpar hz (by simp [hjp]) (by simp) (fun k hk => ?_) (fun k hk => ?_)
      (fun k np pid h' => ?_)
    · by_cases hkp : k = p <;> simp [hkp, hk, hjp.symm]
    · by_cases hkp : k = p <;> simp [hkp, hk, hjp.symm]
    · by_cases hkp : k = p
      · subst hkp
        simp at h'
      · rw [PSys.upd_ne _ _ hkp] at h'
        by_cases hkj : k = j
        · subst hkj
          simp [freeproc] at h'
        · rwa [PSys.upd_ne _ _ hkj] at h'
  all_goals exact .quiet (.upd ⟨rfl, rfl, by simp⟩)

/-! ## Every section -/

/-- A section that moves only its caller's thread, to a place outside `fork`. -/
theorem effect_moves {f : Proc → Proc} (hf : Keeps f (s.procs p)) : Effect s e (s.upd p f) :=
  .quiet (.upd hf)

theorem procNext_effect (hi : ProcInv nproc ncpu s) (h : procNext nproc ncpu s e = .ok s') : Effect s e s' := by
  cases e <;> simp only [procNext] at h
  case scheduler => exact effect_scheduler h
  all_goals obtain ⟨p, hc, h⟩ := PSys.onCpu_eq_ok h
  case yield => exact effect_yield hi hc h
  case acquire =>
    obtain ⟨-, -, rfl⟩ := acquire_eq_ok h
    exact effect_moves ⟨rfl, rfl, by simp⟩
  case relock =>
    obtain ⟨lk, after, hpc, -, rfl⟩ := relock_eq_ok h
    -- `sleep` returns where its caller was
    rcases Pc.sleepReturn_eq (hi.place.relock_return p lk after hpc) with rfl | ⟨rfl, rfl⟩
    all_goals exact effect_moves ⟨rfl, rfl, by simp⟩
  case release =>
    obtain ⟨-, -, rfl⟩ := release_eq_ok h
    exact effect_moves ⟨rfl, rfl, by simp⟩
  case sleep =>
    obtain ⟨-, -, rfl⟩ := sleep_eq_ok h
    exact effect_moves ⟨rfl, rfl, by simp⟩
  case sleepSched => exact effect_sleepSched h
  case wakeup =>
    obtain ⟨-, -, rfl⟩ := wakeup_eq_ok h
    exact effect_moves ⟨rfl, rfl, by simp⟩
  case wakeStep => exact effect_wakeStep hi h
  case kill => exact effect_kill h
  case fork => exact effect_fork hi hc h
  case forkFull =>
    obtain ⟨-, rfl⟩ := forkFull_eq_ok h
    exact effect_moves ⟨rfl, rfl, fun _ _ h => h⟩
  case forkParent => exact effect_forkParent hi hc h
  case forkRun => exact effect_forkRun hi hc h
  case exit =>
    obtain ⟨-, -, -, rfl⟩ := exit_eq_ok h
    exact effect_moves ⟨rfl, rfl, by simp⟩
  case reparent => exact effect_reparent hc h
  case exitSched => exact effect_exitSched hi hc h
  case wait =>
    obtain ⟨-, -, rfl⟩ := wait_eq_ok h
    exact effect_moves ⟨rfl, rfl, by simp⟩
  case waitStep => exact effect_waitStep hi hc h

/-- Every slot keeps its state, or makes one of the changes of `PState.next`. -/
theorem procNext_state (hi : ProcInv nproc ncpu s) (h : procNext nproc ncpu s e = .ok s') (k : Nat) :
    (s'.procs k).state = (s.procs k).state ∨ (s.procs k).state.next (s'.procs k).state = true := by
  cases procNext_effect hi h with
  | quiet hq => exact .inl (hq.state k)
  | restate j hnext _ hst =>
    by_cases hk : k = j
    · subst hk
      exact .inr hnext
    · exact .inl (hst k hk)
  | alloc _ _ np _ _ _ hu hnp hst =>
    by_cases hk : k = np
    · subst hk
      rw [hu, hnp]
      exact .inr rfl
    · exact .inl (hst k hk)
  | adopt _ _ _ _ _ _ _ _ _ hst => exact .inl (hst k)
  | handoff _ _ _ _ _ _ _ _ hst => exact .inl (hst k)
  | reclaim _ _ j _ _ _ _ _ hz hfree _ hst =>
    by_cases hk : k = j
    · subst hk
      rw [hz, hfree]
      exact .inr rfl
    · exact .inl (hst k hk)

end Xv6.Procs
