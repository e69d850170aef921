import Xv6.Proc.Inv

/-!
# Every section keeps `ProcInv`

Each section of `proc.c` is one or two of the rules of `Proc.Inv`, applied to what its inversion
lemma says it does:

* `ProcInv.scheduler`, …, `ProcInv.waitStep` : one lemma per section;
* `procInv_init` : the table `userinit` leaves has the invariant;
* `ProcInv.next`, `procInv_reachable` : so has every reachable table.
-/

namespace Xv6.Procs
open Trans

variable {nproc ncpu : Nat} {s s' : PSys} {c p : Nat} {x : Pc}

/-- The thread moves to a place that holds the locks it held. -/
theorem holds_of_same {q : Proc} {x : Pc} (h : ∀ l, x.holds l = q.pc.holds l) :
    ∀ l, x.holds l = true → q.pc.holds l = true ∨ s.free nproc l = true :=
  fun l hl => .inl ((h l) ▸ hl)

theorem ProcInv.rep_of_same (hi : ProcInv nproc ncpu s) (hpn : p < nproc)
    (hx : x.reparented nproc = (s.procs p).pc.reparented nproc) :
    ∀ k < x.reparented nproc, (s.procs k).parent ≠ some p :=
  fun k hk => hi.reparented p k hpn (hx ▸ hk)

theorem ProcInv.exit_of_same (hi : ProcInv nproc ncpu s) (hx : x.exiting = (s.procs p).pc.exiting) :
    x.exiting = true → p ≠ initproc := by
  rintro h rfl
  rw [hx, hi.place.exiting_init] at h
  cases h

theorem ProcInv.setNextpid (hi : ProcInv nproc ncpu s) (n : Int32) :
    ProcInv nproc ncpu { s with nextpid := n } :=
  ⟨hi.cpu.congr rfl fun _ => Iff.rfl, hi.place.congr fun _ => rfl, hi.sleeping_pc, hi.forks_used,
    hi.parented, hi.parent_alive, hi.has_parent, hi.init_alive, hi.unused_parent, hi.reparented,
    hi.wait_scan, hi.wake_scan⟩

theorem ProcInv.scheduler (hi : ProcInv nproc ncpu s) (h : scheduler nproc ncpu s c p = .ok s') :
    ProcInv nproc ncpu s' := by
  obtain ⟨hcn, hpn, hfree, hrunnable, rfl⟩ := scheduler_eq_ok h
  have hns : (s.procs p).state ≠ .sleeping := by rw [hrunnable]; simp
  have hnr : (s.procs p).state ≠ .running := by rw [hrunnable]; simp
  by_cases hsl : ∃ ch lk after, (s.procs p).pc = .sleeping ch lk after
  · obtain ⟨ch, lk, after, hpc⟩ := hsl
    -- back in `sleep`, the thread goes on to its `acquire(lk)`, and the slot runs
    have hi1 : ProcInv nproc ncpu (s.upd p fun r => { r with chan := none, pc := .relock lk after }) :=
      hi.moves hpn hns (MovesOnly.upd ⟨rfl, rfl, rfl⟩) (by simp [Pc.holds]) (by simp [Pc.forks])
        (by simp) (by simp) (fun _ _ h' => by cases h'; exact hi.place.sleep_return p ch lk after hpc)
        (by simp) (by simp [Pc.reparented]) (by simp [Pc.exiting]) (by simp)
    have heq : s.upd p Proc.resume = (s.upd p fun r => { r with chan := none, pc := .relock lk after }).upd p
        fun r => { r with state := .running } := by
      rw [PSys.upd_upd]
      exact PSys.upd_congr (by simp [Proc.resume, hpc])
    rw [heq]
    exact hi1.restate (j := p) (f := fun r => { r with state := .running }) (fun _ => rfl)
      (hi1.cpu.on hcn hpn hfree (by simpa using hnr) rfl) ⟨rfl, rfl⟩
      (.inr ⟨by simp [hrunnable, PState.alive], rfl⟩) (by simp) (fun _ _ h' => by simp [Proc.asleep] at h')
  · have hres : s.upd p Proc.resume = s.upd p fun r => { r with state := .running } := by
      refine PSys.upd_congr ?_
      unfold Proc.resume
      split
      · next ch lk after hpc => exact absurd ⟨ch, lk, after, hpc⟩ hsl
      · rfl
    rw [hres]
    refine hi.restate (j := p) (f := fun r => { r with state := .running }) (fun _ => rfl)
      (hi.cpu.on hcn hpn hfree hnr rfl) ⟨rfl, rfl⟩
      (.inr ⟨by simp [hrunnable, PState.alive], rfl⟩) (by simp) ?_
    intro ch lk h'
    simp only [Proc.asleep] at h'
    split at h'
    · next ch' lk' after hpc => exact absurd ⟨ch', lk', after, hpc⟩ hsl
    · cases h'

theorem ProcInv.yield (hi : ProcInv nproc ncpu s) (hc : s.cpus c = some p)
    (h : yield s c p (s.procs p) = .ok s') : ProcInv nproc ncpu s' := by
  obtain ⟨-, rfl⟩ := yield_eq_ok h
  have hrun := (hi.cpu.running c p hc).2.2
  exact hi.restate (j := p) (f := fun r => { r with state := .runnable }) (fun _ => rfl)
    (hi.cpu.off hc (by simp)) ⟨rfl, rfl⟩ (.inr ⟨by rw [hrun]; rfl, rfl⟩) (by simp)
    (fun _ _ h' => by rw [Proc.asleep_eq_false (by simp) (by simp)] at h'; cases h')

theorem ProcInv.acquire (hi : ProcInv nproc ncpu s) (hc : s.cpus c = some p) {a : Nat}
    (h : acquire nproc s p (s.procs p) a = .ok s') : ProcInv nproc ncpu s' := by
  obtain ⟨hpn, hns⟩ := hi.actor hc
  obtain ⟨-, hfree, rfl⟩ := acquire_eq_ok h
  refine hi.moves hpn hns (MovesOnly.upd (x := .holding (.obj a)) ⟨rfl, rfl, rfl⟩) ?_
    (by simp [Pc.forks]) (by simp) (by simp) (by simp) (by simp) (by simp [Pc.reparented])
    (by simp [Pc.exiting]) (by simp)
  intro l hl
  simp only [Pc.holds, beq_iff_eq] at hl
  subst hl
  exact .inr hfree

theorem ProcInv.relock (hi : ProcInv nproc ncpu s) (hc : s.cpus c = some p)
    (h : relock nproc s p (s.procs p) = .ok s') : ProcInv nproc ncpu s' := by
  obtain ⟨hpn, hns⟩ := hi.actor hc
  obtain ⟨lk, after, hpc, hfree, rfl⟩ := relock_eq_ok h
  -- the lock `after` holds is `lk`, which was free
  have hhold : ∀ l, after.holds l = true → (s.procs p).pc.holds l = true ∨ s.free nproc l = true := by
    intro l hl
    rcases Pc.sleepReturn_eq (hi.place.relock_return p lk after hpc) with rfl | ⟨rfl, rfl⟩
    all_goals
      simp only [Pc.holds, beq_iff_eq] at hl
      subst hl
      exact .inr hfree
  rcases Pc.sleepReturn_eq (hi.place.relock_return p lk after hpc) with rfl | ⟨rfl, rfl⟩
  · exact hi.moves hpn hns (MovesOnly.upd ⟨rfl, rfl, rfl⟩) hhold (by simp [Pc.forks]) (by simp)
      (by simp) (by simp) (by simp) (by simp [Pc.reparented]) (by simp [Pc.exiting]) (by simp)
  · refine hi.moves hpn hns (MovesOnly.upd ⟨rfl, rfl, rfl⟩) hhold (by simp [Pc.forks]) (by simp)
      (by simp) (by simp) (by simp) (by simp [Pc.reparented]) (by simp [Pc.exiting]) ?_
    -- back in `wait`, for a new scan
    rintro j hk ⟨⟩
    simp

theorem ProcInv.release (hi : ProcInv nproc ncpu s) (hc : s.cpus c = some p)
    (h : release s p (s.procs p) = .ok s') : ProcInv nproc ncpu s' := by
  obtain ⟨hpn, hns⟩ := hi.actor hc
  obtain ⟨-, -, rfl⟩ := release_eq_ok h
  exact hi.toUser hpn hns (MovesOnly.upd ⟨rfl, rfl, rfl⟩)

theorem ProcInv.sleep (hi : ProcInv nproc ncpu s) (hc : s.cpus c = some p) {ch : Chan}
    (h : sleep s p (s.procs p) ch = .ok s') : ProcInv nproc ncpu s' := by
  obtain ⟨hpn, hns⟩ := hi.actor hc
  obtain ⟨lk, hpc, rfl⟩ := sleep_eq_ok h
  refine hi.moves hpn hns (MovesOnly.upd (x := .sleeping ch lk (.holding lk)) ⟨rfl, rfl, rfl⟩)
    (by simp [Pc.holds]) (by simp [Pc.forks]) (by simp) ?_ (by simp) (by simp)
    (by simp [Pc.reparented]) (by simp [Pc.exiting]) (by simp)
  rintro ch' lk' after ⟨⟩
  simp [Pc.sleepReturn, hpc, Pc.holds]

theorem ProcInv.sleepSched (hi : ProcInv nproc ncpu s) (hc : s.cpus c = some p)
    (h : sleepSched s c p (s.procs p) = .ok s') : ProcInv nproc ncpu s' := by
  obtain ⟨ch, lk, after, hpc, hrun, rfl⟩ := sleepSched_eq_ok h
  refine hi.restate (j := p) (f := fun r => { r with chan := some ch, state := .sleeping }) (fun _ => rfl)
    (hi.cpu.off hc (by simp)) ⟨rfl, rfl⟩ (.inr ⟨by rw [hrun]; rfl, rfl⟩) (fun _ => ⟨ch, lk, after, hpc, rfl⟩) ?_
  intro ch' lk' h'
  simpa [Proc.asleep, hpc, hrun] using h'

theorem ProcInv.wakeup (hi : ProcInv nproc ncpu s) (hc : s.cpus c = some p) {ch : Chan}
    (h : wakeup s p (s.procs p) ch = .ok s') : ProcInv nproc ncpu s' := by
  obtain ⟨hpn, hns⟩ := hi.actor hc
  obtain ⟨lk, hpc, rfl⟩ := wakeup_eq_ok h
  refine hi.moves hpn hns (MovesOnly.upd (x := .wakeup ch 0 (.holding lk)) ⟨rfl, rfl, rfl⟩)
    (holds_of_same (by simp [hpc, Pc.holds])) (by simp [Pc.forks]) (by simp) (by simp) (by simp) ?_
    (by simp [Pc.reparented]) (by simp [Pc.exiting]) (by simp)
  rintro ch' j after ⟨⟩
  exact ⟨rfl, fun _ _ a ha => absurd ha (Nat.not_lt_zero a)⟩

/-- What `wakeup`'s test leaves of a slot not between `sleep`'s sections: it is asleep in no
`sleep` on the channel. -/
theorem Proc.asleep_wake {q : Proc} {ch : Chan} {lk : Lock} (hl : q.locked = false)
    (hs : q.state = .sleeping → ∃ ch' lk' after, q.pc = .sleeping ch' lk' after ∧ q.chan = some ch') :
    (Proc.wake ch q).asleep ch lk = false := by
  unfold Proc.wake
  split
  · exact Proc.asleep_eq_false (by simp) (by simp)
  · next hw =>
    cases hst : q.state with
    | sleeping =>
      -- SLEEPING on another channel
      obtain ⟨ch', lk', after, hpc, hch⟩ := hs hst
      have hne : ch' ≠ ch := fun he => hw ⟨hst, he ▸ hch⟩
      simp [Proc.asleep, hpc, hne]
    | running =>
      -- not between `sleep`'s sections, so in no `sleep`
      unfold Proc.asleep
      split
      · next ch' lk' after hpc => simp [Proc.locked, hpc, hst] at hl
      · rfl
    | _ => exact Proc.asleep_eq_false (by simp [hst]) (by simp [hst])

/-- `wakeup`'s loop goes past slot `j`: the caller's, or one asleep in no `sleep` on the channel
with a lock the caller holds. -/
theorem ProcInv.wakeNext (hi : ProcInv nproc ncpu s) (hpn : p < nproc) (hns : (s.procs p).state ≠ .sleeping)
    {ch : Chan} {j : Nat} {after : Pc} (hpc : (s.procs p).pc = .wakeup ch j after)
    (hj : ∀ lk, after.holds lk = true → j ≠ p → (s.procs j).asleep ch lk = false) :
    ProcInv nproc ncpu (s.upd p fun r => { r with pc := .wakeup ch (j + 1) after }) := by
  refine hi.moves hpn hns (MovesOnly.upd ⟨rfl, rfl, rfl⟩) (holds_of_same (by simp [hpc, Pc.holds]))
    (by simp [Pc.forks]) (by simp) (by simp) (by simp) ?_
    (hi.rep_of_same hpn (by simp [hpc, Pc.reparented])) (hi.exit_of_same (by simp [hpc, Pc.exiting]))
    (by simp)
  rintro ch' j' after' ⟨⟩
  refine ⟨hi.place.wake_return p ch j after hpc, fun lk hlk a ha hap => ?_⟩
  rcases Nat.lt_succ_iff_lt_or_eq.mp ha with ha | rfl
  · exact hi.wake_scan p ch j after lk hpn hpc hlk a ha hap
  · exact hj lk hlk hap

theorem ProcInv.wakeStep (hi : ProcInv nproc ncpu s) (hc : s.cpus c = some p)
    (h : wakeStep nproc s p (s.procs p) = .ok s') : ProcInv nproc ncpu s' := by
  obtain ⟨hpn, hns⟩ := hi.actor hc
  obtain ⟨ch, j, after, hpc, ⟨-, rfl, rfl⟩ | ⟨-, hjp, hlock, rfl⟩ | ⟨hj, rfl⟩⟩ := wakeStep_eq_ok h
  · -- the caller's own slot
    exact hi.wakeNext hpn hns hpc fun _ _ hne => absurd rfl hne
  · -- slot `j` is tested under its lock, which no `sleep` holds
    have hi1 := hi.rouse j (f := Proc.wake ch) fun r => by
      unfold Proc.wake
      split
      · next hw => exact ⟨rfl, rfl, rfl, .inr ⟨hw.1, rfl⟩⟩
      · exact ⟨rfl, rfl, rfl, .inl rfl⟩
    have hpj : p ≠ j := Ne.symm hjp
    refine hi1.wakeNext (by exact hpn) (by rw [PSys.upd_ne _ _ hpj]; exact hns)
      (by rw [PSys.upd_ne _ _ hpj]; exact hpc) fun lk _ _ => ?_
    rw [PSys.upd_self]
    exact Proc.asleep_wake hlock (hi.sleeping_pc j)
  · -- the end of the loop: back where `wakeup` was called
    have hret := hi.place.wake_return p ch j after hpc
    have hrep := hi.rep_of_same (x := after) hpn (by simp [hpc, Pc.reparented])
    have hexit := hi.exit_of_same (x := after) (p := p) (by simp [hpc, Pc.exiting])
    have hhold := @holds_of_same nproc s (s.procs p) after (by simp [hpc, Pc.holds])
    rcases Pc.wakeReturn_eq hret with ⟨lk, rfl⟩ | ⟨j', st, rfl⟩ | ⟨st, rfl⟩
    all_goals
      exact hi.moves hpn hns (MovesOnly.upd ⟨rfl, rfl, rfl⟩) hhold (by simp [Pc.forks]) (by simp)
        (by simp) (by simp) (by simp) hrep hexit (by simp)

theorem ProcInv.kill (hi : ProcInv nproc ncpu s) (hc : s.cpus c = some p) {pid : Int32}
    (h : kill nproc s p (s.procs p) pid = .ok s') : ProcInv nproc ncpu s' := by
  obtain ⟨hpn, hns⟩ := hi.actor hc
  obtain ⟨hpc, ⟨j, -, -, rfl⟩ | rfl⟩ := kill_eq_ok h
  · have hi1 := hi.rouse j (f := killProc) fun r => by
      by_cases hs : r.state = .sleeping <;> simp [killProc, hs]
    refine hi1.toUser hpn ?_ (MovesOnly.upd ⟨?_, rfl, rfl⟩)
    · by_cases hpj : p = j
      · subst hpj
        simp [killProc, hns]
      · rw [PSys.upd_ne _ _ hpj]
        exact hns
    · by_cases hpj : p = j
      · subst hpj
        simp [killProc, hpc]
      · simp [hpj, hpc]
  · exact hi.toUser hpn hns (MovesOnly.upd ⟨hpc, rfl, rfl⟩)

theorem ProcInv.fork (hi : ProcInv nproc ncpu s) (hc : s.cpus c = some p) {np : Nat} {ok : Bool}
    (h : fork nproc s p (s.procs p) np ok = .ok s') : ProcInv nproc ncpu s' := by
  obtain ⟨hpn, hns⟩ := hi.actor hc
  have hrun := (hi.cpu.running c p hc).2.2
  obtain ⟨hpc, hnp, hunused, ⟨-, rfl⟩ | ⟨-, rfl⟩⟩ := fork_eq_ok h
  all_goals
    have hpnp : p ≠ np := by
      rintro rfl
      rw [hrun] at hunused
      cases hunused
    have hnofork : ∀ k < nproc, (s.procs k).pc.forks ≠ some np := fun k hk hf => by
      rw [(hi.forks_used k np hk hf).2] at hunused
      cases hunused
    have hi1 := (hi.setNextpid (s.nextpid + 1)).alloc (j := np) hunused
      (f := fun r => { r with state := .used, pid := s.nextpid }) ⟨rfl, rfl, rfl⟩
  · -- the new slot is USED and the caller goes on in `fork`
    have hi2 := hi1.rouse np (f := fun r => { r with ret := 0 }) fun _ => ⟨rfl, rfl, rfl, .inl rfl⟩
    refine hi2.moves hpn (by simp [hpnp, hns]) (MovesOnly.upd ⟨rfl, rfl, rfl⟩) (by simp [Pc.holds]) ?_
      (by simp) (by simp) (by simp) (by simp) (by simp [Pc.reparented]) (by simp [Pc.exiting])
      (by simp)
    intro np' h'
    simp only [Pc.forks, Option.some.injEq] at h'
    cases h'
    -- the allocation moved no thread
    refine .inr ⟨hnp, by simp, fun k hk hf => hnofork k hk ?_⟩
    by_cases hk' : k = np
    · subst hk'
      simpa using hf
    · simpa [hk'] using hf
  · -- `freeproc` after a failed allocation, and `fork` returns `-1`
    have hi2 := hi1.reclaim (j := np) (by simp [PState.alive])
      (fun k hk hf => hnofork k hk (by
        by_cases hk' : k = np
        · subst hk'
          simpa using hf
        · simpa [hk'] using hf))
      (fun w jw hb hw _ _ => by simp [hi.unused_parent np hunused])
    exact hi2.toUser hpn (by simp [hpnp, hns]) (MovesOnly.upd ⟨by simp [hpnp, hpc], rfl, rfl⟩)

theorem ProcInv.forkFull (hi : ProcInv nproc ncpu s) (hc : s.cpus c = some p)
    (h : forkFull nproc s p (s.procs p) = .ok s') : ProcInv nproc ncpu s' := by
  obtain ⟨hpn, hns⟩ := hi.actor hc
  obtain ⟨hpc, rfl⟩ := forkFull_eq_ok h
  exact hi.toUser hpn hns (MovesOnly.upd ⟨hpc, rfl, rfl⟩)

theorem ProcInv.forkParent (hi : ProcInv nproc ncpu s) (hc : s.cpus c = some p)
    (h : forkParent nproc s p (s.procs p) = .ok s') : ProcInv nproc ncpu s' := by
  obtain ⟨hpn, hns⟩ := hi.actor hc
  have hrun := (hi.cpu.running c p hc).2.2
  obtain ⟨np, pid, hpc, hfree, rfl⟩ := forkParent_eq_ok h
  obtain ⟨hnp, hused⟩ := hi.forks_used p np hpn (by simp [hpc, Pc.forks])
  have hpnp : p ≠ np := by
    rintro rfl
    rw [hrun] at hused
    cases hused
  -- under `wait_lock`: no `exit` or `wait` is past `acquire(&wait_lock)`
  have hi1 := hi.setParent (j := np) (k := p) (by rw [hused]; simp) ⟨hpn, by rw [hrun]; rfl⟩
    (fun q pid' hq hq' => hi.place.forks_unique q p np hq hpn (by simp [hq', Pc.forks])
      (by simp [hpc, Pc.forks]))
    (fun e he hlt => by
      have := PSys.free_holds hfree he
      rw [Pc.holds_wait_of_exiting (Pc.exiting_of_lt_reparented hlt)] at this
      cases this)
    (fun w jw hb hw hwpc _ => by
      have := PSys.free_holds hfree hw
      simp [hwpc, Pc.holds] at this)
  refine hi1.moves hpn (by simp [hpnp, hns]) (MovesOnly.upd ⟨rfl, rfl, rfl⟩) (by simp [Pc.holds])
    (fun np' h' => .inl (by simpa [hpnp, hpc, Pc.forks] using h')) ?_ (by simp) (by simp) (by simp)
    (by simp [Pc.reparented]) (by simp [Pc.exiting]) (by simp)
  rintro np' pid' ⟨⟩
  simp

theorem ProcInv.forkRun (hi : ProcInv nproc ncpu s) (hc : s.cpus c = some p)
    (h : forkRun s p (s.procs p) = .ok s') : ProcInv nproc ncpu s' := by
  obtain ⟨hpn, hns⟩ := hi.actor hc
  have hrun := (hi.cpu.running c p hc).2.2
  obtain ⟨np, pid, hpc, -, rfl⟩ := forkRun_eq_ok h
  obtain ⟨hnp, hused⟩ := hi.forks_used p np hpn (by simp [hpc, Pc.forks])
  have hnpp : np ≠ p := by
    rintro rfl
    rw [hrun] at hused
    cases hused
  -- the caller leaves `fork` first; then no `fork` is making `np`
  rw [PSys.upd_comm _ hnpp]
  have hi1 := hi.toUser hpn hns (MovesOnly.upd (f := fun r => { r with pc := .user, ret := pid.toInt })
    ⟨rfl, rfl, rfl⟩)
  refine hi1.start (by simpa [hnpp] using hused) (fun k hk hf => ?_) ?_
  · by_cases hkp : k = p
    · simp [hkp, Pc.forks] at hf
    · rw [PSys.upd_ne _ _ hkp] at hf
      exact hkp (hi.place.forks_unique k p np hk hpn hf (by simp [hpc, Pc.forks]))
  · simp [hnpp, hi.parented p np pid hpn hpc]

theorem ProcInv.exit (hi : ProcInv nproc ncpu s) (hc : s.cpus c = some p) {status : Int}
    (h : exit nproc s p (s.procs p) status = .ok s') : ProcInv nproc ncpu s' := by
  obtain ⟨hpn, hns⟩ := hi.actor hc
  obtain ⟨-, hinit, hfree, rfl⟩ := exit_eq_ok h
  refine hi.moves hpn hns (MovesOnly.upd (x := .reparent 0 status) ⟨rfl, rfl, rfl⟩) ?_
    (by simp [Pc.forks]) (by simp) (by simp) (by simp) (by simp) (by simp [Pc.reparented])
    (fun _ => hinit) (by simp)
  intro l hl
  simp only [Pc.holds, beq_iff_eq] at hl
  subst hl
  exact .inr hfree

theorem ProcInv.reparent (hi : ProcInv nproc ncpu s) (hc : s.cpus c = some p)
    (h : reparent nproc s p (s.procs p) = .ok s') : ProcInv nproc ncpu s' := by
  obtain ⟨hpn, hns⟩ := hi.actor hc
  obtain ⟨j, status, hpc, ⟨hj, hpar, rfl⟩ | ⟨hj, hpar, rfl⟩ | ⟨hj, pp, -, rfl⟩ | ⟨hj, -, rfl⟩⟩ :=
    reparent_eq_ok h
  all_goals
    have hinit : p ≠ initproc := hi.exit_of_same (x := .reparent j status) (by rw [hpc]) rfl
    have hhold := @holds_of_same nproc s (s.procs p) (.reparent j status)
      (by simp [hpc])
    have hrep : ∀ k < j, (s.procs k).parent ≠ some p :=
      hi.rep_of_same (x := .reparent j status) hpn (by rw [hpc])
  · -- a child goes to `initproc`, and `reparent` wakes `initproc`
    have hinitn : initproc < nproc := Nat.lt_of_le_of_lt (Nat.zero_le j) hj
    have hi1 := hi.setParent (j := j) (k := initproc)
      (fun hu => by rw [hi.unused_parent j hu] at hpar; cases hpar) ⟨hinitn, hi.init_alive⟩
      (fun q pid hq hq' => by
        have := (hi.parented q j pid hq hq').symm.trans hpar
        cases this
        rw [hpc] at hq'
        cases hq')
      (fun e he hlt he' => by
        have := hi.place.exiting_init
        rw [he', Pc.exiting_of_lt_reparented hlt] at this
        cases this)
      (fun w jw hb hw hwpc _ => by
        have := hi.place.holds_unique .wait w p hw hpn (by simp [hwpc, Pc.holds]) (by simp [hpc, Pc.holds])
        subst this
        rw [hpc] at hwpc
        cases hwpc)
    -- `p`'s thread and state are as they were, whether or not `p` is its own child
    have hpc1 : ((s.upd j fun r => { r with parent := some initproc }).procs p).pc = .reparent j status ∧
        ((s.upd j fun r => { r with parent := some initproc }).procs p).state ≠ .sleeping := by
      by_cases hpj : p = j
      · subst hpj
        simp [hpc, hns]
      · simp [hpj, hpc, hns]
    refine hi1.moves hpn hpc1.2
      (MovesOnly.upd (x := .wakeup (.proc initproc) 0 (.reparent (j + 1) status)) ⟨rfl, rfl, rfl⟩)
      (holds_of_same fun l => by rw [hpc1.1]; rfl) (by simp [Pc.forks]) (by simp) (by simp) (by simp)
      (by rintro ch j' after ⟨⟩; exact ⟨rfl, fun _ _ a ha => absurd ha (Nat.not_lt_zero a)⟩) ?_
      (fun _ => hinit) (by simp)
    intro k hk
    simp only [Pc.reparented] at hk
    by_cases hkj : k = j
    · rw [hkj, PSys.upd_self]
      simpa using Ne.symm hinit
    · rw [PSys.upd_ne _ _ hkj]
      exact hrep k (by omega)
  · -- not a child
    refine hi.moves hpn hns (MovesOnly.upd (x := .reparent (j + 1) status) ⟨rfl, rfl, rfl⟩) hhold
      (by simp [Pc.forks]) (by simp) (by simp) (by simp) (by simp) ?_ (fun _ => hinit) (by simp)
    intro k hk
    simp only [Pc.reparented] at hk
    rcases Nat.lt_succ_iff_lt_or_eq.mp hk with hk | rfl
    · exact hrep k hk
    · exact hpar
  · -- the loop is over: `wakeup(p->parent)`
    exact hi.moves hpn hns (MovesOnly.upd (x := .wakeup (.proc pp) 0 (.exitSched status)) ⟨rfl, rfl, rfl⟩)
      hhold (by simp [Pc.forks]) (by simp) (by simp) (by simp)
      (by rintro ch j' after ⟨⟩; exact ⟨rfl, fun _ _ a ha => absurd ha (Nat.not_lt_zero a)⟩)
      (fun k hk => hrep k (by simp only [Pc.reparented] at hk; omega)) (fun _ => hinit) (by simp)
  · exact hi.moves hpn hns (MovesOnly.upd (x := .exitSched status) ⟨rfl, rfl, rfl⟩) hhold
      (by simp [Pc.forks]) (by simp) (by simp) (by simp) (by simp)
      (fun k hk => hrep k (by simp only [Pc.reparented] at hk; omega)) (fun _ => hinit) (by simp)

theorem ProcInv.exitSched (hi : ProcInv nproc ncpu s) (hc : s.cpus c = some p)
    (h : exitSched s c p (s.procs p) = .ok s') : ProcInv nproc ncpu s' := by
  obtain ⟨hpn, hns⟩ := hi.actor hc
  obtain ⟨status, hpc, rfl⟩ := exitSched_eq_ok h
  have hinit : p ≠ initproc := hi.exit_of_same (x := .exitSched status) (by rw [hpc]) rfl
  -- `reparent` handed every child away, and `exit` holds `wait_lock`
  have hkids : ∀ k < nproc, (s.procs k).parent ≠ some p :=
    hi.rep_of_same (x := .exitSched status) hpn (by rw [hpc])
  have hi1 := hi.toUser hpn hns (MovesOnly.upd (f := fun r => { r with pc := .user }) ⟨rfl, rfl, rfl⟩)
  rw [show (s.upd p fun r => { r with xstate := status, state := .zombie, pc := .user }) =
    (s.upd p fun r => { r with pc := .user }).upd p fun r => { r with xstate := status, state := .zombie }
    by rw [PSys.upd_upd]]
  refine hi1.bury hc hinit (fun k hk => ?_) (fun w hw => ?_) status
  · by_cases hkp : k = p
    · rw [hkp, PSys.upd_self]
      exact hkids p hpn
    · rw [PSys.upd_ne _ _ hkp]
      exact hkids k hk
  · by_cases hwp : w = p
    · simp [hwp, Pc.holds]
    · rw [PSys.upd_ne _ _ hwp]
      cases hh : (s.procs w).pc.holds .wait
      · rfl
      · exact absurd (hi.place.holds_unique .wait w p hw hpn hh (by simp [hpc, Pc.holds])) hwp

theorem ProcInv.wait (hi : ProcInv nproc ncpu s) (hc : s.cpus c = some p)
    (h : wait nproc s p (s.procs p) = .ok s') : ProcInv nproc ncpu s' := by
  obtain ⟨hpn, hns⟩ := hi.actor hc
  obtain ⟨-, hfree, rfl⟩ := wait_eq_ok h
  refine hi.moves hpn hns (MovesOnly.upd (x := .waiting 0 false) ⟨rfl, rfl, rfl⟩) ?_
    (by simp [Pc.forks]) (by simp) (by simp) (by simp) (by simp) (by simp [Pc.reparented])
    (by simp [Pc.exiting]) ?_
  · intro l hl
    simp only [Pc.holds, beq_iff_eq] at hl
    subst hl
    exact .inr hfree
  · rintro j hk ⟨⟩
    simp

theorem ProcInv.waitStep (hi : ProcInv nproc ncpu s) (hc : s.cpus c = some p) {copied : Bool}
    (h : waitStep nproc s p (s.procs p) copied = .ok s') : ProcInv nproc ncpu s' := by
  obtain ⟨hpn, hns⟩ := hi.actor hc
  have hrun := (hi.cpu.running c p hc).2.2
  obtain ⟨j, hk, hpc, ⟨hj, hpar, hz, -, rfl⟩ | ⟨-, -, -, -, rfl⟩ | ⟨hj, hpar, hz, rfl⟩ |
    ⟨hj, hpar, rfl⟩ | ⟨-, -, rfl⟩ | ⟨-, -, -, rfl⟩⟩ := waitStep_eq_ok h
  all_goals
    obtain ⟨hkids, hzs⟩ := hi.wait_scan p j hk hpn hpc
    have hhold := @holds_of_same nproc s (s.procs p) (.waiting (j + 1) true)
      (by simp [hpc, Pc.holds])
  · -- a ZOMBIE child is reclaimed and `wait` returns its pid
    have hjp : j ≠ p := by
      rintro rfl
      rw [hrun] at hz
      cases hz
    have hi1 := hi.reclaim (j := j) (by rw [hz]; rfl)
      (fun k hk' hf => by
        rw [(hi.forks_used k j hk' hf).2] at hz
        cases hz)
      (fun w jw hb hw hwpc hlt => by
        have := hi.place.holds_unique .wait w p hw hpn (by simp [hwpc, Pc.holds]) (by simp [hpc, Pc.holds])
        subst this
        rw [hpc] at hwpc
        cases hwpc
        exact absurd hlt (Nat.lt_irrefl j))
    exact hi1.toUser hpn (by rw [PSys.upd_ne _ _ (Ne.symm hjp)]; exact hns) (MovesOnly.upd ⟨rfl, rfl, rfl⟩)
  · exact hi.toUser hpn hns (MovesOnly.upd ⟨rfl, rfl, rfl⟩)
  · -- a live child
    refine hi.moves hpn hns (MovesOnly.upd ⟨rfl, rfl, rfl⟩) hhold (by simp [Pc.forks]) (by simp)
      (by simp) (by simp) (by simp) (by simp [Pc.reparented]) (by simp [Pc.exiting]) ?_
    rintro j' hk' ⟨⟩
    refine ⟨⟨fun _ => ⟨j, Nat.lt_succ_self j, hpar⟩, fun _ => rfl⟩, fun k hk' hp => ?_⟩
    rcases Nat.lt_succ_iff_lt_or_eq.mp hk' with hk' | rfl
    · exact hzs k hk' hp
    · exact hz
  · -- not a child
    refine hi.moves hpn hns (MovesOnly.upd ⟨rfl, rfl, rfl⟩)
      (holds_of_same (by simp [hpc, Pc.holds])) (by simp [Pc.forks]) (by simp)
      (by simp) (by simp) (by simp) (by simp [Pc.reparented]) (by simp [Pc.exiting]) ?_
    rintro j' hk' ⟨⟩
    -- slot `j` adds nothing to the scan
    have hlt : ∀ k, k < j + 1 → (s.procs k).parent = some p → k < j := fun k hk' hp => by
      rcases Nat.lt_succ_iff_lt_or_eq.mp hk' with hk' | rfl
      · exact hk'
      · exact absurd hp hpar
    refine ⟨hkids.trans ⟨Exists.imp fun k hk => ⟨Nat.lt_succ_of_lt hk.1, hk.2⟩,
      Exists.imp fun k hk => ⟨hlt k hk.1 hk.2, hk.2⟩⟩, fun k hk' hp => hzs k (hlt k hk' hp) hp⟩
  · exact hi.toUser hpn hns (MovesOnly.upd ⟨rfl, rfl, rfl⟩)
  · -- `sleep(p, &wait_lock)`
    refine hi.moves hpn hns (MovesOnly.upd ⟨rfl, rfl, rfl⟩) (by simp [Pc.holds]) (by simp [Pc.forks])
      (by simp) ?_ (by simp) (by simp) (by simp [Pc.reparented]) (by simp [Pc.exiting]) (by simp)
    rintro ch lk after ⟨⟩
    simp [Pc.sleepReturn, hpc, Pc.holds]

/-! ## Every reachable table -/

theorem procInit_procs (k : Nat) :
    procInit.procs k = if k = initproc then { Proc.unused with state := .runnable, pid := 1 } else Proc.unused := by
  simp [procInit, Function.update_apply]

theorem procInv_init : ProcInv nproc ncpu procInit := by
  have hpc : ∀ k, (procInit.procs k).pc = .user := fun k => by
    rw [procInit_procs]
    split <;> rfl
  have hpar : ∀ k, (procInit.procs k).parent = none := fun k => by
    rw [procInit_procs]
    split <;> rfl
  have hst : ∀ k, (procInit.procs k).state = if k = initproc then .runnable else .unused := fun k => by
    rw [procInit_procs]
    split <;> rfl
  have hcpus : ∀ c, procInit.cpus c = none := fun _ => rfl
  refine ⟨⟨?_, ?_, ?_⟩, ⟨?_, ?_, ?_, ?_, ?_, ?_⟩, ?_, ?_, ?_, ?_, ?_, ?_, ?_, ?_, ?_, ?_⟩
  all_goals simp +contextual [hpc, hpar, hst, hcpus, Pc.holds, Pc.forks, Pc.exiting, Pc.reparented, PState.alive]
  -- left: no slot is RUNNING or SLEEPING
  all_goals intro p
  all_goals split <;> simp

theorem ProcInv.next (hi : ProcInv nproc ncpu s) {e : PEv} (h : procNext nproc ncpu s e = .ok s') :
    ProcInv nproc ncpu s' := by
  cases e <;> simp only [procNext] at h
  case scheduler => exact hi.scheduler h
  -- every other section runs on the process `c->proc` of its CPU
  all_goals obtain ⟨p, hc, h⟩ := PSys.onCpu_eq_ok h
  case yield => exact hi.yield hc h
  case acquire => exact hi.acquire hc h
  case relock => exact hi.relock hc h
  case release => exact hi.release hc h
  case sleep => exact hi.sleep hc h
  case sleepSched => exact hi.sleepSched hc h
  case wakeup => exact hi.wakeup hc h
  case wakeStep => exact hi.wakeStep hc h
  case kill => exact hi.kill hc h
  case fork => exact hi.fork hc h
  case forkFull => exact hi.forkFull hc h
  case forkParent => exact hi.forkParent hc h
  case forkRun => exact hi.forkRun hc h
  case exit => exact hi.exit hc h
  case reparent => exact hi.reparent hc h
  case exitSched => exact hi.exitSched hc h
  case wait => exact hi.wait hc h
  case waitStep => exact hi.waitStep hc h

theorem procInv_reachable (hs : Reachable (procSys nproc ncpu) s) : ProcInv nproc ncpu s :=
  Reachable.induct _ procInv_init (fun _ _ _ hi h => hi.next h) hs

end Xv6.Procs
