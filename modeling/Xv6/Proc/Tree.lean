import Xv6.Proc.Frame

/-!
# The process tree

`wait_lock` guards the parent pointers: `fork` sets `np->parent`, `exit` hands its children to
`initproc` in `reparent`, and `wait` frees a ZOMBIE child.

* `Unparented` : until `fork` sets `np->parent`, the slot it made has no parent; it holds of every
  reachable table (`unparented_reachable`);
* `ProcInv.parent_live`, `ProcInv.zombie_childless` : a process other than `initproc` that has left
  `fork` has a parent in use, and a ZOMBIE has no children;
* `procNext_parent` : a section takes a child from its parent only in the parent's `reparent`, which
  gives it to `initproc`, or by freeing it;
* `procNext_reclaim` : a ZOMBIE slot is freed only by the `wait` of its parent, which returns its pid;
* `waitStep_fails` : a `wait` that returns `-1` frees nothing, and its caller had no children, or was
  killed and had no ZOMBIE child, or could not copy out the status of a ZOMBIE child, which stays;
* `proc_tree` : all of these in every reachable table.
-/

namespace Xv6.Procs
open Trans

/-- Until `fork` sets `np->parent`, the slot `allocproc` made has none (`freeproc` left it 0). -/
def Unparented (nproc : Nat) (s : PSys) : Prop :=
  ∀ p np pid, p < nproc → (s.procs p).pc = .forked np pid → (s.procs np).parent = none

variable {nproc ncpu : Nat} {s s' : PSys} {e : PEv}

theorem unparented_init : Unparented nproc procInit := by
  intro p np pid _ h
  rw [procInit_procs] at h
  split at h <;> cases h

theorem Unparented.next (hi : ProcInv nproc ncpu s) (ho : Unparented nproc s)
    (h : procNext nproc ncpu s e = .ok s') : Unparented nproc s' := by
  intro k np pid hk hpc
  cases procNext_effect hi h with
  | quiet hq =>
    rw [hq.parent]
    exact ho k np pid hk (hq.forks k np pid hpc)
  | restate _ _ _ _ hpar hf =>
    rw [hpar]
    exact ho k np pid hk (hf k np pid hpc)
  | alloc _ p _ _ _ _ hu _ _ hpar hpc' hf =>
    rw [hpar]
    by_cases hkp : k = p
    · -- the slot `allocproc` just made
      subst hkp
      rw [hpc', Pc.forked.injEq] at hpc
      obtain ⟨rfl, -⟩ := hpc
      exact hi.unused_parent _ hu
    · exact ho k np pid hk (by rw [← hf k hkp]; exact hpc)
  | adopt c p np' _ _ hc hpc0 _ hpar _ hpc' hf =>
    by_cases hkp : k = p
    · subst hkp
      rw [hpc'] at hpc
      cases hpc
    · have hold : (s.procs k).pc = .forked np pid := by rw [← hf k hkp]; exact hpc
      -- another `fork` made another slot
      have hnp : np ≠ np' := by
        rintro rfl
        exact hkp (hi.place.forks_unique k p np hk (hi.cpu.running c p hc).2.1 (by simp [hold, Pc.forks])
          (by simp [hpc0, Pc.forks]))
      rw [hpar np hnp]
      exact ho k np pid hk hold
  | handoff _ _ j _ _ hj _ hpar _ hf =>
    have hnone := ho k np pid hk (hf k np pid hpc)
    have hnj : np ≠ j := by
      rintro rfl
      rw [hnone] at hj
      cases hj
    rw [hpar np hnj]
    exact hnone
  | reclaim _ _ j _ _ _ _ _ _ hfree _ _ hpar hf =>
    by_cases hnj : np = j
    · subst hnj
      rw [hfree]
      rfl
    · rw [hpar np hnj]
      exact ho k np pid hk (hf k np pid hpc)

theorem unparented_reachable (hs : Reachable (procSys nproc ncpu) s) : Unparented nproc s :=
  (Reachable.induct _ (P := fun s => ProcInv nproc ncpu s ∧ Unparented nproc s) ⟨procInv_init, unparented_init⟩
    (fun _ _ _ hp h => ⟨hp.1.next h, hp.2.next hp.1 h⟩) hs).2

/-! ## Parents -/

/-- A process other than `initproc` that has left `fork` has a parent in use. -/
theorem ProcInv.parent_live (hi : ProcInv nproc ncpu s) {j : Nat} (hj : j < nproc) (hji : j ≠ initproc)
    (h1 : (s.procs j).state ≠ .unused) (h2 : (s.procs j).state ≠ .used) :
    ∃ k, (s.procs j).parent = some k ∧ k < nproc ∧ (s.procs k).state ≠ .unused := by
  obtain ⟨k, hk⟩ := Option.ne_none_iff_exists'.mp (hi.has_parent j hj hji h1 h2)
  obtain ⟨hkn, halive⟩ := hi.parent_alive j k hj hk
  refine ⟨k, hk, hkn, fun hu => ?_⟩
  rw [hu] at halive
  cases halive

theorem ProcInv.zombie_childless (hi : ProcInv nproc ncpu s) {p : Nat} (hz : (s.procs p).state = .zombie) :
    ∀ k < nproc, (s.procs k).parent ≠ some p := by
  intro k hk hpar
  have halive := (hi.parent_alive k p hk hpar).2
  rw [hz] at halive
  cases halive

/-- A child leaves its parent `p` only in `p`'s `reparent`, for `initproc`, or when it is freed. -/
theorem procNext_parent (hi : ProcInv nproc ncpu s) (ho : Unparented nproc s) (h : procNext nproc ncpu s e = .ok s')
    {k p : Nat} (hk : (s.procs k).parent = some p) (hne : (s'.procs k).parent ≠ some p) :
    ((s'.procs k).parent = some initproc ∧ ∃ c, e = .reparent c ∧ s.cpus c = some p) ∨
      ((s'.procs k).state = .unused ∧ (s'.procs k).parent = none) := by
  cases procNext_effect hi h with
  | quiet hq => exact absurd (by rw [hq.parent, hk]) hne
  | restate _ _ _ _ hpar => exact absurd (by rw [hpar, hk]) hne
  | alloc _ _ _ _ _ _ _ _ _ hpar => exact absurd (by rw [hpar, hk]) hne
  | adopt c q np pid _ hc hpc _ hpar =>
    by_cases hkn : k = np
    · -- the slot `fork` adopts had no parent
      subst hkn
      rw [ho q k pid (hi.cpu.running c q hc).2.1 hpc] at hk
      cases hk
    · exact absurd (by rw [hpar k hkn, hk]) hne
  | handoff c q j he hc hj hnew hpar =>
    by_cases hkj : k = j
    · subst hkj
      rw [hj, Option.some.injEq] at hk
      subst hk
      exact .inl ⟨hnew, c, he, hc⟩
    · exact absurd (by rw [hpar k hkj, hk]) hne
  | reclaim _ _ j _ _ _ _ _ _ hfree _ _ hpar =>
    by_cases hkj : k = j
    · subst hkj
      rw [hfree]
      exact .inr ⟨rfl, rfl⟩
    · exact absurd (by rw [hpar k hkj, hk]) hne

/-! ## `wait` -/

/-- A ZOMBIE slot is freed only by the `wait` of its parent, which returns the child's pid. -/
theorem procNext_reclaim (hi : ProcInv nproc ncpu s) (h : procNext nproc ncpu s e = .ok s') {j : Nat}
    (hz : (s.procs j).state = .zombie) (hu : (s'.procs j).state = .unused) :
    ∃ c p hk, e = .waitStep c true ∧ s.cpus c = some p ∧ (s.procs p).pc = .waiting j hk ∧
      (s.procs j).parent = some p ∧ (s'.procs p).pc = .user ∧ (s'.procs p).ret = (s.procs j).pid.toInt := by
  -- a section that keeps the slot's state does not free it
  have hkept : (s'.procs j).state = (s.procs j).state → False := fun hst => by
    rw [hst, hz] at hu
    cases hu
  cases procNext_effect hi h with
  | quiet hq => exact (hkept (hq.state j)).elim
  | restate j' _ hused hst =>
    by_cases hj : j = j'
    · subst hj
      exact absurd hu hused
    · exact (hkept (hst j hj)).elim
  | alloc _ _ np _ _ _ _ hnp hst =>
    by_cases hj : j = np
    · subst hj
      rw [hnp] at hu
      cases hu
    · exact (hkept (hst j hj)).elim
  | adopt _ _ _ _ _ _ _ _ _ hst => exact (hkept (hst j)).elim
  | handoff _ _ _ _ _ _ _ _ hst => exact (hkept (hst j)).elim
  | reclaim c p j' hk he hc hpc hj' _ _ hret hst =>
    by_cases hj : j = j'
    · subst hj
      exact ⟨c, p, hk, he, hc, hpc, hj', hret⟩
    · exact (hkept (hst j hj)).elim

/-- A `wait` that returns `-1` and frees no slot changes no other slot; its caller had no
children, or was killed and had no ZOMBIE child, or could not copy out the status of a ZOMBIE child,
which is still its child. (A `wait` that frees a child whose pid is `-1` also returns `-1`.) -/
theorem waitStep_fails (hi : ProcInv nproc ncpu s) {c p : Nat} {copied : Bool} (hc : s.cpus c = some p)
    (h : procNext nproc ncpu s (.waitStep c copied) = .ok s') (hpc : (s'.procs p).pc = .user)
    (hret : (s'.procs p).ret = -1) (hkept : ∀ k, (s'.procs k).state = .unused → (s.procs k).state = .unused) :
    (∀ k, k ≠ p → s'.procs k = s.procs k) ∧
      ((∀ k < nproc, (s.procs k).parent ≠ some p) ∨
        ((s.procs p).killed = true ∧ ∀ k < nproc, (s.procs k).parent = some p → (s.procs k).state ≠ .zombie) ∨
        (copied = false ∧ ∃ j < nproc, (s'.procs j).parent = some p ∧ (s'.procs j).state = .zombie)) := by
  simp only [procNext] at h
  obtain ⟨p', hc', h⟩ := PSys.onCpu_eq_ok h
  rw [hc, Option.some.injEq] at hc'
  subst hc'
  obtain ⟨hpn, -⟩ := hi.actor hc
  have hrun := (hi.cpu.running c p hc).2.2
  obtain ⟨j, hk, hpcw, hcase⟩ := waitStep_eq_ok h
  -- what the scan saw before slot `j`
  obtain ⟨hkids, hzs⟩ := hi.wait_scan p j hk hpn hpcw
  have hother : ∀ {f : Proc → Proc}, ∀ k, k ≠ p → (s.upd p f).procs k = s.procs k :=
    fun k hkp => PSys.upd_ne _ _ hkp
  rcases hcase with ⟨-, -, hz, -, rfl⟩ | ⟨hj, hpar, hz, rfl, rfl⟩ | ⟨-, -, -, rfl⟩ | ⟨-, -, rfl⟩ |
    ⟨hj, hend, rfl⟩ | ⟨-, -, -, rfl⟩
  · -- a reclaim frees the ZOMBIE child, which is not the caller
    have hjp : j ≠ p := by
      rintro rfl
      rw [hrun] at hz
      cases hz
    have hu := hkept j (by rw [PSys.upd_ne _ _ hjp, PSys.upd_self]; rfl)
    rw [hz] at hu
    cases hu
  · -- the `copyout` failed; the ZOMBIE child stays
    have hjp : j ≠ p := by
      rintro rfl
      rw [hrun] at hz
      cases hz
    exact ⟨hother, .inr (.inr ⟨rfl, j, hj, by rw [hother j hjp, hpar], by rw [hother j hjp, hz]⟩)⟩
  · simp at hpc
  · simp at hpc
  · refine ⟨hother, ?_⟩
    rcases hend with rfl | hkill
    · exact .inl fun k hkn hpar => by
        have := hkids.mpr ⟨k, Nat.lt_of_lt_of_le hkn hj, hpar⟩
        cases this
    · exact .inr (.inl ⟨hkill, fun k hkn hpar => hzs k (Nat.lt_of_lt_of_le hkn hj) hpar⟩)
  · simp at hpc

/-! ## Every reachable table -/

theorem proc_tree (hs : Reachable (procSys nproc ncpu) s) :
    (∀ j < nproc, j ≠ initproc → (s.procs j).state ≠ .unused → (s.procs j).state ≠ .used →
      ∃ k, (s.procs j).parent = some k ∧ k < nproc ∧ (s.procs k).state ≠ .unused) ∧
    (∀ p, (s.procs p).state = .zombie → ∀ k < nproc, (s.procs k).parent ≠ some p) ∧
    (∀ e s', procNext nproc ncpu s e = .ok s' → ∀ k p, (s.procs k).parent = some p →
      (s'.procs k).parent ≠ some p →
      ((s'.procs k).parent = some initproc ∧ ∃ c, e = .reparent c ∧ s.cpus c = some p) ∨
        ((s'.procs k).state = .unused ∧ (s'.procs k).parent = none)) ∧
    (∀ e s' j, procNext nproc ncpu s e = .ok s' → (s.procs j).state = .zombie → (s'.procs j).state = .unused →
      ∃ c p hk, e = .waitStep c true ∧ s.cpus c = some p ∧ (s.procs p).pc = .waiting j hk ∧
        (s.procs j).parent = some p ∧ (s'.procs p).pc = .user ∧ (s'.procs p).ret = (s.procs j).pid.toInt) ∧
    (∀ c p copied s', s.cpus c = some p → procNext nproc ncpu s (.waitStep c copied) = .ok s' →
      (s'.procs p).pc = .user → (s'.procs p).ret = -1 →
      (∀ k, (s'.procs k).state = .unused → (s.procs k).state = .unused) →
      (∀ k, k ≠ p → s'.procs k = s.procs k) ∧
        ((∀ k < nproc, (s.procs k).parent ≠ some p) ∨
          ((s.procs p).killed = true ∧ ∀ k < nproc, (s.procs k).parent = some p → (s.procs k).state ≠ .zombie) ∨
          (copied = false ∧ ∃ j < nproc, (s'.procs j).parent = some p ∧ (s'.procs j).state = .zombie))) := by
  have hi := procInv_reachable hs
  have ho := unparented_reachable hs
  refine ⟨fun j hj hji h1 h2 => hi.parent_live hj hji h1 h2, fun p hz => hi.zombie_childless hz,
    fun e s' h k p hk hne => procNext_parent hi ho h hk hne, fun e s' j h hz hu => procNext_reclaim hi h hz hu,
    fun c p copied s' hc h hpc hret hkept => waitStep_fails hi hc h hpc hret hkept⟩

/-- `initproc` forks slot 1, which runs, exits, hands its (no) children over and wakes its parent;
`initproc` then waits, and its scan has passed slot 0. -/
def exitWaitTrace : List PEv :=
  [.scheduler 0 0, .fork 0 1 true, .forkParent 0, .forkRun 0, .yield 0, .scheduler 0 1, .exit 0 0,
    .reparent 0, .reparent 0, .reparent 0, .wakeStep 0, .wakeStep 0, .wakeStep 0, .exitSched 0,
    .scheduler 0 0, .wait 0, .waitStep 0 true]

/-- The next turn of `initproc`'s scan frees the ZOMBIE child, and `wait` returns its pid, 2. -/
theorem exitWaitTrace_reclaims :
    ∃ s s', Reachable (procSys 2 1) s ∧ procNext 2 1 s (.waitStep 0 true) = .ok s' ∧
      (s.procs 1).state = .zombie ∧ (s'.procs 1).state = .unused ∧ (s'.procs 0).ret = 2 := by
  have hrun : (run (procSys 2 1) (procSys 2 1).init exitWaitTrace).holds (fun s =>
      s.cpus 0 == some 0 && (s.procs 1).state == .zombie && (s.procs 1).pid == 2 &&
        (procNext 2 1 s (.waitStep 0 true)).holds fun s' => (s'.procs 1).state == .unused) = true := by
    decide +kernel
  obtain ⟨s, hs, hp⟩ := Reachable.run_holds _ .init hrun
  simp only [Bool.and_eq_true, beq_iff_eq] at hp
  obtain ⟨⟨⟨hc, hz⟩, hpid⟩, hnext⟩ := hp
  cases hstep : procNext 2 1 s (.waitStep 0 true) with
  | ok s' =>
    rw [hstep] at hnext
    have hu : (s'.procs 1).state = .unused := by simpa [Outcome.holds] using hnext
    obtain ⟨c, p, -, he, hc', -, -, -, hret⟩ := (proc_tree hs).2.2.2.1 _ s' 1 hstep hz hu
    -- the `wait` is the one on CPU 0, run by `initproc`
    rw [PEv.waitStep.injEq] at he
    obtain ⟨rfl, -⟩ := he
    rw [hc, Option.some.injEq] at hc'
    subst hc'
    exact ⟨s, s', hs, hstep, hz, hu, by rw [hret, hpid]; rfl⟩
  | blocked =>
    rw [hstep] at hnext
    cases hnext
  | panic m =>
    rw [hstep] at hnext
    cases hnext

end Xv6.Procs
