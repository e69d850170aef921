import Mathlib
import Xv6.Lib.Trans

/-!
# Interrupt nesting on one CPU (`spinlock.c`: `push_off`, `pop_off`; `proc.c`: `sched`)

`push_off` counts in `mycpu()->noff` the `push_off`s not yet undone, and keeps in
`mycpu()->intena` whether interrupts were on before the first; each `acquire`, `release` and
`myproc` is one of them. The kernel threads that share the CPU, its scheduler and the kernel thread
of each process, hand each other `p->lock`: the scheduler takes it before its `swtch` to a process,
which releases it (in `forkret`, or after its `sched`), and a process takes it before its `sched`,
after which the scheduler releases it. Counting that lock in both threads' nests, each thread's
`push_off`s and `pop_off`s are matched. `intena` belongs to the thread but lives in the CPU:
`sched` keeps it in a local across its `swtch`, and the scheduler keeps it nowhere.

The state has, as ghosts that only the guards of the threads' steps read, each thread's nesting
depth and whether interrupts were on before the `push_off` that opened its nest.

* `Cpu`, `IntrEv`, `intrNext`, `intrSys` : the CPU and the steps of the thread running on it;
* `NestInv` : what holds in every reachable state (`nestInv_reachable`);
* `intr_nesting` : `noff` is the running thread's depth, `pop_off` never panics, and a process's
  outermost `pop_off` puts interrupts back as they were before its outermost `push_off`;
* `scheduler_pop_off_keeps_off` : the scheduler's outermost `pop_off` does not.
-/

namespace Xv6.Intr

open Trans

/-- A kernel thread: the CPU's scheduler, or the kernel thread of process `p`. -/
inductive Thread where
  | scheduler
  | proc (p : Nat)
  deriving DecidableEq, Repr

/-- The CPU: `intr_get()`, `noff`, `intena` and the thread running, and for each process that is
not running the `intena` its `sched` keeps, or `none` when it has not run yet. As ghosts: each
thread's nesting depth, and whether interrupts were on before the `push_off` that opened its nest
(`none` for a nest another thread opened). -/
structure Cpu where
  intr : Bool
  noff : Nat
  intena : Bool
  cur : Thread
  saved : Nat → Option Bool
  depth : Thread → Nat
  before : Thread → Option Bool

/-- A step of the running thread. `pushOff` and `popOff` are those of `acquire`, `release` and
`myproc`; `intrOn` is `intr_on()`, or a return from a trap to code that runs with interrupts on, and
`intrOff` is `intr_off()` or a trap taken; `sched` is the running process's `sched()`, and `swtch p`
the scheduler's `swtch` to process `p`. -/
inductive IntrEv where
  | pushOff
  | popOff
  | intrOn
  | intrOff
  | sched
  | swtch (p : Nat)
  deriving DecidableEq, Repr

/-- `push_off()` -/
def pushOff (s : Cpu) : Cpu :=
  let old := s.intr
  { s with
    intr := false
    intena := if s.noff = 0 then old else s.intena
    noff := s.noff + 1
    depth := Function.update s.depth s.cur (s.depth s.cur + 1)
    before := if s.depth s.cur = 0 then Function.update s.before s.cur (some old) else s.before }

/-- `pop_off()` -/
def popOff (s : Cpu) : Outcome Cpu :=
  if s.intr then .panic "pop_off - interruptible"
  else if s.noff < 1 then .panic "pop_off"
  else .ok { s with
    noff := s.noff - 1
    intr := if s.noff - 1 = 0 ∧ s.intena = true then true else s.intr
    depth := Function.update s.depth s.cur (s.depth s.cur - 1) }

/-- `sched()` by process `p`: its checks of the CPU, then `intena = mycpu()->intena` and the `swtch`
to the scheduler, which goes on after its own `swtch`. (`sched`'s checks of `p->lock` and
`p->state` read the process table, which is not here.) -/
def sched (s : Cpu) (p : Nat) : Outcome Cpu :=
  if s.noff ≠ 1 then .panic "sched locks"
  else if s.intr then .panic "sched interruptible"
  else .ok { s with saved := Function.update s.saved p (some s.intena), cur := .scheduler }

/-- The scheduler's `swtch` to process `p`, which goes on after the `swtch` in its `sched`, at
`mycpu()->intena = intena`, or in `forkret` when it has not run yet. -/
def swtchTo (s : Cpu) (p : Nat) : Cpu :=
  { s with cur := .proc p, intena := (s.saved p).getD s.intena, saved := Function.update s.saved p none }

/-- A step. A thread pops only what its nest holds; `intr_on` runs where no `push_off` is open; and
the scheduler switches holding the `p->lock` it took and nothing else. -/
def intrNext (s : Cpu) : IntrEv → Outcome Cpu
  | .pushOff => .ok (pushOff s)
  | .popOff => if s.depth s.cur = 0 then .blocked else popOff s
  | .intrOn => if s.depth s.cur = 0 then .ok { s with intr := true } else .blocked
  | .intrOff => .ok { s with intr := false }
  | .sched =>
    match s.cur with
    | .proc p => sched s p
    | .scheduler => .blocked
  | .swtch p => if s.cur = .scheduler ∧ s.depth .scheduler = 1 then .ok (swtchTo s p) else .blocked

/-- The CPU as `main` leaves it to `scheduler()`: interrupts off and no `push_off` open. A process
that has not run holds, in its nest, the `p->lock` the scheduler will hand it. -/
def cpuInit : Cpu where
  intr := false
  noff := 0
  intena := false
  cur := .scheduler
  saved := fun _ => none
  depth := fun t => if t = .scheduler then 0 else 1
  before := fun _ => none

def intrSys : System Cpu IntrEv := ⟨cpuInit, intrNext⟩

/-! ## What each step does -/

variable {s s' : Cpu}

theorem pushOff_depth_of_ne {t : Thread} (h : t ≠ s.cur) : (pushOff s).depth t = s.depth t :=
  Function.update_of_ne h _ _

theorem pushOff_before_of_ne {t : Thread} (h : t ≠ s.cur) : (pushOff s).before t = s.before t := by
  unfold pushOff
  split_ifs <;> simp [Function.update_of_ne h]

theorem pushOff_before_cur :
    (pushOff s).before s.cur = if s.depth s.cur = 0 then some s.intr else s.before s.cur := by
  unfold pushOff
  split_ifs <;> simp

/-- `pop_off` inside a nest: the count goes down, and interrupts come back on at the end of the
`CPU`'s nest when they were on before it. -/
def popped (s : Cpu) : Cpu :=
  { s with
    noff := s.noff - 1
    intr := if s.noff - 1 = 0 ∧ s.intena = true then true else s.intr
    depth := Function.update s.depth s.cur (s.depth s.cur - 1) }

theorem popOff_eq (h1 : s.intr = false) (h2 : 1 ≤ s.noff) : popOff s = .ok (popped s) := by
  rw [popOff, if_neg (by rw [h1]; decide), if_neg (by omega)]
  rfl

theorem sched_eq_ok {p : Nat} (h : sched s p = .ok s') :
    s.noff = 1 ∧ s.intr = false ∧ s' = { s with saved := Function.update s.saved p (some s.intena), cur := .scheduler } := by
  unfold sched at h
  split_ifs at h with h1 h2
  cases h
  exact ⟨not_not.mp h1, by simpa using h2, rfl⟩

/-! ## The invariant -/

/-- What holds in every reachable state. -/
structure NestInv (s : Cpu) : Prop where
  /-- `noff` counts the running thread's nest. -/
  noff_eq : s.noff = s.depth s.cur
  /-- Interrupts are off inside a nest. -/
  intr_off : 0 < s.depth s.cur → s.intr = false
  /-- A thread that is not running stands in a `swtch`, or has not run, with `p->lock` in its nest. -/
  parked : ∀ t, t ≠ s.cur → s.depth t = 1
  /-- A running process has no `intena` kept in a `sched`. -/
  running_saved : ∀ p, s.cur = .proc p → s.saved p = none
  /-- A process's `sched` kept what was on before its outermost `push_off`. -/
  saved_eq : ∀ p v b, s.saved p = some v → s.before (.proc p) = some b → v = b
  /-- A process that has not run has opened no nest. -/
  fresh : ∀ p, s.cur ≠ .proc p → s.saved p = none → s.before (.proc p) = none
  /-- Inside a running process's own nest, `intena` is what was on before it. -/
  intena_eq : ∀ p b, s.cur = .proc p → 0 < s.depth (.proc p) → s.before (.proc p) = some b → s.intena = b

theorem nestInv_init : NestInv cpuInit where
  noff_eq := rfl
  intr_off := fun _ => rfl
  parked := fun t ht => if_neg ht
  running_saved := fun _ h => by cases h
  saved_eq := fun _ _ _ h => by cases h
  fresh := fun _ _ _ => rfl
  intena_eq := fun _ _ h => by cases h

namespace NestInv

theorem pushOff (hi : NestInv s) : NestInv (pushOff s) where
  noff_eq := by simp [Intr.pushOff, hi.noff_eq]
  intr_off := fun _ => rfl
  parked := fun t ht => (pushOff_depth_of_ne (s := s) ht).trans (hi.parked t ht)
  running_saved := hi.running_saved
  saved_eq := fun p v b hv hb => by
    change s.saved p = some v at hv
    -- the running thread, whose `before` may change, keeps nothing in a `sched`
    have hne : Thread.proc p ≠ s.cur := fun h => by
      rw [hi.running_saved p h.symm] at hv
      cases hv
    exact hi.saved_eq p v b hv (by rwa [pushOff_before_of_ne hne] at hb)
  fresh := fun p hp hs => (pushOff_before_of_ne (s := s) (Ne.symm hp)).trans (hi.fresh p hp hs)
  intena_eq := fun p b hp _ hb => by
    change s.cur = .proc p at hp
    rw [← hp, pushOff_before_cur] at hb
    simp only [Intr.pushOff, hi.noff_eq]
    split_ifs at hb ⊢ with h0
    · exact Option.some.inj hb
    · exact hi.intena_eq p b hp (by rw [← hp]; omega) (by rw [← hp]; exact hb)

theorem popped (hi : NestInv s) (h : 0 < s.depth s.cur) : NestInv (popped s) where
  noff_eq := by simp [Intr.popped, hi.noff_eq]
  intr_off := fun hd => by
    -- interrupts come back on only where the nest ends
    simp only [Intr.popped, Function.update_self] at hd ⊢
    rw [if_neg (by rw [hi.noff_eq]; omega), hi.intr_off h]
  parked := fun t ht => (Function.update_of_ne ht _ _).trans (hi.parked t ht)
  running_saved := hi.running_saved
  saved_eq := hi.saved_eq
  fresh := hi.fresh
  intena_eq := fun p b hp hd hb => by
    change s.cur = .proc p at hp
    have hd' : 0 < s.depth (.proc p) := by
      rw [← hp]
      exact h
    exact hi.intena_eq p b hp hd' hb

theorem intrOn (hi : NestInv s) (h : s.depth s.cur = 0) : NestInv { s with intr := true } where
  noff_eq := hi.noff_eq
  intr_off := fun hd => absurd h (Nat.pos_iff_ne_zero.mp hd)
  parked := hi.parked
  running_saved := hi.running_saved
  saved_eq := hi.saved_eq
  fresh := hi.fresh
  intena_eq := hi.intena_eq

theorem intrOff (hi : NestInv s) : NestInv { s with intr := false } where
  noff_eq := hi.noff_eq
  intr_off := fun _ => rfl
  parked := hi.parked
  running_saved := hi.running_saved
  saved_eq := hi.saved_eq
  fresh := hi.fresh
  intena_eq := hi.intena_eq

/-- `sched` from the process's one lock: the scheduler goes on at the depth it switched at, and the
process's `intena` is kept. -/
theorem sched (hi : NestInv s) {p : Nat} (hp : s.cur = .proc p) (h1 : s.noff = 1) (hintr : s.intr = false) :
    NestInv { s with saved := Function.update s.saved p (some s.intena), cur := .scheduler } where
  noff_eq := by
    rw [h1]
    exact (hi.parked .scheduler (by rw [hp]; exact Thread.noConfusion)).symm
  intr_off := fun _ => hintr
  parked := fun t ht => by
    by_cases htp : t = .proc p
    · rw [htp, ← hp, ← hi.noff_eq, h1]
    · exact hi.parked t (by rw [hp]; exact htp)
  running_saved := fun _ h => by cases h
  saved_eq := fun q v b hv hb => by
    change Function.update s.saved p (some s.intena) q = some v at hv
    by_cases hq : q = p
    · subst hq
      rw [Function.update_self, Option.some.injEq] at hv
      rw [← hv]
      exact hi.intena_eq q b hp (by rw [← hp, ← hi.noff_eq, h1]; exact Nat.one_pos) hb
    · rw [Function.update_of_ne hq] at hv
      exact hi.saved_eq q v b hv hb
  fresh := fun q _ hs => by
    change Function.update s.saved p (some s.intena) q = none at hs
    have hq : q ≠ p := fun h => by
      subst h
      simp at hs
    rw [Function.update_of_ne hq] at hs
    exact hi.fresh q (by rw [hp]; exact fun h => hq (Thread.proc.inj h).symm) hs
  intena_eq := fun _ _ h => by cases h

/-- The scheduler's `swtch` from the `p->lock` it took: the process goes on at depth one, with the
`intena` its `sched` kept, or, never run, with no nest of its own. -/
theorem swtchTo (hi : NestInv s) {p : Nat} (hcur : s.cur = .scheduler) (h1 : s.depth .scheduler = 1) :
    NestInv (swtchTo s p) where
  noff_eq := by
    change s.noff = s.depth (.proc p)
    rw [hi.noff_eq, hcur, h1, hi.parked _ (by rw [hcur]; exact Thread.noConfusion)]
  intr_off := fun _ => hi.intr_off (by rw [hcur, h1]; exact Nat.one_pos)
  parked := fun t ht => by
    by_cases hts : t = .scheduler
    · rw [hts]
      exact h1
    · exact hi.parked t (by rw [hcur]; exact hts)
  running_saved := fun q hq => by
    cases hq
    exact Function.update_self _ _ _
  saved_eq := fun q v b hv hb => by
    change Function.update s.saved p none q = some v at hv
    by_cases hq : q = p
    · subst hq
      simp at hv
    · rw [Function.update_of_ne hq] at hv
      exact hi.saved_eq q v b hv hb
  fresh := fun q hq hs => by
    change Function.update s.saved p none q = none at hs
    have hqp : q ≠ p := fun h => hq (by rw [h]; rfl)
    rw [Function.update_of_ne hqp] at hs
    exact hi.fresh q (by rw [hcur]; exact Thread.noConfusion) hs
  intena_eq := fun q b hq _ hb => by
    have hpq : p = q := Thread.proc.inj hq
    subst hpq
    change (s.saved p).getD s.intena = b
    change s.before (.proc p) = some b at hb
    -- a process that ran gets back what its `sched` kept; one that has not run has no nest of its own
    cases hv : s.saved p with
    | none =>
      rw [hi.fresh p (by rw [hcur]; exact Thread.noConfusion) hv] at hb
      cases hb
    | some v => exact hi.saved_eq p v b hv hb

/-- Inside a nest interrupts are off and `noff` is its depth, so neither check of `pop_off` fires. -/
theorem intrNext_popOff (hi : NestInv s) (h0 : s.depth s.cur ≠ 0) : intrNext s .popOff = .ok (Intr.popped s) := by
  have hd : 0 < s.depth s.cur := Nat.pos_of_ne_zero h0
  rw [intrNext, if_neg h0, popOff_eq (hi.intr_off hd) (by rw [hi.noff_eq]; exact hd)]

end NestInv

theorem NestInv.next (hi : NestInv s) {e : IntrEv} (h : intrNext s e = .ok s') : NestInv s' := by
  cases e with
  | pushOff =>
    cases h
    exact hi.pushOff
  | popOff =>
    by_cases h0 : s.depth s.cur = 0
    · simp [intrNext, h0] at h
    · rw [hi.intrNext_popOff h0] at h
      cases h
      exact hi.popped (Nat.pos_of_ne_zero h0)
  | intrOn =>
    simp only [intrNext] at h
    split_ifs at h with h0
    cases h
    exact hi.intrOn h0
  | intrOff =>
    cases h
    exact hi.intrOff
  | sched =>
    simp only [intrNext] at h
    split at h
    · rename_i p hp
      obtain ⟨h1, hintr, rfl⟩ := sched_eq_ok h
      exact hi.sched hp h1 hintr
    · cases h
  | swtch p =>
    simp only [intrNext] at h
    split_ifs at h with hsw
    cases h
    exact hi.swtchTo hsw.1 hsw.2

theorem nestInv_reachable {s : Cpu} (hs : Reachable intrSys s) : NestInv s :=
  Reachable.induct intrSys nestInv_init (fun _ _ _ hi h => hi.next h) hs

/-! ## Nesting -/

/-- In every reachable state `noff` is the running thread's depth and `pop_off` does not panic, and
the outermost `pop_off` of a nest a process opened puts interrupts back as they were before it. -/
theorem intr_nesting {s : Cpu} (hs : Reachable intrSys s) :
    s.noff = s.depth s.cur ∧ (∀ m, intrNext s .popOff ≠ .panic m) ∧
      ∀ p b s', s.cur = .proc p → s.depth (.proc p) = 1 → s.before (.proc p) = some b →
        intrNext s .popOff = .ok s' → s'.intr = b := by
  have hi := nestInv_reachable hs
  refine ⟨hi.noff_eq, fun m h => ?_, fun p b s' hp h1 hb h => ?_⟩
  · -- a thread pops only inside its nest
    by_cases h0 : s.depth s.cur = 0
    · simp [intrNext, h0] at h
    · rw [hi.intrNext_popOff h0] at h
      cases h
  · have h0 : s.depth s.cur ≠ 0 := by rw [hp, h1]; exact Nat.one_ne_zero
    rw [hi.intrNext_popOff h0] at h
    cases h
    -- the nest ends here, and `intena` is what was on before the process opened it
    have hn : s.noff = 1 := by rw [hi.noff_eq, hp, h1]
    have he : s.intena = b := hi.intena_eq p b hp (by rw [h1]; exact Nat.one_pos) hb
    have hoff : s.intr = false := hi.intr_off (Nat.pos_of_ne_zero h0)
    simp only [Intr.popped, hn, he, hoff]
    cases b <;> rfl

/-- Process 1, switched to by the scheduler and back in its first nest after `forkret`, with
interrupts on when it opened it. -/
theorem intr_nesting_proc :
    ∃ s, Reachable intrSys s ∧ s.cur = .proc 1 ∧ s.depth (.proc 1) = 1 ∧ s.before (.proc 1) = some true ∧
      s.noff = s.depth s.cur ∧ (∀ m, intrNext s .popOff ≠ .panic m) ∧
      ∀ p b s', s.cur = .proc p → s.depth (.proc p) = 1 → s.before (.proc p) = some b →
        intrNext s .popOff = .ok s' → s'.intr = b := by
  have hrun : (run intrSys cpuInit [.intrOn, .pushOff, .swtch 1, .popOff, .intrOn, .pushOff]).holds
      (fun s => s.cur == .proc 1 && s.depth (.proc 1) == 1 && s.before (.proc 1) == some true) = true := by
    decide +kernel
  obtain ⟨s, hs, hp⟩ := Reachable.run_holds _ .init hrun
  simp only [Bool.and_eq_true, beq_iff_eq] at hp
  obtain ⟨⟨hcur, hd⟩, hb⟩ := hp
  exact ⟨s, hs, hcur, hd, hb, intr_nesting hs⟩

/-- The scheduler turns interrupts on, takes process 1's lock and switches to it; the process
releases the lock in `forkret`, traps with interrupts off and takes its lock again to `yield`. -/
def schedulerTrace : List IntrEv := [.intrOn, .pushOff, .swtch 1, .popOff, .intrOff, .pushOff, .sched]

/-- After that trace the scheduler is back in the nest it opened with interrupts on, and its
outermost `pop_off` leaves them off: the `intena` it finds is the one the process saved. -/
theorem scheduler_pop_off_keeps_off :
    ∃ s s', Reachable intrSys s ∧ s.cur = .scheduler ∧ s.depth .scheduler = 1 ∧
      s.before .scheduler = some true ∧ intrNext s .popOff = .ok s' ∧ s'.intr = false := by
  have hrun : (run intrSys cpuInit schedulerTrace).holds (fun s =>
      s.cur == .scheduler && s.depth .scheduler == 1 && s.before .scheduler == some true &&
        (intrNext s .popOff).holds fun s' => !s'.intr) = true := by
    decide +kernel
  obtain ⟨s, hs, hp⟩ := Reachable.run_holds _ .init hrun
  simp only [Bool.and_eq_true, beq_iff_eq] at hp
  obtain ⟨⟨⟨hcur, hd⟩, hb⟩, hpop⟩ := hp
  obtain ⟨s', hs', hoff⟩ := Outcome.holds_iff.mp hpop
  exact ⟨s, s', hs, hcur, hd, hb, hs', by simpa using hoff⟩

end Xv6.Intr
