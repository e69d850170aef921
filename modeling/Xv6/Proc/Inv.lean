import Xv6.Proc.Step

/-!
# What holds of every reachable process table

`ProcInv` is kept by every section of `proc.c`:

* the CPUs: each `c->proc` is a RUNNING slot, and each RUNNING process is the `c->proc` of one CPU;
* the locks: at most one process holds each spinlock; a SLEEPING process is in `sleep` with
  `p->chan` its channel; `sleep` and `wakeup` return to the places their callers have;
* `fork`: the slot a `fork` made stays USED until `fork`'s last section, no other `fork` made it, and
  after `np->parent = p` its parent is the forker;
* the tree: parent pointers go to live processes; each live process or ZOMBIE but `initproc` has
  one; `initproc` lives and is never in `exit`; UNUSED slots have none; no slot below `reparent`'s
  loop has the exiting process as parent;
* the scans: `wait`'s `havekids` and the ZOMBIEs it found say what the slots below the scan are, and
  no process below `wakeup`'s loop is asleep in a `sleep` on its channel with a lock the caller
  holds.

`ProcInv.moves` keeps it across the sections that move only the caller's own thread; the other
rules (`ProcInv.restate`, `ProcInv.rouse`, `ProcInv.alloc`, `ProcInv.reclaim`, `ProcInv.setParent`,
`ProcInv.start`, `ProcInv.bury`) are the other changes a section makes to a slot. `Proc.Sections`
applies them to each section.
-/

namespace Xv6.Procs
open Trans

/-- A process that lives: it runs, waits for a CPU, or sleeps. -/
def PState.alive : PState → Bool
  | .runnable | .running | .sleeping => true
  | _ => false

/-- The slot whose `fork` the thread is in, once `allocproc` has made it. -/
def Pc.forks : Pc → Option Nat
  | .forked np _ | .parented np _ => some np
  | _ => none

example : (Pc.parented 3 7).forks = some 3 := by simp [Pc.forks]

/-- How far `exit`'s `reparent` loop has gone. -/
def Pc.reparented (nproc : Nat) : Pc → Nat
  | .reparent j _ => j
  | .exitSched _ => nproc
  | .wakeup _ _ after => after.reparented nproc
  | _ => 0

example : (Pc.wakeup (.proc 1) 0 (.reparent 2 0)).reparented 8 = 2 := by simp [Pc.reparented]

/-- The thread is in `exit`, after its `acquire(&wait_lock)`. -/
def Pc.exiting : Pc → Bool
  | .reparent _ _ | .exitSched _ => true
  | .wakeup _ _ after => after.exiting
  | _ => false

example : (Pc.wakeup (.proc 1) 0 (.exitSched 0)).exiting = true := by simp [Pc.exiting]

/-- Where a `sleep(ch, lk)` returns: to code that holds `lk`, or to `wait`'s new scan. -/
def Pc.sleepReturn (lk : Lock) (after : Pc) : Bool :=
  after == .holding lk || (lk == .wait && after == .waiting 0 false)

/-- Where a `wakeup` returns: to code that holds an object's lock, or into `exit`. -/
def Pc.wakeReturn : Pc → Bool
  | .holding _ | .reparent _ _ | .exitSched _ => true
  | _ => false

theorem Pc.sleepReturn_eq {lk : Lock} {after : Pc} (h : after.sleepReturn lk = true) :
    after = .holding lk ∨ (lk = .wait ∧ after = .waiting 0 false) := by
  simpa [Pc.sleepReturn] using h

theorem Pc.wakeReturn_eq {after : Pc} (h : after.wakeReturn = true) :
    (∃ lk, after = .holding lk) ∨ (∃ j status, after = .reparent j status) ∨
      ∃ status, after = .exitSched status := by
  cases after <;> simp_all [Pc.wakeReturn]

theorem PSys.free_holds {nproc : Nat} {s : PSys} {lk : Lock} (h : s.free nproc lk = true) {k : Nat}
    (hk : k < nproc) : (s.procs k).pc.holds lk = false := by
  unfold PSys.free at h
  rw [List.all_eq_true] at h
  simpa using h k (List.mem_range.mpr hk)

theorem Pc.exiting_of_lt_reparented {nproc k : Nat} {x : Pc} (h : k < x.reparented nproc) :
    x.exiting = true := by
  induction x with
  | wakeup ch j after ih => exact ih h
  | reparent => rfl
  | exitSched => rfl
  | _ => simp [Pc.reparented] at h

theorem Pc.holds_wait_of_exiting {x : Pc} (h : x.exiting = true) : x.holds .wait = true := by
  induction x with
  | wakeup ch j after ih => exact ih h
  | reparent => rfl
  | exitSched => rfl
  | _ => simp [Pc.exiting] at h

section
variable (nproc ncpu : Nat)

/-- The CPUs: each `c->proc` is a RUNNING slot of the table, and each RUNNING process is the
`c->proc` of one CPU. -/
structure CpuOk (s : PSys) : Prop where
  running : ∀ c p, s.cpus c = some p → c < ncpu ∧ p < nproc ∧ (s.procs p).state = .running
  on_cpu : ∀ p < nproc, (s.procs p).state = .running → ∃ c, s.cpus c = some p
  unique : ∀ c c' p, s.cpus c = some p → s.cpus c' = some p → c = c'

/-- What the threads' places say by themselves: each spinlock has at most one holder, `sleep` and
`wakeup` return to the places their callers have, a slot is made by one `fork`, and `initproc` is
never in `exit`. -/
structure PlaceOk (s : PSys) : Prop where
  holds_unique : ∀ lk p p', p < nproc → p' < nproc → (s.procs p).pc.holds lk = true →
    (s.procs p').pc.holds lk = true → p = p'
  sleep_return : ∀ p ch lk after, (s.procs p).pc = .sleeping ch lk after → after.sleepReturn lk = true
  relock_return : ∀ p lk after, (s.procs p).pc = .relock lk after → after.sleepReturn lk = true
  wake_return : ∀ p ch j after, (s.procs p).pc = .wakeup ch j after → after.wakeReturn = true
  forks_unique : ∀ p p' np, p < nproc → p' < nproc → (s.procs p).pc.forks = some np →
    (s.procs p').pc.forks = some np → p = p'
  exiting_init : (s.procs initproc).pc.exiting = false

/-- What holds of every reachable table (module doc). -/
structure ProcInv (s : PSys) : Prop where
  cpu : CpuOk nproc ncpu s
  place : PlaceOk nproc s
  sleeping_pc : ∀ p, (s.procs p).state = .sleeping →
    ∃ ch lk after, (s.procs p).pc = .sleeping ch lk after ∧ (s.procs p).chan = some ch
  forks_used : ∀ p np, p < nproc → (s.procs p).pc.forks = some np →
    np < nproc ∧ (s.procs np).state = .used
  parented : ∀ p np pid, p < nproc → (s.procs p).pc = .parented np pid → (s.procs np).parent = some p
  parent_alive : ∀ j k, j < nproc → (s.procs j).parent = some k →
    k < nproc ∧ (s.procs k).state.alive = true
  has_parent : ∀ j < nproc, j ≠ initproc → (s.procs j).state ≠ .unused → (s.procs j).state ≠ .used →
    (s.procs j).parent ≠ none
  init_alive : (s.procs initproc).state.alive = true
  unused_parent : ∀ j, (s.procs j).state = .unused → (s.procs j).parent = none
  reparented : ∀ p k, p < nproc → k < (s.procs p).pc.reparented nproc → (s.procs k).parent ≠ some p
  wait_scan : ∀ p j hk, p < nproc → (s.procs p).pc = .waiting j hk →
    ((hk = true ↔ ∃ k < j, (s.procs k).parent = some p) ∧
      ∀ k < j, (s.procs k).parent = some p → (s.procs k).state ≠ .zombie)
  wake_scan : ∀ b ch j after lk, b < nproc → (s.procs b).pc = .wakeup ch j after →
    after.holds lk = true → ∀ a < j, a ≠ b → (s.procs a).asleep ch lk = false

end

variable {nproc ncpu : Nat} {s s' : PSys} {c p : Nat} {x : Pc}

/-! ## The CPUs -/

theorem CpuOk.congr (h : CpuOk nproc ncpu s) (hcpus : s'.cpus = s.cpus)
    (hrun : ∀ k, (s'.procs k).state = .running ↔ (s.procs k).state = .running) : CpuOk nproc ncpu s' := by
  constructor
  · intro c' k h'
    rw [hcpus] at h'
    obtain ⟨hc, hk, hr⟩ := h.running c' k h'
    exact ⟨hc, hk, (hrun k).mpr hr⟩
  · intro k hk hr
    rw [hcpus]
    exact h.on_cpu k hk ((hrun k).mp hr)
  · rw [hcpus]
    exact h.unique

/-- CPU `c` gives up its process `p`, which stops RUNNING, and returns to its scheduler. -/
theorem CpuOk.off (h : CpuOk nproc ncpu s) (hc : s.cpus c = some p) {f : Proc → Proc}
    (hf : (f (s.procs p)).state ≠ .running) : CpuOk nproc ncpu ((s.upd p f).setCpu c none) := by
  -- `c` was the only CPU running `p`
  have hother : ∀ c' k, s.cpus c' = some k → c' ≠ c → k ≠ p := by
    rintro c' k h' hc' rfl
    exact hc' (h.unique c' c k h' hc)
  constructor
  · intro c' k h'
    simp only [PSys.setCpu_cpus] at h'
    by_cases hcc : c' = c
    · simp [hcc] at h'
    · rw [if_neg hcc] at h'
      obtain ⟨hc', hk, hr⟩ := h.running c' k h'
      simp only [PSys.setCpu_procs, PSys.upd_ne _ _ (hother c' k h' hcc)]
      exact ⟨hc', hk, hr⟩
  · intro k hk hr
    have hkp : k ≠ p := by
      rintro rfl
      simp only [PSys.setCpu_procs, PSys.upd_self] at hr
      exact hf hr
    simp only [PSys.setCpu_procs, PSys.upd_ne _ _ hkp] at hr
    obtain ⟨c', hc'⟩ := h.on_cpu k hk hr
    have hcc : c' ≠ c := by
      rintro rfl
      rw [hc] at hc'
      exact hkp (Option.some.inj hc').symm
    exact ⟨c', by simp [hcc, hc']⟩
  · intro c1 c2 k h1 h2
    simp only [PSys.setCpu_cpus] at h1 h2
    by_cases hc1 : c1 = c
    · simp [hc1] at h1
    · by_cases hc2 : c2 = c
      · simp [hc2] at h2
      · rw [if_neg hc1] at h1
        rw [if_neg hc2] at h2
        exact h.unique c1 c2 k h1 h2

/-- `scheduler` on CPU `c`, in its scheduler, switches to a slot that was not RUNNING. -/
theorem CpuOk.on (h : CpuOk nproc ncpu s) (hcn : c < ncpu) (hpn : p < nproc) (hfree : s.cpus c = none)
    (hp : (s.procs p).state ≠ .running) {f : Proc → Proc} (hf : (f (s.procs p)).state = .running) :
    CpuOk nproc ncpu ((s.upd p f).setCpu c (some p)) := by
  have hnot : ∀ c', s.cpus c' ≠ some p := fun c' h' => hp (h.running c' p h').2.2
  constructor
  · intro c' k h'
    simp only [PSys.setCpu_cpus] at h'
    by_cases hcc : c' = c
    · rw [if_pos hcc] at h'
      cases h'
      exact ⟨hcc ▸ hcn, hpn, by simpa using hf⟩
    · rw [if_neg hcc] at h'
      obtain ⟨hc', hk, hr⟩ := h.running c' k h'
      have hkp : k ≠ p := by
        rintro rfl
        exact hnot c' h'
      simp only [PSys.setCpu_procs, PSys.upd_ne _ _ hkp]
      exact ⟨hc', hk, hr⟩
  · intro k hk hr
    by_cases hkp : k = p
    · exact ⟨c, by simp [hkp]⟩
    · simp only [PSys.setCpu_procs, PSys.upd_ne _ _ hkp] at hr
      obtain ⟨c', hc'⟩ := h.on_cpu k hk hr
      have hcc : c' ≠ c := by
        rintro rfl
        rw [hfree] at hc'
        cases hc'
      exact ⟨c', by simp [hcc, hc']⟩
  · intro c1 c2 k h1 h2
    simp only [PSys.setCpu_cpus] at h1 h2
    by_cases hc1 : c1 = c <;> by_cases hc2 : c2 = c
    · rw [hc1, hc2]
    · rw [if_pos hc1] at h1
      rw [if_neg hc2] at h2
      cases h1
      exact absurd h2 (hnot c2)
    · rw [if_neg hc1] at h1
      rw [if_pos hc2] at h2
      cases h2
      exact absurd h1 (hnot c1)
    · rw [if_neg hc1] at h1
      rw [if_neg hc2] at h2
      exact h.unique c1 c2 k h1 h2

/-! ## The threads' places -/

theorem PlaceOk.congr (h : PlaceOk nproc s) (hpc : ∀ k, (s'.procs k).pc = (s.procs k).pc) :
    PlaceOk nproc s' where
  holds_unique lk a b ha hb h1 h2 := by
    rw [hpc] at h1 h2
    exact h.holds_unique lk a b ha hb h1 h2
  sleep_return k ch lk after hk := by
    rw [hpc] at hk
    exact h.sleep_return k ch lk after hk
  relock_return k lk after hk := by
    rw [hpc] at hk
    exact h.relock_return k lk after hk
  wake_return k ch j after hk := by
    rw [hpc] at hk
    exact h.wake_return k ch j after hk
  forks_unique a b np ha hb h1 h2 := by
    rw [hpc] at h1 h2
    exact h.forks_unique a b np ha hb h1 h2
  exiting_init := by
    rw [hpc]
    exact h.exiting_init

/-! ## Sections that move only the caller's thread -/

/-- `s'` is `s` with only the thread of `p` moved, to `x`; what `p` returns may change. -/
structure MovesOnly (s s' : PSys) (p : Nat) (x : Pc) : Prop where
  cpus : s'.cpus = s.cpus
  other : ∀ k, k ≠ p → s'.procs k = s.procs k
  pc : (s'.procs p).pc = x
  state : (s'.procs p).state = (s.procs p).state
  parent : (s'.procs p).parent = (s.procs p).parent

theorem MovesOnly.upd {f : Proc → Proc}
    (hf : (f (s.procs p)).pc = x ∧ (f (s.procs p)).state = (s.procs p).state ∧
      (f (s.procs p)).parent = (s.procs p).parent) :
    MovesOnly s (s.upd p f) p x :=
  ⟨rfl, fun k hk => by simp [hk], by simpa using hf.1, by simpa using hf.2.1, by simpa using hf.2.2⟩

theorem MovesOnly.state_eq (hm : MovesOnly s s' p x) (k : Nat) :
    (s'.procs k).state = (s.procs k).state := by
  by_cases hk : k = p
  · rw [hk, hm.state]
  · rw [hm.other k hk]

theorem MovesOnly.parent_eq (hm : MovesOnly s s' p x) (k : Nat) :
    (s'.procs k).parent = (s.procs k).parent := by
  by_cases hk : k = p
  · rw [hk, hm.parent]
  · rw [hm.other k hk]

/-- The process on a CPU is a slot of the table that does not sleep. -/
theorem ProcInv.actor (hi : ProcInv nproc ncpu s) (hc : s.cpus c = some p) :
    p < nproc ∧ (s.procs p).state ≠ .sleeping := by
  obtain ⟨-, hpn, hrun⟩ := hi.cpu.running c p hc
  exact ⟨hpn, by rw [hrun]; simp⟩

/-- The rule for a section that moves only the thread of the process `p`, to `x`: the
locks `x` holds were `p`'s or free, and `x` is a place the invariant allows `p` to be. -/
theorem ProcInv.moves (hi : ProcInv nproc ncpu s) (hpn : p < nproc) (hns : (s.procs p).state ≠ .sleeping)
    (hm : MovesOnly s s' p x)
    (hhold : ∀ l, x.holds l = true → (s.procs p).pc.holds l = true ∨ s.free nproc l = true)
    (hforks : ∀ np, x.forks = some np → (s.procs p).pc.forks = some np ∨
      (np < nproc ∧ (s.procs np).state = .used ∧ ∀ k < nproc, (s.procs k).pc.forks ≠ some np))
    (hparented : ∀ np pid, x = .parented np pid → (s.procs np).parent = some p)
    (hsleep : ∀ ch lk after, x = .sleeping ch lk after →
      after.sleepReturn lk = true ∧ (s.procs p).pc.holds lk = true)
    (hrelock : ∀ lk after, x = .relock lk after → after.sleepReturn lk = true)
    (hwake : ∀ ch j after, x = .wakeup ch j after → after.wakeReturn = true ∧
      ∀ lk, after.holds lk = true → ∀ a < j, a ≠ p → (s.procs a).asleep ch lk = false)
    (hrep : ∀ k < x.reparented nproc, (s.procs k).parent ≠ some p)
    (hexit : x.exiting = true → p ≠ initproc)
    (hwait : ∀ j hk, x = .waiting j hk → (hk = true ↔ ∃ k < j, (s.procs k).parent = some p) ∧
      ∀ k < j, (s.procs k).parent = some p → (s.procs k).state ≠ .zombie) :
    ProcInv nproc ncpu s' := by
  have hst := hm.state_eq
  have hpar := hm.parent_eq
  have hoth := hm.other
  refine ⟨?cpu, ⟨?holds_unique, ?sleep_return, ?relock_return, ?wake_return, ?forks_unique,
    ?exiting_init⟩, ?sleeping_pc, ?forks_used, ?parented, ?parent_alive, ?has_parent, ?init_alive,
    ?unused_parent, ?reparented, ?wait_scan, ?wake_scan⟩
  case cpu => exact hi.cpu.congr hm.cpus fun k => by rw [hst]
  case holds_unique =>
    -- a lock `p` took was free: no other slot held it
    have hnew : ∀ k lk, k < nproc → (s'.procs k).pc.holds lk = true →
        (s.procs k).pc.holds lk = true ∨ (k = p ∧ s.free nproc lk = true) := by
      intro k lk hk h
      by_cases hkp : k = p
      · subst hkp
        rw [hm.pc] at h
        rcases hhold lk h with h' | h'
        · exact .inl h'
        · exact .inr ⟨rfl, h'⟩
      · rw [hoth k hkp] at h
        exact .inl h
    intro lk a b ha hb h1 h2
    rcases hnew a lk ha h1 with h1 | ⟨rfl, hf⟩ <;> rcases hnew b lk hb h2 with h2 | ⟨rfl, hf'⟩
    · exact hi.place.holds_unique lk a b ha hb h1 h2
    · simp [PSys.free_holds hf' ha] at h1
    · simp [PSys.free_holds hf hb] at h2
    · rfl
  case sleeping_pc =>
    intro k hk
    have hkp : k ≠ p := by
      rintro rfl
      rw [hst] at hk
      exact hns hk
    rw [hoth k hkp] at hk ⊢
    exact hi.sleeping_pc k hk
  case sleep_return =>
    intro k ch lk after h
    by_cases hkp : k = p
    · subst hkp
      rw [hm.pc] at h
      exact (hsleep ch lk after h).1
    · rw [hoth k hkp] at h
      exact hi.place.sleep_return k ch lk after h
  case relock_return =>
    intro k lk after h
    by_cases hkp : k = p
    · subst hkp
      rw [hm.pc] at h
      exact hrelock lk after h
    · rw [hoth k hkp] at h
      exact hi.place.relock_return k lk after h
  case wake_return =>
    intro k ch j after h
    by_cases hkp : k = p
    · subst hkp
      rw [hm.pc] at h
      exact (hwake ch j after h).1
    · rw [hoth k hkp] at h
      exact hi.place.wake_return k ch j after h
  case forks_used =>
    intro k np hk h
    rw [hst]
    by_cases hkp : k = p
    · subst hkp
      rw [hm.pc] at h
      rcases hforks np h with h' | ⟨hnp, hused, -⟩
      · exact hi.forks_used k np hk h'
      · exact ⟨hnp, hused⟩
    · rw [hoth k hkp] at h
      exact hi.forks_used k np hk h
  case forks_unique =>
    -- a slot `p` starts to fork was forked by no one
    have hn : ∀ k np, k < nproc → (s'.procs k).pc.forks = some np → (s.procs k).pc.forks = some np ∨
        (k = p ∧ ∀ k' < nproc, (s.procs k').pc.forks ≠ some np) := by
      intro k np hk h
      by_cases hkp : k = p
      · subst hkp
        rw [hm.pc] at h
        rcases hforks np h with h' | ⟨-, -, hnone⟩
        · exact .inl h'
        · exact .inr ⟨rfl, hnone⟩
      · rw [hoth k hkp] at h
        exact .inl h
    intro a b np ha hb h1 h2
    rcases hn a np ha h1 with h1 | ⟨rfl, hn1⟩ <;> rcases hn b np hb h2 with h2 | ⟨rfl, hn2⟩
    · exact hi.place.forks_unique a b np ha hb h1 h2
    · exact absurd h1 (hn2 a ha)
    · exact absurd h2 (hn1 b hb)
    · rfl
  case parented =>
    intro k np pid hk h
    rw [hpar]
    by_cases hkp : k = p
    · subst hkp
      rw [hm.pc] at h
      exact hparented np pid h
    · rw [hoth k hkp] at h
      exact hi.parented k np pid hk h
  case parent_alive =>
    intro j k hj h
    rw [hpar] at h
    rw [hst]
    exact hi.parent_alive j k hj h
  case has_parent =>
    intro j hj hji h1 h2
    rw [hpar]
    rw [hst] at h1 h2
    exact hi.has_parent j hj hji h1 h2
  case init_alive =>
    rw [hst]
    exact hi.init_alive
  case unused_parent =>
    intro j h
    rw [hpar]
    rw [hst] at h
    exact hi.unused_parent j h
  case reparented =>
    intro k j hk h
    rw [hpar]
    by_cases hkp : k = p
    · subst hkp
      rw [hm.pc] at h
      exact hrep j h
    · rw [hoth k hkp] at h
      exact hi.reparented k j hk h
  case exiting_init =>
    by_cases hip : initproc = p
    · rw [hip, hm.pc]
      cases hx : x.exiting
      · rfl
      · exact absurd hip (hexit hx).symm
    · rw [hoth initproc hip]
      exact hi.place.exiting_init
  case wait_scan =>
    intro k j hb hk h
    simp only [hpar, hst]
    by_cases hkp : k = p
    · subst hkp
      rw [hm.pc] at h
      exact hwait j hb h
    · rw [hoth k hkp] at h
      exact hi.wait_scan k j hb hk h
  case wake_scan =>
    intro b ch j after lk hb h hlk a ha hab
    by_cases hbp : b = p
    · subst hbp
      rw [hm.pc] at h
      rw [hoth a hab]
      exact (hwake ch j after h).2 lk hlk a ha hab
    · rw [hoth b hbp] at h
      by_cases hap : a = p
      · subst hap
        -- `p` cannot have begun a `sleep` on a lock the caller of `wakeup` holds
        cases hx : x with
        | sleeping ch' lk' after' =>
          obtain ⟨-, hheld⟩ := hsleep ch' lk' after' hx
          have hbh : (s.procs b).pc.holds lk = true := by simpa [h, Pc.holds] using hlk
          simp only [Proc.asleep, hm.pc, hx]
          by_cases hl : lk' = lk
          · subst hl
            exact absurd (hi.place.holds_unique lk' a b hpn hb hheld hbh) (Ne.symm hbp)
          · simp [hl]
        | _ => simp [Proc.asleep, hm.pc, hx]
      · rw [hoth a hap]
        exact hi.wake_scan b ch j after lk hb h hlk a ha hab

/-- A section after which the caller is in user space. -/
theorem ProcInv.toUser (hi : ProcInv nproc ncpu s) (hpn : p < nproc) (hns : (s.procs p).state ≠ .sleeping)
    (hm : MovesOnly s s' p .user) : ProcInv nproc ncpu s' :=
  hi.moves hpn hns hm (by simp [Pc.holds]) (by simp [Pc.forks]) (by simp) (by simp) (by simp) (by simp)
    (by simp [Pc.reparented]) (by simp [Pc.exiting]) (by simp)

theorem Proc.asleep_eq_false {q : Proc} {ch : Chan} {lk : Lock} (h1 : q.state ≠ .sleeping)
    (h2 : q.state ≠ .running) : q.asleep ch lk = false := by
  unfold Proc.asleep
  split <;> simp [h1, h2]

/-! ## Slots that change and threads that stay -/

/-- A slot changes state while its thread stays where it is: it wakes, or a switch gives it a CPU
or takes the CPU away. Its state stays, or goes from one live state to another; a SLEEPING state
has `sleep`'s channel, and the slot is asleep in no `sleep` it was not asleep in. -/
theorem ProcInv.restate (hi : ProcInv nproc ncpu s) {j : Nat} {f : Proc → Proc}
    (hs' : ∀ k, s'.procs k = (s.upd j f).procs k) (hcpu : CpuOk nproc ncpu s')
    (hf : (f (s.procs j)).pc = (s.procs j).pc ∧ (f (s.procs j)).parent = (s.procs j).parent)
    (hst : (f (s.procs j)).state = (s.procs j).state ∨
      ((s.procs j).state.alive = true ∧ (f (s.procs j)).state.alive = true))
    (hsleep : (f (s.procs j)).state = .sleeping →
      ∃ ch lk after, (s.procs j).pc = .sleeping ch lk after ∧ (f (s.procs j)).chan = some ch)
    (hasleep : ∀ ch lk, (f (s.procs j)).asleep ch lk = true → (s.procs j).asleep ch lk = true) :
    ProcInv nproc ncpu s' := by
  have hpc : ∀ k, (s'.procs k).pc = (s.procs k).pc := by
    intro k
    rw [hs', PSys.upd_procs]
    split
    · next h => rw [h, hf.1]
    · rfl
  have hpar : ∀ k, (s'.procs k).parent = (s.procs k).parent := by
    intro k
    rw [hs', PSys.upd_procs]
    split
    · next h => rw [h, hf.2]
    · rfl
  have hst' : ∀ k, (s'.procs k).state = (s.procs k).state ∨
      ((s.procs k).state.alive = true ∧ (s'.procs k).state.alive = true) := by
    intro k
    rw [hs', PSys.upd_procs]
    split
    · next h => rw [h]; exact hst
    · exact .inl rfl
  refine ⟨hcpu, hi.place.congr hpc, ?sleeping_pc, ?forks_used, ?parented, ?parent_alive, ?has_parent,
    ?init_alive, ?unused_parent, ?reparented, ?wait_scan, ?wake_scan⟩
  case sleeping_pc =>
    intro k h
    by_cases hkj : k = j
    · subst hkj
      rw [hs', PSys.upd_self] at h ⊢
      obtain ⟨ch, lk, after, hpc', hch⟩ := hsleep h
      exact ⟨ch, lk, after, hf.1.trans hpc', hch⟩
    · rw [hs', PSys.upd_ne _ _ hkj] at h ⊢
      exact hi.sleeping_pc k h
  case forks_used =>
    intro k np hk h
    rw [hpc] at h
    obtain ⟨hnp, hu⟩ := hi.forks_used k np hk h
    refine ⟨hnp, ?_⟩
    rcases hst' np with h' | ⟨ha, -⟩
    · rw [h', hu]
    · rw [hu] at ha
      cases ha
  case parented =>
    intro k np pid hk h
    rw [hpc] at h
    rw [hpar]
    exact hi.parented k np pid hk h
  case parent_alive =>
    intro k k' hk h
    rw [hpar] at h
    obtain ⟨hk', ha⟩ := hi.parent_alive k k' hk h
    rcases hst' k' with h' | ⟨-, ha'⟩
    · exact ⟨hk', by rw [h']; exact ha⟩
    · exact ⟨hk', ha'⟩
  case has_parent =>
    intro k hk hki h1 h2
    rw [hpar]
    rcases hst' k with h' | ⟨ha, -⟩
    · rw [h'] at h1 h2
      exact hi.has_parent k hk hki h1 h2
    · refine hi.has_parent k hk hki ?_ ?_ <;>
        · intro h
          rw [h] at ha
          cases ha
  case init_alive =>
    rcases hst' initproc with h' | ⟨-, ha'⟩
    · rw [h']
      exact hi.init_alive
    · exact ha'
  case unused_parent =>
    intro k h
    rw [hpar]
    rcases hst' k with h' | ⟨-, ha'⟩
    · rw [h'] at h
      exact hi.unused_parent k h
    · rw [h] at ha'
      cases ha'
  case reparented =>
    intro k k' hk h
    rw [hpc] at h
    rw [hpar]
    exact hi.reparented k k' hk h
  case wait_scan =>
    intro k j' hb hk h
    rw [hpc] at h
    simp only [hpar]
    obtain ⟨hkids, hz⟩ := hi.wait_scan k j' hb hk h
    refine ⟨hkids, fun k' hk' hp => ?_⟩
    rcases hst' k' with h' | ⟨-, ha'⟩
    · rw [h']
      exact hz k' hk' hp
    · intro hz'
      rw [hz'] at ha'
      cases ha'
  case wake_scan =>
    intro b ch j' after lk hb h hlk a ha hab
    rw [hpc] at h
    have h0 := hi.wake_scan b ch j' after lk hb h hlk a ha hab
    by_cases haj : a = j
    · subst haj
      rw [hs', PSys.upd_self]
      cases h1 : (f (s.procs a)).asleep ch lk
      · rfl
      · rw [hasleep ch lk h1] at h0
        cases h0
    · rw [hs', PSys.upd_ne _ _ haj]
      exact h0

/-- Waking a slot, as `wakeup`'s test and `kill` do: a SLEEPING process may become RUNNABLE, and
nothing else the invariant reads changes. -/
theorem ProcInv.rouse (hi : ProcInv nproc ncpu s) (j : Nat) {f : Proc → Proc}
    (hf : ∀ r, (f r).pc = r.pc ∧ (f r).parent = r.parent ∧ (f r).chan = r.chan ∧
      ((f r).state = r.state ∨ (r.state = .sleeping ∧ (f r).state = .runnable))) :
    ProcInv nproc ncpu (s.upd j f) := by
  obtain ⟨hpc, hpar, hch, hst⟩ := hf (s.procs j)
  refine hi.restate (fun _ => rfl) ?_ ⟨hpc, hpar⟩ ?_ ?_ ?_
  · -- no slot starts or stops RUNNING
    refine hi.cpu.congr rfl fun k => ?_
    rw [PSys.upd_procs]
    split
    · next h =>
      subst h
      rcases hst with h' | ⟨h1, h2⟩
      · rw [h']
      · rw [h1, h2]
        simp
    · rfl
  · rcases hst with h' | ⟨h1, h2⟩
    · exact .inl h'
    · exact .inr ⟨by rw [h1]; rfl, by rw [h2]; rfl⟩
  · intro h
    rcases hst with h' | ⟨-, h2⟩
    · obtain ⟨ch, lk, after, hp, hc⟩ := hi.sleeping_pc j (h' ▸ h)
      exact ⟨ch, lk, after, hp, hch.trans hc⟩
    · rw [h2] at h
      cases h
  · intro ch lk h
    rcases hst with h' | ⟨-, h2⟩
    · simpa only [Proc.asleep, hpc, h'] using h
    · rw [Proc.asleep_eq_false (by rw [h2]; simp) (by rw [h2]; simp)] at h
      cases h

/-- `allocproc` takes an UNUSED slot and makes it USED; its thread and parent stay. -/
theorem ProcInv.alloc (hi : ProcInv nproc ncpu s) {j : Nat} (hj : (s.procs j).state = .unused)
    {f : Proc → Proc} (hf : (f (s.procs j)).state = .used ∧ (f (s.procs j)).pc = (s.procs j).pc ∧
      (f (s.procs j)).parent = (s.procs j).parent) :
    ProcInv nproc ncpu (s.upd j f) := by
  have hpc : ∀ k, ((s.upd j f).procs k).pc = (s.procs k).pc := by
    intro k
    by_cases hk : k = j
    · rw [hk, PSys.upd_self, hf.2.1]
    · rw [PSys.upd_ne _ _ hk]
  have hpar : ∀ k, ((s.upd j f).procs k).parent = (s.procs k).parent := by
    intro k
    by_cases hk : k = j
    · rw [hk, PSys.upd_self, hf.2.2]
    · rw [PSys.upd_ne _ _ hk]
  have hst : ∀ k, k ≠ j → ((s.upd j f).procs k).state = (s.procs k).state := fun k hk => by
    rw [PSys.upd_ne _ _ hk]
  have hdead : ∀ k, k = j → (s.procs k).state.alive = false := by
    rintro k rfl
    rw [hj]
    rfl
  refine ⟨?cpu, hi.place.congr hpc, ?sleeping_pc, ?forks_used, ?parented, ?parent_alive, ?has_parent,
    ?init_alive, ?unused_parent, ?reparented, ?wait_scan, ?wake_scan⟩
  case cpu =>
    refine hi.cpu.congr rfl fun k => ?_
    by_cases hk : k = j
    · rw [hk, PSys.upd_self, hf.1, hj]
      simp
    · rw [hst k hk]
  case sleeping_pc =>
    intro k h
    by_cases hk : k = j
    · rw [hk, PSys.upd_self, hf.1] at h
      cases h
    · rw [PSys.upd_ne _ _ hk] at h ⊢
      exact hi.sleeping_pc k h
  case forks_used =>
    intro k np hk h
    rw [hpc] at h
    obtain ⟨hnp, hu⟩ := hi.forks_used k np hk h
    have hne : np ≠ j := by
      rintro rfl
      rw [hj] at hu
      cases hu
    exact ⟨hnp, by rw [hst np hne]; exact hu⟩
  case parented =>
    intro k np pid hk h
    rw [hpc] at h
    rw [hpar]
    exact hi.parented k np pid hk h
  case parent_alive =>
    intro k k' hk h
    rw [hpar] at h
    obtain ⟨hk', ha⟩ := hi.parent_alive k k' hk h
    have hne : k' ≠ j := fun he => by rw [hdead k' he] at ha; cases ha
    exact ⟨hk', by rw [hst k' hne]; exact ha⟩
  case has_parent =>
    intro k hk hki h1 h2
    by_cases hkj : k = j
    · rw [hkj, PSys.upd_self, hf.1] at h2
      exact absurd rfl h2
    · rw [hst k hkj] at h1 h2
      rw [hpar]
      exact hi.has_parent k hk hki h1 h2
  case init_alive =>
    have hne : initproc ≠ j := fun he => by
      have h := hi.init_alive
      rw [hdead initproc he] at h
      cases h
    rw [hst initproc hne]
    exact hi.init_alive
  case unused_parent =>
    intro k h
    by_cases hkj : k = j
    · rw [hkj, PSys.upd_self, hf.1] at h
      cases h
    · rw [hst k hkj] at h
      rw [hpar]
      exact hi.unused_parent k h
  case reparented =>
    intro k k' hk h
    rw [hpc] at h
    rw [hpar]
    exact hi.reparented k k' hk h
  case wait_scan =>
    intro k j' hb hk h
    rw [hpc] at h
    simp only [hpar]
    obtain ⟨hkids, hz⟩ := hi.wait_scan k j' hb hk h
    refine ⟨hkids, fun k' hk' hp => ?_⟩
    by_cases hkj : k' = j
    · rw [hkj, PSys.upd_self, hf.1]
      simp
    · rw [hst k' hkj]
      exact hz k' hk' hp
  case wake_scan =>
    intro b ch j' after lk hb h hlk a ha hab
    rw [hpc] at h
    by_cases haj : a = j
    · rw [haj, PSys.upd_self]
      exact Proc.asleep_eq_false (by rw [hf.1]; simp) (by rw [hf.1]; simp)
    · rw [PSys.upd_ne _ _ haj]
      exact hi.wake_scan b ch j' after lk hb h hlk a ha hab

theorem PState.alive_of_running {st : PState} (h : st = .running) : st.alive = true := by
  rw [h]
  rfl

/-- `freeproc` of a slot that does not live, that no `fork` is making, and whose parent pointer no
`wait` scan has counted. -/
theorem ProcInv.reclaim (hi : ProcInv nproc ncpu s) {j : Nat} (hj : (s.procs j).state.alive = false)
    (hfork : ∀ k < nproc, (s.procs k).pc.forks ≠ some j)
    (hwait : ∀ w jw hk, w < nproc → (s.procs w).pc = .waiting jw hk → j < jw →
      (s.procs j).parent ≠ some w) :
    ProcInv nproc ncpu (s.upd j freeproc) := by
  have hnrun : (s.procs j).state ≠ .running := fun h => by
    rw [PState.alive_of_running h] at hj
    cases hj
  have hinit : initproc ≠ j := fun he => by
    have h := hi.init_alive
    rw [he, hj] at h
    cases h
  -- the parent pointers that matter are the ones to live processes, and `j` lives not
  have hnochild : ∀ k < nproc, (s.procs k).parent ≠ some j := fun k hk h => by
    rw [(hi.parent_alive k j hk h).2] at hj
    cases hj
  have hpc : ∀ k, k ≠ j → ((s.upd j freeproc).procs k).pc = (s.procs k).pc := fun k hk => by
    rw [PSys.upd_ne _ _ hk]
  refine ⟨?cpu, ⟨?holds_unique, ?sleep_return, ?relock_return, ?wake_return, ?forks_unique,
    ?exiting_init⟩, ?sleeping_pc, ?forks_used, ?parented, ?parent_alive, ?has_parent, ?init_alive,
    ?unused_parent, ?reparented, ?wait_scan, ?wake_scan⟩
  case cpu =>
    refine hi.cpu.congr rfl fun k => ?_
    by_cases hk : k = j
    · rw [hk, PSys.upd_self]
      simp [freeproc, hnrun]
    · rw [PSys.upd_ne _ _ hk]
  case holds_unique =>
    intro lk a b ha hb h1 h2
    have ha' : a ≠ j := by rintro rfl; simp [freeproc, Pc.holds] at h1
    have hb' : b ≠ j := by rintro rfl; simp [freeproc, Pc.holds] at h2
    rw [hpc a ha'] at h1
    rw [hpc b hb'] at h2
    exact hi.place.holds_unique lk a b ha hb h1 h2
  case sleep_return =>
    intro k ch lk after h
    have hk : k ≠ j := by rintro rfl; simp [freeproc] at h
    rw [hpc k hk] at h
    exact hi.place.sleep_return k ch lk after h
  case relock_return =>
    intro k lk after h
    have hk : k ≠ j := by rintro rfl; simp [freeproc] at h
    rw [hpc k hk] at h
    exact hi.place.relock_return k lk after h
  case wake_return =>
    intro k ch j' after h
    have hk : k ≠ j := by rintro rfl; simp [freeproc] at h
    rw [hpc k hk] at h
    exact hi.place.wake_return k ch j' after h
  case forks_unique =>
    intro a b np ha hb h1 h2
    have ha' : a ≠ j := by rintro rfl; simp [freeproc, Pc.forks] at h1
    have hb' : b ≠ j := by rintro rfl; simp [freeproc, Pc.forks] at h2
    rw [hpc a ha'] at h1
    rw [hpc b hb'] at h2
    exact hi.place.forks_unique a b np ha hb h1 h2
  case exiting_init =>
    rw [hpc initproc hinit]
    exact hi.place.exiting_init
  case sleeping_pc =>
    intro k h
    have hk : k ≠ j := by rintro rfl; simp [freeproc] at h
    rw [PSys.upd_ne _ _ hk] at h ⊢
    exact hi.sleeping_pc k h
  case forks_used =>
    intro k np hk h
    have hk' : k ≠ j := by rintro rfl; simp [freeproc, Pc.forks] at h
    rw [hpc k hk'] at h
    have hnp : np ≠ j := by
      rintro rfl
      exact hfork k hk h
    rw [PSys.upd_ne _ _ hnp]
    exact hi.forks_used k np hk h
  case parented =>
    intro k np pid hk h
    have hk' : k ≠ j := by rintro rfl; simp [freeproc] at h
    rw [hpc k hk'] at h
    have hnp : np ≠ j := by
      rintro rfl
      exact hfork k hk (by simp [h, Pc.forks])
    rw [PSys.upd_ne _ _ hnp]
    exact hi.parented k np pid hk h
  case parent_alive =>
    intro k k' hk h
    have hk' : k ≠ j := by rintro rfl; simp [freeproc] at h
    rw [PSys.upd_ne _ _ hk'] at h
    have hne : k' ≠ j := by
      rintro rfl
      exact hnochild k hk h
    rw [PSys.upd_ne _ _ hne]
    exact hi.parent_alive k k' hk h
  case has_parent =>
    intro k hk hki h1 h2
    have hk' : k ≠ j := by rintro rfl; simp [freeproc] at h1
    rw [PSys.upd_ne _ _ hk'] at h1 h2 ⊢
    exact hi.has_parent k hk hki h1 h2
  case init_alive =>
    rw [PSys.upd_ne _ _ hinit]
    exact hi.init_alive
  case unused_parent =>
    intro k h
    by_cases hk : k = j
    · rw [hk, PSys.upd_self]
      rfl
    · rw [PSys.upd_ne _ _ hk] at h ⊢
      exact hi.unused_parent k h
  case reparented =>
    intro k k' hk h
    have hk' : k ≠ j := by rintro rfl; simp [freeproc, Pc.reparented] at h
    rw [hpc k hk'] at h
    by_cases hkj : k' = j
    · rw [hkj, PSys.upd_self]
      simp [freeproc]
    · rw [PSys.upd_ne _ _ hkj]
      exact hi.reparented k k' hk h
  case wait_scan =>
    intro w jw hb hw h
    have hw' : w ≠ j := by rintro rfl; simp [freeproc] at h
    rw [hpc w hw'] at h
    obtain ⟨hkids, hz⟩ := hi.wait_scan w jw hb hw h
    -- the scan counted the same children: `j` was none of them below it
    have hsame : ∀ k < jw, ((s.upd j freeproc).procs k).parent = some w ↔ (s.procs k).parent = some w := by
      intro k hk
      by_cases hkj : k = j
      · subst hkj
        rw [PSys.upd_self]
        simp only [freeproc, reduceCtorEq, false_iff]
        exact hwait w jw hb hw h hk
      · rw [PSys.upd_ne _ _ hkj]
    refine ⟨hkids.trans (exists_congr fun k => and_congr_right fun hk => (hsame k hk).symm),
      fun k hk h' => ?_⟩
    by_cases hkj : k = j
    · rw [hkj, PSys.upd_self]
      simp [freeproc]
    · rw [PSys.upd_ne _ _ hkj] at h' ⊢
      exact hz k hk h'
  case wake_scan =>
    intro b ch j' after lk hb h hlk a ha hab
    have hb' : b ≠ j := by rintro rfl; simp [freeproc] at h
    rw [hpc b hb'] at h
    by_cases haj : a = j
    · rw [haj, PSys.upd_self]
      simp [freeproc, Proc.asleep]
    · rw [PSys.upd_ne _ _ haj]
      exact hi.wake_scan b ch j' after lk hb h hlk a ha hab

/-- A slot that is not UNUSED gets the live slot `k` as parent: the `fork` that made it, if it is
the slot of a `fork` after `np->parent = p`, is `k`'s; no `reparent` loop past it belongs to `k`; and
no `wait` scan past it changes what it counted. -/
theorem ProcInv.setParent (hi : ProcInv nproc ncpu s) {j k : Nat} (hj : (s.procs j).state ≠ .unused)
    (hk : k < nproc ∧ (s.procs k).state.alive = true)
    (hparented : ∀ q pid, q < nproc → (s.procs q).pc = .parented j pid → q = k)
    (hrep : ∀ e < nproc, j < (s.procs e).pc.reparented nproc → k ≠ e)
    (hwait : ∀ w jw hb, w < nproc → (s.procs w).pc = .waiting jw hb → j < jw →
      ((s.procs j).parent = some w ↔ k = w)) :
    ProcInv nproc ncpu (s.upd j fun r => { r with parent := some k }) := by
  have hpc : ∀ i, ((s.upd j fun r => { r with parent := some k }).procs i).pc = (s.procs i).pc := by
    intro i
    by_cases hi' : i = j
    · rw [hi', PSys.upd_self]
    · rw [PSys.upd_ne _ _ hi']
  have hst : ∀ i, ((s.upd j fun r => { r with parent := some k }).procs i).state = (s.procs i).state := by
    intro i
    by_cases hi' : i = j
    · rw [hi', PSys.upd_self]
    · rw [PSys.upd_ne _ _ hi']
  refine ⟨hi.cpu.congr rfl fun i => by rw [hst], hi.place.congr hpc, ?sleeping_pc, ?forks_used,
    ?parented, ?parent_alive, ?has_parent, ?init_alive, ?unused_parent, ?reparented, ?wait_scan,
    ?wake_scan⟩
  case sleeping_pc =>
    intro i h
    by_cases hij : i = j
    · rw [hij, PSys.upd_self] at h ⊢
      exact hi.sleeping_pc j h
    · rw [PSys.upd_ne _ _ hij] at h ⊢
      exact hi.sleeping_pc i h
  case forks_used =>
    intro i np hi' h
    rw [hpc] at h
    rw [hst]
    exact hi.forks_used i np hi' h
  case parented =>
    intro q np pid hq h
    rw [hpc] at h
    by_cases hnp : np = j
    · subst hnp
      rw [PSys.upd_self, hparented q pid hq h]
    · rw [PSys.upd_ne _ _ hnp]
      exact hi.parented q np pid hq h
  case parent_alive =>
    intro i k' hi' h
    rw [hst]
    by_cases hij : i = j
    · rw [hij, PSys.upd_self] at h
      cases h
      exact hk
    · rw [PSys.upd_ne _ _ hij] at h
      exact hi.parent_alive i k' hi' h
  case has_parent =>
    intro i hi' hii h1 h2
    rw [hst] at h1 h2
    by_cases hij : i = j
    · rw [hij, PSys.upd_self]
      simp
    · rw [PSys.upd_ne _ _ hij]
      exact hi.has_parent i hi' hii h1 h2
  case init_alive =>
    rw [hst]
    exact hi.init_alive
  case unused_parent =>
    intro i h
    rw [hst] at h
    have hij : i ≠ j := by
      rintro rfl
      exact hj h
    rw [PSys.upd_ne _ _ hij]
    exact hi.unused_parent i h
  case reparented =>
    intro e i he h
    rw [hpc] at h
    by_cases hij : i = j
    · subst hij
      rw [PSys.upd_self]
      simpa using hrep e he h
    · rw [PSys.upd_ne _ _ hij]
      exact hi.reparented e i he h
  case wait_scan =>
    intro w jw hb hw h
    rw [hpc] at h
    obtain ⟨hkids, hz⟩ := hi.wait_scan w jw hb hw h
    -- below the scan, `j` is a child of `w` after exactly when it was before
    have hsame : ∀ i < jw, ((s.upd j fun r => { r with parent := some k }).procs i).parent = some w ↔
        (s.procs i).parent = some w := by
      intro i hi'
      by_cases hij : i = j
      · subst hij
        rw [PSys.upd_self, hwait w jw hb hw h hi']
        simp
      · rw [PSys.upd_ne _ _ hij]
    refine ⟨hkids.trans (exists_congr fun i => and_congr_right fun hi' => (hsame i hi').symm),
      fun i hi' h' => ?_⟩
    rw [hst]
    exact hz i hi' ((hsame i hi').mp h')
  case wake_scan =>
    intro b ch j' after lk hb h hlk a ha hab
    rw [hpc] at h
    by_cases haj : a = j
    · rw [haj, PSys.upd_self]
      have h0 := hi.wake_scan b ch j' after lk hb h hlk a ha hab
      rw [haj] at h0
      simpa [Proc.asleep] using h0
    · rw [PSys.upd_ne _ _ haj]
      exact hi.wake_scan b ch j' after lk hb h hlk a ha hab

/-- `fork`'s last section, for a slot that has its parent and that no `fork` is making any more:
USED becomes RUNNABLE. -/
theorem ProcInv.start (hi : ProcInv nproc ncpu s) {np : Nat} (hu : (s.procs np).state = .used)
    (hfork : ∀ k < nproc, (s.procs k).pc.forks ≠ some np) (hpar : (s.procs np).parent ≠ none) :
    ProcInv nproc ncpu (s.upd np fun r => { r with state := .runnable }) := by
  have hpc : ∀ i, ((s.upd np fun r => { r with state := .runnable }).procs i).pc = (s.procs i).pc := by
    intro i
    by_cases hi' : i = np
    · rw [hi', PSys.upd_self]
    · rw [PSys.upd_ne _ _ hi']
  have hpar' : ∀ i, ((s.upd np fun r => { r with state := .runnable }).procs i).parent =
      (s.procs i).parent := by
    intro i
    by_cases hi' : i = np
    · rw [hi', PSys.upd_self]
    · rw [PSys.upd_ne _ _ hi']
  have hinit : initproc ≠ np := fun he => by
    have h := hi.init_alive
    rw [he, hu] at h
    cases h
  refine ⟨?cpu, hi.place.congr hpc, ?sleeping_pc, ?forks_used, ?parented, ?parent_alive, ?has_parent,
    ?init_alive, ?unused_parent, ?reparented, ?wait_scan, ?wake_scan⟩
  case cpu =>
    refine hi.cpu.congr rfl fun i => ?_
    by_cases hi' : i = np
    · rw [hi', PSys.upd_self, hu]
      simp
    · rw [PSys.upd_ne _ _ hi']
  case sleeping_pc =>
    intro i h
    have hi' : i ≠ np := by rintro rfl; simp at h
    rw [PSys.upd_ne _ _ hi'] at h ⊢
    exact hi.sleeping_pc i h
  case forks_used =>
    intro k np' hk h
    rw [hpc] at h
    have hne : np' ≠ np := by
      rintro rfl
      exact hfork k hk h
    rw [PSys.upd_ne _ _ hne]
    exact hi.forks_used k np' hk h
  case parented =>
    intro k np' pid hk h
    rw [hpc] at h
    rw [hpar']
    exact hi.parented k np' pid hk h
  case parent_alive =>
    intro i k hi' h
    rw [hpar'] at h
    obtain ⟨hk, ha⟩ := hi.parent_alive i k hi' h
    by_cases hkn : k = np
    · rw [hkn, PSys.upd_self]
      exact ⟨hkn ▸ hk, rfl⟩
    · rw [PSys.upd_ne _ _ hkn]
      exact ⟨hk, ha⟩
  case has_parent =>
    intro i hi' hii h1 h2
    rw [hpar']
    by_cases hin : i = np
    · rw [hin]
      exact hpar
    · rw [PSys.upd_ne _ _ hin] at h1 h2
      exact hi.has_parent i hi' hii h1 h2
  case init_alive =>
    rw [PSys.upd_ne _ _ hinit]
    exact hi.init_alive
  case unused_parent =>
    intro i h
    have hin : i ≠ np := by rintro rfl; simp at h
    rw [PSys.upd_ne _ _ hin] at h ⊢
    exact hi.unused_parent i h
  case reparented =>
    intro k i hk h
    rw [hpc] at h
    rw [hpar']
    exact hi.reparented k i hk h
  case wait_scan =>
    intro w jw hb hw h
    rw [hpc] at h
    simp only [hpar']
    obtain ⟨hkids, hz⟩ := hi.wait_scan w jw hb hw h
    refine ⟨hkids, fun i hi' h' => ?_⟩
    by_cases hin : i = np
    · rw [hin, PSys.upd_self]
      simp
    · rw [PSys.upd_ne _ _ hin]
      exact hz i hi' h'
  case wake_scan =>
    intro b ch j after lk hb h hlk a ha hab
    rw [hpc] at h
    by_cases han : a = np
    · rw [han, PSys.upd_self]
      exact Proc.asleep_eq_false (by simp) (by simp)
    · rw [PSys.upd_ne _ _ han]
      exact hi.wake_scan b ch j after lk hb h hlk a ha hab

/-- `exit`'s last section, once its thread has ended: the process on CPU `c`, with no children and
no `wait` scanning, becomes a ZOMBIE, and the CPU returns to its scheduler. -/
theorem ProcInv.bury (hi : ProcInv nproc ncpu s) (hc : s.cpus c = some p) (hinit : p ≠ initproc)
    (hkids : ∀ k < nproc, (s.procs k).parent ≠ some p)
    (hwait : ∀ w < nproc, (s.procs w).pc.holds .wait = false) (status : Int) :
    ProcInv nproc ncpu ((s.upd p fun r => { r with xstate := status, state := .zombie }).setCpu c none) := by
  obtain ⟨-, hpn, hrun⟩ := hi.cpu.running c p hc
  have hpc : ∀ i, (((s.upd p fun r => { r with xstate := status, state := .zombie }).setCpu c none).procs
      i).pc = (s.procs i).pc := by
    intro i
    by_cases hi' : i = p
    · rw [hi', PSys.setCpu_procs, PSys.upd_self]
    · rw [PSys.setCpu_procs, PSys.upd_ne _ _ hi']
  have hpar : ∀ i, (((s.upd p fun r => { r with xstate := status, state := .zombie }).setCpu c none).procs
      i).parent = (s.procs i).parent := by
    intro i
    by_cases hi' : i = p
    · rw [hi', PSys.setCpu_procs, PSys.upd_self]
    · rw [PSys.setCpu_procs, PSys.upd_ne _ _ hi']
  refine ⟨hi.cpu.off hc (by simp), hi.place.congr hpc, ?sleeping_pc, ?forks_used, ?parented,
    ?parent_alive, ?has_parent, ?init_alive, ?unused_parent, ?reparented, ?wait_scan, ?wake_scan⟩
  case sleeping_pc =>
    intro i h
    have hi' : i ≠ p := by rintro rfl; simp at h
    simp only [PSys.setCpu_procs, PSys.upd_ne _ _ hi'] at h ⊢
    exact hi.sleeping_pc i h
  case forks_used =>
    intro k np hk h
    rw [hpc] at h
    obtain ⟨hnp, hu⟩ := hi.forks_used k np hk h
    have hne : np ≠ p := by
      rintro rfl
      rw [hrun] at hu
      cases hu
    simp only [PSys.setCpu_procs, PSys.upd_ne _ _ hne]
    exact ⟨hnp, hu⟩
  case parented =>
    intro k np pid hk h
    rw [hpc] at h
    rw [hpar]
    exact hi.parented k np pid hk h
  case parent_alive =>
    intro i k hi' h
    rw [hpar] at h
    have hne : k ≠ p := by
      rintro rfl
      exact hkids i hi' h
    simp only [PSys.setCpu_procs, PSys.upd_ne _ _ hne]
    exact hi.parent_alive i k hi' h
  case has_parent =>
    intro i hi' hii h1 h2
    rw [hpar]
    by_cases hip : i = p
    · rw [hip]
      exact hi.has_parent p hpn hinit (by rw [hrun]; simp) (by rw [hrun]; simp)
    · simp only [PSys.setCpu_procs, PSys.upd_ne _ _ hip] at h1 h2
      exact hi.has_parent i hi' hii h1 h2
  case init_alive =>
    simp only [PSys.setCpu_procs, PSys.upd_ne _ _ (Ne.symm hinit)]
    exact hi.init_alive
  case unused_parent =>
    intro i h
    have hip : i ≠ p := by rintro rfl; simp at h
    rw [hpar]
    simp only [PSys.setCpu_procs, PSys.upd_ne _ _ hip] at h
    exact hi.unused_parent i h
  case reparented =>
    intro k i hk h
    rw [hpc] at h
    rw [hpar]
    exact hi.reparented k i hk h
  case wait_scan =>
    -- no `wait` holds `wait_lock`
    intro w jw hb hw h
    rw [hpc] at h
    have := hwait w hw
    simp [h, Pc.holds] at this
  case wake_scan =>
    intro b ch j after lk hb h hlk a ha hab
    rw [hpc] at h
    by_cases hap : a = p
    · rw [hap, PSys.setCpu_procs, PSys.upd_self]
      exact Proc.asleep_eq_false (by simp) (by simp)
    · simp only [PSys.setCpu_procs, PSys.upd_ne _ _ hap]
      exact hi.wake_scan b ch j after lk hb h hlk a ha hab

end Xv6.Procs
