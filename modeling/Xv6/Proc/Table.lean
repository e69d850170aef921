import Mathlib
import Xv6.Lib.Trans
import Xv6.Param

/-!
# The process table (`proc.c`)

`struct proc` with the fields that `scheduler`, `sleep`, `wakeup`, `kill`, `fork`, `exit` and
`wait` read and write, each CPU's `c->proc`, and where each process's kernel thread is in the code.
A step is one section between an `acquire` and its `release`. Where `p->lock` passes from one
thread to another (from `scheduler` to `forkret`, `yield` and `sleep`, and from `yield`, `sleep` and
`exit` back to `scheduler`), the step is the whole section, from the `acquire` in one thread to the
`release` in the other. `sleep` has two steps, since `release(lk)` comes inside its `p->lock`
section: a process between them holds its own `p->lock` and no `lk`.

A thread holds a spinlock only while it runs, and which one it holds is read off its place in the
code (`Pc.holds`). The table has `nproc` slots and the machine `ncpu` CPUs; `initproc` is the slot
`userinit` took, and the system starts as `userinit` leaves the table.

* `Proc`, `PSys`; `Pc`, the place of a thread; `PEv`, the sections;
* `scheduler`, `yield`, `sleep`, `sleepSched`, `wakeup`, `wakeStep`, `kill`, `fork`, `forkParent`,
  `forkRun`, `exit`, `reparent`, `exitSched`, `wait`, `waitStep`; `procNext`, `procSys`.
-/

namespace Xv6.Procs
open Trans

/-- `enum procstate`. -/
inductive PState
  | unused | used | sleeping | runnable | running | zombie
  deriving DecidableEq, Repr

/-- A channel of `sleep` and `wakeup`: a process, which `wait` sleeps on and `exit` wakes, or
another object of the kernel. -/
inductive Chan
  | proc (p : Nat)
  | obj (a : Nat)
  deriving DecidableEq, Repr

/-- A spinlock held across sections: `wait_lock`, or the lock of an object, which a `sleep` names
as its condition lock. -/
inductive Lock
  | wait
  | obj (a : Nat)
  deriving DecidableEq, Repr

/-- Where a process's kernel thread is. -/
inductive Pc
  /-- In user space, or in kernel code that holds none of the locks modelled here. -/
  | user
  /-- Holds the lock `lk` of an object. -/
  | holding (lk : Lock)
  /-- In `sleep(ch, lk)`, then back at `after`, which holds `lk` again. -/
  | sleeping (ch : Chan) (lk : Lock) (after : Pc)
  /-- Back from `sched` in `sleep`, at its `acquire(lk)`. -/
  | relock (lk : Lock) (after : Pc)
  /-- In `wakeup(ch)`'s loop at slot `j`, then back at `after`. -/
  | wakeup (ch : Chan) (j : Nat) (after : Pc)
  /-- In `fork`, after the section that made `np` with pid `pid`. -/
  | forked (np : Nat) (pid : Int32)
  /-- In `fork`, after `np->parent = p`. -/
  | parented (np : Nat) (pid : Int32)
  /-- In `exit(status)`, holding `wait_lock`, with `reparent`'s loop at slot `j`. -/
  | reparent (j : Nat) (status : Int)
  /-- In `exit(status)`, holding `wait_lock`, after `wakeup(p->parent)`. -/
  | exitSched (status : Int)
  /-- In `wait`, holding `wait_lock`, with the scan at slot `j`. -/
  | waiting (j : Nat) (havekids : Bool)
  deriving DecidableEq, Repr

/-- Whether the thread holds `l` here. -/
def Pc.holds : Pc → Lock → Bool
  | .holding lk, l => lk == l
  | .wakeup _ _ after, l => after.holds l
  | .reparent _ _, l => l == .wait
  | .exitSched _, l => l == .wait
  | .waiting _ _, l => l == .wait
  | _, _ => false

example : (Pc.wakeup (.proc 1) 0 (.reparent 2 0)).holds .wait = true := by simp [Pc.holds]

/-- The thread holds no spinlock here and has interrupts on, so a timer interrupt may `yield`. -/
def Pc.preemptible : Pc → Bool
  | .user | .relock _ _ | .forked _ _ | .parented _ _ => true
  | _ => false

/-- `struct proc`: the fields `proc.c` keeps under `p->lock` or `wait_lock`, `trapframe->a0` (what
the last system call returned), and the place of the thread. -/
structure Proc where
  state : PState
  chan : Option Chan
  killed : Bool
  xstate : Int
  /-- `int pid` -/
  pid : Int32
  parent : Option Nat
  ret : Int
  pc : Pc
  deriving DecidableEq, Repr

/-- An UNUSED slot of the zeroed table. -/
def Proc.unused : Proc := ⟨.unused, none, false, 0, 0, none, 0, .user⟩

/-- `freeproc`. -/
def freeproc (q : Proc) : Proc :=
  { q with
    state := .unused, chan := none, killed := false, xstate := 0, pid := 0, parent := none, pc := .user }

/-- The process is between `sleep`'s two sections and holds its own `p->lock`. -/
def Proc.locked (q : Proc) : Bool :=
  match q.pc with
  | .sleeping _ _ _ => q.state == .running
  | _ => false

/-- The process is in a `sleep(ch, lk)` that no `wakeup` or `kill` has ended. -/
def Proc.asleep (q : Proc) (ch : Chan) (lk : Lock) : Bool :=
  match q.pc with
  | .sleeping ch' lk' _ => ch' == ch && lk' == lk && (q.state == .sleeping || q.state == .running)
  | _ => false

/-- The process's side of `scheduler`'s switch: back in `sleep`, it clears `p->chan` and goes on
to its `acquire(lk)`. -/
def Proc.resume (q : Proc) : Proc :=
  match q.pc with
  | .sleeping _ lk after => { q with state := .running, chan := none, pc := .relock lk after }
  | _ => { q with state := .running }

/-- `wakeup`'s test of one process. -/
def Proc.wake (ch : Chan) (q : Proc) : Proc :=
  if q.state = .sleeping ∧ q.chan = some ch then { q with state := .runnable } else q

/-- The process table, `c->proc` of each CPU, and `nextpid`, an `int` that `allocpid` increments
with no test. -/
structure PSys where
  procs : Nat → Proc
  cpus : Nat → Option Nat
  nextpid : Int32

/-- `initproc`: `userinit`'s `allocproc` takes the first slot. -/
def initproc : Nat := 0

/-- Slot `j` changed by `f`. -/
def PSys.upd (s : PSys) (j : Nat) (f : Proc → Proc) : PSys :=
  { s with procs := Function.update s.procs j (f (s.procs j)) }

/-- CPU `c`'s `c->proc` set to `o`. -/
def PSys.setCpu (s : PSys) (c : Nat) (o : Option Nat) : PSys :=
  { s with cpus := Function.update s.cpus c o }

@[simp] theorem PSys.upd_procs (s : PSys) (j : Nat) (f : Proc → Proc) (k : Nat) :
    (s.upd j f).procs k = if k = j then f (s.procs j) else s.procs k := by
  simp [PSys.upd, Function.update_apply]

theorem PSys.upd_self (s : PSys) (j : Nat) (f : Proc → Proc) : (s.upd j f).procs j = f (s.procs j) := by
  simp

theorem PSys.upd_ne (s : PSys) {j k : Nat} (f : Proc → Proc) (h : k ≠ j) :
    (s.upd j f).procs k = s.procs k := by
  simp [h]

theorem PSys.upd_congr {s : PSys} {j : Nat} {f g : Proc → Proc} (h : f (s.procs j) = g (s.procs j)) :
    s.upd j f = s.upd j g := by
  simp only [PSys.upd, h]

theorem PSys.upd_upd (s : PSys) (j : Nat) (f g : Proc → Proc) :
    (s.upd j f).upd j g = s.upd j fun r => g (f r) := by
  simp only [PSys.upd, Function.update_self, Function.update_idem]

theorem PSys.upd_comm (s : PSys) {j k : Nat} (h : j ≠ k) (f g : Proc → Proc) :
    (s.upd j f).upd k g = (s.upd k g).upd j f := by
  simp only [PSys.upd, Function.update_of_ne h, Function.update_of_ne (Ne.symm h)]
  rw [Function.update_comm h]

@[simp] theorem PSys.upd_cpus (s : PSys) (j : Nat) (f : Proc → Proc) : (s.upd j f).cpus = s.cpus :=
  rfl

@[simp] theorem PSys.upd_nextpid (s : PSys) (j : Nat) (f : Proc → Proc) :
    (s.upd j f).nextpid = s.nextpid := rfl

@[simp] theorem PSys.setCpu_procs (s : PSys) (c : Nat) (o : Option Nat) :
    (s.setCpu c o).procs = s.procs := rfl

@[simp] theorem PSys.setCpu_cpus (s : PSys) (c : Nat) (o : Option Nat) (c' : Nat) :
    (s.setCpu c o).cpus c' = if c' = c then o else s.cpus c' := by
  simp [PSys.setCpu, Function.update_apply]

@[simp] theorem PSys.setCpu_nextpid (s : PSys) (c : Nat) (o : Option Nat) :
    (s.setCpu c o).nextpid = s.nextpid := rfl

/-- The sections, each run by the thread on CPU `c`: its `scheduler`, or the process it runs. -/
inductive PEv
  | scheduler (c p : Nat)
  | yield (c : Nat)
  | acquire (c a : Nat)
  | relock (c : Nat)
  | release (c : Nat)
  | sleep (c : Nat) (ch : Chan)
  | sleepSched (c : Nat)
  | wakeup (c : Nat) (ch : Chan)
  | wakeStep (c : Nat)
  | kill (c : Nat) (pid : Int32)
  | fork (c np : Nat) (ok : Bool)
  | forkFull (c : Nat)
  | forkParent (c : Nat)
  | forkRun (c : Nat)
  | exit (c : Nat) (status : Int)
  | reparent (c : Nat)
  | exitSched (c : Nat)
  | wait (c : Nat)
  | waitStep (c : Nat) (copied : Bool)

section Sections
variable (nproc ncpu : Nat)

/-- No process of the table holds `lk`, so `acquire(lk)` goes on. -/
def PSys.free (s : PSys) (lk : Lock) : Bool :=
  (List.range nproc).all fun k => !(s.procs k).pc.holds lk

/-- One turn of `scheduler`'s loop on CPU `c` that finds `p` RUNNABLE, with `p`'s side of the
switch up to its `release(&p->lock)` in `forkret`, `yield` or `sleep`. -/
def scheduler (s : PSys) (c p : Nat) : Outcome PSys :=
  if c < ncpu ∧ p < nproc ∧ s.cpus c = none ∧ (s.procs p).state = .runnable then
    .ok ((s.upd p Proc.resume).setCpu c (some p))
  else .blocked

/-- `yield` from a timer interrupt, with `scheduler`'s side of the switch: `c->proc = 0` and
`release(&p->lock)`. -/
def yield (s : PSys) (c p : Nat) (q : Proc) : Outcome PSys :=
  if q.pc.preemptible then .ok ((s.upd p fun r => { r with state := .runnable }).setCpu c none)
  else .blocked

/-- `acquire` of an object's lock. -/
def acquire (s : PSys) (p : Nat) (q : Proc) (a : Nat) : Outcome PSys :=
  if q.pc = .user ∧ s.free nproc (.obj a) then .ok (s.upd p fun r => { r with pc := .holding (.obj a) })
  else .blocked

/-- `sleep`'s last line, `acquire(lk)`. -/
def relock (s : PSys) (p : Nat) (q : Proc) : Outcome PSys :=
  match q.pc with
  | .relock lk after => if s.free nproc lk then .ok (s.upd p fun r => { r with pc := after }) else .blocked
  | _ => .blocked

/-- `release` of an object's lock. -/
def release (s : PSys) (p : Nat) (q : Proc) : Outcome PSys :=
  match q.pc with
  | .holding _ => .ok (s.upd p fun r => { r with pc := .user })
  | _ => .blocked

/-- `sleep(ch, lk)`'s first step: `acquire(&p->lock)` and `release(lk)`. -/
def sleep (s : PSys) (p : Nat) (q : Proc) (ch : Chan) : Outcome PSys :=
  match q.pc with
  | .holding lk => .ok (s.upd p fun r => { r with pc := .sleeping ch lk (.holding lk) })
  | _ => .blocked

/-- `sleep`'s second step: `p->chan`, SLEEPING and `sched`, with `scheduler`'s side of the switch. -/
def sleepSched (s : PSys) (c p : Nat) (q : Proc) : Outcome PSys :=
  match q.pc with
  | .sleeping ch _ _ =>
    if q.state = .running then
      .ok ((s.upd p fun r => { r with chan := some ch, state := .sleeping }).setCpu c none)
    else .blocked
  | _ => .blocked

/-- `wakeup(ch)`, called with an object's lock held. -/
def wakeup (s : PSys) (p : Nat) (q : Proc) (ch : Chan) : Outcome PSys :=
  match q.pc with
  | .holding lk => .ok (s.upd p fun r => { r with pc := .wakeup ch 0 (.holding lk) })
  | _ => .blocked

/-- One turn of `wakeup`'s loop: a slot other than the caller's, tested under its `p->lock`. -/
def wakeStep (s : PSys) (p : Nat) (q : Proc) : Outcome PSys :=
  match q.pc with
  | .wakeup ch j after =>
    if j < nproc then
      if j = p then .ok (s.upd p fun r => { r with pc := .wakeup ch (j + 1) after })
      else if (s.procs j).locked then .blocked
      else .ok ((s.upd j (Proc.wake ch)).upd p fun r => { r with pc := .wakeup ch (j + 1) after })
    else .ok (s.upd p fun r => { r with pc := after })
  | _ => .blocked

/-- `kill(pid)`: the first slot with that pid, under its `p->lock`. -/
def kill (s : PSys) (p : Nat) (q : Proc) (pid : Int32) : Outcome PSys :=
  if q.pc = .user then
    match (List.range nproc).find? fun j => (s.procs j).pid == pid with
    | some j =>
      if (s.procs j).locked then .blocked
      else
        .ok ((s.upd j fun r =>
          { r with killed := true, state := if r.state = .sleeping then .runnable else r.state }).upd p
            fun r => { r with ret := 0 })
    | none => .ok (s.upd p fun r => { r with ret := -1 })
  else .blocked

/-- `fork`'s first section: `allocproc` finds `np` UNUSED and makes it USED with the next pid, and
the copy follows; when an allocation or `uvmcopy` fails (`ok = false`), `freeproc` and `-1`. -/
def fork (s : PSys) (p : Nat) (q : Proc) (np : Nat) (ok : Bool) : Outcome PSys :=
  if q.pc = .user ∧ np < nproc ∧ (s.procs np).state = .unused then
    let s1 := { s with nextpid := s.nextpid + 1 }.upd np fun r => { r with state := .used, pid := s.nextpid }
    if ok then .ok ((s1.upd np fun r => { r with ret := 0 }).upd p fun r => { r with pc := .forked np s.nextpid })
    else .ok ((s1.upd np freeproc).upd p fun r => { r with ret := -1 })
  else .blocked

/-- `allocproc` finds no slot UNUSED, and `fork` returns `-1`. -/
def forkFull (s : PSys) (p : Nat) (q : Proc) : Outcome PSys :=
  if q.pc = .user ∧ (List.range nproc).all (fun j => (s.procs j).state != .unused) then
    .ok (s.upd p fun r => { r with ret := -1 })
  else .blocked

/-- `fork`'s section under `wait_lock`: `np->parent = p`. -/
def forkParent (s : PSys) (p : Nat) (q : Proc) : Outcome PSys :=
  match q.pc with
  | .forked np pid =>
    if s.free nproc .wait then
      .ok ((s.upd np fun r => { r with parent := some p }).upd p fun r => { r with pc := .parented np pid })
    else .blocked
  | _ => .blocked

/-- `fork`'s last section: `np` RUNNABLE, and `fork` returns its pid. -/
def forkRun (s : PSys) (p : Nat) (q : Proc) : Outcome PSys :=
  match q.pc with
  | .parented np pid =>
    if (s.procs np).locked then .blocked
    else .ok ((s.upd np fun r => { r with state := .runnable }).upd p fun r => { r with pc := .user, ret := pid.toInt })
  | _ => .blocked

/-- `exit(status)` up to `acquire(&wait_lock)`; `initproc` panics. -/
def exit (s : PSys) (p : Nat) (q : Proc) (status : Int) : Outcome PSys :=
  if q.pc = .user then
    if p = initproc then .panic "init exiting"
    else if s.free nproc .wait then .ok (s.upd p fun r => { r with pc := .reparent 0 status })
    else .blocked
  else .blocked

/-- One turn of `reparent`'s loop, which hands a child to `initproc` and wakes it; after the last,
`wakeup(p->parent)`. -/
def reparent (s : PSys) (p : Nat) (q : Proc) : Outcome PSys :=
  match q.pc with
  | .reparent j status =>
    if j < nproc then
      if (s.procs j).parent = some p then
        .ok ((s.upd j fun r => { r with parent := some initproc }).upd p
          fun r => { r with pc := .wakeup (.proc initproc) 0 (.reparent (j + 1) status) })
      else .ok (s.upd p fun r => { r with pc := .reparent (j + 1) status })
    else
      match q.parent with
      | some pp => .ok (s.upd p fun r => { r with pc := .wakeup (.proc pp) 0 (.exitSched status) })
      | none => .ok (s.upd p fun r => { r with pc := .exitSched status })
  | _ => .blocked

/-- `exit`'s last section: `xstate` and ZOMBIE under `p->lock`, `release(&wait_lock)`, and `sched`,
with `scheduler`'s side of the switch. -/
def exitSched (s : PSys) (c p : Nat) (q : Proc) : Outcome PSys :=
  match q.pc with
  | .exitSched status =>
    .ok ((s.upd p fun r => { r with xstate := status, state := .zombie, pc := .user }).setCpu c none)
  | _ => .blocked

/-- `wait`'s `acquire(&wait_lock)`. -/
def wait (s : PSys) (p : Nat) (q : Proc) : Outcome PSys :=
  if q.pc = .user ∧ s.free nproc .wait then .ok (s.upd p fun r => { r with pc := .waiting 0 false })
  else .blocked

/-- One turn of `wait`'s scan, or its end. A child in slot `j` is tested under its `p->lock`; a
ZOMBIE child is reclaimed and its pid returned, unless the `copyout` of its status fails
(`copied = false`) and `wait` returns `-1`. After the scan: `-1` when there are no children or the
caller is killed, else `sleep(p, &wait_lock)` and a new scan. -/
def waitStep (s : PSys) (p : Nat) (q : Proc) (copied : Bool) : Outcome PSys :=
  match q.pc with
  | .waiting j havekids =>
    if j < nproc then
      if (s.procs j).parent = some p then
        if (s.procs j).locked then .blocked
        else if (s.procs j).state = .zombie then
          if copied then
            .ok ((s.upd j freeproc).upd p fun r => { r with pc := .user, ret := (s.procs j).pid.toInt })
          else .ok (s.upd p fun r => { r with pc := .user, ret := -1 })
        else .ok (s.upd p fun r => { r with pc := .waiting (j + 1) true })
      else .ok (s.upd p fun r => { r with pc := .waiting (j + 1) havekids })
    else if !havekids || q.killed then .ok (s.upd p fun r => { r with pc := .user, ret := -1 })
    else .ok (s.upd p fun r => { r with pc := .sleeping (.proc p) .wait (.waiting 0 false) })
  | _ => .blocked

/-- The process that CPU `c` runs takes a section. -/
def PSys.onCpu (s : PSys) (c : Nat) (k : Nat → Proc → Outcome PSys) : Outcome PSys :=
  match s.cpus c with
  | some p => k p (s.procs p)
  | none => .blocked

/-- A section of `proc.c`. -/
def procNext (s : PSys) : PEv → Outcome PSys
  | .scheduler c p => scheduler nproc ncpu s c p
  | .yield c => s.onCpu c fun p q => yield s c p q
  | .acquire c a => s.onCpu c fun p q => acquire nproc s p q a
  | .relock c => s.onCpu c fun p q => relock nproc s p q
  | .release c => s.onCpu c fun p q => release s p q
  | .sleep c ch => s.onCpu c fun p q => sleep s p q ch
  | .sleepSched c => s.onCpu c fun p q => sleepSched s c p q
  | .wakeup c ch => s.onCpu c fun p q => wakeup s p q ch
  | .wakeStep c => s.onCpu c fun p q => wakeStep nproc s p q
  | .kill c pid => s.onCpu c fun p q => kill nproc s p q pid
  | .fork c np ok => s.onCpu c fun p q => fork nproc s p q np ok
  | .forkFull c => s.onCpu c fun p q => forkFull nproc s p q
  | .forkParent c => s.onCpu c fun p q => forkParent nproc s p q
  | .forkRun c => s.onCpu c fun p q => forkRun s p q
  | .exit c status => s.onCpu c fun p q => exit nproc s p q status
  | .reparent c => s.onCpu c fun p q => reparent nproc s p q
  | .exitSched c => s.onCpu c fun p q => exitSched s c p q
  | .wait c => s.onCpu c fun p q => wait nproc s p q
  | .waitStep c copied => s.onCpu c fun p q => waitStep nproc s p q copied

/-- The table as `userinit` leaves it: `initproc` RUNNABLE with pid 1, and every CPU in its
scheduler. -/
def procInit : PSys :=
  ⟨Function.update (fun _ => Proc.unused) initproc { Proc.unused with state := .runnable, pid := 1 },
    fun _ => none, 2⟩

/-- The process table as a system. -/
def procSys : System PSys PEv := ⟨procInit, procNext nproc ncpu⟩

end Sections

/-- xv6's table: `NPROC` slots and `NCPU` CPUs. -/
def xvProc : System PSys PEv := procSys nProc nCpu

end Xv6.Procs
