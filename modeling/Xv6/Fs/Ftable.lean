import Xv6.Fs.Names
import Xv6.Pipe

/-!
# Open files and pipes (`file.c`, `pipe.c`, the descriptor calls of `sysfile.c`)

The file table `ftable.file[NFILE]` beside the inode side of `Fs.Names`, and the pages `kalloc`
gave to pipes. A process's descriptors hold indices into the file table: `ofile[fd]` is the
`struct file` open on `fd`. The namespace functions run unchanged on the inode side (`onFs`).

A step is one section of a call, cut where the code sleeps or lets go of the lock whose data the
other processes read, and each process's place between two sections is a `Pc`, which carries the
call's locals that the rest of it reads. `fileclose` is two sections, split at
`release(&ftable.lock)`: `filecloseLocked` drops the reference and, for the last one, empties the
entry and keeps its copy `ff`; `filecloseUnlocked` then closes what `ff` held, the pipe end
(`pipeclose`) or the inode (`iput`, which sleeps). `sys_open` runs `openInode`, then the table
part, then `itrunc` and `iunlock`; `exec` and `sys_chdir` hold the inode `namei` found across
their sleeps; `exit` closes one descriptor at a time, `p->ofile[fd] = 0` coming after `fileclose`,
and puts its `cwd` back before `p->cwd = 0`. `sys_dup`, `fork`, `sys_read` and `sys_write` are one
section each: they sleep with no reference of their own. The namespace calls are one section each
as well, so the inode references they hold across their sleeps, all put back before they return,
are not among those of calls in progress.

`pipealloc`'s page and `fork`'s new slot come with the event, as `kalloc` and `allocproc` return
them; a page that holds a pipe or a slot that holds a process is never returned, and an event that
names one does not happen (`FtEv.canRun`). A pipe page that holds no pipe is freed memory: code
that uses one sets `freedUse`, a field no code reads, and goes on without the pipe.

`f->off` and `f->major` are left out. The bytes `fileread` and `filewrite` move through an inode
are `Xv6.Blocks.fileread`'s and `filewrite`'s, and a device's are its driver's; here those two keep
their locking of the inode and, on a pipe, the section of `piperead` or `pipewrite` they run. The
value a call returns is not kept.

* `filealloc`, `filedup`, `filecloseLocked`, `filecloseUnlocked`, `pipealloc`, `pipeclose`,
  `fdalloc`, `argfd`;
* `Pc`, the place of a process's call; the sections of `sys_open`, `sys_close`, `sys_pipe`,
  `exit`, `exec` and `sys_chdir`, and `resume`, which runs the section at a place;
* `sysDup`, `sysRead`, `sysWrite`, `fork`, and the namespace calls of `Fs.Names`, whole;
* `ftNext`, `ftSys` : the system, one section of one process a step.
-/

namespace Xv6.Files

open Trans

/-- `enum { FD_NONE, FD_PIPE, FD_INODE, FD_DEVICE }` -/
inductive FdType where
  | none | pipe | inode | device
  deriving DecidableEq, Repr

/-- `struct file`: `pipe` is the page of its `struct pipe`, `ip` the number of its inode. -/
structure File where
  type : FdType
  ref : Nat
  readable : Bool
  writable : Bool
  pipe : Nat
  ip : Nat
  deriving DecidableEq, Repr

/-- An entry of the zeroed table. -/
def File.empty : File := ⟨.none, 0, false, false, 0, 0⟩

/-- Where a process's call stands between two of its sections; `after` is where it returns. -/
inductive Pc where
  /-- In no call. -/
  | idle
  /-- `fileclose(f)` next, on a reference the call holds. -/
  | close (f : Nat) (after : Pc)
  /-- In `fileclose` after `release(&ftable.lock)`, with `ff`, the copy of the entry it emptied. -/
  | closing (ff : File) (after : Pc)
  /-- `iunlockput(ip)` next, on a reference the call holds. -/
  | iunlockput (ip : Nat) (after : Pc)
  /-- `sys_open` with the inode `ip` that `openInode` returned, locked. -/
  | opened (ip : Nat) (omode : Int32)
  /-- `sys_open` with the entry filled in: `itrunc` when asked, then `iunlock(ip)`. -/
  | openEnd (ip : Nat) (omode : Int32)
  /-- `exec` with the inode `ip` that `namei` returned: `ilock` and the reading of the image. -/
  | execFound (ip : Nat)
  /-- `sys_chdir` with the inode `ip` that `namei` returned. -/
  | chdirFound (ip : Nat)
  /-- `sys_chdir` with `ip` checked to be a directory and unlocked: `iput(p->cwd)` next. -/
  | chdirPut (ip : Nat)
  /-- `sys_chdir` after `iput(p->cwd)`, `old` being that `cwd`: `p->cwd = ip` next. -/
  | chdirSet (ip old : Nat)
  /-- `exit`'s loop at descriptor `fd`. -/
  | exitFd (fd : Nat)
  /-- `exit` after `fileclose(f)` of descriptor `fd`: `p->ofile[fd] = 0` next. -/
  | exitClear (fd f : Nat)
  /-- `exit` with every descriptor closed: `iput(p->cwd)` next. -/
  | exitCwd
  /-- `exit` after `iput(p->cwd)`, `cwd` being the one it put: `p->cwd = 0` next. -/
  | exitDone (cwd : Nat)
  deriving DecidableEq, Repr

/-- The inode side, the file table, the pages that hold a `struct pipe`, whether code has used a
pipe page after it was freed, and where each process's call stands. -/
structure FtState where
  fs : FsState
  file : Nat → File
  pipes : Nat → Option Pipe
  freedUse : Bool
  calls : Nat → Pc

/-- Kernel code over files; `throw` is `panic`. -/
abbrev FtM := StateT FtState (Except String)

/-- A use of a pipe page that holds no pipe. -/
def freedPage : FtM Unit := modify fun t => { t with freedUse := true }

/-- A namespace function, run on the inode side. -/
def onFs {α : Type} (m : FsM α) : FtM α := fun t =>
  (m.run t.fs).map fun r => (r.1, { t with fs := r.2 })

def getFile (f : Nat) : FtM File := return (← get).file f

def setFile (f : Nat) (x : File) : FtM Unit :=
  modify fun t => { t with file := Function.update t.file f x }

def setPipe (pg : Nat) (x : Option Pipe) : FtM Unit :=
  modify fun t => { t with pipes := Function.update t.pipes pg x }

/-- `myproc()`: the record of the process making the call. The system runs only calls of
processes that exist, so the `throw` is never reached. -/
def myproc (p : Nat) : FtM Proc := do
  let some (some pr) := (← get).fs.procs[p]? | throw "myproc"
  return pr

/-! ## `file.c` and `pipe.c` -/

/-- `filealloc`: the first entry with no reference. -/
def filealloc : FtM (Option Nat) := do
  let t ← get
  match (List.range nFile).find? (fun f => (t.file f).ref == 0) with
  | none => return none
  | some f =>
    setFile f { t.file f with ref := 1 }
    return some f

/-- `filedup` -/
def filedup (f : Nat) : FtM Unit := do
  let x ← getFile f
  if x.ref < 1 then throw "filedup"
  setFile f { x with ref := x.ref + 1 }

/-- `pipeclose(pi, writable)`: the end is closed, and the page freed once both are. -/
def pipeclose (pg : Nat) (writable : Bool) : FtM Unit := do
  let some pi := (← get).pipes pg | freedPage
  let pi := if writable then { pi with writeopen := false } else { pi with readopen := false }
  if !pi.readopen && !pi.writeopen then setPipe pg none
  else setPipe pg (some pi)

/-- `fileclose` up to `release(&ftable.lock)`: `--f->ref`, and for the last reference the entry
emptied and its copy `ff` returned. -/
def filecloseLocked (f : Nat) : FtM (Option File) := do
  let x ← getFile f
  if x.ref < 1 then throw "fileclose"
  let ff := { x with ref := x.ref - 1 }
  if ff.ref > 0 then
    setFile f ff
    return none
  else
    setFile f { ff with ref := 0, type := .none }
    return some ff

/-- `fileclose` after `release(&ftable.lock)`: what the copy `ff` held is closed, the pipe end, or
the inode put back. -/
def filecloseUnlocked (ff : File) : FtM Unit :=
  match ff.type with
  | .pipe => pipeclose ff.pipe ff.writable
  | .inode | .device => onFs (iput ff.ip)
  | .none => pure ()

/-- `pipealloc(&f0, &f1)` with the page `kalloc` returns: two entries of the table, the read end
and the write end, or at `bad:` the `fileclose`s of the entries taken, after which `sys_pipe`
returns. -/
def pipealloc (page : Option Nat) : FtM (Except Pc (Nat × Nat)) := do
  let some f0 ← filealloc | return .error .idle
  let some f1 ← filealloc | return .error (.close f0 .idle)
  let some pg := page | return .error (.close f0 (.close f1 .idle))
  setPipe pg (some pipeInit)
  let x0 ← getFile f0
  setFile f0 { x0 with type := .pipe, readable := true, writable := false, pipe := pg }
  let x1 ← getFile f1
  setFile f1 { x1 with type := .pipe, readable := false, writable := true, pipe := pg }
  return .ok (f0, f1)

/-- `fileread(f, addr, n)` -/
def fileread (f : Nat) (dst : Nat → Bool) (addr : Nat) (n : Int) (killed : Bool) : FtM Unit := do
  let x ← getFile f
  if !x.readable then return
  match x.type with
  | .pipe =>
    let some pi := (← get).pipes x.pipe | freedPage
    setPipe x.pipe (some (piperead dst addr n killed pi).1)
  | .device => return
  | .inode =>
    onFs (ilock x.ip)
    onFs (iunlock x.ip)
  | .none => throw "fileread"

/-- `filewrite(f, addr, n)`; on a pipe, the section of `pipewrite` entered or resumed with `i`
bytes written. -/
def filewrite (f : Nat) (src : Nat → Option UInt8) (addr : Nat) (n : Int) (killed : Bool) (i : Nat) :
    FtM Unit := do
  let x ← getFile f
  if !x.writable then return
  match x.type with
  | .pipe =>
    let some pi := (← get).pipes x.pipe | freedPage
    setPipe x.pipe (some (pipewrite src addr n killed pi i).1)
  | .device => return
  | .inode =>
    onFs (ilock x.ip)
    onFs (iunlock x.ip)
  | .none => throw "filewrite"

/-! ## `sysfile.c` -/

/-- `fdalloc(f)`: the first free descriptor of process `p` takes `f`. -/
def fdalloc (p f : Nat) : FtM (Option Nat) := do
  let pr ← myproc p
  match pr.ofile.findIdx? (· == none) with
  | none => return none
  | some fd =>
    onFs (setProc p (some { pr with ofile := pr.ofile.set fd (some f) }))
    return some fd

/-- `argfd`: the file open on descriptor `fd`, when `fd` is in range and open. -/
def argfd (p : Nat) (fd : Int32) : FtM (Option Nat) := do
  if fd < 0 then return none
  return ((← myproc p).ofile[fd.toInt.toNat]?).join

/-- `p->ofile[fd] = 0` -/
def clearFd (p fd : Nat) : FtM Unit := do
  let pr ← myproc p
  onFs (setProc p (some { pr with ofile := pr.ofile.set fd none }))

/-- `O_WRONLY` -/
def oWronly : Int32 := 0x001

/-- `sys_open` up to `openInode`, which sleeps: the inode it returns, locked, or `-1`. -/
def sysOpen (p : Nat) (path : List UInt8) (omode : Int32) : FtM Pc := do
  let pr ← myproc p
  let some ip ← onFs (openInode pr.cwd path omode) | return .idle
  return .opened ip omode

/-- `sys_open` with the inode `ip`: an entry of the table and a descriptor for it, which the entry
gets with its type and modes; on the way out at `-1`, the entry is closed and `ip` put back. -/
def openFile (p ip : Nat) (omode : Int32) : FtM Pc := do
  let d ← onFs (getInode ip)
  if d.type = .device ∧ (d.major < 0 ∨ Int16.ofNat nDev ≤ d.major) then
    return .iunlockput ip .idle
  let some f ← filealloc | return .iunlockput ip .idle
  let some _ ← fdalloc p f | return .close f (.iunlockput ip .idle)
  let x ← getFile f
  setFile f { x with
    type := if d.type = .device then .device else .inode
    ip := ip
    readable := decide (omode &&& oWronly = 0)
    writable := decide (omode &&& oWronly ≠ 0 ∨ omode &&& oRdwr ≠ 0) }
  return .openEnd ip omode

/-- The end of `sys_open`: `itrunc` of a file opened with `O_TRUNC`, then `iunlock(ip)`. -/
def openEnd (ip : Nat) (omode : Int32) : FtM Unit := do
  let d ← onFs (getInode ip)
  if omode &&& oTrunc ≠ 0 ∧ d.type = .file then onFs (itrunc ip)
  onFs (iunlock ip)

/-- `sys_dup` -/
def sysDup (p : Nat) (fd : Int32) : FtM Int := do
  let some f ← argfd p fd | return -1
  let some fd' ← fdalloc p f | return -1
  filedup f
  return fd'

/-- `sys_close` up to its `fileclose(f)`. -/
def sysClose (p : Nat) (fd : Int32) : FtM Pc := do
  let some f ← argfd p fd | return .idle
  clearFd p fd.toInt.toNat
  return .close f .idle

/-- `sys_pipe` up to its `fileclose`s, `copyOk` saying whether both `copyout`s of the descriptors
succeed. -/
def sysPipe (p : Nat) (page : Option Nat) (copyOk : Bool) : FtM Pc := do
  match ← pipealloc page with
  | .error bad => return bad
  | .ok (rf, wf) =>
    let some fd0 ← fdalloc p rf | return .close rf (.close wf .idle)
    let some fd1 ← fdalloc p wf | do
      clearFd p fd0
      return .close rf (.close wf .idle)
    if !copyOk then
      clearFd p fd0
      clearFd p fd1
      return .close rf (.close wf .idle)
    return .idle

/-- `sys_read` -/
def sysRead (p : Nat) (fd : Int32) (dst : Nat → Bool) (addr : Nat) (n : Int) (killed : Bool) :
    FtM Unit := do
  let some f ← argfd p fd | return
  fileread f dst addr n killed

/-- `sys_write` -/
def sysWrite (p : Nat) (fd : Int32) (src : Nat → Option UInt8) (addr : Nat) (n : Int) (killed : Bool)
    (i : Nat) : FtM Unit := do
  let some f ← argfd p fd | return
  filewrite f src addr n killed i

/-- `sys_chdir` up to `namei`, which sleeps: the inode it found, or `-1`. -/
def sysChdir (p : Nat) (path : List UInt8) : FtM Pc := do
  let pr ← myproc p
  let some ip ← onFs (namei pr.cwd path) | return .idle
  return .chdirFound ip

/-- `sys_chdir` with the inode `ip`: `ilock`, and `-1` unless it is a directory. -/
def chdirCheck (ip : Nat) : FtM Pc := do
  onFs (ilock ip)
  if (← onFs (getInode ip)).type ≠ .dir then return .iunlockput ip .idle
  onFs (iunlock ip)
  return .chdirPut ip

/-! ## `fork`, `exit`, `exec` -/

/-- `filedup` of each open descriptor, in order. -/
def dupAll : List (Option Nat) → FtM Unit
  | [] => return
  | none :: fs => dupAll fs
  | some f :: fs => do
    filedup f
    dupAll fs

/-- The file part of `fork` by `p`: `child` is the slot `allocproc` took, or `none` when
`allocproc` or `uvmcopy` failed and `fork` returns `-1` having taken nothing. The child gets the
parent's descriptors, each file `filedup`ed, and its `cwd`, `idup`ed. -/
def fork (p : Nat) (child : Option Nat) : FtM Unit := do
  let some c := child | return
  let pr ← myproc p
  dupAll pr.ofile
  onFs (idup pr.cwd)
  onFs (setProc c (some { cwd := pr.cwd, ofile := pr.ofile }))

/-- `exit`'s loop from descriptor `fd`, `l` being the descriptors from there on: `fileclose` of the
next open one, or the `cwd` when none is left. -/
def exitScan : List (Option Nat) → Nat → Pc
  | [], _ => .exitCwd
  | none :: l, fd => exitScan l (fd + 1)
  | some f :: _, fd => .close f (.exitClear fd f)

/-- `exit`'s loop at descriptor `fd`. -/
def exitFd (p fd : Nat) : FtM Pc := do
  let pr ← myproc p
  return exitScan (pr.ofile.drop fd) fd

/-- The file part of `exit`; slot 0 is `initproc`. -/
def exit (p : Nat) : FtM Pc := do
  if p = 0 then throw "init exiting"
  exitFd p 0

/-- `exec` up to `namei`, which sleeps: the program's inode, or `-1`. -/
def exec (p : Nat) (path : List UInt8) : FtM Pc := do
  let pr ← myproc p
  let some ip ← onFs (namei pr.cwd path) | return .idle
  return .execFound ip

/-- The section at a place of process `p`'s call, and the place it leaves the call at. -/
def resume (p : Nat) : Pc → FtM Pc
  | .idle => return .idle
  | .close f after => do
    match ← filecloseLocked f with
    | some ff => return .closing ff after
    | none => return after
  | .closing ff after => do
    filecloseUnlocked ff
    return after
  | .iunlockput ip after => do
    onFs (iunlockput ip)
    return after
  | .opened ip omode => openFile p ip omode
  | .openEnd ip omode => do
    openEnd ip omode
    return .idle
  | .execFound ip => do
    -- the image is read under the lock; `iunlockput` on every way out
    onFs (ilock ip)
    return .iunlockput ip .idle
  | .chdirFound ip => chdirCheck ip
  | .chdirPut ip => do
    let pr ← myproc p
    onFs (iput pr.cwd)
    return .chdirSet ip pr.cwd
  | .chdirSet ip _ => do
    let pr ← myproc p
    onFs (setProc p (some { pr with cwd := ip }))
    return .idle
  | .exitFd fd => exitFd p fd
  | .exitClear fd _ => do
    clearFd p fd
    return .exitFd (fd + 1)
  | .exitCwd => do
    let pr ← myproc p
    onFs (iput pr.cwd)
    return .exitDone pr.cwd
  | .exitDone _ => do
    -- the process holds nothing from here on
    onFs (setProc p none)
    return .idle

example (t : FtState) : (resume 0 .idle).run t = .ok (.idle, t) := by unfold resume; rfl

/-! ## The system -/

/-- A call by process `p`, begun; or `resume p`, the next section of the call `p` is in. -/
inductive FtEv where
  | sysOpen (p : Nat) (path : List UInt8) (omode : Int32)
  | sysMkdir (p : Nat) (path : List UInt8)
  | sysMknod (p : Nat) (path : List UInt8) (major : Int32)
  | sysLink (p : Nat) (old new : List UInt8)
  | sysUnlink (p : Nat) (path : List UInt8)
  | sysChdir (p : Nat) (path : List UInt8)
  | sysDup (p : Nat) (fd : Int32)
  | sysClose (p : Nat) (fd : Int32)
  | sysPipe (p : Nat) (page : Option Nat) (copyOk : Bool)
  | sysRead (p : Nat) (fd : Int32) (dst : Nat → Bool) (addr : Nat) (n : Int) (killed : Bool)
  | sysWrite (p : Nat) (fd : Int32) (src : Nat → Option UInt8) (addr : Nat) (n : Int) (killed : Bool)
      (i : Nat)
  | fork (p : Nat) (child : Option Nat)
  | exit (p : Nat)
  | exec (p : Nat) (path : List UInt8)
  | resume (p : Nat)

def FtEv.proc : FtEv → Nat
  | .sysOpen p .. | .sysMkdir p .. | .sysMknod p .. | .sysLink p .. | .sysUnlink p ..
  | .sysChdir p .. | .sysDup p .. | .sysClose p .. | .sysPipe p .. | .sysRead p ..
  | .sysWrite p .. | .fork p .. | .exit p | .exec p .. | .resume p => p

/-- A process begins a call only when it is in no call (`Pc.idle`), and resumes only the one it is
in; `kalloc` returns a page that holds no pipe, and `allocproc` a slot that holds no process. -/
def FtEv.canRun (t : FtState) : FtEv → Bool
  | .resume p => t.calls p != .idle
  | .sysPipe p (some pg) _ => t.calls p == .idle && (t.pipes pg).isNone
  | .fork p (some c) => t.calls p == .idle && t.fs.procs[c]? == some none
  | e => t.calls e.proc == .idle

/-- The section an event runs, and the place it leaves its process at. -/
def ftCall : FtEv → FtM Pc
  | .sysOpen p path omode => sysOpen p path omode
  | .sysMkdir p path => do
    discard <| onFs (sysMkdir (← myproc p) path)
    return .idle
  | .sysMknod p path major => do
    discard <| onFs (sysMknod (← myproc p) path major)
    return .idle
  | .sysLink p old new => do
    discard <| onFs (sysLink (← myproc p) old new)
    return .idle
  | .sysUnlink p path => do
    discard <| onFs (sysUnlink (← myproc p) path)
    return .idle
  | .sysChdir p path => sysChdir p path
  | .sysDup p fd => do
    discard <| sysDup p fd
    return .idle
  | .sysClose p fd => sysClose p fd
  | .sysPipe p page copyOk => sysPipe p page copyOk
  | .sysRead p fd dst addr n killed => do
    sysRead p fd dst addr n killed
    return .idle
  | .sysWrite p fd src addr n killed i => do
    sysWrite p fd src addr n killed i
    return .idle
  | .fork p child => do
    fork p child
    return .idle
  | .exit p => exit p
  | .exec p path => exec p path
  | .resume p => do resume p ((← get).calls p)

/-- One section of a live process's call. -/
def ftNext (t : FtState) (e : FtEv) : Outcome FtState :=
  match t.fs.procs[e.proc]? with
  | some (some _) =>
    if e.canRun t then
      match (ftCall e).run t with
      | .ok (c, t') => .ok { t' with calls := Function.update t.calls e.proc c }
      | .error m => .panic m
    else .blocked
  | _ => .blocked

/-- The system after boot on the image of `fsSys`: no file open, no pipe, and no call begun. -/
def ftSys (nproc : Nat) : System FtState FtEv where
  init := { fs := (fsSys nproc).init, file := fun _ => File.empty, pipes := fun _ => none,
            freedUse := false, calls := fun _ => .idle }
  next := ftNext

end Xv6.Files
