import Mathlib
import Xv6.Lib.Trans
import Xv6.Param

/-!
# The file-system namespace (`fs.c`, `sysfile.c`)

The inode table and the directory tree as the namespace system calls see them, with each call run
whole (under `begin_op`/`end_op`, which make it atomic on disk; the log itself is in `Log.Crash`).
The calls are written in `StateT FsState (Except String)`, where `throw` is the kernel's `panic`.

An on-disk inode keeps what these calls read of it: the directory entries of a directory stand for
its content (entry `k` at byte `16 k`), and `nblocks` counts the blocks `addrs` holds. A directory
holds exactly the blocks below its size (the indirect block besides, past `NDIRECT` of them):
`dirlink` only appends, and `mkfs` rounds the root's size up within its first block. Each process
has its `cwd` and the inodes of its open descriptors; `fork` and `dup` are not among these calls,
so each `struct file` has one descriptor and `fileclose` drops it.

* `skipelem`, `namex`, `iget`, `ilock`, `iput`, `dirlookup`, `dirlink`, `ialloc`, `create`, and the
  calls `sys_open`, `sys_mkdir`, `sys_mknod`, `sys_link`, `sys_unlink`, `sys_chdir`, `sys_close`
  and the file part of `exit`, as the system `fsSys` over an image `mkfs` makes;
* `Named s i` : inode `i` is reached from the root through entries other than `.` and `..`;
* `unlinked_cwd_leaks_inode` : a file created in a directory that was unlinked while it is the
  caller's `cwd` ends allocated, with `nlink = 1`, no reference and no name.
-/

namespace Xv6

open Trans

/-- An inode's `type` (`stat.h`); `free` is the `0` of an unallocated inode. -/
inductive IType where
  | free | dir | file | device
  deriving DecidableEq, Repr

/-- `struct dirent`: an entry with `inum = 0` is empty. The name holds the bytes before the first
`NUL`, at most `DIRSIZ` of them. -/
structure Dirent where
  inum : Nat
  name : List UInt8
  deriving DecidableEq, Repr

/-- `struct dinode` as the namespace calls read it. -/
structure DInode where
  type : IType
  major : Int16
  nlink : Int16
  size : Nat
  nblocks : Nat
  ents : List Dirent
  deriving DecidableEq, Repr

/-- The inode `ialloc` leaves: zeroed, with its type set. -/
def DInode.fresh (t : IType) : DInode := ⟨t, 0, 0, 0, 0, []⟩

/-- Whether the inode holds its indirect block: more blocks than lie below its size. -/
def DInode.hasIndirect (d : DInode) : Bool := (d.size + bSize - 1) / bSize < d.nblocks

/-- `writei` of one entry at slot `k`, its blocks apart. -/
def DInode.putEnt (d : DInode) (k : Nat) (de : Dirent) : DInode :=
  { d with ents := if k < d.ents.length then d.ents.set k de else d.ents ++ [de],
           size := max d.size (16 * k + 16) }

/-- A process as these calls see it: its `cwd`, and the inode of the file open on each of its
`NOFILE` descriptors. -/
structure Proc where
  cwd : Nat
  ofile : List (Option Nat)
  deriving DecidableEq, Repr

/-- The disk (inodes and the count of free blocks), the inode table (`ref`, `valid`), the number
of entries of the file table in use, and the process table (`none` once a process has exited). -/
structure FsState where
  inode : Nat → DInode
  ninodes : Nat
  nfree : Nat
  ref : Nat → Nat
  valid : Nat → Bool
  nfile : Nat
  procs : List (Option Proc)

/-- Kernel code over the file system; `throw` is `panic`. -/
abbrev FsM := StateT FsState (Except String)

/-- `"."` -/
def dot : List UInt8 := [46]

/-- `".."` -/
def dotdot : List UInt8 := [46, 46]

/-! ## Inodes -/

def getInode (i : Nat) : FsM DInode := return (← get).inode i

def setInode (i : Nat) (f : DInode → DInode) : FsM Unit :=
  modify fun s => { s with inode := Function.update s.inode i (f (s.inode i)) }

def setRef (i n : Nat) : FsM Unit :=
  modify fun s => { s with ref := Function.update s.ref i n }

/-- The inodes with an entry of the inode table in use. -/
def FsState.inUse (s : FsState) : Nat := ((List.range s.ninodes).filter fun i => 0 < s.ref i).length

/-- `iget`: a new reference, taking a free entry of the table when the inode has none. -/
def iget (inum : Nat) : FsM Unit := do
  let s ← get
  if 0 < s.ref inum then setRef inum (s.ref inum + 1)
  else if s.inUse < nInode then
    set { s with ref := Function.update s.ref inum 1, valid := Function.update s.valid inum false }
  else throw "iget: no inodes"

/-- `idup` -/
def idup (i : Nat) : FsM Unit := do setRef i ((← get).ref i + 1)

/-- `ilock`: reads the inode in when the entry is not valid. -/
def ilock (i : Nat) : FsM Unit := do
  let s ← get
  if s.ref i < 1 then throw "ilock"
  if !s.valid i then
    set { s with valid := Function.update s.valid i true }
    if (s.inode i).type = .free then throw "ilock: no type"

/-- `iunlock` -/
def iunlock (i : Nat) : FsM Unit := do
  if (← get).ref i < 1 then throw "iunlock"

/-- `itrunc`: every block goes back to the bitmap. -/
def itrunc (i : Nat) : FsM Unit :=
  modify fun s => { s with
    nfree := s.nfree + (s.inode i).nblocks,
    inode := Function.update s.inode i { s.inode i with size := 0, nblocks := 0, ents := [] } }

/-- `iput`: dropping the last reference to a valid inode with no links frees it. -/
def iput (i : Nat) : FsM Unit := do
  let s ← get
  if s.ref i = 1 ∧ s.valid i = true ∧ (s.inode i).nlink = 0 then
    itrunc i
    setInode i fun d => { d with type := .free }
    modify fun s => { s with valid := Function.update s.valid i false }
  modify fun s => { s with ref := Function.update s.ref i (s.ref i - 1) }

/-- `iunlockput` -/
def iunlockput (i : Nat) : FsM Unit := do
  iunlock i
  iput i

/-- `ialloc`: the first free inode from 1 on, zeroed with its type set, and a reference to it. -/
def ialloc (type : IType) : FsM (Option Nat) := do
  let s ← get
  match (List.range' 1 (s.ninodes - 1)).find? fun i => (s.inode i).type = .free with
  | none => return none
  | some i =>
    setInode i fun _ => DInode.fresh type
    iget i
    return some i

/-! ## Directories -/

/-- `namecmp(s, t) == 0`: `strncmp` compares at most `DIRSIZ` bytes. -/
def namecmp (s t : List UInt8) : Bool := s.take dirSiz == t.take dirSiz

/-- The first entry in use under `name`, with its slot, counting slots from `k`. -/
def findEntry (name : List UInt8) : List Dirent → Nat → Option (Nat × Nat)
  | [], _ => none
  | de :: ents, k =>
    if de.inum ≠ 0 ∧ namecmp name de.name = true then some (de.inum, k) else findEntry name ents (k + 1)

/-- `dirlookup`: the inode an entry names, with a reference, and the entry's slot. -/
def dirlookup (dp : Nat) (name : List UInt8) : FsM (Option (Nat × Nat)) := do
  if (← getInode dp).type ≠ .dir then throw "dirlookup not DIR"
  match findEntry name (← getInode dp).ents 0 with
  | none => return none
  | some (inum, k) =>
    iget inum
    return some (inum, k)

/-- `balloc` for inode `i`: a free block becomes one of its blocks; `false` when none is free. -/
def balloc (i : Nat) : FsM Bool := do
  let s ← get
  if s.nfree = 0 then return false
  set { s with nfree := s.nfree - 1 }
  setInode i fun d => { d with nblocks := d.nblocks + 1 }
  return true

/-- `bmap(ip, bn)` of the block just past the end: past `NDIRECT` blocks the indirect block comes
first, and stays when the data block cannot be had. -/
def bmapAppend (i bn : Nat) : FsM Bool := do
  if bn < nDirect then balloc i
  else
    if !(← getInode i).hasIndirect then
      if !(← balloc i) then return false
    balloc i

/-- `writei(dp, 0, &de, 16 k, 16)`; `false` stands for a short write. -/
def writeDirent (dp k : Nat) (de : Dirent) : FsM Bool := do
  let d ← getInode dp
  let off := 16 * k
  if d.size < off ∨ maxFile * bSize < off + 16 then return false
  if d.size ≤ off ∧ off % bSize = 0 then
    if !(← bmapAppend dp (off / bSize)) then return false
  setInode dp fun d => d.putEnt k de
  return true

/-- `dirlink`: the name, as `strncpy` copies it into `de.name`, into the first empty slot, or a
new one at the end. -/
def dirlink (dp : Nat) (name : List UInt8) (inum : Nat) : FsM Bool := do
  match ← dirlookup dp name with
  | some (ip, _) =>
    iput ip
    return false
  | none =>
    let ents := (← getInode dp).ents
    writeDirent dp (ents.findIdx fun de => de.inum == 0) ⟨inum, name.take dirSiz⟩

/-- `isdirempty`: no entry in use past `.` and `..`. -/
def isdirempty (d : DInode) : Bool := (d.ents.drop 2).all fun de => de.inum == 0

/-! ## Paths -/

/-- `skipelem`: the first element of a path, cut to `DIRSIZ` bytes, and the rest with its leading
slashes dropped; `none` when no element is left. -/
def skipelem (path : List UInt8) : Option (List UInt8 × List UInt8) :=
  match path.dropWhile (· == 47) with
  | [] => none
  | p => some ((p.takeWhile (· != 47)).take dirSiz, (p.dropWhile (· != 47)).dropWhile (· == 47))

/-- What `skipelem` returns when an element is left. -/
theorem skipelem_eq_some {path name rest : List UInt8} (h : skipelem path = some (name, rest)) :
    ∃ c cs, path.dropWhile (· == 47) = c :: cs ∧ name = ((c :: cs).takeWhile (· != 47)).take dirSiz ∧
      rest = ((c :: cs).dropWhile (· != 47)).dropWhile (· == 47) := by
  cases hq : path.dropWhile (· == 47) with
  | nil => simp [skipelem, hq] at h
  | cons c cs =>
    simp only [skipelem, hq, Option.some.injEq, Prod.mk.injEq] at h
    exact ⟨c, cs, rfl, h.1.symm, h.2.symm⟩

theorem skipelem_length {path name rest : List UInt8} (h : skipelem path = some (name, rest)) :
    rest.length < path.length := by
  obtain ⟨c, cs, hq, -, rfl⟩ := skipelem_eq_some h
  -- the first byte left is not a slash, so the element takes at least that byte
  have hc : (c == 47) = false := by
    simpa [hq] using List.head_dropWhile_not (· == 47) (by simp [hq] : path.dropWhile (· == 47) ≠ [])
  have hc' : (c != 47) = true := by simpa using hc
  calc ((c :: cs).dropWhile (· != 47) |>.dropWhile (· == 47)).length
      ≤ ((c :: cs).dropWhile (· != 47)).length := (List.dropWhile_suffix _).length_le
    _ ≤ cs.length := by
      rw [List.dropWhile_cons, if_pos hc']
      exact (List.dropWhile_suffix _).length_le
    _ < (c :: cs).length := Nat.lt_succ_self _
    _ ≤ path.length := hq ▸ (List.dropWhile_suffix _).length_le

/-- The loop of `namex` from inode `ip` on the rest of the path. The fuel is never the reason it
stops: `skipelem` shortens the path each round (`skipelem_length`), and `namex` gives it one more
than the path's length. -/
def namexLoop (parent : Bool) : Nat → Nat → List UInt8 → FsM (Option (Nat × List UInt8))
  | 0, _, _ => return none
  | fuel + 1, ip, path =>
    match skipelem path with
    | none =>
      if parent then do
        iput ip
        return none
      else return some (ip, [])
    | some (name, rest) => do
      ilock ip
      if (← getInode ip).type ≠ .dir then
        iunlockput ip
        return none
      if parent ∧ rest = [] then
        iunlock ip
        return some (ip, name)
      match ← dirlookup ip name with
      | none =>
        iunlockput ip
        return none
      | some (next, _) =>
        iunlockput ip
        namexLoop parent fuel next rest

/-- `namex`: from the root for a path that starts with `/`, else from `cwd`. With `parent` the
result is the directory holding the last element, and that element. -/
def namex (cwd : Nat) (path : List UInt8) (parent : Bool) : FsM (Option (Nat × List UInt8)) := do
  if path.head? = some 47 then
    iget rootIno
    namexLoop parent (path.length + 1) rootIno path
  else
    idup cwd
    namexLoop parent (path.length + 1) cwd path

/-- `namei` -/
def namei (cwd : Nat) (path : List UInt8) : FsM (Option Nat) := do
  return (← namex cwd path false).map Prod.fst

/-- `nameiparent` -/
def nameiparent (cwd : Nat) (path : List UInt8) : FsM (Option (Nat × List UInt8)) :=
  namex cwd path true

/-! ## The calls -/

/-- `create`: the inode the path names when it is a file or a device and a file is asked for; else
a new inode linked under the last element, locked, with `.` and `..` for a directory. -/
def create (cwd : Nat) (path : List UInt8) (type : IType) (major : Int16) : FsM (Option Nat) := do
  let some (dp, name) ← nameiparent cwd path | return none
  ilock dp
  if let some (ip, _) ← dirlookup dp name then
    iunlockput dp
    ilock ip
    let t := (← getInode ip).type
    if type = .file ∧ (t = .file ∨ t = .device) then return some ip
    iunlockput ip
    return none
  let some ip ← ialloc type | do
    iunlockput dp
    return none
  ilock ip
  setInode ip fun d => { d with major := major, nlink := 1 }
  -- `dirlink(ip, ".", ..) < 0 || dirlink(ip, "..", ..) < 0`: the second only when the first succeeds
  let dots ← if type = .dir then do
      if ← dirlink ip dot ip then dirlink ip dotdot dp else pure false
    else pure true
  if dots then
    if ← dirlink dp name ip then
      if type = .dir then setInode dp fun d => { d with nlink := d.nlink + 1 }
      iunlockput dp
      return some ip
  -- `fail:`
  setInode ip fun d => { d with nlink := 0 }
  iunlockput ip
  iunlockput dp
  return none

/-- `O_RDONLY` -/
def oRdonly : Int32 := 0x000

/-- `O_RDWR` -/
def oRdwr : Int32 := 0x002

/-- `O_CREATE` -/
def oCreate : Int32 := 0x200

/-- `O_TRUNC` -/
def oTrunc : Int32 := 0x400

/-- The first part of `sys_open`: the inode to open, locked, or `none` where it returns `-1`. -/
def openInode (cwd : Nat) (path : List UInt8) (omode : Int32) : FsM (Option Nat) := do
  if omode &&& oCreate ≠ 0 then create cwd path .file 0
  else
    let some ip ← namei cwd path | return none
    ilock ip
    if (← getInode ip).type = .dir ∧ omode ≠ oRdonly then
      iunlockput ip
      return none
    return some ip

def setProc (p : Nat) (pr : Option Proc) : FsM Unit :=
  modify fun s => { s with procs := s.procs.set p pr }

/-- `sys_open` by process `p`: `filealloc` fails when the file table is full and `fdalloc` when
the process has no free descriptor. -/
def sysOpen (p : Nat) (pr : Proc) (path : List UInt8) (omode : Int32) : FsM Int := do
  let some ip ← openInode pr.cwd path omode | return -1
  let d ← getInode ip
  if d.type = .device ∧ (d.major < 0 ∨ Int16.ofNat nDev ≤ d.major) then
    iunlockput ip
    return -1
  if nFile ≤ (← get).nfile then
    iunlockput ip
    return -1
  let some fd := pr.ofile.findIdx? (· == none) | do
    -- `fileclose(f)` hands the entry `filealloc` took back
    iunlockput ip
    return -1
  setProc p (some { pr with ofile := pr.ofile.set fd (some ip) })
  modify fun s => { s with nfile := s.nfile + 1 }
  if omode &&& oTrunc ≠ 0 ∧ d.type = .file then itrunc ip
  iunlock ip
  return fd

/-- `sys_mkdir` -/
def sysMkdir (pr : Proc) (path : List UInt8) : FsM Int := do
  let some ip ← create pr.cwd path .dir 0 | return -1
  iunlockput ip
  return 0

/-- `sys_mknod`: `major` is an `int` argument that `create` takes as a `short`. -/
def sysMknod (pr : Proc) (path : List UInt8) (major : Int32) : FsM Int := do
  let some ip ← create pr.cwd path .device major.toInt16 | return -1
  iunlockput ip
  return 0

/-- The second part of `sys_link`: the entry for `ip` under the new path. -/
def linkAt (cwd : Nat) (new : List UInt8) (ip : Nat) : FsM Bool := do
  let some (dp, name) ← nameiparent cwd new | return false
  ilock dp
  -- `dp->dev != ip->dev` never holds: there is one device
  if !(← dirlink dp name ip) then
    iunlockput dp
    return false
  iunlockput dp
  return true

/-- `sys_link`: `nlink` goes up before the new entry is made, and back down at `bad:`. -/
def sysLink (pr : Proc) (old new : List UInt8) : FsM Int := do
  let some ip ← namei pr.cwd old | return -1
  ilock ip
  if (← getInode ip).type = .dir then
    iunlockput ip
    return -1
  setInode ip fun d => { d with nlink := d.nlink + 1 }
  iunlock ip
  if ← linkAt pr.cwd new ip then
    iput ip
    return 0
  -- `bad:`
  ilock ip
  setInode ip fun d => { d with nlink := d.nlink - 1 }
  iunlockput ip
  return -1

/-- `sys_unlink`: the entry is cleared in place; a directory must be empty and takes its `..` link
from the parent. -/
def sysUnlink (pr : Proc) (path : List UInt8) : FsM Int := do
  let some (dp, name) ← nameiparent pr.cwd path | return -1
  ilock dp
  if namecmp name dot || namecmp name dotdot then
    iunlockput dp
    return -1
  let some (ip, k) ← dirlookup dp name | do
    iunlockput dp
    return -1
  ilock ip
  let d ← getInode ip
  if d.nlink < 1 then throw "unlink: nlink < 1"
  if d.type = .dir ∧ !isdirempty d then
    iunlockput ip
    iunlockput dp
    return -1
  if !(← writeDirent dp k ⟨0, []⟩) then throw "unlink: writei"
  if d.type = .dir then setInode dp fun d => { d with nlink := d.nlink - 1 }
  iunlockput dp
  setInode ip fun d => { d with nlink := d.nlink - 1 }
  iunlockput ip
  return 0

/-- `sys_chdir` -/
def sysChdir (p : Nat) (pr : Proc) (path : List UInt8) : FsM Int := do
  let some ip ← namei pr.cwd path | return -1
  ilock ip
  if (← getInode ip).type ≠ .dir then
    iunlockput ip
    return -1
  iunlock ip
  iput pr.cwd
  setProc p (some { pr with cwd := ip })
  return 0

/-- `fileclose` of an inode's file, its only descriptor gone. -/
def fileclose (ip : Nat) : FsM Unit := do
  modify fun s => { s with nfile := s.nfile - 1 }
  iput ip

/-- `sys_close`: `argfd` refuses a descriptor out of range or not open. -/
def sysClose (p : Nat) (pr : Proc) (fd : Int32) : FsM Int := do
  if fd < 0 then return -1
  let some (some ip) := pr.ofile[fd.toInt.toNat]? | return -1
  setProc p (some { pr with ofile := pr.ofile.set fd.toInt.toNat none })
  fileclose ip
  return 0

/-- The descriptors `exit` closes, in order. -/
def closeAll : List (Option Nat) → FsM Unit
  | [] => return
  | none :: fs => closeAll fs
  | some ip :: fs => do
    fileclose ip
    closeAll fs

/-- The file part of `exit`; process 0 is `initproc`. -/
def exit (p : Nat) (pr : Proc) : FsM Unit := do
  if p = 0 then throw "init exiting"
  closeAll pr.ofile
  iput pr.cwd
  setProc p none

/-! ## The system -/

/-- A namespace call by process `p`. -/
inductive FsEv where
  | sysOpen (p : Nat) (path : List UInt8) (omode : Int32)
  | sysMkdir (p : Nat) (path : List UInt8)
  | sysMknod (p : Nat) (path : List UInt8) (major : Int32)
  | sysLink (p : Nat) (old new : List UInt8)
  | sysUnlink (p : Nat) (path : List UInt8)
  | sysChdir (p : Nat) (path : List UInt8)
  | sysClose (p : Nat) (fd : Int32)
  | exit (p : Nat)
  deriving DecidableEq, Repr

def FsEv.proc : FsEv → Nat
  | .sysOpen p .. | .sysMkdir p .. | .sysMknod p .. | .sysLink p .. | .sysUnlink p ..
  | .sysChdir p .. | .sysClose p .. | .exit p => p

/-- The call an event makes, by the process `pr` that makes it. -/
def fsCall (pr : Proc) : FsEv → FsM Unit
  | .sysOpen p path omode => discard <| sysOpen p pr path omode
  | .sysMkdir _ path => discard <| sysMkdir pr path
  | .sysMknod _ path major => discard <| sysMknod pr path major
  | .sysLink _ old new => discard <| sysLink pr old new
  | .sysUnlink _ path => discard <| sysUnlink pr path
  | .sysChdir p path => discard <| sysChdir p pr path
  | .sysClose p fd => discard <| sysClose p pr fd
  | .exit p => exit p pr

/-- One call, whole; a process that has exited makes none. -/
def fsNext (s : FsState) (e : FsEv) : Outcome FsState :=
  match s.procs[e.proc]? with
  | some (some pr) =>
    match (fsCall pr e).run s with
    | .ok (_, s') => .ok s'
    | .error m => .panic m
  | _ => .blocked

/-- The root directory `mkfs` writes when it is given no files: `.` and `..`, its size rounded up
to the end of its one block. -/
def mkfsRoot : DInode :=
  ⟨.dir, 0, 1, bSize, 1, [⟨rootIno, dot⟩, ⟨rootIno, dotdot⟩] ++ List.replicate 62 ⟨0, []⟩⟩

/-- The system after boot on that image, with `nproc` processes in the root directory: `NINODES`
inodes, and of the `FSSIZE` blocks all but the 46 of metadata and the root's one free. -/
def fsSys (nproc : Nat) : System FsState FsEv where
  init :=
    { inode := fun i => if i = rootIno then mkfsRoot else DInode.fresh .free
      ninodes := 200
      nfree := 2000 - 46 - 1
      ref := fun i => if i = rootIno then nproc else 0
      valid := fun i => i = rootIno
      nfile := 0
      procs := List.replicate nproc (some ⟨rootIno, List.replicate noFile none⟩) }
  next := fsNext

/-! ## The namespace -/

/-- The inodes the entries of directory `i` name, `.` and `..` apart. -/
def children (s : FsState) (i : Nat) : List Nat :=
  if (s.inode i).type = .dir then
    ((s.inode i).ents.filter fun de => de.inum ≠ 0 ∧ de.name ≠ dot ∧ de.name ≠ dotdot).map (·.inum)
  else []

/-- Inode `i` is reached from the root through the namespace. -/
def Named (s : FsState) (i : Nat) : Prop :=
  Relation.ReflTransGen (fun a b => b ∈ children s a) rootIno i

/-- What holds the root and every child of its members holds every named inode. -/
theorem Named.mem_of_closed {s : FsState} {S : List Nat} (hroot : rootIno ∈ S)
    (hclosed : ∀ a ∈ S, ∀ b ∈ children s a, b ∈ S) {i : Nat} (h : Named s i) : i ∈ S := by
  induction h with
  | refl => exact hroot
  | tail _ hab ih => exact hclosed _ ih _ hab

/-! ## A directory unlinked while it is a `cwd` -/

/-- `mkdir("/d")`, `chdir("/d")`, `unlink("/d")`, `open("x", O_CREATE|O_RDWR)`, `close(0)`,
`chdir("/")`, all by one process. `sys_unlink` checks only that `/d` is empty, and `create` links
`x` into it as into any directory. -/
def unlinkedCwdTrace : List FsEv :=
  [.sysMkdir 0 [47, 100], .sysChdir 0 [47, 100], .sysUnlink 0 [47, 100],
   .sysOpen 0 [120] (oCreate ||| oRdwr), .sysClose 0 0, .sysChdir 0 [47]]

/-- After that trace the file `x` (inode 3) is allocated with one link, though no entry reachable
from the root names it and nothing holds a reference to it, so no `iput` will ever free it. -/
theorem unlinked_cwd_leaks_inode :
    ∃ s, Reachable (fsSys 1) s ∧ (s.inode 3).type = .file ∧ (s.inode 3).nlink = 1 ∧
      s.ref 3 = 0 ∧ ¬ Named s 3 := by
  have hrun : (run (fsSys 1) (fsSys 1).init unlinkedCwdTrace).holds (fun s =>
      (s.inode 3).type == .file && (s.inode 3).nlink == 1 && s.ref 3 == 0 &&
        (children s rootIno).all (· == rootIno)) = true := by
    decide +kernel
  obtain ⟨s, hs, hp⟩ := Reachable.run_holds _ .init hrun
  simp only [Bool.and_eq_true, beq_iff_eq, List.all_eq_true] at hp
  obtain ⟨⟨⟨htype, hnlink⟩, href⟩, hroot⟩ := hp
  refine ⟨s, hs, htype, hnlink, href, fun hnamed => ?_⟩
  -- the root names nothing but itself, so the root is all the namespace holds
  have hclosed : ∀ a ∈ [rootIno], ∀ b ∈ children s a, b ∈ [rootIno] := by
    intro a ha b hb
    rw [List.mem_singleton] at ha ⊢
    exact ha ▸ hroot b (ha ▸ hb)
  have := @Named.mem_of_closed s [rootIno] (List.mem_singleton_self _) hclosed 3 hnamed
  simp [rootIno] at this

end Xv6
