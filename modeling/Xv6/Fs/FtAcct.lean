import Mathlib
import Xv6.Fs.Ftable
import Xv6.Fs.Refs

/-!
# What holds a file, an inode and a pipe, and how each function of `Files` moves it

What holds a reference: a live process's descriptor holds one to its file, and its `cwd` one to its
inode; an open inode or device file holds one to its inode; a pipe's page is held by its two ends.
Code that runs holds references of its own on the way: `Acct t hf df hi di he` says each count in
the tables is the number of its holders, with the file references of `hf` and the inode
references of `hi` taken by running code, those of `df` and `di` dropped from the counts before
their holder lets go, and the pipe ends of `he` held by running code; that a file with no
reference is `FD_NONE`; that a pipe's end is open exactly while one file is that end or running
code holds it; and that no pipe page is used after `kfree`.

* `descRefs`, `cwdRefs`, `openRef`, `FtState.fileRefs`, `FtState.inodeRefs` : the holders;
  `count_fileRefs` and `count_inodeRefs` count them;
* one lemma per function of `Files` saying what it does to the state (`filealloc_run`,
  `filecloseLocked_run`, `fdalloc_run`, …) and one saying how it moves the accounting
  (`Acct.filealloc`, `Acct.filecloseLocked`, `Acct.filecloseUnlocked`, `Acct.pipealloc`, …), on
  every path; the whole calls `Acct.sysDup`, `Acct.sysRead`, `Acct.sysWrite`, `Acct.fork`,
  `Acct.nsCall`.
-/

namespace Xv6.Files

open Trans Refcount

/-! ## What holds a reference -/

/-- The files a process's descriptors hold; an exited process holds none. -/
def descRefs : Option Proc → Multiset Nat
  | none => 0
  | some pr => (pr.ofile.map held).sum

/-- The inode a live process's `cwd` holds. -/
def cwdRefs : Option Proc → Multiset Nat
  | none => 0
  | some pr => {pr.cwd}

/-- The inode an open inode or device file holds. -/
def openRef (x : File) : Multiset Nat :=
  if 0 < x.ref ∧ (x.type = .inode ∨ x.type = .device) then {x.ip} else 0

/-- Every descriptor of every live process. -/
def FtState.fileRefs (t : FtState) : Multiset Nat := (t.fs.procs.map descRefs).sum

/-- Every `cwd` of a live process, and the inode of every open file of the table. -/
def FtState.inodeRefs (t : FtState) : Multiset Nat :=
  (t.fs.procs.map cwdRefs).sum + ((List.range nFile).map fun f => openRef (t.file f)).sum

/-- The descriptors of live processes open on file `f`. -/
def FtState.descCount (t : FtState) (f : Nat) : Nat :=
  (t.fs.procs.map fun o => o.elim 0 fun pr => pr.ofile.count (some f)).sum

/-- The live processes whose `cwd` is inode `i`. -/
def FtState.cwdCount (t : FtState) (i : Nat) : Nat :=
  t.fs.procs.countP fun o => o.elim false fun pr => pr.cwd == i

/-- The open inode and device files of the table on inode `i`. -/
def FtState.openCount (t : FtState) (i : Nat) : Nat :=
  (List.range nFile).countP fun f =>
    0 < (t.file f).ref ∧ ((t.file f).type = .inode ∨ (t.file f).type = .device) ∧ (t.file f).ip = i

/-- Whether end `w` of a pipe is open, `true` naming the write end as `pipeclose` does. -/
def endOpen (pi : Pipe) (w : Bool) : Bool := if w then pi.writeopen else pi.readopen

/-- An entry that is an open end of the pipe in page `pg`, the write end when `w`. -/
def File.IsEnd (x : File) (pg : Nat) (w : Bool) : Prop :=
  0 < x.ref ∧ x.type = .pipe ∧ x.pipe = pg ∧ x.writable = w

/-- File `f` is an open end of the pipe in page `pg`, the write end when `w`. -/
def PipeEnd (t : FtState) (f pg : Nat) (w : Bool) : Prop := (t.file f).IsEnd pg w

/-- The inode the copy `ff` of an emptied entry holds until `fileclose` puts it back. -/
def File.inodeHeld (x : File) : Multiset Nat := if x.type = .inode ∨ x.type = .device then {x.ip} else 0

/-- The pipe end the copy `ff` of an emptied entry holds until `fileclose` closes it. -/
def File.endHeld (x : File) : Multiset (Nat × Bool) := if x.type = .pipe then {(x.pipe, x.writable)} else 0


/-! ## What each function does -/

section Run

variable {t t' : FtState}

theorem myproc_run {p : Nat} {pr : Proc} (h : (myproc p).run t = .ok (pr, t')) :
    t' = t ∧ t.fs.procs[p]? = some (some pr) := by
  unfold myproc at h
  obtain ⟨t0, t1, h1, h⟩ := run_bind_ok.mp h
  cases h1
  split at h
  · cases h
    exact ⟨rfl, by assumption⟩
  · cases h

/-- Code that begins with `myproc` runs on the record the table holds. -/
theorem myproc_bind_run {α : Type} {p : Nat} {pr : Proc} {f : Proc → FtM α} {a : α}
    (hp : t.fs.procs[p]? = some (some pr)) (h : (myproc p >>= f).run t = .ok (a, t')) :
    (f pr).run t = .ok (a, t') := by
  obtain ⟨pr', t1, h1, h2⟩ := run_bind_ok.mp h
  obtain ⟨rfl, hp'⟩ := myproc_run h1
  rw [hp, Option.some.injEq, Option.some.injEq] at hp'
  subst hp'
  exact h2

theorem onFs_run {α : Type} {m : FsM α} {a : α} (h : (onFs m).run t = .ok (a, t')) :
    ∃ s', m.run t.fs = .ok (a, s') ∧ t' = { t with fs := s' } := by
  unfold onFs at h
  change Except.map _ (m.run t.fs) = _ at h
  cases hm : m.run t.fs with
  | error e =>
    rw [hm] at h
    cases h
  | ok r =>
    rw [hm] at h
    cases h
    exact ⟨r.2, rfl, rfl⟩

theorem filealloc_run {r : Option Nat} (h : filealloc.run t = .ok (r, t')) :
    (r = none ∧ t' = t) ∨ ∃ f, r = some f ∧ f < nFile ∧ (t.file f).ref = 0 ∧
      t' = { t with file := Function.update t.file f { t.file f with ref := 1 } } := by
  unfold filealloc at h
  obtain ⟨t0, t1, h1, h⟩ := run_bind_ok.mp h
  cases h1
  split at h
  · cases h
    exact .inl ⟨rfl, rfl⟩
  · rename_i f hf
    obtain ⟨_, t2, h2, h⟩ := run_bind_ok.mp h
    cases h2
    cases h
    have hmem := List.mem_of_find?_eq_some hf
    exact .inr ⟨f, rfl, List.mem_range.mp hmem, by simpa using List.find?_some hf, rfl⟩

theorem filedup_run {f : Nat} {u : Unit} (h : (filedup f).run t = .ok (u, t')) :
    0 < (t.file f).ref ∧ t' = { t with file := Function.update t.file f { t.file f with ref := (t.file f).ref + 1 } } := by
  unfold filedup getFile at h
  obtain ⟨x, t1, h1, h2⟩ := run_bind_ok.mp h
  cases h1
  dsimp only at h2
  split at h2
  · obtain ⟨_, t3, h3, -⟩ := run_bind_ok.mp h2
    cases h3
  · cases h2
    exact ⟨by omega, rfl⟩

/-- `fdalloc`: no free descriptor, or the first free one takes `f`. -/
theorem fdalloc_run {p f : Nat} {r : Option Nat} (h : (fdalloc p f).run t = .ok (r, t')) :
    ∃ pr, t.fs.procs[p]? = some (some pr) ∧
      ((r = none ∧ t' = t) ∨ ∃ fd, r = some fd ∧ pr.ofile[fd]? = some none ∧
        t' = { t with fs := { t.fs with procs := t.fs.procs.set p (some { pr with ofile := pr.ofile.set fd (some f) }) } }) := by
  unfold fdalloc at h
  obtain ⟨pr, t1, h1, h2⟩ := run_bind_ok.mp h
  obtain ⟨rfl, hp⟩ := myproc_run h1
  refine ⟨pr, hp, ?_⟩
  split at h2
  · cases h2
    exact .inl ⟨rfl, rfl⟩
  · rename_i fd hfd
    obtain ⟨_, t3, h3, h4⟩ := run_bind_ok.mp h2
    obtain ⟨s3, h3, rfl⟩ := onFs_run h3
    cases h3
    cases h4
    obtain ⟨hlt, hget, -⟩ := List.findIdx?_eq_some_iff_getElem.mp hfd
    refine .inr ⟨fd, rfl, ?_, rfl⟩
    rw [List.getElem?_eq_getElem hlt]
    simpa using hget

theorem argfd_run {p : Nat} {fd : Int32} {r : Option Nat} (h : (argfd p fd).run t = .ok (r, t')) :
    t' = t ∧ ∀ f, r = some f → ∃ pr, t.fs.procs[p]? = some (some pr) ∧ pr.ofile[fd.toInt.toNat]? = some (some f) := by
  unfold argfd at h
  split at h
  · cases h
    exact ⟨rfl, fun f hf => by cases hf⟩
  · obtain ⟨pr, t1, h1, h2⟩ := run_bind_ok.mp h
    obtain ⟨rfl, hp⟩ := myproc_run h1
    cases h2
    exact ⟨rfl, fun f hf => ⟨pr, hp, Option.join_eq_some_iff.mp hf⟩⟩

theorem clearFd_run {p fd : Nat} {u : Unit} (h : (clearFd p fd).run t = .ok (u, t')) :
    ∃ pr, t.fs.procs[p]? = some (some pr) ∧
      t' = { t with fs := { t.fs with procs := t.fs.procs.set p (some { pr with ofile := pr.ofile.set fd none }) } } := by
  unfold clearFd at h
  obtain ⟨pr, t1, h1, h2⟩ := run_bind_ok.mp h
  obtain ⟨rfl, hp⟩ := myproc_run h1
  obtain ⟨s2, h3, rfl⟩ := onFs_run h2
  cases h3
  exact ⟨pr, hp, rfl⟩

/-- `pipeclose` of an end of a pipe: the end is closed, and the page freed when the other end is
closed too. -/
theorem pipeclose_run {pg : Nat} {w : Bool} {pi : Pipe} {u : Unit} (hp : t.pipes pg = some pi)
    (h : (pipeclose pg w).run t = .ok (u, t')) :
    ∃ v, t' = { t with pipes := Function.update t.pipes pg v } ∧ (v = none → endOpen pi (!w) = false) ∧
      ∀ pi', v = some pi' → endOpen pi' w = false ∧ endOpen pi' (!w) = true ∧ endOpen pi (!w) = true := by
  unfold pipeclose setPipe at h
  obtain ⟨x, t1, h1, h2⟩ := run_bind_ok.mp h
  cases h1
  simp only [hp] at h2
  cases w
  · -- the read end; the page goes when the write end is closed too
    by_cases hw : pi.writeopen = true
    · simp [hw] at h2
      obtain ⟨-, rfl⟩ := h2
      refine ⟨_, rfl, (fun h' => by cases h'), fun pi' h' => ?_⟩
      cases h'
      simp [endOpen, hw]
    · simp [hw] at h2
      obtain ⟨-, rfl⟩ := h2
      refine ⟨none, rfl, fun _ => by simpa [endOpen] using hw, fun pi' h' => by cases h'⟩
  · by_cases hr : pi.readopen = true
    · simp [hr] at h2
      obtain ⟨-, rfl⟩ := h2
      refine ⟨_, rfl, (fun h' => by cases h'), fun pi' h' => ?_⟩
      cases h'
      simp [endOpen, hr]
    · simp [hr] at h2
      obtain ⟨-, rfl⟩ := h2
      refine ⟨none, rfl, fun _ => by simpa [endOpen] using hr, fun pi' h' => by cases h'⟩

/-- `fileclose` under `ftable.lock`: one reference fewer; the last one empties the entry and
returns its copy, the reference already dropped. -/
theorem filecloseLocked_run {f : Nat} {r : Option File} (h : (filecloseLocked f).run t = .ok (r, t')) :
    0 < (t.file f).ref ∧
      ((1 < (t.file f).ref ∧ r = none ∧
          t' = { t with file := Function.update t.file f { t.file f with ref := (t.file f).ref - 1 } }) ∨
        ((t.file f).ref = 1 ∧ r = some { t.file f with ref := 0 } ∧
          t' = { t with file := Function.update t.file f { t.file f with ref := 0, type := .none } })) := by
  unfold filecloseLocked getFile at h
  obtain ⟨x, t1, h1, h2⟩ := run_bind_ok.mp h
  cases h1
  dsimp only at h2
  split at h2
  · obtain ⟨_, t3, h3, -⟩ := run_bind_ok.mp h2
    cases h3
  rename_i hge
  refine ⟨by omega, ?_⟩
  split at h2
  · rename_i hmore
    obtain ⟨_, t3, h3, h4⟩ := run_bind_ok.mp h2
    cases h3
    cases h4
    exact .inl ⟨by omega, rfl, rfl⟩
  · rename_i hlast
    obtain ⟨_, t3, h3, h4⟩ := run_bind_ok.mp h2
    cases h3
    cases h4
    have h1 : (t.file f).ref = 1 := by omega
    exact .inr ⟨h1, by rw [h1], rfl⟩

end Run

/-! ## How the holders change -/

section Holders

variable {t : FtState}

@[simp] theorem fileRefs_file (F : Nat → File) : ({ t with file := F } : FtState).fileRefs = t.fileRefs := rfl

@[simp] theorem fileRefs_pipes (P : Nat → Option Pipe) : ({ t with pipes := P } : FtState).fileRefs = t.fileRefs := rfl

@[simp] theorem inodeRefs_pipes (P : Nat → Option Pipe) : ({ t with pipes := P } : FtState).inodeRefs = t.inodeRefs :=
  rfl

theorem fileRefs_fs {s : FsState} (h : s.procs = t.fs.procs) : ({ t with fs := s } : FtState).fileRefs = t.fileRefs := by
  simp only [FtState.fileRefs, h]

theorem inodeRefs_fs {s : FsState} (h : s.procs = t.fs.procs) : ({ t with fs := s } : FtState).inodeRefs = t.inodeRefs := by
  simp only [FtState.inodeRefs, h]

/-- A process record replaced: the descriptors of the old one go, those of the new one come. -/
theorem fileRefs_setProc {p : Nat} {o : Option Proc} (hp : t.fs.procs[p]? = some o) (o' : Option Proc) :
    ({ t with fs := { t.fs with procs := t.fs.procs.set p o' } } : FtState).fileRefs + descRefs o =
      t.fileRefs + descRefs o' :=
  Refcount.sum_map_set descRefs t.fs.procs p o' o hp

/-- A process record replaced: the old one's `cwd` goes, the new one's comes. -/
theorem inodeRefs_setProc {p : Nat} {o : Option Proc} (hp : t.fs.procs[p]? = some o) (o' : Option Proc) :
    ({ t with fs := { t.fs with procs := t.fs.procs.set p o' } } : FtState).inodeRefs + cwdRefs o =
      t.inodeRefs + cwdRefs o' := by
  have h := Refcount.sum_map_set cwdRefs t.fs.procs p o' o hp
  simp only [FtState.inodeRefs]
  rw [add_right_comm, h, add_right_comm]

/-- An entry of the file table replaced: the inode the old one held goes, the new one's comes. -/
theorem inodeRefs_setFile {f : Nat} (hf : f < nFile) (x : File) :
    ({ t with file := Function.update t.file f x } : FtState).inodeRefs + openRef (t.file f) =
      t.inodeRefs + openRef x := by
  have h := sum_range_update openRef t.file x hf
  simp only [FtState.inodeRefs]
  rw [add_assoc, h, add_assoc]

/-- A descriptor replaced: the file it held goes, the new one comes. -/
theorem descRefs_set {pr : Proc} {fd : Nat} {o : Option Nat} (h : pr.ofile[fd]? = some o) (o' : Option Nat) :
    descRefs (some { pr with ofile := pr.ofile.set fd o' }) + held o = descRefs (some pr) + held o' :=
  Refcount.sum_map_set held pr.ofile fd o' o h

theorem count_held_sum (l : List (Option Nat)) (f : Nat) : ((l.map held).sum).count f = l.count (some f) := by
  induction l with
  | nil => simp
  | cons o l ih =>
    cases o with
    | none => simpa using ih
    | some g =>
      rcases eq_or_ne g f with rfl | hg
      · simp [ih]
      · simp [ih, hg, hg.symm]

theorem count_openRef (x : File) (i : Nat) :
    (openRef x).count i = if 0 < x.ref ∧ (x.type = .inode ∨ x.type = .device) ∧ x.ip = i then 1 else 0 := by
  unfold openRef
  by_cases hx : 0 < x.ref ∧ (x.type = .inode ∨ x.type = .device)
  · rcases eq_or_ne x.ip i with rfl | hi
    · simp [hx]
    · simp [hx, hi, Ne.symm hi]
  · rw [if_neg hx, if_neg (fun h => hx ⟨h.1, h.2.1⟩), Multiset.count_zero]

/-- The holders of a file, counted: the descriptors open on it. -/
theorem count_fileRefs (t : FtState) (f : Nat) : t.fileRefs.count f = t.descCount f := by
  unfold FtState.fileRefs FtState.descCount
  induction t.fs.procs with
  | nil => simp
  | cons o l ih =>
    cases o with
    | none => simpa [descRefs] using ih
    | some pr => simp [descRefs, count_held_sum, ih]

/-- The holders of an inode, counted: the `cwd`s and the open files on it. -/
theorem count_inodeRefs (t : FtState) (i : Nat) : t.inodeRefs.count i = t.cwdCount i + t.openCount i := by
  unfold FtState.inodeRefs FtState.cwdCount FtState.openCount
  rw [Multiset.count_add]
  congr 1
  · induction t.fs.procs with
    | nil => simp
    | cons o l ih =>
      cases o with
      | none => simpa [cwdRefs] using ih
      | some pr =>
        rw [List.map_cons, List.sum_cons, List.countP_cons, ← ih]
        rcases eq_or_ne pr.cwd i with rfl | hi
        · simp [cwdRefs]
        · simp [cwdRefs, hi, Ne.symm hi]
  · induction List.range nFile with
    | nil => simp
    | cons f l ih =>
      rw [List.map_cons, List.sum_cons, Multiset.count_add, List.countP_cons, ih, count_openRef]
      simp only [decide_eq_true_eq]
      omega

/-- What code run by process `p` does to the process table: no slot appears or goes, and the
record of every other live process stays as it was. -/
def Kept (t t' : FtState) (p : Nat) : Prop :=
  t'.fs.procs.length = t.fs.procs.length ∧
    ∀ q pr, q ≠ p → t.fs.procs[q]? = some (some pr) → t'.fs.procs[q]? = some (some pr)

theorem Kept.of_procs {t' : FtState} (h : t'.fs.procs = t.fs.procs) (p : Nat) : Kept t t' p :=
  ⟨by rw [h], fun _ _ _ hq => by rw [h]; exact hq⟩

theorem Kept.of_set {t' : FtState} {p c : Nat} {o : Option Proc} (h : t'.fs.procs = t.fs.procs.set c o)
    (hc : c = p ∨ t.fs.procs[c]? = some none) : Kept t t' p := by
  refine ⟨by rw [h, List.length_set], fun q pr hq hq' => ?_⟩
  have hqc : c ≠ q := by
    rintro rfl
    rcases hc with rfl | hc
    · exact hq rfl
    · rw [hc] at hq'
      cases hq'
  rw [h, List.getElem?_set_ne hqc]
  exact hq'

theorem Kept.trans {t' t'' : FtState} {p : Nat} (h1 : Kept t t' p) (h2 : Kept t' t'' p) : Kept t t'' p :=
  ⟨h2.1.trans h1.1, fun q pr hq hq' => h2.2 q pr hq (h1.2 q pr hq hq')⟩

end Holders

/-! ## The accounting -/

/-- The tables against their holders, while running code holds the file references `hf`, the
inode references `hi` and the pipe ends `he`, and has dropped from the counts the references `df`
and `di` of holders it has not cleared yet. -/
structure Acct (t : FtState) (hf df hi di : Multiset Nat) (he : Multiset (Nat × Bool)) : Prop where
  /-- Each file's `ref` counts the descriptors that hold it. -/
  file_ref : Moved (fun f => t.fileRefs.count f) (fun f => (t.file f).ref) hf df
  /-- Each inode's `ref` counts the `cwd`s and open files that hold it. -/
  inode_ref : Moved (fun i => t.inodeRefs.count i) t.fs.ref hi di
  live_lt : ∀ f, 0 < (t.file f).ref → f < nFile
  /-- An entry with no reference is `FD_NONE`. -/
  none_of_zero : ∀ f, (t.file f).ref = 0 → (t.file f).type = .none
  /-- An open pipe file's page holds its pipe. -/
  pipe_some : ∀ f, 0 < (t.file f).ref → (t.file f).type = .pipe → t.pipes (t.file f).pipe ≠ none
  /-- A pipe's end is open exactly while a file is that end or running code holds it. -/
  open_iff : ∀ pg pi w, t.pipes pg = some pi → (endOpen pi w = true ↔ (∃ f, PipeEnd t f pg w) ∨ (pg, w) ∈ he)
  /-- Each end has one holder at most: one file, or the running code once. -/
  end_unique : ∀ f g pg w, PipeEnd t f pg w → PipeEnd t g pg w → f = g
  end_held : ∀ f pg w, PipeEnd t f pg w → (pg, w) ∉ he
  held_nodup : he.Nodup
  /-- The ends running code holds are ends of pipes still there. -/
  held_pipe : ∀ e ∈ he, t.pipes e.1 ≠ none
  /-- A page that holds a pipe has an end open: the last `pipeclose` frees it. -/
  pipe_open : ∀ pg pi, t.pipes pg = some pi → pi.readopen = true ∨ pi.writeopen = true
  /-- No code has used a freed pipe page. -/
  no_freed : t.freedUse = false

section Acct

variable {t : FtState} {hf df hi di : Multiset Nat} {he : Multiset (Nat × Bool)}

/-- One entry's `ref` changes, by the references of `a` and `d` to it. -/
theorem moved_update {F : Nat → File} {f : Nat} {x : File} {a d : Multiset Nat}
    (hx : x.ref + d.count f = (F f).ref + a.count f) (hother : ∀ g, g ≠ f → d.count g = a.count g) :
    Moved (fun g => (F g).ref) (fun g => (Function.update F f x g).ref) a d := by
  intro g
  rcases eq_or_ne g f with rfl | hg
  · simpa using hx
  · simp only [Function.update_of_ne hg, hother g hg]

/-- An entry replaced by one that is the same pipe end, or none, as it was. -/
theorem pipeEnd_update {f : Nat} {x : File} (hend : ∀ pg w, x.IsEnd pg w ↔ (t.file f).IsEnd pg w)
    (g pg : Nat) (w : Bool) : PipeEnd { t with file := Function.update t.file f x } g pg w ↔ PipeEnd t g pg w := by
  rcases eq_or_ne g f with rfl | hg
  · simp only [PipeEnd, Function.update_self]
    exact hend pg w
  · simp only [PipeEnd, Function.update_of_ne hg]

theorem Acct.balance (h : Acct t hf df hi di he) {hf' df' hi' di' : Multiset Nat} (hmf : hf + df' = hf' + df)
    (hmi : hi + di' = hi' + di) : Acct t hf' df' hi' di' he :=
  { h with
    file_ref := h.file_ref.balance hmf
    inode_ref := h.inode_ref.balance hmi }

/-- Code on the inode side that moves references and keeps every process. -/
theorem Acct.onFs (h : Acct t hf df hi di he) {s' : FsState} {a d : Multiset Nat} (hm : RefsMove t.fs s' a d) :
    Acct { t with fs := s' } hf df (hi + a) (di + d) he :=
  { h with
    file_ref := by
      rw [fileRefs_fs hm.procs]
      exact h.file_ref
    inode_ref := by
      rw [inodeRefs_fs hm.procs]
      exact h.inode_ref.trans hm.ref }

/-- Code on the inode side that takes and drops no reference and keeps every process. -/
theorem Acct.onFs_zero (h : Acct t hf df hi di he) {s' : FsState} (hm : RefsMove t.fs s' 0 0) :
    Acct { t with fs := s' } hf df hi di he := by
  simpa only [add_zero] using h.onFs hm

/-- A section of `piperead` or `pipewrite`: the pipe's bytes and counters change, its ends stay. -/
theorem Acct.setPipe (h : Acct t hf df hi di he) {pg : Nat} {pi pi' : Pipe} (hp : t.pipes pg = some pi)
    (hr : pi'.readopen = pi.readopen) (hw : pi'.writeopen = pi.writeopen) :
    Acct { t with pipes := Function.update t.pipes pg (some pi') } hf df hi di he :=
  { h with
    pipe_some := fun g hg hgp => by
      rcases eq_or_ne (t.file g).pipe pg with hgpg | hgpg
      · simp [hgpg]
      · simp only [Function.update_of_ne hgpg]
        exact h.pipe_some g hg hgp
    open_iff := fun pg' pi'' w hp' => by
      rcases eq_or_ne pg' pg with rfl | hpg
      · simp only [Function.update_self, Option.some.injEq] at hp'
        subst hp'
        have hend : endOpen pi' w = endOpen pi w := by cases w <;> simp [endOpen, hr, hw]
        rw [hend]
        exact h.open_iff pg' pi w hp
      · simp only [Function.update_of_ne hpg] at hp'
        exact h.open_iff pg' pi'' w hp'
    pipe_open := fun pg' pi'' hp' => by
      rcases eq_or_ne pg' pg with rfl | hpg
      · simp only [Function.update_self, Option.some.injEq] at hp'
        subst hp'
        rw [hr, hw]
        exact h.pipe_open pg' pi hp
      · simp only [Function.update_of_ne hpg] at hp'
        exact h.pipe_open pg' pi'' hp'
    held_pipe := fun e he' => by
      rcases eq_or_ne e.1 pg with hpg | hpg
      · simp [hpg]
      · simp only [Function.update_of_ne hpg]
        exact h.held_pipe e he' }

/-- An entry of the file table replaced by one that is the same pipe end, or none, as it was: its
`ref` moves, and the inode it holds changes. -/
theorem Acct.setFile (h : Acct t hf df hi di he) {f : Nat} {x : File} {a d : Multiset Nat} (hlt : f < nFile)
    (hnone : x.ref = 0 → x.type = .none) (hend : ∀ pg w, x.IsEnd pg w ↔ (t.file f).IsEnd pg w)
    (href : Moved (fun g => (t.file g).ref) (fun g => (Function.update t.file f x g).ref) a d) :
    Acct { t with file := Function.update t.file f x } (hf + a) (df + d) (hi + openRef (t.file f)) (di + openRef x) he where
  file_ref := by
    rw [fileRefs_file]
    exact h.file_ref.trans href
  inode_ref := h.inode_ref.rebase (moved_count (inodeRefs_setFile hlt x))
  live_lt := fun g hg => by
    rcases eq_or_ne g f with rfl | hgf
    · exact hlt
    · simp only [Function.update_of_ne hgf] at hg
      exact h.live_lt g hg
  none_of_zero := fun g hg => by
    rcases eq_or_ne g f with rfl | hgf
    · simp only [Function.update_self] at hg ⊢
      exact hnone hg
    · simp only [Function.update_of_ne hgf] at hg ⊢
      exact h.none_of_zero g hg
  pipe_some := fun g hg hp => by
    rcases eq_or_ne g f with rfl | hgf
    · simp only [Function.update_self] at hg hp ⊢
      obtain ⟨h0, hp0, hpg, -⟩ := (hend x.pipe x.writable).mp ⟨hg, hp, rfl, rfl⟩
      rw [← hpg]
      exact h.pipe_some g h0 hp0
    · simp only [Function.update_of_ne hgf] at hg hp ⊢
      exact h.pipe_some g hg hp
  open_iff := fun pg pi w hp => by
    simp only [pipeEnd_update hend]
    exact h.open_iff pg pi w hp
  end_unique := fun g g' pg w hg hg' =>
    h.end_unique g g' pg w ((pipeEnd_update hend g pg w).mp hg) ((pipeEnd_update hend g' pg w).mp hg')
  end_held := fun g pg w hg => h.end_held g pg w ((pipeEnd_update hend g pg w).mp hg)
  held_nodup := h.held_nodup
  held_pipe := h.held_pipe
  pipe_open := h.pipe_open
  no_freed := h.no_freed

/-- A process record replaced: the holders of its old descriptors and `cwd` go, the new ones come. -/
theorem Acct.setProc (h : Acct t hf df hi di he) {p : Nat} {o : Option Proc} (hp : t.fs.procs[p]? = some o)
    (o' : Option Proc) :
    Acct { t with fs := { t.fs with procs := t.fs.procs.set p o' } } (hf + descRefs o) (df + descRefs o')
      (hi + cwdRefs o) (di + cwdRefs o') he :=
  { h with
    file_ref := h.file_ref.rebase (moved_count (fileRefs_setProc hp o'))
    inode_ref := h.inode_ref.rebase (moved_count (inodeRefs_setProc hp o')) }

theorem openRef_none {x : File} (hx : x.type = .none) : openRef x = 0 := by
  simp [openRef, hx]

theorem openRef_of_ref_zero {x : File} (hx : x.ref = 0) : openRef x = 0 := by
  simp [openRef, hx]

theorem not_isEnd_of_type {x : File} (hx : x.type ≠ .pipe) (pg : Nat) (w : Bool) : ¬ x.IsEnd pg w :=
  fun h => hx h.2.1

theorem not_isEnd_of_ref_zero {x : File} (hx : x.ref = 0) (pg : Nat) (w : Bool) : ¬ x.IsEnd pg w :=
  fun h => by
    have := h.1
    omega

variable {t' : FtState}

/-- `filealloc` takes a reference to an entry with none, still `FD_NONE`. -/
theorem Acct.filealloc (h : Acct t hf df hi di he) {r : Option Nat} (hrun : filealloc.run t = .ok (r, t')) :
    (r = none ∧ t' = t) ∨ ∃ f, r = some f ∧ f < nFile ∧ (t.file f).ref = 0 ∧ (t.file f).type = .none ∧
      t' = { t with file := Function.update t.file f { t.file f with ref := 1 } } ∧ Acct t' (hf + {f}) df hi di he := by
  rcases filealloc_run hrun with hnone | ⟨f, rfl, hlt, h0, rfl⟩
  · exact .inl hnone
  have hty := h.none_of_zero f h0
  have hacct := h.setFile (x := { t.file f with ref := 1 }) (a := {f}) (d := 0) hlt (fun h1 => by cases h1)
    (fun pg w => iff_of_false (not_isEnd_of_type (by simp [hty]) pg w) (not_isEnd_of_ref_zero h0 pg w))
    (moved_update (by simp [h0]) (fun g hg => by simp [hg]))
  have hnew : openRef { t.file f with ref := 1 } = 0 := openRef_none hty
  rw [openRef_of_ref_zero h0, hnew, add_zero, add_zero, add_zero] at hacct
  exact .inr ⟨f, rfl, hlt, h0, hty, rfl, hacct⟩

/-- `filedup` takes one more reference to an open entry. -/
theorem Acct.filedup (h : Acct t hf df hi di he) {f : Nat} {u : Unit} (hrun : (filedup f).run t = .ok (u, t')) :
    t'.fs = t.fs ∧ Acct t' (hf + {f}) df hi di he := by
  obtain ⟨hpos, rfl⟩ := filedup_run hrun
  have hsame : openRef { t.file f with ref := (t.file f).ref + 1 } = openRef (t.file f) := by
    simp [openRef, hpos]
  have hacct := h.setFile (x := { t.file f with ref := (t.file f).ref + 1 }) (a := {f}) (d := 0)
    (h.live_lt f hpos) (fun h1 => by simp at h1)
    (fun pg w => by simp [File.IsEnd, hpos])
    (moved_update (by simp) (fun g hg => by simp [hg]))
  rw [hsame] at hacct
  exact ⟨rfl, hacct.balance (by abel) (by abel)⟩

/-- `fdalloc` gives `f` a descriptor, which then holds the reference to it. -/
theorem Acct.fdalloc (h : Acct t hf df hi di he) {p f : Nat} {r : Option Nat} (hrun : (fdalloc p f).run t = .ok (r, t')) :
    (r = none ∧ t' = t) ∨ ∃ fd pr, r = some fd ∧ t.fs.procs[p]? = some (some pr) ∧ pr.ofile[fd]? = some none ∧
      t' = { t with fs := { t.fs with procs := t.fs.procs.set p (some { pr with ofile := pr.ofile.set fd (some f) }) } } ∧
      Acct t' hf (df + {f}) hi di he := by
  obtain ⟨pr, hp, hnone | ⟨fd, rfl, hfd, rfl⟩⟩ := fdalloc_run hrun
  · exact .inl hnone
  have hacct := h.setProc hp (some { pr with ofile := pr.ofile.set fd (some f) })
  have hdesc := descRefs_set hfd (some f)
  simp only [held_none, held_some, add_zero] at hdesc
  refine .inr ⟨fd, pr, rfl, hp, hfd, rfl, hacct.balance ?_ ?_⟩
  · rw [hdesc]
    abel
  · simp only [cwdRefs]
    abel

/-- Clearing descriptor `fd` of `p`, which held `f`: the running code holds that reference. -/
theorem Acct.clearFd (h : Acct t hf df hi di he) {p fd f : Nat} {pr : Proc} (hp : t.fs.procs[p]? = some (some pr))
    (hfd : pr.ofile[fd]? = some (some f)) {u : Unit} (hrun : (clearFd p fd).run t = .ok (u, t')) :
    t'.fs.procs = t.fs.procs.set p (some { pr with ofile := pr.ofile.set fd none }) ∧
      Acct t' (hf + {f}) df hi di he := by
  obtain ⟨pr', hp', rfl⟩ := clearFd_run hrun
  rw [hp, Option.some.injEq, Option.some.injEq] at hp'
  subst hp'
  have hacct := h.setProc hp (some { pr with ofile := pr.ofile.set fd none })
  have hdesc := descRefs_set hfd none
  simp only [held_none, held_some, add_zero] at hdesc
  refine ⟨rfl, hacct.balance ?_ ?_⟩
  · rw [← hdesc]
    abel
  · simp only [cwdRefs]
    abel

/-- An entry replaced by one that is no pipe end: the ends are those there were, but that one. -/
theorem pipeEnd_update_dead {f : Nat} {x : File} (hx : ∀ pg w, ¬ x.IsEnd pg w) (g pg : Nat) (w : Bool) :
    PipeEnd { t with file := Function.update t.file f x } g pg w ↔ PipeEnd t g pg w ∧ g ≠ f := by
  rcases eq_or_ne g f with rfl | hg
  · simp only [PipeEnd, Function.update_self, ne_eq, not_true_eq_false, and_false, iff_false]
    exact hx pg w
  · simp only [PipeEnd, Function.update_of_ne hg, ne_eq, hg, not_false_eq_true, and_true]

/-- An inode the counts hold more references to than the running code has dropped has one. -/
theorem Acct.ref_pos (h : Acct t hf df hi di he) {i : Nat} (hlt : di.count i < (t.inodeRefs + hi).count i) :
    0 < t.fs.ref i := by
  have e := h.inode_ref i
  rw [Multiset.count_add] at hlt
  dsimp only at e
  omega

/-- The last reference to an end of a pipe dropped under `ftable.lock`: the entry is emptied, and
the running code holds the end until its `pipeclose`. -/
theorem Acct.releaseEnd (h : Acct t hf df hi di he) {f : Nat} (h1 : (t.file f).ref = 1)
    (hty : (t.file f).type = .pipe) :
    Acct { t with file := Function.update t.file f { t.file f with ref := 0, type := .none } } hf (df + {f}) hi di
      (he + {((t.file f).pipe, (t.file f).writable)}) := by
  have hpos : 0 < (t.file f).ref := by omega
  have hfend : PipeEnd t f (t.file f).pipe (t.file f).writable := ⟨hpos, hty, rfl, rfl⟩
  have hdead := pipeEnd_update_dead (t := t) (f := f)
    (fun pg w => not_isEnd_of_ref_zero (x := { t.file f with ref := 0, type := .none }) rfl pg w)
  have hir : ({ t with file := Function.update t.file f { t.file f with ref := 0, type := .none } } : FtState).inodeRefs =
      t.inodeRefs := by
    have e := inodeRefs_setFile (t := t) (h.live_lt f hpos) { t.file f with ref := 0, type := .none }
    rwa [openRef_of_ref_zero (x := { t.file f with ref := 0, type := .none }) rfl,
      show openRef (t.file f) = 0 by simp [openRef, hty], add_zero, add_zero] at e
  -- the end closed was the entry's alone, and is the held one now
  have hmem : ∀ pg w, (pg, w) ∈ he + {((t.file f).pipe, (t.file f).writable)} ↔
      (pg, w) ∈ he ∨ ((t.file f).pipe = pg ∧ (t.file f).writable = w) := by
    intro pg w
    rw [Multiset.mem_add, Multiset.mem_singleton, Prod.mk.injEq]
    constructor
    · rintro (hin | ⟨rfl, rfl⟩)
      · exact .inl hin
      · exact .inr ⟨rfl, rfl⟩
    · rintro (hin | ⟨rfl, rfl⟩)
      · exact .inl hin
      · exact .inr ⟨rfl, rfl⟩
  refine ⟨?_, ?_, fun g hg => ?_, fun g hg => ?_, fun g hg hgp => ?_, fun pg pi w hp => ?_,
    fun g g' pg w hg hg' => ?_, fun g pg w hg hin => ?_, ?_, fun e hin => ?_, h.pipe_open, h.no_freed⟩
  · have hm := h.file_ref.trans (moved_update (F := t.file) (f := f) (x := { t.file f with ref := 0, type := .none })
      (a := 0) (d := {f}) (by simp [h1]) (fun g hg => by simp [hg]))
    rw [add_zero] at hm
    exact hm
  · dsimp only
    rw [hir]
    exact h.inode_ref
  · rcases eq_or_ne g f with rfl | hgf
    · simp at hg
    · simp only [Function.update_of_ne hgf] at hg ⊢
      exact h.live_lt g hg
  · rcases eq_or_ne g f with rfl | hgf
    · simp
    · simp only [Function.update_of_ne hgf] at hg ⊢
      exact h.none_of_zero g hg
  · rcases eq_or_ne g f with rfl | hgf
    · simp at hg
    · simp only [Function.update_of_ne hgf] at hg hgp ⊢
      exact h.pipe_some g hg hgp
  · rw [h.open_iff pg pi w hp, hmem]
    simp only [hdead]
    constructor
    · rintro (⟨g, hg⟩ | hin)
      · rcases eq_or_ne g f with rfl | hgf
        · exact .inr (.inr ⟨hg.2.2.1, hg.2.2.2⟩)
        · exact .inl ⟨g, hg, hgf⟩
      · exact .inr (.inl hin)
    · rintro (⟨g, hg, -⟩ | hin | ⟨rfl, rfl⟩)
      · exact .inl ⟨g, hg⟩
      · exact .inr hin
      · exact .inl ⟨f, hfend⟩
  · exact h.end_unique g g' pg w ((hdead g pg w).mp hg).1 ((hdead g' pg w).mp hg').1
  · obtain ⟨hg, hgf⟩ := (hdead g pg w).mp hg
    rcases (hmem pg w).mp hin with hin | ⟨rfl, rfl⟩
    · exact h.end_held g _ _ hg hin
    · exact hgf (h.end_unique g f _ _ hg hfend)
  · rw [add_comm, Multiset.singleton_add, Multiset.nodup_cons]
    exact ⟨h.end_held f _ _ hfend, h.held_nodup⟩
  · rcases Multiset.mem_add.mp hin with hin | hin
    · exact h.held_pipe e hin
    · rw [Multiset.mem_singleton.mp hin]
      exact h.pipe_some f hpos hty

/-- `fileclose` up to `release(&ftable.lock)`: one reference fewer; the last one empties the entry,
and the running code then holds in the copy `ff` what the entry held, its inode or its pipe end. -/
theorem Acct.filecloseLocked (h : Acct t hf df hi di he) {f : Nat} {r : Option File}
    (hrun : (filecloseLocked f).run t = .ok (r, t')) :
    t'.fs = t.fs ∧ ((r = none ∧ Acct t' hf (df + {f}) hi di he) ∨
      ∃ ff, r = some ff ∧ Acct t' hf (df + {f}) (hi + ff.inodeHeld) di (he + ff.endHeld)) := by
  obtain ⟨hpos, ⟨hmore, rfl, rfl⟩ | ⟨h1, rfl, rfl⟩⟩ := filecloseLocked_run hrun
  · -- references remain
    have hacct := h.setFile (x := { t.file f with ref := (t.file f).ref - 1 }) (a := 0) (d := {f})
      (h.live_lt f hpos) (fun h0 => by simp at h0; omega) (fun pg w => by simp [File.IsEnd, hpos]; omega)
      (moved_update (by simp; omega) (fun g hg => by simp [hg]))
    have hsame : openRef { t.file f with ref := (t.file f).ref - 1 } = openRef (t.file f) := by
      simp only [openRef, hpos, true_and]
      congr 1
      simp only [eq_iff_iff, and_iff_right_iff_imp]
      omega
    rw [hsame] at hacct
    exact ⟨rfl, .inl ⟨rfl, hacct.balance (by abel) (by abel)⟩⟩
  refine ⟨rfl, .inr ⟨_, rfl, ?_⟩⟩
  have hpos' := hpos
  -- the last reference: what the entry held goes to the copy
  have hempty := fun (hold : ∀ pg w, ¬ (t.file f).IsEnd pg w) =>
    h.setFile (x := { t.file f with ref := 0, type := .none }) (a := 0) (d := {f}) (h.live_lt f hpos) (fun _ => rfl)
      (fun pg w => iff_of_false (not_isEnd_of_ref_zero rfl pg w) (hold pg w))
      (moved_update (by simp [h1]) (fun g hg => by simp [hg]))
  cases hty : (t.file f).type with
  | none =>
    have hacct := hempty (not_isEnd_of_type (by simp [hty]))
    rw [openRef_none hty, openRef_of_ref_zero (x := { t.file f with ref := 0, type := .none }) rfl] at hacct
    simpa [File.inodeHeld, File.endHeld, hty] using hacct
  | pipe =>
    simpa [File.inodeHeld, File.endHeld, hty] using h.releaseEnd h1 hty
  | inode =>
    have hacct := hempty (not_isEnd_of_type (by simp [hty]))
    rw [openRef_of_ref_zero (x := { t.file f with ref := 0, type := .none }) rfl,
      show openRef (t.file f) = {(t.file f).ip} by simp [openRef, hpos, hty]] at hacct
    simpa [File.inodeHeld, File.endHeld, hty] using hacct
  | device =>
    have hacct := hempty (not_isEnd_of_type (by simp [hty]))
    rw [openRef_of_ref_zero (x := { t.file f with ref := 0, type := .none }) rfl,
      show openRef (t.file f) = {(t.file f).ip} by simp [openRef, hpos, hty]] at hacct
    simpa [File.inodeHeld, File.endHeld, hty] using hacct

/-- `pipeclose` of an end the running code holds: the end is closed, and the page freed when the
other end is closed too. -/
theorem Acct.closeHeldEnd {pg : Nat} {w : Bool} (h : Acct t hf df hi di (he + {(pg, w)})) {u : Unit}
    (hrun : (pipeclose pg w).run t = .ok (u, t')) : t'.fs = t.fs ∧ Acct t' hf df hi di he := by
  have hin : (pg, w) ∈ he + {(pg, w)} := Multiset.mem_add.mpr (.inr (Multiset.mem_singleton_self _))
  obtain ⟨pi, hp⟩ := Option.ne_none_iff_exists'.mp (h.held_pipe _ hin)
  obtain ⟨v, ht', hvnone, hvsome⟩ := pipeclose_run hp hrun
  have hnotin : (pg, w) ∉ he := by
    have hnd := h.held_nodup
    rw [add_comm, Multiset.singleton_add, Multiset.nodup_cons] at hnd
    exact hnd.1
  -- no file is the end the code holds, and the other ends held are as they were
  have hnofile : ∀ g, ¬ PipeEnd t g pg w := fun g hg => h.end_held g pg w hg hin
  have hmem : ∀ e, e ≠ (pg, w) → (e ∈ he + {(pg, w)} ↔ e ∈ he) := fun e hne => by
    rw [Multiset.mem_add, Multiset.mem_singleton, or_iff_left hne]
  subst ht'
  refine ⟨rfl, h.file_ref, h.inode_ref, h.live_lt, h.none_of_zero, fun g hg hgp => ?_, fun pg' pi' w' hp' => ?_,
    h.end_unique, fun g pg' w' hg hin' => h.end_held g pg' w' hg (Multiset.mem_add.mpr (.inl hin')),
    Multiset.nodup_of_le (Multiset.le_add_right he _) h.held_nodup, fun e hin' => ?_, fun pg' pi' hp' => ?_,
    h.no_freed⟩
  · show Function.update t.pipes pg v (t.file g).pipe ≠ none
    rcases eq_or_ne (t.file g).pipe pg with hgpg | hgpg
    · -- an open end of this pipe is its other end, which keeps the page
      rw [hgpg, Function.update_self]
      have hw : (t.file g).writable = !w := by
        rcases Bool.eq_or_eq_not (t.file g).writable w with hw | hw
        · exact absurd ⟨hg, hgp, hgpg, hw⟩ (hnofile g)
        · exact hw
      intro hv
      have hopen := (h.open_iff pg pi (!w) hp).mpr (.inl ⟨g, hg, hgp, hgpg, hw⟩)
      rw [hvnone hv] at hopen
      cases hopen
    · rw [Function.update_of_ne hgpg]
      exact h.pipe_some g hg hgp
  · rcases eq_or_ne pg' pg with rfl | hpg
    · simp only [Function.update_self] at hp'
      obtain ⟨hw0, hw1, hw2⟩ := hvsome pi' hp'
      rcases Bool.eq_or_eq_not w' w with rfl | rfl
      · rw [hw0]
        exact iff_of_false Bool.false_ne_true (not_or.mpr ⟨fun ⟨g, hg⟩ => hnofile g hg, hnotin⟩)
      · rw [hw1]
        refine iff_of_true rfl ?_
        rcases (h.open_iff _ pi _ hp).mp hw2 with hf | hheld
        · exact .inl hf
        · exact .inr ((hmem _ (by simp)).mp hheld)
    · simp only [Function.update_of_ne hpg] at hp'
      rw [← hmem _ (by simp [hpg])]
      exact h.open_iff pg' pi' w' hp'
  · show Function.update t.pipes pg v e.1 ≠ none
    rcases eq_or_ne e.1 pg with he1 | he1
    · -- another end held of this pipe is its other end, which keeps the page
      rw [he1, Function.update_self]
      have hw : e.2 = !w := by
        rcases Bool.eq_or_eq_not e.2 w with hw | hw
        · have heq : e = (pg, w) := Prod.ext he1 hw
          exact absurd (heq ▸ hin') hnotin
        · exact hw
      have he' : (pg, !w) = e := Prod.ext he1.symm hw.symm
      intro hv
      have hopen := (h.open_iff pg pi (!w) hp).mpr (.inr (Multiset.mem_add.mpr (.inl (he' ▸ hin'))))
      rw [hvnone hv] at hopen
      cases hopen
    · rw [Function.update_of_ne he1]
      exact h.held_pipe e (Multiset.mem_add.mpr (.inl hin'))
  · rcases eq_or_ne pg' pg with rfl | hpg
    · simp only [Function.update_self] at hp'
      have hw1 := (hvsome pi' hp').2.1
      cases w <;> simp_all [endOpen]
    · simp only [Function.update_of_ne hpg] at hp'
      exact h.pipe_open pg' pi' hp'

/-- `fileclose` after `release(&ftable.lock)`: the end the copy `ff` holds is closed, or its inode
put back, which has a reference while the code has dropped no more than the holders keep. -/
theorem Acct.filecloseUnlocked {ff : File} (h : Acct t hf df (hi + ff.inodeHeld) di (he + ff.endHeld))
    (hdi : di ≤ t.inodeRefs) {u : Unit} (hrun : (filecloseUnlocked ff).run t = .ok (u, t')) :
    t'.fs.procs = t.fs.procs ∧ Acct t' hf df hi di he := by
  unfold Files.filecloseUnlocked at hrun
  have hput : ff.inodeHeld = {ff.ip} → ff.endHeld = 0 → (Files.onFs (iput ff.ip)).run t = .ok (u, t') →
      t'.fs.procs = t.fs.procs ∧ Acct t' hf df hi di he := fun hin hend hrun => by
    rw [hin, hend, add_zero] at h
    obtain ⟨s', hs, rfl⟩ := onFs_run hrun
    have hpos := h.ref_pos (i := ff.ip) (by
      have hle := Multiset.count_le_of_le ff.ip hdi
      simp only [Multiset.count_add, Multiset.count_singleton_self]
      omega)
    have hm := iput_move hpos hs
    exact ⟨hm.procs, (h.onFs hm).balance (by abel) (by abel)⟩
  split at hrun
  · rename_i hty
    rw [show ff.endHeld = {(ff.pipe, ff.writable)} by simp [File.endHeld, hty],
      show ff.inodeHeld = 0 by simp [File.inodeHeld, hty], add_zero] at h
    obtain ⟨hfs, hacct⟩ := h.closeHeldEnd hrun
    exact ⟨by rw [hfs], hacct⟩
  all_goals rename_i hty
  · exact hput (by simp [File.inodeHeld, hty]) (by simp [File.endHeld, hty]) hrun
  · exact hput (by simp [File.inodeHeld, hty]) (by simp [File.endHeld, hty]) hrun
  · cases hrun
    simpa [File.inodeHeld, File.endHeld, hty] using h

/-- The end of `pipealloc`: two entries taken by it, still `FD_NONE`, made the read and the write
end of a pipe put in a page that held none. -/
theorem Acct.setEnds (h : Acct t hf df hi di he) {f0 f1 pg : Nat} (hne : f1 ≠ f0) (h0 : (t.file f0).ref = 1)
    (h1 : (t.file f1).ref = 1) (ht0 : (t.file f0).type = .none) (ht1 : (t.file f1).type = .none)
    (hpg : t.pipes pg = none) (hfs : t'.fs = t.fs)
    (hfile : t'.file = Function.update (Function.update t.file f0
      { t.file f0 with type := .pipe, readable := true, writable := false, pipe := pg })
      f1 { t.file f1 with type := .pipe, readable := false, writable := true, pipe := pg })
    (hpipes : t'.pipes = Function.update t.pipes pg (some pipeInit)) (hfu : t'.freedUse = t.freedUse) :
    Acct t' hf df hi di he := by
  have hf0 : t'.file f0 = { t.file f0 with type := .pipe, readable := true, writable := false, pipe := pg } := by
    rw [hfile, Function.update_of_ne hne.symm, Function.update_self]
  have hf1 : t'.file f1 = { t.file f1 with type := .pipe, readable := false, writable := true, pipe := pg } := by
    rw [hfile, Function.update_self]
  have hother : ∀ g, g ≠ f0 → g ≠ f1 → t'.file g = t.file g := fun g hg0 hg1 => by
    rw [hfile, Function.update_of_ne hg1, Function.update_of_ne hg0]
  -- the two entries keep their `ref` and hold no inode, before and after
  have hsame : ∀ g, (t'.file g).ref = (t.file g).ref ∧ openRef (t'.file g) = openRef (t.file g) := by
    intro g
    rcases eq_or_ne g f0 with rfl | hg0
    · rw [hf0, openRef_none ht0]
      exact ⟨rfl, by simp [openRef]⟩
    rcases eq_or_ne g f1 with rfl | hg1
    · rw [hf1, openRef_none ht1]
      exact ⟨rfl, by simp [openRef]⟩
    rw [hother g hg0 hg1]
    exact ⟨rfl, rfl⟩
  have hfr : t'.fileRefs = t.fileRefs := by simp only [FtState.fileRefs, hfs]
  have hir : t'.inodeRefs = t.inodeRefs := by simp only [FtState.inodeRefs, hfs, fun g => (hsame g).2]
  -- no file was an end of the new pipe; now `f0` is its read end and `f1` its write end
  have hnoend : ∀ g w, ¬ PipeEnd t g pg w := fun g w hg => h.pipe_some g hg.1 hg.2.1 (by rw [hg.2.2.1]; exact hpg)
  have hat : ∀ g w, PipeEnd t' g pg w ↔ g = if w then f1 else f0 := by
    intro g w
    rcases eq_or_ne g f0 with rfl | hg0
    · cases w <;> simp [PipeEnd, File.IsEnd, hf0, h0, hne.symm]
    rcases eq_or_ne g f1 with rfl | hg1
    · cases w <;> simp [PipeEnd, File.IsEnd, hf1, h1, hne]
    rw [PipeEnd, hother g hg0 hg1]
    exact iff_of_false (hnoend g w) (by cases w <;> simp [hg0, hg1])
  have hoff : ∀ g pg' w, pg' ≠ pg → (PipeEnd t' g pg' w ↔ PipeEnd t g pg' w) := by
    intro g pg' w hpg'
    rcases eq_or_ne g f0 with rfl | hg0
    · exact iff_of_false (fun hg => hpg' (by rw [← hg.2.2.1, hf0])) (not_isEnd_of_type (by simp [ht0]) pg' w)
    rcases eq_or_ne g f1 with rfl | hg1
    · exact iff_of_false (fun hg => hpg' (by rw [← hg.2.2.1, hf1])) (not_isEnd_of_type (by simp [ht1]) pg' w)
    rw [PipeEnd, PipeEnd, hother g hg0 hg1]
  -- no end of the new pipe is held: the running code holds ends of pipes that are there
  have hnoheld : ∀ w, (pg, w) ∉ he := fun w hin => h.held_pipe _ hin hpg
  refine ⟨fun g => ?_, fun i => ?_, fun g hg => ?_, fun g hg => ?_, fun g hg hgp => ?_, fun pg' pi w hp => ?_,
    fun g g' pg' w hg hg' => ?_, fun g pg' w hg hin => ?_, h.held_nodup, fun e hin => ?_, fun pg' pi hp => ?_,
    by rw [hfu]; exact h.no_freed⟩
  · dsimp only
    rw [hfr, (hsame g).1]
    exact h.file_ref g
  · dsimp only
    rw [hir, hfs]
    exact h.inode_ref i
  · rw [(hsame g).1] at hg
    exact h.live_lt g hg
  · rw [(hsame g).1] at hg
    have hg0 : g ≠ f0 := by rintro rfl; omega
    have hg1 : g ≠ f1 := by rintro rfl; omega
    rw [hother g hg0 hg1]
    exact h.none_of_zero g hg
  · rcases eq_or_ne (t'.file g).pipe pg with hgpg | hgpg
    · simp [hpipes, hgpg]
    rw [hpipes, Function.update_of_ne hgpg]
    have hg0 : g ≠ f0 := by rintro rfl; simp [hf0] at hgpg
    have hg1 : g ≠ f1 := by rintro rfl; simp [hf1] at hgpg
    rw [hother g hg0 hg1] at hg hgp ⊢
    exact h.pipe_some g hg hgp
  · rw [hpipes] at hp
    rcases eq_or_ne pg' pg with rfl | hpg'
    · simp only [Function.update_self, Option.some.injEq] at hp
      subst hp
      simp only [hat, exists_eq, true_or, iff_true]
      cases w <;> rfl
    · rw [Function.update_of_ne hpg'] at hp
      simp only [hoff _ _ _ hpg']
      exact h.open_iff pg' pi w hp
  · rcases eq_or_ne pg' pg with rfl | hpg'
    · rw [(hat g w).mp hg, (hat g' w).mp hg']
    · exact h.end_unique g g' pg' w ((hoff g pg' w hpg').mp hg) ((hoff g' pg' w hpg').mp hg')
  · rcases eq_or_ne pg' pg with rfl | hpg'
    · exact hnoheld w hin
    · exact h.end_held g pg' w ((hoff g pg' w hpg').mp hg) hin
  · rw [hpipes]
    rcases eq_or_ne e.1 pg with he1 | he1
    · simp [he1]
    · rw [Function.update_of_ne he1]
      exact h.held_pipe e hin
  · rw [hpipes] at hp
    rcases eq_or_ne pg' pg with rfl | hpg'
    · simp only [Function.update_self, Option.some.injEq] at hp
      subst hp
      exact .inl rfl
    · rw [Function.update_of_ne hpg'] at hp
      exact h.pipe_open pg' pi hp


/-- `pipealloc` with a page that holds no pipe: the two entries it keeps are the ends of a new pipe,
each holding its reference for the caller; at `bad:` the entries taken, still `FD_NONE`, are left
for the caller's `fileclose`s. -/
theorem Acct.pipealloc (h : Acct t hf df hi di he) {page : Option Nat}
    (hpg : ∀ pg, page = some pg → t.pipes pg = none) {r : Except Pc (Nat × Nat)}
    (hrun : (pipealloc page).run t = .ok (r, t')) :
    t'.fs.procs = t.fs.procs ∧
      ((r = .error .idle ∧ Acct t' hf df hi di he) ∨
        (∃ f0, r = .error (.close f0 .idle) ∧ Acct t' (hf + {f0}) df hi di he) ∨
        (∃ f0 f1, r = .error (.close f0 (.close f1 .idle)) ∧ Acct t' (hf + {f0} + {f1}) df hi di he) ∨
        ∃ f0 f1, r = .ok (f0, f1) ∧ f1 ≠ f0 ∧ Acct t' (hf + {f0} + {f1}) df hi di he) := by
  unfold Files.pipealloc at hrun
  obtain ⟨r0, t1, h1, h2⟩ := run_bind_ok.mp hrun
  rcases h.filealloc h1 with ⟨rfl, rfl⟩ | ⟨f0, rfl, -, hz0, hty0, e1, hacct1⟩
  · cases h2
    exact ⟨rfl, .inl ⟨rfl, h⟩⟩
  dsimp only at h2
  obtain ⟨r1, t2, h3, h4⟩ := run_bind_ok.mp h2
  rcases hacct1.filealloc h3 with ⟨rfl, rfl⟩ | ⟨f1, rfl, -, hz1, hty1, e2, hacct2⟩
  · -- no second entry: the first is left to close
    cases h4
    exact ⟨by rw [e1], .inr (.inl ⟨f0, rfl, hacct1⟩)⟩
  have hne : f1 ≠ f0 := by
    rintro rfl
    rw [e1] at hz1
    simp at hz1
  dsimp only at h4
  cases page with
  | none =>
    -- no page: both entries are left to close
    cases h4
    exact ⟨by rw [e2, e1], .inr (.inr (.inl ⟨f0, f1, rfl, hacct2⟩))⟩
  | some pg =>
    dsimp only at h4
    obtain ⟨_, t3, h5, h6⟩ := run_bind_ok.mp h4
    obtain ⟨x0, t4, h7, h8⟩ := run_bind_ok.mp h6
    obtain ⟨_, t5, h9, h10⟩ := run_bind_ok.mp h8
    obtain ⟨x1, t6, h11, h12⟩ := run_bind_ok.mp h10
    obtain ⟨_, t7, h13, h14⟩ := run_bind_ok.mp h12
    cases h5; cases h7; cases h9; cases h11; cases h13; cases h14
    have hf0 : t2.file f0 = t1.file f0 := by
      rw [e2]
      exact Function.update_of_ne hne.symm _ _
    have hpipes : t2.pipes = t.pipes := by rw [e2, e1]
    refine ⟨by rw [e2, e1], .inr (.inr (.inr ⟨f0, f1, rfl, hne, hacct2.setEnds hne ?_ ?_ ?_ ?_ ?_ rfl ?_ rfl rfl⟩))⟩
    · rw [hf0, e1]
      simp
    · rw [e2]
      simp
    · rw [hf0, e1]
      simpa using hty0
    · rw [e2]
      simpa using hty1
    · rw [hpipes]
      exact hpg pg rfl
    · dsimp only
      rw [Function.update_of_ne hne]

/-- `fileread`: a pipe's section keeps its ends, and an inode is locked and unlocked. -/
theorem Acct.fileread (h : Acct t hf df hi di he) {f : Nat} {dst : Nat → Bool} {addr : Nat} {n : Int}
    {killed : Bool} {u : Unit} (hrun : (fileread f dst addr n killed).run t = .ok (u, t')) :
    t'.fs.procs = t.fs.procs ∧ Acct t' hf df hi di he := by
  unfold Files.fileread getFile at hrun
  obtain ⟨x, t1, h1, h2⟩ := run_bind_ok.mp hrun
  cases h1
  split at h2
  · cases h2
    exact ⟨rfl, h⟩
  split at h2
  · -- a pipe file is open, so its page holds its pipe and the section runs on it
    rename_i hty
    have hpos : 0 < (t.file f).ref := Nat.pos_of_ne_zero fun h0 => by
      rw [h.none_of_zero f h0] at hty
      cases hty
    obtain ⟨_, t3, h3, h4⟩ := run_bind_ok.mp h2
    cases h3
    obtain ⟨pi, hp⟩ := Option.ne_none_iff_exists'.mp (h.pipe_some f hpos hty)
    rw [hp] at h4
    cases h4
    obtain ⟨hr, hw⟩ := piperead_ends dst addr n killed pi
    exact ⟨rfl, h.setPipe hp hr hw⟩
  · cases h2
    exact ⟨rfl, h⟩
  · obtain ⟨_, t3, h3, h4⟩ := run_bind_ok.mp h2
    obtain ⟨s3, h5, rfl⟩ := onFs_run h3
    obtain ⟨s4, h6, rfl⟩ := onFs_run h4
    have m3 := ilock_move h5
    have m4 := iunlock_move h6
    exact ⟨m4.procs.trans m3.procs, (h.onFs_zero m3).onFs_zero m4⟩
  · cases h2

/-- `filewrite`: a pipe's section keeps its ends, and an inode is locked and unlocked. -/
theorem Acct.filewrite (h : Acct t hf df hi di he) {f : Nat} {src : Nat → Option UInt8} {addr : Nat} {n : Int}
    {killed : Bool} {i : Nat} {u : Unit} (hrun : (filewrite f src addr n killed i).run t = .ok (u, t')) :
    t'.fs.procs = t.fs.procs ∧ Acct t' hf df hi di he := by
  unfold Files.filewrite getFile at hrun
  obtain ⟨x, t1, h1, h2⟩ := run_bind_ok.mp hrun
  cases h1
  split at h2
  · cases h2
    exact ⟨rfl, h⟩
  split at h2
  · rename_i hty
    have hpos : 0 < (t.file f).ref := Nat.pos_of_ne_zero fun h0 => by
      rw [h.none_of_zero f h0] at hty
      cases hty
    obtain ⟨_, t3, h3, h4⟩ := run_bind_ok.mp h2
    cases h3
    obtain ⟨pi, hp⟩ := Option.ne_none_iff_exists'.mp (h.pipe_some f hpos hty)
    rw [hp] at h4
    cases h4
    obtain ⟨hr, hw⟩ := pipewrite_ends src addr n killed pi i
    exact ⟨rfl, h.setPipe hp hr hw⟩
  · cases h2
    exact ⟨rfl, h⟩
  · obtain ⟨_, t3, h3, h4⟩ := run_bind_ok.mp h2
    obtain ⟨s3, h5, rfl⟩ := onFs_run h3
    obtain ⟨s4, h6, rfl⟩ := onFs_run h4
    have m3 := ilock_move h5
    have m4 := iunlock_move h6
    exact ⟨m4.procs.trans m3.procs, (h.onFs_zero m3).onFs_zero m4⟩
  · cases h2

/-- `sys_open`'s table part: the entry it took, still `FD_NONE` with its one reference, becomes an
inode or device file and holds the inode reference the call took. -/
theorem Acct.openFile (h : Acct t hf df (hi + {ip}) di he) {f : Nat} (hlt : f < nFile) (h1 : (t.file f).ref = 1)
    (hty : (t.file f).type = .none) (ty : FdType) (hty' : ty = .inode ∨ ty = .device) (r w : Bool) :
    Acct { t with file := Function.update t.file f { t.file f with type := ty, ip := ip, readable := r, writable := w } }
      hf df hi di he := by
  have hacct := h.setFile (x := { t.file f with type := ty, ip := ip, readable := r, writable := w }) (a := 0) (d := 0)
    hlt (fun h0 => by simp [h1] at h0)
    (fun pg w' => iff_of_false (not_isEnd_of_type (by rcases hty' with rfl | rfl <;> simp) pg w')
      (not_isEnd_of_type (by simp [hty]) pg w'))
    (moved_update (by simp) (fun g _ => rfl))
  have hnew : openRef { t.file f with type := ty, ip := ip, readable := r, writable := w } = {ip} := by
    simp [openRef, h1, hty']
  rw [openRef_none hty, hnew] at hacct
  exact hacct.balance (by abel) (by abel)


/-! ## The calls that run whole -/

/-- `sys_dup`: the new descriptor holds the reference `filedup` takes. -/
theorem Acct.sysDup (h : Acct t hf df hi di he) {p : Nat} {fd : Int32} {r : Int}
    (hrun : (sysDup p fd).run t = .ok (r, t')) : Kept t t' p ∧ Acct t' hf df hi di he := by
  unfold Files.sysDup at hrun
  obtain ⟨o, t1, h1, h2⟩ := run_bind_ok.mp hrun
  obtain ⟨rfl, -⟩ := argfd_run h1
  cases o with
  | none =>
    cases h2
    exact ⟨Kept.of_procs rfl p, h⟩
  | some f =>
  dsimp only at h2
  obtain ⟨o', t2, h3, h4⟩ := run_bind_ok.mp h2
  rcases h.fdalloc h3 with ⟨rfl, rfl⟩ | ⟨fd', pr, rfl, -, -, e2, hacct2⟩
  · cases h4
    exact ⟨Kept.of_procs rfl p, h⟩
  obtain ⟨_, t3, h5, h6⟩ := run_bind_ok.mp h4
  cases h6
  obtain ⟨hfs, hacct3⟩ := hacct2.filedup h5
  exact ⟨Kept.of_set (by rw [hfs, e2]) (.inl rfl), hacct3.balance (by abel) (by abel)⟩

/-- `sys_read` takes and drops nothing. -/
theorem Acct.sysRead (h : Acct t hf df hi di he) {p : Nat} {fd : Int32} {dst : Nat → Bool} {addr : Nat} {n : Int}
    {killed : Bool} {u : Unit} (hrun : (sysRead p fd dst addr n killed).run t = .ok (u, t')) :
    t'.fs.procs = t.fs.procs ∧ Acct t' hf df hi di he := by
  unfold Files.sysRead at hrun
  obtain ⟨o, t1, h1, h2⟩ := run_bind_ok.mp hrun
  obtain ⟨rfl, -⟩ := argfd_run h1
  cases o with
  | none =>
    cases h2
    exact ⟨rfl, h⟩
  | some f => exact h.fileread h2

/-- `sys_write` takes and drops nothing. -/
theorem Acct.sysWrite (h : Acct t hf df hi di he) {p : Nat} {fd : Int32} {src : Nat → Option UInt8} {addr : Nat}
    {n : Int} {killed : Bool} {i : Nat} {u : Unit} (hrun : (sysWrite p fd src addr n killed i).run t = .ok (u, t')) :
    t'.fs.procs = t.fs.procs ∧ Acct t' hf df hi di he := by
  unfold Files.sysWrite at hrun
  obtain ⟨o, t1, h1, h2⟩ := run_bind_ok.mp hrun
  obtain ⟨rfl, -⟩ := argfd_run h1
  cases o with
  | none =>
    cases h2
    exact ⟨rfl, h⟩
  | some f => exact h.filewrite h2

/-- `fork`'s loop: one reference more to each file the descriptors hold. -/
theorem Acct.dupAll (h : Acct t hf df hi di he) {l : List (Option Nat)} {u : Unit}
    (hrun : (dupAll l).run t = .ok (u, t')) : t'.fs = t.fs ∧ Acct t' (hf + (l.map held).sum) df hi di he := by
  induction l generalizing t hf with
  | nil =>
    cases hrun
    exact ⟨rfl, by simpa using h⟩
  | cons o l ih =>
    cases o with
    | none =>
      rw [Files.dupAll] at hrun
      simpa using ih h hrun
    | some f =>
      rw [Files.dupAll] at hrun
      obtain ⟨_, t1, h1, h2⟩ := run_bind_ok.mp hrun
      obtain ⟨hfs1, hacct1⟩ := h.filedup h1
      obtain ⟨hfs2, hacct2⟩ := ih hacct1 h2
      refine ⟨hfs2.trans hfs1, hacct2.balance ?_ rfl⟩
      simp only [List.map_cons, held_some, List.sum_cons]
      abel

/-- The file part of `fork` into a free slot: the child's descriptors and `cwd` hold the references
`filedup` and `idup` take. -/
theorem Acct.fork (h : Acct t hf df hi di he) {p : Nat} {child : Option Nat}
    (hc : ∀ c, child = some c → t.fs.procs[c]? = some none) {u : Unit} (hrun : (fork p child).run t = .ok (u, t')) :
    Kept t t' p ∧ Acct t' hf df hi di he := by
  unfold Files.fork at hrun
  cases child with
  | none =>
    cases hrun
    exact ⟨Kept.of_procs rfl p, h⟩
  | some c =>
  dsimp only at hrun
  obtain ⟨pr, t1, h1, h2⟩ := run_bind_ok.mp hrun
  obtain ⟨rfl, -⟩ := myproc_run h1
  obtain ⟨_, t2, h3, h4⟩ := run_bind_ok.mp h2
  obtain ⟨hfs2, hacct2⟩ := h.dupAll h3
  obtain ⟨_, t3, h5, h6⟩ := run_bind_ok.mp h4
  obtain ⟨s3, h7, rfl⟩ := onFs_run h5
  have m := idup_move h7
  obtain ⟨s4, h8, rfl⟩ := onFs_run h6
  cases h8
  have hc3 : s3.procs[c]? = some none := by
    rw [m.procs, hfs2]
    exact hc c rfl
  -- the child's record takes over what `dupAll` and `idup` took
  have hacct4 := (hacct2.onFs m).setProc hc3 (some { cwd := pr.cwd, ofile := pr.ofile })
  refine ⟨Kept.of_set (c := c) (o := some pr) ?_ (.inr (hc c rfl)), hacct4.balance ?_ ?_⟩
  · show s3.procs.set c _ = _
    rw [m.procs, hfs2]
  · simp only [descRefs, add_zero]
    abel
  · simp only [cwdRefs, add_zero]
    abel

/-- A namespace call of a live process, run whole, which takes and drops no reference. -/
theorem Acct.nsCall (h : Acct t hf df hi di he) {p : Nat} {m : Proc → FsM Int}
    (hm : ∀ {pr : Proc} {s s' : FsState} {r : Int}, (m pr).run s = .ok (r, s') → RefsMove s s' 0 0) {c : Pc}
    (hrun : (do discard <| Files.onFs (m (← myproc p)); return Pc.idle).run t = .ok (c, t')) :
    c = .idle ∧ t'.fs.procs = t.fs.procs ∧ Acct t' hf df hi di he := by
  obtain ⟨pr, t1, h1, h2⟩ := run_bind_ok.mp hrun
  obtain ⟨rfl, -⟩ := myproc_run h1
  obtain ⟨_, t2, h3, h4⟩ := run_bind_ok.mp h2
  cases h4
  obtain ⟨r, h5⟩ := run_discard_ok.mp h3
  obtain ⟨s2, h6, rfl⟩ := onFs_run h5
  exact ⟨rfl, (hm h6).procs, h.onFs_zero (hm h6)⟩

end Acct

end Xv6.Files
