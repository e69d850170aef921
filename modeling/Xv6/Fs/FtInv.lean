import Mathlib
import Xv6.Fs.FtAcct

/-!
# Every reference is accounted for, calls in progress included

Between two sections of a call, the call holds references of its own. `sys_close` holds the file
whose descriptor it cleared until `fileclose` drops the reference; after `fileclose` has emptied an
entry, the call holds in `ff` the entry's inode or pipe end until `iput` or `pipeclose`; `sys_open`,
`exec` and `sys_chdir` hold the inode `namei` found; `exit` keeps a descriptor whose reference
`fileclose` dropped until `p->ofile[fd] = 0`, and `exit` and `sys_chdir` keep a `cwd` that `iput`
put back until they change it. `Pc.files`, `Pc.stale`, `Pc.inodes`, `Pc.staleInodes` and `Pc.ends`
read these off a process's place, and `FtState.held` sums them over the processes.

* `AcctAt`, `Leaves` : the accounting with one call at a place, and what one of its sections leaves;
* one lemma per place (`leaves_close`, `leaves_closing`, `leaves_opened`, `leaves_exitClear`, …)
  and per call (`leaves_sysOpen`, `leaves_sysPipe`, `leaves_exit`, …), on every path;
* `FtInv` : `Acct` with what every call in progress holds, and what each call relies on in its
  process's record; `ftInv_reachable`, from one step (`FtInv.step`);
* `file_pipe_refs`, `inode_refs_reachable` : the accounting of every reachable state;
  `exit_window_refs` : a file open on two descriptors with one reference, one of them `exit`'s.
-/

namespace Xv6.Files

open Trans Refcount

/-! ## What a call in progress holds -/

/-- The file references the call holds: those of the entries it is yet to `fileclose`. -/
def Pc.files : Pc → Multiset Nat
  | .close f after => {f} + after.files
  | .closing _ after | .iunlockput _ after => after.files
  | _ => 0

example : (Pc.close 3 (.close 4 .idle)).files = {3, 4} := by simp [Pc.files]

/-- The descriptors whose reference the call has dropped before clearing them: `exit`'s, between
`fileclose(f)` and `p->ofile[fd] = 0`. -/
def Pc.stale : Pc → Multiset Nat
  | .close _ after | .closing _ after | .iunlockput _ after => after.stale
  | .exitClear _ f => {f}
  | _ => 0

example : (Pc.close 3 (.exitClear 0 3)).stale = {3} := by simp [Pc.stale]

/-- The inode references the call holds: the inode it looked up, or the one its copy `ff` holds. -/
def Pc.inodes : Pc → Multiset Nat
  | .close _ after => after.inodes
  | .closing ff after => ff.inodeHeld + after.inodes
  | .iunlockput ip after => {ip} + after.inodes
  | .opened ip _ | .execFound ip | .chdirFound ip | .chdirPut ip | .chdirSet ip _ => {ip}
  | _ => 0

example : (Pc.iunlockput 5 .idle).inodes = {5} := by simp [Pc.inodes]

/-- The `cwd` whose reference the call has put back before changing it. -/
def Pc.staleInodes : Pc → Multiset Nat
  | .close _ after | .closing _ after | .iunlockput _ after => after.staleInodes
  | .chdirSet _ old => {old}
  | .exitDone cwd => {cwd}
  | _ => 0

example : (Pc.chdirSet 5 1).staleInodes = {1} := by simp [Pc.staleInodes]

/-- The pipe end the call holds in its copy `ff`. -/
def Pc.ends : Pc → Multiset (Nat × Bool)
  | .close _ after | .iunlockput _ after => after.ends
  | .closing ff after => ff.endHeld + after.ends
  | _ => 0

example : (Pc.exitCwd).ends = 0 := by simp [Pc.ends]

/-- What the call relies on in its process's record: the descriptor `exit` closed is still open
until it clears it, the descriptors before it are closed, and the `cwd` put back is still the
process's until it changes it. -/
def Pc.Local (pr : Proc) : Pc → Prop
  | .close _ after | .closing _ after | .iunlockput _ after => after.Local pr
  | .chdirSet _ old => pr.cwd = old
  | .exitFd fd => ∀ x ∈ pr.ofile.take fd, x = none
  | .exitClear fd f => pr.ofile[fd]? = some (some f) ∧ ∀ x ∈ pr.ofile.take fd, x = none
  | .exitCwd => ∀ x ∈ pr.ofile, x = none
  | .exitDone cwd => (∀ x ∈ pr.ofile, x = none) ∧ pr.cwd = cwd
  | _ => True

example (pr : Proc) : (Pc.chdirSet 5 pr.cwd).Local pr := by simp [Pc.Local]

/-- A process in a call is live, with a record the call can rely on. -/
def Pc.Ok (t : FtState) (p : Nat) (c : Pc) : Prop :=
  c = .idle ∨ ∃ pr, t.fs.procs[p]? = some (some pr) ∧ c.Local pr

/-- What the calls of all processes hold, read off their places by `g`. -/
def FtState.held {α : Type} (t : FtState) (g : Pc → Multiset α) : Multiset α :=
  ((List.range t.fs.procs.length).map fun p => g (t.calls p)).sum

theorem Pc.ok_of {t : FtState} {p : Nat} {r : Proc} {c : Pc} (hp : t.fs.procs[p]? = some (some r))
    (hl : c.Local r) : c.Ok t p :=
  .inr ⟨r, hp, hl⟩

/-- A descriptor `exit` holds on to is one of the process's. -/
theorem Pc.stale_le {pr : Proc} : ∀ {c : Pc}, c.Local pr → c.stale ≤ descRefs (some pr)
  | .close _ after, h | .closing _ after, h | .iunlockput _ after, h => Pc.stale_le (c := after) h
  | .exitClear fd f, h => by
    have hmem : held (some f) ≤ (pr.ofile.map held).sum :=
      List.le_sum_of_mem (List.mem_map.mpr ⟨_, List.mem_of_getElem? h.1, rfl⟩)
    simpa [Pc.stale, descRefs] using hmem
  | .idle, _ | .opened .., _ | .openEnd .., _ | .execFound _, _ | .chdirFound _, _ | .chdirPut _, _
  | .chdirSet .., _ | .exitFd _, _ | .exitCwd, _ | .exitDone _, _ => by simp [Pc.stale]

/-- A `cwd` a call has put back is still the process's. -/
theorem Pc.staleInodes_le {pr : Proc} : ∀ {c : Pc}, c.Local pr → c.staleInodes ≤ cwdRefs (some pr)
  | .close _ after, h | .closing _ after, h | .iunlockput _ after, h => Pc.staleInodes_le (c := after) h
  | .chdirSet _ old, h => by simp [Pc.staleInodes, cwdRefs, ← show pr.cwd = old from h]
  | .exitDone cwd, h => by simp [Pc.staleInodes, cwdRefs, ← h.2]
  | .idle, _ | .opened .., _ | .openEnd .., _ | .execFound _, _ | .chdirFound _, _ | .chdirPut _, _
  | .exitFd _, _ | .exitClear .., _ | .exitCwd, _ => by simp [Pc.staleInodes]

/-- The accounting with the call at place `c` holding what it holds, beside the holders `hf`, `df`,
`hi`, `di`, `he` of the others. -/
def AcctAt (t : FtState) (hf df hi di : Multiset Nat) (he : Multiset (Nat × Bool)) (c : Pc) : Prop :=
  Acct t (hf + c.files) (df + c.stale) (hi + c.inodes) (di + c.staleInodes) (he + c.ends)

/-- What a section of process `p` leaves when it ends at place `c'`: the accounting with the call
at `c'`, the other live processes' records as they were, and a record of `p` that `c'` relies on. -/
structure Leaves (t t' : FtState) (p : Nat) (hf df hi di : Multiset Nat) (he : Multiset (Nat × Bool))
    (c' : Pc) : Prop where
  acct : AcctAt t' hf df hi di he c'
  kept : Kept t t' p
  ok : c'.Ok t' p

theorem Acct.ends_eq {t : FtState} {hf df hi di : Multiset Nat} {he he' : Multiset (Nat × Bool)}
    (h : Acct t hf df hi di he) (heq : he = he') : Acct t hf df hi di he' :=
  heq ▸ h

/-- A section that changes nothing but the place, to one that holds the same. -/
theorem Leaves.same {t : FtState} {p : Nat} {pr : Proc} {hf df hi di : Multiset Nat}
    {he : Multiset (Nat × Bool)} {c' : Pc} (hp : t.fs.procs[p]? = some (some pr)) (hl : c'.Local pr)
    (h : AcctAt t hf df hi di he c') : Leaves t t p hf df hi di he c' :=
  ⟨h, Kept.of_procs rfl p, Pc.ok_of hp hl⟩

/-! ## What each section does -/

theorem onFs_getInode_run {t : FtState} (i : Nat) : (onFs (getInode i)).run t = .ok (t.fs.inode i, t) := rfl

/-- `exit`'s loop from `fd`, the descriptors before it all closed: the next open one, at `k`, with
every one before it closed, or none left. -/
theorem exitScan_spec (ofile : List (Option Nat)) :
    ∀ (l : List (Option Nat)) (fd : Nat), ofile.drop fd = l → (∀ x ∈ ofile.take fd, x = none) →
      (exitScan l fd = .exitCwd ∧ ∀ x ∈ ofile, x = none) ∨
        ∃ k f, exitScan l fd = .close f (.exitClear k f) ∧ ofile[k]? = some (some f) ∧
          ∀ x ∈ ofile.take k, x = none
  | [], fd, hl, hc => by
    refine .inl ⟨rfl, ?_⟩
    rwa [List.take_of_length_le (List.drop_eq_nil_iff.mp hl)] at hc
  | none :: l, fd, hl, hc => by
    have hfd : ofile[fd]? = some none := by
      rw [← Nat.add_zero fd, ← List.getElem?_drop, hl]
      rfl
    refine exitScan_spec ofile l (fd + 1) ?_ fun x hx => ?_
    · rw [List.drop_add_one_eq_tail_drop, hl]
      rfl
    · rw [List.take_add_one, hfd, Option.toList_some, List.mem_append, List.mem_singleton] at hx
      rcases hx with hx | rfl
      · exact hc x hx
      · rfl
  | some f :: l, fd, hl, hc => by
    have hfd : ofile[fd]? = some (some f) := by
      rw [← Nat.add_zero fd, ← List.getElem?_drop, hl]
      rfl
    exact .inr ⟨fd, f, rfl, hfd, hc⟩

/-- The descriptors `exit` has cleared, one more. -/
theorem take_set_none {ofile : List (Option Nat)} {fd : Nat} (hc : ∀ x ∈ ofile.take fd, x = none) :
    ∀ x ∈ (ofile.set fd none).take (fd + 1), x = none := by
  intro x hx
  rw [List.take_add_one, List.getElem?_set] at hx
  rw [List.take_set_of_le (Nat.le_refl fd)] at hx
  rw [List.mem_append] at hx
  rcases hx with hx | hx
  · exact hc x hx
  · split at hx <;> simp_all

/-- A process whose descriptors are all closed holds no file. -/
theorem descRefs_of_closed {pr : Proc} (h : ∀ x ∈ pr.ofile, x = none) : descRefs (some pr) = 0 := by
  refine List.sum_eq_zero fun m hm => ?_
  obtain ⟨x, hx, rfl⟩ := List.mem_map.mp hm
  rw [h x hx, held_none]

section Sections

variable {t t' : FtState} {p : Nat} {pr : Proc} {hf df hi di : Multiset Nat} {he : Multiset (Nat × Bool)}

/-- `fileclose` under `ftable.lock`: the reference the call held is dropped, and for the last one the
call holds what the entry held until the next section. -/
theorem leaves_close {f : Nat} {after c' : Pc} (hp : t.fs.procs[p]? = some (some pr)) (hl : after.Local pr)
    (h : AcctAt t hf df hi di he (.close f after)) (hrun : (resume p (.close f after)).run t = .ok (c', t')) :
    Leaves t t' p hf df hi di he c' := by
  unfold resume at hrun
  obtain ⟨r, t1, h1, h2⟩ := run_bind_ok.mp hrun
  simp only [AcctAt, Pc.files, Pc.stale, Pc.inodes, Pc.staleInodes, Pc.ends] at h
  obtain ⟨hfs, ⟨rfl, hacct⟩ | ⟨ff, rfl, hacct⟩⟩ := h.filecloseLocked h1
  all_goals
    cases h2
    have hp' : t'.fs.procs[p]? = some (some pr) := by rw [hfs]; exact hp
    refine ⟨?_, Kept.of_procs (by rw [hfs]) p, Pc.ok_of hp' hl⟩
    simp only [AcctAt, Pc.files, Pc.stale, Pc.inodes, Pc.staleInodes, Pc.ends]
  · exact hacct.balance (by abel) (by abel)
  · exact (hacct.balance (by abel) (by abel)).ends_eq (by abel)

/-- `fileclose` after `release(&ftable.lock)`: what the copy `ff` held is closed. -/
theorem leaves_closing {ff : File} {after c' : Pc} (hp : t.fs.procs[p]? = some (some pr))
    (hl : after.Local pr) (h : AcctAt t hf df hi di he (.closing ff after))
    (hdi : di + after.staleInodes ≤ t.inodeRefs)
    (hrun : (resume p (.closing ff after)).run t = .ok (c', t')) : Leaves t t' p hf df hi di he c' := by
  unfold resume at hrun
  obtain ⟨_, t1, h1, h2⟩ := run_bind_ok.mp hrun
  cases h2
  simp only [AcctAt, Pc.files, Pc.stale, Pc.inodes, Pc.staleInodes, Pc.ends] at h
  have h' : Acct t (hf + after.files) (df + after.stale) (hi + after.inodes + ff.inodeHeld)
      (di + after.staleInodes) (he + after.ends + ff.endHeld) :=
    (h.balance (by abel) (by abel)).ends_eq (by abel)
  obtain ⟨hprocs, hacct⟩ := h'.filecloseUnlocked hdi h1
  exact ⟨hacct, Kept.of_procs hprocs p, Pc.ok_of (by rw [hprocs]; exact hp) hl⟩

/-- `iunlockput` of an inode the call holds. -/
theorem leaves_iunlockput {ip : Nat} {after c' : Pc} (hp : t.fs.procs[p]? = some (some pr))
    (hl : after.Local pr) (h : AcctAt t hf df hi di he (.iunlockput ip after))
    (hdi : di + after.staleInodes ≤ t.inodeRefs)
    (hrun : (resume p (.iunlockput ip after)).run t = .ok (c', t')) : Leaves t t' p hf df hi di he c' := by
  unfold resume at hrun
  obtain ⟨_, t1, h1, h2⟩ := run_bind_ok.mp hrun
  cases h2
  simp only [AcctAt, Pc.files, Pc.stale, Pc.inodes, Pc.staleInodes, Pc.ends] at h
  obtain ⟨s1, h3, rfl⟩ := onFs_run h1
  have hpos := h.ref_pos (i := ip) (by
    have hle := Multiset.count_le_of_le ip hdi
    simp only [Multiset.count_add, Multiset.count_singleton_self] at hle ⊢
    omega)
  have m := iunlockput_move hpos h3
  refine ⟨(h.onFs m).balance (by abel) (by abel), Kept.of_procs m.procs p, Pc.ok_of ?_ hl⟩
  rw [show ({ t with fs := s1 } : FtState).fs.procs = t.fs.procs from m.procs]
  exact hp

/-- `sys_open`'s table part: an entry and a descriptor for the inode the call holds, which the
entry then holds; on the way out at `-1`, the entry is left to `fileclose` and the inode to
`iunlockput`. -/
theorem leaves_opened {ip : Nat} {omode : Int32} {c' : Pc} (hp : t.fs.procs[p]? = some (some pr))
    (h : AcctAt t hf df hi di he (.opened ip omode))
    (hrun : (resume p (.opened ip omode)).run t = .ok (c', t')) : Leaves t t' p hf df hi di he c' := by
  unfold resume openFile at hrun
  simp only [AcctAt, Pc.files, Pc.stale, Pc.inodes, Pc.staleInodes, Pc.ends, add_zero] at h
  obtain ⟨d, t1, h1, h2⟩ := run_bind_ok.mp hrun
  rw [onFs_getInode_run] at h1
  cases h1
  -- the ways out before the entry is filled in hold what they held
  have hout : ∀ {t2 : FtState} {a : Multiset Nat}, Acct t2 (hf + a) df (hi + {ip}) di he → Kept t t2 p →
      t2.fs.procs[p]? = some (some pr) → ∀ c'', c''.files = a → c''.stale = 0 → c''.inodes = {ip} →
        c''.staleInodes = 0 → c''.ends = 0 → c''.Local pr → Leaves t t2 p hf df hi di he c'' :=
    fun hacct hk hp2 c'' hf' hs hi' hsi he' hl => ⟨by
      simp only [AcctAt, hf', hs, hi', hsi, he', add_zero]
      exact hacct, hk, Pc.ok_of hp2 hl⟩
  split at h2
  · -- a device with no driver
    cases h2
    exact hout (a := 0) (by simpa using h) (Kept.of_procs rfl p) hp _ rfl rfl rfl rfl rfl trivial
  obtain ⟨of, t2, h3, h4⟩ := run_bind_ok.mp h2
  rcases h.filealloc h3 with ⟨rfl, rfl⟩ | ⟨f, rfl, hlt, -, hty, e2, hacct2⟩
  · -- the table is full
    cases h4
    exact hout (a := 0) (by simpa using h) (Kept.of_procs rfl p) hp _ rfl rfl rfl rfl rfl trivial
  dsimp only at h4
  have hk2 : Kept t t2 p := Kept.of_procs (by rw [e2]) p
  have hp2 : t2.fs.procs[p]? = some (some pr) := by rw [e2]; exact hp
  obtain ⟨ofd, t3, h5, h6⟩ := run_bind_ok.mp h4
  rcases hacct2.fdalloc h5 with ⟨rfl, rfl⟩ | ⟨fd, pr', rfl, hp', -, e3, hacct3⟩
  · -- no descriptor is free: the entry and the inode are left to close
    cases h6
    exact hout hacct2 hk2 hp2 _ (by simp [Pc.files]) rfl (by simp [Pc.inodes]) rfl rfl trivial
  -- the descriptor holds the entry, and the entry the inode
  rw [hp2, Option.some.injEq, Option.some.injEq] at hp'
  subst hp'
  dsimp only at h6
  obtain ⟨x, t4, h7, h8⟩ := run_bind_ok.mp h6
  cases h7
  obtain ⟨_, t5, h9, h10⟩ := run_bind_ok.mp h8
  cases h9
  cases h10
  have hf3 : (t3.file f).ref = 1 ∧ (t3.file f).type = .none := by
    rw [e3, e2]
    simpa using hty
  -- the new descriptor holds the entry's reference, which `filealloc` took
  have hacct3' : Acct t3 hf df (hi + {ip}) di he := hacct3.balance (by abel) rfl
  have hacct4 := hacct3'.openFile hlt hf3.1 hf3.2
    (if (t.fs.inode ip).type = .device then .device else .inode) (by split <;> simp)
    (decide (omode &&& oWronly = 0)) (decide (omode &&& oWronly ≠ 0 ∨ omode &&& oRdwr ≠ 0))
  refine ⟨by simpa [AcctAt, Pc.files, Pc.stale, Pc.inodes, Pc.staleInodes, Pc.ends] using hacct4,
    hk2.trans (Kept.of_set (by rw [e3]) (.inl rfl)), Pc.ok_of (r := { pr with ofile := pr.ofile.set fd (some f) })
      ?_ trivial⟩
  show t3.fs.procs[p]? = _
  rw [e3]
  simp [List.getElem?_set_self', hp2]

/-- The end of `sys_open`: `itrunc` and `iunlock` take and drop nothing. -/
theorem leaves_openEnd {ip : Nat} {omode : Int32} {c' : Pc} (h : AcctAt t hf df hi di he (.openEnd ip omode))
    (hrun : (resume p (.openEnd ip omode)).run t = .ok (c', t')) : Leaves t t' p hf df hi di he c' := by
  unfold resume Files.openEnd at hrun
  obtain ⟨_, t1, h1, h2⟩ := run_bind_ok.mp hrun
  cases h2
  obtain ⟨d, t2, h3, h4⟩ := run_bind_ok.mp h1
  rw [onFs_getInode_run] at h3
  cases h3
  -- `itrunc` when asked, then `iunlock`; neither takes nor drops a reference
  have hunlock : ∀ {t3 t4 : FtState} {u : Unit}, AcctAt t3 hf df hi di he .idle → t3.fs.procs = t.fs.procs →
      (Files.onFs (iunlock ip)).run t3 = .ok (u, t4) → Leaves t t4 p hf df hi di he .idle := fun h3 hp3 h5 => by
    obtain ⟨s5, h6, rfl⟩ := onFs_run h5
    have m := iunlock_move h6
    exact ⟨h3.onFs_zero m, Kept.of_procs (m.procs.trans hp3) p, .inl rfl⟩
  dsimp only at h4
  split at h4
  · obtain ⟨_, t3, h5, h6⟩ := run_bind_ok.mp h4
    obtain ⟨s3, h7, rfl⟩ := onFs_run h5
    have m := itrunc_move h7
    exact hunlock (h.onFs_zero m) m.procs h6
  · exact hunlock h rfl h4

/-- `exec` locks the inode it holds and reads the image; `iunlockput` comes next. -/
theorem leaves_execFound {ip : Nat} {c' : Pc} (hp : t.fs.procs[p]? = some (some pr))
    (h : AcctAt t hf df hi di he (.execFound ip))
    (hrun : (resume p (.execFound ip)).run t = .ok (c', t')) : Leaves t t' p hf df hi di he c' := by
  unfold resume at hrun
  obtain ⟨_, t1, h1, h2⟩ := run_bind_ok.mp hrun
  cases h2
  obtain ⟨s1, h3, rfl⟩ := onFs_run h1
  have m := ilock_move h3
  have hp1 : ({ t with fs := s1 } : FtState).fs.procs[p]? = some (some pr) := by
    rw [show ({ t with fs := s1 } : FtState).fs.procs = _ from m.procs]
    exact hp
  refine ⟨?_, Kept.of_procs m.procs p, Pc.ok_of hp1 trivial⟩
  simp only [AcctAt, Pc.files, Pc.stale, Pc.inodes, Pc.staleInodes, Pc.ends, add_zero] at h ⊢
  exact h.onFs_zero m

/-- `sys_chdir` locks the inode it holds, and keeps it when it is a directory. -/
theorem leaves_chdirFound {ip : Nat} {c' : Pc} (hp : t.fs.procs[p]? = some (some pr))
    (h : AcctAt t hf df hi di he (.chdirFound ip))
    (hrun : (resume p (.chdirFound ip)).run t = .ok (c', t')) : Leaves t t' p hf df hi di he c' := by
  unfold resume chdirCheck at hrun
  simp only [AcctAt, Pc.files, Pc.stale, Pc.inodes, Pc.staleInodes, Pc.ends, add_zero] at h
  obtain ⟨_, t1, h1, h2⟩ := run_bind_ok.mp hrun
  obtain ⟨s1, h3, rfl⟩ := onFs_run h1
  have m1 := ilock_move h3
  have hacct1 := h.onFs_zero m1
  have hp1 : ({ t with fs := s1 } : FtState).fs.procs[p]? = some (some pr) := by
    rw [show ({ t with fs := s1 } : FtState).fs.procs = _ from m1.procs]
    exact hp
  obtain ⟨d, t2, h4, h5⟩ := run_bind_ok.mp h2
  rw [onFs_getInode_run] at h4
  cases h4
  split at h5
  · -- not a directory: the inode is left to `iunlockput`
    cases h5
    exact ⟨by simpa [AcctAt, Pc.files, Pc.stale, Pc.inodes, Pc.staleInodes, Pc.ends] using hacct1,
      Kept.of_procs m1.procs p, Pc.ok_of hp1 trivial⟩
  obtain ⟨_, t3, h6, h7⟩ := run_bind_ok.mp h5
  cases h7
  obtain ⟨s3, h8, rfl⟩ := onFs_run h6
  have m3 := iunlock_move h8
  refine ⟨by simpa [AcctAt, Pc.files, Pc.stale, Pc.inodes, Pc.staleInodes, Pc.ends] using hacct1.onFs_zero m3,
    Kept.of_procs (m3.procs.trans m1.procs) p, Pc.ok_of (r := pr) ?_ trivial⟩
  show s3.procs[p]? = some (some pr)
  rw [m3.procs]
  exact hp1

/-- `iput(p->cwd)` in `sys_chdir` or `exit`: the `cwd` has a reference while the running code has
dropped no more of them than the other processes' `cwd`s hold, and drops it, the record keeping
the `cwd` until the next section. -/
theorem Acct.cwd_iput {hi' : Multiset Nat} (h : Acct t hf df hi' di he) (hcwd : di + cwdRefs (some pr) ≤ t.inodeRefs)
    {u : Unit} {s' : FsState} (hrun : (iput pr.cwd).run t.fs = .ok (u, s')) :
    Acct { t with fs := s' } hf df hi' (di + {pr.cwd}) he ∧ s'.procs = t.fs.procs := by
  have hpos := h.ref_pos (i := pr.cwd) (by
    have hle := Multiset.count_le_of_le pr.cwd hcwd
    simp only [cwdRefs, Multiset.count_add, Multiset.count_singleton_self] at hle ⊢
    omega)
  have m := iput_move hpos hrun
  exact ⟨by simpa using h.onFs m, m.procs⟩

/-- `sys_chdir`'s `iput(p->cwd)`: the old `cwd` is put back, the record keeping it until the next
section. -/
theorem leaves_chdirPut {ip : Nat} {c' : Pc} (hp : t.fs.procs[p]? = some (some pr))
    (h : AcctAt t hf df hi di he (.chdirPut ip)) (hcwd : di + cwdRefs (some pr) ≤ t.inodeRefs)
    (hrun : (resume p (.chdirPut ip)).run t = .ok (c', t')) : Leaves t t' p hf df hi di he c' := by
  unfold resume at hrun
  have h2 := myproc_bind_run hp hrun
  obtain ⟨_, t2, h3, h4⟩ := run_bind_ok.mp h2
  cases h4
  obtain ⟨s2, h5, rfl⟩ := onFs_run h3
  simp only [AcctAt, Pc.files, Pc.stale, Pc.inodes, Pc.staleInodes, Pc.ends, add_zero] at h
  obtain ⟨hacct, hprocs⟩ := h.cwd_iput hcwd h5
  refine ⟨by simpa [AcctAt, Pc.files, Pc.stale, Pc.inodes, Pc.staleInodes, Pc.ends] using hacct,
    Kept.of_procs hprocs p, Pc.ok_of (r := pr) ?_ rfl⟩
  show s2.procs[p]? = _
  rw [hprocs]
  exact hp

/-- `p->cwd = ip`: the new directory's reference goes from the call to the record, and the old
one, put back already, from the record. -/
theorem leaves_chdirSet {ip old : Nat} {c' : Pc} (hp : t.fs.procs[p]? = some (some pr)) (hl : pr.cwd = old)
    (h : AcctAt t hf df hi di he (.chdirSet ip old)) (hrun : (resume p (.chdirSet ip old)).run t = .ok (c', t')) :
    Leaves t t' p hf df hi di he c' := by
  unfold resume at hrun
  have h2 := myproc_bind_run hp hrun
  obtain ⟨_, t2, h3, h4⟩ := run_bind_ok.mp h2
  cases h4
  obtain ⟨s2, h5, rfl⟩ := onFs_run h3
  cases h5
  simp only [AcctAt, Pc.files, Pc.stale, Pc.inodes, Pc.staleInodes, Pc.ends, add_zero] at h
  have hacct := h.setProc hp (some { pr with cwd := ip })
  refine ⟨?_, Kept.of_set rfl (.inl rfl), .inl rfl⟩
  simp only [AcctAt, Pc.files, Pc.stale, Pc.inodes, Pc.staleInodes, Pc.ends, add_zero]
  refine hacct.balance ?_ ?_
  · simp only [descRefs]
    abel
  · simp only [cwdRefs, hl]
    abel

/-- `exit`'s loop finds the next open descriptor, whose reference the call holds for `fileclose`
while the descriptor still holds it too, or finds none left. -/
theorem leaves_exitFd {fd : Nat} {c' : Pc} (hp : t.fs.procs[p]? = some (some pr))
    (hl : ∀ x ∈ pr.ofile.take fd, x = none) (h : AcctAt t hf df hi di he (.exitFd fd))
    (hrun : (exitFd p fd).run t = .ok (c', t')) : Leaves t t' p hf df hi di he c' := by
  unfold exitFd at hrun
  have h2 := myproc_bind_run hp hrun
  cases h2
  simp only [AcctAt, Pc.files, Pc.stale, Pc.inodes, Pc.staleInodes, Pc.ends, add_zero] at h
  rcases exitScan_spec pr.ofile _ fd rfl hl with ⟨hs, hall⟩ | ⟨k, f, hs, hk, hbefore⟩
  · rw [hs]
    exact Leaves.same hp hall (by simpa [AcctAt, Pc.files, Pc.stale, Pc.inodes, Pc.staleInodes, Pc.ends] using h)
  · rw [hs]
    refine Leaves.same hp ⟨hk, hbefore⟩ ?_
    simp only [AcctAt, Pc.files, Pc.stale, Pc.inodes, Pc.staleInodes, Pc.ends, add_zero]
    exact h.balance (by abel) (by abel)

/-- `p->ofile[fd] = 0` after `exit`'s `fileclose`: the descriptor whose reference was dropped lets go. -/
theorem leaves_exitClear {fd f : Nat} {c' : Pc} (hp : t.fs.procs[p]? = some (some pr))
    (hl : pr.ofile[fd]? = some (some f) ∧ ∀ x ∈ pr.ofile.take fd, x = none)
    (h : AcctAt t hf df hi di he (.exitClear fd f)) (hrun : (resume p (.exitClear fd f)).run t = .ok (c', t')) :
    Leaves t t' p hf df hi di he c' := by
  unfold resume at hrun
  obtain ⟨_, t1, h1, h2⟩ := run_bind_ok.mp hrun
  cases h2
  simp only [AcctAt, Pc.files, Pc.stale, Pc.inodes, Pc.staleInodes, Pc.ends, add_zero] at h
  obtain ⟨hprocs, hacct⟩ := h.clearFd hp hl.1 h1
  refine ⟨?_, Kept.of_set hprocs (.inl rfl),
    Pc.ok_of (r := { pr with ofile := pr.ofile.set fd none }) ?_ (take_set_none hl.2)⟩
  · simp only [AcctAt, Pc.files, Pc.stale, Pc.inodes, Pc.staleInodes, Pc.ends, add_zero]
    exact hacct.balance (by abel) (by abel)
  · rw [hprocs]
    simp [List.getElem?_set_self', hp]

/-- `exit`'s `iput(p->cwd)`, every descriptor closed. -/
theorem leaves_exitCwd {c' : Pc} (hp : t.fs.procs[p]? = some (some pr)) (hl : ∀ x ∈ pr.ofile, x = none)
    (h : AcctAt t hf df hi di he .exitCwd) (hcwd : di + cwdRefs (some pr) ≤ t.inodeRefs)
    (hrun : (resume p .exitCwd).run t = .ok (c', t')) : Leaves t t' p hf df hi di he c' := by
  unfold resume at hrun
  have h2 := myproc_bind_run hp hrun
  obtain ⟨_, t2, h3, h4⟩ := run_bind_ok.mp h2
  cases h4
  obtain ⟨s2, h5, rfl⟩ := onFs_run h3
  simp only [AcctAt, Pc.files, Pc.stale, Pc.inodes, Pc.staleInodes, Pc.ends, add_zero] at h
  obtain ⟨hacct, hprocs⟩ := h.cwd_iput hcwd h5
  refine ⟨by simpa [AcctAt, Pc.files, Pc.stale, Pc.inodes, Pc.staleInodes, Pc.ends] using hacct,
    Kept.of_procs hprocs p, Pc.ok_of (r := pr) ?_ ⟨hl, rfl⟩⟩
  show s2.procs[p]? = _
  rw [hprocs]
  exact hp

/-- The end of `exit`: the process, with no descriptor open and its `cwd` put back, holds nothing. -/
theorem leaves_exitDone {cwd : Nat} {c' : Pc} (hp : t.fs.procs[p]? = some (some pr))
    (hl : (∀ x ∈ pr.ofile, x = none) ∧ pr.cwd = cwd) (h : AcctAt t hf df hi di he (.exitDone cwd))
    (hrun : (resume p (.exitDone cwd)).run t = .ok (c', t')) : Leaves t t' p hf df hi di he c' := by
  unfold resume at hrun
  obtain ⟨_, t1, h1, h2⟩ := run_bind_ok.mp hrun
  cases h2
  obtain ⟨s1, h3, rfl⟩ := onFs_run h1
  cases h3
  simp only [AcctAt, Pc.files, Pc.stale, Pc.inodes, Pc.staleInodes, Pc.ends, add_zero] at h
  have hacct := h.setProc hp none
  refine ⟨?_, Kept.of_set rfl (.inl rfl), .inl rfl⟩
  simp only [AcctAt, Pc.files, Pc.stale, Pc.inodes, Pc.staleInodes, Pc.ends, add_zero]
  refine hacct.balance ?_ ?_
  · rw [descRefs_of_closed hl.1]
    simp only [descRefs, add_zero]
  · simp only [cwdRefs, hl.2, add_zero]
    abel

/-! ## What each call's first section does -/

/-- A first section that looks an inode up for the call to hold (`openInode` for `sys_open`, `namei`
for `exec` and `sys_chdir`): the call holds what the lookup returned, at the place `k` makes of it. -/
theorem leaves_lookup {m : FsM (Option Nat)} {k : Nat → Pc} {c' : Pc}
    (hm : ∀ {s s' : FsState} {r : Option Nat}, m.run s = .ok (r, s') → RefsMove s s' (held r) 0)
    (hk : ∀ {u : FtState} ip, Acct u hf df (hi + {ip}) di he → AcctAt u hf df hi di he (k ip))
    (hl : ∀ ip, (k ip).Local pr) (hp : t.fs.procs[p]? = some (some pr)) (h : AcctAt t hf df hi di he .idle)
    (hrun : (do
      let some ip ← onFs m | return Pc.idle
      return k ip).run t = .ok (c', t')) :
    Leaves t t' p hf df hi di he c' := by
  obtain ⟨oi, t2, h3, h4⟩ := run_bind_ok.mp hrun
  obtain ⟨s2, h5, rfl⟩ := onFs_run h3
  have mv := hm h5
  have hp2 : s2.procs[p]? = some (some pr) := by rw [mv.procs]; exact hp
  simp only [AcctAt, Pc.files, Pc.stale, Pc.inodes, Pc.staleInodes, Pc.ends, add_zero] at h
  have hacct := h.onFs mv
  cases oi with
  | none =>
    cases h4
    exact ⟨by simpa [AcctAt, Pc.files, Pc.stale, Pc.inodes, Pc.staleInodes, Pc.ends] using hacct,
      Kept.of_procs mv.procs p, .inl rfl⟩
  | some ip =>
    cases h4
    exact ⟨hk ip (by simpa using hacct), Kept.of_procs mv.procs p, Pc.ok_of hp2 (hl ip)⟩

/-- `sys_open` up to `openInode`: the call holds the inode it returns. -/
theorem leaves_sysOpen {path : List UInt8} {omode : Int32} {c' : Pc} (hp : t.fs.procs[p]? = some (some pr))
    (h : AcctAt t hf df hi di he .idle) (hrun : (sysOpen p path omode).run t = .ok (c', t')) :
    Leaves t t' p hf df hi di he c' := by
  unfold sysOpen at hrun
  refine leaves_lookup (k := fun ip => .opened ip omode) openInode_move (fun _ hacct => ?_)
    (fun _ => trivial) hp h (myproc_bind_run hp hrun)
  simpa [AcctAt, Pc.files, Pc.stale, Pc.inodes, Pc.staleInodes, Pc.ends] using hacct

/-- `sys_chdir` up to `namei`: the call holds the inode it found. -/
theorem leaves_sysChdir {path : List UInt8} {c' : Pc} (hp : t.fs.procs[p]? = some (some pr))
    (h : AcctAt t hf df hi di he .idle) (hrun : (sysChdir p path).run t = .ok (c', t')) :
    Leaves t t' p hf df hi di he c' := by
  unfold sysChdir at hrun
  refine leaves_lookup (k := .chdirFound) namei_move (fun _ hacct => ?_) (fun _ => trivial) hp h
    (myproc_bind_run hp hrun)
  simpa [AcctAt, Pc.files, Pc.stale, Pc.inodes, Pc.staleInodes, Pc.ends] using hacct

/-- `exec` up to `namei`: the call holds the program's inode. -/
theorem leaves_exec {path : List UInt8} {c' : Pc} (hp : t.fs.procs[p]? = some (some pr))
    (h : AcctAt t hf df hi di he .idle) (hrun : (exec p path).run t = .ok (c', t')) :
    Leaves t t' p hf df hi di he c' := by
  unfold exec at hrun
  refine leaves_lookup (k := .execFound) namei_move (fun _ hacct => ?_) (fun _ => trivial) hp h
    (myproc_bind_run hp hrun)
  simpa [AcctAt, Pc.files, Pc.stale, Pc.inodes, Pc.staleInodes, Pc.ends] using hacct

/-- `sys_close` up to its `fileclose`: the descriptor lets go of the file, whose reference the call
then holds. -/
theorem leaves_sysClose {fd : Int32} {c' : Pc} (hp : t.fs.procs[p]? = some (some pr))
    (h : AcctAt t hf df hi di he .idle) (hrun : (sysClose p fd).run t = .ok (c', t')) :
    Leaves t t' p hf df hi di he c' := by
  unfold sysClose at hrun
  simp only [AcctAt, Pc.files, Pc.stale, Pc.inodes, Pc.staleInodes, Pc.ends, add_zero] at h
  obtain ⟨o, t1, h1, h2⟩ := run_bind_ok.mp hrun
  obtain ⟨rfl, hfd⟩ := argfd_run h1
  cases o with
  | none =>
    cases h2
    exact ⟨by simpa [AcctAt, Pc.files, Pc.stale, Pc.inodes, Pc.staleInodes, Pc.ends] using h,
      Kept.of_procs rfl p, .inl rfl⟩
  | some f =>
  obtain ⟨pr', hp', hfd⟩ := hfd f rfl
  rw [hp, Option.some.injEq, Option.some.injEq] at hp'
  subst hp'
  obtain ⟨_, t2, h3, h4⟩ := run_bind_ok.mp h2
  cases h4
  obtain ⟨hprocs, hacct⟩ := h.clearFd hp hfd h3
  refine ⟨by simpa [AcctAt, Pc.files, Pc.stale, Pc.inodes, Pc.staleInodes, Pc.ends] using hacct,
    Kept.of_set hprocs (.inl rfl), Pc.ok_of (r := { pr with ofile := pr.ofile.set fd.toInt.toNat none }) ?_ trivial⟩
  rw [hprocs]
  simp [List.getElem?_set_self', hp]

/-- `sys_pipe`, whole: it does not sleep. Each way out hands the files it made to the
`fileclose`s that follow, clearing first the descriptors it gave them. -/
theorem leaves_sysPipe {page : Option Nat} {copyOk : Bool} {c' : Pc} (hp : t.fs.procs[p]? = some (some pr))
    (hpg : ∀ pg, page = some pg → t.pipes pg = none) (h : AcctAt t hf df hi di he .idle)
    (hrun : (sysPipe p page copyOk).run t = .ok (c', t')) : Leaves t t' p hf df hi di he c' := by
  unfold sysPipe at hrun
  simp only [AcctAt, Pc.files, Pc.stale, Pc.inodes, Pc.staleInodes, Pc.ends, add_zero] at h
  obtain ⟨r, t1, h1, h2⟩ := run_bind_ok.mp hrun
  obtain ⟨hprocs1, hbad⟩ := h.pipealloc hpg h1
  have hp1 : t1.fs.procs[p]? = some (some pr) := by rw [hprocs1]; exact hp
  have hk1 : Kept t t1 p := Kept.of_procs hprocs1 p
  rcases hbad with ⟨rfl, hacct1⟩ | ⟨f0, rfl, hacct1⟩ | ⟨f0, f1, rfl, hacct1⟩ |
    ⟨rf, wf, rfl, hne, hacct1⟩
  · cases h2
    refine ⟨?_, hk1, .inl rfl⟩
    simpa [AcctAt, Pc.files, Pc.stale, Pc.inodes, Pc.staleInodes, Pc.ends] using hacct1
  · cases h2
    refine ⟨?_, hk1, Pc.ok_of hp1 trivial⟩
    simpa [AcctAt, Pc.files, Pc.stale, Pc.inodes, Pc.staleInodes, Pc.ends] using hacct1
  · cases h2
    refine ⟨?_, hk1, Pc.ok_of hp1 trivial⟩
    simp only [AcctAt, Pc.files, Pc.stale, Pc.inodes, Pc.staleInodes, Pc.ends, add_zero]
    exact hacct1.balance (by abel) (by abel)
  dsimp only at h2
  obtain ⟨o0, t2, h3, h4⟩ := run_bind_ok.mp h2
  rcases hacct1.fdalloc h3 with ⟨rfl, rfl⟩ | ⟨fd0, pr0, rfl, hp0, hfree0, e2, hacct2⟩
  · -- no descriptor for the read end
    cases h4
    refine ⟨?_, hk1, Pc.ok_of hp1 trivial⟩
    simp only [AcctAt, Pc.files, Pc.stale, Pc.inodes, Pc.staleInodes, Pc.ends, add_zero]
    exact hacct1.balance (by abel) (by abel)
  rw [hp1, Option.some.injEq, Option.some.injEq] at hp0
  subst hp0
  dsimp only at h4
  -- descriptor `fd0` holds the read end
  have hk2 : Kept t t2 p := hk1.trans (Kept.of_set (c := p) (by rw [e2]) (.inl rfl))
  have hp2 : t2.fs.procs[p]? = some (some { pr with ofile := pr.ofile.set fd0 (some rf) }) := by
    rw [e2]
    simp [List.getElem?_set_self', hp1]
  have hfd2 : (pr.ofile.set fd0 (some rf))[fd0]? = some (some rf) := by
    simp [List.getElem?_set_self', hfree0]
  obtain ⟨o1, t3, h5, h6⟩ := run_bind_ok.mp h4
  rcases hacct2.fdalloc h5 with ⟨rfl, rfl⟩ | ⟨fd1, pr1, rfl, hp1', hfree1, e3, hacct3⟩
  · -- no descriptor for the write end: `fd0` is cleared
    obtain ⟨_, t4, h7, h8⟩ := run_bind_ok.mp h6
    cases h8
    obtain ⟨hprocs4, hacct4⟩ := hacct2.clearFd hp2 hfd2 h7
    refine ⟨?_, hk2.trans (Kept.of_set hprocs4 (.inl rfl)), Pc.ok_of (r := { pr with
      ofile := (pr.ofile.set fd0 (some rf)).set fd0 none }) ?_ trivial⟩
    · simp only [AcctAt, Pc.files, Pc.stale, Pc.inodes, Pc.staleInodes, Pc.ends, add_zero]
      exact hacct4.balance (by abel) (by abel)
    · rw [hprocs4]
      simp [List.getElem?_set_self', hp2]
  rw [hp2, Option.some.injEq, Option.some.injEq] at hp1'
  subst hp1'
  dsimp only at h6
  have hk3 : Kept t t3 p := hk2.trans (Kept.of_set (c := p) (by rw [e3]) (.inl rfl))
  have hp3 : t3.fs.procs[p]? = some (some { pr with
      ofile := (pr.ofile.set fd0 (some rf)).set fd1 (some wf) }) := by
    rw [e3]
    simp [List.getElem?_set_self', hp2]
  split at h6
  · -- a `copyout` failed: both descriptors are cleared
    have hne' : fd1 ≠ fd0 := by
      rintro rfl
      rw [hfd2] at hfree1
      cases hfree1
    have hfd3 : ((pr.ofile.set fd0 (some rf)).set fd1 (some wf))[fd0]? = some (some rf) := by
      rw [List.getElem?_set_ne hne', hfd2]
    obtain ⟨_, t4, h7, h8⟩ := run_bind_ok.mp h6
    obtain ⟨_, t5, h9, h10⟩ := run_bind_ok.mp h8
    cases h10
    obtain ⟨hprocs4, hacct4⟩ := hacct3.clearFd hp3 hfd3 h7
    have hp4 : t4.fs.procs[p]? = some (some { pr with
        ofile := ((pr.ofile.set fd0 (some rf)).set fd1 (some wf)).set fd0 none }) := by
      rw [hprocs4]
      simp [List.getElem?_set_self', hp3]
    have hfd4 : (((pr.ofile.set fd0 (some rf)).set fd1 (some wf)).set fd0 none)[fd1]? = some (some wf) := by
      rw [List.getElem?_set_ne hne'.symm]
      simp [List.getElem?_set_self', hfree1]
    obtain ⟨hprocs5, hacct5⟩ := hacct4.clearFd hp4 hfd4 h9
    have hp5 : t'.fs.procs[p]? = some (some { pr with
        ofile := (((pr.ofile.set fd0 (some rf)).set fd1 (some wf)).set fd0 none).set fd1 none }) := by
      rw [hprocs5]
      simp [List.getElem?_set_self', hp4]
    refine ⟨?_, (hk3.trans (Kept.of_set hprocs4 (.inl rfl))).trans (Kept.of_set hprocs5 (.inl rfl)),
      Pc.ok_of hp5 trivial⟩
    simp only [AcctAt, Pc.files, Pc.stale, Pc.inodes, Pc.staleInodes, Pc.ends, add_zero]
    exact hacct5.balance (by abel) (by abel)
  · cases h6
    refine ⟨?_, hk3, Pc.ok_of hp3 trivial⟩
    simp only [AcctAt, Pc.files, Pc.stale, Pc.inodes, Pc.staleInodes, Pc.ends, add_zero]
    exact hacct3.balance (by abel) (by abel)

/-- `exit` up to its first `fileclose`: init may not exit; the loop over the descriptors begins. -/
theorem leaves_exit {c' : Pc} (hp : t.fs.procs[p]? = some (some pr)) (h : AcctAt t hf df hi di he .idle)
    (hrun : (exit p).run t = .ok (c', t')) : Leaves t t' p hf df hi di he c' := by
  unfold exit at hrun
  split at hrun
  · cases hrun
  · refine leaves_exitFd hp (by simp) ?_ hrun
    simpa [AcctAt, Pc.files, Pc.stale, Pc.inodes, Pc.staleInodes, Pc.ends] using h

/-- A call that runs whole, keeping the other processes' records: it leaves its process in no call. -/
theorem leaves_whole {m : FtM Unit} {c' : Pc}
    (hm : ∀ {t1 : FtState} {u : Unit}, m.run t = .ok (u, t1) → Kept t t1 p ∧ AcctAt t1 hf df hi di he .idle)
    (hrun : (do m; return Pc.idle).run t = .ok (c', t')) : Leaves t t' p hf df hi di he c' := by
  obtain ⟨_, t1, h1, h2⟩ := run_bind_ok.mp hrun
  cases h2
  obtain ⟨hk, hacct⟩ := hm h1
  exact ⟨hacct, hk, .inl rfl⟩

/-- A namespace call: run whole, it moves no reference the file table counts. -/
theorem leaves_nsCall {m : Proc → FsM Int}
    (hm : ∀ {pr : Proc} {s s' : FsState} {r : Int}, (m pr).run s = .ok (r, s') → RefsMove s s' 0 0) {c' : Pc}
    (h : AcctAt t hf df hi di he .idle)
    (hrun : (do discard <| Files.onFs (m (← myproc p)); return Pc.idle).run t = .ok (c', t')) :
    Leaves t t' p hf df hi di he c' := by
  obtain ⟨rfl, hprocs, hacct⟩ := Acct.nsCall h hm hrun
  exact ⟨hacct, Kept.of_procs hprocs p, .inl rfl⟩

theorem AcctAt.idle {c : Pc} (hc : (c == .idle) = true) (h : AcctAt t hf df hi di he c) :
    AcctAt t hf df hi di he .idle := by
  rw [beq_iff_eq] at hc
  rwa [hc] at h

/-- The next section of the call process `p` is in. The `cwd` bound lets the `iput`s of the
sections go through: the `cwd`s calls have put back are still their processes'. -/
theorem leaves_resume {c c' : Pc} (hp : t.fs.procs[p]? = some (some pr)) (hl : c.Local pr)
    (h : AcctAt t hf df hi di he c) (hcwd : di + cwdRefs (some pr) ≤ t.inodeRefs)
    (hrun : (resume p c).run t = .ok (c', t')) : Leaves t t' p hf df hi di he c' := by
  have hdi : di + c.staleInodes ≤ t.inodeRefs := le_trans (add_le_add le_rfl (Pc.staleInodes_le hl)) hcwd
  cases c with
  | idle =>
    cases hrun
    exact Leaves.same hp trivial h
  | close f after => exact leaves_close hp (show after.Local pr from hl) h hrun
  | closing ff after => exact leaves_closing hp (show after.Local pr from hl) h hdi hrun
  | iunlockput ip after => exact leaves_iunlockput hp (show after.Local pr from hl) h hdi hrun
  | opened ip omode => exact leaves_opened hp h hrun
  | openEnd ip omode => exact leaves_openEnd h hrun
  | execFound ip => exact leaves_execFound hp h hrun
  | chdirFound ip => exact leaves_chdirFound hp h hrun
  | chdirPut ip => exact leaves_chdirPut hp h hcwd hrun
  | chdirSet ip old => exact leaves_chdirSet hp hl h hrun
  | exitFd fd => exact leaves_exitFd hp hl h hrun
  | exitClear fd f => exact leaves_exitClear hp hl h hrun
  | exitCwd => exact leaves_exitCwd hp hl h hcwd hrun
  | exitDone cwd => exact leaves_exitDone hp hl h hrun

end Sections

/-- The section event `e` runs: a call begun by a process in no call, or the next section of the one
it is in. The page `kalloc` gives holds no pipe and the slot `allocproc` gives no process. -/
theorem leaves_ftCall {t t' : FtState} {pr : Proc} {hf df hi di : Multiset Nat} {he : Multiset (Nat × Bool)}
    {e : FtEv} {c' : Pc} (hcan : e.canRun t = true) (hp : t.fs.procs[e.proc]? = some (some pr))
    (hl : (t.calls e.proc).Local pr) (h : AcctAt t hf df hi di he (t.calls e.proc))
    (hcwd : di + cwdRefs (some pr) ≤ t.inodeRefs) (hrun : (ftCall e).run t = .ok (c', t')) :
    Leaves t t' e.proc hf df hi di he c' := by
  cases e with
  | resume p =>
    obtain ⟨t0, t1, h1, h2⟩ := run_bind_ok.mp hrun
    cases h1
    exact leaves_resume hp hl h hcwd h2
  | sysOpen p path omode => exact leaves_sysOpen hp (AcctAt.idle hcan h) hrun
  | sysMkdir p path =>
    exact leaves_nsCall (m := fun pr => sysMkdir pr path) sysMkdir_move (AcctAt.idle hcan h) hrun
  | sysMknod p path major =>
    exact leaves_nsCall (m := fun pr => sysMknod pr path major) sysMknod_move (AcctAt.idle hcan h) hrun
  | sysLink p old new =>
    exact leaves_nsCall (m := fun pr => sysLink pr old new) sysLink_move (AcctAt.idle hcan h) hrun
  | sysUnlink p path =>
    exact leaves_nsCall (m := fun pr => sysUnlink pr path) sysUnlink_move (AcctAt.idle hcan h) hrun
  | sysChdir p path => exact leaves_sysChdir hp (AcctAt.idle hcan h) hrun
  | sysDup p fd =>
    refine leaves_whole (fun h1 => ?_) hrun
    obtain ⟨r, h2⟩ := run_discard_ok.mp h1
    exact Acct.sysDup (AcctAt.idle hcan h) h2
  | sysClose p fd => exact leaves_sysClose hp (AcctAt.idle hcan h) hrun
  | sysPipe p page copyOk =>
    cases page with
    | none => exact leaves_sysPipe hp (fun _ hpg => by cases hpg) (AcctAt.idle hcan h) hrun
    | some pg =>
      simp only [FtEv.canRun, Bool.and_eq_true] at hcan
      refine leaves_sysPipe hp (fun _ hpg => ?_) (AcctAt.idle hcan.1 h) hrun
      cases hpg
      exact Option.isNone_iff_eq_none.mp hcan.2
  | sysRead p fd dst addr n killed =>
    refine leaves_whole (fun h1 => ?_) hrun
    obtain ⟨hprocs, hacct⟩ := Acct.sysRead (AcctAt.idle hcan h) h1
    exact ⟨Kept.of_procs hprocs p, hacct⟩
  | sysWrite p fd src addr n killed i =>
    refine leaves_whole (fun h1 => ?_) hrun
    obtain ⟨hprocs, hacct⟩ := Acct.sysWrite (AcctAt.idle hcan h) h1
    exact ⟨Kept.of_procs hprocs p, hacct⟩
  | fork p child =>
    cases child with
    | none => exact leaves_whole (fun h1 => Acct.fork (AcctAt.idle hcan h) (fun _ hc => by cases hc) h1) hrun
    | some c =>
      simp only [FtEv.canRun, Bool.and_eq_true, beq_iff_eq] at hcan
      refine leaves_whole (fun h1 => Acct.fork (AcctAt.idle (beq_iff_eq.mpr hcan.1) h) (fun _ hc => ?_) h1) hrun
      cases hc
      exact hcan.2
  | exit p => exact leaves_exit hp (AcctAt.idle hcan h) hrun
  | exec p path => exact leaves_exec hp (AcctAt.idle hcan h) hrun

/-! ## Every reachable state -/

/-- The accounting of a state with what the calls in progress hold, and every process in a call live
with a record its call relies on. -/
structure FtInv (t : FtState) : Prop where
  acct : Acct t (t.held Pc.files) (t.held Pc.stale) (t.held Pc.inodes) (t.held Pc.staleInodes) (t.held Pc.ends)
  calls_ok : ∀ p, (t.calls p).Ok t p

section Reach

variable {t t' : FtState}

/-- The accounting reads the tables, not where the calls are. -/
theorem Acct.with_calls {hf df hi di : Multiset Nat} {he : Multiset (Nat × Bool)} (h : Acct t hf df hi di he)
    (c : Nat → Pc) : Acct { t with calls := c } hf df hi di he :=
  ⟨h.file_ref, h.inode_ref, h.live_lt, h.none_of_zero, h.pipe_some, h.open_iff, h.end_unique, h.end_held,
    h.held_nodup, h.held_pipe, h.pipe_open, h.no_freed⟩

/-- What the calls hold, with process `p`'s call at `c`: what the others hold, and what `c` holds. -/
theorem FtState.held_update {α : Type} (t : FtState) {g : Pc → Multiset α} (hg : g .idle = 0) {p : Nat}
    (hp : p < t.fs.procs.length) (c : Pc) :
    ({ t with calls := Function.update t.calls p c } : FtState).held g =
      ({ t with calls := Function.update t.calls p .idle } : FtState).held g + g c := by
  have e := sum_range_update g (Function.update t.calls p .idle) c hp
  rw [Function.update_idem, Function.update_self, hg, add_zero] at e
  exact e

theorem FtState.held_self {α : Type} (t : FtState) {g : Pc → Multiset α} (hg : g .idle = 0) {p : Nat}
    (hp : p < t.fs.procs.length) :
    t.held g = ({ t with calls := Function.update t.calls p .idle } : FtState).held g + g (t.calls p) := by
  have e := t.held_update hg hp (t.calls p)
  rwa [Function.update_eq_self] at e

/-- The `cwd`s the other calls have put back, with the `cwd` of `p`'s record, are references of the
table: each of them is still its process's `cwd`. -/
theorem FtInv.cwd_le (h : FtInv t) {p : Nat} {pr : Proc} (hp : t.fs.procs[p]? = some (some pr)) :
    ({ t with calls := Function.update t.calls p .idle } : FtState).held Pc.staleInodes + cwdRefs (some pr) ≤
      t.inodeRefs := by
  have hd : ∀ q x, t.fs.procs[q]? = some x → (Function.update t.calls p .idle q).staleInodes ≤ cwdRefs x := by
    intro q x hq
    rcases eq_or_ne q p with rfl | hqp
    · simp [Pc.staleInodes]
    rw [Function.update_of_ne hqp]
    rcases h.calls_ok q with h0 | ⟨pr', hq', hl⟩
    · simp [h0, Pc.staleInodes]
    · rw [hq, Option.some.injEq] at hq'
      rw [hq']
      exact Pc.staleInodes_le hl
  have e := sum_range_add_le_sum cwdRefs t.fs.procs _ hd p (some pr) hp
  rw [Function.update_self] at e
  simp only [Pc.staleInodes, add_zero] at e
  exact le_trans e (Multiset.le_add_right _ _)

/-- One section keeps the invariant: the accounting of the others' calls is carried by the section's
`Leaves`, their records by `Kept`. -/
theorem FtInv.step (h : FtInv t) {e : FtEv} {pr : Proc} {c' : Pc} {t1 : FtState}
    (hp : t.fs.procs[e.proc]? = some (some pr)) (hcan : e.canRun t = true)
    (hrun : (ftCall e).run t = .ok (c', t1)) : FtInv { t1 with calls := Function.update t.calls e.proc c' } := by
  have hlt : e.proc < t.fs.procs.length := (List.getElem?_eq_some_iff.mp hp).1
  -- the call of `e.proc` relies on the record it finds
  have hl : (t.calls e.proc).Local pr := by
    rcases h.calls_ok e.proc with h0 | ⟨pr', hp', hl⟩
    · rw [h0]
      trivial
    · rw [hp, Option.some.injEq, Option.some.injEq] at hp'
      rwa [hp']
  -- `u`: the state with `e.proc` in no call, whose holdings are the other calls'
  set u : FtState := { t with calls := Function.update t.calls e.proc .idle } with hu
  have hacct : AcctAt t (u.held Pc.files) (u.held Pc.stale) (u.held Pc.inodes) (u.held Pc.staleInodes)
      (u.held Pc.ends) (t.calls e.proc) := by
    have a := h.acct
    rw [t.held_self (g := Pc.files) rfl hlt, t.held_self (g := Pc.stale) rfl hlt,
      t.held_self (g := Pc.inodes) rfl hlt, t.held_self (g := Pc.staleInodes) rfl hlt,
      t.held_self (g := Pc.ends) rfl hlt] at a
    exact a
  have hv := leaves_ftCall hcan hp hl hacct (h.cwd_le hp) hrun
  have hlen : t1.fs.procs.length = t.fs.procs.length := hv.kept.1
  -- what the calls hold after the section: the others' as before, and `e.proc`'s at `c'`
  have hheld : ∀ {α : Type} {g : Pc → Multiset α}, g .idle = 0 →
      ({ t1 with calls := Function.update t.calls e.proc c' } : FtState).held g =
        u.held g + g c' := by
    intro α g hg
    rw [← t.held_update hg hlt c']
    simp only [FtState.held, hlen]
  refine ⟨?_, fun q => ?_⟩
  · rw [hheld (g := Pc.files) rfl, hheld (g := Pc.stale) rfl, hheld (g := Pc.inodes) rfl,
      hheld (g := Pc.staleInodes) rfl, hheld (g := Pc.ends) rfl]
    exact hv.acct.with_calls _
  dsimp only
  rcases eq_or_ne q e.proc with rfl | hq
  · rw [Function.update_self]
    exact hv.ok
  rw [Function.update_of_ne hq]
  rcases h.calls_ok q with h0 | ⟨pr', hq', hl'⟩
  · exact .inl h0
  · exact .inr ⟨pr', hv.kept.2 q pr' hq hq', hl'⟩

theorem FtInv.next (h : FtInv t) {e : FtEv} (hn : ftNext t e = .ok t') : FtInv t' := by
  unfold ftNext at hn
  split at hn
  · rename_i pr hp
    split at hn
    · rename_i hcan
      split at hn
      · rename_i c' t1 hrun
        cases hn
        exact h.step hp hcan hrun
      · cases hn
    · cases hn
  · cases hn

theorem ftInv_init (nproc : Nat) : FtInv (ftSys nproc).init := by
  -- no call is begun: the calls hold nothing
  have hz : ∀ {α : Type} {g : Pc → Multiset α}, g .idle = 0 → (ftSys nproc).init.held g = 0 := by
    intro α g hg
    simp [FtState.held, ftSys, hg]
  refine ⟨?_, fun p => .inl rfl⟩
  rw [hz rfl, hz rfl, hz rfl, hz rfl, hz rfl]
  exact {
    file_ref := fun f => by simp [FtState.fileRefs, ftSys, fsSys, descRefs, File.empty]
    inode_ref := fun i => by
      simp only [FtState.inodeRefs, ftSys, fsSys, openRef, File.empty]
      rcases eq_or_ne i rootIno with rfl | hi <;> simp [cwdRefs, *]
    live_lt := fun f hf => by simp [ftSys, File.empty] at hf
    none_of_zero := fun f _ => rfl
    pipe_some := fun f hf => by simp [ftSys, File.empty] at hf
    open_iff := fun pg pi w hp => by simp [ftSys] at hp
    end_unique := fun f g pg w hf => by simp [PipeEnd, File.IsEnd, ftSys, File.empty] at hf
    end_held := fun f pg w _ => by simp
    held_nodup := Multiset.nodup_zero
    held_pipe := fun e he => by simp at he
    pipe_open := fun pg pi hp => by simp [ftSys] at hp
    no_freed := rfl }

theorem ftInv_reachable {nproc : Nat} (ht : Reachable (ftSys nproc) t) : FtInv t :=
  Reachable.induct (ftSys nproc) (ftInv_init nproc) (fun _ _ _ hi hn => hi.next hn) ht

/-- The open-file and pipe accounting of every reachable state, calls in progress included: each
file's `ref`, with the descriptors `exit` has closed but not yet cleared, is the number of
descriptors of live processes open on it and of the references calls hold to it; a file with none is
`FD_NONE`; an end of a pipe is open exactly while a file is that end or a call holds it in the copy
`fileclose` made, and it has one holder at most; a page holds a pipe exactly while it has such an
end; and no pipe page has been used after `kfree`. -/
theorem file_pipe_refs {nproc : Nat} (ht : Reachable (ftSys nproc) t) :
    (∀ f, (t.file f).ref + (t.held Pc.stale).count f = t.descCount f + (t.held Pc.files).count f) ∧
    (∀ f, (t.file f).ref = 0 → (t.file f).type = .none) ∧
    (∀ pg pi, t.pipes pg = some pi →
      (pi.readopen = true ↔ (∃ f, PipeEnd t f pg false) ∨ (pg, false) ∈ t.held Pc.ends) ∧
        (pi.writeopen = true ↔ (∃ f, PipeEnd t f pg true) ∨ (pg, true) ∈ t.held Pc.ends)) ∧
    (∀ f g pg w, PipeEnd t f pg w → PipeEnd t g pg w → f = g) ∧
    (∀ f pg w, PipeEnd t f pg w → (pg, w) ∉ t.held Pc.ends) ∧
    (t.held Pc.ends).Nodup ∧
    (∀ pg, t.pipes pg ≠ none ↔ ∃ w, (∃ f, PipeEnd t f pg w) ∨ (pg, w) ∈ t.held Pc.ends) ∧
    t.freedUse = false := by
  have h := (ftInv_reachable ht).acct
  refine ⟨fun f => ?_, h.none_of_zero, fun pg pi hp => ⟨h.open_iff pg pi false hp, h.open_iff pg pi true hp⟩,
    h.end_unique, h.end_held, h.held_nodup, fun pg => ⟨fun hp => ?_, ?_⟩, h.no_freed⟩
  · have e := h.file_ref f
    dsimp only at e
    rw [e, count_fileRefs]
  · -- a page that holds a pipe has an end open, and an open end has a holder
    obtain ⟨pi, hpi⟩ := Option.ne_none_iff_exists'.mp hp
    rcases h.pipe_open pg pi hpi with hr | hw
    · exact ⟨false, (h.open_iff pg pi false hpi).mp hr⟩
    · exact ⟨true, (h.open_iff pg pi true hpi).mp hw⟩
  · rintro ⟨w, ⟨f, hf⟩ | hw⟩
    · rw [← hf.2.2.1]
      exact h.pipe_some f hf.1 hf.2.1
    · exact h.held_pipe _ hw

/-- Process 0 makes a pipe in page 5 and closes its read end; its `fileclose` has emptied file 0 and
released `ftable.lock`, and holds the read end for `pipeclose`. -/
theorem file_pipe_refs_window :
    ∃ t, Reachable (ftSys 1) t ∧ (t.file 0).ref = 0 ∧ (5, false) ∈ t.held Pc.ends ∧
    (∀ f, (t.file f).ref + (t.held Pc.stale).count f = t.descCount f + (t.held Pc.files).count f) ∧
    (∀ f, (t.file f).ref = 0 → (t.file f).type = .none) ∧
    (∀ pg pi, t.pipes pg = some pi →
      (pi.readopen = true ↔ (∃ f, PipeEnd t f pg false) ∨ (pg, false) ∈ t.held Pc.ends) ∧
        (pi.writeopen = true ↔ (∃ f, PipeEnd t f pg true) ∨ (pg, true) ∈ t.held Pc.ends)) ∧
    (∀ f g pg w, PipeEnd t f pg w → PipeEnd t g pg w → f = g) ∧
    (∀ f pg w, PipeEnd t f pg w → (pg, w) ∉ t.held Pc.ends) ∧
    (t.held Pc.ends).Nodup ∧
    (∀ pg, t.pipes pg ≠ none ↔ ∃ w, (∃ f, PipeEnd t f pg w) ∨ (pg, w) ∈ t.held Pc.ends) ∧
    t.freedUse = false := by
  have hrun : (run (ftSys 1) (ftSys 1).init [.sysPipe 0 (some 5) true, .sysClose 0 0, .resume 0]).holds
      (fun s => (s.file 0).ref == 0 && (s.held Pc.ends).count (5, false) == 1) = true := by
    decide +kernel
  obtain ⟨s, hs, hp⟩ := Reachable.run_holds _ .init hrun
  simp only [Bool.and_eq_true, beq_iff_eq] at hp
  exact ⟨s, hs, hp.1, Multiset.count_pos.mp (by omega), file_pipe_refs hs⟩

/-- `exit` closes a descriptor before it clears it (`fileclose(f); p->ofile[fd] = 0;`), and
`fileclose` may sleep in between: a file's `ref` then counts fewer references than there are
descriptors open on it. Process 1 makes a pipe, `dup`s its read end and exits; after the first
`fileclose` of the read end, file 0 has `ref` 1 and two descriptors. -/
theorem exit_window_refs :
    ∃ t, Reachable (ftSys 2) t ∧ 0 < (t.file 0).ref ∧ (t.file 0).ref < t.descCount 0 := by
  have hrun : (run (ftSys 2) (ftSys 2).init [.sysPipe 1 (some 5) true, .sysDup 1 0, .exit 1, .resume 1]).holds
      (fun s => (s.file 0).ref == 1 && s.descCount 0 == 2) = true := by
    decide +kernel
  obtain ⟨s, hs, hp⟩ := Reachable.run_holds _ .init hrun
  simp only [Bool.and_eq_true, beq_iff_eq] at hp
  exact ⟨s, hs, by omega, by omega⟩

/-- The inode accounting of every reachable state, calls in progress included: each inode's count
in the table, with the `cwd`s calls have put back but not yet let go, is the number of live
processes whose `cwd` it is, of the open inode and device files on it, and of the references calls
hold to it. -/
theorem inode_refs_reachable {nproc : Nat} (ht : Reachable (ftSys nproc) t) (i : Nat) :
    t.fs.ref i + (t.held Pc.staleInodes).count i =
      t.cwdCount i + t.openCount i + (t.held Pc.inodes).count i := by
  have e := (ftInv_reachable ht).acct.inode_ref i
  dsimp only at e
  rw [e, count_inodeRefs]

/-- Process 1's `chdir("/")` between its `iput(p->cwd)` and `p->cwd = ip`: it holds the root it
looked up, and has put back the root that is still its `cwd`. -/
theorem inode_refs_chdir :
    ∃ t, Reachable (ftSys 2) t ∧ (t.held Pc.inodes).count rootIno = 1 ∧
      (t.held Pc.staleInodes).count rootIno = 1 ∧
      t.fs.ref rootIno + (t.held Pc.staleInodes).count rootIno =
        t.cwdCount rootIno + t.openCount rootIno + (t.held Pc.inodes).count rootIno := by
  have hrun : (run (ftSys 2) (ftSys 2).init [.sysChdir 1 [47], .resume 1, .resume 1]).holds
      (fun s => (s.held Pc.inodes).count rootIno == 1 && (s.held Pc.staleInodes).count rootIno == 1) = true := by
    decide +kernel
  obtain ⟨s, hs, hp⟩ := Reachable.run_holds _ .init hrun
  simp only [Bool.and_eq_true, beq_iff_eq] at hp
  exact ⟨s, hs, hp.1, hp.2, inode_refs_reachable hs rootIno⟩

end Reach

end Xv6.Files
