import Mathlib
import Xv6.Fs.Names
import Xv6.Lib.Refcount

/-!
# The references each namespace function takes and drops

`iget` and `idup` take a reference to an inode and `iput` drops one; nothing else changes `ref`.
A namespace function that returns an inode returns it with one reference, which its caller then
holds. `RefsMove s s' taken dropped` says what a function did: it took the references of `taken`,
dropped those of `dropped`, and changed no process. `Held s H` says the references of `H` are among
those counted, so code holding them may drop them: `iput` needs one to drop.

* `RefsMove.trans`, `RefsMove.balance` : moves compose, and their multisets may be rearranged;
  `Held.take`, `Held.drop`, `Held.pos` follow the references a function holds;
* `ilock_move`, `iunlock_move`, `itrunc_move`, `balloc_move`, `bmapAppend_move`,
  `writeDirent_move` : no reference;
* `iget_move`, `idup_move`, `iput_move`, `iunlockput_move` : one reference, taken or dropped;
* `dirlookup_move`, `ialloc_move`, `namexLoop_move`, `namex_move`, `create_move`,
  `openInode_move` : the reference to the inode returned, and no other, on every path;
* `dirlink_move`, `sysLink_move`, `sysUnlink_move`, `sysMkdir_move`, `sysMknod_move` : no
  reference at all, on every path;
* `sysChdir_move` : the reference to the new `cwd` is taken and the old one's dropped, or nothing.
-/

namespace Xv6

open Refcount

/-- The reference held on an inode that a function may return. -/
def held : Option Nat → Multiset Nat
  | none => 0
  | some i => {i}

@[simp] theorem held_none : held none = 0 := rfl

@[simp] theorem held_some (i : Nat) : held (some i) = {i} := rfl

/-- `s'` is `s` with the references of `taken` taken and those of `dropped` dropped, and every
process as it was. -/
structure RefsMove (s s' : FsState) (taken dropped : Multiset Nat) : Prop where
  ref : Moved s.ref s'.ref taken dropped
  procs : s'.procs = s.procs

variable {s s' s'' : FsState} {a a' d d' : Multiset Nat}

theorem RefsMove.refl (s : FsState) : RefsMove s s 0 0 := ⟨Moved.refl _, rfl⟩

theorem RefsMove.trans (h1 : RefsMove s s' a d) (h2 : RefsMove s' s'' a' d') :
    RefsMove s s'' (a + a') (d + d') :=
  ⟨h1.ref.trans h2.ref, h2.procs.trans h1.procs⟩

/-- A change that leaves the references and the processes alone. -/
theorem RefsMove.of_eq (href : s'.ref = s.ref) (hprocs : s'.procs = s.procs) : RefsMove s s' 0 0 :=
  ⟨by rw [href]; exact Moved.refl _, hprocs⟩

/-- The same move, its multisets rearranged. -/
theorem RefsMove.balance (h : RefsMove s s' a d) (hm : a + d' = a' + d) : RefsMove s s' a' d' := by
  refine ⟨fun k => ?_, h.procs⟩
  have e := h.ref k
  have c := congrArg (Multiset.count k) hm
  simp only [Multiset.count_add] at c
  omega

/-- The reference to `i` is still there after a function that dropped nothing. -/
theorem RefsMove.pos (h : RefsMove s s' a 0) {i : Nat} (hi : 0 < s.ref i) : 0 < s'.ref i :=
  Nat.lt_of_lt_of_le hi (h.ref.le i)

/-! ## Functions that touch no reference -/

theorem getInode_run (i : Nat) : (getInode i).run s = .ok (s.inode i, s) := rfl

theorem setInode_move {i : Nat} {f : DInode → DInode} {u : Unit} (h : (setInode i f).run s = .ok (u, s')) :
    RefsMove s s' 0 0 := by
  cases h
  exact RefsMove.of_eq rfl rfl

theorem itrunc_move {i : Nat} {u : Unit} (h : (itrunc i).run s = .ok (u, s')) : RefsMove s s' 0 0 := by
  cases h
  exact RefsMove.of_eq rfl rfl

theorem ilock_move {i : Nat} {u : Unit} (h : (ilock i).run s = .ok (u, s')) : RefsMove s s' 0 0 := by
  rw [ilock] at h
  obtain ⟨s0, s1, h1, h⟩ := run_bind_ok.mp h
  cases h1
  dsimp only at h
  split at h
  · cases h
  · split at h
    · obtain ⟨_, s2, h2, h⟩ := run_bind_ok.mp h
      cases h2
      split at h
      · cases h
      · cases h
        exact RefsMove.of_eq rfl rfl
    · cases h
      exact RefsMove.refl _

theorem iunlock_move {i : Nat} {u : Unit} (h : (iunlock i).run s = .ok (u, s')) : RefsMove s s' 0 0 := by
  rw [iunlock] at h
  obtain ⟨s0, s1, h1, h⟩ := run_bind_ok.mp h
  cases h1
  split at h
  · cases h
  · cases h
    exact RefsMove.refl _

theorem balloc_move {i : Nat} {b : Bool} (h : (balloc i).run s = .ok (b, s')) : RefsMove s s' 0 0 := by
  rw [balloc] at h
  obtain ⟨s0, s1, h1, h⟩ := run_bind_ok.mp h
  cases h1
  split at h
  · cases h
    exact RefsMove.refl _
  · cases h
    exact RefsMove.of_eq rfl rfl

theorem bmapAppend_move {i bn : Nat} {b : Bool} (h : (bmapAppend i bn).run s = .ok (b, s')) :
    RefsMove s s' 0 0 := by
  rw [bmapAppend] at h
  split at h
  · exact balloc_move h
  obtain ⟨d, s1, h1, h⟩ := run_bind_ok.mp h
  cases h1
  dsimp only at h
  split at h
  · obtain ⟨b1, s2, h2, h⟩ := run_bind_ok.mp h
    split at h
    · cases h
      exact balloc_move h2
    · simpa using (balloc_move h2).trans (balloc_move h)
  · exact balloc_move h

theorem writeDirent_move {dp k : Nat} {de : Dirent} {b : Bool} (h : (writeDirent dp k de).run s = .ok (b, s')) :
    RefsMove s s' 0 0 := by
  rw [writeDirent] at h
  obtain ⟨d, s1, h1, h⟩ := run_bind_ok.mp h
  rw [getInode_run] at h1
  cases h1
  dsimp only at h
  split at h
  · cases h
    exact RefsMove.refl _
  -- the entry is written, after a block is appended when it starts one
  have hput : ∀ {t : FsState}, (setInode dp (fun d => d.putEnt k de) >>= fun _ => pure true).run t = .ok (b, s') →
      RefsMove t s' 0 0 := by
    intro t ht
    obtain ⟨_, t1, ht1, ht⟩ := run_bind_ok.mp ht
    cases ht
    exact setInode_move ht1
  split at h
  · obtain ⟨b1, s2, h2, h⟩ := run_bind_ok.mp h
    split at h
    · cases h
      exact bmapAppend_move h2
    · simpa using (bmapAppend_move h2).trans (hput h)
  · exact hput h

/-! ## Taking and dropping one reference -/

theorem iget_move {i : Nat} {u : Unit} (h : (iget i).run s = .ok (u, s')) : RefsMove s s' {i} 0 := by
  rw [iget] at h
  obtain ⟨s0, s1, h1, h⟩ := run_bind_ok.mp h
  cases h1
  split at h
  · cases h
    exact ⟨Moved.take i, rfl⟩
  split at h
  · cases h
    -- a new entry of the table, whose count starts at one
    have h0 : s.ref i = 0 := by omega
    have htake := Moved.take (c := s.ref) i
    rw [h0] at htake
    exact ⟨htake, rfl⟩
  · cases h

theorem idup_move {i : Nat} {u : Unit} (h : (idup i).run s = .ok (u, s')) : RefsMove s s' {i} 0 := by
  cases h
  exact ⟨Moved.take i, rfl⟩

theorem iput_move {i : Nat} {u : Unit} (hi : 0 < s.ref i) (h : (iput i).run s = .ok (u, s')) :
    RefsMove s s' 0 {i} := by
  rw [iput] at h
  obtain ⟨s0, s1, h1, h⟩ := run_bind_ok.mp h
  cases h1
  dsimp only at h
  -- freeing the inode touches its blocks, type and `valid`, never `ref`
  split at h
  · cases h
    exact ⟨Moved.drop hi, rfl⟩
  · cases h
    exact ⟨Moved.drop hi, rfl⟩

theorem iunlockput_move {i : Nat} {u : Unit} (hi : 0 < s.ref i) (h : (iunlockput i).run s = .ok (u, s')) :
    RefsMove s s' 0 {i} := by
  obtain ⟨_, s1, h1, h⟩ := run_bind_ok.mp h
  have m1 := iunlock_move h1
  simpa using m1.trans (iput_move (m1.pos hi) h)

theorem ialloc_move {type : IType} {r : Option Nat} (h : (ialloc type).run s = .ok (r, s')) :
    RefsMove s s' (held r) 0 := by
  rw [ialloc] at h
  obtain ⟨s0, s1, h1, h⟩ := run_bind_ok.mp h
  cases h1
  split at h
  · cases h
    exact RefsMove.refl _
  · obtain ⟨_, s2, h2, h⟩ := run_bind_ok.mp h
    obtain ⟨_, s3, h3, h⟩ := run_bind_ok.mp h
    cases h
    simpa using (setInode_move h2).trans (iget_move h3)

theorem dirlookup_move {dp : Nat} {name : List UInt8} {r : Option (Nat × Nat)}
    (h : (dirlookup dp name).run s = .ok (r, s')) : RefsMove s s' (held (r.map Prod.fst)) 0 := by
  rw [dirlookup] at h
  obtain ⟨d, s1, h1, h⟩ := run_bind_ok.mp h
  rw [getInode_run] at h1
  cases h1
  dsimp only at h
  split at h
  · cases h
  obtain ⟨d', s2, h2, h⟩ := run_bind_ok.mp h
  rw [getInode_run] at h2
  cases h2
  split at h
  · cases h
    exact RefsMove.refl _
  · obtain ⟨_, s3, h3, h⟩ := run_bind_ok.mp h
    cases h
    simpa using iget_move h3

theorem dirlink_move {dp inum : Nat} {name : List UInt8} {b : Bool}
    (h : (dirlink dp name inum).run s = .ok (b, s')) : RefsMove s s' 0 0 := by
  rw [dirlink] at h
  obtain ⟨found, s1, h1, h⟩ := run_bind_ok.mp h
  have m1 := dirlookup_move h1
  rcases found with _ | ⟨ip, k⟩
  · obtain ⟨d, s2, h2, h⟩ := run_bind_ok.mp h
    rw [getInode_run] at h2
    cases h2
    simpa using m1.trans (writeDirent_move h)
  · -- the name is taken: the reference `dirlookup` returned is put back
    obtain ⟨_, s2, h2, h⟩ := run_bind_ok.mp h
    cases h
    have hpos : 0 < s1.ref ip := by
      have e := m1.ref ip
      simp at e
      omega
    exact (m1.trans (iput_move hpos h2)).balance (by simp)

/-! ## Paths -/

/-- A reference the move took, and dropped no reference to, is there. -/
theorem RefsMove.pos_of_taken (h : RefsMove s s' a d) {i : Nat} (hi : d.count i < a.count i) :
    0 < s'.ref i := by
  have e := h.ref i
  omega

/-- A move that passes a reference from `i` to `j` leaves one on `j`. -/
theorem RefsMove.pos_of_swap {i j : Nat} (h : RefsMove s s' {j} {i}) (hi : 0 < s.ref i) : 0 < s'.ref j := by
  have e := h.ref j
  by_cases hji : j = i
  · subst hji
    simp at e
    omega
  · simp [hji] at e
    omega

/-- The references of `H` are among those `s` counts: code that holds them may drop them. -/
def Held (s : FsState) (H : Multiset Nat) : Prop := ∀ k, H.count k ≤ s.ref k

theorem Held.pos {H : Multiset Nat} (h : Held s H) {i : Nat} (hi : i ∈ H) : 0 < s.ref i :=
  Nat.lt_of_lt_of_le (Multiset.count_pos.mpr hi) (h i)

/-- What a move took and did not drop is held after it. -/
theorem RefsMove.held (h : RefsMove s s' a 0) : Held s' a := by
  intro k
  have e := h.ref k
  simp only [Multiset.count_zero] at e
  omega

theorem Held.take {H : Multiset Nat} (hH : Held s H) (h : RefsMove s s' a 0) : Held s' (H + a) := by
  intro k
  have e := h.ref k
  have c := hH k
  simp only [Multiset.count_zero, Multiset.count_add] at e ⊢
  omega

theorem Held.drop {H : Multiset Nat} (hH : Held s (H + d)) (h : RefsMove s s' 0 d) : Held s' H := by
  intro k
  have e := h.ref k
  have c := hH k
  simp only [Multiset.count_zero, Multiset.count_add] at e c
  omega

/-- The loop of `namex` holds one reference, to the directory it is in; it drops that one on every
path, and returns the inode it stops at with a reference of its own. -/
theorem namexLoop_move {parent : Bool} : ∀ {fuel ip : Nat} {path : List UInt8} {s s' : FsState}
    {r : Option (Nat × List UInt8)}, path.length < fuel → 0 < s.ref ip →
    (namexLoop parent fuel ip path).run s = .ok (r, s') → RefsMove s s' (held (r.map Prod.fst)) {ip}
  | 0, _, _, _, _, _, hfuel, _, _ => absurd hfuel (Nat.not_lt_zero _)
  | fuel + 1, ip, path, s, s', r, hfuel, hip, h => by
    rw [namexLoop] at h
    split at h
    · -- the path is used up: the directory is the answer, or is put back for `nameiparent`
      split at h
      · obtain ⟨_, s1, h1, h⟩ := run_bind_ok.mp h
        cases h
        simpa using iput_move hip h1
      · cases h
        exact (RefsMove.refl s).balance (by simp)
    rename_i name rest hskip
    obtain ⟨_, s1, h1, h⟩ := run_bind_ok.mp h
    have m1 := ilock_move h1
    obtain ⟨d, s2, h2, h⟩ := run_bind_ok.mp h
    rw [getInode_run] at h2
    cases h2
    split at h
    · obtain ⟨_, s3, h3, h⟩ := run_bind_ok.mp h
      cases h
      simpa using m1.trans (iunlockput_move (m1.pos hip) h3)
    split at h
    · obtain ⟨_, s3, h3, h⟩ := run_bind_ok.mp h
      cases h
      exact (m1.trans (iunlock_move h3)).balance (by simp)
    obtain ⟨found, s3, h3, h⟩ := run_bind_ok.mp h
    have m3 := m1.trans (dirlookup_move h3)
    rcases found with _ | ⟨next, k⟩
    · obtain ⟨_, s4, h4, h⟩ := run_bind_ok.mp h
      cases h
      simpa using m3.trans (iunlockput_move (m3.pos hip) h4)
    · -- one step down: the reference moves from `ip` to `next`
      obtain ⟨_, s4, h4, h⟩ := run_bind_ok.mp h
      have m4 := m3.trans (iunlockput_move (m3.pos hip) h4)
      have hnext : 0 < s4.ref next := (m4.balance (by simp only [Option.map_some, held_some]; abel)).pos_of_swap hip
      have hrest : rest.length < fuel := Nat.lt_of_lt_of_le (skipelem_length hskip) (Nat.le_of_lt_succ hfuel)
      exact (m4.trans (namexLoop_move hrest hnext h)).balance (by simp only [Option.map_some, held_some]; abel)

/-- `namex` takes its own reference to where it starts, so it holds none of its caller's. -/
theorem namex_move {cwd : Nat} {path : List UInt8} {parent : Bool} {r : Option (Nat × List UInt8)}
    (h : (namex cwd path parent).run s = .ok (r, s')) : RefsMove s s' (held (r.map Prod.fst)) 0 := by
  rw [namex] at h
  split at h
  · -- from the root
    obtain ⟨_, s1, h1, h⟩ := run_bind_ok.mp h
    have m1 := iget_move h1
    exact (m1.trans (namexLoop_move (Nat.lt_succ_self _) (m1.pos_of_taken (by simp)) h)).balance (by abel)
  · obtain ⟨_, s1, h1, h⟩ := run_bind_ok.mp h
    have m1 := idup_move h1
    exact (m1.trans (namexLoop_move (Nat.lt_succ_self _) (m1.pos_of_taken (by simp)) h)).balance (by abel)

theorem namei_move {cwd : Nat} {path : List UInt8} {r : Option Nat}
    (h : (namei cwd path).run s = .ok (r, s')) : RefsMove s s' (held r) 0 := by
  obtain ⟨r1, s1, h1, h⟩ := run_bind_ok.mp h
  cases h
  exact namex_move h1

theorem nameiparent_move {cwd : Nat} {path : List UInt8} {r : Option (Nat × List UInt8)}
    (h : (nameiparent cwd path).run s = .ok (r, s')) : RefsMove s s' (held (r.map Prod.fst)) 0 :=
  namex_move h

/-! ## The calls -/

/-- `fail:` of `create`: the new inode and the directory are both put back. -/
theorem create_fail_move {dp ip : Nat} {r : Option Nat} (hh : Held s ({ip} + {dp}))
    (h : (do
      setInode ip fun d => { d with nlink := 0 }
      iunlockput ip
      iunlockput dp
      return none : FsM (Option Nat)).run s = .ok (r, s')) :
    RefsMove s s' (held r) ({ip} + {dp}) := by
  obtain ⟨_, s1, h1, h⟩ := run_bind_ok.mp h
  have m1 := setInode_move h1
  have hh1 : Held s1 ({dp} + {ip}) := by simpa [add_comm] using hh.take m1
  obtain ⟨_, s2, h2, h⟩ := run_bind_ok.mp h
  have m2 := iunlockput_move (hh1.pos (by simp)) h2
  obtain ⟨_, s3, h3, h⟩ := run_bind_ok.mp h
  cases h
  have m3 := iunlockput_move ((hh1.drop m2).pos (by simp)) h3
  exact ((m1.trans m2).trans m3).balance (by simp only [held_none]; abel)

/-- The end of `create`, once the new inode `ip` is locked with its `.` and `..` made (`dots`):
the name goes into `dp`, or the inode is given up at `fail:`. Either way the reference to `dp` is
dropped, and the one to `ip` is dropped unless `ip` is returned. -/
theorem create_tail_move {dp ip : Nat} {name : List UInt8} {type : IType} {dots : Bool} {r : Option Nat}
    (hh : Held s ({ip} + {dp}))
    (h : (do
      if dots then
        if ← dirlink dp name ip then
          if type = .dir then setInode dp fun d => { d with nlink := d.nlink + 1 }
          iunlockput dp
          return some ip
      setInode ip fun d => { d with nlink := 0 }
      iunlockput ip
      iunlockput dp
      return none : FsM (Option Nat)).run s = .ok (r, s')) :
    RefsMove s s' (held r) ({ip} + {dp}) := by
  dsimp only at h
  split at h
  · obtain ⟨linked, s1, h1, h⟩ := run_bind_ok.mp h
    have m1 := dirlink_move h1
    have hh1 : Held s1 ({ip} + {dp}) := by simpa using hh.take m1
    split at h
    · -- the name is in `dp`: `ip` is returned and `dp` put back
      by_cases htype : type = .dir
      · rw [if_pos htype] at h
        obtain ⟨_, s2, h2, h⟩ := run_bind_ok.mp h
        have m2 := setInode_move h2
        obtain ⟨_, s3, h3, h⟩ := run_bind_ok.mp h
        cases h
        have m3 := iunlockput_move ((hh1.take m2).pos (by simp)) h3
        exact ((m1.trans m2).trans m3).balance (by simp only [held_some]; abel)
      · rw [if_neg htype] at h
        obtain ⟨_, s3, h3, h⟩ := run_bind_ok.mp h
        cases h
        have m3 := iunlockput_move (hh1.pos (by simp)) h3
        exact (m1.trans m3).balance (by simp only [held_some]; abel)
    · exact (m1.trans (create_fail_move hh1 h)).balance (by abel)
  · exact create_fail_move hh h

theorem create_move {cwd : Nat} {path : List UInt8} {type : IType} {major : Int16} {r : Option Nat}
    (h : (create cwd path type major).run s = .ok (r, s')) : RefsMove s s' (held r) 0 := by
  rw [create] at h
  obtain ⟨dpn, s1, h1, h⟩ := run_bind_ok.mp h
  have m1 := nameiparent_move h1
  rcases dpn with _ | ⟨dp, name⟩
  · cases h
    simpa using m1
  obtain ⟨_, s2, h2, h⟩ := run_bind_ok.mp h
  have m2 := m1.trans (ilock_move h2)
  obtain ⟨found, s3, h3, h⟩ := run_bind_ok.mp h
  have m3 := m2.trans (dirlookup_move h3)
  rcases found with _ | ⟨ip, k⟩
  · obtain ⟨ipn, s4, h4, h⟩ := run_bind_ok.mp h
    have m4 := m3.trans (ialloc_move h4)
    rcases ipn with _ | ip
    · obtain ⟨_, s5, h5, h⟩ := run_bind_ok.mp h
      cases h
      exact (m4.trans (iunlockput_move (m4.pos_of_taken (by simp)) h5)).balance (by simp)
    obtain ⟨_, s5, h5, h⟩ := run_bind_ok.mp h
    obtain ⟨_, s6, h6, h⟩ := run_bind_ok.mp h
    have m6 := (m4.trans (ilock_move h5)).trans (setInode_move h6)
    simp only [Option.map_some, Option.map_none, held_some, held_none, add_zero] at m6
    have hh : Held s6 ({ip} + {dp}) := by simpa only [add_comm] using m6.held
    dsimp only at h
    by_cases htype : type = .dir
    · -- a directory: `.` and `..` first
      rw [if_pos htype] at h
      obtain ⟨b1, s7, h7, h⟩ := run_bind_ok.mp h
      have m7 := dirlink_move h7
      cases b1
      · -- no `.`: `dots` is false
        rw [if_neg Bool.false_ne_true] at h
        obtain ⟨dots, s8, h8, h⟩ := run_bind_ok.mp h
        cases h8
        have m := create_tail_move (by simpa using hh.take m7) h
        exact ((m6.trans m7).trans m).balance (by abel)
      · rw [if_pos rfl] at h
        obtain ⟨dots, s8, h8, h⟩ := run_bind_ok.mp h
        have m8 := m7.trans (dirlink_move h8)
        have m := create_tail_move (by simpa using hh.take m8) h
        exact ((m6.trans m8).trans m).balance (by abel)
    · rw [if_neg htype] at h
      obtain ⟨dots, s8, h8, h⟩ := run_bind_ok.mp h
      cases h8
      have m := create_tail_move hh h
      exact (m6.trans m).balance (by abel)
  · -- the name exists: `dp` is put back, and `ip` returned if it is a file asked for as one
    simp only [Option.map_some, held_some, add_zero] at m3
    obtain ⟨_, s4, h4, h⟩ := run_bind_ok.mp h
    have m4 := iunlockput_move (m3.held.pos (by simp)) h4
    obtain ⟨_, s5, h5, h⟩ := run_bind_ok.mp h
    have m5 := (m3.trans m4).trans (ilock_move h5)
    obtain ⟨d, s6, h6, h⟩ := run_bind_ok.mp h
    rw [getInode_run] at h6
    cases h6
    dsimp only at h
    split at h
    · cases h
      exact m5.balance (by simp only [held_some]; abel)
    · obtain ⟨_, s7, h7, h⟩ := run_bind_ok.mp h
      cases h
      have m5' : RefsMove s s5 {ip} 0 := m5.balance (by abel)
      have hip : 0 < s5.ref ip := m5'.pos_of_taken (by simp)
      exact (m5.trans (iunlockput_move hip h7)).balance (by simp only [held_none]; abel)

/-- The first part of `sys_open` returns the inode to open with its reference, or holds none. -/
theorem openInode_move {cwd : Nat} {path : List UInt8} {omode : Int32} {r : Option Nat}
    (h : (openInode cwd path omode).run s = .ok (r, s')) : RefsMove s s' (held r) 0 := by
  rw [openInode] at h
  split at h
  · exact create_move h
  obtain ⟨ipn, s1, h1, h⟩ := run_bind_ok.mp h
  have m1 := namei_move h1
  rcases ipn with _ | ip
  · cases h
    exact m1
  simp only [held_some] at m1
  obtain ⟨_, s2, h2, h⟩ := run_bind_ok.mp h
  have m2 := m1.trans (ilock_move h2)
  obtain ⟨d, s3, h3, h⟩ := run_bind_ok.mp h
  rw [getInode_run] at h3
  cases h3
  split at h
  · -- a directory opened for writing is put back
    obtain ⟨_, s4, h4, h⟩ := run_bind_ok.mp h
    cases h
    exact (m2.trans (iunlockput_move (m2.pos_of_taken (by simp)) h4)).balance (by simp only [held_none]; abel)
  · cases h
    simpa using m2

/-- `sys_mkdir` and `sys_mknod`: the inode `create` returns is put back at once. -/
theorem create_put_move {cwd : Nat} {path : List UInt8} {type : IType} {major : Int16} {r : Int}
    (h : (do
      let some ip ← create cwd path type major | return -1
      iunlockput ip
      return 0 : FsM Int).run s = .ok (r, s')) : RefsMove s s' 0 0 := by
  obtain ⟨ipn, s1, h1, h⟩ := run_bind_ok.mp h
  have m1 := create_move h1
  rcases ipn with _ | ip
  · cases h
    simpa using m1
  obtain ⟨_, s2, h2, h⟩ := run_bind_ok.mp h
  cases h
  exact (m1.trans (iunlockput_move (m1.pos_of_taken (by simp)) h2)).balance (by simp only [held_some]; abel)

theorem sysMkdir_move {pr : Proc} {path : List UInt8} {r : Int}
    (h : (sysMkdir pr path).run s = .ok (r, s')) : RefsMove s s' 0 0 :=
  create_put_move h

theorem sysMknod_move {pr : Proc} {path : List UInt8} {major : Int32} {r : Int}
    (h : (sysMknod pr path major).run s = .ok (r, s')) : RefsMove s s' 0 0 :=
  create_put_move h

/-- The entry `sys_link` makes holds no reference to the inode it names. -/
theorem linkAt_move {cwd ip : Nat} {new : List UInt8} {b : Bool}
    (h : (linkAt cwd new ip).run s = .ok (b, s')) : RefsMove s s' 0 0 := by
  rw [linkAt] at h
  obtain ⟨dpn, s1, h1, h⟩ := run_bind_ok.mp h
  have m1 := nameiparent_move h1
  rcases dpn with _ | ⟨dp, name⟩
  · cases h
    simpa using m1
  simp only [Option.map_some, held_some] at m1
  obtain ⟨_, s2, h2, h⟩ := run_bind_ok.mp h
  obtain ⟨linked, s3, h3, h⟩ := run_bind_ok.mp h
  have m3 := (m1.trans (ilock_move h2)).trans (dirlink_move h3)
  split at h
  · obtain ⟨_, s4, h4, h⟩ := run_bind_ok.mp h
    cases h
    exact (m3.trans (iunlockput_move (m3.pos_of_taken (by simp)) h4)).balance (by abel)
  · obtain ⟨_, s4, h4, h⟩ := run_bind_ok.mp h
    cases h
    exact (m3.trans (iunlockput_move (m3.pos_of_taken (by simp)) h4)).balance (by abel)

theorem sysLink_move {pr : Proc} {old new : List UInt8} {r : Int}
    (h : (sysLink pr old new).run s = .ok (r, s')) : RefsMove s s' 0 0 := by
  rw [sysLink] at h
  obtain ⟨ipn, s1, h1, h⟩ := run_bind_ok.mp h
  have m1 := namei_move h1
  rcases ipn with _ | ip
  · cases h
    simpa using m1
  simp only [held_some] at m1
  obtain ⟨_, s2, h2, h⟩ := run_bind_ok.mp h
  have m2 := m1.trans (ilock_move h2)
  obtain ⟨d, s3, h3, h⟩ := run_bind_ok.mp h
  rw [getInode_run] at h3
  cases h3
  split at h
  · -- a directory cannot be linked
    obtain ⟨_, s4, h4, h⟩ := run_bind_ok.mp h
    cases h
    exact (m2.trans (iunlockput_move (m2.pos_of_taken (by simp)) h4)).balance (by abel)
  obtain ⟨_, s4, h4, h⟩ := run_bind_ok.mp h
  obtain ⟨_, s5, h5, h⟩ := run_bind_ok.mp h
  obtain ⟨linked, s6, h6, h⟩ := run_bind_ok.mp h
  have m6 := ((m2.trans (setInode_move h4)).trans (iunlock_move h5)).trans (linkAt_move h6)
  have hip : 0 < s6.ref ip := m6.pos_of_taken (by simp)
  split at h
  · obtain ⟨_, s7, h7, h⟩ := run_bind_ok.mp h
    cases h
    exact (m6.trans (iput_move hip h7)).balance (by abel)
  · -- `bad:` puts the link count back under the lock
    obtain ⟨_, s7, h7, h⟩ := run_bind_ok.mp h
    obtain ⟨_, s8, h8, h⟩ := run_bind_ok.mp h
    obtain ⟨_, s9, h9, h⟩ := run_bind_ok.mp h
    cases h
    have m8 := (ilock_move h7).trans (setInode_move h8)
    exact ((m6.trans m8).trans (iunlockput_move (m8.pos hip) h9)).balance (by abel)

/-- The end of `sys_unlink`: the directory and then the inode are put back. -/
theorem unlink_tail_move {dp ip : Nat} {r : Int} (hh : Held s ({dp} + {ip}))
    (h : (do
      iunlockput dp
      setInode ip fun d => { d with nlink := d.nlink - 1 }
      iunlockput ip
      return 0 : FsM Int).run s = .ok (r, s')) : RefsMove s s' 0 ({dp} + {ip}) := by
  obtain ⟨_, s1, h1, h⟩ := run_bind_ok.mp h
  have m1 := iunlockput_move (hh.pos (by simp)) h1
  obtain ⟨_, s2, h2, h⟩ := run_bind_ok.mp h
  have m2 := setInode_move h2
  obtain ⟨_, s3, h3, h⟩ := run_bind_ok.mp h
  cases h
  have hh1 : Held s1 {ip} := (by simpa [add_comm] using hh : Held s ({ip} + {dp})).drop m1
  have m3 := iunlockput_move ((hh1.take m2).pos (by simp)) h3
  exact ((m1.trans m2).trans m3).balance (by abel)

theorem sysUnlink_move {pr : Proc} {path : List UInt8} {r : Int}
    (h : (sysUnlink pr path).run s = .ok (r, s')) : RefsMove s s' 0 0 := by
  rw [sysUnlink] at h
  obtain ⟨dpn, s1, h1, h⟩ := run_bind_ok.mp h
  have m1 := nameiparent_move h1
  rcases dpn with _ | ⟨dp, name⟩
  · cases h
    simpa using m1
  simp only [Option.map_some, held_some] at m1
  obtain ⟨_, s2, h2, h⟩ := run_bind_ok.mp h
  have m2 := m1.trans (ilock_move h2)
  dsimp only at h
  split at h
  · -- `.` and `..` cannot be unlinked
    obtain ⟨_, s3, h3, h⟩ := run_bind_ok.mp h
    cases h
    exact (m2.trans (iunlockput_move (m2.pos_of_taken (by simp)) h3)).balance (by abel)
  obtain ⟨found, s3, h3, h⟩ := run_bind_ok.mp h
  have m3 := m2.trans (dirlookup_move h3)
  rcases found with _ | ⟨ip, k⟩
  · obtain ⟨_, s4, h4, h⟩ := run_bind_ok.mp h
    cases h
    exact (m3.trans (iunlockput_move (m3.pos_of_taken (by simp)) h4)).balance (by simp)
  simp only [Option.map_some, held_some, add_zero] at m3
  obtain ⟨_, s4, h4, h⟩ := run_bind_ok.mp h
  have m4 := m3.trans (ilock_move h4)
  obtain ⟨d, s5, h5, h⟩ := run_bind_ok.mp h
  rw [getInode_run] at h5
  cases h5
  split at h
  · cases h
  have hh : Held s4 ({dp} + {ip}) := by simpa using m4.held
  split at h
  · -- a directory with entries stays
    obtain ⟨_, s6, h6, h⟩ := run_bind_ok.mp h
    obtain ⟨_, s7, h7, h⟩ := run_bind_ok.mp h
    cases h
    have m6 := iunlockput_move (hh.pos (by simp)) h6
    have m7 := iunlockput_move ((hh.drop m6).pos (by simp)) h7
    exact ((m4.trans m6).trans m7).balance (by abel)
  -- the entry is cleared, and both inodes put back
  obtain ⟨written, s6, h6, h⟩ := run_bind_ok.mp h
  have m6 := writeDirent_move h6
  split at h
  · cases h
  have hh6 : Held s6 ({dp} + {ip}) := by simpa using hh.take m6
  split at h
  · obtain ⟨_, s7, h7, h⟩ := run_bind_ok.mp h
    have m7 := setInode_move h7
    have m := unlink_tail_move (by simpa using hh6.take m7) h
    exact (((m4.trans m6).trans m7).trans m).balance (by abel)
  · exact ((m4.trans m6).trans (unlink_tail_move hh6 h)).balance (by abel)

/-- `sys_chdir` stores the inode it looked up as the new `cwd` and puts the old one back; on a
failure it keeps nothing. -/
theorem sysChdir_move {p : Nat} {pr : Proc} {path : List UInt8} {r : Int} (hcwd : 0 < s.ref pr.cwd)
    (h : (sysChdir p pr path).run s = .ok (r, s')) :
    (r = -1 ∧ RefsMove s s' 0 0) ∨
      ∃ ip, r = 0 ∧ Moved s.ref s'.ref {ip} {pr.cwd} ∧ s'.procs = s.procs.set p (some { pr with cwd := ip }) := by
  rw [sysChdir] at h
  obtain ⟨ipn, s1, h1, h⟩ := run_bind_ok.mp h
  have m1 := namei_move h1
  rcases ipn with _ | ip
  · cases h
    exact .inl ⟨rfl, by simpa using m1⟩
  simp only [held_some] at m1
  obtain ⟨_, s2, h2, h⟩ := run_bind_ok.mp h
  have m2 := m1.trans (ilock_move h2)
  obtain ⟨d, s3, h3, h⟩ := run_bind_ok.mp h
  rw [getInode_run] at h3
  cases h3
  split at h
  · obtain ⟨_, s4, h4, h⟩ := run_bind_ok.mp h
    cases h
    exact .inl ⟨rfl, (m2.trans (iunlockput_move (m2.pos_of_taken (by simp)) h4)).balance (by abel)⟩
  obtain ⟨_, s4, h4, h⟩ := run_bind_ok.mp h
  have m4 := m2.trans (iunlock_move h4)
  obtain ⟨_, s5, h5, h⟩ := run_bind_ok.mp h
  have m5 := m4.trans (iput_move (m4.pos hcwd) h5)
  obtain ⟨_, s6, h6, h⟩ := run_bind_ok.mp h
  cases h
  cases h6
  refine .inr ⟨ip, rfl, (m5.balance (by abel)).ref, ?_⟩
  rw [← m5.procs]

end Xv6
