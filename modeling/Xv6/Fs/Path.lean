import Mathlib
import Xv6.Fs.Dir

/-!
# Path resolution (`fs.c`: `skipelem`, `namex`, `namei`, `nameiparent`)

A path's elements are its maximal runs of bytes other than `/`, and `skipelem`, called again on
what it leaves until it returns 0, gives them in order, each cut to `DIRSIZ` bytes (`name` holds
one shorter than that with its NUL, here a shorter list). `namex` starts at the root or at the
caller's `cwd` and follows `dirlookup` through those elements; what it reads of a directory is what
the directory held when it started, since the only inode it changes is one its `iput` frees, which
`ilock` then refuses to read again.

* `pathRuns`, `pathElems` : the runs, and the names cut from them; `pathRuns_append_slash` is the
  equation the rest follows from;
* `skipelems` : `skipelem` iterated, with fuel; `skipelems_eq` : one more call than the path has
  bytes gives the elements;
* `lookupPath s ip names` : the inode `dirlookup` reaches from `ip` through `names` over the
  directories of `s`, `none` at an inode that is not a directory or at a failed lookup;
  `lookupParent` : the directory the last name is looked up in, with that name;
* `InodesKept s t` : each inode of `s` is in `t` as it was, or freed; one lemma per step of
  `namex`;
* `namexLoop_spec`, `namei_spec`, `nameiparent_spec` : `namex` computes `lookupPath` and
  `lookupParent`.
-/

namespace Xv6

open Refcount

/-! ## The elements of a path -/

/-- The maximal runs of bytes other than `/` of a path, in order. -/
def pathRuns (path : List UInt8) : List (List UInt8) :=
  (path.splitOn 47).filter fun e => !e.isEmpty

/-- The names a path's elements give, each cut to its first `DIRSIZ` bytes. -/
def pathElems (path : List UInt8) : List (List UInt8) :=
  (pathRuns path).map (·.take dirSiz)

@[simp] theorem pathRuns_nil : pathRuns [] = [] := by
  simp [pathRuns]

/-- The runs on either side of a slash. -/
theorem pathRuns_append_slash (x y : List UInt8) : pathRuns (x ++ 47 :: y) = pathRuns x ++ pathRuns y := by
  unfold pathRuns
  rw [List.splitOn_append_cons_self, List.filter_append]

@[simp] theorem pathRuns_slash_cons (y : List UInt8) : pathRuns (47 :: y) = pathRuns y := by
  simpa using pathRuns_append_slash [] y

theorem pathRuns_dropWhile (path : List UInt8) : pathRuns (path.dropWhile (· == 47)) = pathRuns path := by
  induction path with
  | nil => rfl
  | cons c cs ih =>
    by_cases hc : c = 47
    · subst hc
      simpa using ih
    · rw [List.dropWhile_cons_of_neg (by simpa using hc)]

/-- A non-empty path with no slash is one run. -/
theorem pathRuns_of_not_mem {w : List UInt8} (hne : w ≠ []) (h : (47 : UInt8) ∉ w) : pathRuns w = [w] := by
  unfold pathRuns
  rw [List.splitOn_eq_singleton h]
  simp [hne]

/-! ## `skipelem` -/

/-- The first byte past a run of slashes is not one. -/
theorem ne_slash_of_dropWhile {q xs : List UInt8} {x : UInt8} (h : q.dropWhile (· == 47) = x :: xs) :
    x ≠ 47 := by
  have := List.head_dropWhile_not (· == 47) (l := q) (by simp [h])
  simpa [h] using this

theorem skipelem_eq_none {path : List UInt8} : skipelem path = none ↔ path.dropWhile (· == 47) = [] := by
  cases h : path.dropWhile (· == 47) <;> simp [skipelem, h]

theorem pathRuns_of_skipelem_none {path : List UInt8} (h : skipelem path = none) : pathRuns path = [] := by
  rw [← pathRuns_dropWhile, skipelem_eq_none.mp h, pathRuns_nil]

/-- `skipelem` takes the first run, and leaves the others. -/
theorem pathRuns_of_skipelem {path name rest : List UInt8} (h : skipelem path = some (name, rest)) :
    ∃ w, pathRuns path = w :: pathRuns rest ∧ name = w.take dirSiz := by
  obtain ⟨c, cs, hq, rfl, rfl⟩ := skipelem_eq_some h
  -- the run is what precedes the first slash after the leading ones
  have hc : c ≠ 47 := ne_slash_of_dropWhile hq
  set w := (c :: cs).takeWhile (· != 47)
  have hw : w ≠ [] := by simp [w, hc]
  have hslash : (47 : UInt8) ∉ w := fun hm => by simpa using List.mem_takeWhile_imp hm
  have hsplit : c :: cs = w ++ (c :: cs).dropWhile (· != 47) := List.takeWhile_append_dropWhile.symm
  refine ⟨w, ?_, rfl⟩
  rw [pathRuns_dropWhile, ← pathRuns_dropWhile path, hq]
  cases ht : (c :: cs).dropWhile (· != 47) with
  | nil =>
    rw [ht, List.append_nil] at hsplit
    rw [hsplit, pathRuns_of_not_mem hw hslash, pathRuns_nil]
  | cons x t =>
    -- the run ends at a slash
    have hx : x = 47 := by
      simpa [ht] using List.head_dropWhile_not (· != 47) (by simp [ht] : (c :: cs).dropWhile (· != 47) ≠ [])
    subst hx
    rw [ht] at hsplit
    rw [hsplit, pathRuns_append_slash, pathRuns_of_not_mem hw hslash, pathRuns_slash_cons,
      List.singleton_append]

/-- A path that starts with a byte other than a slash has a run. -/
theorem pathRuns_cons_ne_nil {x : UInt8} (hx : x ≠ 47) (xs : List UInt8) : pathRuns (x :: xs) ≠ [] := by
  obtain ⟨name, rest, h⟩ : ∃ name rest, skipelem (x :: xs) = some (name, rest) := by
    cases h : skipelem (x :: xs) with
    | none =>
      rw [skipelem_eq_none, List.dropWhile_cons_of_neg (by simpa using hx)] at h
      cases h
    | some p => exact ⟨p.1, p.2, rfl⟩
  obtain ⟨w, hw, -⟩ := pathRuns_of_skipelem h
  rw [hw]
  exact List.cons_ne_nil _ _

/-- What `skipelem` leaves starts past the slashes after the element: it is empty exactly when no
element is left, the test `namex` makes for `nameiparent`. -/
theorem skipelem_rest_eq_nil {path name rest : List UInt8} (h : skipelem path = some (name, rest)) :
    rest = [] ↔ pathRuns rest = [] := by
  refine ⟨fun hr => by rw [hr, pathRuns_nil], fun hr => ?_⟩
  obtain ⟨c, cs, -, -, hq⟩ := skipelem_eq_some h
  cases hrest : rest with
  | nil => rfl
  | cons x xs =>
    rw [hrest] at hq hr
    exact absurd hr (pathRuns_cons_ne_nil (ne_slash_of_dropWhile hq.symm) xs)

/-- `skipelem` called again on what it leaves, until it returns 0: the names it gave, or `none`
when `fuel` calls were not enough. -/
def skipelems : Nat → List UInt8 → Option (List (List UInt8))
  | 0, _ => none
  | fuel + 1, path =>
    match skipelem path with
    | none => some []
    | some (name, rest) => (skipelems fuel rest).map (name :: ·)

/-- One call more than the path has bytes ends the iteration, with the path's elements. -/
theorem skipelems_eq : ∀ {fuel : Nat} {path : List UInt8}, path.length < fuel →
    skipelems fuel path = some (pathElems path)
  | 0, _, h => absurd h (Nat.not_lt_zero _)
  | fuel + 1, path, h => by
    rw [skipelems]
    split
    · rename_i hnone
      rw [pathElems, pathRuns_of_skipelem_none hnone, List.map_nil]
    · rename_i name rest hsome
      obtain ⟨w, hruns, rfl⟩ := pathRuns_of_skipelem hsome
      rw [skipelems_eq (by have := skipelem_length hsome; omega), pathElems, pathElems, hruns]
      rfl

/-- Repeated slashes, and an element of `DIRSIZ + 1` bytes that `skipelem` cuts. -/
example : skipelems 19 ([47, 47, 97, 47] ++ List.replicate 15 98) = some [[97], List.replicate 14 98] := by
  decide

/-! ## Following the names -/

/-- The inode `dirlookup` reaches from `ip` through `names`, over the directories of `s`: `none`
where an inode a lookup is made from is not a directory, or the lookup fails. -/
def lookupPath (s : FsState) (ip : Nat) : List (List UInt8) → Option Nat
  | [] => some ip
  | name :: names =>
    if (s.inode ip).type ≠ .dir then none
    else
      match findEntry name (s.inode ip).ents 0 with
      | none => none
      | some (next, _) => lookupPath s next names

/-- The directory reached through every name but the last, with the last name: `none` when there
is no name, or where that inode is not a directory. -/
def lookupParent (s : FsState) (ip : Nat) (names : List (List UInt8)) : Option (Nat × List UInt8) :=
  match names.getLast? with
  | none => none
  | some name => (lookupPath s ip names.dropLast).bind fun dp =>
    if (s.inode dp).type = .dir then some (dp, name) else none

/-- `lookupPath` fails exactly where, after some of the names, it stands at an inode that is not a
directory or that lacks the next name. -/
theorem lookupPath_eq_none_iff {s : FsState} : ∀ {ip : Nat} {names : List (List UInt8)},
    lookupPath s ip names = none ↔ ∃ pre name post dp, names = pre ++ name :: post ∧
      lookupPath s ip pre = some dp ∧ ((s.inode dp).type ≠ .dir ∨ findEntry name (s.inode dp).ents 0 = none)
  | ip, [] => by simp [lookupPath]
  | ip, name :: names => by
    constructor
    · intro h
      rw [lookupPath] at h
      split_ifs at h with hdir
      · exact ⟨[], name, names, ip, rfl, rfl, .inl hdir⟩
      split at h
      · rename_i hf
        exact ⟨[], name, names, ip, rfl, rfl, .inr hf⟩
      · rename_i next k hf
        obtain ⟨pre, n, post, dp, he, hl, hbad⟩ := lookupPath_eq_none_iff.mp h
        refine ⟨name :: pre, n, post, dp, by rw [he, List.cons_append], ?_, hbad⟩
        rw [lookupPath, if_neg hdir, hf]
        exact hl
    · rintro ⟨pre, n, post, dp, he, hl, hbad⟩
      cases pre with
      | nil =>
        -- the first lookup fails
        obtain ⟨rfl, rfl⟩ := List.cons.inj he
        cases hl
        rw [lookupPath]
        split_ifs with hdir
        · rfl
        rw [hbad.resolve_left hdir]
      | cons p pre =>
        -- the first lookup succeeds, and the failure is further on
        obtain ⟨rfl, rfl⟩ := List.cons.inj he
        rw [lookupPath] at hl ⊢
        by_cases hdir : (s.inode ip).type ≠ .dir
        · rw [if_pos hdir] at hl
          cases hl
        rw [if_neg hdir] at hl ⊢
        rcases hf : findEntry name (s.inode ip).ents 0 with _ | ⟨next, k⟩
        · rfl
        · rw [hf] at hl
          exact lookupPath_eq_none_iff.mpr ⟨pre, n, post, dp, rfl, hl, hbad⟩

/-- `lookupParent` as `namex` computes it, one name at a time. -/
theorem lookupParent_cons (s : FsState) (ip : Nat) (name : List UInt8) (names : List (List UInt8)) :
    lookupParent s ip (name :: names) =
      if (s.inode ip).type ≠ .dir then none
      else if names = [] then some (ip, name)
      else
        match findEntry name (s.inode ip).ents 0 with
        | none => none
        | some (next, _) => lookupParent s next names := by
  cases names with
  | nil => by_cases h : (s.inode ip).type = .dir <;> simp [lookupParent, lookupPath, h]
  | cons n ns =>
    cases hlast : (n :: ns).getLast? with
    | none => simp at hlast
    | some last =>
      simp only [lookupParent, List.getLast?_cons_cons, hlast, List.dropLast_cons_cons, lookupPath,
        reduceCtorEq, if_false]
      by_cases hdir : (s.inode ip).type ≠ .dir
      · simp [hdir]
      rw [if_neg hdir, if_neg hdir]
      rcases findEntry name (s.inode ip).ents 0 with _ | ⟨next, k⟩ <;> rfl

/-- What `namex` returns, read off the directories of `s`: with `parent`, `lookupParent`; without,
the inode `lookupPath` reaches, with no name. -/
def namexSpec (s : FsState) (parent : Bool) (ip : Nat) (names : List (List UInt8)) : Option (Nat × List UInt8) :=
  if parent then lookupParent s ip names else (lookupPath s ip names).map (·, [])

theorem namexSpec_nil (s : FsState) (parent : Bool) (ip : Nat) :
    namexSpec s parent ip [] = if parent then none else some (ip, []) := by
  cases parent <;> rfl

theorem namexSpec_cons (s : FsState) (parent : Bool) (ip : Nat) (name : List UInt8) (names : List (List UInt8)) :
    namexSpec s parent ip (name :: names) =
      if (s.inode ip).type ≠ .dir then none
      else if parent ∧ names = [] then some (ip, name)
      else
        match findEntry name (s.inode ip).ents 0 with
        | none => none
        | some (next, _) => namexSpec s parent next names := by
  cases parent with
  | true => simp only [namexSpec, if_true, lookupParent_cons, true_and]
  | false =>
    simp only [namexSpec, lookupPath, Bool.false_eq_true, if_false, false_and]
    split_ifs
    · rfl
    · rcases findEntry name (s.inode ip).ents 0 with _ | ⟨next, k⟩ <;> rfl

/-! ## What `namex` does to the inodes -/

/-- Each inode of `s` is in `t` as it was, or freed: of type `free`, with its entry of the table not
valid, so that `ilock` refuses it. -/
def InodesKept (s t : FsState) : Prop :=
  ∀ i, t.inode i = s.inode i ∨ ((t.inode i).type = .free ∧ t.valid i = false)

section InodesKept

variable {s t t' : FsState} {i : Nat}

theorem InodesKept.refl (s : FsState) : InodesKept s s := fun _ => .inl rfl

/-- A step that changes no inode and makes none valid keeps them. -/
theorem InodesKept.of_eq (h : InodesKept s t) (hi : t'.inode = t.inode)
    (hv : ∀ j, t'.valid j = true → t.valid j = true) : InodesKept s t' := by
  intro j
  rw [hi]
  rcases h j with he | ⟨hfree, hval⟩
  · exact .inl he
  · refine .inr ⟨hfree, ?_⟩
    cases hj : t'.valid j
    · rfl
    · rw [hv j hj] at hval
      cases hval

theorem InodesKept.iget (h : InodesKept s t) (hg : (iget i).run t = .ok ((), t')) : InodesKept s t' :=
  h.of_eq (iget_inode hg) (iget_valid hg)

theorem InodesKept.idup (h : InodesKept s t) (hg : (idup i).run t = .ok ((), t')) : InodesKept s t' := by
  cases hg
  exact h.of_eq rfl fun _ => id

theorem iunlock_eq {u : Unit} (h : (iunlock i).run t = .ok (u, t')) : t' = t := by
  rw [iunlock] at h
  obtain ⟨_, t1, h1, h⟩ := run_bind_ok.mp h
  cases h1
  split at h
  · cases h
  · cases h
    rfl

/-- `ilock` reads the inode as it was in `s`: one that was freed it refuses. -/
theorem InodesKept.ilock (h : InodesKept s t) (hl : (ilock i).run t = .ok ((), t')) :
    InodesKept s t' ∧ t'.inode i = s.inode i := by
  obtain ⟨hi, hv, halloc⟩ := ilock_cases hl
  have hself : t.inode i = s.inode i := by
    rcases h i with he | ⟨hfree, hval⟩
    · exact he
    · exact absurd hfree (halloc hval)
  refine ⟨fun j => ?_, by rw [hi, hself]⟩
  rw [hi, hv]
  by_cases hj : j = i
  · subst hj
    exact .inl hself
  · rw [Function.update_of_ne hj]
    exact h j

/-- `iput` changes an inode only by freeing it. -/
theorem InodesKept.iput (h : InodesKept s t) (hp : (iput i).run t = .ok ((), t')) : InodesKept s t' := by
  obtain ⟨hother, hself⟩ := iput_cases hp
  intro j
  by_cases hj : j = i
  · subst hj
    rcases hself with ⟨he, hv⟩ | ⟨-, -, hfree, hval⟩
    · rw [he, hv]
      exact h j
    · exact .inr ⟨hfree, hval⟩
  · rw [(hother j hj).1, (hother j hj).2]
    exact h j

theorem InodesKept.iunlockput (h : InodesKept s t) (hp : (iunlockput i).run t = .ok ((), t')) :
    InodesKept s t' := by
  obtain ⟨_, t1, h1, h2⟩ := run_bind_ok.mp hp
  rw [iunlock_eq h1] at h2
  exact h.iput h2

end InodesKept

/-! ## `namex` -/

/-- The loop of `namex` from `ip`, in a state whose inodes are those of `s` or freed, returns what
the directories of `s` give for the rest of the path: the fuel is enough, each directory it locks
is read as `s` has it, and the last element stops it early for `nameiparent`. -/
theorem namexLoop_spec {s : FsState} {parent : Bool} : ∀ {fuel ip : Nat} {path : List UInt8}
    {t t' : FsState} {r : Option (Nat × List UInt8)}, path.length < fuel → InodesKept s t →
    (namexLoop parent fuel ip path).run t = .ok (r, t') → r = namexSpec s parent ip (pathElems path)
  | 0, _, _, _, _, _, hfuel, _, _ => absurd hfuel (Nat.not_lt_zero _)
  | fuel + 1, ip, path, t, t', r, hfuel, hk, h => by
    rw [namexLoop] at h
    split at h
    · -- no element left: the inode itself, or nothing for `nameiparent`
      rename_i hnone
      rw [pathElems, pathRuns_of_skipelem_none hnone, List.map_nil, namexSpec_nil]
      split at h
      · obtain ⟨_, t1, -, h⟩ := run_bind_ok.mp h
        cases h
        rw [if_pos ‹_›]
      · cases h
        rw [if_neg ‹_›]
    rename_i name rest hskip
    obtain ⟨w, hruns, rfl⟩ := pathRuns_of_skipelem hskip
    have helems : pathElems path = w.take dirSiz :: pathElems rest := by
      rw [pathElems, hruns]
      rfl
    have hrest : rest = [] ↔ pathElems rest = [] := by
      rw [skipelem_rest_eq_nil hskip, pathElems, List.map_eq_nil_iff]
    rw [helems, namexSpec_cons]
    obtain ⟨_, t1, h1, h⟩ := run_bind_ok.mp h
    obtain ⟨hk1, hip⟩ := hk.ilock h1
    obtain ⟨d, t2, h2, h⟩ := run_bind_ok.mp h
    rw [getInode_run] at h2
    cases h2
    rw [hip] at h
    split at h
    · -- not a directory
      rename_i hdir
      obtain ⟨_, t3, -, h⟩ := run_bind_ok.mp h
      cases h
      rw [if_pos hdir]
    rename_i hdir
    rw [if_neg hdir]
    split at h
    · -- the last element, for `nameiparent`
      rename_i hlast
      obtain ⟨_, t3, -, h⟩ := run_bind_ok.mp h
      cases h
      rw [if_pos ⟨hlast.1, hrest.mp hlast.2⟩]
    rename_i hnotlast
    rw [if_neg (fun h' => hnotlast ⟨h'.1, hrest.mpr h'.2⟩)]
    obtain ⟨found, t3, h3, h⟩ := run_bind_ok.mp h
    obtain ⟨-, hfound, -, hsome⟩ := dirlookup_run h3
    rw [hip] at hfound
    rw [← hfound]
    rcases found with _ | ⟨next, k⟩
    · obtain ⟨_, t4, -, h⟩ := run_bind_ok.mp h
      cases h
      rfl
    · -- one step down, from a state that still holds the directories of `s`
      obtain ⟨_, t4, h4, h⟩ := run_bind_ok.mp h
      have hk4 := (hk1.iget (hsome next k rfl)).iunlockput h4
      exact namexLoop_spec (by have := skipelem_length hskip; omega) hk4 h

/-- Where `namex` starts: the root for a path that begins with `/`, else the caller's `cwd`. -/
def pathStart (cwd : Nat) (path : List UInt8) : Nat := if path.head? = some 47 then rootIno else cwd

theorem namex_spec {s s' : FsState} {cwd : Nat} {path : List UInt8} {parent : Bool}
    {r : Option (Nat × List UInt8)} (h : (namex cwd path parent).run s = .ok (r, s')) :
    r = namexSpec s parent (pathStart cwd path) (pathElems path) := by
  rw [namex] at h
  unfold pathStart
  split at h
  · rename_i hroot
    rw [if_pos hroot]
    obtain ⟨_, s1, h1, h⟩ := run_bind_ok.mp h
    exact namexLoop_spec (Nat.lt_succ_self _) ((InodesKept.refl s).iget h1) h
  · rename_i hcwd
    rw [if_neg hcwd]
    obtain ⟨_, s1, h1, h⟩ := run_bind_ok.mp h
    exact namexLoop_spec (Nat.lt_succ_self _) ((InodesKept.refl s).idup h1) h

theorem namei_spec {s s' : FsState} {cwd : Nat} {path : List UInt8} {r : Option Nat}
    (h : (namei cwd path).run s = .ok (r, s')) : r = lookupPath s (pathStart cwd path) (pathElems path) := by
  obtain ⟨r1, s1, h1, h⟩ := run_bind_ok.mp h
  cases h
  rw [namex_spec h1]
  simp [namexSpec, Option.map_map, Function.comp_def]

theorem nameiparent_spec {s s' : FsState} {cwd : Nat} {path : List UInt8} {r : Option (Nat × List UInt8)}
    (h : (nameiparent cwd path).run s = .ok (r, s')) :
    r = lookupParent s (pathStart cwd path) (pathElems path) :=
  namex_spec h

/-! ## Path resolution -/

/-- For every path: `skipelem`, called again until it returns 0, stops within one call more than
the path has bytes and gives the path's elements; `namei` returns, with one new reference, the inode
`dirlookup` reaches through them from where the path starts, and `0` exactly where an inode a
lookup is made from is not a directory or the lookup fails; `nameiparent` returns `0` for a path
with no element, and otherwise the directory reached through all elements but the last, with the
last. -/
theorem path_resolution (s : FsState) (cwd : Nat) (path : List UInt8) :
    skipelems (path.length + 1) path = some (pathElems path) ∧
    (∀ r s', (namei cwd path).run s = .ok (r, s') →
      r = lookupPath s (pathStart cwd path) (pathElems path) ∧
      (r = none ↔ ∃ pre name post dp, pathElems path = pre ++ name :: post ∧
        lookupPath s (pathStart cwd path) pre = some dp ∧
        ((s.inode dp).type ≠ .dir ∨ findEntry name (s.inode dp).ents 0 = none)) ∧
      RefsMove s s' (held r) 0) ∧
    (∀ r s', (nameiparent cwd path).run s = .ok (r, s') →
      (pathElems path = [] → r = none) ∧
      (∀ pre name, pathElems path = pre ++ [name] →
        r = (lookupPath s (pathStart cwd path) pre).bind fun dp =>
          if (s.inode dp).type = .dir then some (dp, name) else none) ∧
      RefsMove s s' (held (r.map Prod.fst)) 0) := by
  refine ⟨skipelems_eq (Nat.lt_succ_self _), fun r s' h => ?_, fun r s' h => ?_⟩
  · have hr := namei_spec h
    refine ⟨hr, ?_, namei_move h⟩
    rw [hr]
    exact lookupPath_eq_none_iff
  · have hr := nameiparent_spec h
    refine ⟨fun hnil => ?_, fun pre name he => ?_, nameiparent_move h⟩
    · rw [hr, hnil]
      rfl
    · rw [hr, he, lookupParent, List.getLast?_concat, List.dropLast_concat]

end Xv6
