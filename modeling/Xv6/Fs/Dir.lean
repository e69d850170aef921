import Mathlib
import Xv6.Fs.Refs

/-!
# A directory as a map from names to inodes (`fs.c`: `dirlookup`, `dirlink`; `sys_unlink`)

`dirlookup` reads a directory as a finite map: a name goes to the inode of the first entry in use
whose name `namecmp` does not tell from it, comparing the first `DIRSIZ` bytes. Kept so that the
entries in use have names `namecmp` tells apart (`NamesDistinct`), the map is what `dirlink` and
`sys_unlink` change: `dirlink` adds one name at the first empty slot, or at a new slot past the end,
and clearing an entry removes exactly its name.

A directory of `n` slots is `16 n` bytes long (`size = 16 * ents.length`): `dirlookup`'s and
`dirlink`'s loops read the slots below `dp->size`, which are then exactly the entries.

* `Dirent.Matches de name` : `de` is in use under `name`;
* `findEntry_*` : the map after one slot is set or one is appended;
* `dirlookup_run`, `writeDirent_run`, `dirlink_run` : what each does to the state;
* `dirlink_map` : `dirlink` and the clearing of an entry as operations on the map.
-/

namespace Xv6

open Refcount

variable {s s' : FsState}

/-! ## Names -/

theorem namecmp_iff {a b : List UInt8} : namecmp a b = true ↔ a.take dirSiz = b.take dirSiz := by
  simp [namecmp]

theorem namecmp_comm (a b : List UInt8) : namecmp a b = namecmp b a := by
  simp only [namecmp]
  exact Bool.beq_comm

/-- `strncpy(de.name, name, DIRSIZ)` keeps what `namecmp` reads of the name. -/
@[simp] theorem namecmp_take (a b : List UInt8) : namecmp a (b.take dirSiz) = namecmp a b := by
  simp [namecmp, List.take_take]

/-- A name `namecmp` matches with one, and not with another, the two are apart. -/
theorem namecmp_of_match {a b c : List UInt8} (hab : namecmp a b = true) (hac : namecmp a c = false) :
    namecmp b c = false := by
  rw [Bool.eq_false_iff] at hac ⊢
  intro hbc
  exact hac (namecmp_iff.mpr ((namecmp_iff.mp hab).trans (namecmp_iff.mp hbc)))

/-! ## The map -/

/-- The test of `dirlookup`'s loop: `de` is in use and `namecmp` matches its name with `name`. -/
def Dirent.Matches (de : Dirent) (name : List UInt8) : Prop := de.inum ≠ 0 ∧ namecmp name de.name = true

instance (de : Dirent) (name : List UInt8) : Decidable (de.Matches name) :=
  inferInstanceAs (Decidable (_ ∧ _))

/-- The entries in use have names that `namecmp` tells apart. -/
def NamesDistinct (ents : List Dirent) : Prop :=
  (ents.filter fun de => de.inum != 0).Pairwise fun a b => namecmp a.name b.name = false

instance : DecidablePred NamesDistinct := fun ents =>
  inferInstanceAs (Decidable ((ents.filter fun de => de.inum != 0).Pairwise fun a b => namecmp a.name b.name = false))

variable {name : List UInt8} {ents : List Dirent} {d : Dirent}

theorem findEntry_nil (k : Nat) : findEntry name [] k = none := rfl

theorem findEntry_cons (de : Dirent) (k : Nat) :
    findEntry name (de :: ents) k = if de.Matches name then some (de.inum, k) else findEntry name ents (k + 1) :=
  rfl

/-- The slot `findEntry` returns is one of those it counted from `k`. -/
theorem findEntry_slot : ∀ {ents : List Dirent} {k i m : Nat}, findEntry name ents k = some (i, m) →
    k ≤ m ∧ ∃ h : m - k < ents.length, ents[m - k].Matches name ∧ ents[m - k].inum = i
  | [], _, _, _, h => by cases h
  | de :: ents, k, i, m, h => by
    rw [findEntry_cons] at h
    split at h
    · cases h
      exact ⟨le_rfl, by simpa⟩
    · obtain ⟨hk, hm, hmatch, hi⟩ := findEntry_slot h
      have e : m - k = m - (k + 1) + 1 := by omega
      refine ⟨by omega, ?_⟩
      simp only [e, List.length_cons, List.getElem_cons_succ]
      exact ⟨by omega, hmatch, hi⟩

theorem findEntry_eq_none_iff : ∀ {ents : List Dirent} {k : Nat},
    findEntry name ents k = none ↔ ∀ de ∈ ents, ¬ de.Matches name
  | [], _ => by simp [findEntry_nil]
  | de :: ents, k => by
    rw [findEntry_cons]
    split
    · simp_all
    · simp [findEntry_eq_none_iff, *]

/-- Setting a slot to an entry that does not match the name, where the old one did not either,
leaves the name's lookup alone. -/
theorem findEntry_set_of_not : ∀ {ents : List Dirent} {i k : Nat},
    (∀ de, ents[i]? = some de → ¬ de.Matches name) → ¬ d.Matches name →
      findEntry name (ents.set i d) k = findEntry name ents k
  | [], _, _, _, _ => rfl
  | de :: ents, 0, k, hold, hnew => by
    rw [List.set_cons_zero, findEntry_cons, findEntry_cons, if_neg hnew, if_neg (hold de rfl)]
  | de :: ents, i + 1, k, hold, hnew => by
    rw [List.set_cons_succ, findEntry_cons, findEntry_cons,
      findEntry_set_of_not (fun de' h => hold de' (by simpa using h)) hnew]

theorem findEntry_append_of_not (hnew : ¬ d.Matches name) :
    ∀ {ents : List Dirent} {k : Nat}, findEntry name (ents ++ [d]) k = findEntry name ents k
  | [], k => by rw [List.nil_append, findEntry_cons, if_neg hnew]; rfl
  | de :: ents, k => by rw [List.cons_append, findEntry_cons, findEntry_cons, findEntry_append_of_not hnew]

/-- A name the map lacks, set at slot `i`, is found there. -/
theorem findEntry_set_of_none (hd : d.Matches name) : ∀ {ents : List Dirent} {i k : Nat},
    findEntry name ents k = none → i < ents.length → findEntry name (ents.set i d) k = some (d.inum, k + i)
  | [], _, _, _, hi => absurd hi (Nat.not_lt_zero _)
  | de :: ents, 0, k, _, _ => by rw [List.set_cons_zero, findEntry_cons, if_pos hd]; rfl
  | de :: ents, i + 1, k, hnone, hi => by
    rw [findEntry_cons] at hnone
    split at hnone
    · cases hnone
    rw [List.set_cons_succ, findEntry_cons, if_neg ‹_›,
      findEntry_set_of_none hd hnone (by simpa using hi)]
    congr 2
    omega

/-- A name the map lacks, appended, is found in the new slot. -/
theorem findEntry_append_of_none (hd : d.Matches name) : ∀ {ents : List Dirent} {k : Nat},
    findEntry name ents k = none → findEntry name (ents ++ [d]) k = some (d.inum, k + ents.length)
  | [], k, _ => by rw [List.nil_append, findEntry_cons, if_pos hd]; rfl
  | de :: ents, k, hnone => by
    rw [findEntry_cons] at hnone
    split at hnone
    · cases hnone
    rw [List.cons_append, findEntry_cons, if_neg ‹_›, findEntry_append_of_none hd hnone]
    simp only [List.length_cons]
    congr 2
    omega

theorem namesDistinct_cons (de : Dirent) :
    NamesDistinct (de :: ents) ↔
      (de.inum ≠ 0 → ∀ e ∈ ents, e.inum ≠ 0 → namecmp de.name e.name = false) ∧ NamesDistinct ents := by
  unfold NamesDistinct
  by_cases h : de.inum = 0
  · simp [h]
  · simp [h, List.pairwise_cons]

/-- With the names apart, the entry a name is found at is the only one in use under it: cleared,
the name is gone. -/
theorem findEntry_clear : ∀ {ents : List Dirent} {k i m : Nat}, NamesDistinct ents →
    findEntry name ents k = some (i, k + m) → findEntry name (ents.set m ⟨0, []⟩) k = none
  | [], _, _, _, _, h => by cases h
  | de :: ents, k, i, m, hdist, h => by
    rw [namesDistinct_cons] at hdist
    rw [findEntry_cons] at h
    split at h
    · -- the entry found is the first: the others in use are apart from it, so from the name
      rename_i hde
      obtain ⟨-, rfl⟩ : i = de.inum ∧ m = 0 := by
        simp only [Option.some.injEq, Prod.mk.injEq] at h
        omega
      rw [List.set_cons_zero, findEntry_cons, if_neg (fun h => h.1 rfl), findEntry_eq_none_iff]
      intro e he hmatch
      have hname : namecmp de.name name = true := by rw [namecmp_comm]; exact hde.2
      have hapart : namecmp name e.name = false := namecmp_of_match hname (hdist.1 hde.1 e he hmatch.1)
      have := hmatch.2
      rw [hapart] at this
      cases this
    · obtain ⟨hk, -⟩ := findEntry_slot h
      obtain ⟨m, rfl⟩ : ∃ m', m = m' + 1 := ⟨m - 1, by omega⟩
      rw [List.set_cons_succ, findEntry_cons, if_neg ‹_›]
      exact findEntry_clear hdist.2 (by rw [h]; congr 2; omega)

/-- An entry apart from every entry in use, set into an empty slot, keeps the names apart. -/
theorem NamesDistinct.set : ∀ {ents : List Dirent} {i : Nat},
    (∀ e ∈ ents, e.inum ≠ 0 → namecmp e.name d.name = false) → NamesDistinct ents →
      (∀ de, ents[i]? = some de → de.inum = 0) → NamesDistinct (ents.set i d)
  | [], _, _, _, _ => by simp [NamesDistinct]
  | e :: ents, 0, hnew, hdist, _ => by
    rw [namesDistinct_cons] at hdist
    rw [List.set_cons_zero, namesDistinct_cons]
    refine ⟨fun _ e' he' hu => ?_, hdist.2⟩
    rw [namecmp_comm]
    exact hnew e' (List.mem_cons_of_mem _ he') hu
  | e :: ents, i + 1, hnew, hdist, hempty => by
    rw [namesDistinct_cons] at hdist
    rw [List.set_cons_succ, namesDistinct_cons]
    refine ⟨fun hu e' he' hu' => ?_,
      NamesDistinct.set (fun e' he' => hnew e' (List.mem_cons_of_mem _ he')) hdist.2
        (fun de h => hempty de (by simpa using h))⟩
    rcases List.mem_or_eq_of_mem_set he' with he' | rfl
    · exact hdist.1 hu e' he' hu'
    · exact hnew e List.mem_cons_self hu

/-- An entry apart from every entry in use, appended, keeps the names apart. -/
theorem NamesDistinct.append : ∀ {ents : List Dirent},
    (∀ e ∈ ents, e.inum ≠ 0 → namecmp e.name d.name = false) → NamesDistinct ents →
      NamesDistinct (ents ++ [d])
  | [], _, _ => by
    rw [List.nil_append, namesDistinct_cons]
    exact ⟨fun _ _ he => absurd he List.not_mem_nil, by simp [NamesDistinct]⟩
  | e :: ents, hnew, hdist => by
    rw [namesDistinct_cons] at hdist
    rw [List.cons_append, namesDistinct_cons]
    refine ⟨fun hu e' he' hu' => ?_,
      NamesDistinct.append (fun e' he' => hnew e' (List.mem_cons_of_mem _ he')) hdist.2⟩
    rcases List.mem_append.mp he' with he' | he'
    · exact hdist.1 hu e' he' hu'
    · rw [List.mem_singleton.mp he']
      exact hnew e List.mem_cons_self hu

/-- The entry `dirlink` writes is apart from every entry in use when the map lacks its name. -/
theorem apart_of_findEntry_none {k : Nat} (inum : Nat) (hnone : findEntry name ents k = none) :
    ∀ e ∈ ents, e.inum ≠ 0 → namecmp e.name (⟨inum, name.take dirSiz⟩ : Dirent).name = false := by
  intro e he hu
  have hnot := findEntry_eq_none_iff.mp hnone e he
  rw [namecmp_take, namecmp_comm]
  simpa [Dirent.Matches, hu] using hnot

/-- `namecmp` matches a name with what `strncpy` keeps of it. -/
theorem namecmp_self_take (name : List UInt8) : namecmp name (name.take dirSiz) = true := by
  rw [namecmp_take, namecmp_iff]

theorem DInode.putEnt_of_lt {d : DInode} {k : Nat} (de : Dirent) (hk : k < d.ents.length) :
    (d.putEnt k de).ents = d.ents.set k de ∧ (d.putEnt k de).size = max d.size (16 * k + 16) := by
  simp [DInode.putEnt, hk]

theorem DInode.putEnt_length {d : DInode} (de : Dirent) :
    (d.putEnt d.ents.length de).ents = d.ents ++ [de] ∧
      (d.putEnt d.ents.length de).size = max d.size (16 * d.ents.length + 16) := by
  simp [DInode.putEnt]

/-- A full write of `dirlink`'s entry inserts the name into a map that lacks it: at the first
empty slot, or at a new one past the end when there is none. No other name moves, the names stay
apart and the slots stay whole. -/
theorem putEnt_insert {d : DInode} {inum : Nat} (hsize : d.size = 16 * d.ents.length)
    (hdist : NamesDistinct d.ents) (hnone : findEntry name d.ents 0 = none) (hinum : inum ≠ 0) :
    let k := d.ents.findIdx fun de => de.inum == 0
    let d' := d.putEnt k ⟨inum, name.take dirSiz⟩
    findEntry name d'.ents 0 = some (inum, k) ∧
      (∀ name', namecmp name' name = false → findEntry name' d'.ents 0 = findEntry name' d.ents 0) ∧
      NamesDistinct d'.ents ∧ d'.size = 16 * d'.ents.length ∧
      d'.size = if ∀ de ∈ d.ents, de.inum ≠ 0 then d.size + 16 else d.size := by
  intro k d'
  have hmatch : (⟨inum, name.take dirSiz⟩ : Dirent).Matches name := ⟨hinum, namecmp_self_take name⟩
  have hnew : ∀ name', namecmp name' name = false → ¬ (⟨inum, name.take dirSiz⟩ : Dirent).Matches name' := by
    intro name' h' hm
    have := hm.2
    rw [namecmp_take, h'] at this
    cases this
  have hapart := apart_of_findEntry_none inum hnone
  by_cases hk : k < d.ents.length
  · -- an empty slot: the first one is filled, and the size stays
    have hempty : d.ents[k].inum = 0 := by
      simpa using List.findIdx_getElem (w := hk)
    obtain ⟨hents, hsz⟩ := DInode.putEnt_of_lt ⟨inum, name.take dirSiz⟩ hk
    have hsome : ¬ ∀ de ∈ d.ents, de.inum ≠ 0 := fun h => h _ (List.getElem_mem hk) hempty
    refine ⟨?_, fun name' h' => ?_, ?_, ?_, ?_⟩
    · rw [hents, findEntry_set_of_none hmatch hnone hk, Nat.zero_add]
    · rw [hents]
      refine findEntry_set_of_not (fun de hde hm => ?_) (hnew name' h')
      rw [List.getElem?_eq_getElem hk, Option.some.injEq] at hde
      exact hm.1 (hde ▸ hempty)
    · rw [hents]
      exact hdist.set hapart (fun de hde => by
        rw [List.getElem?_eq_getElem hk, Option.some.injEq] at hde
        exact hde ▸ hempty)
    · rw [hsz, hents, List.length_set]
      omega
    · rw [hsz, if_neg hsome]
      omega
  · -- no empty slot: a new one past the end, and the size grows by one entry
    have hlen : k = d.ents.length := le_antisymm List.findIdx_le_length (Nat.le_of_not_lt hk)
    have hall : ∀ de ∈ d.ents, de.inum ≠ 0 := by
      intro de hde h0
      have := List.findIdx_eq_length.mp hlen de hde
      simp [h0] at this
    obtain ⟨hents, hsz⟩ := DInode.putEnt_length (d := d) ⟨inum, name.take dirSiz⟩
    rw [← hlen] at hents hsz
    refine ⟨?_, fun name' h' => ?_, ?_, ?_, ?_⟩
    · rw [hents, findEntry_append_of_none hmatch hnone, Nat.zero_add, hlen]
    · rw [hents, findEntry_append_of_not (hnew name' h')]
    · rw [hents]
      exact hdist.append hapart
    · rw [hsz, hents, List.length_append, List.length_singleton, hlen]
      omega
    · rw [hsz, if_pos hall, hlen]
      omega

/-- Clearing the entry a name is found at leaves every other name where it was. -/
theorem findEntry_clear_other {ip k : Nat} {name' : List UInt8} (hf : findEntry name ents 0 = some (ip, k))
    (h' : namecmp name' name = false) :
    findEntry name' (ents.set k ⟨0, []⟩) 0 = findEntry name' ents 0 := by
  obtain ⟨-, hk, hmatch, -⟩ := findEntry_slot hf
  simp only [Nat.sub_zero] at hk hmatch
  refine findEntry_set_of_not (fun de hde hm => ?_) (fun hm => hm.1 rfl)
  rw [List.getElem?_eq_getElem hk, Option.some.injEq] at hde
  subst hde
  -- the entry matches `name`, which `name'` is apart from
  have hname : namecmp name ents[k].name = true := hmatch.2
  have := hm.2
  rw [namecmp_comm, namecmp_of_match hname (by rw [namecmp_comm]; exact h')] at this
  cases this

/-! ## The inode layer -/

/-- `iget` touches the count and, for an inode the table did not hold, `valid`. -/
theorem iget_cases {i : Nat} {u : Unit} (h : (iget i).run s = .ok (u, s')) :
    (0 < s.ref i ∧ s' = { s with ref := Function.update s.ref i (s.ref i + 1) }) ∨
      (s.ref i = 0 ∧ s' = { s with ref := Function.update s.ref i 1, valid := Function.update s.valid i false }) := by
  rw [iget] at h
  obtain ⟨s0, s1, h1, h⟩ := run_bind_ok.mp h
  cases h1
  split at h
  · cases h
    exact .inl ⟨‹_›, rfl⟩
  split at h
  · cases h
    exact .inr ⟨by omega, rfl⟩
  · cases h

theorem iget_inode {i : Nat} {u : Unit} (h : (iget i).run s = .ok (u, s')) : s'.inode = s.inode := by
  rcases iget_cases h with ⟨-, rfl⟩ | ⟨-, rfl⟩ <;> rfl

theorem iget_valid {i : Nat} {u : Unit} (h : (iget i).run s = .ok (u, s')) (j : Nat) :
    s'.valid j = true → s.valid j = true := by
  rcases iget_cases h with ⟨-, rfl⟩ | ⟨-, rfl⟩
  · exact id
  · by_cases hj : j = i
    · subst hj
      simp
    · simp [Function.update_of_ne hj]

/-- After `iget` the inode is held by one more than the last `iput` could drop, or is not valid:
an `iput` right after it frees nothing. -/
theorem iget_not_last {i : Nat} {u : Unit} (h : (iget i).run s = .ok (u, s')) :
    ¬ (s'.ref i = 1 ∧ s'.valid i = true) := by
  rcases iget_cases h with ⟨hpos, rfl⟩ | ⟨-, rfl⟩
  · simp only [Function.update_self]
    omega
  · simp

/-- `iput` frees inode `i` when it drops the last reference to it, valid and with no link; it
changes no other inode. -/
theorem iput_cases {i : Nat} {u : Unit} (h : (iput i).run s = .ok (u, s')) :
    (∀ j, j ≠ i → s'.inode j = s.inode j ∧ s'.valid j = s.valid j) ∧
      ((s'.inode i = s.inode i ∧ s'.valid i = s.valid i) ∨
        (s.ref i = 1 ∧ s.valid i = true ∧ (s'.inode i).type = .free ∧ s'.valid i = false)) := by
  rw [iput] at h
  obtain ⟨s0, s1, h1, h⟩ := run_bind_ok.mp h
  cases h1
  dsimp only at h
  split at h
  · rename_i hlast
    obtain ⟨_, s2, h2, h⟩ := run_bind_ok.mp h
    cases h2
    obtain ⟨_, s3, h3, h⟩ := run_bind_ok.mp h
    cases h3
    obtain ⟨_, s4, h4, h⟩ := run_bind_ok.mp h
    cases h4
    cases h
    refine ⟨fun j hj => ?_, .inr ⟨hlast.1, hlast.2.1, by simp, by simp⟩⟩
    simp [Function.update_of_ne hj]
  · cases h
    exact ⟨fun _ _ => ⟨rfl, rfl⟩, .inl ⟨rfl, rfl⟩⟩

/-- `ilock` changes only `valid`, and reads an inode that is not valid only when it is allocated. -/
theorem ilock_cases {i : Nat} {u : Unit} (h : (ilock i).run s = .ok (u, s')) :
    s'.inode = s.inode ∧ s'.valid = Function.update s.valid i true ∧
      (s.valid i = false → (s.inode i).type ≠ .free) := by
  rw [ilock] at h
  obtain ⟨s0, s1, h1, h⟩ := run_bind_ok.mp h
  cases h1
  dsimp only at h
  split at h
  · cases h
  split at h
  · rename_i hvalid
    obtain ⟨_, s2, h2, h⟩ := run_bind_ok.mp h
    cases h2
    split at h
    · cases h
    · cases h
      exact ⟨rfl, rfl, fun _ => ‹_›⟩
  · rename_i hvalid
    cases h
    have hv : s.valid i = true := by simpa using hvalid
    refine ⟨rfl, by rw [← hv, Function.update_eq_self], fun h => ?_⟩
    rw [hv] at h
    cases h

/-- `dirlookup` reads the map, and takes a reference to the inode it finds. -/
theorem dirlookup_run {dp : Nat} {r : Option (Nat × Nat)} (h : (dirlookup dp name).run s = .ok (r, s')) :
    (s.inode dp).type = .dir ∧ r = findEntry name (s.inode dp).ents 0 ∧
      (r = none → s' = s) ∧ ∀ i k, r = some (i, k) → (iget i).run s = .ok ((), s') := by
  rw [dirlookup] at h
  obtain ⟨d, s1, h1, h⟩ := run_bind_ok.mp h
  rw [getInode_run] at h1
  cases h1
  dsimp only at h
  split at h
  · cases h
  rename_i hdir
  obtain ⟨d', s2, h2, h⟩ := run_bind_ok.mp h
  rw [getInode_run] at h2
  cases h2
  split at h
  · rename_i hf
    cases h
    exact ⟨not_not.mp hdir, hf.symm, fun _ => rfl, fun _ _ h => by cases h⟩
  · rename_i i k hf
    obtain ⟨_, s3, h3, h⟩ := run_bind_ok.mp h
    cases h
    refine ⟨not_not.mp hdir, hf.symm, (fun h => by cases h), ?_⟩
    intro i' k' h
    cases h
    exact h3

/-- `s'` holds the entries, sizes and types of `s`: at most the counts of blocks differ. -/
def SameContent (s s' : FsState) : Prop :=
  ∀ j, (s'.inode j).ents = (s.inode j).ents ∧ (s'.inode j).size = (s.inode j).size ∧
    (s'.inode j).type = (s.inode j).type

theorem SameContent.refl (s : FsState) : SameContent s s := fun _ => ⟨rfl, rfl, rfl⟩

theorem SameContent.trans {s'' : FsState} (h1 : SameContent s s') (h2 : SameContent s' s'') :
    SameContent s s'' := fun j =>
  ⟨(h2 j).1.trans (h1 j).1, (h2 j).2.1.trans (h1 j).2.1, (h2 j).2.2.trans (h1 j).2.2⟩

theorem balloc_content {i : Nat} {b : Bool} (h : (balloc i).run s = .ok (b, s')) : SameContent s s' := by
  rw [balloc] at h
  obtain ⟨s0, s1, h1, h⟩ := run_bind_ok.mp h
  cases h1
  split at h
  · cases h
    exact SameContent.refl _
  · cases h
    intro j
    by_cases hj : j = i
    · subst hj
      simp
    · simp [Function.update_of_ne hj]

theorem bmapAppend_content {i bn : Nat} {b : Bool} (h : (bmapAppend i bn).run s = .ok (b, s')) :
    SameContent s s' := by
  rw [bmapAppend] at h
  split at h
  · exact balloc_content h
  obtain ⟨d, s1, h1, h⟩ := run_bind_ok.mp h
  cases h1
  dsimp only at h
  split at h
  · obtain ⟨b1, s2, h2, h⟩ := run_bind_ok.mp h
    split at h
    · cases h
      exact balloc_content h2
    · exact (balloc_content h2).trans (balloc_content h)
  · exact balloc_content h

/-- `writei` of entry `k`: on a full write the slot holds the entry, and the directory grows to
cover it; on a short one, no entry changes. -/
theorem writeDirent_run {dp k : Nat} {de : Dirent} {b : Bool} (h : (writeDirent dp k de).run s = .ok (b, s')) :
    (b = true → (s'.inode dp).ents = ((s.inode dp).putEnt k de).ents ∧
      (s'.inode dp).size = ((s.inode dp).putEnt k de).size) ∧
    (b = false → (s'.inode dp).ents = (s.inode dp).ents ∧ (s'.inode dp).size = (s.inode dp).size) ∧
    (s'.inode dp).type = (s.inode dp).type := by
  rw [writeDirent] at h
  obtain ⟨d, s1, h1, h⟩ := run_bind_ok.mp h
  rw [getInode_run] at h1
  cases h1
  dsimp only at h
  split at h
  · cases h
    exact ⟨(fun h => by cases h), fun _ => ⟨rfl, rfl⟩, rfl⟩
  -- the entry is written over a state whose entries, sizes and types are those of `s`
  have hput : ∀ {t : FsState}, SameContent s t →
      (setInode dp (fun d => d.putEnt k de) >>= fun _ => pure true).run t = .ok (b, s') →
      b = true ∧ (s'.inode dp).ents = ((s.inode dp).putEnt k de).ents ∧
        (s'.inode dp).size = ((s.inode dp).putEnt k de).size ∧ (s'.inode dp).type = (s.inode dp).type := by
    intro t hst ht
    obtain ⟨_, t1, ht1, ht⟩ := run_bind_ok.mp ht
    cases ht1
    cases ht
    obtain ⟨hents, hsize, htype⟩ := hst dp
    simp [DInode.putEnt, hents, hsize, htype]
  split at h
  · obtain ⟨b1, s2, h2, h⟩ := run_bind_ok.mp h
    split at h
    · cases h
      obtain ⟨hents, hsize, htype⟩ := bmapAppend_content h2 dp
      exact ⟨(fun h => by cases h), fun _ => ⟨hents, hsize⟩, htype⟩
    · obtain ⟨rfl, hents, hsize, htype⟩ := hput (bmapAppend_content h2) h
      exact ⟨fun _ => ⟨hents, hsize⟩, (fun h => by cases h), htype⟩
  · obtain ⟨rfl, hents, hsize, htype⟩ := hput (SameContent.refl s) h
    exact ⟨fun _ => ⟨hents, hsize⟩, (fun h => by cases h), htype⟩

/-- `dirlink`: a name the directory has gives `-1` and leaves the directory as it was; one it lacks
is written with `strncpy` into the first empty slot. -/
theorem dirlink_run {dp inum : Nat} {b : Bool} (h : (dirlink dp name inum).run s = .ok (b, s')) :
    (s.inode dp).type = .dir ∧
      (findEntry name (s.inode dp).ents 0 ≠ none → b = false ∧ s'.inode dp = s.inode dp) ∧
      (findEntry name (s.inode dp).ents 0 = none →
        (writeDirent dp ((s.inode dp).ents.findIdx fun de => de.inum == 0) ⟨inum, name.take dirSiz⟩).run s =
          .ok (b, s')) := by
  rw [dirlink] at h
  obtain ⟨found, s1, h1, h⟩ := run_bind_ok.mp h
  obtain ⟨hdir, hfound, hnone, hsome⟩ := dirlookup_run h1
  refine ⟨hdir, fun hne => ?_, fun hnil => ?_⟩
  · rcases found with _ | ⟨ip, k⟩
    · exact absurd hfound.symm hne
    obtain ⟨_, s2, h2, h⟩ := run_bind_ok.mp h
    cases h
    have hget := hsome ip k rfl
    obtain ⟨hother, hself⟩ := iput_cases h2
    refine ⟨rfl, ?_⟩
    rw [← iget_inode hget]
    -- the reference `dirlookup` took keeps `iput` from freeing, even when the name is `.`
    by_cases hip : dp = ip
    · subst hip
      rcases hself with ⟨he, -⟩ | ⟨h1', hv, -⟩
      · exact he
      · exact absurd ⟨h1', hv⟩ (iget_not_last hget)
    · exact (hother dp hip).1
  · rw [hnil] at hfound
    subst hfound
    cases hnone rfl
    obtain ⟨d, s2, h2, h⟩ := run_bind_ok.mp h
    rw [getInode_run] at h2
    cases h2
    exact h

/-! ## The directory as a map -/

/-- Take a directory of whole slots whose entries in use have names `namecmp` tells apart, a name,
and an inode number other than `0`. Where `dirlookup` would find the name, `dirlink` returns `-1`
and changes no entry. Where it would not, a `0` from `dirlink` leaves the name found with the inode
at the first empty slot (or a new one past the end), every other name as it was, the names apart,
the slots whole, and the size grown by one entry exactly when no slot was empty; a `-1` (a short
`writei`) changes no entry. Clearing the entry a name is found at, as `sys_unlink` does, removes
that name and leaves every other. -/
theorem dirlink_map (s : FsState) (dp : Nat) (name : List UInt8) (inum : Nat)
    (hsize : (s.inode dp).size = 16 * (s.inode dp).ents.length) (hdist : NamesDistinct (s.inode dp).ents)
    (hinum : inum ≠ 0) :
    (∀ b s', (dirlink dp name inum).run s = .ok (b, s') →
      (findEntry name (s.inode dp).ents 0 ≠ none → b = false ∧ (s'.inode dp).ents = (s.inode dp).ents) ∧
      (findEntry name (s.inode dp).ents 0 = none →
        (b = true →
          findEntry name (s'.inode dp).ents 0 = some (inum, (s.inode dp).ents.findIdx fun de => de.inum == 0) ∧
          (∀ name', namecmp name' name = false →
            findEntry name' (s'.inode dp).ents 0 = findEntry name' (s.inode dp).ents 0) ∧
          NamesDistinct (s'.inode dp).ents ∧ (s'.inode dp).size = 16 * (s'.inode dp).ents.length ∧
          (s'.inode dp).size =
            if ∀ de ∈ (s.inode dp).ents, de.inum ≠ 0 then (s.inode dp).size + 16 else (s.inode dp).size) ∧
        (b = false → (s'.inode dp).ents = (s.inode dp).ents))) ∧
    (∀ ip k s', findEntry name (s.inode dp).ents 0 = some (ip, k) →
      (writeDirent dp k ⟨0, []⟩).run s = .ok (true, s') →
      findEntry name (s'.inode dp).ents 0 = none ∧
        ∀ name', namecmp name' name = false →
          findEntry name' (s'.inode dp).ents 0 = findEntry name' (s.inode dp).ents 0) := by
  refine ⟨fun b s' h => ⟨fun hne => ?_, fun hnone => ⟨fun hb => ?_, fun hb => ?_⟩⟩, fun ip k s' hf hw => ?_⟩
  · -- the name is there
    obtain ⟨hb, he⟩ := (dirlink_run h).2.1 hne
    exact ⟨hb, by rw [he]⟩
  · -- a full write: the insertion
    obtain ⟨hents, hsz⟩ := (writeDirent_run ((dirlink_run h).2.2 hnone)).1 hb
    rw [hents, hsz]
    exact putEnt_insert hsize hdist hnone hinum
  · -- a short write
    exact ((writeDirent_run ((dirlink_run h).2.2 hnone)).2.1 hb).1
  · -- the clearing, at a slot below the size
    obtain ⟨-, hk, -⟩ := findEntry_slot hf
    obtain ⟨hents, -⟩ := (writeDirent_run hw).1 rfl
    rw [hents, (DInode.putEnt_of_lt _ (by simpa using hk)).1]
    exact ⟨findEntry_clear hdist (by rw [hf, Nat.zero_add]), fun name' h' => findEntry_clear_other hf h'⟩

/-- The root directory `mkfs` writes, and `x` linked into it as inode 2. -/
theorem dirlink_map_root :
    ((fsSys 1).init.inode rootIno).size = 16 * ((fsSys 1).init.inode rootIno).ents.length ∧
      NamesDistinct ((fsSys 1).init.inode rootIno).ents ∧ (2 : Nat) ≠ 0 ∧
    ((∀ b s', (dirlink rootIno [120] 2).run (fsSys 1).init = .ok (b, s') →
      (findEntry [120] ((fsSys 1).init.inode rootIno).ents 0 ≠ none →
        b = false ∧ (s'.inode rootIno).ents = ((fsSys 1).init.inode rootIno).ents) ∧
      (findEntry [120] ((fsSys 1).init.inode rootIno).ents 0 = none →
        (b = true →
          findEntry [120] (s'.inode rootIno).ents 0 =
            some (2, ((fsSys 1).init.inode rootIno).ents.findIdx fun de => de.inum == 0) ∧
          (∀ name', namecmp name' [120] = false →
            findEntry name' (s'.inode rootIno).ents 0 = findEntry name' ((fsSys 1).init.inode rootIno).ents 0) ∧
          NamesDistinct (s'.inode rootIno).ents ∧ (s'.inode rootIno).size = 16 * (s'.inode rootIno).ents.length ∧
          (s'.inode rootIno).size =
            if ∀ de ∈ ((fsSys 1).init.inode rootIno).ents, de.inum ≠ 0 then
              ((fsSys 1).init.inode rootIno).size + 16
            else ((fsSys 1).init.inode rootIno).size) ∧
        (b = false → (s'.inode rootIno).ents = ((fsSys 1).init.inode rootIno).ents))) ∧
    (∀ ip k s', findEntry [120] ((fsSys 1).init.inode rootIno).ents 0 = some (ip, k) →
      (writeDirent rootIno k ⟨0, []⟩).run (fsSys 1).init = .ok (true, s') →
      findEntry [120] (s'.inode rootIno).ents 0 = none ∧
        ∀ name', namecmp name' [120] = false →
          findEntry name' (s'.inode rootIno).ents 0 = findEntry name' ((fsSys 1).init.inode rootIno).ents 0)) :=
  ⟨by decide, by decide, by decide, dirlink_map (fsSys 1).init rootIno [120] 2 (by decide) (by decide) (by decide)⟩

end Xv6
