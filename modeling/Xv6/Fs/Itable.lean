import Mathlib
import Xv6.Fs.Names
import Xv6.Lib.Trans

/-!
# The slots of the inode table (`fs.c`: `itable`, `iget`, `idup`, `iput`)

`itable.inode[NINODE]` as the list of its slots, each with the fields that `iget`, `idup` and
`iput` read and write under `itable.lock`: `dev`, `inum`, `ref` and `valid`. A pointer into the
table is the index of its slot. `Fs.Names` keeps one count per inode number instead; this module
shows the slots are what that count abstracts.

* `Slot`, `igetLoop`, `iget`, `idup`, `iputDec`, `iputFree`, `ilock` : the functions as `fs.c` has
  them, the freeing path of `iput` apart from the rest (it drops `itable.lock` while `ref` is still
  `1`), and of `ilock` only its `ip->valid = 1`, which the freeing path reads;
* `igetLoop_holds`, `igetLoop_none` : `iget`'s loop finds the first slot that holds the inode, and
  otherwise the first slot with no reference;
* `Keys` : no two slots with a reference hold the same inode; `Keys.iget`, `Keys.of_modify`;
* `itSys` : callers that take references with `iget`, copy them with `idup`, lock them with `ilock`
  and put them back with `iput`, in any interleaving, with `iput`'s freeing path in two steps around its unlocked window;
  `itInv_reachable` : in every reachable state the keys are unique and each slot's `ref` is the
  number of references held on it;
* `Rep t s` : the slots `t` represent the counts of `s`; `iget_refines`, `idup_refines` and
  `iput_refines` : the functions on the slots do to the counts what `Xv6.iget`, `Xv6.idup` and
  `Xv6.iput` do, the panic of a full table included.
-/

namespace Xv6.Itable

open Trans

/-- `ROOTDEV`, the one device of the file system. -/
def rootDev : Nat := 1

/-- The fields of `struct inode` that `itable.lock` guards, with `valid`. -/
structure Slot where
  dev : Nat
  inum : Nat
  ref : Nat
  valid : Bool
  deriving DecidableEq, Repr

/-- A slot of the zeroed table `iinit` starts from. -/
def Slot.empty : Slot := ⟨0, 0, 0, false⟩

/-- An empty slot taken over for inode `inum` of `dev`. -/
def Slot.recycle (x : Slot) (dev inum : Nat) : Slot := { x with dev := dev, inum := inum, ref := 1, valid := false }

/-- `ip->ref > 0 && ip->dev == dev && ip->inum == inum` -/
def Slot.holds (x : Slot) (dev inum : Nat) : Bool := decide (0 < x.ref) && x.dev == dev && x.inum == inum

/-- `iget`'s loop from slot `k` on, `empty` being the first slot with no reference before `k`: the
slot that holds the inode, or at the end of the table `empty`. -/
def igetLoop (dev inum : Nat) : List Slot → Nat → Option Nat → Nat ⊕ Option Nat
  | [], _, empty => .inr empty
  | x :: xs, k, empty =>
    if x.holds dev inum then .inl k
    else igetLoop dev inum xs (k + 1) (if empty.isNone && x.ref == 0 then some k else empty)

/-- `iget(dev, inum)`: one more reference to the slot that holds the inode, or the empty slot
recycled for it; the slot is returned. -/
def iget (t : List Slot) (dev inum : Nat) : Except String (List Slot × Nat) :=
  match igetLoop dev inum t 0 none with
  | .inl k => .ok (t.modify k fun x => { x with ref := x.ref + 1 }, k)
  | .inr none => .error "iget: no inodes"
  | .inr (some k) => .ok (t.modify k (·.recycle dev inum), k)

/-- `idup(ip)` -/
def idup (t : List Slot) (k : Nat) : List Slot := t.modify k fun x => { x with ref := x.ref + 1 }

/-- Whether `iput` takes its freeing path: `ip->ref == 1 && ip->valid && ip->nlink == 0`. -/
def Slot.frees (x : Slot) (nlink : Int16) : Bool := x.ref == 1 && x.valid && nlink == 0

/-- `ip->ref--`, the end of `iput`. -/
def iputDec (t : List Slot) (k : Nat) : List Slot := t.modify k fun x => { x with ref := x.ref - 1 }

/-- `iput`'s freeing path once the inode is truncated and written back: `ip->valid = 0`, then
under `itable.lock` again `ip->ref--`. -/
def iputFree (t : List Slot) (k : Nat) : List Slot :=
  iputDec (t.modify k fun x => { x with valid := false }) k

/-- `ilock(ip)` once it has read the inode from the disk: `ip->valid = 1`. -/
def ilock (t : List Slot) (k : Nat) : List Slot := t.modify k fun x => { x with valid := true }

/-- The references on slot `k`. -/
def refAt (t : List Slot) (k : Nat) : Nat := (t[k]?.map Slot.ref).getD 0

/-- The references the slots hold on inode `inum` of `dev`. -/
def refOf (t : List Slot) (dev inum : Nat) : Nat := (t.map fun x => if x.holds dev inum then x.ref else 0).sum

/-! ## `iget`'s loop -/

section Loop

variable {dev inum : Nat}

theorem igetLoop_holds : ∀ {xs : List Slot} {k j : Nat} {empty : Option Nat},
    xs.findIdx? (·.holds dev inum) = some j → igetLoop dev inum xs k empty = .inl (k + j)
  | [], _, _, _, h => by simp at h
  | x :: xs, k, j, empty, h => by
    rw [List.findIdx?_cons] at h
    unfold igetLoop
    split
    · rename_i hx
      simp only [hx, if_true, Option.some.injEq] at h
      rw [← h, Nat.add_zero]
    · rename_i hx
      simp only [hx, Bool.false_eq_true, if_false, Option.map_eq_some_iff] at h
      obtain ⟨j', hj', rfl⟩ := h
      rw [igetLoop_holds hj']
      congr 1
      omega

theorem igetLoop_none : ∀ {xs : List Slot} {k : Nat} {empty : Option Nat},
    xs.findIdx? (·.holds dev inum) = none →
      igetLoop dev inum xs k empty = .inr (empty.or ((xs.findIdx? (·.ref == 0)).map (k + ·)))
  | [], _, empty, _ => by simp [igetLoop]
  | x :: xs, k, empty, h => by
    rw [List.findIdx?_cons] at h
    split at h
    · cases h
    rename_i hx
    rw [Option.map_eq_none_iff] at h
    unfold igetLoop
    rw [if_neg hx, igetLoop_none h, List.findIdx?_cons]
    cases empty with
    | some e => rfl
    | none =>
      by_cases h0 : x.ref = 0
      · simp [h0]
      · have hk : (fun i => k + 1 + i) = (fun i => k + (i + 1)) := by
          funext i
          omega
        simp [h0, hk, Option.map_map, Function.comp_def]

/-- The slot that holds the inode gets one more reference. -/
theorem iget_of_holds {t : List Slot} {k : Nat} (h : t.findIdx? (·.holds dev inum) = some k) :
    iget t dev inum = .ok (t.modify k fun x => { x with ref := x.ref + 1 }, k) := by
  unfold iget
  rw [igetLoop_holds h, Nat.zero_add]

/-- No slot holds the inode: the first slot with no reference is recycled for it. -/
theorem iget_of_recycle {t : List Slot} {k : Nat} (h : t.findIdx? (·.holds dev inum) = none)
    (he : t.findIdx? (·.ref == 0) = some k) :
    iget t dev inum = .ok (t.modify k (·.recycle dev inum), k) := by
  unfold iget
  rw [igetLoop_none h, he]
  simp

/-- No slot holds the inode and none is empty: `panic("iget: no inodes")`. -/
theorem iget_of_full {t : List Slot} (h : t.findIdx? (·.holds dev inum) = none)
    (he : t.findIdx? (·.ref == 0) = none) : iget t dev inum = .error "iget: no inodes" := by
  unfold iget
  rw [igetLoop_none h, he]
  rfl

end Loop

/-! ## Unique keys -/

/-- No two slots with a reference hold the same inode. -/
def Keys (t : List Slot) : Prop := ∀ dev inum, t.countP (·.holds dev inum) ≤ 1

section Keys

variable {t : List Slot} {k : Nat}

theorem modify_of_getElem? {f : Slot → Slot} {x : Slot} (hk : t[k]? = some x) : t.modify k f = t.set k (f x) := by
  apply List.ext_getElem?
  intro j
  rw [List.getElem?_modify, List.getElem?_set]
  rcases eq_or_ne k j with rfl | hj
  · obtain ⟨hlt, hx⟩ := List.getElem?_eq_some_iff.mp hk
    simp [hlt, hx]
  · simp [hj]

theorem modify_of_getElem?_none {f : Slot → Slot} (hk : t[k]? = none) : t.modify k f = t :=
  List.modify_eq_self (List.getElem?_eq_none_iff.mp hk)

theorem countP_modify (q : Slot → Bool) {f : Slot → Slot} {x : Slot} (hk : t[k]? = some x) :
    (t.modify k f).countP q + (if q x then 1 else 0) = t.countP q + (if q (f x) then 1 else 0) := by
  rw [modify_of_getElem? hk]
  exact countP_set q t k (f x) x hk

theorem refAt_modify {f : Slot → Slot} {x : Slot} (hk : t[k]? = some x) (j : Nat) :
    refAt (t.modify k f) j = if k = j then (f x).ref else refAt t j := by
  unfold refAt
  rw [List.getElem?_modify]
  rcases eq_or_ne k j with rfl | hj
  · simp [hk]
  · simp only [hj, if_false, id_map']

theorem length_modify_slots (f : Slot → Slot) : (t.modify k f).length = t.length := List.length_modify f t k

/-- Two slots that hold one inode under unique keys are one slot. -/
theorem Keys.eq (h : Keys t) {j j' : Nat} {x y : Slot} (hx : t[j]? = some x) (hy : t[j']? = some y)
    {dev inum : Nat} (hxh : x.holds dev inum) (hyh : y.holds dev inum) : j = j' := by
  by_contra hne
  have e := countP_set (·.holds dev inum) t j { x with ref := 0 } x hx
  have hy' : (t.set j { x with ref := 0 })[j']? = some y := by
    rw [List.getElem?_set, if_neg hne]
    exact hy
  have hpos : 0 < (t.set j { x with ref := 0 }).countP (·.holds dev inum) :=
    List.countP_pos_iff.mpr ⟨y, List.mem_of_getElem? hy', hyh⟩
  have hle := h dev inum
  have hz : ({ x with ref := 0 } : Slot).holds dev inum = false := by simp [Slot.holds]
  rw [hxh, hz] at e
  simp only [if_true, Bool.false_eq_true, if_false] at e
  omega

/-- A change to one slot that gives it no key it did not have keeps the keys unique. -/
theorem Keys.of_modify (h : Keys t) {f : Slot → Slot}
    (hf : ∀ x, t[k]? = some x → ∀ dev inum, (f x).holds dev inum → x.holds dev inum) : Keys (t.modify k f) := by
  intro dev inum
  cases hk : t[k]? with
  | none =>
    rw [modify_of_getElem?_none hk]
    exact h dev inum
  | some x =>
    have e := countP_modify (·.holds dev inum) (f := f) hk
    have hle := h dev inum
    by_cases hfx : (f x).holds dev inum
    · simp only [hfx, hf x hk dev inum hfx, if_true] at e
      omega
    · simp only [hfx, Bool.false_eq_true, if_false] at e
      split at e <;> omega

/-- A slot with no reference recycled for an inode no slot holds keeps the keys unique. -/
theorem Keys.recycle (h : Keys t) {dev inum : Nat} (hnone : t.findIdx? (·.holds dev inum) = none) {x : Slot}
    (hk : t[k]? = some x) (h0 : x.ref = 0) : Keys (t.modify k (·.recycle dev inum)) := by
  intro dev' inum'
  have e := countP_modify (·.holds dev' inum') (f := (·.recycle dev inum)) hk
  have hx : x.holds dev' inum' = false := by simp [Slot.holds, h0]
  rw [hx] at e
  by_cases hkey : dev' = dev ∧ inum' = inum
  · obtain ⟨rfl, rfl⟩ := hkey
    have h0 : t.countP (·.holds dev' inum') = 0 :=
      List.countP_eq_zero.mpr fun y hy => by simp [List.findIdx?_eq_none_iff.mp hnone y hy]
    simp only [Bool.false_eq_true, if_false] at e
    split at e <;> omega
  · have hnew : (x.recycle dev inum).holds dev' inum' = false := by
      rw [Bool.eq_false_iff]
      intro hh
      simp only [Slot.recycle, Slot.holds, Bool.and_eq_true, beq_iff_eq] at hh
      exact hkey ⟨hh.1.2.symm, hh.2.symm⟩
    simp only [hnew, Bool.false_eq_true, if_false] at e
    have := h dev' inum'
    omega

/-- What `iget` returned. -/
theorem iget_eq_ok {dev inum : Nat} {t' : List Slot} (hg : iget t dev inum = .ok (t', k)) :
    (t.findIdx? (·.holds dev inum) = some k ∧ t' = t.modify k fun x => { x with ref := x.ref + 1 }) ∨
      (t.findIdx? (·.holds dev inum) = none ∧ t.findIdx? (·.ref == 0) = some k ∧
        t' = t.modify k (·.recycle dev inum)) := by
  cases hh : t.findIdx? (·.holds dev inum) with
  | some j =>
    rw [iget_of_holds hh] at hg
    cases hg
    exact .inl ⟨rfl, rfl⟩
  | none =>
    cases he : t.findIdx? (·.ref == 0) with
    | some j =>
      rw [iget_of_recycle hh he] at hg
      cases hg
      exact .inr ⟨rfl, rfl, rfl⟩
    | none =>
      rw [iget_of_full hh he] at hg
      cases hg

/-- When `iget` panics: no slot holds the inode and every slot has a reference. -/
theorem iget_eq_error {dev inum : Nat} {m : String} (hg : iget t dev inum = .error m) :
    m = "iget: no inodes" ∧ (∀ x ∈ t, x.holds dev inum = false) ∧ ∀ x ∈ t, 0 < x.ref := by
  cases hh : t.findIdx? (·.holds dev inum) with
  | some j =>
    rw [iget_of_holds hh] at hg
    cases hg
  | none =>
    cases he : t.findIdx? (·.ref == 0) with
    | some j =>
      rw [iget_of_recycle hh he] at hg
      cases hg
    | none =>
      rw [iget_of_full hh he] at hg
      cases hg
      refine ⟨rfl, List.findIdx?_eq_none_iff.mp hh, fun x hx => ?_⟩
      have := List.findIdx?_eq_none_iff.mp he x hx
      simp only [beq_eq_false_iff_ne, ne_eq] at this
      omega

/-- `iget` keeps the keys unique, and the slot it returns holds the inode. -/
theorem Keys.iget (h : Keys t) {dev inum : Nat} {t' : List Slot} (hg : iget t dev inum = .ok (t', k)) :
    Keys t' ∧ ∃ x, t'[k]? = some x ∧ x.holds dev inum := by
  rcases iget_eq_ok hg with ⟨hh, rfl⟩ | ⟨hh, he, rfl⟩
  · obtain ⟨hlt, hx, -⟩ := List.findIdx?_eq_some_iff_getElem.mp hh
    have hk : t[k]? = some t[k] := List.getElem?_eq_getElem hlt
    refine ⟨h.of_modify fun x hx' dev' inum' hxh => ?_, { t[k] with ref := t[k].ref + 1 }, by simp [hk], ?_⟩
    · rw [hk, Option.some.injEq] at hx'
      subst hx'
      simp only [Slot.holds, Bool.and_eq_true, decide_eq_true_eq] at hxh hx ⊢
      exact ⟨⟨hx.1.1, hxh.1.2⟩, hxh.2⟩
    · simp only [Slot.holds, Bool.and_eq_true, decide_eq_true_eq] at hx ⊢
      exact ⟨⟨by omega, hx.1.2⟩, hx.2⟩
  · obtain ⟨hlt, hx, -⟩ := List.findIdx?_eq_some_iff_getElem.mp he
    have hk : t[k]? = some t[k] := List.getElem?_eq_getElem hlt
    refine ⟨h.recycle hh hk (by simpa using hx), t[k].recycle dev inum, by simp [hk], by simp [Slot.recycle, Slot.holds]⟩

/-- The zeroed slots of `iinit` hold nothing. -/
theorem keys_replicate_empty (n : Nat) : Keys (List.replicate n Slot.empty) := fun dev inum => by
  have h0 : (List.replicate n Slot.empty).countP (·.holds dev inum) = 0 :=
    List.countP_eq_zero.mpr fun x hx => by
      rw [List.eq_of_mem_replicate hx]
      simp [Slot.empty, Slot.holds]
  omega

end Keys

/-! ## Callers in any interleaving -/

/-- The table, the slot of each reference the callers hold, and the slots whose `iput` is in its
freeing path, where it has dropped `itable.lock`. -/
structure ItState where
  slots : List Slot
  held : Multiset Nat
  freeing : Multiset Nat

/-- A call on the table. -/
inductive ItEv where
  /-- `iget(dev, inum)`; the caller then holds the slot returned -/
  | iget (dev inum : Nat)
  /-- `idup(ip)` by a caller holding `ip` -/
  | idup (k : Nat)
  /-- `iput(ip)` by a caller holding `ip`, `nlink` being `ip->nlink` -/
  | iput (k : Nat) (nlink : Int16)
  /-- the end of `iput`'s freeing path, once `itrunc` and `iupdate` are done -/
  | iputFree (k : Nat)
  /-- `ilock(ip)` by a caller holding `ip`, under the sleep-lock and not `itable.lock` -/
  | ilock (k : Nat)

/-- One call, under `itable.lock`; `iput`'s freeing path is two steps, and other calls run between
them. A reference in the freeing path is not put again. -/
def itNext (s : ItState) : ItEv → Outcome ItState
  | .iget dev inum =>
    match iget s.slots dev inum with
    | .ok (t, k) => .ok { s with slots := t, held := s.held + {k} }
    | .error m => .panic m
  | .idup k => if k ∈ s.held then .ok { s with slots := idup s.slots k, held := s.held + {k} } else .blocked
  | .iput k nlink =>
    if s.freeing.count k < s.held.count k then
      if (s.slots[k]?.map (·.frees nlink)).getD false then .ok { s with freeing := s.freeing + {k} }
      else .ok { s with slots := iputDec s.slots k, held := s.held.erase k }
    else .blocked
  | .iputFree k =>
    if k ∈ s.freeing then .ok ⟨iputFree s.slots k, s.held.erase k, s.freeing.erase k⟩ else .blocked
  | .ilock k =>
    -- a reference in `iput`'s freeing path holds the sleep-lock already
    if s.freeing.count k < s.held.count k then .ok { s with slots := ilock s.slots k } else .blocked

/-- After `iinit`: `NINODE` zeroed slots, and no reference held. -/
def itSys : System ItState ItEv where
  init := ⟨List.replicate nInode Slot.empty, 0, 0⟩
  next := itNext

/-- What holds between the calls. -/
structure ItInv (s : ItState) : Prop where
  keys : Keys s.slots
  /-- Each slot's `ref` is the number of references held on it. -/
  ref_held : ∀ k, refAt s.slots k = s.held.count k
  freeing_le : s.freeing ≤ s.held
  length : s.slots.length = nInode

section Inv

variable {t : List Slot} {k : Nat} {H H' : Multiset Nat}

/-- One slot's `ref` moves as the references held on it do. -/
theorem refAt_modify_held (hr : ∀ j, refAt t j = H.count j) {f : Slot → Slot} {x : Slot} (hk : t[k]? = some x)
    (hcount : (f x).ref + H.count k = H'.count k + x.ref) (hother : ∀ j, j ≠ k → H'.count j = H.count j) :
    ∀ j, refAt (t.modify k f) j = H'.count j := by
  intro j
  rw [refAt_modify hk]
  rcases eq_or_ne k j with rfl | hj
  · have hx : refAt t k = x.ref := by simp [refAt, hk]
    rw [if_pos rfl]
    have := hr k
    omega
  · rw [if_neg hj, hr j, hother j (Ne.symm hj)]

theorem getElem?_of_held (hr : ∀ j, refAt t j = H.count j) (hk : k ∈ H) : ∃ x, t[k]? = some x ∧ 0 < x.ref := by
  have hpos := Multiset.count_pos.mpr hk
  rw [← hr k] at hpos
  unfold refAt at hpos
  cases hx : t[k]? with
  | none => simp [hx] at hpos
  | some x =>
    rw [hx] at hpos
    exact ⟨x, rfl, hpos⟩

theorem itInv_init : ItInv itSys.init where
  keys := keys_replicate_empty nInode
  ref_held := fun k => by
    simp only [itSys, refAt, Multiset.count_zero]
    rw [List.getElem?_replicate]
    split <;> rfl
  freeing_le := le_refl 0
  length := List.length_replicate

theorem ItInv.iget {s : ItState} (h : ItInv s) {dev inum : Nat} {t' : List Slot}
    (hg : iget s.slots dev inum = .ok (t', k)) : ItInv { s with slots := t', held := s.held + {k} } := by
  obtain ⟨hkeys, -⟩ := h.keys.iget hg
  refine ⟨hkeys, ?_, h.freeing_le.trans (Multiset.le_add_right _ _), ?_⟩
  · rcases iget_eq_ok hg with ⟨hh, rfl⟩ | ⟨hh, he, rfl⟩
    · obtain ⟨hlt, -, -⟩ := List.findIdx?_eq_some_iff_getElem.mp hh
      exact refAt_modify_held h.ref_held (List.getElem?_eq_getElem hlt) (by simp; omega)
        (fun j hj => by simp [hj])
    · obtain ⟨hlt, hx, -⟩ := List.findIdx?_eq_some_iff_getElem.mp he
      refine refAt_modify_held h.ref_held (List.getElem?_eq_getElem hlt) ?_
        (fun j hj => by simp [hj])
      have := h.ref_held k
      simp only [refAt, List.getElem?_eq_getElem hlt, Option.map_some, Option.getD_some] at this
      simp only [beq_iff_eq] at hx
      simp only [Slot.recycle, Multiset.count_add, Multiset.count_singleton_self]
      omega
  · rcases iget_eq_ok hg with ⟨-, rfl⟩ | ⟨-, -, rfl⟩
    · rw [List.length_modify]
      exact h.length
    · rw [List.length_modify]
      exact h.length

theorem ItInv.idup {s : ItState} (h : ItInv s) (hk : k ∈ s.held) :
    ItInv { s with slots := idup s.slots k, held := s.held + {k} } := by
  obtain ⟨x, hx, hpos⟩ := getElem?_of_held h.ref_held hk
  refine ⟨h.keys.of_modify fun y hy dev inum hyh => ?_, refAt_modify_held h.ref_held hx (by simp; omega)
    (fun j hj => by simp [hj]), h.freeing_le.trans (Multiset.le_add_right _ _), ?_⟩
  · rw [hx, Option.some.injEq] at hy
    subst hy
    simp only [Slot.holds, Bool.and_eq_true, decide_eq_true_eq] at hyh ⊢
    exact ⟨⟨hpos, hyh.1.2⟩, hyh.2⟩
  · rw [Itable.idup, List.length_modify]
    exact h.length

/-- Lowering a slot's `ref` gives it no key. -/
theorem Keys.dec (h : Keys t) : Keys (iputDec t k) :=
  h.of_modify fun x _ dev inum hxh => by
    simp only [Slot.holds, Bool.and_eq_true, decide_eq_true_eq] at hxh ⊢
    exact ⟨⟨by omega, hxh.1.2⟩, hxh.2⟩

theorem ItInv.iputDec {s : ItState} (h : ItInv s) (hk : s.freeing.count k < s.held.count k) :
    ItInv { s with slots := iputDec s.slots k, held := s.held.erase k } := by
  have hmem : k ∈ s.held := Multiset.count_pos.mp (by omega)
  obtain ⟨x, hx, hpos⟩ := getElem?_of_held h.ref_held hmem
  refine ⟨h.keys.dec, refAt_modify_held h.ref_held hx ?_ (fun j hj => Multiset.count_erase_of_ne hj _), ?_, ?_⟩
  · rw [Multiset.count_erase_self]
    simp only
    omega
  · rw [Multiset.le_iff_count]
    intro j
    dsimp only
    rcases eq_or_ne j k with rfl | hj
    · rw [Multiset.count_erase_self]
      omega
    · rw [Multiset.count_erase_of_ne hj]
      exact Multiset.le_iff_count.mp h.freeing_le j
  · rw [Itable.iputDec, List.length_modify]
    exact h.length

theorem ItInv.iputEnter {s : ItState} (h : ItInv s) (hk : s.freeing.count k < s.held.count k) :
    ItInv { s with freeing := s.freeing + {k} } := by
  refine ⟨h.keys, h.ref_held, ?_, h.length⟩
  rw [Multiset.le_iff_count]
  intro j
  dsimp only
  have := Multiset.le_iff_count.mp h.freeing_le j
  rcases eq_or_ne j k with rfl | hj
  · rw [Multiset.count_add, Multiset.count_singleton_self]
    omega
  · rw [Multiset.count_add, Multiset.count_singleton, if_neg hj]
    omega

theorem ItInv.iputFree {s : ItState} (h : ItInv s) (hk : k ∈ s.freeing) :
    ItInv ⟨iputFree s.slots k, s.held.erase k, s.freeing.erase k⟩ := by
  have hmem : k ∈ s.held := Multiset.mem_of_le h.freeing_le hk
  obtain ⟨x, hx, hpos⟩ := getElem?_of_held h.ref_held hmem
  have hx' : (s.slots.modify k fun x => { x with valid := false })[k]? = some { x with valid := false } := by
    simp [hx]
  have hr1 : ∀ j, refAt (s.slots.modify k fun x => { x with valid := false }) j = s.held.count j := by
    refine refAt_modify_held h.ref_held hx (Nat.add_comm _ _) (fun j _ => rfl)
  have hkeys1 : Keys (s.slots.modify k fun x => { x with valid := false }) :=
    h.keys.of_modify fun y _ dev inum hyh => by simpa [Slot.holds] using hyh
  refine ⟨hkeys1.dec, refAt_modify_held hr1 hx' ?_ (fun j hj => Multiset.count_erase_of_ne hj _), ?_, ?_⟩
  · rw [Multiset.count_erase_self]
    simp only
    have := Multiset.count_pos.mpr hmem
    omega
  · exact Multiset.erase_le_erase k h.freeing_le
  · rw [Itable.iputFree, Itable.iputDec, List.length_modify, List.length_modify]
    exact h.length

theorem ItInv.ilock {s : ItState} (h : ItInv s) (hk : s.freeing.count k < s.held.count k) :
    ItInv { s with slots := ilock s.slots k } := by
  have hmem : k ∈ s.held := Multiset.count_pos.mp (by omega)
  obtain ⟨x, hx, -⟩ := getElem?_of_held h.ref_held hmem
  refine ⟨h.keys.of_modify fun y _ dev inum hyh => by simpa [Slot.holds] using hyh,
    refAt_modify_held h.ref_held hx (Nat.add_comm _ _) (fun j _ => rfl), h.freeing_le, ?_⟩
  rw [Itable.ilock, List.length_modify]
  exact h.length

theorem ItInv.next {s s' : ItState} (h : ItInv s) {e : ItEv} (hn : itNext s e = .ok s') : ItInv s' := by
  cases e with
  | iget dev inum =>
    dsimp only [itNext] at hn
    split at hn
    · cases hn
      exact h.iget ‹_›
    · cases hn
  | idup k =>
    dsimp only [itNext] at hn
    split at hn
    · cases hn
      exact h.idup ‹_›
    · cases hn
  | iput k nlink =>
    dsimp only [itNext] at hn
    split at hn
    · rename_i hk
      split at hn
      · cases hn
        exact h.iputEnter hk
      · cases hn
        exact h.iputDec hk
    · cases hn
  | iputFree k =>
    dsimp only [itNext] at hn
    split at hn
    · cases hn
      exact h.iputFree ‹_›
    · cases hn
  | ilock k =>
    dsimp only [itNext] at hn
    split at hn
    · cases hn
      exact h.ilock ‹_›
    · cases hn

theorem itInv_reachable {s : ItState} (hs : Reachable itSys s) : ItInv s :=
  Reachable.induct itSys itInv_init (fun _ _ _ hi hn => hi.next hn) hs

/-- Slots that all have a reference and unique keys hold distinct inodes. -/
theorem Keys.nodup (h : Keys t) (hlive : ∀ x ∈ t, 0 < x.ref) : (t.map fun x => (x.dev, x.inum)).Nodup := by
  rw [List.nodup_iff_count_le_one]
  rintro ⟨dev, inum⟩
  rw [List.count, List.countP_map]
  refine le_trans (List.countP_mono_left fun x hx hxe => ?_) (h dev inum)
  simp only [Function.comp_apply, beq_iff_eq, Prod.mk.injEq] at hxe
  simp [Slot.holds, hlive x hx, hxe.1, hxe.2]

/-- In every state the callers of `iget`, `idup` and `iput` reach, in any interleaving and with the
freeing path of an `iput` open: no two slots with a reference hold the same inode, each slot's `ref`
is the number of references held on it, and `iget` panics only when all `NINODE` slots hold
references to distinct other inodes. -/
theorem itable_keys {s : ItState} (hs : Reachable itSys s) :
    (∀ (j j' : Nat) (x y : Slot), s.slots[j]? = some x → s.slots[j']? = some y → 0 < x.ref → 0 < y.ref →
      x.dev = y.dev → x.inum = y.inum → j = j') ∧
    (∀ k, refAt s.slots k = s.held.count k) ∧
    (∀ dev inum m, itNext s (.iget dev inum) = .panic m →
      m = "iget: no inodes" ∧ s.slots.length = nInode ∧ (s.slots.map fun x => (x.dev, x.inum)).Nodup ∧
        ∀ x ∈ s.slots, 0 < x.ref ∧ ¬ (x.dev = dev ∧ x.inum = inum)) := by
  have h := itInv_reachable hs
  refine ⟨fun j j' x y hx hy hxr hyr hd hi => ?_, h.ref_held, fun dev inum m hp => ?_⟩
  · have hxh : x.holds x.dev x.inum := by simp [Slot.holds, hxr]
    have hyh : y.holds x.dev x.inum := by simp [Slot.holds, hyr, hd, hi]
    exact h.keys.eq hx hy hxh hyh
  · simp only [itNext] at hp
    split at hp
    · cases hp
    rename_i m' hg
    cases hp
    obtain ⟨rfl, hnone, hlive⟩ := iget_eq_error hg
    refine ⟨rfl, h.length, h.keys.nodup hlive, fun x hx => ⟨hlive x hx, fun hk => ?_⟩⟩
    have := hnone x hx
    simp [Slot.holds, hlive x hx, hk.1, hk.2] at this

/-- Inode 5's last reference enters `iput`'s freeing path; inode 7 then gets a slot of its own,
since slot 1 still has its reference, and once the path ends inode 9 takes slot 1 over. -/
theorem itable_keys_recycled :
    ∃ s, Reachable itSys s ∧ (s.slots.take 3).map (fun x => (x.inum, x.ref)) = [(1, 2), (9, 1), (7, 1)] ∧
    (∀ (j j' : Nat) (x y : Slot), s.slots[j]? = some x → s.slots[j']? = some y → 0 < x.ref → 0 < y.ref →
      x.dev = y.dev → x.inum = y.inum → j = j') ∧
    (∀ k, refAt s.slots k = s.held.count k) ∧
    (∀ dev inum m, itNext s (.iget dev inum) = .panic m →
      m = "iget: no inodes" ∧ s.slots.length = nInode ∧ (s.slots.map fun x => (x.dev, x.inum)).Nodup ∧
        ∀ x ∈ s.slots, 0 < x.ref ∧ ¬ (x.dev = dev ∧ x.inum = inum)) := by
  have hrun : (run itSys itSys.init
      [.iget 1 1, .iget 1 5, .ilock 1, .idup 0, .iput 1 0, .iget 1 7, .iputFree 1, .iget 1 9]).holds
      (fun s => (s.slots.take 3).map (fun x => (x.inum, x.ref)) == [(1, 2), (9, 1), (7, 1)]) = true := by
    decide +kernel
  obtain ⟨s, hs, hp⟩ := Reachable.run_holds _ .init hrun
  exact ⟨s, hs, beq_iff_eq.mp hp, itable_keys hs⟩

end Inv

/-! ## The slots refine the counts of `Fs.Names` -/

/-- The slots `t` represent the counts and the `valid` flags of `s`: the inodes with a slot are on
`ROOTDEV` and below `ninodes`, each inode's count is the `ref` of its slot, and a slot in use has
the inode's `valid`. -/
structure Rep (t : List Slot) (s : FsState) : Prop where
  length : t.length = nInode
  keys : Keys t
  live : ∀ x ∈ t, 0 < x.ref → x.dev = rootDev ∧ x.inum < s.ninodes
  ref : ∀ i, refOf t rootDev i = s.ref i
  valid : ∀ x ∈ t, 0 < x.ref → x.valid = s.valid x.inum

section Rep

variable {t : List Slot} {k : Nat} {s : FsState}

theorem refOf_modify {f : Slot → Slot} {x : Slot} (hk : t[k]? = some x) (dev inum : Nat) :
    refOf (t.modify k f) dev inum + (if x.holds dev inum then x.ref else 0) =
      refOf t dev inum + (if (f x).holds dev inum then (f x).ref else 0) := by
  unfold refOf
  rw [modify_of_getElem? hk]
  exact sum_map_set _ t k (f x) x hk

theorem refOf_eq_zero {dev inum : Nat} (h : ∀ x ∈ t, x.holds dev inum = false) : refOf t dev inum = 0 := by
  apply List.sum_eq_zero
  intro n hn
  obtain ⟨x, hx, rfl⟩ := List.mem_map.mp hn
  simp [h x hx]

theorem exists_holds_of_refOf {dev inum : Nat} (hpos : 0 < refOf t dev inum) : ∃ x ∈ t, x.holds dev inum := by
  by_contra hno
  have hz : refOf t dev inum = 0 := refOf_eq_zero fun x hx => by
    cases hh : x.holds dev inum
    · rfl
    · exact absurd ⟨x, hx, hh⟩ hno
  omega

/-- Under unique keys an inode's count is the `ref` of the slot that holds it. -/
theorem Keys.refOf_eq (h : Keys t) {x : Slot} (hk : t[k]? = some x) {dev inum : Nat} (hx : x.holds dev inum) :
    refOf t dev inum = x.ref := by
  have e := refOf_modify (f := fun y => { y with ref := 0 }) hk dev inum
  have hz : ({ x with ref := 0 } : Slot).holds dev inum = false := by simp [Slot.holds]
  have hc := countP_modify (·.holds dev inum) (f := fun y => { y with ref := 0 }) hk
  rw [hx, hz] at hc
  simp only [if_true, Bool.false_eq_true, if_false, add_zero] at hc
  have hone := h dev inum
  have hnone : refOf (t.modify k fun y => { y with ref := 0 }) dev inum = 0 := by
    apply refOf_eq_zero
    intro y hy
    by_contra hyh
    have : 0 < (t.modify k fun y => { y with ref := 0 }).countP (·.holds dev inum) :=
      List.countP_pos_iff.mpr ⟨y, hy, by simpa using hyh⟩
    omega
  rw [hx, hz, hnone] at e
  simpa using e.symm

theorem Slot.holds_ref {x : Slot} {dev inum : Nat} (h : x.holds dev inum) : 0 < x.ref := by
  simp only [Slot.holds, Bool.and_eq_true, decide_eq_true_eq] at h
  exact h.1.1

/-- The inodes with a slot in use are those `Fs.Names` counts as in use. -/
theorem Rep.inUse (hr : Rep t s) : s.inUse = t.countP fun x => 0 < x.ref := by
  have hnd : ((t.filter fun x => 0 < x.ref).map Slot.inum).Nodup := by
    rw [List.nodup_iff_count_le_one]
    intro i
    rw [List.count, List.countP_map, List.countP_filter]
    refine le_trans (List.countP_mono_left fun x hx hxi => ?_) (hr.keys rootDev i)
    simp only [Function.comp_apply, Bool.and_eq_true, beq_iff_eq, decide_eq_true_eq] at hxi
    simp [Slot.holds, hxi.2, (hr.live x hx hxi.2).1, hxi.1]
  have hperm : ((t.filter fun x => 0 < x.ref).map Slot.inum).Perm
      ((List.range s.ninodes).filter fun i => 0 < s.ref i) := by
    refine (List.perm_ext_iff_of_nodup hnd (List.nodup_range.filter _)).mpr fun i => ?_
    simp only [List.mem_map, List.mem_filter, List.mem_range, decide_eq_true_eq]
    constructor
    · rintro ⟨x, ⟨hx, hpos⟩, rfl⟩
      obtain ⟨hdev, hlt⟩ := hr.live x hx hpos
      obtain ⟨j, hj⟩ := List.mem_iff_getElem?.mp hx
      refine ⟨hlt, ?_⟩
      rw [← hr.ref, hr.keys.refOf_eq hj (by simp [Slot.holds, hpos, hdev])]
      exact hpos
    · rintro ⟨-, hpos⟩
      rw [← hr.ref] at hpos
      obtain ⟨x, hx, hh⟩ := exists_holds_of_refOf hpos
      simp only [Slot.holds, Bool.and_eq_true, decide_eq_true_eq, beq_iff_eq] at hh
      exact ⟨x, ⟨hx, hh.1.1⟩, hh.2⟩
  rw [FsState.inUse, ← hperm.length_eq, List.length_map, List.countP_eq_length_filter]

theorem mem_modify {f : Slot → Slot} {x y : Slot} (hk : t[k]? = some x) (hy : y ∈ t.modify k f) :
    y ∈ t ∨ y = f x := by
  rw [modify_of_getElem? hk] at hy
  exact List.mem_or_eq_of_mem_set hy

theorem Rep.holds_iff (hr : Rep t s) {x : Slot} (hx : x ∈ t) (hpos : 0 < x.ref) (i : Nat) :
    x.holds rootDev i ↔ x.inum = i := by
  simp [Slot.holds, hpos, (hr.live x hx hpos).1]

/-- After `iinit` the zeroed slots represent a state where no inode has a reference. -/
theorem Rep.empty (h : ∀ i, s.ref i = 0) : Rep (List.replicate nInode Slot.empty) s where
  length := List.length_replicate
  keys := keys_replicate_empty nInode
  live := fun x hx hpos => by
    rw [List.eq_of_mem_replicate hx] at hpos
    exact absurd hpos (lt_irrefl 0)
  ref := fun i => by
    rw [h, refOf_eq_zero]
    intro x hx
    rw [List.eq_of_mem_replicate hx]
    rfl
  valid := fun x hx hpos => by
    rw [List.eq_of_mem_replicate hx] at hpos
    exact absurd hpos (lt_irrefl 0)

/-- One more reference to a slot in use is one more to its inode. -/
theorem Rep.incr (hr : Rep t s) {x : Slot} (hk : t[k]? = some x) (hx : 0 < x.ref) {s' : FsState}
    (hn : s'.ninodes = s.ninodes) (href : s'.ref = Function.update s.ref x.inum (s.ref x.inum + 1))
    (hv : s'.valid = s.valid) : Rep (t.modify k fun y => { y with ref := y.ref + 1 }) s' where
  length := by rw [List.length_modify, hr.length]
  keys := hr.keys.of_modify fun y hy dev inum hyh => by
    rw [hk, Option.some.injEq] at hy
    subst hy
    simp only [Slot.holds, Bool.and_eq_true, decide_eq_true_eq] at hyh ⊢
    exact ⟨⟨hx, hyh.1.2⟩, hyh.2⟩
  live := fun y hy hpos => by
    rw [hn]
    rcases mem_modify hk hy with hy | rfl
    · exact hr.live y hy hpos
    · exact hr.live x (List.mem_of_getElem? hk) hx
  ref := fun i => by
    have hxt := List.mem_of_getElem? hk
    have e := refOf_modify (f := fun y => { y with ref := y.ref + 1 }) hk rootDev i
    have hnew : ({ x with ref := x.ref + 1 } : Slot).holds rootDev i ↔ x.inum = i := by
      simp [Slot.holds, (hr.live x hxt hx).1]
    rw [href]
    rcases eq_or_ne i x.inum with rfl | hi
    · rw [if_pos ((hr.holds_iff hxt hx _).mpr rfl), if_pos (hnew.mpr rfl), hr.ref] at e
      rw [Function.update_self]
      dsimp only at e
      omega
    · rw [if_neg (by rw [hr.holds_iff hxt hx]; exact Ne.symm hi), if_neg (by rw [hnew]; exact Ne.symm hi),
        hr.ref] at e
      rw [Function.update_of_ne hi]
      omega
  valid := fun y hy hpos => by
    rw [hv]
    rcases mem_modify hk hy with hy | rfl
    · exact hr.valid y hy hpos
    · exact hr.valid x (List.mem_of_getElem? hk) hx

/-- An empty slot recycled for an inode with no slot is its only reference, not yet valid. -/
theorem Rep.recycle (hr : Rep t s) {inum : Nat} (hi : inum < s.ninodes)
    (hnone : t.findIdx? (·.holds rootDev inum) = none) {x : Slot} (hk : t[k]? = some x) (h0 : x.ref = 0)
    {s' : FsState} (hn : s'.ninodes = s.ninodes) (href : s'.ref = Function.update s.ref inum 1)
    (hv : s'.valid = Function.update s.valid inum false) : Rep (t.modify k (·.recycle rootDev inum)) s' where
  length := by rw [List.length_modify, hr.length]
  keys := hr.keys.recycle hnone hk h0
  live := fun y hy hpos => by
    rw [hn]
    rcases mem_modify hk hy with hy | rfl
    · exact hr.live y hy hpos
    · exact ⟨rfl, hi⟩
  ref := fun i => by
    have e := refOf_modify (f := (·.recycle rootDev inum)) hk rootDev i
    have hold : x.holds rootDev i = false := by simp [Slot.holds, h0]
    have h0' : s.ref inum = 0 := by
      rw [← hr.ref]
      exact refOf_eq_zero (List.findIdx?_eq_none_iff.mp hnone)
    rw [hold] at e
    rcases eq_or_ne i inum with rfl | hne
    · have hnew : (x.recycle rootDev i).holds rootDev i = true := by simp [Slot.recycle, Slot.holds]
      have h1 : (x.recycle rootDev i).ref = 1 := rfl
      rw [hnew, if_pos rfl, h1, if_neg Bool.false_ne_true, add_zero] at e
      rw [href, Function.update_self]
      rw [← hr.ref] at h0'
      omega
    · have hnew : (x.recycle rootDev inum).holds rootDev i = false := by
        simp [Slot.recycle, Slot.holds, Ne.symm hne]
      rw [hnew, if_neg Bool.false_ne_true, if_neg Bool.false_ne_true, add_zero, add_zero] at e
      rw [href, Function.update_of_ne hne, ← hr.ref]
      exact e
  valid := fun y hy hpos => by
    rw [hv]
    rcases mem_modify hk hy with hy | rfl
    · have hne : y.inum ≠ inum := fun he => by
        have := List.findIdx?_eq_none_iff.mp hnone y hy
        rw [(hr.holds_iff hy hpos inum).mpr he] at this
        cases this
      rw [Function.update_of_ne hne]
      exact hr.valid y hy hpos
    · simp [Slot.recycle]

/-- One reference fewer to a slot in use is one fewer to its inode. -/
theorem Rep.decr (hr : Rep t s) {x : Slot} (hk : t[k]? = some x) (hx : 0 < x.ref) {s' : FsState}
    (hn : s'.ninodes = s.ninodes) (href : s'.ref = Function.update s.ref x.inum (s.ref x.inum - 1))
    (hv : ∀ i, i ≠ x.inum → s'.valid i = s.valid i) (hvx : 1 < x.ref → s'.valid x.inum = s.valid x.inum) :
    Rep (iputDec t k) s' where
  length := by rw [iputDec, List.length_modify, hr.length]
  keys := hr.keys.dec
  live := fun y hy hpos => by
    rw [hn]
    rcases mem_modify hk hy with hy | rfl
    · exact hr.live y hy hpos
    · exact hr.live x (List.mem_of_getElem? hk) hx
  ref := fun i => by
    have hxt := List.mem_of_getElem? hk
    have e := refOf_modify (f := fun y => { y with ref := y.ref - 1 }) hk rootDev i
    have hxr : s.ref x.inum = x.ref := by rw [← hr.ref, hr.keys.refOf_eq hk ((hr.holds_iff hxt hx _).mpr rfl)]
    unfold Itable.iputDec
    rcases eq_or_ne i x.inum with rfl | hi
    · rw [href, Function.update_self, hxr]
      rw [if_pos ((hr.holds_iff hxt hx _).mpr rfl), hr.ref, hxr] at e
      split at e
      · dsimp only at e
        omega
      · rename_i hno
        have : x.ref - 1 = 0 := by
          simp [Slot.holds, (hr.live x hxt hx).1] at hno
          omega
        omega
    · have hnew : ({ x with ref := x.ref - 1 } : Slot).holds rootDev i = false := by
        simp [Slot.holds, (hr.live x hxt hx).1, Ne.symm hi]
      rw [if_neg (by rw [hr.holds_iff hxt hx]; exact Ne.symm hi), hnew, hr.ref] at e
      rw [href, Function.update_of_ne hi]
      simpa using e
  valid := fun y hy hpos => by
    obtain ⟨j, hj⟩ := List.mem_iff_getElem?.mp hy
    unfold Itable.iputDec at hj
    rw [List.getElem?_modify] at hj
    rcases eq_or_ne k j with rfl | hjk
    · rw [hk] at hj
      simp only [if_true, Option.map_eq_map, Option.map_some, Option.some.injEq] at hj
      subst hj
      dsimp only at hpos ⊢
      rw [hvx (by omega)]
      exact hr.valid x (List.mem_of_getElem? hk) hx
    · simp only [hjk, if_false, Option.map_eq_map, Option.map_id'] at hj
      have hyt := List.mem_of_getElem? hj
      have hne : y.inum ≠ x.inum := fun he => by
        have hyh := (hr.holds_iff hyt hpos x.inum).mpr he
        have hxh := (hr.holds_iff (List.mem_of_getElem? hk) hx x.inum).mpr rfl
        exact hjk (hr.keys.eq hk hj hxh hyh)
      rw [hv _ hne]
      exact hr.valid y hyt hpos

/-- A slot in use made not valid, as `iput`'s freeing path does before its `ip->ref--`. -/
theorem Rep.invalidate (hr : Rep t s) {x : Slot} (hk : t[k]? = some x) (hx : 0 < x.ref) {s' : FsState}
    (hn : s'.ninodes = s.ninodes) (href : s'.ref = s.ref) (hv : s'.valid = Function.update s.valid x.inum false) :
    Rep (t.modify k fun y => { y with valid := false }) s' where
  length := by rw [List.length_modify, hr.length]
  keys := hr.keys.of_modify fun y _ dev inum hyh => by simpa [Slot.holds] using hyh
  live := fun y hy hpos => by
    rw [hn]
    rcases mem_modify hk hy with hy | rfl
    · exact hr.live y hy hpos
    · exact hr.live x (List.mem_of_getElem? hk) hx
  ref := fun i => by
    have e := refOf_modify (f := fun y => { y with valid := false }) hk rootDev i
    have hsame : ({ x with valid := false } : Slot).holds rootDev i = x.holds rootDev i := rfl
    dsimp only at e
    rw [hsame] at e
    rw [href, ← hr.ref]
    omega
  valid := fun y hy hpos => by
    obtain ⟨j, hj⟩ := List.mem_iff_getElem?.mp hy
    rw [List.getElem?_modify] at hj
    rw [hv]
    rcases eq_or_ne k j with rfl | hjk
    · rw [hk] at hj
      simp only [if_true, Option.map_eq_map, Option.map_some, Option.some.injEq] at hj
      subst hj
      simp
    · simp only [hjk, if_false, Option.map_eq_map, Option.map_id'] at hj
      have hyt := List.mem_of_getElem? hj
      have hne : y.inum ≠ x.inum := fun he => by
        have hyh := (hr.holds_iff hyt hpos x.inum).mpr he
        have hxh := (hr.holds_iff (List.mem_of_getElem? hk) hx x.inum).mpr rfl
        exact hjk (hr.keys.eq hk hj hxh hyh)
      rw [Function.update_of_ne hne]
      exact hr.valid y hyt hpos

theorem fs_iget_of_pos {inum : Nat} (h : 0 < s.ref inum) :
    (Xv6.iget inum).run s = .ok ((), { s with ref := Function.update s.ref inum (s.ref inum + 1) }) := by
  simp [Xv6.iget, setRef, h]
  rfl

theorem fs_iget_of_new {inum : Nat} (h : s.ref inum = 0) (hu : s.inUse < nInode) :
    (Xv6.iget inum).run s =
      .ok ((), { s with ref := Function.update s.ref inum 1, valid := Function.update s.valid inum false }) := by
  simp [Xv6.iget, h, hu]
  rfl

theorem fs_iget_of_full {inum : Nat} (h : s.ref inum = 0) (hu : nInode ≤ s.inUse) :
    (Xv6.iget inum).run s = .error "iget: no inodes" := by
  simp [Xv6.iget, h, Nat.not_lt.mpr hu]
  rfl

/-- `iget` on the slots does what `Xv6.iget` does to the counts: one more reference to an inode with
a slot, a slot with no reference recycled for an inode without one, or the same panic when no slot
is free. -/
theorem iget_refines (hr : Rep t s) {inum : Nat} (hi : inum < s.ninodes) :
    (∃ t' k s', iget t rootDev inum = .ok (t', k) ∧ (Xv6.iget inum).run s = .ok ((), s') ∧ Rep t' s') ∨
      (iget t rootDev inum = .error "iget: no inodes" ∧ (Xv6.iget inum).run s = .error "iget: no inodes") := by
  cases hh : t.findIdx? (·.holds rootDev inum) with
  | some k =>
    obtain ⟨hlt, hx, -⟩ := List.findIdx?_eq_some_iff_getElem.mp hh
    have hk := List.getElem?_eq_getElem hlt
    have hpos : 0 < s.ref inum := by
      rw [← hr.ref, hr.keys.refOf_eq hk hx]
      exact Slot.holds_ref hx
    have hinum : t[k].inum = inum := (hr.holds_iff (List.getElem_mem hlt) (Slot.holds_ref hx) inum).mp hx
    refine .inl ⟨_, k, _, iget_of_holds hh, fs_iget_of_pos hpos, hr.incr hk (Slot.holds_ref hx) rfl ?_ rfl⟩
    rw [hinum]
  | none =>
    have h0 : s.ref inum = 0 := by
      rw [← hr.ref]
      exact refOf_eq_zero (List.findIdx?_eq_none_iff.mp hh)
    cases he : t.findIdx? (·.ref == 0) with
    | some k =>
      obtain ⟨hlt, hx, -⟩ := List.findIdx?_eq_some_iff_getElem.mp he
      have hfree : t[k].ref = 0 := by simpa using hx
      have huse : s.inUse < nInode := by
        rw [hr.inUse, ← hr.length]
        refine lt_of_le_of_ne List.countP_le_length fun heq => ?_
        have := List.countP_eq_length.mp heq t[k] (List.getElem_mem hlt)
        simp [hfree] at this
      exact .inl ⟨_, k, _, iget_of_recycle hh he, fs_iget_of_new h0 huse,
        hr.recycle hi hh (List.getElem?_eq_getElem hlt) hfree rfl rfl rfl⟩
    | none =>
      have huse : nInode ≤ s.inUse := by
        rw [hr.inUse, ← hr.length, List.countP_eq_length.mpr]
        intro x hx
        have := List.findIdx?_eq_none_iff.mp he x hx
        simp only [beq_eq_false_iff_ne, ne_eq] at this
        simpa using Nat.pos_of_ne_zero this
      exact .inr ⟨iget_of_full hh he, fs_iget_of_full h0 huse⟩

/-- A second `iget` of the root inode, which already has a slot. -/
theorem iget_refines_root_again :
    (∃ t' k s', iget ((List.replicate nInode Slot.empty).modify 0 (·.recycle rootDev rootIno)) rootDev rootIno =
          .ok (t', k) ∧
        (Xv6.iget rootIno).run { (fsSys 0).init with
          ref := Function.update (fsSys 0).init.ref rootIno 1
          valid := Function.update (fsSys 0).init.valid rootIno false } = .ok ((), s') ∧ Rep t' s') ∨
      (iget ((List.replicate nInode Slot.empty).modify 0 (·.recycle rootDev rootIno)) rootDev rootIno =
          .error "iget: no inodes" ∧
        (Xv6.iget rootIno).run { (fsSys 0).init with
          ref := Function.update (fsSys 0).init.ref rootIno 1
          valid := Function.update (fsSys 0).init.valid rootIno false } = .error "iget: no inodes") :=
  have h0 : Rep (List.replicate nInode Slot.empty) (fsSys 0).init := Rep.empty fun i => by simp [fsSys]
  have h1 : Rep ((List.replicate nInode Slot.empty).modify 0 (·.recycle rootDev rootIno)) { (fsSys 0).init with
      ref := Function.update (fsSys 0).init.ref rootIno 1
      valid := Function.update (fsSys 0).init.valid rootIno false } :=
    h0.recycle (by decide) (by decide) rfl rfl rfl rfl rfl
  iget_refines h1 (by decide)

/-- `idup` of a slot in use does what `Xv6.idup` does to the counts. -/
theorem idup_refines (hr : Rep t s) {x : Slot} (hk : t[k]? = some x) (hx : 0 < x.ref) :
    ∃ s', (Xv6.idup x.inum).run s = .ok ((), s') ∧ Rep (idup t k) s' :=
  ⟨{ s with ref := Function.update s.ref x.inum (s.ref x.inum + 1) }, by simp [Xv6.idup, setRef]; rfl,
    hr.incr hk hx rfl rfl rfl⟩

/-- `iput` of a slot in use, its freeing path run through when it takes it, does what `Xv6.iput`
does to the counts: one reference fewer, and the last reference to a valid inode with no links
leaves it not valid. -/
theorem iput_refines (hr : Rep t s) {x : Slot} (hk : t[k]? = some x) (hx : 0 < x.ref) :
    ∃ s', (Xv6.iput x.inum).run s = .ok ((), s') ∧
      Rep (if x.frees (s.inode x.inum).nlink then iputFree t k else iputDec t k) s' := by
  have hxt := List.mem_of_getElem? hk
  have hxr : s.ref x.inum = x.ref := by rw [← hr.ref, hr.keys.refOf_eq hk ((hr.holds_iff hxt hx _).mpr rfl)]
  have hxv : s.valid x.inum = x.valid := (hr.valid x hxt hx).symm
  by_cases hc : s.ref x.inum = 1 ∧ s.valid x.inum = true ∧ (s.inode x.inum).nlink = 0
  · have hf : x.frees (s.inode x.inum).nlink = true := by
      simp only [Slot.frees, Bool.and_eq_true, beq_iff_eq]
      rw [← hxr, ← hxv]
      exact ⟨⟨hc.1, hc.2.1⟩, hc.2.2⟩
    rw [if_pos hf]
    have hr1 : Rep (t.modify k fun y => { y with valid := false })
        { s with valid := Function.update s.valid x.inum false } := hr.invalidate hk hx rfl rfl rfl
    have hk1 : (t.modify k fun y => { y with valid := false })[k]? = some { x with valid := false } := by simp [hk]
    refine ⟨?_, ?_, ?_⟩
    rotate_left
    · simp [Xv6.iput, hc, itrunc, setInode]
      rfl
    · refine hr1.decr hk1 hx rfl (by dsimp only; rw [hc.1]; rfl) (fun i _ => rfl) fun h1 => ?_
      dsimp only at h1
      omega
  · have hf : x.frees (s.inode x.inum).nlink = false := by
      simp only [Slot.frees, Bool.and_eq_false_iff, beq_eq_false_iff_ne, ne_eq]
      rw [← hxr, ← hxv]
      by_contra hno
      push Not at hno
      exact hc ⟨hno.1.1, by simpa using hno.1.2, hno.2⟩
    rw [if_neg (by simp [hf])]
    refine ⟨?_, ?_, ?_⟩
    rotate_left
    · simp [Xv6.iput, hc]
      rfl
    · exact hr.decr hk hx rfl rfl (fun i _ => rfl) (fun _ => rfl)

theorem iput_refines_root :
    ∃ s', (Xv6.iput rootIno).run { (fsSys 0).init with
          ref := Function.update (fsSys 0).init.ref rootIno 1
          valid := Function.update (fsSys 0).init.valid rootIno false } = .ok ((), s') ∧
      Rep (if (Slot.empty.recycle rootDev rootIno).frees ((fsSys 0).init.inode rootIno).nlink
        then iputFree ((List.replicate nInode Slot.empty).modify 0 (·.recycle rootDev rootIno)) 0
        else iputDec ((List.replicate nInode Slot.empty).modify 0 (·.recycle rootDev rootIno)) 0) s' :=
  have h0 : Rep (List.replicate nInode Slot.empty) (fsSys 0).init := Rep.empty fun i => by simp [fsSys]
  have h1 : Rep ((List.replicate nInode Slot.empty).modify 0 (·.recycle rootDev rootIno)) { (fsSys 0).init with
      ref := Function.update (fsSys 0).init.ref rootIno 1
      valid := Function.update (fsSys 0).init.valid rootIno false } :=
    h0.recycle (by decide) (by decide) rfl rfl rfl rfl rfl
  iput_refines h1 (x := Slot.empty.recycle rootDev rootIno) rfl (by decide)

end Rep

end Xv6.Itable
