import Mathlib
import Xv6.Param

/-!
# The buffer cache (`bio.c`)

`struct buf` as the cache and its callers read it, and `bcache`'s list in its order from
`head.next`: the most recently released buffer first. `bget` looks for the block's buffer, and
otherwise takes over the free buffer nearest the tail, the least recently used; `brelse` moves a
buffer that falls free to the head; `bpin` and `bunpin` change the count with no owner recorded.

* `Buf`, `binit`, `bget`, `brelse`, `bpin`, `bunpin`; `lookup` and `modify`, the buffer of a block;
* `bget_eq_ok`, `bget_eq_error` : `bget` gave the cached buffer one more reference, or took over a
  free buffer with every buffer behind it busy, or panicked because the block is not cached and
  no buffer is free;
* `brelse_perm` : what `brelse` leaves is the list with the buffer's count lowered, reordered;
* `Keys` : no two buffers cache one block; every function keeps it.
-/

namespace Xv6.Bio

/-- The fields of `struct buf` that `bio.c` and its callers read. -/
structure Buf (α : Type) where
  /-- `blockno`, `none` until the buffer first caches a block (`binit` leaves `dev` at 0, which no
  caller asks for) -/
  blockno : Option Nat
  valid : Bool
  /-- `uint refcnt`: the increments of `bget` and `bpin` count references and pins, which `NPROC`
  and `LOGSIZE` keep far below `2^32`; the decrements of `brelse` and `bunpin` check nothing and
  wrap at `0` (`uintDec`) -/
  refcnt : Nat
  /-- the process holding `b->lock` -/
  holder : Option Nat
  data : α
  deriving DecidableEq, Repr

variable {α : Type}

/-- `x--` on a `uint`: `0` wraps to `2^32 - 1`. -/
def uintDec (x : Nat) : Nat := if x = 0 then 2 ^ 32 - 1 else x - 1

theorem uintDec_of_pos {x : Nat} (h : 0 < x) : uintDec x = x - 1 := if_neg (Nat.pos_iff_ne_zero.mp h)

/-- On the values a `uint` holds, `uintDec` is the decrement of `UInt32`. -/
theorem uintDec_eq_toNat {x : Nat} (h : x < 2 ^ 32) : uintDec x = (x.toUInt32 - 1).toNat := by
  unfold uintDec
  split
  · next h0 =>
    subst h0
    rfl
  · next h0 =>
    have hle : (1 : UInt32) ≤ x.toUInt32 := by
      rw [UInt32.le_iff_toNat_le, UInt32.toNat_one, Nat.toUInt32_eq, UInt32.toNat_ofNat_of_lt' h]
      omega
    rw [UInt32.toNat_sub_of_le _ _ hle, Nat.toUInt32_eq, UInt32.toNat_ofNat_of_lt' h, UInt32.toNat_one]

/-- Whether `x` caches block `b`. -/
def Buf.caches (x : Buf α) (b : Nat) : Bool := x.blockno == some b

/-- `binit`: `n` buffers caching nothing. -/
def binit (n : Nat) (zero : α) : List (Buf α) := List.replicate n ⟨none, false, 0, none, zero⟩

/-- The buffer of block `b`: `bget`'s first loop. -/
def lookup (bufs : List (Buf α)) (b : Nat) : Option (Buf α) := bufs.find? (·.caches b)

/-- The list with the buffer of block `b` changed by `f`. -/
def modify (bufs : List (Buf α)) (b : Nat) (f : Buf α → Buf α) : List (Buf α) :=
  bufs.map fun x => if x.caches b then f x else x

/-- A free buffer taken over for block `b`. -/
def Buf.recycle (x : Buf α) (b : Nat) : Buf α := { x with blockno := some b, valid := false, refcnt := 1 }

/-- The first free buffer of a list taken over for block `b`. -/
def recycleFirst (b : Nat) : List (Buf α) → Option (List (Buf α))
  | [] => none
  | x :: xs => if x.refcnt = 0 then some (x.recycle b :: xs) else (recycleFirst b xs).map (x :: ·)

/-- `bget`'s second loop, which runs from `head.prev`: the free buffer nearest the tail. -/
def recycle (b : Nat) (bufs : List (Buf α)) : Option (List (Buf α)) :=
  (recycleFirst b bufs.reverse).map List.reverse

/-- `bget` up to its `acquiresleep`: the buffer of block `b` with one more reference. -/
def bget (bufs : List (Buf α)) (b : Nat) : Except String (List (Buf α)) :=
  match lookup bufs b with
  | some _ => .ok (modify bufs b fun x => { x with refcnt := x.refcnt + 1 })
  | none =>
    match recycle b bufs with
    | some bufs' => .ok bufs'
    | none => .error "bget: no buffers"

/-- `brelse` by process `p`, which must hold the buffer: the lock is released, the count drops,
and a buffer that falls free moves to the head. -/
def brelse (bufs : List (Buf α)) (p b : Nat) : Except String (List (Buf α)) :=
  match lookup bufs b with
  | some x =>
    if x.holder = some p then
      if uintDec x.refcnt = 0 then
        .ok ({ x with holder := none, refcnt := 0 } :: bufs.filter fun y => !y.caches b)
      else .ok (modify bufs b fun y => { y with holder := none, refcnt := uintDec y.refcnt })
    else .error "brelse"
  | none => .error "brelse"

/-- `bpin` -/
def bpin (bufs : List (Buf α)) (b : Nat) : List (Buf α) :=
  modify bufs b fun x => { x with refcnt := x.refcnt + 1 }

/-- `bunpin` -/
def bunpin (bufs : List (Buf α)) (b : Nat) : List (Buf α) :=
  modify bufs b fun x => { x with refcnt := uintDec x.refcnt }

/-- No two buffers cache one block. -/
def Keys (bufs : List (Buf α)) : Prop := ∀ b, bufs.countP (·.caches b) ≤ 1

/-! ## `lookup` and `modify` -/

theorem Buf.caches_iff {x : Buf α} {b : Nat} : x.caches b = true ↔ x.blockno = some b := by
  simp [Buf.caches]

theorem lookup_eq_some {bufs : List (Buf α)} {b : Nat} {x : Buf α} (h : lookup bufs b = some x) :
    x ∈ bufs ∧ x.blockno = some b := by
  unfold lookup at h
  have hx := List.find?_some h
  exact ⟨List.mem_of_find?_eq_some h, Buf.caches_iff.mp hx⟩

theorem lookup_eq_none {bufs : List (Buf α)} {b : Nat} :
    lookup bufs b = none ↔ ∀ x ∈ bufs, x.blockno ≠ some b := by
  simp [lookup, List.find?_eq_none, Buf.caches]

theorem lookup_isSome {bufs : List (Buf α)} {b : Nat} {x : Buf α} (hx : x ∈ bufs)
    (hb : x.blockno = some b) : ∃ y, lookup bufs b = some y := by
  cases h : lookup bufs b with
  | none => exact absurd hb (lookup_eq_none.mp h x hx)
  | some y => exact ⟨y, rfl⟩

theorem mem_modify {bufs : List (Buf α)} {b : Nat} {f : Buf α → Buf α} {y : Buf α} :
    y ∈ modify bufs b f ↔ ∃ x ∈ bufs, (if x.caches b then f x else x) = y :=
  List.mem_map

section Modify
variable {f : Buf α → Buf α} (hf : ∀ x, (f x).blockno = x.blockno)
include hf

/-- A change that keeps the block leaves every test of the block alone. -/
theorem caches_comp_modify (b c : Nat) :
    ((·.caches c) ∘ fun x => if x.caches b then f x else x) = (·.caches c) := by
  funext x
  show (if x.caches b then f x else x).caches c = x.caches c
  by_cases hx : x.caches b = true
  · rw [if_pos hx]
    simp only [Buf.caches, hf]
  · rw [if_neg hx]

theorem countP_modify (bufs : List (Buf α)) (b c : Nat) :
    (modify bufs b f).countP (·.caches c) = bufs.countP (·.caches c) := by
  rw [modify, List.countP_map, caches_comp_modify hf]

theorem Keys.of_modify {bufs : List (Buf α)} (h : Keys bufs) (b : Nat) : Keys (modify bufs b f) := by
  intro c
  rw [countP_modify hf]
  exact h c

theorem lookup_modify (bufs : List (Buf α)) (b : Nat) :
    lookup (modify bufs b f) b = (lookup bufs b).map f := by
  unfold lookup modify
  rw [List.find?_map, caches_comp_modify hf]
  cases h : bufs.find? (·.caches b) with
  | none => rfl
  | some y =>
    have hy := List.find?_some h
    simp [hy]

theorem lookup_modify_of_ne (bufs : List (Buf α)) {b c : Nat} (hc : c ≠ b) :
    lookup (modify bufs b f) c = lookup bufs c := by
  unfold lookup modify
  rw [List.find?_map, caches_comp_modify hf]
  cases h : bufs.find? (·.caches c) with
  | none => rfl
  | some y =>
    -- the buffer found caches `c`, so not `b`, and the change leaves it alone
    have hy := List.find?_some h
    simp only [Buf.caches_iff] at hy
    have hyb : y.caches b = false := by simp [Buf.caches, hy, hc]
    simp [hyb]

end Modify

theorem eq_of_mem_of_length_le_one {β : Type} {l : List β} (h : l.length ≤ 1) {x y : β} (hx : x ∈ l)
    (hy : y ∈ l) : x = y := by
  match l, h with
  | [z], _ =>
    rw [List.mem_singleton] at hx hy
    rw [hx, hy]
  | [], _ => cases hx

/-- Two buffers caching one block are one buffer. -/
theorem Keys.eq {bufs : List (Buf α)} (h : Keys bufs) {x y : Buf α} {b : Nat} (hx : x ∈ bufs)
    (hy : y ∈ bufs) (hxb : x.blockno = some b) (hyb : y.blockno = some b) : x = y := by
  have hlen : (bufs.filter (·.caches b)).length ≤ 1 := by
    rw [← List.countP_eq_length_filter]
    exact h b
  apply eq_of_mem_of_length_le_one hlen
  · exact List.mem_filter.mpr ⟨hx, Buf.caches_iff.mpr hxb⟩
  · exact List.mem_filter.mpr ⟨hy, Buf.caches_iff.mpr hyb⟩

theorem Keys.lookup_eq {bufs : List (Buf α)} (h : Keys bufs) {x : Buf α} {b : Nat} (hx : x ∈ bufs)
    (hb : x.blockno = some b) : lookup bufs b = some x := by
  obtain ⟨y, hy⟩ := lookup_isSome hx hb
  obtain ⟨hym, hyb⟩ := lookup_eq_some hy
  rw [hy, h.eq hym hx hyb hb]

/-! ## `recycle` -/

/-- The first free buffer is taken over in place; every buffer before it is busy. -/
theorem recycleFirst_eq_some {b : Nat} :
    ∀ {xs ys : List (Buf α)}, recycleFirst b xs = some ys →
      ∃ l1 x l2, xs = l1 ++ x :: l2 ∧ ys = l1 ++ x.recycle b :: l2 ∧ x.refcnt = 0 ∧
        ∀ y ∈ l1, y.refcnt ≠ 0
  | [], ys, h => by cases h
  | x :: xs, ys, h => by
    simp only [recycleFirst] at h
    split at h
    · next h0 =>
      cases h
      exact ⟨[], x, xs, rfl, rfl, h0, by simp⟩
    · next h0 =>
      obtain ⟨ys', hys', rfl⟩ := Option.map_eq_some_iff.mp h
      obtain ⟨l1, y, l2, rfl, rfl, hy, hl1⟩ := recycleFirst_eq_some hys'
      refine ⟨x :: l1, y, l2, rfl, rfl, hy, ?_⟩
      intro z hz
      rcases List.mem_cons.mp hz with rfl | hz
      · exact h0
      · exact hl1 z hz

theorem recycleFirst_eq_none {b : Nat} :
    ∀ {xs : List (Buf α)}, recycleFirst b xs = none ↔ ∀ x ∈ xs, x.refcnt ≠ 0
  | [] => by simp [recycleFirst]
  | x :: xs => by
    simp only [recycleFirst]
    split
    · next h0 => simp [h0]
    · next h0 => simp [recycleFirst_eq_none, h0]

/-- `bget`'s second loop takes over a free buffer in place, the one nearest the tail. -/
theorem recycle_eq_some {b : Nat} {bufs bufs' : List (Buf α)} (h : recycle b bufs = some bufs') :
    ∃ l1 x l2, bufs = l1 ++ x :: l2 ∧ bufs' = l1 ++ x.recycle b :: l2 ∧ x.refcnt = 0 ∧
      ∀ y ∈ l2, y.refcnt ≠ 0 := by
  obtain ⟨ys, hys, rfl⟩ := Option.map_eq_some_iff.mp h
  obtain ⟨l1, x, l2, hrev, rfl, hx, hl1⟩ := recycleFirst_eq_some hys
  refine ⟨l2.reverse, x, l1.reverse, ?_, by simp, hx, fun y hy => hl1 y (List.mem_reverse.mp hy)⟩
  rw [← List.reverse_reverse bufs, hrev]
  simp

theorem recycle_eq_none {b : Nat} {bufs : List (Buf α)} :
    recycle b bufs = none ↔ ∀ x ∈ bufs, x.refcnt ≠ 0 := by
  simp [recycle, recycleFirst_eq_none]

theorem Keys.of_recycle {bufs : List (Buf α)} (h : Keys bufs) {b : Nat} (hb : lookup bufs b = none)
    {l1 l2 : List (Buf α)} {x : Buf α} (hbufs : bufs = l1 ++ x :: l2) :
    Keys (l1 ++ x.recycle b :: l2) := by
  intro c
  have hc := h c
  subst hbufs
  simp only [List.countP_append, List.countP_cons] at hc ⊢
  by_cases hcb : c = b
  · -- block `b` was cached nowhere, so the new buffer is its only one
    subst hcb
    have hnone := lookup_eq_none.mp hb
    have h1 : l1.countP (·.caches c) = 0 :=
      List.countP_eq_zero.mpr fun y hy => by simpa [Buf.caches] using hnone y (by simp [hy])
    have h2 : l2.countP (·.caches c) = 0 :=
      List.countP_eq_zero.mpr fun y hy => by simpa [Buf.caches] using hnone y (by simp [hy])
    rw [h1, h2]
    split <;> omega
  · have hnew : (x.recycle b).caches c = false := by
      simp [Buf.recycle, Buf.caches, Ne.symm hcb]
    rw [hnew, if_neg Bool.false_ne_true]
    split at hc <;> omega

/-! ## `bget` -/

/-- What `bget` does when it returns a buffer. -/
theorem bget_eq_ok {bufs bufs' : List (Buf α)} {b : Nat} (h : bget bufs b = .ok bufs') :
    (∃ x, lookup bufs b = some x) ∧ bufs' = modify bufs b (fun x => { x with refcnt := x.refcnt + 1 }) ∨
      lookup bufs b = none ∧ ∃ l1 x l2, bufs = l1 ++ x :: l2 ∧ bufs' = l1 ++ x.recycle b :: l2 ∧
        x.refcnt = 0 ∧ ∀ y ∈ l2, y.refcnt ≠ 0 := by
  unfold bget at h
  split at h
  · next x hx =>
    cases h
    exact .inl ⟨⟨x, hx⟩, rfl⟩
  · next hx =>
    split at h
    · next bufs'' hr =>
      cases h
      exact .inr ⟨hx, recycle_eq_some hr⟩
    · cases h

/-- `bget` panics exactly when the block is not cached and every buffer is in use. -/
theorem bget_eq_error {bufs : List (Buf α)} {b : Nat} {m : String} (h : bget bufs b = .error m) :
    m = "bget: no buffers" ∧ lookup bufs b = none ∧ ∀ x ∈ bufs, x.refcnt ≠ 0 := by
  unfold bget at h
  split at h
  · cases h
  · next hx =>
    split at h
    · cases h
    · next hr =>
      cases h
      exact ⟨rfl, hx, recycle_eq_none.mp hr⟩

theorem lookup_replace {l1 l2 : List (Buf α)} {y y' : Buf α} {b : Nat} (hy : y.blockno ≠ some b)
    (hy' : y'.blockno ≠ some b) : lookup (l1 ++ y' :: l2) b = lookup (l1 ++ y :: l2) b := by
  simp [lookup, List.find?_append, Buf.caches, hy, hy']

/-- `bget` of any block leaves a buffer in use caching what it cached, with its data. -/
theorem lookup_bget_of_pos {bufs bufs' : List (Buf α)} (hk : Keys bufs) {b c : Nat} {x : Buf α}
    (hx : lookup bufs b = some x) (hpos : 0 < x.refcnt) (hg : bget bufs c = .ok bufs') :
    ∃ x', lookup bufs' b = some x' ∧ x'.data = x.data ∧ x'.valid = x.valid := by
  rcases bget_eq_ok hg with ⟨-, rfl⟩ | ⟨hc, l1, y, l2, rfl, rfl, hy0, -⟩
  · have hf : ∀ y : Buf α, ({ y with refcnt := y.refcnt + 1 } : Buf α).blockno = y.blockno := fun _ => rfl
    by_cases hcb : b = c
    · subst hcb
      rw [lookup_modify hf, hx]
      exact ⟨_, rfl, rfl, rfl⟩
    · rw [lookup_modify_of_ne hf _ hcb]
      exact ⟨x, hx, rfl, rfl⟩
  · -- the buffer taken over was free, so it is not the buffer of `b`
    obtain ⟨hxm, hxb⟩ := lookup_eq_some hx
    have hyb : y.blockno ≠ some b := by
      intro hyb
      have := hk.eq (by simp : y ∈ l1 ++ y :: l2) hxm hyb hxb
      rw [this] at hy0
      omega
    have hcb : c ≠ b := by
      rintro rfl
      rw [hx] at hc
      cases hc
    have hy' : (y.recycle c).blockno ≠ some b := by
      simp [Buf.recycle, hcb]
    rw [lookup_replace hyb hy', hx]
    exact ⟨x, rfl, rfl, rfl⟩

theorem Keys.of_bget {bufs bufs' : List (Buf α)} (h : Keys bufs) {b : Nat} (hg : bget bufs b = .ok bufs') :
    Keys bufs' := by
  rcases bget_eq_ok hg with ⟨-, rfl⟩ | ⟨hb, l1, x, l2, hbufs, rfl, -, -⟩
  · refine Keys.of_modify ?_ h b
    intro _
    rfl
  · exact h.of_recycle hb hbufs

/-! ## `brelse` -/

/-- With one buffer per block, moving the buffer of `b` to the head after changing it only
reorders the list changed in place. -/
theorem perm_cons_filter {bufs : List (Buf α)} (h : Keys bufs) {b : Nat} {x : Buf α}
    (hx : lookup bufs b = some x) (f : Buf α → Buf α) :
    (f x :: bufs.filter fun y => !y.caches b).Perm (modify bufs b f) := by
  obtain ⟨hxm, hxb⟩ := lookup_eq_some hx
  -- the buffers caching `b` are `x` alone
  have hone : bufs.filter (·.caches b) = [x] := by
    have hlen : (bufs.filter (·.caches b)).length ≤ 1 := by
      rw [← List.countP_eq_length_filter]; exact h b
    have hmem : x ∈ bufs.filter (·.caches b) := List.mem_filter.mpr ⟨hxm, Buf.caches_iff.mpr hxb⟩
    obtain ⟨y, hy⟩ := List.length_eq_one_iff.mp (Nat.le_antisymm hlen (List.length_pos_of_mem hmem))
    rw [hy, List.mem_singleton] at hmem
    rw [hy, hmem]
  have hsplit := (List.filter_append_perm (·.caches b) bufs).map fun y => if y.caches b then f y else y
  rw [hone, List.map_append, List.map_singleton, if_pos (Buf.caches_iff.mpr hxb)] at hsplit
  have hrest : (bufs.filter fun y => !y.caches b).map (fun y => if y.caches b then f y else y) =
      bufs.filter fun y => !y.caches b := by
    refine (List.map_congr_left ?_).trans (List.map_id' _)
    intro y hy
    have : y.caches b = false := by simpa using (List.mem_filter.mp hy).2
    simp [this]
  rw [hrest] at hsplit
  exact hsplit

/-- What `brelse` does when it does not panic: up to the order of the list, the buffer's holder is
cleared and its count lowered. -/
theorem brelse_perm {bufs bufs' : List (Buf α)} (h : Keys bufs) {p b : Nat} (hr : brelse bufs p b = .ok bufs') :
    ∃ x, lookup bufs b = some x ∧ x.holder = some p ∧
      bufs'.Perm (modify bufs b fun y => { y with holder := none, refcnt := uintDec y.refcnt }) := by
  unfold brelse at hr
  split at hr
  · next x hx =>
    split at hr
    · next hp =>
      refine ⟨x, hx, hp, ?_⟩
      split at hr
      · next h0 =>
        cases hr
        rw [← h0]
        exact perm_cons_filter h hx fun y => { y with holder := none, refcnt := uintDec y.refcnt }
      · cases hr
        exact List.Perm.refl _
    · cases hr
  · cases hr

theorem length_modify (bufs : List (Buf α)) (b : Nat) (f : Buf α → Buf α) :
    (modify bufs b f).length = bufs.length :=
  List.length_map _

theorem length_bget {bufs bufs' : List (Buf α)} {b : Nat} (h : bget bufs b = .ok bufs') :
    bufs'.length = bufs.length := by
  rcases bget_eq_ok h with ⟨-, rfl⟩ | ⟨-, l1, x, l2, rfl, rfl, -, -⟩
  · exact length_modify _ _ _
  · simp

theorem length_brelse {bufs bufs' : List (Buf α)} (hk : Keys bufs) {p b : Nat} (h : brelse bufs p b = .ok bufs') :
    bufs'.length = bufs.length := by
  obtain ⟨-, -, -, hperm⟩ := brelse_perm hk h
  rw [hperm.length_eq, length_modify]

/-- With one buffer per block, the blocks of the buffers are distinct. -/
theorem Keys.nodup_filterMap : ∀ {bufs : List (Buf α)}, Keys bufs → (bufs.filterMap Buf.blockno).Nodup
  | [], _ => List.nodup_nil
  | x :: xs, h => by
    have htail : Keys xs := fun c => Nat.le_trans (List.Sublist.countP_le (List.sublist_cons_self x xs)) (h c)
    cases hx : x.blockno with
    | none =>
      rw [List.filterMap_cons, hx]
      exact htail.nodup_filterMap
    | some c =>
      rw [List.filterMap_cons, hx]
      refine List.nodup_cons.mpr ⟨?_, htail.nodup_filterMap⟩
      -- `x` is the one buffer of `c`
      intro hc
      obtain ⟨y, hy, hyc⟩ := List.mem_filterMap.mp hc
      have h1 := h c
      rw [List.countP_cons, if_pos (Buf.caches_iff.mpr hx)] at h1
      have h2 : 0 < xs.countP (·.caches c) := List.countP_pos_iff.mpr ⟨y, hy, Buf.caches_iff.mpr hyc⟩
      omega

theorem Keys.of_perm {bufs bufs' : List (Buf α)} (h : Keys bufs) (hp : bufs'.Perm bufs) : Keys bufs' := by
  intro c
  rw [hp.countP_eq]
  exact h c

/-! ## References and pins

A buffer's `refcnt` counts two things that `bio.c` does not tell apart: the references of the
processes that got the buffer from `bget` and have not released it, and the pins of `bpin`. -/

/-- Whether a process holds a reference, `(p, b) ∈ refs`, is decided by `==` on the pairs. -/
instance lawfulBEq_ref : LawfulBEq (Nat × Nat) := inferInstance

/-- The references held to the buffer of block `b`, among `(process, block)` pairs. -/
def refsTo (refs : List (Nat × Nat)) : Option Nat → Nat
  | some b => refs.countP (·.2 == b)
  | none => 0

/-- The pins on the buffer of block `b` when the blocks `P` are pinned. -/
def pinsOn (P : List Nat) : Option Nat → Nat
  | some b => if b ∈ P then 1 else 0
  | none => 0

/-- The cache with the references `refs` held and the blocks `P` pinned. -/
structure CacheInv (P : List Nat) (bufs : List (Buf α)) (refs : List (Nat × Nat)) : Prop where
  keys : Keys bufs
  /-- a pinned block is cached, in a valid buffer -/
  pinned_cached : ∀ b ∈ P, ∃ x ∈ bufs, x.blockno = some b ∧ x.valid = true
  /-- a block a process holds a reference to is cached -/
  refs_cached : ∀ r ∈ refs, ∃ x ∈ bufs, x.blockno = some r.2
  /-- a buffer's count is its references and its pin -/
  refcnt_eq : ∀ x ∈ bufs, x.refcnt = refsTo refs x.blockno + pinsOn P x.blockno
  /-- a locked buffer is valid, and its holder holds a reference to it -/
  holder : ∀ x ∈ bufs, ∀ p, x.holder = some p → ∃ b, x.blockno = some b ∧ (p, b) ∈ refs ∧ x.valid = true

theorem refsTo_append (refs : List (Nat × Nat)) (p b : Nat) (c : Option Nat) :
    refsTo (refs ++ [(p, b)]) c = refsTo refs c + if c = some b then 1 else 0 := by
  cases c with
  | none => simp [refsTo]
  | some c =>
    by_cases h : c = b
    · simp [refsTo, h]
    · simp [refsTo, h, Ne.symm h]

theorem refsTo_erase {refs : List (Nat × Nat)} {p b : Nat} (h : (p, b) ∈ refs) (c : Option Nat) :
    refsTo (refs.erase (p, b)) c + (if c = some b then 1 else 0) = refsTo refs c := by
  have hperm := List.perm_cons_erase h
  cases c with
  | none => simp [refsTo]
  | some c =>
    simp only [refsTo]
    rw [hperm.countP_eq (·.2 == c), List.countP_cons]
    by_cases hc : c = b
    · simp [hc]
    · simp [hc, Ne.symm hc]

theorem refsTo_pos {refs : List (Nat × Nat)} {p b : Nat} (h : (p, b) ∈ refs) : 0 < refsTo refs (some b) :=
  List.countP_pos_iff.mpr ⟨(p, b), h, by simp⟩

theorem forall_mem_modify {bufs : List (Buf α)} {b : Nat} {f : Buf α → Buf α} {P : Buf α → Prop}
    (hin : ∀ x ∈ bufs, x.blockno = some b → P (f x)) (hout : ∀ x ∈ bufs, x.blockno ≠ some b → P x) :
    ∀ y ∈ modify bufs b f, P y := by
  intro y hy
  obtain ⟨x, hx, rfl⟩ := mem_modify.mp hy
  by_cases hxb : x.blockno = some b
  · rw [if_pos (Buf.caches_iff.mpr hxb)]
    exact hin x hx hxb
  · rw [if_neg (mt Buf.caches_iff.mp hxb)]
    exact hout x hx hxb

theorem exists_mem_modify {bufs : List (Buf α)} {b : Nat} {f : Buf α → Buf α} {P : Buf α → Prop}
    (hf : ∀ x, P x → P (f x)) : (∃ x ∈ bufs, P x) → ∃ y ∈ modify bufs b f, P y := by
  rintro ⟨x, hx, hPx⟩
  refine ⟨if x.caches b then f x else x, mem_modify.mpr ⟨x, hx, rfl⟩, ?_⟩
  split
  · exact hf x hPx
  · exact hPx

namespace CacheInv
variable {P : List Nat} {bufs : List (Buf α)} {refs : List (Nat × Nat)}

/-- A buffer nobody holds a reference to or pinned is not locked. -/
theorem holder_none (hi : CacheInv P bufs refs) {x : Buf α} (hx : x ∈ bufs) (h0 : x.refcnt = 0) :
    x.holder = none := by
  cases hh : x.holder with
  | none => rfl
  | some p =>
    obtain ⟨b, hb, hpb, -⟩ := hi.holder x hx p hh
    have hpos := refsTo_pos hpb
    have := hi.refcnt_eq x hx
    rw [hb] at this
    omega

/-- A pinned buffer is in use. -/
theorem refcnt_pos_of_pinned (hi : CacheInv P bufs refs) {x : Buf α} (hx : x ∈ bufs) {b : Nat}
    (hb : x.blockno = some b) (hP : b ∈ P) : 0 < x.refcnt := by
  have := hi.refcnt_eq x hx
  rw [hb] at this
  simp only [pinsOn, if_pos hP] at this
  omega

/-- A buffer a process holds a reference to is in use. -/
theorem refcnt_pos_of_ref (hi : CacheInv P bufs refs) {x : Buf α} (hx : x ∈ bufs) {p b : Nat}
    (hb : x.blockno = some b) (hr : (p, b) ∈ refs) : 0 < x.refcnt := by
  have := hi.refcnt_eq x hx
  rw [hb] at this
  have := refsTo_pos hr
  omega

/-- No reference is held to a block that is not cached. -/
theorem refsTo_uncached (hi : CacheInv P bufs refs) {b : Nat} (hb : lookup bufs b = none) :
    refsTo refs (some b) = 0 := by
  apply List.countP_eq_zero.mpr
  intro r hr hrb
  obtain ⟨x, hx, hxb⟩ := hi.refs_cached r hr
  rw [show r.2 = b by simpa using hrb] at hxb
  exact lookup_eq_none.mp hb x hx hxb

/-- A block that is not cached is not pinned. -/
theorem not_pinned_uncached (hi : CacheInv P bufs refs) {b : Nat} (hb : lookup bufs b = none) : b ∉ P := by
  intro hP
  obtain ⟨x, hx, hxb, -⟩ := hi.pinned_cached b hP
  exact lookup_eq_none.mp hb x hx hxb

/-- The pinned blocks only matter as a set. -/
theorem congr_pinned (hi : CacheInv P bufs refs) {P' : List Nat} (h : ∀ b, b ∈ P' ↔ b ∈ P) :
    CacheInv P' bufs refs where
  keys := hi.keys
  pinned_cached b hb := hi.pinned_cached b ((h b).mp hb)
  refs_cached := hi.refs_cached
  refcnt_eq x hx := by
    rw [hi.refcnt_eq x hx]
    cases x.blockno with
    | none => rfl
    | some b => simp only [pinsOn, h b]
  holder := hi.holder

theorem of_perm (hi : CacheInv P bufs refs) {bufs' : List (Buf α)} (hp : bufs'.Perm bufs) :
    CacheInv P bufs' refs where
  keys := hi.keys.of_perm hp
  pinned_cached b hb := by
    obtain ⟨x, hx, hxb⟩ := hi.pinned_cached b hb
    exact ⟨x, hp.mem_iff.mpr hx, hxb⟩
  refs_cached r hr := by
    obtain ⟨x, hx, hxb⟩ := hi.refs_cached r hr
    exact ⟨x, hp.mem_iff.mpr hx, hxb⟩
  refcnt_eq x hx := hi.refcnt_eq x (hp.mem_iff.mp hx)
  holder x hx := hi.holder x (hp.mem_iff.mp hx)

/-! ### What each function of `bio.c` keeps -/

/-- `bget` of a cached block: one more reference, counted on its buffer. -/
theorem of_bget_cached (hi : CacheInv P bufs refs) {b : Nat} {x : Buf α} (hx : lookup bufs b = some x)
    (p : Nat) : CacheInv P (modify bufs b fun y => { y with refcnt := y.refcnt + 1 }) (refs ++ [(p, b)]) where
  keys := hi.keys.of_modify (fun _ => by rfl) b
  pinned_cached c hc := exists_mem_modify (fun _ h => h) (hi.pinned_cached c hc)
  refs_cached r hr := by
    rcases List.mem_append.mp hr with hr | hr
    · exact exists_mem_modify (fun _ h => h) (hi.refs_cached r hr)
    · rw [List.mem_singleton.mp hr]
      obtain ⟨hxm, hxb⟩ := lookup_eq_some hx
      exact exists_mem_modify (fun _ h => h) ⟨x, hxm, hxb⟩
  refcnt_eq := forall_mem_modify
    (fun y hy hyb => by
      have := hi.refcnt_eq y hy
      dsimp only
      rw [refsTo_append, if_pos hyb]
      omega)
    (fun y hy hyb => by rw [hi.refcnt_eq y hy, refsTo_append, if_neg hyb, Nat.add_zero])
  holder := forall_mem_modify
    (fun y hy _ q hq => by
      obtain ⟨c, hc, hqc, hv⟩ := hi.holder y hy q hq
      exact ⟨c, hc, List.mem_append_left _ hqc, hv⟩)
    (fun y hy _ q hq => by
      obtain ⟨c, hc, hqc, hv⟩ := hi.holder y hy q hq
      exact ⟨c, hc, List.mem_append_left _ hqc, hv⟩)

theorem mem_replace {β : Type} {l1 l2 : List β} {x z : β} (x' : β) (hz : z ∈ l1 ++ x :: l2) (hne : z ≠ x) :
    z ∈ l1 ++ x' :: l2 := by
  simp only [List.mem_append, List.mem_cons] at hz ⊢
  rcases hz with hz | hz | hz
  · exact .inl hz
  · exact absurd hz hne
  · exact .inr (.inr hz)

/-- `bget` of a block that is not cached: the free buffer taken over holds the new reference alone.
No buffer in use is taken, so every pinned or referenced block stays cached. -/
theorem of_bget_recycled (hi : CacheInv P bufs refs) {b : Nat} (hb : lookup bufs b = none)
    {l1 l2 : List (Buf α)} {x : Buf α} (hbufs : bufs = l1 ++ x :: l2) (hx0 : x.refcnt = 0) (p : Nat) :
    CacheInv P (l1 ++ x.recycle b :: l2) (refs ++ [(p, b)]) where
  keys := hi.keys.of_recycle hb hbufs
  pinned_cached c hc := by
    obtain ⟨z, hz, hzc, hzv⟩ := hi.pinned_cached c hc
    have hpos := hi.refcnt_pos_of_pinned hz hzc hc
    exact ⟨z, mem_replace _ (hbufs ▸ hz) (by rintro rfl; omega), hzc, hzv⟩
  refs_cached r hr := by
    rcases List.mem_append.mp hr with hr | hr
    · obtain ⟨z, hz, hzc⟩ := hi.refs_cached r hr
      have hpos := hi.refcnt_pos_of_ref hz hzc hr
      exact ⟨z, mem_replace _ (hbufs ▸ hz) (by rintro rfl; omega), hzc⟩
    · rw [List.mem_singleton.mp hr]
      exact ⟨x.recycle b, by simp, rfl⟩
  refcnt_eq y hy := by
    simp only [List.mem_append, List.mem_cons] at hy
    rcases hy with hy | rfl | hy
    all_goals first
      | (show 1 = refsTo (refs ++ [(p, b)]) (some b) + pinsOn P (some b)
         rw [refsTo_append, if_pos rfl, hi.refsTo_uncached hb]
         simp [pinsOn, hi.not_pinned_uncached hb])
      | (have hym : y ∈ bufs := by rw [hbufs]; simp [hy]
         rw [hi.refcnt_eq y hym, refsTo_append, if_neg (lookup_eq_none.mp hb y hym), Nat.add_zero])
  holder y hy q hq := by
    simp only [List.mem_append, List.mem_cons] at hy
    have hxm : x ∈ bufs := by rw [hbufs]; simp
    rcases hy with hy | rfl | hy
    · have hym : y ∈ bufs := by rw [hbufs]; simp [hy]
      obtain ⟨c, hc, hqc, hv⟩ := hi.holder y hym q hq
      exact ⟨c, hc, List.mem_append_left _ hqc, hv⟩
    · -- the buffer taken over was free, so unlocked
      rw [show (x.recycle b).holder = x.holder from rfl, hi.holder_none hxm hx0] at hq
      cases hq
    · have hym : y ∈ bufs := by rw [hbufs]; simp [hy]
      obtain ⟨c, hc, hqc, hv⟩ := hi.holder y hym q hq
      exact ⟨c, hc, List.mem_append_left _ hqc, hv⟩

theorem of_bget (hi : CacheInv P bufs refs) {b : Nat} {bufs' : List (Buf α)} (hg : bget bufs b = .ok bufs')
    (p : Nat) : CacheInv P bufs' (refs ++ [(p, b)]) := by
  rcases bget_eq_ok hg with ⟨⟨x, hx⟩, rfl⟩ | ⟨hb, l1, x, l2, hbufs, rfl, hx0, -⟩
  · exact hi.of_bget_cached hx p
  · exact hi.of_bget_recycled hb hbufs hx0 p

/-- `acquiresleep` by a process holding a reference, and `bread`'s read: the buffer is valid. -/
theorem of_lock (hi : CacheInv P bufs refs) {p b : Nat} (hp : (p, b) ∈ refs) (d : α) :
    CacheInv P (modify bufs b fun y =>
      { y with holder := some p, valid := true, data := if y.valid then y.data else d }) refs where
  keys := hi.keys.of_modify (fun _ => by rfl) b
  pinned_cached c hc := exists_mem_modify (fun _ h => ⟨h.1, rfl⟩) (hi.pinned_cached c hc)
  refs_cached r hr := exists_mem_modify (fun _ h => h) (hi.refs_cached r hr)
  refcnt_eq := forall_mem_modify (fun y hy _ => hi.refcnt_eq y hy) (fun y hy _ => hi.refcnt_eq y hy)
  holder := forall_mem_modify
    (fun _ _ hyb q hq => by
      cases hq
      exact ⟨b, hyb, hp, rfl⟩)
    (fun y hy _ => hi.holder y hy)

/-- The holder changes the data. -/
theorem of_setData (hi : CacheInv P bufs refs) (b : Nat) (f : α → α) :
    CacheInv P (modify bufs b fun y => { y with data := f y.data }) refs where
  keys := hi.keys.of_modify (fun _ => by rfl) b
  pinned_cached c hc := exists_mem_modify (fun _ h => h) (hi.pinned_cached c hc)
  refs_cached r hr := exists_mem_modify (fun _ h => h) (hi.refs_cached r hr)
  refcnt_eq := forall_mem_modify (fun y hy _ => hi.refcnt_eq y hy) (fun y hy _ => hi.refcnt_eq y hy)
  holder := forall_mem_modify (fun y hy _ => hi.holder y hy) (fun y hy _ => hi.holder y hy)

/-- `brelse` by the holder: its reference goes, and the count with it. -/
theorem of_brelse (hi : CacheInv P bufs refs) {p b : Nat} {bufs' : List (Buf α)}
    (hr : brelse bufs p b = .ok bufs') : CacheInv P bufs' (refs.erase (p, b)) := by
  obtain ⟨x, hx, hxp, hperm⟩ := brelse_perm hi.keys hr
  obtain ⟨hxm, hxb⟩ := lookup_eq_some hx
  have hpb : (p, b) ∈ refs := by
    obtain ⟨c, hc, hpc, -⟩ := hi.holder x hxm p hxp
    rw [hxb, Option.some.injEq] at hc
    rwa [hc]
  refine CacheInv.of_perm ?_ hperm
  exact {
    keys := hi.keys.of_modify (fun _ => by rfl) b
    pinned_cached := fun c hc => exists_mem_modify (fun _ h => h) (hi.pinned_cached c hc)
    refs_cached := fun r hr => exists_mem_modify (fun _ h => h) (hi.refs_cached r (List.mem_of_mem_erase hr))
    refcnt_eq := forall_mem_modify
      (fun y hy hyb => by
        have h1 := hi.refcnt_eq y hy
        have h2 := refsTo_erase hpb y.blockno
        have h3 := refsTo_pos hpb
        rw [hyb, if_pos rfl] at h2
        rw [hyb] at h1
        dsimp only
        rw [hyb, uintDec_of_pos (by omega)]
        omega)
      (fun y hy hyb => by
        have h2 := refsTo_erase hpb y.blockno
        rw [if_neg hyb, Nat.add_zero] at h2
        rw [hi.refcnt_eq y hy, h2])
    holder := forall_mem_modify
      (fun _ _ _ q hq => by cases hq)
      (fun y hy hyb q hq => by
        obtain ⟨c, hc, hqc, hv⟩ := hi.holder y hy q hq
        have hne : (q, c) ≠ (p, b) := by
          intro h
          rw [Prod.mk.injEq] at h
          exact hyb (h.2 ▸ hc)
        exact ⟨c, hc, (List.mem_erase_of_ne hne).mpr hqc, hv⟩) }

/-- `bpin` of a valid cached block not yet pinned. -/
theorem of_bpin (hi : CacheInv P bufs refs) {b : Nat} (hb : b ∉ P) {x : Buf α} (hx : lookup bufs b = some x)
    (hv : x.valid = true) : CacheInv (P ++ [b]) (bpin bufs b) refs where
  keys := hi.keys.of_modify (fun _ => by rfl) b
  pinned_cached c hc := by
    rcases List.mem_append.mp hc with hc | hc
    · exact exists_mem_modify (fun _ h => h) (hi.pinned_cached c hc)
    · rw [List.mem_singleton.mp hc]
      obtain ⟨hxm, hxb⟩ := lookup_eq_some hx
      exact exists_mem_modify (fun _ h => h) ⟨x, hxm, hxb, hv⟩
  refs_cached r hr := exists_mem_modify (fun _ h => h) (hi.refs_cached r hr)
  refcnt_eq := forall_mem_modify
    (fun y hy hyb => by
      have := hi.refcnt_eq y hy
      dsimp only
      rw [hyb] at this ⊢
      simp only [pinsOn, if_neg hb] at this
      simp [pinsOn]
      omega)
    (fun y hy hyb => by
      rw [hi.refcnt_eq y hy]
      cases hc : y.blockno with
      | none => rfl
      | some c =>
        have hcb : c ≠ b := fun h => hyb (h ▸ hc)
        simp [pinsOn, hcb])
  holder := forall_mem_modify (fun y hy _ => hi.holder y hy) (fun y hy _ => hi.holder y hy)

/-- `bunpin` of the first pinned block. -/
theorem of_bunpin {b : Nat} {P' : List Nat} (hi : CacheInv (b :: P') bufs refs) (hb : b ∉ P') :
    CacheInv P' (bunpin bufs b) refs where
  keys := hi.keys.of_modify (fun _ => by rfl) b
  pinned_cached c hc := exists_mem_modify (fun _ h => h) (hi.pinned_cached c (List.mem_cons_of_mem b hc))
  refs_cached r hr := exists_mem_modify (fun _ h => h) (hi.refs_cached r hr)
  refcnt_eq := forall_mem_modify
    (fun y hy hyb => by
      have := hi.refcnt_eq y hy
      dsimp only
      rw [hyb] at this ⊢
      simp only [pinsOn, List.mem_cons_self, if_true] at this
      simp only [pinsOn, if_neg hb]
      rw [uintDec_of_pos (by omega)]
      omega)
    (fun y hy hyb => by
      rw [hi.refcnt_eq y hy]
      cases hc : y.blockno with
      | none => rfl
      | some c =>
        have hcb : c ≠ b := fun h => hyb (h ▸ hc)
        simp [pinsOn, hcb])
  holder := forall_mem_modify (fun y hy _ => hi.holder y hy) (fun y hy _ => hi.holder y hy)

/-- The buffers in use are no more than the references held and the pinned blocks: each caches a
block that is referenced or pinned, and no two cache the same block. -/
theorem inUse_le (hi : CacheInv P bufs refs) : (bufs.filter (0 < ·.refcnt)).length ≤ refs.length + P.length := by
  have hsub : (bufs.filter (0 < ·.refcnt)).Sublist bufs := List.filter_sublist
  have hkeys : Keys (bufs.filter (0 < ·.refcnt)) := fun c => Nat.le_trans (hsub.countP_le) (hi.keys c)
  -- a buffer in use caches a block that a reference or a pin accounts for
  have hused : ∀ x ∈ bufs.filter (0 < ·.refcnt), ∃ c, x.blockno = some c ∧ c ∈ refs.map Prod.snd ++ P := by
    intro x hx
    obtain ⟨hxm, hpos⟩ := List.mem_filter.mp hx
    have heq := hi.refcnt_eq x hxm
    cases hc : x.blockno with
    | none =>
      rw [hc] at heq
      simp only [refsTo, pinsOn] at heq
      simp at hpos
      omega
    | some c =>
      refine ⟨c, rfl, ?_⟩
      rw [hc] at heq
      by_cases hP : c ∈ P
      · exact List.mem_append_right _ hP
      · simp only [refsTo, pinsOn, if_neg hP] at heq
        simp only [decide_eq_true_eq] at hpos
        obtain ⟨r, hr, hrc⟩ := List.countP_pos_iff.mp (heq ▸ hpos)
        exact List.mem_append_left _ (List.mem_map.mpr ⟨r, hr, by simpa using hrc⟩)
  have hlen : ((bufs.filter (0 < ·.refcnt)).filterMap Buf.blockno).length = (bufs.filter (0 < ·.refcnt)).length :=
    List.filterMap_length_eq_length.mpr fun x hx => by
      obtain ⟨c, hc, -⟩ := hused x hx
      simp [hc]
  have hsubset : (bufs.filter (0 < ·.refcnt)).filterMap Buf.blockno ⊆ refs.map Prod.snd ++ P := by
    intro c hc
    obtain ⟨x, hx, hxc⟩ := List.mem_filterMap.mp hc
    obtain ⟨c', hc', hmem⟩ := hused x hx
    rw [hxc, Option.some.injEq] at hc'
    rwa [hc']
  have := (hkeys.nodup_filterMap.subperm hsubset).length_le
  rw [hlen, List.length_append, List.length_map] at this
  exact this

end CacheInv

end Xv6.Bio
