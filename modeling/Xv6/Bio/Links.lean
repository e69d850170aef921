import Mathlib
import Xv6.Bio.Cache
import Xv6.Lib.Cycle
import Xv6.Lib.Trans

/-!
# The buffer cache's list (`bio.c`)

`bcache` as `bio.c` keeps it: the buffers and `bcache.head` on a circular list through `prev` and
`next`, the most recently released buffer at `head.next`. With `n` buffers, they are numbered
`0 .. n-1` and `head` is `n`. `order` reads the list from `head.next` on; mapped to the buffers it
is the list of the cache model of `Xv6.Bio.Cache` (`bufs`).

* `binit`, `bget`, `brelse`, `bpin`, `bunpin` : the pointer code;
* `Cyclic` : the list through `head` is a cycle holding each buffer once; `binit_cyclic`, and
  `Cyclic.relink` for `brelse`'s six assignments;
* `bget_eq_ok` : `bget`'s two loops read the list forwards and backwards;
* `bget_refines`, `brelse_refines`, `bpin_refines`, `bunpin_refines`, `binit_refines` : on a cycle
  the pointer code computes the cache model's functions;
* `LinkSys`, `linkSys`, `pinnedSys` : processes calling the five functions in any interleaving; in
  `pinnedSys` each `bunpin` undoes an earlier `bpin` of its buffer, as `log.c` calls it;
* `LinkInv`, `pinnedSys_inv` : the cycle, one buffer per block, and each count made of the
  references and pins held, in every reachable state of `pinnedSys`.
-/

namespace Xv6.Bio

/-! ## One buffer per block, over indices

Lemmas on the cache model read through a map from indices to buffers. -/

variable {α : Type}

/-- With one buffer per block, two buffers of the list caching one block are one buffer. -/
theorem Keys.index_eq {L : List Nat} {buf : Nat → Buf α} (hk : Keys (L.map buf)) {i j b : Nat}
    (hi : i ∈ L) (hj : j ∈ L) (hib : (buf i).blockno = some b) (hjb : (buf j).blockno = some b) : i = j := by
  by_contra hij
  have hsub : [i, j].Subperm (L.filter ((·.caches b) ∘ buf)) := by
    apply List.subperm_of_subset (by simp [hij])
    intro k hk
    simp only [List.mem_cons, List.not_mem_nil, or_false] at hk
    rcases hk with rfl | rfl
    · exact List.mem_filter.mpr ⟨hi, Buf.caches_iff.mpr hib⟩
    · exact List.mem_filter.mpr ⟨hj, Buf.caches_iff.mpr hjb⟩
  have hlen := hsub.length_le
  have hone := hk b
  rw [List.countP_map, List.countP_eq_length_filter] at hone
  simp only [List.length_cons, List.length_nil] at hlen
  omega

/-- A change of the one buffer of a block is the cache model's change of the block. -/
theorem map_update_eq_modify {L : List Nat} {buf : Nat → Buf α} (hk : Keys (L.map buf)) {i b : Nat}
    (hi : i ∈ L) (hb : (buf i).blockno = some b) (f : Buf α → Buf α) :
    L.map (Function.update buf i (f (buf i))) = modify (L.map buf) b f := by
  rw [modify, List.map_map]
  apply List.map_congr_left
  intro j hj
  by_cases hji : j = i
  · subst hji
    simp [Buf.caches_iff.mpr hb]
  · have hjb : (buf j).caches b = false := by
      by_contra hc
      exact hji (hk.index_eq hj hi (Buf.caches_iff.mp (Bool.not_eq_false _ ▸ hc)) hb)
    simp [Function.update_of_ne hji, hjb]

/-- Changing a buffer without changing its block keeps one buffer per block. -/
theorem Keys.update {L : List Nat} {buf : Nat → Buf α} (hk : Keys (L.map buf)) {i : Nat} {x : Buf α}
    (hx : x.blockno = (buf i).blockno) : Keys (L.map (Function.update buf i x)) := by
  intro b
  have hb := hk b
  rw [List.countP_map] at hb ⊢
  convert hb using 1
  apply List.countP_congr
  intro j _
  by_cases hji : j = i
  · subst hji
    simp [Buf.caches, hx]
  · simp [Function.update_of_ne hji]

/-- The cache model's list without the buffer of a block is the list without its index. -/
theorem filter_not_caches {L : List Nat} {buf : Nat → Buf α} (hk : Keys (L.map buf)) (hnd : L.Nodup) {i b : Nat}
    (hi : i ∈ L) (hb : (buf i).blockno = some b) :
    (L.map buf).filter (fun y => !y.caches b) = (L.erase i).map buf := by
  rw [List.filter_map, List.Nodup.erase_eq_filter hnd]
  congr 1
  apply List.filter_congr
  intro j hj
  by_cases hji : j = i
  · subst hji
    simp [Buf.caches_iff.mpr hb]
  · have hjb : (buf j).caches b = false := by
      by_contra hc
      exact hji (hk.index_eq hj hi (Buf.caches_iff.mp (Bool.not_eq_false _ ▸ hc)) hb)
    simp [hji, hjb]

/-- The cache model's recycling over the buffers of a list of distinct indices takes over the
first free index. -/
theorem recycleFirst_map (buf : Nat → Buf α) (b : Nat) : ∀ {M : List Nat}, M.Nodup →
    recycleFirst b (M.map buf) =
      (M.find? fun j => (buf j).refcnt == 0).map fun i => M.map (Function.update buf i ((buf i).recycle b))
  | [], _ => rfl
  | j :: M, hnd => by
    have hj := (List.nodup_cons.mp hnd).1
    have hrest : M.map (Function.update buf j ((buf j).recycle b)) = M.map buf := by
      apply List.map_congr_left
      intro k hk
      exact Function.update_of_ne (fun e : k = j => hj (e ▸ hk)) _ _
    rw [List.map_cons, recycleFirst]
    by_cases h0 : (buf j).refcnt = 0
    · rw [if_pos h0, List.find?_cons_of_pos (by simpa using h0)]
      simp [hrest]
    · rw [if_neg h0, List.find?_cons_of_neg (by simpa using h0), recycleFirst_map buf b (List.nodup_cons.mp hnd).2,
        Option.map_map]
      cases hf : M.find? fun k => (buf k).refcnt == 0 with
      | none => rfl
      | some i =>
        -- the free index found is in `M`, so it is not `j`
        have hij : j ≠ i := fun e => hj (e ▸ List.mem_of_find?_eq_some hf)
        simp [Function.update_of_ne hij]

end Xv6.Bio

namespace Xv6.Bio.Links
open DLink Trans

/-- `bcache`: the buffers and the `prev` and `next` of each; `head` is the index past the buffers. -/
structure BCache (α : Type) where
  buf : Nat → Buf α
  next : Nat → Nat
  prev : Nat → Nat

variable {α : Type}

namespace BCache

/-- Buffer `i` changed to `x`. -/
def setBuf (c : BCache α) (i : Nat) (x : Buf α) : BCache α := { c with buf := Function.update c.buf i x }

/-- `x` put after `h`. -/
def insertAfter (c : BCache α) (h x : Nat) : BCache α :=
  { c with next := (DLink.insertAfter c.next c.prev h x).1, prev := (DLink.insertAfter c.next c.prev h x).2 }

/-- `x` taken out of the list. -/
def unlink (c : BCache α) (x : Nat) : BCache α :=
  { c with next := (DLink.unlink c.next c.prev x).1, prev := (DLink.unlink c.next c.prev x).2 }

@[simp] theorem setBuf_next (c : BCache α) (i : Nat) (x : Buf α) : (c.setBuf i x).next = c.next := rfl
@[simp] theorem setBuf_prev (c : BCache α) (i : Nat) (x : Buf α) : (c.setBuf i x).prev = c.prev := rfl
@[simp] theorem setBuf_buf (c : BCache α) (i : Nat) (x : Buf α) :
    (c.setBuf i x).buf = Function.update c.buf i x := rfl
@[simp] theorem insertAfter_buf (c : BCache α) (h x : Nat) : (c.insertAfter h x).buf = c.buf := rfl
@[simp] theorem unlink_buf (c : BCache α) (x : Nat) : (c.unlink x).buf = c.buf := rfl

end BCache

variable (n : Nat)

/-- `binit`'s loop after its first `k` buffers: `head` alone on its list, then each buffer in turn
put after it. The buffers are zeroed, as `bcache` is; `head`'s pointers are set first and each
buffer's before it is read. -/
def binitLoop (zero : α) : Nat → BCache α
  | 0 => ⟨fun _ => ⟨none, false, 0, none, zero⟩, fun _ => n, fun _ => n⟩
  | k + 1 => (binitLoop zero k).insertAfter n k

/-- `binit` -/
def binit (zero : α) : BCache α := binitLoop n zero n

/-- The buffers from `head.next` along `next`, up to `head`. The list has `n` buffers, so the walk
meets `head` within `n + 1` steps. -/
def order (c : BCache α) : List Nat := walk c.next n (n + 1) (c.next n)

/-- The buffers in list order: the state of the cache model. -/
def bufs (c : BCache α) : List (Buf α) := (order n c).map c.buf

/-- `bget` up to its `acquiresleep`: the buffer of block `b` with one more reference. The first loop
runs from `head.next` along `next` and takes the buffer caching `b`; the second runs from
`head.prev` along `prev` and takes over the first free buffer. -/
def bget (c : BCache α) (b : Nat) : Except String (BCache α × Nat) :=
  match (walk c.next n (n + 1) (c.next n)).find? fun i => (c.buf i).caches b with
  | some i => .ok (c.setBuf i { c.buf i with refcnt := (c.buf i).refcnt + 1 }, i)
  | none =>
    match (walk c.prev n (n + 1) (c.prev n)).find? fun i => (c.buf i).refcnt == 0 with
    | some i => .ok (c.setBuf i ((c.buf i).recycle b), i)
    | none => .error "bget: no buffers"

/-- A buffer as `brelse` leaves it: `releasesleep`, then `b->refcnt--`. -/
def released (x : Buf α) : Buf α := { x with holder := none, refcnt := uintDec x.refcnt }

@[simp] theorem released_refcnt (x : Buf α) : (released x).refcnt = uintDec x.refcnt := rfl
@[simp] theorem released_holder (x : Buf α) : (released x).holder = none := rfl
@[simp] theorem released_blockno (x : Buf α) : (released x).blockno = x.blockno := rfl

/-- `brelse` of buffer `i` by process `p`, which must hold its lock: the lock is released, the count
drops, and a buffer that falls free is taken out of the list and put back after `head`. -/
def brelse (c : BCache α) (p i : Nat) : Except String (BCache α) :=
  if (c.buf i).holder = some p then
    let c1 := c.setBuf i (released (c.buf i))
    if (c1.buf i).refcnt = 0 then .ok ((c1.unlink i).insertAfter n i) else .ok c1
  else .error "brelse"

/-- `bpin` -/
def bpin (c : BCache α) (i : Nat) : BCache α := c.setBuf i { c.buf i with refcnt := (c.buf i).refcnt + 1 }

/-- `bunpin`; `refcnt` is a `uint`, and the decrement has no test. -/
def bunpin (c : BCache α) (i : Nat) : BCache α := c.setBuf i { c.buf i with refcnt := uintDec (c.buf i).refcnt }

/-! ## The cycle -/

/-- The list through `head` is a cycle holding each buffer once. -/
structure Cyclic (c : BCache α) : Prop where
  chain : Chain c.next c.prev n (order n c) n
  perm : (order n c).Perm (List.range n)

variable {n} {c : BCache α}

theorem Cyclic.nodup (hc : Cyclic n c) : (n :: order n c).Nodup := by
  refine List.nodup_cons.mpr ⟨?_, hc.perm.nodup_iff.mpr List.nodup_range⟩
  intro hn
  have := List.mem_range.mp (hc.perm.mem_iff.mp hn)
  omega

theorem Cyclic.mem_order (hc : Cyclic n c) {i : Nat} : i ∈ order n c ↔ i < n := by
  rw [hc.perm.mem_iff, List.mem_range]

/-- A cycle through `head` holding each buffer once is what `order` reads. -/
theorem order_eq_of_chain {L : List Nat} (h : Chain c.next c.prev n L n) (hp : L.Perm (List.range n)) :
    order n c = L := by
  apply h.walk_next
  · intro hn
    have := List.mem_range.mp (hp.mem_iff.mp hn)
    omega
  · rw [hp.length_eq, List.length_range]
    omega

theorem cyclic_of_chain {L : List Nat} (h : Chain c.next c.prev n L n) (hp : L.Perm (List.range n)) :
    Cyclic n c := by
  have ho := order_eq_of_chain h hp
  rw [← ho] at h hp
  exact ⟨h, hp⟩

/-- `bget`'s second loop reads the list backwards. -/
theorem Cyclic.walk_prev (hc : Cyclic n c) : walk c.prev n (n + 1) (c.prev n) = (order n c).reverse := by
  apply hc.chain.walk_prev (List.nodup_cons.mp hc.nodup).1
  rw [hc.perm.length_eq, List.length_range]
  omega

/-- `binit` puts the buffers after `head` one by one, so the list is the buffers last to first. -/
theorem binit_chain (zero : α) :
    ∀ k ≤ n, Chain (binitLoop n zero k).next (binitLoop n zero k).prev n (List.range k).reverse n
  | 0, _ => ⟨rfl, rfl⟩
  | k + 1, hk => by
    have hnd : (n :: (List.range k).reverse).Nodup := by
      refine List.nodup_cons.mpr ⟨?_, (List.reverse_perm _).nodup_iff.mpr List.nodup_range⟩
      simp only [List.mem_reverse, List.mem_range]
      omega
    have hx : k ∉ n :: (List.range k).reverse := by
      simp only [List.mem_cons, List.mem_reverse, List.mem_range]
      omega
    rw [List.range_succ, List.reverse_append]
    exact (binit_chain zero k (Nat.le_of_succ_le hk)).insertAfter hx hnd

theorem binit_cyclic (zero : α) : Cyclic n (binit n zero) :=
  cyclic_of_chain (binit_chain zero n (Nat.le_refl n)) (List.reverse_perm _)

theorem binit_order (zero : α) : order n (binit n zero) = (List.range n).reverse :=
  order_eq_of_chain (binit_chain zero n (Nat.le_refl n)) (List.reverse_perm _)

/-- `brelse`'s six assignments move a buffer of the cycle to its front. -/
theorem Cyclic.relink (hc : Cyclic n c) {i : Nat} (hi : i < n) :
    Cyclic n ((c.unlink i).insertAfter n i) ∧ order n ((c.unlink i).insertAfter n i) = i :: (order n c).erase i := by
  obtain ⟨A, B, hAB⟩ := List.append_of_mem (hc.mem_order.mpr hi)
  have hnd := hc.nodup
  have hch := hc.chain
  have hperm := hc.perm
  rw [hAB] at hnd hch hperm
  -- out of the list, then back in after `head`
  have h1 := hch.unlink hnd (List.nodup_cons.mp hnd).1
  have hmid : (i :: (A ++ B)).Nodup := List.perm_middle.nodup_iff.mp (List.nodup_cons.mp hnd).2
  have hnd1 : (n :: (A ++ B)).Nodup := by
    refine List.nodup_cons.mpr ⟨fun hn => (List.nodup_cons.mp hnd).1 ?_, (List.nodup_cons.mp hmid).2⟩
    simp only [List.mem_append, List.mem_cons] at hn ⊢
    tauto
  have hx : i ∉ n :: (A ++ B) := by
    rw [List.mem_cons, not_or]
    exact ⟨by omega, (List.nodup_cons.mp hmid).1⟩
  have h2 := h1.insertAfter hx hnd1
  have hperm2 : (i :: (A ++ B)).Perm (List.range n) := List.perm_middle.symm.trans hperm
  have herase : (order n c).erase i = A ++ B := by
    rw [hAB, List.erase_append_right _ (fun hA => (List.nodup_cons.mp hmid).1 (List.mem_append_left B hA)),
      List.erase_cons_head]
  exact ⟨cyclic_of_chain h2 hperm2, herase ▸ order_eq_of_chain h2 hperm2⟩

@[simp] theorem order_setBuf (c : BCache α) (i : Nat) (x : Buf α) : order n (c.setBuf i x) = order n c := rfl

theorem Cyclic.setBuf (hc : Cyclic n c) (i : Nat) (x : Buf α) : Cyclic n (c.setBuf i x) := ⟨hc.chain, hc.perm⟩

/-! ## `bget` -/

/-- What `bget` does when it returns a buffer: the first loop found the block's buffer, or the
second found a free buffer reading the list from its tail. -/
theorem bget_eq_ok (hc : Cyclic n c) {b i : Nat} {c' : BCache α} (h : bget n c b = .ok (c', i)) :
    (order n c).find? (fun j => (c.buf j).caches b) = some i ∧
        c' = c.setBuf i { c.buf i with refcnt := (c.buf i).refcnt + 1 } ∨
      (order n c).find? (fun j => (c.buf j).caches b) = none ∧
        (order n c).reverse.find? (fun j => (c.buf j).refcnt == 0) = some i ∧
        c' = c.setBuf i ((c.buf i).recycle b) := by
  unfold bget at h
  rw [← order, hc.walk_prev] at h
  split at h
  · next j hj =>
    cases h
    exact .inl ⟨hj, rfl⟩
  · next hj =>
    split at h
    · next k hk =>
      cases h
      exact .inr ⟨hj, hk, rfl⟩
    · cases h

/-- On a cycle, `bget` computes the cache model's `bget` on the buffers in list order. -/
theorem bget_refines (hc : Cyclic n c) (hk : Keys (bufs n c)) (b : Nat) :
    (bget n c b).map (fun r => bufs n r.1) = Bio.bget (bufs n c) b := by
  have hnd := (List.nodup_cons.mp hc.nodup).2
  have hrev := recycleFirst_map c.buf b ((List.reverse_perm _).nodup_iff.mpr hnd)
  unfold bget Bio.bget lookup Bio.recycle
  rw [← order, hc.walk_prev, bufs, List.find?_map, ← List.map_reverse, hrev, Function.comp_def]
  cases hf : (order n c).find? fun i => (c.buf i).caches b with
  | some i =>
    -- the block's buffer is the one `bget` finds
    have hi := List.mem_of_find?_eq_some hf
    have hib : (c.buf i).blockno = some b := by
      have h1 := List.find?_some hf
      exact Buf.caches_iff.mp h1
    exact congrArg Except.ok (map_update_eq_modify hk hi hib fun x => { x with refcnt := x.refcnt + 1 })
  | none =>
    cases hr : (order n c).reverse.find? fun i => (c.buf i).refcnt == 0 with
    | some i =>
      show Except.ok (bufs n (c.setBuf i ((c.buf i).recycle b))) = _
      simp [bufs, List.map_reverse]
    | none => rfl

/-- `bget` panics exactly when the block is not cached and every buffer is in use. -/
theorem bget_eq_error (hc : Cyclic n c) {b : Nat} {m : String} (h : bget n c b = .error m) :
    m = "bget: no buffers" ∧ (∀ i < n, (c.buf i).blockno ≠ some b) ∧ ∀ i < n, (c.buf i).refcnt ≠ 0 := by
  unfold bget at h
  rw [← order, hc.walk_prev] at h
  split at h
  · cases h
  · next hj =>
    split at h
    · cases h
    · next hk =>
      cases h
      refine ⟨rfl, fun i hi => ?_, fun i hi => ?_⟩
      · have := List.find?_eq_none.mp hj i (hc.mem_order.mpr hi)
        simpa [Buf.caches] using this
      · have := List.find?_eq_none.mp hk i (List.mem_reverse.mpr (hc.mem_order.mpr hi))
        simpa using this

/-! ## `brelse`, `bpin`, `bunpin` -/

theorem brelse_of_free {p i : Nat} (hp : (c.buf i).holder = some p) (h0 : uintDec (c.buf i).refcnt = 0) :
    brelse n c p i = .ok
      ((c.setBuf i (released (c.buf i))).unlink i |>.insertAfter n i) := by
  simp [brelse, hp, h0]

theorem brelse_of_busy {p i : Nat} (hp : (c.buf i).holder = some p) (h0 : uintDec (c.buf i).refcnt ≠ 0) :
    brelse n c p i = .ok (c.setBuf i (released (c.buf i))) := by
  simp [brelse, hp, h0]

theorem brelse_of_not_holder {p i : Nat} (hp : (c.buf i).holder ≠ some p) : brelse n c p i = .error "brelse" := by
  simp [brelse, hp]

/-- What `brelse` does when it does not panic: the caller held the lock, and the buffer, released
with one reference less, moved to the front if it fell free. -/
theorem brelse_eq_ok {p i : Nat} {c' : BCache α} (h : brelse n c p i = .ok c') :
    (c.buf i).holder = some p ∧
      (uintDec (c.buf i).refcnt = 0 ∧
          c' = ((c.setBuf i (released (c.buf i))).unlink i).insertAfter n i ∨
        uintDec (c.buf i).refcnt ≠ 0 ∧ c' = c.setBuf i (released (c.buf i))) := by
  by_cases hp : (c.buf i).holder = some p
  · refine ⟨hp, ?_⟩
    by_cases h0 : uintDec (c.buf i).refcnt = 0
    · rw [brelse_of_free hp h0] at h
      exact .inl ⟨h0, (Except.ok.inj h).symm⟩
    · rw [brelse_of_busy hp h0] at h
      exact .inr ⟨h0, (Except.ok.inj h).symm⟩
  · rw [brelse_of_not_holder hp] at h
    cases h

/-- On a cycle, `brelse` of the buffer of block `b` computes the cache model's `brelse` of `b`. -/
theorem brelse_refines (hc : Cyclic n c) (hk : Keys (bufs n c)) {p i b : Nat} (hi : i < n)
    (hb : (c.buf i).blockno = some b) : (brelse n c p i).map (bufs n) = Bio.brelse (bufs n c) p b := by
  have hmem := hc.mem_order.mpr hi
  have hlook : lookup (bufs n c) b = some (c.buf i) := hk.lookup_eq (List.mem_map_of_mem hmem) hb
  unfold Bio.brelse
  rw [hlook]
  dsimp only
  by_cases hp : (c.buf i).holder = some p
  · rw [if_pos hp]
    by_cases h0 : uintDec (c.buf i).refcnt = 0
    · -- the buffer falls free: it goes to the front, and leaves its place
      have hnd := (List.nodup_cons.mp hc.nodup).2
      have hrel := (hc.setBuf i (released (c.buf i))).relink hi
      have hrest : ((order n c).erase i).map (Function.update c.buf i (released (c.buf i))) =
          ((order n c).erase i).map c.buf := by
        apply List.map_congr_left
        intro j hj
        exact Function.update_of_ne (fun e : j = i => (hnd.mem_erase_iff.mp (e ▸ hj)).1 rfl) _ _
      rw [brelse_of_free hp h0, if_pos h0]
      show Except.ok (bufs n _) = Except.ok (_ :: ((order n c).map c.buf).filter _)
      rw [filter_not_caches hk hnd hmem hb, bufs, hrel.2, order_setBuf, List.map_cons, BCache.insertAfter_buf,
        BCache.unlink_buf, BCache.setBuf_buf, Function.update_self, hrest, released, h0]
    · rw [brelse_of_busy hp h0, if_neg h0]
      exact congrArg Except.ok (map_update_eq_modify hk hmem hb fun y => { y with holder := none, refcnt := uintDec y.refcnt })
  · rw [brelse_of_not_holder hp, if_neg hp]
    rfl

/-- `bpin` of the buffer of block `b` is the cache model's `bpin` of `b`. -/
theorem bpin_refines (hc : Cyclic n c) (hk : Keys (bufs n c)) {i b : Nat} (hi : i < n)
    (hb : (c.buf i).blockno = some b) : bufs n (bpin c i) = Bio.bpin (bufs n c) b :=
  map_update_eq_modify hk (hc.mem_order.mpr hi) hb fun x => { x with refcnt := x.refcnt + 1 }

/-- `bunpin` of the buffer of block `b` is the cache model's `bunpin` of `b`. -/
theorem bunpin_refines (hc : Cyclic n c) (hk : Keys (bufs n c)) {i b : Nat} (hi : i < n)
    (hb : (c.buf i).blockno = some b) : bufs n (bunpin c i) = Bio.bunpin (bufs n c) b :=
  map_update_eq_modify hk (hc.mem_order.mpr hi) hb fun x => { x with refcnt := uintDec x.refcnt }

theorem binitLoop_buf (zero : α) : ∀ k, (binitLoop n zero k).buf = fun _ => ⟨none, false, 0, none, zero⟩
  | 0 => rfl
  | k + 1 => binitLoop_buf zero k

/-- `binit` is the cache model's `binit`. -/
theorem binit_refines (zero : α) : bufs n (binit n zero) = Bio.binit n zero := by
  rw [bufs, binit_order, binit, binitLoop_buf, Bio.binit, List.map_const', List.length_reverse, List.length_range]

/-- `bget` on a cycle returns a buffer of the list and does not relink it. -/
theorem bget_lt (hc : Cyclic n c) {b i : Nat} {c' : BCache α} (h : bget n c b = .ok (c', i)) :
    i < n ∧ c'.next = c.next ∧ c'.prev = c.prev := by
  rcases bget_eq_ok hc h with ⟨hf, rfl⟩ | ⟨-, hf, rfl⟩
  · exact ⟨hc.mem_order.mp (List.mem_of_find?_eq_some hf), rfl, rfl⟩
  · exact ⟨hc.mem_order.mp (List.mem_reverse.mp (List.mem_of_find?_eq_some hf)), rfl, rfl⟩

/-- What `bget` does on a cycle: the buffer it returns caches the block, and the list is not
relinked. If a buffer caches the block, it is that buffer, with one more reference; otherwise it is a
free buffer, now with one reference, and every buffer behind it in the list is in use. -/
theorem bget_spec (hc : Cyclic n c) {b i : Nat} {c' : BCache α} (h : bget n c b = .ok (c', i)) :
    i < n ∧ order n c' = order n c ∧ (c'.buf i).blockno = some b ∧
      ((∃ j < n, (c.buf j).blockno = some b) →
        (c.buf i).blockno = some b ∧ (c'.buf i).refcnt = (c.buf i).refcnt + 1) ∧
      ((∀ j < n, (c.buf j).blockno ≠ some b) →
        (c.buf i).refcnt = 0 ∧ (c'.buf i).refcnt = 1 ∧
          ∃ A B, order n c = A ++ i :: B ∧ ∀ j ∈ B, (c.buf j).refcnt ≠ 0) := by
  have hin := (bget_lt hc h).1
  rcases bget_eq_ok hc h with ⟨hf, rfl⟩ | ⟨hf, hr, rfl⟩
  · have hib : (c.buf i).blockno = some b := by
      have h1 := List.find?_some hf
      exact Buf.caches_iff.mp h1
    refine ⟨hin, rfl, by simpa using hib, fun _ => ⟨hib, by simp⟩, fun hno => absurd hib (hno i hin)⟩
  · have h0 : (c.buf i).refcnt = 0 := by simpa using List.find?_some hr
    refine ⟨hin, rfl, by simp [Buf.recycle], fun ⟨j, hj, hjb⟩ => ?_, fun _ => ⟨h0, by simp [Buf.recycle], ?_⟩⟩
    · -- the first loop found no buffer of the block
      have := List.find?_eq_none.mp hf j (hc.mem_order.mpr hj)
      simp [Buf.caches, hjb] at this
    · -- the second loop read the list from its tail: the buffers it passed are behind `i`
      obtain ⟨-, as, bs, hrev, has⟩ := List.find?_eq_some_iff_append.mp hr
      refine ⟨bs.reverse, as.reverse, ?_, fun j hj => ?_⟩
      · rw [← List.reverse_reverse (order n c), hrev]
        simp
      · simpa using has j (List.mem_reverse.mp hj)

/-- `brelse` relinks the list only when the count falls to zero, and then moves the buffer to the
front. -/
theorem brelse_order (hc : Cyclic n c) {p i : Nat} {c' : BCache α} (hi : i < n) (h : brelse n c p i = .ok c') :
    Cyclic n c' ∧ order n c' = if uintDec (c.buf i).refcnt = 0 then i :: (order n c).erase i else order n c := by
  obtain ⟨-, ⟨h0, rfl⟩ | ⟨h0, rfl⟩⟩ := brelse_eq_ok h
  · rw [if_pos h0]
    exact (hc.setBuf i (released (c.buf i))).relink hi
  · rw [if_neg h0]
    exact ⟨hc.setBuf _ _, rfl⟩

/-! ## Processes calling the cache -/

/-- The cache and, as ghost state, the buffers each process got from `bget` and has not released,
and the buffers pinned and not yet unpinned. -/
structure LinkSys (α : Type) where
  cache : BCache α
  refs : List (Nat × Nat)
  pins : List Nat

/-- A call into `bio.c`. `bget` runs up to its `acquiresleep`, and `lock` is that `acquiresleep`
followed by `bread`'s read of the disk, which gives the data `d`. -/
inductive LinkEv (α : Type) where
  | bget (p b : Nat)
  | lock (p i : Nat) (d : α)
  | brelse (p i : Nat)
  | bpin (i : Nat)
  | bunpin (i : Nat)

/-- A buffer locked by `p` and read from the disk unless it was valid. -/
def locked (p : Nat) (d : α) (x : Buf α) : Buf α :=
  { x with holder := some p, valid := true, data := if x.valid then x.data else d }

@[simp] theorem locked_refcnt (p : Nat) (d : α) (x : Buf α) : (locked p d x).refcnt = x.refcnt := rfl
@[simp] theorem locked_holder (p : Nat) (d : α) (x : Buf α) : (locked p d x).holder = some p := rfl
@[simp] theorem locked_blockno (p : Nat) (d : α) (x : Buf α) : (locked p d x).blockno = x.blockno := rfl

variable (n) in
/-- A call, in any interleaving: `bget` by `p` gives it a reference, `lock` waits for the buffer's
lock, `brelse` panics unless the caller holds it, and `bpin` and `bunpin` name a buffer. -/
def linkNext (s : LinkSys α) : LinkEv α → Outcome (LinkSys α)
  | .bget p b => do
    let r ← Outcome.ofExcept (bget n s.cache b)
    return { s with cache := r.1, refs := s.refs ++ [(p, r.2)] }
  | .lock p i d =>
    if (p, i) ∈ s.refs ∧ (s.cache.buf i).holder = none then
      .ok { s with cache := s.cache.setBuf i (locked p d (s.cache.buf i)) }
    else .blocked
  | .brelse p i => do
    let c ← Outcome.ofExcept (brelse n s.cache p i)
    return { s with cache := c, refs := s.refs.erase (p, i) }
  | .bpin i => if i < n then .ok { s with cache := bpin s.cache i, pins := s.pins ++ [i] } else .blocked
  | .bunpin i => if i < n then .ok { s with cache := bunpin s.cache i, pins := s.pins.erase i } else .blocked

variable (n) in
/-- The calls as `log.c` makes them: a `bunpin` undoes an earlier `bpin` of its buffer. -/
def pinnedNext (s : LinkSys α) : LinkEv α → Outcome (LinkSys α)
  | .bunpin i => if i ∈ s.pins then linkNext n s (.bunpin i) else .blocked
  | e => linkNext n s e

variable (n) in
/-- The cache after `binit`, with nothing held. -/
def linkInit (zero : α) : LinkSys α := ⟨binit n zero, [], []⟩

variable (n) in
def linkSys (zero : α) : System (LinkSys α) (LinkEv α) := ⟨linkInit n zero, linkNext n⟩

variable (n) in
def pinnedSys (zero : α) : System (LinkSys α) (LinkEv α) := ⟨linkInit n zero, pinnedNext n⟩

/-- What the processes hold on buffer `i`: their references and pins. -/
def held (refs : List (Nat × Nat)) (pins : List Nat) (i : Nat) : Nat := refs.countP (·.2 == i) + pins.count i

variable (n) in
/-- The cache's invariant: the cycle, one buffer per block, each count made of what is held, and a
lock held only by a process holding a reference. -/
structure LinkInv (s : LinkSys α) : Prop where
  cyclic : Cyclic n s.cache
  keys : Keys (bufs n s.cache)
  refcnt : ∀ i < n, (s.cache.buf i).refcnt = held s.refs s.pins i
  holder : ∀ i p, (s.cache.buf i).holder = some p → (p, i) ∈ s.refs
  refs_lt : ∀ r ∈ s.refs, r.2 < n

/-! ### Frames for one changed buffer -/

theorem refcnt_update {buf : Nat → Buf α} {H H' : Nat → Nat} (h : ∀ j < n, (buf j).refcnt = H j) {i : Nat}
    {x : Buf α} (hx : i < n → x.refcnt = H' i) (hH : ∀ j, j ≠ i → H' j = H j) :
    ∀ j < n, (Function.update buf i x j).refcnt = H' j := by
  intro j hj
  by_cases hji : j = i
  · subst hji
    rw [Function.update_self]
    exact hx hj
  · rw [Function.update_of_ne hji, hH j hji]
    exact h j hj

theorem holder_update {buf : Nat → Buf α} {refs refs' : List (Nat × Nat)}
    (h : ∀ j p, (buf j).holder = some p → (p, j) ∈ refs) {i : Nat} {x : Buf α}
    (hx : ∀ p, x.holder = some p → (p, i) ∈ refs') (hrefs : ∀ j p, j ≠ i → (p, j) ∈ refs → (p, j) ∈ refs') :
    ∀ j p, (Function.update buf i x j).holder = some p → (p, j) ∈ refs' := by
  intro j p hp
  by_cases hji : j = i
  · subst hji
    rw [Function.update_self] at hp
    exact hx p hp
  · rw [Function.update_of_ne hji] at hp
    exact hrefs j p hji (h j p hp)

theorem held_addRef (refs : List (Nat × Nat)) (pins : List Nat) (p i j : Nat) :
    held (refs ++ [(p, i)]) pins j = held refs pins j + if j = i then 1 else 0 := by
  by_cases hji : j = i
  · simp [held, hji]
    omega
  · simp [held, hji, Ne.symm hji]

theorem held_eraseRef {refs : List (Nat × Nat)} {p i : Nat} (h : (p, i) ∈ refs) (pins : List Nat) (j : Nat) :
    held (refs.erase (p, i)) pins j + (if j = i then 1 else 0) = held refs pins j := by
  have hc := (List.perm_cons_erase h).countP_eq (·.2 == j)
  rw [List.countP_cons] at hc
  by_cases hji : j = i
  · simp only [held, hji, if_true] at hc ⊢
    simp at hc
    omega
  · simp only [held, hji, if_false] at hc ⊢
    simp [Ne.symm hji] at hc
    omega

theorem held_addPin (refs : List (Nat × Nat)) (pins : List Nat) (i j : Nat) :
    held refs (pins ++ [i]) j = held refs pins j + if j = i then 1 else 0 := by
  by_cases hji : j = i
  · simp [held, hji]
    omega
  · simp [held, hji, Ne.symm hji]

theorem held_erasePin (refs : List (Nat × Nat)) {pins : List Nat} {i : Nat} (h : i ∈ pins) (j : Nat) :
    held refs (pins.erase i) j + (if j = i then 1 else 0) = held refs pins j := by
  by_cases hji : j = i
  · subst hji
    have := List.count_pos_iff.mpr h
    simp only [held, List.count_erase_self, if_true]
    omega
  · simp [held, List.count_erase_of_ne hji, hji]

/-! ### What each call keeps -/

variable {s : LinkSys α}

theorem LinkInv.bget (hi : LinkInv n s) {p b i : Nat} {c' : BCache α} (h : bget n s.cache b = .ok (c', i)) :
    LinkInv n { s with cache := c', refs := s.refs ++ [(p, i)] } := by
  have hk : Keys (bufs n c') := by
    have hr := bget_refines hi.cyclic hi.keys b
    rw [h] at hr
    exact hi.keys.of_bget hr.symm
  have hin := (bget_lt hi.cyclic h).1
  have hrefs : ∀ r ∈ s.refs ++ [(p, i)], r.2 < n := by
    intro r hr
    rcases List.mem_append.mp hr with hr | hr
    · exact hi.refs_lt r hr
    · rw [List.mem_singleton.mp hr]
      exact hin
  have hheld : ∀ j, j ≠ i → held (s.refs ++ [(p, i)]) s.pins j = held s.refs s.pins j := by
    intro j hj
    simp [held_addRef, hj]
  rcases bget_eq_ok hi.cyclic h with ⟨-, rfl⟩ | ⟨-, hf, rfl⟩
  · refine ⟨hi.cyclic.setBuf _ _, hk, refcnt_update hi.refcnt (fun _ => ?_) hheld, ?_, hrefs⟩
    · show (s.cache.buf i).refcnt + 1 = held (s.refs ++ [(p, i)]) s.pins i
      rw [held_addRef, if_pos rfl, hi.refcnt i hin]
    · exact holder_update hi.holder (fun q hq => List.mem_append_left _ (hi.holder i q hq))
        (fun j q _ hq => List.mem_append_left _ hq)
  · -- the free buffer taken over held nothing, and now holds the new reference
    have h0 : (s.cache.buf i).refcnt = 0 := by simpa using List.find?_some hf
    refine ⟨hi.cyclic.setBuf _ _, hk, refcnt_update hi.refcnt (fun _ => ?_) hheld, ?_, hrefs⟩
    · have := hi.refcnt i hin
      show 1 = held (s.refs ++ [(p, i)]) s.pins i
      rw [held_addRef, if_pos rfl]
      omega
    · exact holder_update hi.holder (fun q hq => List.mem_append_left _ (hi.holder i q hq))
        (fun j q _ hq => List.mem_append_left _ hq)

theorem LinkInv.lock (hi : LinkInv n s) {p i : Nat} (d : α) (hp : (p, i) ∈ s.refs) :
    LinkInv n { s with cache := s.cache.setBuf i (locked p d (s.cache.buf i)) } where
  cyclic := hi.cyclic.setBuf _ _
  keys := hi.keys.update (locked_blockno p d _)
  refcnt := refcnt_update hi.refcnt (fun _ => hi.refcnt i (hi.refs_lt _ hp)) fun _ _ => rfl
  holder := holder_update hi.holder (fun q hq => by cases hq; exact hp) fun _ _ _ hq => hq
  refs_lt := hi.refs_lt

theorem LinkInv.brelse (hi : LinkInv n s) {p i : Nat} {c' : BCache α} (h : brelse n s.cache p i = .ok c') :
    LinkInv n { s with cache := c', refs := s.refs.erase (p, i) } := by
  obtain ⟨hp, hcase⟩ := brelse_eq_ok h
  have href := hi.holder i p hp
  have hin := hi.refs_lt _ href
  have hbuf : c'.buf = Function.update s.cache.buf i (released (s.cache.buf i)) := by
    rcases hcase with ⟨-, rfl⟩ | ⟨-, rfl⟩ <;> rfl
  have hkeys := hi.keys.update (released_blockno (s.cache.buf i))
  -- the cycle, relinked or not, and its buffers, reordered or not
  have hck : Cyclic n c' ∧ Keys (bufs n c') := by
    rcases hcase with ⟨-, rfl⟩ | ⟨-, rfl⟩
    · have hrel := (hi.cyclic.setBuf i (released (s.cache.buf i))).relink hin
      refine ⟨hrel.1, ?_⟩
      rw [bufs, hrel.2, hbuf]
      exact hkeys.of_perm ((List.perm_cons_erase (hi.cyclic.mem_order.mpr hin)).map _).symm
    · exact ⟨hi.cyclic.setBuf _ _, hkeys⟩
  refine ⟨hck.1, hck.2, ?_, ?_, fun r hr => hi.refs_lt r (List.mem_of_mem_erase hr)⟩
  · rw [hbuf]
    refine refcnt_update hi.refcnt (fun _ => ?_) (fun j hj => ?_)
    · have h1 := held_eraseRef href s.pins i
      have h2 := hi.refcnt i hin
      rw [if_pos rfl] at h1
      show uintDec (s.cache.buf i).refcnt = held (s.refs.erase (p, i)) s.pins i
      rw [uintDec_of_pos (by omega)]
      omega
    · have h1 := held_eraseRef href s.pins j
      simpa [hj] using h1
  · rw [hbuf]
    refine holder_update hi.holder (fun q hq => by simp at hq) (fun j q hj hq => ?_)
    exact List.mem_erase_of_ne (by simp [hj]) |>.mpr hq

theorem LinkInv.bpin (hi : LinkInv n s) {i : Nat} (hin : i < n) :
    LinkInv n { s with cache := bpin s.cache i, pins := s.pins ++ [i] } where
  cyclic := hi.cyclic.setBuf _ _
  keys := hi.keys.update rfl
  refcnt := refcnt_update hi.refcnt (fun _ => by simp [held_addPin, hi.refcnt i hin])
    fun j hj => by simp [held_addPin, hj]
  holder := holder_update hi.holder (hi.holder i) fun _ _ _ hq => hq
  refs_lt := hi.refs_lt

theorem LinkInv.bunpin (hi : LinkInv n s) {i : Nat} (hin : i < n) (hpin : i ∈ s.pins) :
    LinkInv n { s with cache := bunpin s.cache i, pins := s.pins.erase i } where
  cyclic := hi.cyclic.setBuf _ _
  keys := hi.keys.update rfl
  refcnt := by
    refine refcnt_update hi.refcnt (fun _ => ?_) (fun j hj => ?_)
    · have h1 := held_erasePin s.refs hpin i
      have h2 := hi.refcnt i hin
      rw [if_pos rfl] at h1
      show uintDec (s.cache.buf i).refcnt = held s.refs (s.pins.erase i) i
      rw [uintDec_of_pos (by omega)]
      omega
    · have h1 := held_erasePin s.refs hpin j
      simpa [hj] using h1
  holder := holder_update hi.holder (hi.holder i) fun _ _ _ hq => hq
  refs_lt := hi.refs_lt

/-- Every call of `pinnedSys` keeps the invariant. -/
theorem LinkInv.next (hi : LinkInv n s) {e : LinkEv α} {s' : LinkSys α} (h : pinnedNext n s e = .ok s') :
    LinkInv n s' := by
  cases e with
  | bget p b =>
    obtain ⟨r, hr, hs'⟩ := Outcome.bind_eq_ok.mp h
    cases hs'
    exact hi.bget (Outcome.ofExcept_eq_ok.mp hr)
  | lock p i d =>
    simp only [pinnedNext, linkNext] at h
    split at h
    · next hg =>
      cases h
      exact hi.lock d hg.1
    · cases h
  | brelse p i =>
    obtain ⟨c, hc, hs'⟩ := Outcome.bind_eq_ok.mp h
    cases hs'
    exact hi.brelse (Outcome.ofExcept_eq_ok.mp hc)
  | bpin i =>
    simp only [pinnedNext, linkNext] at h
    split at h
    · next hin =>
      cases h
      exact hi.bpin hin
    · cases h
  | bunpin i =>
    simp only [pinnedNext, linkNext] at h
    split at h
    · next hpin =>
      split at h
      · next hin =>
        cases h
        exact hi.bunpin hin hpin
      · cases h
    · cases h

theorem linkInv_init (zero : α) : LinkInv n (linkInit n zero) where
  cyclic := binit_cyclic zero
  keys := by
    rw [linkInit, binit_refines]
    intro b
    simp [Bio.binit, List.countP_replicate, Buf.caches]
  refcnt i _ := by
    simp [linkInit, binit, binitLoop_buf, held]
  holder i p hp := by
    simp [linkInit, binit, binitLoop_buf] at hp
  refs_lt _ hr := by cases hr

theorem pinnedSys_inv {zero : α} (hs : Reachable (pinnedSys n zero) s) : LinkInv n s :=
  Reachable.induct (pinnedSys n zero) (linkInv_init zero) (fun _ _ _ hi h => hi.next h) hs

/-- A buffer whose lock a process holds has a reference counted on it. -/
theorem LinkInv.refcnt_pos_of_holder (hi : LinkInv n s) {p i : Nat} (hp : (s.cache.buf i).holder = some p) :
    i < n ∧ 0 < (s.cache.buf i).refcnt := by
  have href := hi.holder i p hp
  have hin := hi.refs_lt _ href
  have hpos : 0 < s.refs.countP (·.2 == i) := List.countP_pos_iff.mpr ⟨(p, i), href, by simp⟩
  have := hi.refcnt i hin
  exact ⟨hin, by unfold held at this; omega⟩

/-- A pinned buffer has its pin counted on it. -/
theorem LinkInv.refcnt_pos_of_pin (hi : LinkInv n s) {i : Nat} (hin : i < n) (hpin : i ∈ s.pins) :
    0 < (s.cache.buf i).refcnt := by
  have hpos := List.count_pos_iff.mpr hpin
  have := hi.refcnt i hin
  unfold held at this
  omega

/-- In `pinnedSys`, no call lowers a count of zero. -/
theorem LinkInv.no_underflow (hi : LinkInv n s) {i : Nat} {s' : LinkSys α}
    (h : pinnedNext n s (.bunpin i) = .ok s' ∨ ∃ p, pinnedNext n s (.brelse p i) = .ok s') :
    0 < (s.cache.buf i).refcnt := by
  rcases h with h | ⟨p, h⟩
  · simp only [pinnedNext, linkNext] at h
    split at h
    · next hpin =>
      split at h
      · next hin => exact hi.refcnt_pos_of_pin hin hpin
      · cases h
    · cases h
  · obtain ⟨c, hc, -⟩ := Outcome.bind_eq_ok.mp h
    obtain ⟨hp, -⟩ := brelse_eq_ok (Outcome.ofExcept_eq_ok.mp hc)
    exact (hi.refcnt_pos_of_holder hp).2

/-! ## The list, the blocks and the counts over whole runs -/

/-- The buffer cache under calls as `log.c` makes them. In every reachable state the list through
`head` is a cycle linked both ways holding each buffer once; no two buffers cache one block; `bget`
returns the block's buffer if there is one, and otherwise takes over the free buffer nearest the
tail; `brelse` relinks only a buffer whose count falls to zero, moving it to the front; and no call
lowers a count of zero. -/
theorem bcache_lru_cycle {zero : α} (hs : Reachable (pinnedSys n zero) s) :
    (Chain s.cache.next s.cache.prev n (order n s.cache) n ∧ (order n s.cache).Perm (List.range n) ∧
      ∀ x ∈ n :: order n s.cache, s.cache.prev (s.cache.next x) = x ∧ s.cache.next (s.cache.prev x) = x) ∧
    (∀ i < n, ∀ j < n, ∀ b, (s.cache.buf i).blockno = some b → (s.cache.buf j).blockno = some b → i = j) ∧
    (∀ b c' i, bget n s.cache b = .ok (c', i) →
      i < n ∧ order n c' = order n s.cache ∧ (c'.buf i).blockno = some b ∧
      ((∃ j < n, (s.cache.buf j).blockno = some b) →
        (s.cache.buf i).blockno = some b ∧ (c'.buf i).refcnt = (s.cache.buf i).refcnt + 1) ∧
      ((∀ j < n, (s.cache.buf j).blockno ≠ some b) →
        (s.cache.buf i).refcnt = 0 ∧ (c'.buf i).refcnt = 1 ∧
          ∃ A B, order n s.cache = A ++ i :: B ∧ ∀ j ∈ B, (s.cache.buf j).refcnt ≠ 0)) ∧
    (∀ p i c', brelse n s.cache p i = .ok c' →
      order n c' = if (s.cache.buf i).refcnt - 1 = 0 then i :: (order n s.cache).erase i else order n s.cache) ∧
    (∀ i s', (pinnedNext n s (.bunpin i) = .ok s' ∨ ∃ p, pinnedNext n s (.brelse p i) = .ok s') →
      0 < (s.cache.buf i).refcnt) := by
  have hi := pinnedSys_inv hs
  have hc := hi.cyclic
  refine ⟨⟨hc.chain, hc.perm, fun x hx => ⟨hc.chain.prev_next x hx, hc.chain.next_prev x ?_⟩⟩,
    fun i hin j hjn b hib hjb => Keys.index_eq hi.keys (hc.mem_order.mpr hin) (hc.mem_order.mpr hjn) hib hjb,
    fun b c' i h => bget_spec hc h, fun p i c' h => ?_, fun i s' h => hi.no_underflow h⟩
  · simpa [or_comm] using hx
  · obtain ⟨hp, -⟩ := brelse_eq_ok h
    obtain ⟨hin, hpos⟩ := hi.refcnt_pos_of_holder hp
    rw [← uintDec_of_pos hpos]
    exact (brelse_order hc hin h).2

/-- Block 7 read into the cache of three buffers and released: it took over buffer 0, at the tail,
and went to the front. -/
theorem bcache_lru_cycle_three :
    ∃ s, Reachable (pinnedSys 3 ()) s ∧ order 3 s.cache = [0, 2, 1] ∧ (s.cache.buf 0).blockno = some 7 ∧
      ∀ j < 3, (s.cache.buf j).blockno = some 7 → j = 0 := by
  have hrun : (run (pinnedSys 3 ()) (pinnedSys 3 ()).init [.bget 1 7, .lock 1 0 (), .brelse 1 0]).holds
      (fun s => order 3 s.cache == [0, 2, 1] && (s.cache.buf 0).blockno == some 7) = true := by
    decide +kernel
  obtain ⟨s, hs, hp⟩ := Reachable.run_holds _ .init hrun
  simp only [Bool.and_eq_true, beq_iff_eq] at hp
  obtain ⟨-, hkeys, -⟩ := bcache_lru_cycle hs
  exact ⟨s, hs, hp.1, hp.2, fun j hj hjb => hkeys j hj 0 (by decide) 7 hjb hp.2⟩

/-- Without a contract on its caller, `bunpin` lowers a count of zero: right after `binit`, of a
buffer nobody pinned. `refcnt` is a `uint`, so the C decrement wraps to `2^32 - 1`. The bytes of the
buffers play no part: they are `()` here. -/
theorem bunpin_underflows :
    Reachable (linkSys nBuf ()) (linkInit nBuf ()) ∧ ((linkInit nBuf ()).cache.buf 0).refcnt = 0 ∧
      ∃ s', linkNext nBuf (linkInit nBuf ()) (.bunpin 0) = .ok s' ∧ (s'.cache.buf 0).refcnt = 4294967295 := by
  have h0 : ((linkInit nBuf ()).cache.buf 0).refcnt = 0 := by simp [linkInit, binit, binitLoop_buf]
  refine ⟨.init, h0, ?_⟩
  rw [linkNext, if_pos (show 0 < nBuf by decide)]
  refine ⟨_, rfl, ?_⟩
  simp only [bunpin, BCache.setBuf_buf, Function.update_self, h0]
  rfl

end Xv6.Bio.Links
