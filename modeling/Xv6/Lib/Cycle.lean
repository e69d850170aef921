import Mathlib

/-!
# Circular doubly linked lists

Nodes of any type linked through two pointer maps `next` and `prev`. `Chain next prev a t z` says
that the hops from `a` through the nodes `t` in order end at `z`, each hop linked both ways; a cycle
through a sentinel `h` is `Chain next prev h t h`.

* `chain_append` : a chain splits at any node, and two chains join;
* `Chain.congr` : a chain only reads `next` at its start and inner nodes and `prev` at its inner
  nodes and end;
* `Chain.reverse` : `prev` and `next` link the reversed nodes the other way;
* `walk`, `Chain.walk_next`, `Chain.walk_prev` : a loop that follows `next` (or `prev`) from the
  sentinel until it comes back visits the nodes in order (or in reverse);
* `Chain.prev_next`, `Chain.next_prev` : each node is the `prev` of its `next` and the `next` of its
  `prev`;
* `insertAfter`, `unlink` : the pointer assignments that put a node after the sentinel and take a
  node out, and the chains they leave (`Chain.insertAfter`, `Chain.unlink`).
-/

namespace DLink

variable {α : Type} {next prev next' prev' : α → α}

/-- The hops from `a` through the nodes `t` to `z` are linked both ways. -/
def Chain (next prev : α → α) : α → List α → α → Prop
  | a, [], z => next a = z ∧ prev z = a
  | a, b :: t, z => next a = b ∧ prev b = a ∧ Chain next prev b t z

@[simp] theorem chain_nil {a z : α} : Chain next prev a [] z ↔ next a = z ∧ prev z = a := Iff.rfl

@[simp] theorem chain_cons {a b z : α} {t : List α} :
    Chain next prev a (b :: t) z ↔ next a = b ∧ prev b = a ∧ Chain next prev b t z := Iff.rfl

theorem chain_append : ∀ {a : α} {s : List α} {y : α} {u : List α} {z : α},
    Chain next prev a (s ++ y :: u) z ↔ Chain next prev a s y ∧ Chain next prev y u z
  | a, [], y, u, z => by simp [and_assoc]
  | a, b :: s, y, u, z => by simp [chain_append, and_assoc]

theorem Chain.congr : ∀ {a : α} {t : List α} {z : α}, Chain next prev a t z →
    (∀ x ∈ a :: t, next' x = next x) → (∀ x ∈ t ++ [z], prev' x = prev x) → Chain next' prev' a t z
  | a, [], z, h, hn, hp => ⟨(hn a (by simp)).trans h.1, (hp z (by simp)).trans h.2⟩
  | a, b :: t, z, h, hn, hp => by
    refine ⟨(hn a (by simp)).trans h.1, (hp b (by simp)).trans h.2.1, h.2.2.congr ?_ ?_⟩
    · intro x hx
      exact hn x (List.mem_cons_of_mem a hx)
    · intro x hx
      exact hp x (List.mem_cons_of_mem b hx)

theorem Chain.reverse : ∀ {a : α} {t : List α} {z : α}, Chain next prev a t z → Chain prev next z t.reverse a
  | a, [], z, h => ⟨h.2, h.1⟩
  | a, b :: t, z, h => by
    rw [List.reverse_cons, chain_append]
    exact ⟨h.2.2.reverse, h.2.1, h.1⟩

theorem Chain.prev_mem : ∀ {a x z : α} {A B : List α}, Chain next prev a (A ++ x :: B) z → prev x ∈ a :: A
  | a, x, z, [], B, h => by simp [h.2.1]
  | a, x, z, b :: A, B, h => List.mem_cons_of_mem a h.2.2.prev_mem

theorem Chain.next_mem : ∀ {a x z : α} {A B : List α}, Chain next prev a (A ++ x :: B) z → next x ∈ B ++ [z]
  | a, x, z, [], [], h => by simp [h.2.2.1]
  | a, x, z, [], c :: B, h => by simp [h.2.2.1]
  | a, x, z, b :: A, B, h => h.2.2.next_mem

theorem Chain.prev_next : ∀ {a : α} {t : List α} {z : α}, Chain next prev a t z →
    ∀ x ∈ a :: t, prev (next x) = x
  | a, [], z, h, x, hx => by
    rw [List.mem_singleton.mp hx, h.1, h.2]
  | a, b :: t, z, h, x, hx => by
    rcases List.mem_cons.mp hx with rfl | hx
    · rw [h.1, h.2.1]
    · exact h.2.2.prev_next x hx

theorem Chain.next_prev {a z : α} {t : List α} (h : Chain next prev a t z) :
    ∀ x ∈ t ++ [z], next (prev x) = x := by
  intro x hx
  have hx' : x ∈ z :: t.reverse := by simpa [or_comm] using hx
  exact h.reverse.prev_next x hx'

variable [DecidableEq α]

/-- The nodes from `x` on along `next`, until `stop` comes up, at most `fuel` of them. -/
def walk (next : α → α) (stop : α) : Nat → α → List α
  | 0, _ => []
  | fuel + 1, x => if x = stop then [] else x :: walk next stop fuel (next x)

/-- Following `next` from `a` to `z` visits the nodes of the chain in order. -/
theorem Chain.walk_next : ∀ {a : α} {t : List α} {z : α} {fuel : Nat}, Chain next prev a t z → z ∉ t →
    t.length < fuel → walk next z fuel (next a) = t
  | a, [], z, fuel + 1, h, _, _ => by simp [walk, h.1]
  | a, b :: t, z, fuel + 1, h, hz, hlen => by
    have hbz : b ≠ z := fun hb => hz (hb ▸ List.mem_cons_self)
    rw [h.1, walk, if_neg hbz]
    congr 1
    exact h.2.2.walk_next (fun ht => hz (List.mem_cons_of_mem b ht)) (by simpa using hlen)

/-- Following `prev` from `z` back to `a` visits the nodes of the chain in reverse. -/
theorem Chain.walk_prev {a z : α} {t : List α} {fuel : Nat} (h : Chain next prev a t z) (ha : a ∉ t)
    (hlen : t.length < fuel) : walk prev a fuel (prev z) = t.reverse :=
  h.reverse.walk_next (by simpa using ha) (by simpa using hlen)

/-! ## Relinking -/

/-- The assignments that put `x` right after `h`, in this order:
`x->next = h->next; x->prev = h; h->next->prev = x; h->next = x;` -/
def insertAfter (next prev : α → α) (h x : α) : (α → α) × (α → α) :=
  let next1 := Function.update next x (next h)
  let prev1 := Function.update prev x h
  let prev2 := Function.update prev1 (next1 h) x
  (Function.update next1 h x, prev2)

/-- The assignments that take `x` out: `x->next->prev = x->prev; x->prev->next = x->next;` -/
def unlink (next prev : α → α) (x : α) : (α → α) × (α → α) :=
  let prev1 := Function.update prev (next x) (prev x)
  (Function.update next (prev1 x) (next x), prev1)

/-- A node put after the sentinel of a cycle is its first node. -/
theorem Chain.insertAfter {h x : α} {t : List α} (hc : Chain next prev h t h) (hx : x ∉ h :: t)
    (hnd : (h :: t).Nodup) :
    Chain (insertAfter next prev h x).1 (insertAfter next prev h x).2 h (x :: t) h := by
  have hxh : x ≠ h := fun e => hx (e ▸ List.mem_cons_self)
  simp only [DLink.insertAfter, Function.update_of_ne hxh.symm]
  cases t with
  | nil =>
    obtain ⟨hn, -⟩ := hc
    simp [hn, hxh]
  | cons b t =>
    obtain ⟨hn, hp, hc⟩ := hc
    have hxb : x ≠ b := fun e => hx (by simp [e])
    have hbh : b ≠ h := fun e => (List.nodup_cons.mp hnd).1 (by simp [e])
    have hnd' : (b :: t).Nodup := (List.nodup_cons.mp hnd).2
    rw [hn]
    refine ⟨by simp, by simp [Function.update_of_ne hxb], by simp [Function.update_of_ne hxh],
      by simp, hc.congr ?_ ?_⟩
    · -- the new `next` differs from the old one only at `x` and `h`, which the chain skips
      intro y hy
      have hyx : y ≠ x := fun e => hx (by simp [← e, hy])
      have hyh : y ≠ h := fun e => (List.nodup_cons.mp hnd).1 (e ▸ hy)
      simp [Function.update_of_ne hyx, Function.update_of_ne hyh]
    · intro y hy
      have hyx : y ≠ x := by
        rintro rfl
        simp only [List.mem_append, List.mem_singleton] at hy
        exact hy.elim (fun e => hx (by simp [e])) hxh
      have hyb : y ≠ b := by
        rintro rfl
        simp only [List.mem_append, List.mem_singleton] at hy
        exact hy.elim (List.nodup_cons.mp hnd').1 hbh
      simp [Function.update_of_ne hyx, Function.update_of_ne hyb]

theorem unlink_prev_self {x : α} (hx : next x ≠ x) : (unlink next prev x).2 x = prev x :=
  Function.update_of_ne hx.symm _ _

/-- A node taken out of a chain leaves the chain without it. The induction is on the nodes before
it; the two pointers `unlink` changes are those of its neighbours. -/
theorem Chain.unlink : ∀ {a x z : α} {A B : List α}, Chain next prev a (A ++ x :: B) z →
    (a :: (A ++ x :: B)).Nodup → z ∉ A ++ x :: B →
    Chain (unlink next prev x).1 (unlink next prev x).2 a (A ++ B) z
  | a, x, z, [], B, hc, hnd, hz => by
    obtain ⟨hn, hp, hB⟩ := hc
    have hxn : next x ≠ x := by
      intro e
      have hmem := e ▸ (show Chain next prev a ([] ++ x :: B) z from ⟨hn, hp, hB⟩).next_mem
      simp only [List.mem_append, List.mem_singleton] at hmem
      rcases hmem with hmem | rfl
      · exact (List.nodup_cons.mp (List.nodup_cons.mp hnd).2).1 hmem
      · exact hz (by simp)
    have hax : a ≠ x := fun e => (List.nodup_cons.mp hnd).1 (by simp [e])
    simp only [List.nil_append, DLink.unlink, Function.update_of_ne hxn.symm, hp]
    cases B with
    | nil => simp [hB.1]
    | cons c B =>
      obtain ⟨hxc, hcx, hc⟩ := hB
      rw [hxc]
      refine ⟨by simp, by simp, hc.congr ?_ ?_⟩
      · -- `a` comes before the chain from `c`
        intro y hy
        have hya : y ≠ a := fun e => (List.nodup_cons.mp hnd).1 (by simp [← e, hy])
        exact Function.update_of_ne hya _ _
      · intro y hy
        have hyc : y ≠ c := by
          rintro rfl
          simp only [List.mem_append, List.mem_singleton] at hy
          rcases hy with hy | rfl
          · exact (List.nodup_cons.mp (List.nodup_cons.mp (List.nodup_cons.mp hnd).2).2).1 hy
          · exact hz (by simp)
        exact Function.update_of_ne hyc _ _
  | a, x, z, b :: A, B, hc, hnd, hz => by
    obtain ⟨hn, hp, hrest⟩ := hc
    have hnd' := (List.nodup_cons.mp hnd).2
    have hz' : z ∉ A ++ x :: B := fun e => hz (List.mem_cons_of_mem b e)
    -- `x`'s neighbours are `b`'s successors, so neither is `a` or `b`
    have hxn : next x ≠ x := by
      intro e
      have hmem := e ▸ hrest.next_mem
      simp only [List.mem_append, List.mem_singleton] at hmem
      rcases hmem with hmem | rfl
      · exact (List.nodup_cons.mp (List.nodup_append.mp (List.nodup_cons.mp hnd').2).2.1).1 hmem
      · exact hz (by simp)
    refine ⟨?_, ?_, hrest.unlink hnd' hz'⟩
    · have hpa : (DLink.unlink next prev x).2 x ≠ a := by
        rw [unlink_prev_self hxn]
        intro e
        exact (List.nodup_cons.mp hnd).1 (List.mem_append_left _ (e ▸ hrest.prev_mem))
      exact (Function.update_of_ne hpa.symm _ _).trans hn
    · have hbn : b ≠ next x := by
        intro e
        have hmem := e ▸ hrest.next_mem
        simp only [List.mem_append, List.mem_singleton] at hmem
        rcases hmem with hmem | rfl
        · exact (List.nodup_cons.mp hnd').1 (by simp [hmem])
        · exact hz (by simp)
      exact (Function.update_of_ne hbn _ _).trans hp

end DLink
