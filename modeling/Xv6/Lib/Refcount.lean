import Mathlib

/-!
# Reference counts, and stateful code that may fail

A counter `c : κ → Nat` counts references. Code that takes the references of a multiset `taken` and
drops those of `dropped` moves `c` to `c'` with `c' k + dropped.count k = c k + taken.count k` for
every `k`: that is `Moved c c' taken dropped`. Moves compose by adding the multisets.

Code in `StateT σ (Except ε)` that returns is taken apart at its binds by `run_bind_ok`, one bind
at a time.

* `Moved`; `Moved.refl`, `Moved.trans`, `Moved.take`, `Moved.drop`, `Moved.le`, `Moved.balance`,
  `Moved.rebase`, `moved_count`;
* `sum_map_set`, `sum_range_update` : a sum over a table after one entry changes;
  `sum_range_le_sum`, `sum_range_add_le_sum` : what indices drop against what the entries hold;
* `run_bind_ok`, `run_discard_ok`;
* `foldlM_ok_of_step` : the invariant rule of a loop over a list in `Except`.
-/

namespace Refcount

section Moved

variable {κ : Type} [DecidableEq κ] {c c' c'' : κ → Nat} {a a' d d' x : Multiset κ}

/-- `c'` is `c` with the references of `taken` added and those of `dropped` removed. -/
def Moved (c c' : κ → Nat) (taken dropped : Multiset κ) : Prop :=
  ∀ k, c' k + dropped.count k = c k + taken.count k

theorem Moved.refl (c : κ → Nat) : Moved c c 0 0 := fun _ => rfl

theorem Moved.trans (h1 : Moved c c' a d) (h2 : Moved c' c'' a' d') : Moved c c'' (a + a') (d + d') := by
  intro k
  have e1 := h1 k
  have e2 := h2 k
  simp only [Multiset.count_add]
  omega

/-- One more reference to `k`. -/
theorem Moved.take (k : κ) : Moved c (Function.update c k (c k + 1)) {k} 0 := by
  intro j
  by_cases hj : j = k
  · subst hj
    simp
  · simp [hj]

/-- One reference fewer to `k`, which has one. -/
theorem Moved.drop {k : κ} (hk : 0 < c k) : Moved c (Function.update c k (c k - 1)) 0 {k} := by
  intro j
  by_cases hj : j = k
  · subst hj
    simp only [Function.update_self, Multiset.count_singleton_self, Multiset.count_zero]
    omega
  · simp [hj]

/-- Code that drops nothing leaves every count at least where it was. -/
theorem Moved.le (h : Moved c c' a 0) (k : κ) : c k ≤ c' k := by
  have e := h k
  simp only [Multiset.count_zero] at e
  omega

/-- The same move, its multisets rearranged. -/
theorem Moved.balance (h : Moved c c' a d) (hm : a + d' = a' + d) : Moved c c' a' d' := by
  intro k
  have e := h k
  have m := congrArg (Multiset.count k) hm
  simp only [Multiset.count_add] at m
  omega

/-- A move counted from `c`, after `c` itself moved to `c'`: the multisets of that move go over to
the other side. -/
theorem Moved.rebase (h : Moved c c'' a d) (hc : Moved c c' a' d') : Moved c' c'' (a + d') (d + a') := by
  intro k
  have e := h k
  have e' := hc k
  simp only [Multiset.count_add]
  omega

/-- Counting in a multiset: adding `taken` and taking away `dropped` moves the counts so. -/
theorem moved_count {m m' : Multiset κ} (h : m' + d = m + a) :
    Moved (fun k => m.count k) (fun k => m'.count k) a d := by
  intro k
  have e := congrArg (Multiset.count k) h
  simpa only [Multiset.count_add] using e

end Moved

/-! ## Sums over tables -/

section Tables

variable {M : Type} [AddCommMonoid M]

/-- Summing over a list after one entry changes. -/
theorem sum_map_set {α : Type} (g : α → M) : ∀ (l : List α) (i : Nat) (a x : α), l[i]? = some x →
    ((l.set i a).map g).sum + g x = (l.map g).sum + g a
  | [], _, _, _, h => by simp at h
  | y :: l, 0, a, x, h => by
    simp only [List.getElem?_cons_zero, Option.some.injEq] at h
    subst h
    simp only [List.set_cons_zero, List.map_cons, List.sum_cons]
    abel
  | y :: l, i + 1, a, x, h => by
    simp only [List.getElem?_cons_succ] at h
    have ih := sum_map_set g l i a x h
    simp only [List.set_cons_succ, List.map_cons, List.sum_cons]
    rw [add_assoc, ih, add_assoc]

/-- Summing over the first `n` entries of a table after entry `k < n` changes. -/
theorem sum_range_update {β : Type} (g : β → M) (F : Nat → β) (v : β) :
    ∀ {n k : Nat}, k < n →
      ((List.range n).map fun j => g (Function.update F k v j)).sum + g (F k) =
        ((List.range n).map fun j => g (F j)).sum + g v
  | 0, _, hk => absurd hk (Nat.not_lt_zero _)
  | n + 1, k, hk => by
    simp only [List.range_succ, List.map_append, List.map_cons, List.map_nil, List.sum_append,
      List.sum_cons, List.sum_nil, add_zero]
    by_cases hkn : k = n
    · -- the entry changed is the last; the others are as they were
      subst hkn
      have hsame : ((List.range k).map fun j => g (Function.update F k v j)) =
          (List.range k).map fun j => g (F j) := by
        refine List.map_congr_left fun j hj => ?_
        rw [Function.update_of_ne (Nat.ne_of_lt (List.mem_range.mp hj))]
      rw [hsame, Function.update_self]
      abel
    · have ih := sum_range_update g F v (Nat.lt_of_le_of_ne (Nat.le_of_lt_succ hk) hkn)
      rw [Function.update_of_ne (Ne.symm hkn)]
      calc _ = (((List.range n).map fun j => g (Function.update F k v j)).sum + g (F k))
              + g (F n) := by abel
        _ = _ := by rw [ih]; abel

/-- Each index `q` of a table dropping at most what its entry holds, all of them drop at most what
the table holds. -/
theorem sum_range_le_sum {α κ : Type} (g : α → Multiset κ) :
    ∀ (l : List α) (d : Nat → Multiset κ), (∀ q x, l[q]? = some x → d q ≤ g x) →
      ((List.range l.length).map d).sum ≤ (l.map g).sum
  | [], _, _ => by simp
  | x :: l, d, h => by
    rw [List.length_cons, List.sum_range_succ', List.map_cons, List.sum_cons]
    exact add_le_add (h 0 x rfl) (sum_range_le_sum g l (fun q => d (q + 1)) fun q y hy => h (q + 1) y hy)

/-- The same, with what entry `p` holds beyond what index `p` drops left on top. -/
theorem sum_range_add_le_sum {α κ : Type} (g : α → Multiset κ) :
    ∀ (l : List α) (d : Nat → Multiset κ), (∀ q x, l[q]? = some x → d q ≤ g x) → ∀ p x, l[p]? = some x →
      ((List.range l.length).map d).sum + g x ≤ (l.map g).sum + d p
  | [], _, _, _, _, hp => by simp at hp
  | y :: l, d, h, 0, x, hp => by
    simp only [List.getElem?_cons_zero, Option.some.injEq] at hp
    subst hp
    rw [List.length_cons, List.sum_range_succ', List.map_cons, List.sum_cons]
    have hrest := sum_range_le_sum g l (fun q => d (q + 1)) fun q z hz => h (q + 1) z hz
    calc d 0 + ((List.range l.length).map fun q => d (q + 1)).sum + g y
        = ((List.range l.length).map fun q => d (q + 1)).sum + (g y + d 0) := by abel
      _ ≤ (l.map g).sum + (g y + d 0) := add_le_add hrest le_rfl
      _ = g y + (l.map g).sum + d 0 := by abel
  | y :: l, d, h, p + 1, x, hp => by
    simp only [List.getElem?_cons_succ] at hp
    rw [List.length_cons, List.sum_range_succ', List.map_cons, List.sum_cons]
    have ih := sum_range_add_le_sum g l (fun q => d (q + 1)) (fun q z hz => h (q + 1) z hz) p x hp
    calc d 0 + ((List.range l.length).map fun q => d (q + 1)).sum + g x
        = d 0 + (((List.range l.length).map fun q => d (q + 1)).sum + g x) := by abel
      _ ≤ g y + ((l.map g).sum + d (p + 1)) := add_le_add (h 0 y rfl) ih
      _ = g y + (l.map g).sum + d (p + 1) := by abel

end Tables

/-! ## Code in `StateT σ (Except ε)` -/

section Run

variable {σ ε : Type}

theorem run_bind_ok {α β : Type} {x : StateT σ (Except ε) α} {f : α → StateT σ (Except ε) β}
    {s s'' : σ} {b : β} :
    (x >>= f).run s = .ok (b, s'') ↔ ∃ a s', x.run s = .ok (a, s') ∧ (f a).run s' = .ok (b, s'') := by
  rw [StateT.run_bind]
  cases x.run s with
  | error e => simp [bind, Except.bind]
  | ok p =>
    obtain ⟨a, s'⟩ := p
    simp [bind, Except.bind]

theorem run_discard_ok {α : Type} {x : StateT σ (Except ε) α} {s s' : σ} {u : Unit} :
    (discard x).run s = .ok (u, s') ↔ ∃ a, x.run s = .ok (a, s') := by
  have hx : discard x = (x >>= fun _ => pure ()) := rfl
  rw [hx, run_bind_ok]
  constructor
  · rintro ⟨a, s1, h1, h2⟩
    cases h2
    exact ⟨a, h1⟩
  · rintro ⟨a, h1⟩
    exact ⟨a, s', h1, rfl⟩

/-- The invariant rule of a loop `l.foldlM f b` in `Except`: a step at `a`, where `a` follows the
elements `pre` done so far, moves `P pre` to `P (pre ++ [a])` and returns. -/
theorem foldlM_ok_of_step {α β : Type} (f : β → α → Except ε β) (P : List α → β → Prop) (l : List α)
    (hstep : ∀ pre a post b, pre ++ a :: post = l → P pre b → ∃ b', f b a = .ok b' ∧ P (pre ++ [a]) b')
    {b : β} (h0 : P [] b) : ∃ b', l.foldlM f b = .ok b' ∧ P l b' := by
  -- the rest of the loop, after `pre`
  suffices h : ∀ post pre b, pre ++ post = l → P pre b → ∃ b', post.foldlM f b = .ok b' ∧ P l b' from
    h l [] b rfl h0
  intro post
  induction post with
  | nil =>
    intro pre b hl hp
    rw [List.append_nil] at hl
    exact ⟨b, rfl, hl ▸ hp⟩
  | cons a post ih =>
    intro pre b hl hp
    obtain ⟨b', hf, hp'⟩ := hstep pre a post b hl hp
    rw [List.foldlM_cons, hf]
    exact ih (pre ++ [a]) b' (by rw [List.append_assoc]; exact hl) hp'

end Run

end Refcount
