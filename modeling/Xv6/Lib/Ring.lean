import Mathlib

/-!
# Ring buffers

A buffer of `m` slots, and counters that only grow: counter value `i` names slot `i % m`, and the
entries from a read counter `r` to a write counter `r + d`, `d ≤ m`, are a queue. A machine counter
wraps at a multiple of `m`, so `i % 2^w` names the slot `i` names (`slot_mod`).

* `slot`, `view` : the slot of a counter value; the queue of `d` entries from `r`;
* `view_succ`, `view_succ_left`, `view_add`, `drop_view` : a queue one longer at either end, split,
  or with its head taken;
* `slot_ne` : within one turn of the buffer, counter values name distinct slots;
* `view_congr_mod` : counters equal modulo `m` start the same queue;
* `view_update_of_ne`, `view_update_fresh`, `view_push` : a write outside the queue leaves it, and a
  write at the write counter appends to it.
-/

namespace Ring

variable {α : Type} {m : Nat} [NeZero m]

/-- The slot counter value `i` names: `i % m`. -/
def slot (m : Nat) [NeZero m] (i : Nat) : Fin m := ⟨i % m, Nat.mod_lt _ (Nat.pos_of_neZero m)⟩

/-- The `d` entries from counter value `r` on. -/
def view (buf : Fin m → α) (r d : Nat) : List α := (List.range d).map fun i => buf (slot m (r + i))

@[simp] theorem view_zero (buf : Fin m → α) (r : Nat) : view buf r 0 = [] := rfl

@[simp] theorem length_view (buf : Fin m → α) (r d : Nat) : (view buf r d).length = d := by
  simp [view]

theorem view_succ (buf : Fin m → α) (r d : Nat) :
    view buf r (d + 1) = view buf r d ++ [buf (slot m (r + d))] := by
  simp [view, List.range_succ]

theorem view_succ_left (buf : Fin m → α) (r d : Nat) :
    view buf r (d + 1) = buf (slot m r) :: view buf (r + 1) d := by
  simp only [view, List.range_succ_eq_map, List.map_cons, List.map_map, Nat.add_zero]
  congr 1
  refine List.map_congr_left fun i _ => ?_
  simp only [Function.comp_apply]
  congr 2
  omega

theorem view_add (buf : Fin m → α) (r a b : Nat) : view buf r (a + b) = view buf r a ++ view buf (r + a) b := by
  induction b with
  | zero => simp
  | succ b ih => rw [← Nat.add_assoc, view_succ, ih, view_succ, List.append_assoc, Nat.add_assoc]

/-- The queue with its first `a` entries taken. -/
theorem drop_view (buf : Fin m → α) (r a b : Nat) : (view buf r (a + b)).drop a = view buf (r + a) b := by
  rw [view_add, List.drop_left' (length_view buf r a)]

theorem getElem_view (buf : Fin m → α) (r d : Nat) {i : Nat} (hi : i < (view buf r d).length) :
    (view buf r d)[i] = buf (slot m (r + i)) := by
  simp [view]

/-- A counter taken modulo a multiple of `m` names the same slot. -/
theorem slot_mod {k : Nat} (h : m ∣ k) (i : Nat) : slot m (i % k) = slot m i := by
  simp only [slot, Nat.mod_mod_of_dvd i h]

theorem slot_eq_iff {i j : Nat} : slot m i = slot m j ↔ i % m = j % m := by
  simp [slot, Fin.ext_iff]

/-- Counters that name one slot start the same queue. -/
theorem view_congr_mod (buf : Fin m → α) {a b : Nat} (h : a % m = b % m) (d : Nat) :
    view buf a d = view buf b d := by
  apply List.map_congr_left
  intro i _
  have hs : slot m (a + i) = slot m (b + i) := slot_eq_iff.mpr (by rw [Nat.add_mod, h, ← Nat.add_mod])
  rw [hs]

/-- Counter values less than a turn apart name distinct slots. -/
theorem slot_ne (r : Nat) {i j : Nat} (hij : i < j) (hj : j < i + m) : slot m (r + i) ≠ slot m (r + j) := by
  intro h
  have hmod := slot_eq_iff.mp h
  have hdvd : m ∣ (r + j) - (r + i) := Nat.sub_mod_eq_zero_of_mod_eq hmod.symm |> Nat.dvd_of_mod_eq_zero
  have hpos : 0 < (r + j) - (r + i) := by omega
  have hle := Nat.le_of_dvd hpos hdvd
  omega

/-- A write to a slot outside the queue leaves it. -/
theorem view_update_of_ne (buf : Fin m → α) {r d : Nat} {s : Fin m} (x : α)
    (hs : ∀ i < d, slot m (r + i) ≠ s) : view (Function.update buf s x) r d = view buf r d := by
  apply List.map_congr_left
  intro i hi
  exact Function.update_of_ne (hs i (List.mem_range.mp hi)) x buf

/-- A write at the write counter of a queue shorter than the buffer leaves the queue. -/
theorem view_update_fresh (buf : Fin m → α) {r d : Nat} (hd : d < m) (x : α) :
    view (Function.update buf (slot m (r + d)) x) r d = view buf r d :=
  view_update_of_ne buf x fun i hi => slot_ne r hi (by omega)

/-- A write at the write counter appends to the queue. -/
theorem view_push (buf : Fin m → α) {r d : Nat} (hd : d < m) (x : α) :
    view (Function.update buf (slot m (r + d)) x) r (d + 1) = view buf r d ++ [x] := by
  rw [view_succ, view_update_fresh buf hd, Function.update_self]

end Ring
