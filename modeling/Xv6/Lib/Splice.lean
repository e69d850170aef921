import Mathlib

/-!
# A file as a list: writes at an offset, and reads

The abstract content of a file is a list; a write of `xs` at offset `o` within it overwrites the
elements from `o` on and extends the list where `xs` goes past its end; a read takes the elements
from `o` on, as many as are asked and there are.

* `splice c o xs` : the write; `length_splice`, `splice_nil`;
* `splice_append` : two writes one after the other are one write of the two lists;
* `slice c o n` : the read; `slice_splice` reads back what a write wrote, `slice_splice_mid` any
  part of it.
-/

namespace Splice

variable {α : Type}

/-- `xs` written over `c` from offset `o`. -/
def splice (c : List α) (o : Nat) (xs : List α) : List α :=
  c.take o ++ xs ++ c.drop (o + xs.length)

/-- The `n` elements from offset `o`, or those up to the end. -/
def slice (c : List α) (o n : Nat) : List α := (c.drop o).take n

variable {c : List α} {o : Nat}

theorem length_splice (h : o ≤ c.length) (xs : List α) :
    (splice c o xs).length = max c.length (o + xs.length) := by
  simp only [splice, List.length_append, List.length_take, List.length_drop]
  omega

@[simp] theorem splice_nil (c : List α) (o : Nat) : splice c o [] = c := by
  simp [splice]

/-- Writing `xs` and then `ys` right after it is writing `xs ++ ys`. -/
theorem splice_append (h : o ≤ c.length) (xs ys : List α) :
    splice (splice c o xs) (o + xs.length) ys = splice c o (xs ++ ys) := by
  have hlen : (c.take o ++ xs).length = o + xs.length := by simp [Nat.min_eq_left h]
  -- the first write ends at `o + xs.length`: before it the two writes, after it `c` again
  have hT : (c.take o ++ xs ++ c.drop (o + xs.length)).take (o + xs.length) = c.take o ++ xs :=
    List.take_left' hlen
  have hD : (c.take o ++ xs ++ c.drop (o + xs.length)).drop (o + xs.length + ys.length) =
      c.drop (o + xs.length + ys.length) := by
    rw [← List.drop_drop, List.drop_left' hlen, List.drop_drop]
  unfold splice
  rw [hT, hD, List.length_append, Nat.add_assoc]
  simp only [List.append_assoc]

/-- A read from where a write started gives back what it wrote. -/
theorem slice_splice (h : o ≤ c.length) (xs : List α) : slice (splice c o xs) o xs.length = xs := by
  have hlen : (c.take o).length = o := by simp [Nat.min_eq_left h]
  unfold slice splice
  rw [List.append_assoc, List.drop_left' hlen, List.take_left' rfl]

/-- A read of the first part of what a write wrote gives it back. -/
theorem slice_splice_append (h : o ≤ c.length) (xs ys : List α) :
    slice (splice c o (xs ++ ys)) o xs.length = xs := by
  have hlen : (c.take o).length = o := by simp [Nat.min_eq_left h]
  unfold slice splice
  rw [List.append_assoc, List.drop_left' hlen, List.append_assoc, List.take_left' rfl]

/-- A read of a middle part of a write gives it back: the parts of one write do not overlap. -/
theorem slice_splice_mid (h : o ≤ c.length) (xs ys zs : List α) :
    slice (splice c o (xs ++ ys ++ zs)) (o + xs.length) ys.length = ys := by
  rw [List.append_assoc, ← splice_append h]
  exact slice_splice_append (by rw [length_splice h]; omega) ys zs

end Splice
