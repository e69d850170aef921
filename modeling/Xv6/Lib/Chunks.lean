import Mathlib

/-!
# Streams read in chunks

A program that reads a stream with `read(fd, buf, n)` gets at most `n` bytes a call, and which
prefix of what is left it gets is the source's choice. A list `cs` of chunks fixes that choice: a
read returns the next chunk, cut to the request, and the part of a cut chunk it did not take comes
first the next time. Every split of a stream into nonempty pieces is such a list, and a read of `0`
bytes returns nothing.

* `readChunk n cs` : the bytes a read of `n` returns, and the chunks after it;
* `readChunk_append` : those bytes, then the chunks after it, are the stream;
* `length_readChunk_le`, `readChunk_eq_nil` : at most `n` bytes, and none only at the end of the
  stream or for `n = 0`;
* `Nonempty.readChunk` : the chunks after a read have no empty one either.
-/

namespace Chunks

variable {α : Type}

/-- What one `read` of `n` returns from the chunks `cs`, and the chunks it leaves. -/
def readChunk (n : Nat) : List (List α) → List α × List (List α)
  | [] => ([], [])
  | c :: cs => if c.length ≤ n then (c, cs) else (c.take n, c.drop n :: cs)

@[simp] theorem readChunk_nil (n : Nat) : readChunk n ([] : List (List α)) = ([], []) := rfl

theorem readChunk_cons (n : Nat) (c : List α) (cs : List (List α)) :
    readChunk n (c :: cs) = if c.length ≤ n then (c, cs) else (c.take n, c.drop n :: cs) := rfl

/-- No chunk is empty: a read of a positive count returns nothing only at the end. -/
def Nonempty (cs : List (List α)) : Prop := ∀ c ∈ cs, c ≠ []

instance [DecidableEq α] (cs : List (List α)) : Decidable (Nonempty cs) :=
  inferInstanceAs (Decidable (∀ c ∈ cs, c ≠ []))

theorem readChunk_append (n : Nat) (cs : List (List α)) :
    (readChunk n cs).1 ++ (readChunk n cs).2.flatten = cs.flatten := by
  cases cs with
  | nil => rfl
  | cons c cs =>
    rw [readChunk_cons]
    split
    · rfl
    · rw [List.flatten_cons, ← List.append_assoc, List.take_append_drop, List.flatten_cons]

theorem length_readChunk_le (n : Nat) (cs : List (List α)) : (readChunk n cs).1.length ≤ n := by
  cases cs with
  | nil => exact Nat.zero_le n
  | cons c cs =>
    rw [readChunk_cons]
    split
    · assumption
    · exact List.length_take_le n c

/-- What is left after a read is the stream less what was read. -/
theorem length_readChunk_add (n : Nat) (cs : List (List α)) :
    (readChunk n cs).1.length + (readChunk n cs).2.flatten.length = cs.flatten.length := by
  rw [← List.length_append, readChunk_append]

theorem Nonempty.readChunk {cs : List (List α)} (h : Nonempty cs) (n : Nat) :
    Nonempty (Chunks.readChunk n cs).2 := by
  cases cs with
  | nil => exact h
  | cons c cs =>
    have hcs : Nonempty cs := fun d hd => h d (List.mem_cons_of_mem c hd)
    rw [readChunk_cons]
    split
    · exact hcs
    · next hlt =>
      intro d hd
      rcases List.mem_cons.mp hd with rfl | hd
      · -- the part of `c` past `n` is not empty, since `c` is longer than `n`
        simpa [List.drop_eq_nil_iff] using hlt
      · exact hcs d hd

/-- A read returns nothing exactly at the end of the stream, or when it asks for nothing. -/
theorem readChunk_eq_nil {cs : List (List α)} (h : Nonempty cs) (n : Nat) :
    (readChunk n cs).1 = [] ↔ cs = [] ∨ n = 0 := by
  cases cs with
  | nil => simp
  | cons c cs =>
    have hc : c ≠ [] := h c List.mem_cons_self
    have hlen : 0 < c.length := List.length_pos_iff.mpr hc
    rw [readChunk_cons]
    split
    · next hle => simp only [hc, reduceCtorEq, false_or, false_iff]; omega
    · simp only [List.take_eq_nil_iff, hc, or_false, reduceCtorEq, false_or]

end Chunks
