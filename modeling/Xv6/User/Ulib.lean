import Mathlib
import Xv6.String

/-!
# `strchr`, `memmove` (`ulib.c`)

A `char *` string is the list of bytes from the pointer up to the `NUL` the program put after them;
a `0` inside the list ends the string there too, as `*s` does in the loop.

* `strchr s c` : the offset of the first `c` before the end of `s`, or `none` for the `0` it
  returns; the terminating `NUL` is never found;
* `strchr_eq_some`, `strchr_eq_none` : the first `c`, and no `c`, in a string with no `NUL`;
* `memmove mem vdst vsrc n` : the memory after the library's `memmove`, whose `n` is an `int`;
  `memmove_eq`, and `memmove_every_overlap` for it and the kernel's together.
-/

namespace Xv6.Ulib

/-- `strchr(s, c)`: `for(; *s; s++) if(*s == c) return s; return 0;` -/
def strchr : List UInt8 → UInt8 → Option Nat
  | [], _ => none
  | x :: xs, c => if x = 0 then none else if x = c then some 0 else (strchr xs c).map (· + 1)

/-- `strchr` finds `c` at offset `i` exactly when the bytes before it are neither `c` nor `NUL`. -/
theorem strchr_eq_some {c : UInt8} : ∀ {s : List UInt8} {i : Nat},
    strchr s c = some i ↔ ∃ pre post, s = pre ++ c :: post ∧ pre.length = i ∧ c ∉ pre ∧ 0 ∉ pre ∧ c ≠ 0
  | [], i => by simp [strchr]
  | x :: xs, i => by
    by_cases hx0 : x = 0
    · -- the `NUL` ends the string before any `c`
      rw [strchr, if_pos hx0]
      simp only [reduceCtorEq, false_iff, not_exists, not_and]
      intro pre post hs _ hc h0 hc0
      cases pre with
      | nil => exact hc0 ((List.cons.inj hs).1 ▸ hx0)
      | cons y pre => exact h0 ((List.cons.inj hs).1 ▸ hx0 ▸ List.mem_cons_self)
    by_cases hxc : x = c
    · rw [strchr, if_neg hx0, if_pos hxc, Option.some.injEq]
      constructor
      · intro hi
        exact ⟨[], xs, by rw [hxc]; rfl, hi, List.not_mem_nil, List.not_mem_nil, hxc ▸ hx0⟩
      · rintro ⟨pre, post, hs, hlen, hc, -, -⟩
        cases pre with
        | nil => exact hlen
        | cons y pre => exact absurd ((List.cons.inj hs).1 ▸ hxc ▸ List.mem_cons_self) hc
    · rw [strchr, if_neg hx0, if_neg hxc, Option.map_eq_some_iff]
      constructor
      · rintro ⟨j, hj, hji⟩
        obtain ⟨pre, post, hs, hlen, hc, h0, hc0⟩ := strchr_eq_some.mp hj
        refine ⟨x :: pre, post, by rw [hs]; rfl, by simp [hlen, hji], ?_, ?_, hc0⟩
        · simp [hc, Ne.symm hxc]
        · simp [h0, Ne.symm hx0]
      · rintro ⟨pre, post, hs, hlen, hc, h0, hc0⟩
        cases pre with
        | nil => exact absurd (List.cons.inj hs).1 hxc
        | cons y pre =>
          obtain ⟨-, hs⟩ := List.cons.inj hs
          have hne : c ∉ pre := fun h => hc (List.mem_cons_of_mem y h)
          have hne0 : (0 : UInt8) ∉ pre := fun h => h0 (List.mem_cons_of_mem y h)
          exact ⟨pre.length, strchr_eq_some.mpr ⟨pre, post, hs, rfl, hne, hne0, hc0⟩, by simpa using hlen⟩

/-- In a string with no `NUL`, `strchr` finds nothing exactly when `c` is not there, or is `0`. -/
theorem strchr_eq_none {c : UInt8} : ∀ {s : List UInt8}, 0 ∉ s → (strchr s c = none ↔ c ∉ s ∨ c = 0)
  | [], _ => by simp [strchr]
  | x :: xs, hs => by
    have hx0 : x ≠ 0 := fun h => hs (h ▸ List.mem_cons_self)
    have hxs : 0 ∉ xs := fun h => hs (List.mem_cons_of_mem x h)
    rw [strchr, if_neg hx0]
    by_cases hxc : x = c
    · rw [if_pos hxc]
      simp [hxc ▸ hx0, hxc]
    · rw [if_neg hxc, Option.map_eq_none_iff, strchr_eq_none hxs, List.mem_cons]
      constructor
      · rintro (h | h)
        · exact .inl (not_or.mpr ⟨fun h' => hxc h'.symm, h⟩)
        · exact .inr h
      · rintro (h | h)
        · exact .inl (not_or.mp h).2
        · exact .inr h

/-- In a string with no `NUL`, `strchr` finds the bytes of the string. -/
theorem strchr_isSome {s : List UInt8} (hs : 0 ∉ s) (c : UInt8) : (strchr s c).isSome = decide (c ∈ s) := by
  have h := strchr_eq_none (c := c) hs
  by_cases hc : c ∈ s
  · have hc0 : c ≠ 0 := fun h0 => hs (h0 ▸ hc)
    simp only [hc, decide_true, Option.isSome_iff_ne_none, ne_eq, h, not_true_eq_false, hc0, or_self,
      not_false_eq_true]
  · simp [hc, h]

/-! ## `memmove` -/

open Bytes in
/-- `memmove(vdst, vsrc, n)`: forward when the source lies above the destination, backward
otherwise; `while(n-- > 0)` turns `n` times for a positive `n` and not at all for another. The
function returns `vdst`; here, the memory it leaves. -/
def memmove (mem : Nat → UInt8) (vdst vsrc : Nat) (n : Int32) : Nat → UInt8 :=
  if vsrc > vdst then copyUp mem n.toInt.toNat vdst vsrc
  else copyDown mem n.toInt.toNat vdst vsrc

open Bytes in
/-- The library's test is not the kernel's, and copies backward also when the ranges are apart or
equal: a backward copy is safe whenever the destination does not lie below the source. -/
theorem memmove_eq (mem : Nat → UInt8) (vdst vsrc : Nat) (n : Int32) :
    memmove mem vdst vsrc n = writeBytes mem vdst (readBytes mem vsrc n.toInt.toNat) := by
  unfold memmove
  split
  · rename_i hfwd
    exact copyUp_eq _ _ _ _ (.inl (Nat.le_of_lt hfwd))
  · rename_i hback
    exact copyDown_eq _ _ _ _ (.inl (Nat.le_of_not_lt hback))

/-- Overlap by all but one byte, the destination below: copied forward. -/
example : Bytes.readBytes (memmove (fun a => a.toUInt8) 0 1 3) 0 5 = [1, 2, 3, 3, 4] := by decide

open Bytes in
/-- A `memmove`: the destination's `n` bytes are the source's as they were, and no byte outside the
destination changes. -/
theorem moved_bytes (mem : Nat → UInt8) (dst src n : Nat) :
    readBytes (writeBytes mem dst (readBytes mem src n)) dst n = readBytes mem src n ∧
      ∀ a, a < dst ∨ dst + n ≤ a → writeBytes mem dst (readBytes mem src n) a = mem a := by
  refine ⟨by simpa using readBytes_writeBytes mem dst (readBytes mem src n), fun a ha => ?_⟩
  rcases ha with ha | ha
  · exact writeBytes_of_lt _ ha
  · exact writeBytes_of_ge (by rw [length_readBytes]; exact ha)

open Bytes in
/-- Both `memmove`s are right for every overlap, either way round, and for disjoint ranges: the
kernel's for every `n`, the library's for every `n` (its `n` bytes for `n ≥ 0`), and the library's
changes nothing for `n ≤ 0`. -/
theorem memmove_every_overlap :
    (∀ (mem : Nat → UInt8) (dst src : Nat) (n : UInt32),
      readBytes (Xv6.memmove mem dst src n) dst n.toNat = readBytes mem src n.toNat ∧
        ∀ a, a < dst ∨ dst + n.toNat ≤ a → Xv6.memmove mem dst src n a = mem a) ∧
    (∀ (mem : Nat → UInt8) (dst src : Nat) (n : Int32),
      readBytes (memmove mem dst src n) dst n.toInt.toNat = readBytes mem src n.toInt.toNat ∧
        ∀ a, a < dst ∨ dst + n.toInt.toNat ≤ a → memmove mem dst src n a = mem a) ∧
    (∀ (mem : Nat → UInt8) (dst src : Nat) (n : Int32), n.toInt ≤ 0 → memmove mem dst src n = mem) := by
  refine ⟨fun mem dst src n => ?_, fun mem dst src n => ?_, fun mem dst src n hn => ?_⟩
  · rw [Xv6.memmove_eq]
    exact moved_bytes mem dst src n.toNat
  · rw [memmove_eq]
    exact moved_bytes mem dst src n.toInt.toNat
  · rw [memmove_eq, Int.toNat_of_nonpos hn]
    exact writeBytes_nil mem dst

end Xv6.Ulib
