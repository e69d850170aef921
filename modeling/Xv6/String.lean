import Mathlib
import Xv6.Lib.Bytes

/-!
# `memmove` (`string.c`)

Memory is a byte map and a pointer its address; `uint n` is a `UInt32`.

* `memmove mem dst src n` : the memory after `memmove(dst, src, n)`;
* `memmove_eq` : it holds the original `n` bytes from `src` at `dst`, and every other byte as it
  was, whichever way the two ranges overlap.
-/

namespace Xv6

open Bytes

/-- `memmove(dst, src, n)`: backward when the source starts below the destination and runs into it,
forward otherwise. The function returns `dst`; here, the memory it leaves. -/
def memmove (mem : Nat → UInt8) (dst src : Nat) (n : UInt32) : Nat → UInt8 :=
  if n = 0 then mem
  else if src < dst ∧ src + n.toNat > dst then copyDown mem n.toNat dst src
  else copyUp mem n.toNat dst src

/-- Each branch copies in the direction its test makes safe: backward when the destination starts
inside the source, forward when it starts at or below the source or past its end. -/
theorem memmove_eq (mem : Nat → UInt8) (dst src : Nat) (n : UInt32) :
    memmove mem dst src n = writeBytes mem dst (readBytes mem src n.toNat) := by
  unfold memmove
  split
  · rename_i h0
    subst h0
    exact (writeBytes_nil mem dst).symm
  split
  · rename_i hback
    exact copyDown_eq _ _ _ _ (.inl (Nat.le_of_lt hback.1))
  · rename_i hfwd
    exact copyUp_eq _ _ _ _ (by omega)

/-- Overlap by all but one byte, the destination above: copied backward. -/
example : readBytes (memmove (fun a => a.toUInt8) 1 0 3) 0 5 = [0, 0, 1, 2, 4] := by decide

end Xv6
