import Mathlib

/-!
# Pieces of a `printf`: the digit loop and variadic arguments

`do { buf[i++] = digits[x % base]; } while((x /= base) != 0);` writes the digits of `x` from the
least significant one, and at least one. Read back from the last, they are `Nat.toDigits base x`,
the library's canonical rendering.

A variadic argument sits in a 64-bit slot, as the RISC-V calling convention passes it: an `int`
sign-extended, a `uint64`, or a pointer. `va_arg(ap, int)` reads the low half of an integer slot,
`va_arg(ap, uint64)` the whole slot, `va_arg(ap, char *)` a string. An argument of another kind,
or none at all, leaves the behaviour undefined: the readers give `none`.

* `digitLoop`, `digitLoop_eq_toDigits`, `digitLoop_table` : the loop, and its digits read back
  through a table of digit characters;
* `render`, `renderInt` : the canonical rendering, after a `-` for a negative value;
* `nibbleLoop`, `ofDigits_nibbleLoop`, `nibbleLoop_table` : the top nibbles of a 64-bit word, as
  `printptr` takes them, and the sixteen of them read back;
* `Arg`, `vaInt`, `vaLong`, `vaStr` : the slots and the three readers; `vaInt_ofInt` : an `int`
  passed comes back.
-/

namespace Fmt

/-- The digits the loop writes, least significant first; `fuel` bounds its turns. -/
def digitLoop (base : Nat) : Nat → Nat → List Nat
  | 0, _ => []
  | fuel + 1, x => x % base :: if x / base = 0 then [] else digitLoop base fuel (x / base)

/-- Below `base ^ (fuel + 1)` the loop ends by itself, and its digits read from the last are the
canonical rendering. -/
theorem digitLoop_eq_toDigits {base : Nat} (hb : 1 < base) {fuel x : Nat} (h : x < base ^ (fuel + 1)) :
    ((digitLoop base (fuel + 1) x).map Nat.digitChar).reverse = Nat.toDigits base x := by
  -- one turn per digit: induction on the turns left, for every value still to write
  induction fuel generalizing x with
  | zero =>
    have hlt : x < base := by rwa [Nat.zero_add, Nat.pow_one] at h
    rw [digitLoop, if_pos (Nat.div_eq_of_lt hlt), Nat.toDigits_of_lt_base hlt, Nat.mod_eq_of_lt hlt]
    rfl
  | succ fuel ih =>
    rw [digitLoop, Nat.toDigits_eq_if hb]
    by_cases hlt : x < base
    · rw [if_pos (Nat.div_eq_of_lt hlt), if_pos hlt, Nat.mod_eq_of_lt hlt]
      rfl
    · have hq : x / base ≠ 0 := by
        rw [ne_eq, Nat.div_eq_zero_iff]
        omega
      have hq' : x / base < base ^ (fuel + 1) := by
        rw [Nat.div_lt_iff_lt_mul (by omega), ← Nat.pow_succ]
        exact h
      rw [if_neg hq, if_neg hlt, List.map_cons, List.reverse_cons, ih hq']

theorem length_digitLoop {base : Nat} (hb : 1 < base) {fuel x : Nat} (h : x < base ^ (fuel + 1)) :
    (digitLoop base (fuel + 1) x).length = (Nat.toDigits base x).length := by
  rw [← digitLoop_eq_toDigits hb h, List.length_reverse, List.length_map]

/-- The digits are below the base. -/
theorem lt_of_mem_digitLoop {base : Nat} (hb : 0 < base) :
    ∀ {fuel x d : Nat}, d ∈ digitLoop base fuel x → d < base
  | 0, _, _, h => absurd h List.not_mem_nil
  | fuel + 1, x, d, h => by
    rw [digitLoop, List.mem_cons] at h
    rcases h with rfl | h
    · exact Nat.mod_lt x hb
    · split at h
      · exact absurd h List.not_mem_nil
      · exact lt_of_mem_digitLoop hb h

/-- Printed through a table that holds the digit characters, the loop's digits read from the last
are `Nat.toDigits` spelled by `f`. -/
theorem digitLoop_table {base : Nat} (hb : 1 < base) {table : List UInt8} {f : Char → UInt8}
    (htable : ∀ d < base, table.getD d 0 = f (Nat.digitChar d)) {fuel x : Nat}
    (h : x < base ^ (fuel + 1)) :
    ((digitLoop base (fuel + 1) x).map (table.getD · 0)).reverse = (Nat.toDigits base x).map f := by
  have hmap : (digitLoop base (fuel + 1) x).map (table.getD · 0) =
      ((digitLoop base (fuel + 1) x).map Nat.digitChar).map f := by
    rw [List.map_map]
    exact List.map_congr_left fun d hd => htable d (lt_of_mem_digitLoop (by omega) hd)
  rw [hmap, ← List.map_reverse, digitLoop_eq_toDigits hb h]

/-- The canonical rendering of `m` in base `base`, its digits spelled by `f`, after a `-` when
`neg`. -/
def render (f : Char → UInt8) (base : Nat) (neg : Bool) (m : Nat) : List UInt8 :=
  (if neg then [45] else []) ++ (Nat.toDigits base m).map f

theorem length_render (f : Char → UInt8) (base : Nat) (neg : Bool) (m : Nat) :
    (render f base neg m).length = (if neg then 1 else 0) + (Nat.toDigits base m).length := by
  rw [render, List.length_append, List.length_map]
  cases neg <;> rfl

/-- The canonical rendering of an integer. -/
def renderInt (f : Char → UInt8) (base : Nat) (v : Int) : List UInt8 :=
  render f base (decide (v < 0)) v.natAbs

/-! ## Magnitudes of machine integers -/

theorem toInt_eq_cond (xx : Int64) : xx.toInt =
    if 2 * xx.toUInt64.toNat < 2 ^ 64 then (xx.toUInt64.toNat : Int) else xx.toUInt64.toNat - 2 ^ 64 := by
  rw [Int64.toInt, BitVec.toInt_eq_toNat_cond]
  rfl

/-- `-xx` of a negative `xx`, unsigned, is its magnitude; the least value wraps to itself, whose
unsigned value is its magnitude too. -/
theorem toNat_neg_toUInt64 {xx : Int64} (h : xx < 0) : (-xx).toUInt64.toNat = xx.toInt.natAbs := by
  have hneg : xx.toInt < 0 := by simpa using Int64.lt_iff_toInt_lt.mp h
  have hti := toInt_eq_cond xx
  have hn : xx.toUInt64.toNat < 2 ^ 64 := xx.toUInt64.toNat_lt
  rw [Int64.toUInt64_neg, UInt64.toNat_neg, UInt64.size]
  split at hti <;> omega

theorem toNat_toUInt64_of_nonneg {xx : Int64} (h : ¬ xx < 0) : xx.toUInt64.toNat = xx.toInt.natAbs := by
  have hpos : ¬ xx.toInt < 0 := by simpa using mt Int64.lt_iff_toInt_lt.mpr h
  have hti := toInt_eq_cond xx
  have hn : xx.toUInt64.toNat < 2 ^ 64 := xx.toUInt64.toNat_lt
  split at hti <;> omega

/-- The same for `int` and `uint`. -/
theorem toInt32_eq_cond (xx : Int32) : xx.toInt =
    if 2 * xx.toUInt32.toNat < 2 ^ 32 then (xx.toUInt32.toNat : Int) else xx.toUInt32.toNat - 2 ^ 32 := by
  rw [Int32.toInt, BitVec.toInt_eq_toNat_cond]
  rfl

theorem toNat_neg_toUInt32 {xx : Int32} (h : xx < 0) : (-xx).toUInt32.toNat = xx.toInt.natAbs := by
  have hneg : xx.toInt < 0 := by simpa using Int32.lt_iff_toInt_lt.mp h
  have hti := toInt32_eq_cond xx
  have hn : xx.toUInt32.toNat < 2 ^ 32 := xx.toUInt32.toNat_lt
  rw [Int32.toUInt32_neg, UInt32.toNat_neg, UInt32.size]
  split at hti <;> omega

theorem toNat_toUInt32_of_nonneg {xx : Int32} (h : ¬ xx < 0) : xx.toUInt32.toNat = xx.toInt.natAbs := by
  have hpos : ¬ xx.toInt < 0 := by simpa using mt Int32.lt_iff_toInt_lt.mpr h
  have hti := toInt32_eq_cond xx
  have hn : xx.toUInt32.toNat < 2 ^ 32 := xx.toUInt32.toNat_lt
  split at hti <;> omega

/-- A digit character as a byte. -/
def lower (c : Char) : UInt8 := c.toNat.toUInt8

/-- A digit character as an upper-case byte. -/
def upper (c : Char) : UInt8 := c.toUpper.toNat.toUInt8

/-- `for(i = 0; i < n; i++, x <<= 4) put(digits[x >> 60]);`: the top nibble of `x`, `n` times,
shifting `x` up a nibble each time. -/
def nibbleLoop : Nat → UInt64 → List Nat
  | 0, _ => []
  | n + 1, x => (x >>> 60).toNat :: nibbleLoop n (x <<< 4)

theorem length_nibbleLoop : ∀ (n : Nat) (x : UInt64), (nibbleLoop n x).length = n
  | 0, _ => rfl
  | n + 1, x => by rw [nibbleLoop, List.length_cons, length_nibbleLoop n]

/-- One turn: the top nibble, and what the shift leaves, the rest moved up a nibble. -/
theorem toNat_nibble (x : UInt64) :
    (x >>> 60).toNat = x.toNat / 16 ^ 15 ∧ (x <<< 4).toNat = x.toNat % 16 ^ 15 * 16 := by
  constructor
  · simp [Nat.shiftRight_eq_div_pow]
  · have h := Nat.mul_mod_mul_right 16 x.toNat (16 ^ 15)
    simp only [UInt64.toNat_shiftLeft, Nat.shiftLeft_eq] at h ⊢
    exact h

/-- Dropping the top `n` of `n + k + 1` digits, then reading the rest less one, is the same as
reading the `n + k + 1` digits less `k`, less their top `n`. -/
theorem div_pow_split (x n k : Nat) :
    x % 16 ^ (n + k) * 16 / 16 ^ (k + 1) + 16 ^ n * (x / 16 ^ (n + k)) = x / 16 ^ k := by
  have hlow : x % 16 ^ (n + k) * 16 / 16 ^ (k + 1) = x % 16 ^ (n + k) / 16 ^ k := by
    rw [Nat.pow_succ, Nat.mul_div_mul_right _ _ (by decide)]
  have hx : x = 16 ^ k * (16 ^ n * (x / 16 ^ (n + k))) + x % 16 ^ (n + k) := by
    rw [← Nat.mul_assoc, ← Nat.pow_add, Nat.add_comm k n, Nat.div_add_mod]
  calc x % 16 ^ (n + k) * 16 / 16 ^ (k + 1) + 16 ^ n * (x / 16 ^ (n + k))
      = 16 ^ n * (x / 16 ^ (n + k)) + x % 16 ^ (n + k) / 16 ^ k := by rw [hlow, Nat.add_comm]
    _ = (16 ^ k * (16 ^ n * (x / 16 ^ (n + k))) + x % 16 ^ (n + k)) / 16 ^ k := by
      rw [Nat.mul_add_div (Nat.pow_pos (by decide : 0 < 16))]
    _ = x / 16 ^ k := by rw [← hx]

theorem lt_of_mem_nibbleLoop : ∀ {n : Nat} {x : UInt64} {d : Nat}, d ∈ nibbleLoop n x → d < 16
  | 0, _, _, h => absurd h List.not_mem_nil
  | n + 1, x, d, h => by
    rw [nibbleLoop, List.mem_cons] at h
    rcases h with rfl | h
    · rw [(toNat_nibble x).1]
      exact Nat.div_lt_of_lt_mul x.toNat_lt
    · exact lt_of_mem_nibbleLoop h

/-- The nibbles read as hexadecimal digits, the most significant first, are the top `n` nibbles of
`x`. -/
theorem ofDigits_nibbleLoop : ∀ {n : Nat} (x : UInt64), n ≤ 16 →
    Nat.ofDigits 16 (nibbleLoop n x).reverse = x.toNat / 16 ^ (16 - n)
  | 0, x, _ => by
    have hx : x.toNat < 16 ^ 16 := x.toNat_lt
    rw [nibbleLoop, List.reverse_nil, Nat.ofDigits_nil, Nat.sub_zero, Nat.div_eq_of_lt hx]
  | n + 1, x, hn => by
    obtain ⟨htop, hshift⟩ := toNat_nibble x
    obtain ⟨k, hk⟩ : ∃ k, 15 = n + k := ⟨15 - n, by omega⟩
    rw [hk] at htop hshift
    rw [nibbleLoop, List.reverse_cons, Nat.ofDigits_append, Nat.ofDigits_singleton,
      ofDigits_nibbleLoop _ (by omega), List.length_reverse, length_nibbleLoop, htop, hshift,
      show 16 - n = k + 1 by omega, show 16 - (n + 1) = k by omega]
    exact div_pow_split x.toNat n k

/-- All sixteen nibbles are the hexadecimal digits of `x`. -/
theorem ofDigits_nibbleLoop_sixteen (x : UInt64) : Nat.ofDigits 16 (nibbleLoop 16 x).reverse = x.toNat := by
  rw [ofDigits_nibbleLoop x (Nat.le_refl 16), Nat.sub_self, Nat.pow_zero, Nat.div_one]

/-- Printed through a table of digit characters, the sixteen nibbles are sixteen hexadecimal
digits that read back as `x`. -/
theorem nibbleLoop_table {table : List UInt8} {f : Char → UInt8}
    (htable : ∀ d < 16, table.getD d 0 = f (Nat.digitChar d)) (x : UInt64) :
    ∃ ds : List Nat, (nibbleLoop 16 x).map (table.getD · 0) = ds.map (f ∘ Nat.digitChar) ∧
      ds.length = 16 ∧ (∀ d ∈ ds, d < 16) ∧ Nat.ofDigits 16 ds.reverse = x.toNat :=
  ⟨nibbleLoop 16 x, List.map_congr_left fun d hd => htable d (lt_of_mem_nibbleLoop hd),
    length_nibbleLoop 16 x, fun _ hd => lt_of_mem_nibbleLoop hd, ofDigits_nibbleLoop_sixteen x⟩

/-- A variadic argument in its 64-bit slot: an integer, or a string (`none` for the null
pointer). -/
inductive Arg
  | word (v : UInt64)
  | str (s : Option (List UInt8))
  deriving DecidableEq, Repr

/-- An `int` argument, sign-extended into its slot. -/
def Arg.ofInt (v : Int32) : Arg := .word v.toInt64.toUInt64

/-- `va_arg(ap, int)`: the low 32 bits of the next slot. -/
def vaInt : List Arg → Option (Int32 × List Arg)
  | .word v :: args => some (v.toUInt32.toInt32, args)
  | _ => none

/-- `va_arg(ap, uint64)` -/
def vaLong : List Arg → Option (UInt64 × List Arg)
  | .word v :: args => some (v, args)
  | _ => none

/-- `va_arg(ap, char *)` -/
def vaStr : List Arg → Option (Option (List UInt8) × List Arg)
  | .str s :: args => some (s, args)
  | _ => none

theorem vaInt_ofInt (v : Int32) (args : List Arg) : vaInt (.ofInt v :: args) = some (v, args) := by
  have hv : v.toInt64.toUInt64.toUInt32.toInt32 = v := by
    apply Int32.toBitVec_inj.mp
    simp only [Int32.toBitVec_toInt64, UInt64.toBitVec_toUInt32, Int64.toBitVec_toUInt64,
      UInt32.toBitVec_toInt32]
    -- the low 32 bits of the sign extension are the bits of `v`
    apply BitVec.eq_of_getLsbD_eq
    intro i hi
    simp only [BitVec.getLsbD_setWidth, BitVec.getLsbD_signExtend, hi, decide_true, Bool.true_and]
    have h64 : i < 64 := by omega
    simp [h64, hi]
  rw [Arg.ofInt, vaInt, hv]

end Fmt
