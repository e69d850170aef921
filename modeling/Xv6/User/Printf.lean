import Xv6.Dev.Printf

/-!
# `vprintf` (`user/printf.c`)

`vprintf(fd, fmt, ap)` writes `fmt` to `fd` a byte at a time with `putc`, and the argument of each
`%` conversion. Its loop is a machine of two states: `0`, where a `%` moves it to `'%'` and any
other byte is printed, and `'%'`, where the byte and the one or two after it pick the conversion
(`conv`, shared with the kernel's `printf`) and the state goes back to `0`. The output here is the
list of bytes `putc` writes; `fd` is left out.

`printint(fd, xx, base, sgn)` takes an `int`, and its `x` is a `uint`: a `uint64` argument, for
`%ld` and the other long conversions, is cut to its low 32 bits on the way in.

* `printintBuf`, `printint`, `printptr`, `vprintfFormat`, `vprintfLoop`, `vprintf`;
* `printint_signed`, `printint_unsigned` : the canonical rendering of the `int`, or of the `uint`;
* `length_printintBuf_le` : in base 8 and up, at most 12 bytes go into `buf`;
* `printptr_eq` : `0x` and sixteen digits, read back as `x`;
* `vprintf_fmtOf` : `vprintf` of a format made of pieces prints what `emit` says of them;
* `vprintfFormat_int`, `vprintfFormat_long` : `%d`, `%u`, `%x` print their `int` argument, and
  the long conversions the low 32 bits of theirs;
* `vprintf_ld_truncates` : `%ld` of `2 ^ 32` prints `0`.
-/

namespace Xv6.Printf.User

open Fmt

/-- `digits`: `"0123456789ABCDEF"` -/
def digits : List UInt8 := [48, 49, 50, 51, 52, 53, 54, 55, 56, 57, 65, 66, 67, 68, 69, 70]

/-- The bytes `printint(fd, xx, base, sgn)` writes into `buf`, from `buf[0]` on. A 32-bit `x` takes
at most 32 turns of the digit loop in any base above `1`. -/
def printintBuf (xx : Int32) (base : Nat) (sgn : Bool) : List UInt8 :=
  let neg := sgn && decide (xx < 0)
  let x : UInt32 := if neg then (-xx).toUInt32 else xx.toUInt32
  (digitLoop base 32 x.toNat).map (digits.getD · 0) ++ if neg then [45] else []

/-- `printint(fd, xx, base, sgn)`: `buf` from the last byte written. -/
def printint (xx : Int32) (base : Nat) (sgn : Bool) : List UInt8 := (printintBuf xx base sgn).reverse

/-- `printptr(fd, x)` -/
def printptr (v : UInt64) : List UInt8 := [48, 120] ++ (nibbleLoop 16 v).map (digits.getD · 0)

/-- The conversions of `vprintf`: an `int` argument is passed to `printint` as it is, a `uint64` one
cut to an `int`. -/
def vprintfFormat : Conv → List Arg → Option (List UInt8 × List Arg) :=
  format printint (fun v => printint v.toUInt32.toInt32) printptr

/-- The loop of `vprintf` from `fmt + i`, where `fmt` holds the bytes up to the `NUL`; `state` is
`0` (`false`) or `'%'` (`true`). Each turn reads a byte at least, so a turn more than `fmt` has
bytes is enough. -/
def vprintfLoop : Nat → Bool → List UInt8 → List Arg → Option (List UInt8)
  | 0, _, _, _ => some []
  | _ + 1, _, [], _ => some []
  | fuel + 1, state, c0 :: fmt, args =>
    if c0 = 0 then some []
    else if !state then
      if c0 = 37 then vprintfLoop fuel true fmt args
      else (c0 :: ·) <$> vprintfLoop fuel false fmt args
    else (vprintfFormat (convAt (c0 :: fmt)).1 args).bind fun r =>
      (r.1 ++ ·) <$> vprintfLoop fuel false (fmt.drop (convAt (c0 :: fmt)).2) r.2

/-- `vprintf(fd, fmt, ap)`: what it writes to `fd`. -/
def vprintf (fmt : List UInt8) (args : List Arg) : Option (List UInt8) :=
  vprintfLoop (fmt.length + 1) false fmt args

/-! ## What `printint` prints -/

theorem digits_getD : ∀ d < 16, digits.getD d 0 = upper (Nat.digitChar d) := by decide

/-- `printint` prints the rendering of the value its loop takes, after a `-` for a negative signed
`xx`. -/
theorem printint_eq {base : Nat} (hb : 1 < base) (hb16 : base ≤ 16) (xx : Int32) (sgn : Bool) :
    printint xx base sgn = render upper base (sgn && decide (xx < 0))
      (if sgn && decide (xx < 0) then (-xx).toUInt32 else xx.toUInt32).toNat := by
  -- a 32-bit value is below `base ^ 32`: the loop's 32 turns are enough
  have hx : ∀ v : UInt32, v.toNat < base ^ (31 + 1) :=
    fun v => Nat.lt_of_lt_of_le v.toNat_lt (Nat.pow_le_pow_left hb _)
  rw [printint, printintBuf, List.reverse_append,
    digitLoop_table hb (fun d hd => digits_getD d (by omega)) (hx _), render]
  cases sgn && decide (xx < 0) <;> rfl

/-- A signed `printint` prints the canonical rendering of `xx`, the least `int` included. -/
theorem printint_signed {base : Nat} (hb : 1 < base) (hb16 : base ≤ 16) (xx : Int32) :
    printint xx base true = renderInt upper base xx.toInt := by
  have hlt : decide (xx < 0) = decide (xx.toInt < 0) := by
    simp only [Int32.lt_iff_toInt_lt, Int32.toInt_zero]
  rw [printint_eq hb hb16, renderInt, Bool.true_and, hlt]
  by_cases hneg : xx.toInt < 0
  · have h : xx < 0 := by simpa [Int32.lt_iff_toInt_lt] using hneg
    rw [decide_eq_true hneg, if_pos rfl, toNat_neg_toUInt32 h]
  · have h : ¬ xx < 0 := by simpa [Int32.lt_iff_toInt_lt] using hneg
    rw [decide_eq_false hneg, if_neg Bool.false_ne_true, toNat_toUInt32_of_nonneg h]

/-- An unsigned `printint` prints the canonical rendering of `xx` as a `uint`. -/
theorem printint_unsigned {base : Nat} (hb : 1 < base) (hb16 : base ≤ 16) (xx : Int32) :
    printint xx base false = render upper base false xx.toUInt32.toNat := by
  rw [printint_eq hb hb16, Bool.false_and, if_neg Bool.false_ne_true]

/-- In base 8 and up a 32-bit value has at most 11 digits, so `buf` is never overrun. -/
theorem length_printintBuf_le {base : Nat} (h8 : 8 ≤ base) (hb16 : base ≤ 16) (xx : Int32) (sgn : Bool) :
    (printintBuf xx base sgn).length ≤ 12 := by
  have hdigits : ∀ v : UInt32, (Nat.toDigits base v.toNat).length ≤ 11 := fun v => by
    rw [Nat.length_toDigits_le_iff (by omega) (by decide)]
    calc v.toNat < 8 ^ 11 := Nat.lt_of_lt_of_le v.toNat_lt (by decide)
      _ ≤ base ^ 11 := Nat.pow_le_pow_left h8 11
  have hlen := congrArg List.length (printint_eq (by omega) hb16 xx sgn)
  rw [printint, List.length_reverse, length_render] at hlen
  have hd := hdigits (if sgn && decide (xx < 0) then (-xx).toUInt32 else xx.toUInt32)
  have hsign : (if (sgn && decide (xx < 0)) = true then 1 else 0) ≤ 1 := by split <;> omega
  omega

/-- `printptr` prints `0x` and sixteen upper-case hexadecimal digits, which read back as `x`. -/
theorem printptr_eq (v : UInt64) : ∃ ds : List Nat,
    printptr v = [48, 120] ++ ds.map (upper ∘ Nat.digitChar) ∧ ds.length = 16 ∧ (∀ d ∈ ds, d < 16) ∧
      Nat.ofDigits 16 ds.reverse = v.toNat := by
  obtain ⟨ds, hds, hrest⟩ := nibbleLoop_table digits_getD v
  exact ⟨ds, by rw [printptr, hds], hrest⟩

/-! ## What the loop prints -/

/-- A conversion takes two turns: the `%`, then its bytes, which print what `vprintfFormat` says. -/
theorem vprintfLoop_spec (sp : Spec) (fuel : Nat) (rest : List UInt8) (args : List Arg) :
    vprintfLoop (fuel + 2) false ((Piece.spec sp).text ++ rest) args =
      (vprintfFormat sp.conv args).bind fun r => (r.1 ++ ·) <$> vprintfLoop fuel false rest r.2 := by
  cases sp <;> rfl

/-- Over a format made of pieces an ordinary byte takes one turn and a conversion two, and each
prints what `emit` says of it. -/
theorem vprintfLoop_fmtOf : ∀ (ps : List Piece) (args : List Arg) {fuel : Nat},
    (∀ pc ∈ ps, pc.Ok) → (fmtOf ps).length < fuel →
      vprintfLoop fuel false (fmtOf ps) args = emit vprintfFormat ps args
  | _, _, 0, _, hlen => absurd hlen (Nat.not_lt_zero _)
  | [], _, _ + 1, _, _ => rfl
  | .lit c :: ps, args, fuel + 1, hok, hlen => by
    obtain ⟨h37, h0⟩ : c ≠ 37 ∧ c ≠ 0 := hok _ List.mem_cons_self
    have hlen' : (fmtOf ps).length < fuel := by
      simp only [fmtOf_cons, Piece.text, List.length_append, List.length_singleton] at hlen
      omega
    rw [fmtOf_cons, Piece.text, List.singleton_append, vprintfLoop, if_neg h0, Bool.not_false, if_pos rfl,
      if_neg h37, emit, vprintfLoop_fmtOf ps args (fun pc h => hok pc (List.mem_cons_of_mem _ h)) hlen']
  | .spec sp :: ps, args, fuel + 1, hok, hlen => by
    -- the `%` and at least one byte after it: two turns
    have hlen' : (fmtOf ps).length + 2 < fuel + 1 := by
      have := List.length_pos_iff.mpr sp.text_ne_nil
      simp only [fmtOf_cons, Piece.text, List.cons_append, List.length_cons, List.length_append] at hlen
      omega
    obtain ⟨f, hf⟩ : ∃ f, fuel + 1 = f + 2 := ⟨fuel - 1, by omega⟩
    have hlenf : (fmtOf ps).length < f := by omega
    rw [fmtOf_cons, hf, vprintfLoop_spec, emit]
    congr 1
    funext r
    rw [vprintfLoop_fmtOf ps r.2 (fun pc h => hok pc (List.mem_cons_of_mem _ h)) hlenf]

/-- `vprintf` of a format made of pieces prints what `emit` says of them. -/
theorem vprintf_fmtOf (ps : List Piece) (hps : ∀ pc ∈ ps, pc.Ok) (args : List Arg) :
    vprintf (fmtOf ps) args = emit vprintfFormat ps args :=
  vprintfLoop_fmtOf ps args hps (Nat.lt_succ_self _)

/-- `%d`, `%u` and `%x` print the canonical rendering of their `int` argument, signed or as a
`uint`. -/
theorem vprintfFormat_int {base : Nat} (hb : 1 < base) (hb16 : base ≤ 16) (sign : Bool) (v : Int32)
    (args : List Arg) :
    vprintfFormat (.int base sign) (.ofInt v :: args) =
      some (if sign then renderInt upper base v.toInt else render upper base false v.toUInt32.toNat, args) := by
  rw [vprintfFormat, format, vaInt_ofInt, Option.map_some]
  cases sign
  · rw [printint_unsigned hb hb16]
    rfl
  · rw [printint_signed hb hb16]
    rfl

/-- The long conversions print the rendering of the low 32 bits of their argument. -/
theorem vprintfFormat_long {base : Nat} (hb : 1 < base) (hb16 : base ≤ 16) (sign : Bool) (v : UInt64)
    (args : List Arg) :
    vprintfFormat (.long base sign) (.word v :: args) =
      some (if sign then renderInt upper base v.toUInt32.toInt32.toInt
        else render upper base false v.toUInt32.toNat, args) := by
  rw [vprintfFormat, format, vaLong, Option.map_some]
  cases sign
  · rw [printint_unsigned hb hb16]
    rfl
  · rw [printint_signed hb hb16]
    rfl

/-- `%ld` of `2 ^ 32` prints `0`, where its canonical rendering is `4294967296`. -/
theorem vprintf_ld_truncates :
    vprintf [37, 108, 100] [.word 4294967296] = some [48] ∧
      renderInt upper 10 4294967296 = [52, 50, 57, 52, 57, 54, 55, 50, 57, 54] := by
  constructor
  · decide
  · decide

end Xv6.Printf.User
