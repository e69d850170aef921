import Xv6.Lib.Printf

/-!
# `printf` (`kernel/printf.c`)

`printf(fmt, ...)` copies `fmt` to the console a byte at a time with `consputc`, and prints the
argument of each `%` conversion: `printint` for the integers, `printptr` for `%p`, the bytes of the
string for `%s`. The output here is the list of bytes passed to `consputc`; the lock and
`panicked`, which only order the output of several harts, are left out. `vprintf` in
`user/printf.c` has the same chain of conversions, and shares `conv` and `format` with this one.

`printint(xx, base, sign)` writes the digits of `x` into `buf[16]` from `buf[0]` on, then `-` when
`sign` is set and `xx < 0`, and prints `buf` from its last byte. `x` is `-xx` in that case and `xx`
otherwise, as an `unsigned long long`: `-xx` of the least `long long` wraps to itself, whose
unsigned value is its magnitude.

* `conv`, `convAt`, `format` : the conversion after a `%`, and what it prints;
* `Spec`, `Piece`, `fmtOf`, `emit` : the formats made of ordinary bytes and conversions, and what
  the pieces of one print;
* `printint_signed`, `printint_unsigned` : `printint` prints the canonical rendering of the signed
  value, or of the unsigned one;
* `length_printintBuf`, `printintBuf_le_iff` : how many bytes `printint` writes into `buf`; with
  base 16 they always fit (`length_printintBuf_hex`);
* `printfFormat_int`, `printfFormat_long` : what each integer conversion prints of its argument;
* `printptr_eq` : `0x` and sixteen digits, read back as `x`;
* `printf_fmtOf` : `printf` of a format made of pieces prints what `emit` says of them, for every
  argument list;
* `printf_lu_overflows` : `%lu` of `2 ^ 64 - 1` prints its twenty digits, after writing them to
  `buf[0]` up to `buf[19]`.
-/

namespace Xv6.Printf

open Fmt

/-! ## The conversions, shared with `vprintf` -/

/-- A conversion after its length modifier: `int` reads `va_arg(ap, int)`, `long` reads
`va_arg(ap, uint64)`. -/
inductive Conv
  | int (base : Nat) (sign : Bool)
  | long (base : Nat) (sign : Bool)
  | ptr
  | str
  | percent
  | unknown (c0 : UInt8)
  deriving DecidableEq, Repr

/-- The `else if` chain on the bytes `c0`, `c1`, `c2` after a `%`: the conversion, and how many
bytes past `c0` it takes (`i += 1`, `i += 2`). -/
def conv (c0 c1 c2 : UInt8) : Conv × Nat :=
  if c0 = 100 then (.int 10 true, 0)                                  -- d
  else if c0 = 108 ∧ c1 = 100 then (.long 10 true, 1)                 -- ld
  else if c0 = 108 ∧ c1 = 108 ∧ c2 = 100 then (.long 10 true, 2)      -- lld
  else if c0 = 117 then (.int 10 false, 0)                            -- u
  else if c0 = 108 ∧ c1 = 117 then (.long 10 false, 1)
  else if c0 = 108 ∧ c1 = 108 ∧ c2 = 117 then (.long 10 false, 2)
  else if c0 = 120 then (.int 16 false, 0)                            -- x
  else if c0 = 108 ∧ c1 = 120 then (.long 16 false, 1)
  else if c0 = 108 ∧ c1 = 108 ∧ c2 = 120 then (.long 16 false, 2)
  else if c0 = 112 then (.ptr, 0)                                     -- p
  else if c0 = 115 then (.str, 0)                                     -- s
  else if c0 = 37 then (.percent, 0)                                  -- %
  else (.unknown c0, 0)

/-- The conversion at the start of `fmt`: `c0`, and `c1`, `c2` read only past bytes that are not
`NUL`, as the source reads them. -/
def convAt (fmt : List UInt8) : Conv × Nat :=
  let c0 := fmt.headD 0
  let c1 := if c0 ≠ 0 then (fmt.drop 1).headD 0 else 0
  let c2 := if c1 ≠ 0 then (fmt.drop 2).headD 0 else 0
  conv c0 c1 c2

/-- `"(null)"` -/
def null : List UInt8 := [40, 110, 117, 108, 108, 41]

/-- What a conversion prints, and the arguments after the one it reads. `printInt` and `printLong`
are the calls `printint(va_arg(ap, int), ...)` and `printint(va_arg(ap, uint64), ...)`, with the
conversion of the argument to `printint`'s parameter. `none` where `va_arg` finds no argument of
its kind. -/
def format (printInt : Int32 → Nat → Bool → List UInt8) (printLong : UInt64 → Nat → Bool → List UInt8)
    (printptr : UInt64 → List UInt8) : Conv → List Arg → Option (List UInt8 × List Arg)
  | .int base sign, args => (vaInt args).map fun a => (printInt a.1 base sign, a.2)
  | .long base sign, args => (vaLong args).map fun a => (printLong a.1 base sign, a.2)
  | .ptr, args => (vaLong args).map fun a => (printptr a.1, a.2)
  | .str, args => (vaStr args).map fun a => ((a.1.getD null).takeWhile (· ≠ 0), a.2)
  | .percent, args => some ([37], args)
  | .unknown c0, args => some ([37, c0], args)

/-! ## Formats made of ordinary bytes and conversions -/

/-- The conversions a format may hold. -/
inductive Spec
  | d | ld | lld | u | lu | llu | x | lx | llx | p | s | percent
  deriving DecidableEq, Repr

/-- The bytes of a conversion after its `%`. -/
def Spec.text : Spec → List UInt8
  | .d => [100]
  | .ld => [108, 100]
  | .lld => [108, 108, 100]
  | .u => [117]
  | .lu => [108, 117]
  | .llu => [108, 108, 117]
  | .x => [120]
  | .lx => [108, 120]
  | .llx => [108, 108, 120]
  | .p => [112]
  | .s => [115]
  | .percent => [37]

/-- The conversion the bytes stand for. -/
def Spec.conv : Spec → Conv
  | .d => .int 10 true
  | .ld | .lld => .long 10 true
  | .u => .int 10 false
  | .lu | .llu => .long 10 false
  | .x => .int 16 false
  | .lx | .llx => .long 16 false
  | .p => .ptr
  | .s => .str
  | .percent => .percent

/-- A piece of a format: an ordinary byte, or a conversion. -/
inductive Piece
  | lit (c : UInt8)
  | spec (sp : Spec)
  deriving DecidableEq, Repr

def Piece.text : Piece → List UInt8
  | .lit c => [c]
  | .spec sp => 37 :: sp.text

/-- An ordinary byte is neither `%` nor the `NUL` that ends the format. -/
def Piece.Ok : Piece → Prop
  | .lit c => c ≠ 37 ∧ c ≠ 0
  | .spec _ => True

/-- The format the pieces spell. -/
def fmtOf (ps : List Piece) : List UInt8 := ps.flatMap Piece.text

/-- What the pieces print: an ordinary byte itself, and a conversion what `fmt` says, reading its
argument. -/
def emit (fmt : Conv → List Arg → Option (List UInt8 × List Arg)) :
    List Piece → List Arg → Option (List UInt8)
  | [], _ => some []
  | .lit c :: ps, args => (c :: ·) <$> emit fmt ps args
  | .spec sp :: ps, args => (fmt sp.conv args).bind fun r => (r.1 ++ ·) <$> emit fmt ps r.2

@[simp] theorem fmtOf_nil : fmtOf [] = [] := rfl

@[simp] theorem fmtOf_cons (p : Piece) (ps : List Piece) : fmtOf (p :: ps) = p.text ++ fmtOf ps :=
  List.flatMap_cons

/-- The chain reads a conversion off its bytes, whatever follows them. -/
theorem convAt_text (sp : Spec) (rest : List UInt8) :
    convAt (sp.text ++ rest) = (sp.conv, sp.text.length - 1) := by
  cases sp <;> rfl

theorem Spec.text_ne_nil (sp : Spec) : sp.text ≠ [] := by
  cases sp <;> nofun

theorem Spec.conv_ne_unknown (sp : Spec) (c : UInt8) : sp.conv ≠ .unknown c := by
  cases sp <;> nofun

/-! ## `printint`, `printptr` and the loop -/

/-- `digits`: `"0123456789abcdef"` -/
def digits : List UInt8 := [48, 49, 50, 51, 52, 53, 54, 55, 56, 57, 97, 98, 99, 100, 101, 102]

/-- The bytes `printint(xx, base, sign)` writes into `buf`, from `buf[0]` on. A 64-bit `x` takes at
most 64 turns of the digit loop in any base above `1`. -/
def printintBuf (xx : Int64) (base : Nat) (sign : Bool) : List UInt8 :=
  let neg := sign && decide (xx < 0)
  let x : UInt64 := if neg then (-xx).toUInt64 else xx.toUInt64
  (digitLoop base 64 x.toNat).map (digits.getD · 0) ++ if neg then [45] else []

/-- `printint(xx, base, sign)`: `buf` from the last byte written. -/
def printint (xx : Int64) (base : Nat) (sign : Bool) : List UInt8 := (printintBuf xx base sign).reverse

/-- `printptr(x)` -/
def printptr (v : UInt64) : List UInt8 := [48, 120] ++ (nibbleLoop 16 v).map (digits.getD · 0)

/-- The conversions of `printf`: an `int` argument is sign-extended to `printint`'s `long long`, a
`uint64` one taken as it is. -/
def printfFormat : Conv → List Arg → Option (List UInt8 × List Arg) :=
  format (fun v => printint v.toInt64) (fun v => printint v.toInt64) printptr

/-- The loop of `printf` from `fmt + i`, where `fmt` holds the bytes up to the `NUL`; each turn
reads a byte at least, so a turn more than `fmt` has bytes is enough. -/
def printfLoop : Nat → List UInt8 → List Arg → Option (List UInt8)
  | 0, _, _ => some []
  | _ + 1, [], _ => some []
  | fuel + 1, cx :: fmt, args =>
    if cx = 0 then some []
    else if cx ≠ 37 then (cx :: ·) <$> printfLoop fuel fmt args
    -- `else if(c0 == 0) break;`: a `%` at the end, the one way to `unknown 0`
    else if (convAt fmt).1 = .unknown 0 then some []
    else (printfFormat (convAt fmt).1 args).bind fun r =>
      (r.1 ++ ·) <$> printfLoop fuel (fmt.drop ((convAt fmt).2 + 1)) r.2

/-- `printf(fmt, ...)`: what it passes to `consputc`. -/
def printf (fmt : List UInt8) (args : List Arg) : Option (List UInt8) :=
  printfLoop (fmt.length + 1) fmt args

/-! ## What `printint` and `printptr` print -/

theorem digits_getD : ∀ d < 16, digits.getD d 0 = lower (Nat.digitChar d) := by decide

/-- `printint` prints the rendering of the value its loop takes, after a `-` for a negative signed
`xx`. -/
theorem printint_eq {base : Nat} (hb : 1 < base) (hb16 : base ≤ 16) (xx : Int64) (sign : Bool) :
    printint xx base sign = render lower base (sign && decide (xx < 0))
      (if sign && decide (xx < 0) then (-xx).toUInt64 else xx.toUInt64).toNat := by
  -- a 64-bit value is below `base ^ 64`: the loop's 64 turns are enough
  have hx : ∀ v : UInt64, v.toNat < base ^ (63 + 1) :=
    fun v => Nat.lt_of_lt_of_le v.toNat_lt (Nat.pow_le_pow_left hb _)
  rw [printint, printintBuf, List.reverse_append,
    digitLoop_table hb (fun d hd => digits_getD d (by omega)) (hx _), render]
  cases sign && decide (xx < 0) <;> rfl

/-- A signed `printint` prints the canonical rendering of `xx`, the least `long long` included. -/
theorem printint_signed {base : Nat} (hb : 1 < base) (hb16 : base ≤ 16) (xx : Int64) :
    printint xx base true = renderInt lower base xx.toInt := by
  have hlt : decide (xx < 0) = decide (xx.toInt < 0) := by
    simp only [Int64.lt_iff_toInt_lt, Int64.toInt_zero]
  rw [printint_eq hb hb16, renderInt, Bool.true_and, hlt]
  by_cases hneg : xx.toInt < 0
  · have h : xx < 0 := by simpa [Int64.lt_iff_toInt_lt] using hneg
    rw [decide_eq_true hneg, if_pos rfl, toNat_neg_toUInt64 h]
  · have h : ¬ xx < 0 := by simpa [Int64.lt_iff_toInt_lt] using hneg
    rw [decide_eq_false hneg, if_neg Bool.false_ne_true, toNat_toUInt64_of_nonneg h]

/-- An unsigned `printint` prints the canonical rendering of `xx` as an `unsigned long long`. -/
theorem printint_unsigned {base : Nat} (hb : 1 < base) (hb16 : base ≤ 16) (xx : Int64) :
    printint xx base false = render lower base false xx.toUInt64.toNat := by
  rw [printint_eq hb hb16, Bool.false_and, if_neg Bool.false_ne_true]

theorem length_printintBuf (xx : Int64) (base : Nat) (sign : Bool) :
    (printintBuf xx base sign).length = (printint xx base sign).length := by
  rw [printint, List.length_reverse]

/-- An unsigned value fits `buf` exactly when it has at most 16 digits. -/
theorem printintBuf_unsigned_le_iff {base : Nat} (hb : 1 < base) (hb16 : base ≤ 16) (xx : Int64) :
    (printintBuf xx base false).length ≤ 16 ↔ xx.toUInt64.toNat < base ^ 16 := by
  rw [length_printintBuf, printint_unsigned hb hb16, length_render, if_neg Bool.false_ne_true,
    Nat.zero_add, Nat.length_toDigits_le_iff hb (by decide)]

/-- A signed value fits `buf` exactly when it has at most 16 digits, or 15 with its `-`. -/
theorem printintBuf_signed_le_iff {base : Nat} (hb : 1 < base) (hb16 : base ≤ 16) (xx : Int64) :
    (printintBuf xx base true).length ≤ 16 ↔ xx.toInt.natAbs < base ^ (if xx < 0 then 15 else 16) := by
  rw [length_printintBuf, printint_signed hb hb16, renderInt, length_render]
  by_cases hneg : xx < 0
  · have h : xx.toInt < 0 := by simpa using Int64.lt_iff_toInt_lt.mp hneg
    rw [decide_eq_true h, if_pos rfl, if_pos hneg, ← Nat.length_toDigits_le_iff hb (by decide)]
    omega
  · have h : ¬ xx.toInt < 0 := by simpa using mt Int64.lt_iff_toInt_lt.mpr hneg
    rw [decide_eq_false h, if_neg Bool.false_ne_true, if_neg hneg, Nat.zero_add,
      Nat.length_toDigits_le_iff hb (by decide)]

/-- `%x`, `%lx` and `%llx` never write past `buf`: sixteen hexadecimal digits hold 64 bits. -/
theorem length_printintBuf_hex (xx : Int64) : (printintBuf xx 16 false).length ≤ 16 :=
  (printintBuf_unsigned_le_iff (by decide) (Nat.le_refl 16) xx).mpr xx.toUInt64.toNat_lt

/-- `%d` prints the canonical rendering of its `int` argument; `%u` and `%x` that of the argument
sign-extended to 64 bits, as an `unsigned long long`. -/
theorem printfFormat_int {base : Nat} (hb : 1 < base) (hb16 : base ≤ 16) (sign : Bool) (v : Int32)
    (args : List Arg) :
    printfFormat (.int base sign) (.ofInt v :: args) =
      some (if sign then renderInt lower base v.toInt
        else render lower base false v.toInt64.toUInt64.toNat, args) := by
  rw [printfFormat, format, vaInt_ofInt, Option.map_some]
  cases sign
  · rw [printint_unsigned hb hb16]
    rfl
  · rw [printint_signed hb hb16, Int32.toInt_toInt64]
    rfl

/-- The long conversions print the canonical rendering of their 64-bit argument, signed or not. -/
theorem printfFormat_long {base : Nat} (hb : 1 < base) (hb16 : base ≤ 16) (sign : Bool) (v : UInt64)
    (args : List Arg) :
    printfFormat (.long base sign) (.word v :: args) =
      some (if sign then renderInt lower base v.toInt64.toInt else render lower base false v.toNat, args) := by
  rw [printfFormat, format, vaLong, Option.map_some]
  cases sign
  · rw [printint_unsigned hb hb16, UInt64.toUInt64_toInt64]
    rfl
  · rw [printint_signed hb hb16]
    rfl

/-- `printptr` prints `0x` and sixteen hexadecimal digits, which read back as `x`. -/
theorem printptr_eq (v : UInt64) : ∃ ds : List Nat,
    printptr v = [48, 120] ++ ds.map (lower ∘ Nat.digitChar) ∧ ds.length = 16 ∧ (∀ d ∈ ds, d < 16) ∧
      Nat.ofDigits 16 ds.reverse = v.toNat := by
  obtain ⟨ds, hds, hrest⟩ := nibbleLoop_table digits_getD v
  exact ⟨ds, by rw [printptr, hds], hrest⟩

/-! ## What the loop prints -/

/-- Over a format made of pieces each piece takes one turn of the loop, and prints what `emit`
says of it. -/
theorem printfLoop_fmtOf : ∀ (ps : List Piece) (args : List Arg) {fuel : Nat},
    (∀ pc ∈ ps, pc.Ok) → (fmtOf ps).length < fuel →
      printfLoop fuel (fmtOf ps) args = emit printfFormat ps args
  | _, _, 0, _, hlen => absurd hlen (Nat.not_lt_zero _)
  | [], _, _ + 1, _, _ => rfl
  | .lit c :: ps, args, fuel + 1, hok, hlen => by
    obtain ⟨h37, h0⟩ : c ≠ 37 ∧ c ≠ 0 := hok _ List.mem_cons_self
    have hlen' : (fmtOf ps).length < fuel := by
      simp only [fmtOf_cons, Piece.text, List.length_append, List.length_singleton] at hlen
      omega
    rw [fmtOf_cons, Piece.text, List.singleton_append, printfLoop, if_neg h0, if_pos h37, emit,
      printfLoop_fmtOf ps args (fun pc h => hok pc (List.mem_cons_of_mem _ h)) hlen']
  | .spec sp :: ps, args, fuel + 1, hok, hlen => by
    have hlen' : (fmtOf ps).length < fuel := by
      simp only [fmtOf_cons, Piece.text, List.cons_append, List.length_cons, List.length_append] at hlen
      omega
    -- the conversion's bytes are taken with the `%`, and the next turn starts at the next piece
    have hdrop : (sp.text ++ fmtOf ps).drop (sp.text.length - 1 + 1) = fmtOf ps := by
      rw [Nat.sub_add_cancel (List.length_pos_iff.mpr sp.text_ne_nil), List.drop_left]
    rw [fmtOf_cons, Piece.text, List.cons_append, printfLoop, if_neg (by decide),
      if_neg (by decide : ¬ (37 : UInt8) ≠ 37), convAt_text, if_neg (sp.conv_ne_unknown 0), hdrop, emit]
    congr 1
    funext r
    rw [printfLoop_fmtOf ps r.2 (fun pc h => hok pc (List.mem_cons_of_mem _ h)) hlen']

/-- `printf` of a format made of pieces prints what `emit` says of them. -/
theorem printf_fmtOf (ps : List Piece) (hps : ∀ pc ∈ ps, pc.Ok) (args : List Arg) :
    printf (fmtOf ps) args = emit printfFormat ps args :=
  printfLoop_fmtOf ps args hps (Nat.lt_succ_self _)

/-- `%lu` of `2 ^ 64 - 1` prints its canonical rendering, but writes its twenty digits to `buf[0]`
up to `buf[19]`, past the sixteen bytes of `buf`. -/
theorem printf_lu_overflows :
    printf [37, 108, 117] [.word 18446744073709551615] = some (render lower 10 false 18446744073709551615) ∧
      (printintBuf (18446744073709551615 : UInt64).toInt64 10 false).length = 20 := by
  constructor
  · decide
  · decide

end Xv6.Printf
