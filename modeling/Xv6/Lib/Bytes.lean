import Mathlib

/-!
# Bytes: bits of a byte, little-endian words and ranges in a byte map

A byte map `Nat → UInt8` is a block's data, a page, or a kernel buffer.

* `bitMask k` : the mask `1 << k`; `and_bitMask_eq_zero`, `testBit_or_bitMask`,
  `testBit_and_not_bitMask` read the bits of a byte after a mask is tested, set or cleared;
* `get32`, `set32` : a 32-bit little-endian word at an address; `get32_set32_same`,
  `get32_set32_of_ne` (other aligned words), `set32_of_lt`, `set32_of_ge` (other bytes);
* `getLE`, `leByte` : an `n`-byte little-endian number, and the bytes of one; `getLE_leByte` reads
  them back, `getLE_lt` bounds one;
* `readBytes`, `writeBytes` : `n` bytes from an address, and `memmove` of a list to an address;
* `copyUp`, `copyDown` : the two loops of a byte-by-byte copy, lowest byte first and highest byte
  first; `copyUp_eq`, `copyDown_eq` : each writes the original source bytes to the destination
  when no byte it writes is one it has still to read.
-/

namespace Bytes

/-! ## Bits -/

/-- The mask `1 << k` of bit `k` of a byte. -/
def bitMask (k : Nat) : UInt8 := 1 <<< k.toUInt8

theorem toNat_bitMask {k : Nat} (hk : k < 8) : (bitMask k).toNat = 2 ^ k := by
  interval_cases k <;> rfl

theorem and_bitMask_eq_zero (x : UInt8) {k : Nat} (hk : k < 8) :
    (x &&& bitMask k) = 0 ↔ x.toNat.testBit k = false := by
  rw [← UInt8.toNat_inj, UInt8.toNat_and, toNat_bitMask hk, Nat.and_two_pow]
  cases x.toNat.testBit k <;> simp

theorem testBit_or_bitMask (x : UInt8) {j k : Nat} (hk : k < 8) :
    (x ||| bitMask k).toNat.testBit j = (decide (j = k) || x.toNat.testBit j) := by
  rw [UInt8.toNat_or, toNat_bitMask hk, Nat.testBit_or, Nat.testBit_two_pow]
  by_cases h : j = k <;> simp [h, eq_comm]

theorem testBit_and_not_bitMask (x : UInt8) {j k : Nat} (hj : j < 8) (hk : k < 8) :
    (x &&& ~~~bitMask k).toNat.testBit j = (!decide (j = k) && x.toNat.testBit j) := by
  rw [UInt8.toNat_and, UInt8.toNat_not, toNat_bitMask hk, Nat.testBit_and, Bool.and_comm]
  congr 1
  interval_cases j <;> interval_cases k <;> decide

/-! ## Little-endian words -/

/-- The 32-bit little-endian word at `a`. -/
def get32 (m : Nat → UInt8) (a : Nat) : Nat :=
  (m a).toNat + (m (a + 1)).toNat * 2 ^ 8 + (m (a + 2)).toNat * 2 ^ 16 + (m (a + 3)).toNat * 2 ^ 24

/-- `v` stored as a 32-bit little-endian word at `a`. -/
def set32 (m : Nat → UInt8) (a v : Nat) : Nat → UInt8 := fun b =>
  if a ≤ b ∧ b < a + 4 then (v / 2 ^ (8 * (b - a))).toUInt8 else m b

theorem get32_lt (m : Nat → UInt8) (a : Nat) : get32 m a < 2 ^ 32 := by
  have := (m a).toNat_lt
  have := (m (a + 1)).toNat_lt
  have := (m (a + 2)).toNat_lt
  have := (m (a + 3)).toNat_lt
  unfold get32
  omega

theorem set32_of_lt {m : Nat → UInt8} {a b : Nat} (v : Nat) (h : b < a) : set32 m a v b = m b := by
  simp [set32, Nat.not_le.mpr h]

theorem set32_of_ge {m : Nat → UInt8} {a b : Nat} (v : Nat) (h : a + 4 ≤ b) : set32 m a v b = m b := by
  simp [set32, Nat.not_lt.mpr h]

theorem get32_set32_same (m : Nat → UInt8) (a : Nat) {v : Nat} (hv : v < 2 ^ 32) :
    get32 (set32 m a v) a = v := by
  simp only [get32, set32, Nat.le_refl, Nat.le_add_right, true_and, Nat.add_sub_cancel_left,
    Nat.sub_self, Nat.lt_add_right_iff_pos, Nat.toUInt8]
  norm_num
  omega

/-- Distinct aligned words do not overlap. -/
theorem get32_set32_of_ne (m : Nat → UInt8) {j k : Nat} (v : Nat) (h : j ≠ k) :
    get32 (set32 m (4 * j) v) (4 * k) = get32 m (4 * k) := by
  have hout : ∀ i < 4, set32 m (4 * j) v (4 * k + i) = m (4 * k + i) := by
    intro i hi
    rcases Nat.lt_or_gt_of_ne h with hjk | hjk
    · exact set32_of_ge v (by omega)
    · exact set32_of_lt v (by omega)
  have h0 := hout 0 (by decide)
  simp only [Nat.add_zero] at h0
  simp only [get32, h0, hout 1 (by decide), hout 2 (by decide), hout 3 (by decide)]

/-- The `n`-byte little-endian number at `a`. -/
def getLE (m : Nat → UInt8) (a : Nat) : Nat → Nat
  | 0 => 0
  | n + 1 => (m a).toNat + 2 ^ 8 * getLE m (a + 1) n

theorem getLE_congr {m m' : Nat → UInt8} {a a' : Nat} :
    ∀ {n}, (∀ k < n, m (a + k) = m' (a' + k)) → getLE m a n = getLE m' a' n
  | 0, _ => rfl
  | n + 1, h => by
    have h0 := h 0 (Nat.succ_pos n)
    rw [Nat.add_zero, Nat.add_zero] at h0
    have hrest : getLE m (a + 1) n = getLE m' (a' + 1) n := getLE_congr fun k hk => by
      rw [Nat.add_right_comm, Nat.add_right_comm a']
      exact h (k + 1) (by omega)
    rw [getLE, getLE, h0, hrest]

/-- `n` bytes make a number below `2 ^ (8 * n)`. -/
theorem getLE_lt (m : Nat → UInt8) : ∀ a n, getLE m a n < 2 ^ (8 * n)
  | _, 0 => by rw [getLE, Nat.mul_zero, pow_zero]; exact Nat.one_pos
  | a, n + 1 => by
    have hbyte : (m a).toNat < 2 ^ 8 := (m a).toNat_lt
    have hrest := getLE_lt m (a + 1) n
    rw [getLE, Nat.mul_succ, pow_add]
    calc (m a).toNat + 2 ^ 8 * getLE m (a + 1) n
        < 2 ^ 8 + 2 ^ 8 * getLE m (a + 1) n := by omega
      _ = 2 ^ 8 * (getLE m (a + 1) n + 1) := by ring
      _ ≤ 2 ^ 8 * 2 ^ (8 * n) := Nat.mul_le_mul_left _ hrest
      _ = 2 ^ (8 * n) * 2 ^ 8 := Nat.mul_comm _ _

/-- Byte `k` of `x`, from the lowest: what a little-endian store of `x` puts at offset `k`. -/
def leByte (x k : Nat) : UInt8 := (x / 2 ^ (8 * k)).toUInt8

/-- The bytes of `x` from byte `s` on, read back: `n` of them make the number `x` has there. -/
theorem getLE_leByte (x : Nat) : ∀ n s, getLE (leByte x) s n = x / 2 ^ (8 * s) % 2 ^ (8 * n)
  | 0, s => by rw [getLE, Nat.mul_zero, pow_zero, Nat.mod_one]
  | n + 1, s => by
    have hdiv : x / 2 ^ (8 * (s + 1)) = x / 2 ^ (8 * s) / 2 ^ 8 := by
      rw [Nat.div_div_eq_div_mul, ← pow_add, Nat.mul_succ]
    rw [getLE, getLE_leByte x n (s + 1), hdiv, Nat.mul_succ, Nat.add_comm (8 * n), pow_add, Nat.mod_mul,
      leByte, UInt8.toNat_ofNat']

/-! ## Byte ranges -/

/-- The `n` bytes from `a`. -/
def readBytes (m : Nat → UInt8) (a n : Nat) : List UInt8 := (List.range n).map fun k => m (a + k)

/-- `memmove` of `bs` to `a`. -/
def writeBytes (m : Nat → UInt8) (a : Nat) (bs : List UInt8) : Nat → UInt8 := fun b =>
  if a ≤ b ∧ b < a + bs.length then bs.getD (b - a) 0 else m b

@[simp] theorem length_readBytes (m : Nat → UInt8) (a n : Nat) : (readBytes m a n).length = n := by
  simp [readBytes]

theorem getElem_readBytes (m : Nat → UInt8) (a n k : Nat) (hk : k < (readBytes m a n).length) :
    (readBytes m a n)[k] = m (a + k) := by
  simp [readBytes]

theorem writeBytes_of_lt {m : Nat → UInt8} {a b : Nat} (bs : List UInt8) (h : b < a) :
    writeBytes m a bs b = m b := by
  simp [writeBytes, Nat.not_le.mpr h]

theorem writeBytes_of_ge {m : Nat → UInt8} {a b : Nat} {bs : List UInt8} (h : a + bs.length ≤ b) :
    writeBytes m a bs b = m b := by
  simp [writeBytes, Nat.not_lt.mpr h]

theorem writeBytes_of_mem {m : Nat → UInt8} {a b : Nat} {bs : List UInt8} (h1 : a ≤ b)
    (h2 : b < a + bs.length) : writeBytes m a bs b = bs.getD (b - a) 0 := by
  simp [writeBytes, h1, h2]

theorem readBytes_add (m : Nat → UInt8) (a n k : Nat) :
    readBytes m a (n + k) = readBytes m a n ++ readBytes m (a + n) k := by
  simp only [readBytes, List.range_add, List.map_append, List.map_map, Function.comp_def,
    Nat.add_assoc]

theorem readBytes_writeBytes (m : Nat → UInt8) (a : Nat) (bs : List UInt8) :
    readBytes (writeBytes m a bs) a bs.length = bs := by
  apply List.ext_getElem (by simp)
  intro k hk _
  rw [getElem_readBytes, writeBytes_of_mem (Nat.le_add_right _ _) (by simpa using hk)]
  simp only [Nat.add_sub_cancel_left, List.getD_eq_getElem?_getD]
  simp_all

@[simp] theorem writeBytes_nil (m : Nat → UInt8) (a : Nat) : writeBytes m a [] = m := by
  funext b
  simp [writeBytes]

theorem writeBytes_append (m : Nat → UInt8) (a : Nat) (bs cs : List UInt8) :
    writeBytes m a (bs ++ cs) = writeBytes (writeBytes m a bs) (a + bs.length) cs := by
  funext b
  by_cases h1 : b < a + bs.length
  · rw [writeBytes_of_lt cs h1]
    by_cases h0 : a ≤ b
    · rw [writeBytes_of_mem h0 (by simp; omega), writeBytes_of_mem h0 h1,
        List.getD_append _ _ _ _ (by omega)]
    · rw [writeBytes_of_lt _ (by omega), writeBytes_of_lt _ (by omega)]
  · by_cases h2 : b < a + bs.length + cs.length
    · rw [writeBytes_of_mem (by omega) (by simp; omega), writeBytes_of_mem (by omega) h2,
        List.getD_append_right _ _ _ _ (by omega)]
      congr 1
      omega
    · rw [writeBytes_of_ge (by simp; omega), writeBytes_of_ge (by omega), writeBytes_of_ge (by omega)]

theorem writeBytes_singleton (m : Nat → UInt8) (a : Nat) (x : UInt8) :
    writeBytes m a [x] = Function.update m a x := by
  funext b
  by_cases h : b = a
  · subst h
    simp [writeBytes]
  · rw [Function.update_of_ne h]
    simp only [writeBytes, List.length_singleton]
    rw [if_neg (by omega)]

theorem readBytes_congr {m m' : Nat → UInt8} {a a' n : Nat} (h : ∀ k < n, m (a + k) = m' (a' + k)) :
    readBytes m a n = readBytes m' a' n := by
  simp only [readBytes]
  exact List.map_congr_left fun k hk => h k (List.mem_range.mp hk)

theorem readBytes_succ (m : Nat → UInt8) (a n : Nat) : readBytes m a (n + 1) = m a :: readBytes m (a + 1) n := by
  rw [Nat.add_comm, readBytes_add]
  simp [readBytes]

/-- The bytes from `a` do not see a write below `a` or past their end. -/
theorem readBytes_update_of_not_mem {m : Nat → UInt8} {a n b : Nat} (x : UInt8) (h : b < a ∨ a + n ≤ b) :
    readBytes (Function.update m b x) a n = readBytes m a n :=
  readBytes_congr fun k hk => Function.update_of_ne (by omega) _ _

/-- A write outside the range commutes with writing the range. -/
theorem writeBytes_update_of_not_mem {m : Nat → UInt8} {a b : Nat} {bs : List UInt8} (x : UInt8)
    (h : b < a ∨ a + bs.length ≤ b) :
    writeBytes (Function.update m b x) a bs = Function.update (writeBytes m a bs) b x := by
  funext c
  by_cases hc : c = b
  · subst hc
    rcases h with h | h
    · rw [writeBytes_of_lt _ h, Function.update_self, Function.update_self]
    · rw [writeBytes_of_ge h, Function.update_self, Function.update_self]
  · rw [Function.update_of_ne hc]
    simp only [writeBytes]
    split <;> simp [Function.update_of_ne hc]

theorem writeBytes_cons (m : Nat → UInt8) (a : Nat) (x : UInt8) (bs : List UInt8) :
    writeBytes m a (x :: bs) = writeBytes (Function.update m a x) (a + 1) bs := by
  rw [← List.singleton_append, writeBytes_append, writeBytes_singleton, List.length_singleton]

/-! ## Byte-by-byte copies -/

/-- `while(n-- > 0) *d++ = *s++;`: byte `s` to `d`, then the rest from `s + 1` to `d + 1`. -/
def copyUp (m : Nat → UInt8) : Nat → Nat → Nat → Nat → UInt8
  | 0, _, _ => m
  | n + 1, d, s => copyUp (Function.update m d (m s)) n (d + 1) (s + 1)

/-- `d += n; s += n; while(n-- > 0) *--d = *--s;`: byte `s + n - 1` to `d + n - 1` first, down to
byte `s` to `d`. -/
def copyDown (m : Nat → UInt8) : Nat → Nat → Nat → Nat → UInt8
  | 0, _, _ => m
  | n + 1, d, s => copyDown (Function.update m (d + n) (m (s + n))) n d s

/-- Copying lowest byte first is a `memmove` when the destination does not start inside the source
past its first byte: each byte written is one already read, or one never read. -/
theorem copyUp_eq : ∀ (n : Nat) (m : Nat → UInt8) (d s : Nat), d ≤ s ∨ s + n ≤ d →
    copyUp m n d s = writeBytes m d (readBytes m s n)
  | 0, m, _, _, _ => (writeBytes_nil m _).symm
  | n + 1, m, d, s, h => by
    rw [copyUp, copyUp_eq n _ (d + 1) (s + 1) (by omega),
      readBytes_update_of_not_mem _ (by omega), readBytes_succ, writeBytes_cons]

/-- Copying highest byte first is a `memmove` when the destination does not start below the source
and end inside it. -/
theorem copyDown_eq : ∀ (n : Nat) (m : Nat → UInt8) (d s : Nat), s ≤ d ∨ d + n ≤ s →
    copyDown m n d s = writeBytes m d (readBytes m s n)
  | 0, m, _, _, _ => (writeBytes_nil m _).symm
  | n + 1, m, d, s, h => by
    have hread := readBytes_update_of_not_mem (m := m) (a := s) (n := n) (b := d + n) (m (s + n)) (by omega)
    rw [copyDown, copyDown_eq n _ d s (by omega), hread, readBytes_add, writeBytes_append,
      writeBytes_update_of_not_mem _ (by rw [length_readBytes]; omega), length_readBytes,
      show readBytes m (s + n) 1 = [m (s + n)] from by simp [readBytes], writeBytes_singleton]

/-- What a `memmove` leaves at each address. -/
theorem writeBytes_readBytes_apply (m : Nat → UInt8) (d s n b : Nat) :
    writeBytes m d (readBytes m s n) b = if d ≤ b ∧ b < d + n then m (s + (b - d)) else m b := by
  simp only [writeBytes, length_readBytes]
  split
  · rename_i hb
    rw [List.getD_eq_getElem _ _ (by simp; omega), getElem_readBytes]
  · rfl

end Bytes
