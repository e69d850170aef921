import Xv6.Lib.Bytes

/-!
# Ranges laid end to end

A list of ranges `(lo, len)` tiles `[a, b)` when the first starts at `a`, each starts where the one
before it ended, and the last ends at `b`: nothing of `[a, b)` is left out, covered twice, or taken
out of order.

* `Tiles rs a b`; `Tiles.snoc` : one more range where the tiling ends;
* `Tiles.sum` : the lengths add up to `b - a`;
* `Tiles.flatMap_readBytes` : the bytes of the ranges, one after the other, are the bytes of
  `[a, b)`.
-/

namespace Ranges

open Bytes

/-- The ranges `rs` cover `[a, b)` one after the other. -/
def Tiles : List (Nat × Nat) → Nat → Nat → Prop
  | [], a, b => a = b
  | r :: rs, a, b => r.1 = a ∧ Tiles rs (a + r.2) b

@[simp] theorem tiles_nil {a b : Nat} : Tiles [] a b ↔ a = b := Iff.rfl

@[simp] theorem tiles_cons {r : Nat × Nat} {rs : List (Nat × Nat)} {a b : Nat} :
    Tiles (r :: rs) a b ↔ r.1 = a ∧ Tiles rs (a + r.2) b := Iff.rfl

/-- A range that starts where the tiling ends extends it. -/
theorem Tiles.snoc : ∀ {rs : List (Nat × Nat)} {a b : Nat}, Tiles rs a b → ∀ len : Nat,
    Tiles (rs ++ [(b, len)]) a (b + len)
  | [], a, b, h, len => by
    subst h
    simp
  | r :: rs, a, b, ⟨h1, h2⟩, len => ⟨h1, h2.snoc len⟩

theorem Tiles.sum : ∀ {rs : List (Nat × Nat)} {a b : Nat}, Tiles rs a b →
    a + (rs.map Prod.snd).sum = b
  | [], a, b, h => by simpa using h
  | r :: rs, a, b, ⟨_, h2⟩ => by
    rw [List.map_cons, List.sum_cons, ← Nat.add_assoc]
    exact h2.sum

/-- The bytes of the ranges from `o`, read one after the other, are the bytes of `[o + a, o + b)`. -/
theorem Tiles.flatMap_readBytes (m : Nat → UInt8) (o : Nat) :
    ∀ {rs : List (Nat × Nat)} {a b : Nat}, Tiles rs a b →
      rs.flatMap (fun r => readBytes m (o + r.1) r.2) = readBytes m (o + a) (b - a)
  | [], a, b, h => by
    subst h
    simp [readBytes]
  | r :: rs, a, b, ⟨h1, h2⟩ => by
    have hb := h2.sum
    rw [List.flatMap_cons, h2.flatMap_readBytes m o, h1,
      show b - a = r.2 + (b - (a + r.2)) by omega, readBytes_add, Nat.add_assoc]

end Ranges
