import Mathlib

/-!
# Transition systems with blocking and panicking steps

A system has an initial state and a step function. A step either moves to a new state, blocks (the
caller sleeps, or the step does not apply to the state), or panics with a message and stops the
machine.

* `Reachable` : states reached from the initial one by steps that move;
* `Reachable.induct` : an invariant that holds initially and is kept by every moving step holds in
  every reachable state;
* `run` : the steps of a trace in order; `Reachable.run_ok`, `Reachable.run_panic` turn a trace that
  ends in a state or a panic into a reachable state, or a reachable panic; `Reachable.run_last_panic`
  for a trace whose last step panics, `Reachable.run_holds` for one that ends in a state passing a
  check;
* `Outcome.bind` : steps in sequence, `Outcome.bind_eq_ok` to take a sequence that moved apart,
  `Outcome.bind_ne_blocked` for one that does not block;
* `foldlM_weighted` : a fold whose steps may fail, each step related by a weighted relation that
  composes, relates its start to its end with the sum of the weights.
-/

namespace Trans

/-- What one step does. -/
inductive Outcome (σ : Type) where
  | ok (s : σ)
  | blocked
  | panic (msg : String)
  deriving DecidableEq, Repr

/-- A step that either moves or stops the machine with the message of its `panic`. -/
def Outcome.ofExcept {σ : Type} : Except String σ → Outcome σ
  | .ok s => .ok s
  | .error m => .panic m

/-- A step made of steps: each runs on the state the one before moved to, and the first that blocks
or panics ends it. -/
def Outcome.bind {σ τ : Type} : Outcome σ → (σ → Outcome τ) → Outcome τ
  | .ok s, f => f s
  | .blocked, _ => .blocked
  | .panic m, _ => .panic m

instance : Monad Outcome where
  pure := .ok
  bind := Outcome.bind

@[simp] theorem Outcome.ok_bind {σ τ : Type} (s : σ) (f : σ → Outcome τ) : (Outcome.ok s >>= f) = f s := rfl

@[simp] theorem Outcome.blocked_bind {σ τ : Type} (f : σ → Outcome τ) : (Outcome.blocked >>= f) = .blocked := rfl

@[simp] theorem Outcome.panic_bind {σ τ : Type} (m : String) (f : σ → Outcome τ) :
    (Outcome.panic m >>= f) = .panic m := rfl

theorem Outcome.bind_eq_ok {σ τ : Type} {x : Outcome σ} {f : σ → Outcome τ} {t : τ} :
    x >>= f = .ok t ↔ ∃ s, x = .ok s ∧ f s = .ok t := by
  cases x <;> simp

/-- A sequence does not block when its first step does not, nor the rest from where that moved. -/
theorem Outcome.bind_ne_blocked {σ τ : Type} {x : Outcome σ} {f : σ → Outcome τ} (hx : x ≠ .blocked)
    (hf : ∀ s, x = .ok s → f s ≠ .blocked) : x >>= f ≠ .blocked := by
  cases x with
  | ok s => exact hf s rfl
  | blocked => exact absurd rfl hx
  | panic m => intro h; cases h

@[simp] theorem Outcome.pure_eq {σ : Type} (s : σ) : (pure s : Outcome σ) = .ok s := rfl

@[simp] theorem Outcome.ofExcept_eq_ok {σ : Type} {x : Except String σ} {s : σ} :
    Outcome.ofExcept x = .ok s ↔ x = .ok s := by
  cases x <;> simp [Outcome.ofExcept]

/-- A system: its initial state and its step function. -/
structure System (σ ε : Type) where
  init : σ
  next : σ → ε → Outcome σ

variable {σ ε : Type} (S : System σ ε)

/-- The states reached from the initial state by steps that move. -/
inductive Reachable : σ → Prop where
  | init : Reachable S.init
  | step {s s' : σ} (e : ε) : Reachable s → S.next s e = .ok s' → Reachable s'

/-- The invariant rule: what holds initially and is kept by every moving step holds in every
reachable state. -/
theorem Reachable.induct {P : σ → Prop} (h0 : P S.init)
    (hstep : ∀ s e s', P s → S.next s e = .ok s' → P s') {s : σ} (h : Reachable S s) : P s := by
  induction h with
  | init => exact h0
  | step e _ hs ih => exact hstep _ e _ ih hs

/-- The steps of a trace, in order, up to the first that does not move. -/
def run : σ → List ε → Outcome σ
  | s, [] => .ok s
  | s, e :: es =>
    match S.next s e with
    | .ok s' => run s' es
    | .blocked => .blocked
    | .panic m => .panic m

example : run ⟨(0 : Nat), fun s (e : Nat) => if e = 0 then .blocked else .ok (s + e)⟩ 1 [2, 0, 3] = .blocked := by
  simp [run]

theorem Reachable.run_ok {s : σ} (hs : Reachable S s) :
    ∀ {es : List ε} {s' : σ}, run S s es = .ok s' → Reachable S s'
  | [], s', h => by cases h; exact hs
  | e :: es, s', h => by
    simp only [run] at h
    split at h
    · next s1 h1 => exact Reachable.run_ok (Reachable.step e hs h1) h
    · cases h
    · cases h

/-- A trace that panics shows a reachable state with a step that panics. -/
theorem Reachable.run_panic {s : σ} (hs : Reachable S s) :
    ∀ {es : List ε} {m : String}, run S s es = .panic m → ∃ t e, Reachable S t ∧ S.next t e = .panic m
  | [], m, h => by cases h
  | e :: es, m, h => by
    simp only [run] at h
    split at h
    · next s1 h1 => exact Reachable.run_panic (Reachable.step e hs h1) h
    · cases h
    · next m' h1 => cases h; exact ⟨s, e, hs, h1⟩

theorem run_append (s : σ) (es es' : List ε) :
    run S s (es ++ es') = match run S s es with
      | .ok t => run S t es'
      | .blocked => .blocked
      | .panic m => .panic m := by
  induction es generalizing s with
  | nil => rfl
  | cons e es ih =>
    simp only [List.cons_append, run]
    split
    · exact ih _
    · rfl
    · rfl

/-- A trace that moves up to its last step, which panics. -/
theorem Reachable.run_last_panic {s t : σ} {es : List ε} {e : ε} {m : String} (hs : Reachable S s)
    (hrun : run S s es = .ok t) (hlast : run S s (es ++ [e]) = .panic m) :
    Reachable S t ∧ S.next t e = .panic m := by
  refine ⟨Reachable.run_ok S hs hrun, ?_⟩
  rw [run_append, hrun] at hlast
  simp only [run] at hlast
  split at hlast
  · cases hlast
  · cases hlast
  · next m' h => cases hlast; exact h

/-- Whether an outcome is a state that passes the check `p`. -/
def Outcome.holds (p : σ → Bool) : Outcome σ → Bool
  | .ok s => p s
  | _ => false

/-- Whether an outcome is a panic with message `m`, for outcomes of states that equality cannot be
decided on. -/
def Outcome.panics (m : String) : Outcome σ → Bool
  | .panic m' => m' == m
  | _ => false

theorem Outcome.panics_iff {o : Outcome σ} {m : String} : o.panics m = true ↔ o = .panic m := by
  cases o <;> simp [Outcome.panics]

theorem Outcome.holds_iff {o : Outcome σ} {p : σ → Bool} : o.holds p = true ↔ ∃ s, o = .ok s ∧ p s = true := by
  cases o <;> simp [Outcome.holds]

/-- A trace that ends in a state passing a check shows a reachable state that passes it. -/
theorem Reachable.run_holds {s : σ} {es : List ε} {p : σ → Bool} (hs : Reachable S s)
    (h : (run S s es).holds p = true) : ∃ t, Reachable S t ∧ p t = true := by
  cases hr : run S s es with
  | ok t => rw [hr] at h; exact ⟨t, Reachable.run_ok S hs hr, h⟩
  | blocked => rw [hr] at h; cases h
  | panic m => rw [hr] at h; cases h

/-! ## Tables of per-process states -/

/-- Counting after one entry of a table changes. -/
theorem countP_set {α : Type} (q : α → Bool) : ∀ (l : List α) (i : Nat) (a x : α), l[i]? = some x →
    (l.set i a).countP q + (if q x then 1 else 0) = l.countP q + (if q a then 1 else 0)
  | [], _, _, _, h => by simp at h
  | y :: l, 0, a, x, h => by
    simp only [List.getElem?_cons_zero, Option.some.injEq] at h
    subst h
    simp only [List.set_cons_zero, List.countP_cons]
    omega
  | y :: l, i + 1, a, x, h => by
    simp only [List.getElem?_cons_succ] at h
    have ih := countP_set q l i a x h
    simp only [List.set_cons_succ, List.countP_cons]
    omega

/-- Summing over a table after one entry changes. -/
theorem sum_map_set {α : Type} (f : α → Nat) : ∀ (l : List α) (i : Nat) (a x : α), l[i]? = some x →
    ((l.set i a).map f).sum + f x = (l.map f).sum + f a
  | [], _, _, _, h => by simp at h
  | y :: l, 0, a, x, h => by
    simp only [List.getElem?_cons_zero, Option.some.injEq] at h
    subst h
    simp only [List.set_cons_zero, List.map_cons, List.sum_cons]
    omega
  | y :: l, i + 1, a, x, h => by
    simp only [List.getElem?_cons_succ] at h
    have ih := sum_map_set f l i a x h
    simp only [List.set_cons_succ, List.map_cons, List.sum_cons]
    omega

/-! ## Fallible folds -/

theorem ok_bind {α β ε : Type} (a : α) (f : α → Except ε β) : (Except.ok a >>= f) = f a := rfl

theorem bind_eq_ok {α β ε : Type} {x : Except ε α} {f : α → Except ε β} {b : β} :
    (x >>= f) = .ok b ↔ ∃ a, x = .ok a ∧ f a = .ok b := by
  cases x <;> simp [bind, Except.bind]

/-- A computation whose result, mapped, is known: it succeeded, with a result that maps to it. -/
theorem exists_of_toOption_map {α β ε : Type} {x : Except ε α} {f : α → β} {v : β}
    (h : x.toOption.map f = some v) : ∃ a, x = .ok a ∧ f a = v := by
  cases x with
  | error e => cases h
  | ok a => exact ⟨a, rfl, Option.some.inj h⟩

/-- A fold in `Except` that succeeds relates its start and end by `R` at the sum of the weights of
its elements, when each step does and the relation composes. -/
theorem foldlM_weighted {α β ε : Type} {f : α → β → Except ε α} (w : β → Nat)
    {R : Nat → α → α → Prop} (hzero : ∀ a, R 0 a a)
    (htrans : ∀ {m n : Nat} {a b c : α}, R m a b → R n b c → R (m + n) a c)
    (hstep : ∀ {a : α} {x : β} {b : α}, f a x = .ok b → R (w x) a b) :
    ∀ (xs : List β) {a b : α}, xs.foldlM f a = .ok b → R (xs.map w).sum a b
  | [], a, b, h => by
    cases h
    exact hzero a
  | x :: xs, a, b, h => by
    rw [List.foldlM_cons] at h
    cases hx : f a x with
    | error e =>
      rw [hx] at h
      cases h
    | ok a' =>
      rw [hx] at h
      rw [List.map_cons, List.sum_cons]
      exact htrans (hstep hx) (foldlM_weighted w hzero htrans hstep xs h)

end Trans
