import Mathlib
import Xv6.User.Ulib

/-!
# The shell's tokens (`sh.c`: `gettoken`, `peek`)

The command line is the list `buf` of its bytes before the `NUL`; a pointer into it is a position,
`es` is `buf.length`, and the byte at `es` is the `NUL`. `gettoken` skips whitespace, reads one
token (a word, `|`, `(`, `)`, `;`, `&`, `<`, `>`, or `>>` as `+`), skips the whitespace after it,
and returns its first byte (`'a'` for a word, `0` at the end), with `q` and `eq` around it. `peek`
skips whitespace and says whether the next byte is one of `toks`.

`lexFrom buf ps` : the tokens `gettoken` reads from `ps` on, to the end of the line; every lemma the
parser's proofs use about `gettoken` and `peek` is stated through it.

* `skip` : the two scanning loops, `skipWs` and `skipWord`;
* `gettoken_cases` : the five things `gettoken` can do;
* `gettoken_of_lexFrom_cons`, `gettoken_of_lexFrom_nil` : `gettoken` reads the head of `lexFrom`,
  and moves to its tail; `lexFrom_skipWs` : skipping whitespace reads the same tokens;
* `peek_eq` : `peek` looks at the head of `lexFrom`;
* `WordAt`, `wordAt_of_mem` : a word token is a nonempty run of word bytes, ended by a byte that is
  not one, or by the end of the line;
* `length_lexFrom_le` : there are no more tokens than bytes.
-/

namespace Xv6.Sh

open Ulib

/-- `whitespace`: `" \t\r\n\v"` -/
def whitespace : List UInt8 := [32, 9, 13, 10, 11]

/-- `symbols`: `"<|>&;()"` -/
def symbols : List UInt8 := [60, 124, 62, 38, 59, 40, 41]

/-- `strchr(whitespace, c)` finds `c`. -/
def isWs (c : UInt8) : Bool := (strchr whitespace c).isSome

/-- `!strchr(whitespace, c) && !strchr(symbols, c)`: a byte of a word. -/
def isWordByte (c : UInt8) : Bool := !(strchr whitespace c).isSome && !(strchr symbols c).isSome

/-- `*s`: the byte at `s`, the `NUL` at the end of the line. -/
def byteAt (buf : List UInt8) (s : Nat) : UInt8 := buf.getD s 0

/-- `while(s < es && p(*s)) s++;` -/
def skip (p : UInt8 → Bool) (buf : List UInt8) (s : Nat) : Nat := s + ((buf.drop s).takeWhile p).length

/-- `while(s < es && strchr(whitespace, *s)) s++;` -/
def skipWs (buf : List UInt8) (s : Nat) : Nat := skip isWs buf s

/-- `while(s < es && !strchr(whitespace, *s) && !strchr(symbols, *s)) s++;` -/
def skipWord (buf : List UInt8) (s : Nat) : Nat := skip isWordByte buf s

/-- `gettoken(ps, es, q, eq)`: the token's first byte (`'a'` for a word, `'+'` for `>>`), `*q`,
`*eq`, and the new `*ps`. -/
def gettoken (buf : List UInt8) (ps : Nat) : UInt8 × Nat × Nat × Nat :=
  let s := skipWs buf ps
  let c := byteAt buf s
  let r : UInt8 × Nat :=
    if c = 0 then (0, s)
    else if c = 124 ∨ c = 40 ∨ c = 41 ∨ c = 59 ∨ c = 38 ∨ c = 60 then (c, s + 1)
    else if c = 62 then (if byteAt buf (s + 1) = 62 then (43, s + 2) else (62, s + 1))
    else (97, skipWord buf s)
  (r.1, s, r.2, skipWs buf r.2)

/-- `peek(ps, es, toks)`: whether the next byte is one of `toks`, and the new `*ps`. -/
def peek (buf : List UInt8) (ps : Nat) (toks : List UInt8) : Bool × Nat :=
  let s := skipWs buf ps
  (byteAt buf s ≠ 0 && (strchr toks (byteAt buf s)).isSome, s)

/-! ## Scanning -/

section Skip

variable {p : UInt8 → Bool} {buf : List UInt8} {s : Nat}

theorem takeWhile_getD {d : UInt8} : ∀ {l : List UInt8} {i : Nat},
    i < (l.takeWhile p).length → p (l.getD i d) = true
  | [], i, h => absurd h (Nat.not_lt_zero i)
  | a :: l, i, h => by
    by_cases ha : p a
    · rw [List.takeWhile_cons_of_pos ha, List.length_cons] at h
      cases i with
      | zero => exact ha
      | succ i => rw [List.getD_cons_succ]; exact takeWhile_getD (by omega)
    · rw [List.takeWhile_cons_of_neg ha, List.length_nil] at h
      exact absurd h (Nat.not_lt_zero i)

theorem getD_length_takeWhile {d : UInt8} : ∀ {l : List UInt8},
    (l.takeWhile p).length < l.length → p (l.getD (l.takeWhile p).length d) = false
  | [], h => absurd h (Nat.lt_irrefl 0)
  | a :: l, h => by
    by_cases ha : p a
    · rw [List.takeWhile_cons_of_pos ha, List.length_cons, List.length_cons] at h
      rw [List.takeWhile_cons_of_pos ha, List.length_cons, List.getD_cons_succ]
      exact getD_length_takeWhile (by omega)
    · rw [List.takeWhile_cons_of_neg ha, List.length_nil, List.getD_cons_zero]
      simpa using ha

theorem byteAt_add (buf : List UInt8) (s i : Nat) : byteAt buf (s + i) = (buf.drop s).getD i 0 := by
  simp only [byteAt, List.getD_eq_getElem?_getD, List.getElem?_drop]

theorem le_skip (p : UInt8 → Bool) (buf : List UInt8) (s : Nat) : s ≤ skip p buf s := Nat.le_add_right _ _

/-- Every byte the loop passes satisfies `p`. -/
theorem skip_pass {k : Nat} (hs : s ≤ k) (hk : k < skip p buf s) : p (byteAt buf k) = true := by
  obtain ⟨i, rfl⟩ := Nat.exists_eq_add_of_le hs
  rw [byteAt_add]
  exact takeWhile_getD (by rw [skip] at hk; omega)

/-- Before the end of the line, the loop stops at a byte failing `p`. -/
theorem skip_stop (h : skip p buf s < buf.length) : p (byteAt buf (skip p buf s)) = false := by
  rw [skip, byteAt_add]
  exact getD_length_takeWhile (by rw [skip] at h; rw [List.length_drop]; omega)

/-- The loop does not move from a byte failing `p`, nor from the end of the line. -/
theorem skip_of_stop (h : p (byteAt buf s) = false ∨ buf.length ≤ s) : skip p buf s = s := by
  rw [skip]
  rcases h with h | h
  · cases hd : buf.drop s with
    | nil => rfl
    | cons a l =>
      have ha : p a = false := by
        have := byteAt_add buf s 0
        rw [Nat.add_zero, hd, List.getD_cons_zero] at this
        rwa [← this]
      rw [List.takeWhile_cons_of_neg (by simp [ha]), List.length_nil, Nat.add_zero]
  · rw [List.drop_eq_nil_of_le h, List.takeWhile_nil, List.length_nil, Nat.add_zero]

theorem skip_skip : skip p buf (skip p buf s) = skip p buf s := by
  by_cases h : skip p buf s < buf.length
  · exact skip_of_stop (.inl (skip_stop h))
  · exact skip_of_stop (.inr (by omega))

theorem skip_le_length (hs : s ≤ buf.length) : skip p buf s ≤ buf.length := by
  have := (List.takeWhile_sublist p (l := buf.drop s)).length_le
  rw [List.length_drop] at this
  rw [skip]
  omega

theorem lt_skip (h : p (byteAt buf s) = true) (hs : s < buf.length) : s < skip p buf s := by
  have hd : buf.drop s = byteAt buf s :: buf.drop (s + 1) := by
    rw [byteAt, List.getD_eq_getElem _ _ hs, List.drop_eq_getElem_cons hs]
  rw [skip, hd, List.takeWhile_cons_of_pos h, List.length_cons]
  omega

end Skip

/-! ## The bytes -/

theorem isWs_eq (c : UInt8) : isWs c = decide (c ∈ whitespace) := strchr_isSome (by decide) c

theorem isWordByte_eq (c : UInt8) : isWordByte c = (!decide (c ∈ whitespace) && !decide (c ∈ symbols)) := by
  rw [isWordByte, strchr_isSome (by decide), strchr_isSome (by decide)]

/-- After the whitespace, the byte is not whitespace: the `NUL` at the end is not. -/
theorem isWs_skipWs (buf : List UInt8) (ps : Nat) : isWs (byteAt buf (skipWs buf ps)) = false := by
  by_cases h : skipWs buf ps < buf.length
  · exact skip_stop h
  · rw [byteAt, List.getD_eq_default _ _ (by omega)]
    decide

theorem skipWs_skipWs (buf : List UInt8) (ps : Nat) : skipWs buf (skipWs buf ps) = skipWs buf ps := skip_skip

theorem lt_length_of_byteAt_ne_zero {buf : List UInt8} {s : Nat} (h : byteAt buf s ≠ 0) : s < buf.length := by
  by_contra hs
  exact h (List.getD_eq_default _ _ (by omega))

/-- In a line with no `NUL`, the only `NUL` is the one at its end. -/
theorem byteAt_ne_zero {buf : List UInt8} (h0 : (0 : UInt8) ∉ buf) {s : Nat} (hs : s < buf.length) :
    byteAt buf s ≠ 0 := by
  rw [byteAt, List.getD_eq_getElem _ _ hs]
  exact fun h => h0 (h ▸ List.getElem_mem hs)

/-! ## `gettoken` -/

/-- What `gettoken` does, from the first byte after the whitespace: the end of the line, a symbol of
one byte, `>>`, `>`, or a word. -/
theorem gettoken_cases (buf : List UInt8) (ps : Nat) :
    (byteAt buf (skipWs buf ps) = 0 ∧
      gettoken buf ps = (0, skipWs buf ps, skipWs buf ps, skipWs buf ps)) ∨
    (byteAt buf (skipWs buf ps) ∈ [124, 40, 41, 59, 38, 60] ∧
      gettoken buf ps = (byteAt buf (skipWs buf ps), skipWs buf ps, skipWs buf ps + 1,
        skipWs buf (skipWs buf ps + 1))) ∨
    (byteAt buf (skipWs buf ps) = 62 ∧ byteAt buf (skipWs buf ps + 1) = 62 ∧
      gettoken buf ps = (43, skipWs buf ps, skipWs buf ps + 2, skipWs buf (skipWs buf ps + 2))) ∨
    (byteAt buf (skipWs buf ps) = 62 ∧ byteAt buf (skipWs buf ps + 1) ≠ 62 ∧
      gettoken buf ps = (62, skipWs buf ps, skipWs buf ps + 1, skipWs buf (skipWs buf ps + 1))) ∨
    (byteAt buf (skipWs buf ps) ≠ 0 ∧ byteAt buf (skipWs buf ps) ∉ symbols ∧
      gettoken buf ps = (97, skipWs buf ps, skipWord buf (skipWs buf ps),
        skipWs buf (skipWord buf (skipWs buf ps)))) := by
  unfold gettoken
  dsimp only
  -- the `switch` on `*s`, its cases in the source's order
  by_cases h0 : byteAt buf (skipWs buf ps) = 0
  · exact .inl ⟨h0, by rw [if_pos h0, skipWs_skipWs]⟩
  by_cases h1 : byteAt buf (skipWs buf ps) = 124 ∨ byteAt buf (skipWs buf ps) = 40 ∨
      byteAt buf (skipWs buf ps) = 41 ∨ byteAt buf (skipWs buf ps) = 59 ∨
      byteAt buf (skipWs buf ps) = 38 ∨ byteAt buf (skipWs buf ps) = 60
  · refine .inr (.inl ⟨by simpa using h1, ?_⟩)
    rw [if_neg h0, if_pos h1]
  by_cases h2 : byteAt buf (skipWs buf ps) = 62
  · by_cases h3 : byteAt buf (skipWs buf ps + 1) = 62
    · refine .inr (.inr (.inl ⟨h2, h3, ?_⟩))
      rw [if_neg h0, if_neg h1, if_pos h2, if_pos h3]
    · refine .inr (.inr (.inr (.inl ⟨h2, h3, ?_⟩)))
      rw [if_neg h0, if_neg h1, if_pos h2, if_neg h3]
  · refine .inr (.inr (.inr (.inr ⟨h0, ?_, ?_⟩)))
    · simp only [symbols, List.mem_cons, List.not_mem_nil, or_false]
      tauto
    · rw [if_neg h0, if_neg h1, if_neg h2]

theorem gettoken_skipWs (buf : List UInt8) (ps : Nat) : gettoken buf (skipWs buf ps) = gettoken buf ps := by
  unfold gettoken
  rw [skipWs_skipWs]

theorem isWordByte_of {c : UInt8} (hws : isWs c = false) (hsym : c ∉ symbols) : isWordByte c = true := by
  rw [isWs_eq] at hws
  rw [isWordByte_eq, hws, decide_eq_false hsym]
  rfl

/-! ## Tokens -/

/-- A token: a word from `q` to `eq`, or a symbol, by the byte `gettoken` returns for it. -/
inductive Tok
  | word (q eq : Nat)
  | sym (c : UInt8)
  deriving DecidableEq, Repr

/-- What `gettoken` returns for the token. -/
def Tok.code : Tok → UInt8
  | .word _ _ => 97
  | .sym c => c

/-- The token of what `gettoken` returned. -/
def tokOf (ret : UInt8) (q eq : Nat) : Tok := if ret = 97 then .word q eq else .sym ret

@[simp] theorem code_tokOf (ret : UInt8) (q eq : Nat) : (tokOf ret q eq).code = ret := by
  unfold tokOf
  split
  · next h => exact h.symm
  · rfl

/-- A token is read, and the position moves, only before the end of the line. -/
theorem lt_of_gettoken {buf : List UInt8} {ps q eq ps' : Nat} {ret : UInt8}
    (h : gettoken buf ps = (ret, q, eq, ps')) (hr : ret ≠ 0) : ps < buf.length ∧ ps < ps' := by
  have hps := le_skip isWs buf ps
  -- the token starts before the end of the line, and the position moves past its first byte
  suffices hk : byteAt buf (skipWs buf ps) ≠ 0 ∧ skipWs buf ps < ps' by
    exact ⟨Nat.lt_of_le_of_lt hps (lt_length_of_byteAt_ne_zero hk.1), Nat.lt_of_le_of_lt hps hk.2⟩
  rcases gettoken_cases buf ps with ⟨-, hg⟩ | ⟨hc, hg⟩ | ⟨hc, -, hg⟩ | ⟨hc, -, hg⟩ | ⟨hc, hsym, hg⟩ <;>
    rw [hg, Prod.mk.injEq, Prod.mk.injEq, Prod.mk.injEq] at h <;> obtain ⟨rfl, -, -, rfl⟩ := h
  · exact absurd rfl hr
  · exact ⟨by simp at hc; rcases hc with h | h | h | h | h | h <;> rw [h] <;> decide,
      Nat.lt_of_lt_of_le (Nat.lt_succ_self _) (le_skip isWs buf _)⟩
  · exact ⟨by rw [hc]; decide, Nat.lt_of_lt_of_le (by omega) (le_skip isWs buf _)⟩
  · exact ⟨by rw [hc]; decide, Nat.lt_of_lt_of_le (Nat.lt_succ_self _) (le_skip isWs buf _)⟩
  · refine ⟨hc, Nat.lt_of_lt_of_le ?_ (le_skip isWs buf _)⟩
    exact lt_skip (isWordByte_of (isWs_skipWs buf ps) hsym) (lt_length_of_byteAt_ne_zero hc)

theorem lt_gettoken {buf : List UInt8} {ps : Nat} (hr : (gettoken buf ps).1 ≠ 0) :
    ps < buf.length ∧ ps < (gettoken buf ps).2.2.2 :=
  lt_of_gettoken rfl hr

/-- A token read ends within the line. -/
theorem gettoken_le_length {buf : List UInt8} {ps : Nat} (hr : (gettoken buf ps).1 ≠ 0) :
    (gettoken buf ps).2.2.2 ≤ buf.length := by
  rcases gettoken_cases buf ps with ⟨-, hg⟩ | ⟨-, hg⟩ | ⟨-, h1, hg⟩ | ⟨hc, -, hg⟩ | ⟨hc, -, hg⟩ <;>
    rw [hg] at hr ⊢
  · exact absurd rfl hr
  · exact skip_le_length (lt_length_of_byteAt_ne_zero hr)
  · exact skip_le_length (lt_length_of_byteAt_ne_zero (by rw [h1]; decide))
  · exact skip_le_length (lt_length_of_byteAt_ne_zero (by rw [hc]; decide))
  · exact skip_le_length (skip_le_length (Nat.le_of_lt (lt_length_of_byteAt_ne_zero hc)))

/-- The tokens `gettoken` reads from `ps` on, to the end of the line. -/
def lexFrom (buf : List UInt8) (ps : Nat) : List Tok :=
  let g := gettoken buf ps
  if _hr : g.1 = 0 then [] else tokOf g.1 g.2.1 g.2.2.1 :: lexFrom buf g.2.2.2
termination_by buf.length - ps
decreasing_by
  have := lt_gettoken _hr
  omega

/-- The tokens of the line. -/
def lex (buf : List UInt8) : List Tok := lexFrom buf 0

theorem lexFrom_eq (buf : List UInt8) (ps : Nat) :
    lexFrom buf ps = if (gettoken buf ps).1 = 0 then [] else
      tokOf (gettoken buf ps).1 (gettoken buf ps).2.1 (gettoken buf ps).2.2.1 :: lexFrom buf (gettoken buf ps).2.2.2 := by
  rw [lexFrom.eq_1]
  rfl

/-- Skipping whitespace first reads the same tokens: `gettoken` skips it itself. -/
theorem lexFrom_skipWs (buf : List UInt8) (ps : Nat) : lexFrom buf (skipWs buf ps) = lexFrom buf ps := by
  rw [lexFrom_eq, lexFrom_eq buf ps, gettoken_skipWs]

/-- At the end of the line `gettoken` returns `0`, and stays after the whitespace. -/
theorem gettoken_of_lexFrom_nil {buf : List UInt8} {ps : Nat} (h : lexFrom buf ps = []) :
    gettoken buf ps = (0, skipWs buf ps, skipWs buf ps, skipWs buf ps) := by
  rw [lexFrom_eq] at h
  -- the other cases return a byte that is not `0`, and then a token
  rcases gettoken_cases buf ps with ⟨-, hg⟩ | ⟨hc, hg⟩ | ⟨-, -, hg⟩ | ⟨-, -, hg⟩ | ⟨hc, -, hg⟩ <;>
    rw [hg] at h
  · exact hg
  · have h0 : byteAt buf (skipWs buf ps) ≠ 0 := by
      simp only [List.mem_cons, List.not_mem_nil, or_false] at hc
      rcases hc with h | h | h | h | h | h <;> rw [h] <;> decide
    simp [h0] at h
  all_goals simp at h

/-- The end of the tokens is a `NUL` after the whitespace. -/
theorem byteAt_skipWs_of_lexFrom_nil {buf : List UInt8} {ps : Nat} (h : lexFrom buf ps = []) :
    byteAt buf (skipWs buf ps) = 0 := by
  have hg := gettoken_of_lexFrom_nil h
  rcases gettoken_cases buf ps with ⟨hc, -⟩ | ⟨-, hg'⟩ | ⟨-, -, hg'⟩ | ⟨-, -, hg'⟩ | ⟨-, -, hg'⟩
  · exact hc
  · exact (Prod.mk.inj (hg.symm.trans hg')).1.symm
  all_goals rw [hg] at hg'; simp at hg'

/-- Past the end of the line there are no tokens. -/
theorem lexFrom_of_length_le {buf : List UInt8} {ps : Nat} (h : buf.length ≤ ps) : lexFrom buf ps = [] := by
  have hb : byteAt buf (skipWs buf ps) = 0 := List.getD_eq_default _ _ (Nat.le_trans h (le_skip isWs buf ps))
  rw [lexFrom_eq, if_pos]
  unfold gettoken
  dsimp only
  rw [if_pos hb]

/-- Before the end, `gettoken` reads the head of the tokens, with its `q` and `eq` for a word, and
moves to their tail. -/
theorem gettoken_of_lexFrom_cons {buf : List UInt8} {ps : Nat} {t : Tok} {ts : List Tok}
    (h : lexFrom buf ps = t :: ts) : ∃ q eq ps', gettoken buf ps = (t.code, q, eq, ps') ∧
      lexFrom buf ps' = ts ∧ t = tokOf t.code q eq ∧ t.code ≠ 0 := by
  rw [lexFrom_eq] at h
  split at h
  · exact absurd h (List.cons_ne_nil _ _).symm
  · next h0 =>
    obtain ⟨rfl, rfl⟩ := List.cons.inj h
    exact ⟨_, _, _, by rw [code_tokOf], rfl, by rw [code_tokOf], by rwa [code_tokOf]⟩

/-- A `gettoken` that reads a token leaves one token fewer. -/
theorem length_lexFrom_gettoken_lt {buf : List UInt8} {ps : Nat} (h : (gettoken buf ps).1 ≠ 0) :
    (lexFrom buf (gettoken buf ps).2.2.2).length < (lexFrom buf ps).length := by
  rw [lexFrom_eq buf ps, if_neg h, List.length_cons]
  omega

/-- No `gettoken` adds tokens: at the end of the line it reads none and leaves none. -/
theorem length_lexFrom_gettoken_le (buf : List UInt8) (ps : Nat) :
    (lexFrom buf (gettoken buf ps).2.2.2).length ≤ (lexFrom buf ps).length := by
  cases hL : lexFrom buf ps with
  | nil =>
    rw [gettoken_of_lexFrom_nil hL]
    exact Nat.le_of_eq (by dsimp only; rw [lexFrom_skipWs, hL])
  | cons t ts =>
    obtain ⟨q, eq, ps', hg, hL', -, -⟩ := gettoken_of_lexFrom_cons hL
    rw [hg]
    dsimp only
    rw [hL', List.length_cons]
    omega

/-! ## `peek` -/

/-- What `peek` sees of a token: a symbol by its first byte, `>` for `>>`; a word starts with a byte
that is no symbol. -/
def Tok.peeks (toks : List UInt8) : Tok → Bool
  | .word _ _ => false
  | .sym c => decide ((if c = 43 then 62 else c) ∈ toks)

/-- For a set of symbols, `peek` says whether the next token starts with one of them. -/
theorem peek_eq (buf : List UInt8) (ps : Nat) {toks : List UInt8} (htoks : ∀ c ∈ toks, c ∈ symbols) :
    peek buf ps toks = ((lexFrom buf ps).head?.any (Tok.peeks toks), skipWs buf ps) := by
  have h0 : (0 : UInt8) ∉ toks := fun h => absurd (htoks 0 h) (by decide)
  rw [peek, strchr_isSome h0, lexFrom_eq]
  congr 1
  rcases gettoken_cases buf ps with ⟨hc, hg⟩ | ⟨hc, hg⟩ | ⟨hc, -, hg⟩ | ⟨hc, -, hg⟩ | ⟨hc, hsym, hg⟩ <;>
    rw [hg]
  · simp [hc]
  · simp only [List.mem_cons, List.not_mem_nil, or_false] at hc
    rcases hc with h | h | h | h | h | h <;> simp [h, tokOf, Tok.peeks]
  · simp [hc, tokOf, Tok.peeks]
  · simp [hc, tokOf, Tok.peeks]
  · -- a word: its first byte is no symbol, so not one of `toks`
    have hnot : byteAt buf (skipWs buf ps) ∉ toks := fun h => hsym (htoks _ h)
    simp [hnot, tokOf, Tok.peeks]

/-! ## Words -/

/-- A word from `q` to `eq`: a nonempty run of word bytes, ended by a byte that is not one, or by the
end of the line. -/
structure WordAt (buf : List UInt8) (q eq : Nat) : Prop where
  lt : q < eq
  le : eq ≤ buf.length
  bytes : ∀ k, q ≤ k → k < eq → isWordByte (byteAt buf k) = true
  stop : eq < buf.length → isWordByte (byteAt buf eq) = false

theorem wordAt_gettoken {buf : List UInt8} {ps : Nat} (h : (gettoken buf ps).1 = 97) :
    WordAt buf (gettoken buf ps).2.1 (gettoken buf ps).2.2.1 := by
  rcases gettoken_cases buf ps with ⟨-, hg⟩ | ⟨hc, hg⟩ | ⟨-, -, hg⟩ | ⟨-, -, hg⟩ | ⟨hc, hsym, hg⟩ <;>
    rw [hg] at h ⊢
  -- only a word returns `'a'`
  · simp at h
  · simp only at h
    simp [h] at hc
  · simp at h
  · simp at h
  · have hs := lt_length_of_byteAt_ne_zero hc
    exact ⟨lt_skip (isWordByte_of (isWs_skipWs buf ps) hsym) hs, skip_le_length (Nat.le_of_lt hs),
      fun k hq hk => skip_pass hq hk, skip_stop⟩

theorem wordAt_of_mem {buf : List UInt8} {q eq : Nat} {ps : Nat} (h : Tok.word q eq ∈ lexFrom buf ps) :
    WordAt buf q eq := by
  fun_induction lexFrom buf ps with
  | case1 ps g hr => exact absurd h List.not_mem_nil
  | case2 ps g hr ih =>
    rcases List.mem_cons.mp h with h | h
    · unfold tokOf at h
      split at h
      · next h97 =>
        obtain ⟨rfl, rfl⟩ := Tok.word.inj h
        exact wordAt_gettoken h97
      · exact absurd h (by simp)
    · exact ih h

/-- Each token takes a byte at least. -/
theorem length_lexFrom_le (buf : List UInt8) (ps : Nat) : (lexFrom buf ps).length ≤ buf.length - ps := by
  fun_induction lexFrom buf ps with
  | case1 => exact Nat.zero_le _
  | case2 ps g hr ih =>
    have hlt : ps < buf.length ∧ ps < g.2.2.2 := lt_gettoken hr
    rw [List.length_cons]
    omega

end Xv6.Sh
