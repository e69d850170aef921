import Xv6.User.Sh.Parse

/-!
# What the shell's parser accepts

The grammar of a command line, over the tokens of `lex`:

    line  := pipe '&'* (';' line)?
    pipe  := exec ('|' pipe)?
    exec  := '(' line ')' redir* | (word | redir)*      fewer than MAXARGS words
    redir := ('<' | '>' | '>>') word

`Derives n ts c` : the tokens `ts` derive from `n`, and `c` is the tree of the derivation: an
`exec` lists its words in order, its redirections wrap it in order, `&` wraps a pipeline in `back`,
`;` and `|` build a `list` and a `pipe` to the right.

* `parseredirs_sound`, `execLoop_sound`, `backLoop_sound`, `parse_sound` : what a parse that
  returns has read derives its command;
* `parse_complete` : tokens that derive a command, followed by a token the grammar lets follow,
  are parsed into it, with the fuel `parsecmd` gives;
* `parse_total` : with that fuel no parse runs out of it;
* `parsecmd_grammar` : `parsecmd` returns exactly on the lines whose tokens derive from `line`,
  and returns the derivation's tree; it panics on every other line, and never runs out of fuel;
  every word and file name it returns reads, after `nulterminate`, as the text of its token.
-/

namespace Xv6.Sh

open Trans

/-! ## The grammar -/

/-- A redirection's operator: `<`, `>`, `>>`. -/
inductive RedirOp
  | lt
  | gt
  | gtgt
  deriving DecidableEq, Repr

/-- The byte `gettoken` returns for the operator. -/
def RedirOp.code : RedirOp → UInt8
  | .lt => 60
  | .gt => 62
  | .gtgt => 43

def RedirOp.mode : RedirOp → Nat
  | .lt => oRdonly
  | .gt => oWronly ||| oCreate ||| oTrunc
  | .gtgt => oWronly ||| oCreate

def RedirOp.fd : RedirOp → Nat
  | .lt => 0
  | .gt | .gtgt => 1

/-- A redirection and its file. -/
structure Redir where
  op : RedirOp
  file : Nat × Nat
  deriving DecidableEq, Repr

def Redir.toks (r : Redir) : List Tok := [.sym r.op.code, .word r.file.1 r.file.2]

/-- The `redircmd` of the redirection around `c`. -/
def Redir.wrap (c : Cmd) (r : Redir) : Cmd := .redir c r.file r.op.mode r.op.fd

/-- An item of a command: a word, or a redirection. -/
inductive Item
  | word (w : Nat × Nat)
  | redir (r : Redir)
  deriving DecidableEq, Repr

def Item.toks : Item → List Tok
  | .word w => [.word w.1 w.2]
  | .redir r => r.toks

def Item.argv : Item → List (Nat × Nat)
  | .word w => [w]
  | .redir _ => []

def Item.redirs : Item → List Redir
  | .word _ => []
  | .redir r => [r]

/-- `n` times `backcmd` around `c`. -/
def backs : Nat → Cmd → Cmd
  | 0, c => c
  | n + 1, c => backs n (.back c)

inductive NT
  | line
  | pipe
  | exec
  deriving DecidableEq, Repr

/-- The symbols `peek` lets follow each construct: a line ends at `)` or the end, a pipeline also at
`&` or `;`, a command also at `|`. -/
def NT.follow : NT → List UInt8
  | .line => [41]
  | .pipe => [41, 38, 59]
  | .exec => [124, 41, 38, 59]

/-- The tokens `rest` may follow `n`: they end, or start with a symbol of `n.follow`. -/
def NT.Follows (n : NT) (rest : List Tok) : Prop := rest.head?.all (Tok.peeks n.follow) = true

/-- `Derives n ts c`: the tokens `ts` derive from `n`, with the tree `c`. -/
inductive Derives : NT → List Tok → Cmd → Prop
  | block {ts : List Tok} {c : Cmd} (h : Derives .line ts c) (rs : List Redir) :
      Derives .exec (.sym 40 :: ts ++ .sym 41 :: rs.flatMap Redir.toks) (rs.foldl Redir.wrap c)
  | simple (items : List Item) (h : (items.flatMap Item.argv).length < maxArgs) :
      Derives .exec (items.flatMap Item.toks)
        ((items.flatMap Item.redirs).foldl Redir.wrap (.exec (items.flatMap Item.argv)))
  | pipeEnd {ts : List Tok} {c : Cmd} (h : Derives .exec ts c) : Derives .pipe ts c
  | pipeCons {ts ts' : List Tok} {c c' : Cmd} (h : Derives .exec ts c) (h' : Derives .pipe ts' c') :
      Derives .pipe (ts ++ .sym 124 :: ts') (.pipe c c')
  | lineEnd {ts : List Tok} {c : Cmd} (h : Derives .pipe ts c) (n : Nat) :
      Derives .line (ts ++ List.replicate n (.sym 38)) (backs n c)
  | lineCons {ts ts' : List Tok} {c c' : Cmd} (h : Derives .pipe ts c) (n : Nat) (h' : Derives .line ts' c') :
      Derives .line (ts ++ List.replicate n (.sym 38) ++ .sym 59 :: ts') (.list (backs n c) c')

/-! ## One token at a time -/

section Steps

variable {buf : List UInt8}

theorem peeks_iff {toks : List UInt8} (h62 : 62 ∉ toks) (h43 : 43 ∉ toks) {t : Tok} :
    t.peeks toks = true ↔ ∃ c ∈ toks, t = .sym c := by
  cases t with
  | word q eq => simp [Tok.peeks]
  | sym c =>
    by_cases hc : c = 43
    · subst hc
      simp [Tok.peeks, h62, h43]
    · simp [Tok.peeks, hc]

theorem peeks_redir {t : Tok} : t.peeks [60, 62] = true ↔ ∃ op : RedirOp, t = .sym op.code := by
  cases t with
  | word q eq => simp [Tok.peeks]
  | sym c =>
    constructor
    · intro h
      by_cases hc : c = 43
      · exact ⟨.gtgt, by rw [hc]; rfl⟩
      · simp only [Tok.peeks, hc, if_false, List.mem_cons, List.not_mem_nil, or_false,
          decide_eq_true_eq] at h
        rcases h with rfl | rfl
        · exact ⟨.lt, rfl⟩
        · exact ⟨.gt, rfl⟩
    · rintro ⟨op, h⟩
      cases op <;> cases h <;> decide

/-- What `peek` found at the head of the tokens. -/
theorem exists_cons_of_any {f : Tok → Bool} {ts : List Tok} (h : ts.head?.any f = true) :
    ∃ t rest, ts = t :: rest ∧ f t = true := by
  cases ts with
  | nil => exact absurd h (by simp)
  | cons t rest => exact ⟨t, rest, rfl, by simpa using h⟩

/-- `gettoken` of a word returns its `q` and `eq`. -/
theorem gettoken_word {ps q eq : Nat} {ts : List Tok} (h : lexFrom buf ps = .word q eq :: ts) :
    ∃ ps', gettoken buf ps = (97, q, eq, ps') ∧ lexFrom buf ps' = ts ∧ ps' ≤ buf.length := by
  obtain ⟨q', eq', ps', hg, hL, ht, h0⟩ := gettoken_of_lexFrom_cons h
  obtain ⟨rfl, rfl⟩ := Tok.word.inj ht
  have hr : (gettoken buf ps).1 ≠ 0 := by rw [hg]; exact h0
  have hle := gettoken_le_length hr
  rw [hg] at hle
  exact ⟨ps', hg, hL, hle⟩

/-- `gettoken` of a symbol returns it. -/
theorem gettoken_sym {ps : Nat} {c : UInt8} {ts : List Tok} (h : lexFrom buf ps = .sym c :: ts) :
    ∃ q eq ps', gettoken buf ps = (c, q, eq, ps') ∧ lexFrom buf ps' = ts ∧ ps' ≤ buf.length := by
  obtain ⟨q, eq, ps', hg, hL, -, h0⟩ := gettoken_of_lexFrom_cons h
  have hr : (gettoken buf ps).1 ≠ 0 := by rw [hg]; exact h0
  have hle := gettoken_le_length hr
  rw [hg] at hle
  exact ⟨q, eq, ps', hg, hL, hle⟩

/-- `peek` saw the symbol `c`, which is not `>`: the tokens start with it, and the `gettoken` after
the `peek` reads it. -/
theorem lexFrom_of_peek {c : UInt8} (h62 : c ≠ 62) (h43 : c ≠ 43) {i : Nat}
    (h : (lexFrom buf i).head?.any (Tok.peeks [c]) = true) :
    lexFrom buf i = .sym c :: lexFrom buf (gettoken buf (skipWs buf i)).2.2.2 := by
  obtain ⟨t, ts, hL, ht⟩ := exists_cons_of_any h
  have hc : t = .sym c := by
    obtain ⟨c', hc', rfl⟩ := (peeks_iff (by simpa using h62.symm) (by simpa using h43.symm)).mp ht
    rw [List.mem_singleton.mp hc']
  rw [hc] at hL
  obtain ⟨q, eq, p, hg, hLp, -⟩ := gettoken_sym (by rw [lexFrom_skipWs]; exact hL)
  rw [hg]
  exact hL.trans (congrArg _ hLp.symm)

/-- The converse: `peek` sees a symbol that heads the tokens, and the `gettoken` after it reads it. -/
theorem peek_of_lexFrom {c : UInt8} (h43 : c ≠ 43) {i : Nat} {ts : List Tok} (h : lexFrom buf i = .sym c :: ts) :
    (lexFrom buf i).head?.any (Tok.peeks [c]) = true ∧ lexFrom buf (gettoken buf (skipWs buf i)).2.2.2 = ts ∧
      (gettoken buf (skipWs buf i)).2.2.2 ≤ buf.length := by
  obtain ⟨q, eq, p, hg, hLp, hle⟩ := gettoken_sym (by rw [lexFrom_skipWs]; exact h)
  rw [hg, h]
  exact ⟨by simp [Tok.peeks, h43], hLp, hle⟩

/-- A token that starts with a symbol of `A` starts with none of `B` when the two share none. -/
theorem any_peeks_eq_false {A B : List UInt8} (hAB : ∀ c ∈ A, c ∉ B) {ts : List Tok}
    (h : ts.head?.all (Tok.peeks A) = true) : ts.head?.any (Tok.peeks B) = false := by
  cases ts with
  | nil => rfl
  | cons t ts =>
    cases t with
    | word q eq => rfl
    | sym c =>
      simp only [List.head?_cons, Option.all_some, Option.any_some, Tok.peeks, decide_eq_true_eq,
        decide_eq_false_iff_not] at h ⊢
      exact hAB _ h

theorem all_peeks_mono {A B : List UInt8} (hAB : ∀ c ∈ A, c ∈ B) {ts : List Tok}
    (h : ts.head?.all (Tok.peeks A) = true) : ts.head?.all (Tok.peeks B) = true := by
  cases ts with
  | nil => rfl
  | cons t ts =>
    cases t with
    | word q eq => exact h
    | sym c =>
      simp only [List.head?_cons, Option.all_some, Tok.peeks, decide_eq_true_eq] at h ⊢
      exact hAB _ h

/-- A word token: `gettoken` returned `'a'`. -/
theorem eq_word_of_code {t : Tok} {q eq : Nat} (ht : t = tokOf t.code q eq) (h : t.code = 97) :
    t = .word q eq := by
  rw [ht, h]
  rfl

end Steps

/-! ## The loops -/

section Loops

variable {buf : List UInt8}

/-- The `switch` of `parseredirs` on the operator. -/
theorem parseredirs_switch (op : RedirOp) (fuel : Nat) (cmd : Cmd) (q eq ps : Nat) :
    (if op.code = 60 then parseredirs buf fuel (.redir cmd (q, eq) oRdonly 0) ps
      else if op.code = 62 then parseredirs buf fuel (.redir cmd (q, eq) (oWronly ||| oCreate ||| oTrunc) 1) ps
      else if op.code = 43 then parseredirs buf fuel (.redir cmd (q, eq) (oWronly ||| oCreate) 1) ps
      else parseredirs buf fuel cmd ps) = parseredirs buf fuel (Redir.wrap cmd ⟨op, (q, eq)⟩) ps := by
  cases op <;> rfl

/-- A `parseredirs` that returns has read redirections, and stopped before a token that is not one. -/
theorem parseredirs_sound : ∀ {fuel : Nat} {cmd c : Cmd} {i j : Nat},
    parseredirs buf fuel cmd i = .ok (c, j) →
      ∃ rs : List Redir, lexFrom buf i = rs.flatMap Redir.toks ++ lexFrom buf j ∧
        c = rs.foldl Redir.wrap cmd ∧ (lexFrom buf j).head?.any (Tok.peeks [60, 62]) = false
  | 0, _, _, _, _, h => by cases h
  | fuel + 1, cmd, c, i, j, h => by
    rw [parseredirs, peek_eq buf i (by simp [symbols])] at h
    dsimp only at h
    cases hp : (lexFrom buf i).head?.any (Tok.peeks [60, 62]) with
    | false =>
      rw [hp, Bool.not_false, if_pos rfl] at h
      obtain ⟨rfl, rfl⟩ := Prod.mk.inj (Outcome.ok.inj h)
      exact ⟨[], by rw [lexFrom_skipWs]; rfl, rfl, by rw [lexFrom_skipWs, hp]⟩
    | true =>
      rw [hp, Bool.not_true, if_neg Bool.false_ne_true] at h
      -- the operator, read at the position `peek` moved to
      obtain ⟨t, ts, hL, ht⟩ : ∃ t ts, lexFrom buf (skipWs buf i) = t :: ts ∧ t.peeks [60, 62] = true := by
        rw [lexFrom_skipWs]
        cases hL : lexFrom buf i with
        | nil => rw [hL] at hp; exact absurd hp (by decide)
        | cons t ts => exact ⟨t, ts, rfl, by rw [hL] at hp; simpa using hp⟩
      obtain ⟨op, rfl⟩ := peeks_redir.mp ht
      obtain ⟨q0, eq0, p1, hg1, hL1, -, -⟩ := gettoken_of_lexFrom_cons hL
      rw [hg1] at h
      dsimp only at h
      -- the file
      cases ts with
      | nil =>
        rw [gettoken_of_lexFrom_nil hL1] at h
        exact absurd h (by simp)
      | cons t2 ts2 =>
        obtain ⟨q, eq, p2, hg2, hL2, ht2, -⟩ := gettoken_of_lexFrom_cons hL1
        rw [hg2] at h
        dsimp only at h
        by_cases h97 : t2.code = 97
        · rw [if_neg (not_not.mpr h97), Tok.code, parseredirs_switch] at h
          obtain ⟨rs, hrs, hc, hstop⟩ := parseredirs_sound h
          refine ⟨⟨op, (q, eq)⟩ :: rs, ?_, hc, hstop⟩
          rw [← lexFrom_skipWs, hL, eq_word_of_code ht2 h97, ← hL2, hrs]
          rfl
        · rw [if_pos h97] at h
          exact absurd h (by simp)

/-- The words stored through the pointer land in the `execcmd` under the redirections. -/
theorem setArgv_foldl (argv : List (Nat × Nat)) : ∀ (rs : List Redir) (c : Cmd),
    (rs.foldl Redir.wrap c).setArgv argv = rs.foldl Redir.wrap (c.setArgv argv)
  | [], _ => rfl
  | r :: rs, c => setArgv_foldl argv rs (Redir.wrap c r)

@[simp] theorem flatMap_toks_map_redir (rs : List Redir) :
    (rs.map Item.redir).flatMap Item.toks = rs.flatMap Redir.toks := by
  induction rs with
  | nil => rfl
  | cons r rs ih => rw [List.map_cons, List.flatMap_cons, List.flatMap_cons, ih]; rfl

@[simp] theorem flatMap_redirs_map_redir (rs : List Redir) : (rs.map Item.redir).flatMap Item.redirs = rs := by
  induction rs with
  | nil => rfl
  | cons r rs ih => rw [List.map_cons, List.flatMap_cons, ih]; rfl

@[simp] theorem flatMap_argv_map_redir (rs : List Redir) : (rs.map Item.redir).flatMap Item.argv = [] := by
  induction rs with
  | nil => rfl
  | cons r rs ih => rw [List.map_cons, List.flatMap_cons, ih]; rfl

/-- A word loop that returns has read words and redirections, fewer than `MAXARGS` words in all. -/
theorem execLoop_sound : ∀ {fuel : Nat} {argv : List (Nat × Nat)} {rs : List Redir} {c : Cmd} {i j : Nat},
    execLoop buf fuel argv (rs.foldl Redir.wrap (.exec [])) i = .ok (c, j) →
      ∃ items : List Item, lexFrom buf i = items.flatMap Item.toks ++ lexFrom buf j ∧
        c = (rs ++ items.flatMap Item.redirs).foldl Redir.wrap (.exec (argv ++ items.flatMap Item.argv)) ∧
        (argv.length < maxArgs → (argv ++ items.flatMap Item.argv).length < maxArgs)
  | 0, _, _, _, _, _, h => by cases h
  | fuel + 1, argv, rs, c, i, j, h => by
    rw [execLoop, peek_eq buf i (by simp [symbols])] at h
    dsimp only at h
    -- the command as it stands, with the words so far
    have hdone : (rs.foldl Redir.wrap (.exec [])).setArgv argv = rs.foldl Redir.wrap (.exec argv) :=
      setArgv_foldl argv rs _
    cases hp : (lexFrom buf i).head?.any (Tok.peeks [124, 41, 38, 59]) with
    | true =>
      rw [hp, if_pos rfl, hdone] at h
      obtain ⟨rfl, rfl⟩ := Prod.mk.inj (Outcome.ok.inj h)
      exact ⟨[], by rw [lexFrom_skipWs]; rfl, by simp, by simp⟩
    | false =>
      rw [hp, if_neg Bool.false_ne_true] at h
      cases hL : lexFrom buf (skipWs buf i) with
      | nil =>
        -- the end of the line
        rw [gettoken_of_lexFrom_nil hL] at h
        dsimp only at h
        rw [if_pos rfl, hdone] at h
        obtain ⟨rfl, rfl⟩ := Prod.mk.inj (Outcome.ok.inj h)
        exact ⟨[], by rw [lexFrom_skipWs, lexFrom_skipWs]; rfl, by simp, by simp⟩
      | cons t ts =>
        obtain ⟨q, eq, p1, hg, hL1, ht, h0⟩ := gettoken_of_lexFrom_cons hL
        rw [hg] at h
        dsimp only at h
        rw [if_neg h0] at h
        by_cases h97 : t.code = 97
        · rw [if_neg (not_not.mpr h97)] at h
          by_cases hmax : argv.length + 1 ≥ maxArgs
          · rw [if_pos hmax] at h
            exact absurd h (by simp)
          · rw [if_neg hmax] at h
            obtain ⟨⟨ret, p2⟩, hr, h⟩ := Outcome.bind_eq_ok.mp h
            obtain ⟨rs', hrs', rfl, -⟩ := parseredirs_sound hr
            rw [← List.foldl_append] at h
            obtain ⟨items, hitems, rfl, hlen⟩ := execLoop_sound h
            refine ⟨.word (q, eq) :: rs'.map Item.redir ++ items, ?_, ?_, fun _ => ?_⟩
            · rw [← lexFrom_skipWs, hL, eq_word_of_code ht h97, ← hL1, hrs', hitems]
              simp [Item.toks]
            · simp [Item.redirs, Item.argv]
            · have := hlen (by simp; omega)
              simpa [Item.argv] using this
        · rw [if_pos h97] at h
          exact absurd h (by simp)

/-- A turn of `parseredirs` reads a redirection. -/
theorem parseredirs_step (fuel : Nat) (cmd : Cmd) {i : Nat} {r : Redir} {ts : List Tok}
    (h : lexFrom buf i = r.toks ++ ts) :
    ∃ p, lexFrom buf p = ts ∧ p ≤ buf.length ∧
      parseredirs buf (fuel + 1) cmd i = parseredirs buf fuel (Redir.wrap cmd r) p := by
  have hL : lexFrom buf (skipWs buf i) = .sym r.op.code :: .word r.file.1 r.file.2 :: ts := by
    rw [lexFrom_skipWs, h]
    rfl
  obtain ⟨q0, eq0, p1, hg1, hL1, -⟩ := gettoken_sym hL
  obtain ⟨p2, hg2, hL2, hle⟩ := gettoken_word hL1
  have hp : (lexFrom buf i).head?.any (Tok.peeks [60, 62]) = true := by
    rw [← lexFrom_skipWs, hL, List.head?_cons, Option.any_some]
    exact peeks_redir.mpr ⟨r.op, rfl⟩
  refine ⟨p2, hL2, hle, ?_⟩
  rw [parseredirs, peek_eq buf i (by simp [symbols])]
  dsimp only
  rw [hp, Bool.not_true, if_neg Bool.false_ne_true, hg1]
  dsimp only
  rw [hg2]
  dsimp only
  rw [if_neg (not_not.mpr rfl), parseredirs_switch]

/-- `parseredirs` stops before a token that is not a redirection. -/
theorem parseredirs_stop {fuel : Nat} {cmd : Cmd} {i : Nat}
    (h : (lexFrom buf i).head?.any (Tok.peeks [60, 62]) = false) :
    parseredirs buf (fuel + 1) cmd i = .ok (cmd, skipWs buf i) := by
  rw [parseredirs, peek_eq buf i (by simp [symbols])]
  dsimp only
  rw [h, Bool.not_false, if_pos rfl]

theorem parseredirs_complete : ∀ (rs : List Redir) {fuel : Nat} {cmd : Cmd} {i : Nat} {rest : List Tok},
    lexFrom buf i = rs.flatMap Redir.toks ++ rest → rest.head?.any (Tok.peeks [60, 62]) = false →
      i ≤ buf.length → rs.length < fuel →
      ∃ j, parseredirs buf fuel cmd i = .ok (rs.foldl Redir.wrap cmd, j) ∧ lexFrom buf j = rest ∧ j ≤ buf.length
  | [], fuel + 1, cmd, i, rest, hL, hstop, hi, _ => by
    rw [List.flatMap_nil, List.nil_append] at hL
    exact ⟨skipWs buf i, parseredirs_stop (hL ▸ hstop), by rw [lexFrom_skipWs, hL], skip_le_length hi⟩
  | r :: rs, fuel + 1, cmd, i, rest, hL, hstop, _, hlen => by
    rw [List.flatMap_cons, List.append_assoc] at hL
    obtain ⟨p, hp, hle, hstep⟩ := parseredirs_step fuel cmd hL
    rw [hstep]
    exact parseredirs_complete rs hp hstop hle (by simp at hlen; omega)

/-- A loop over `&` that returns has read some `&`, and wrapped the pipeline in as many `backcmd`. -/
theorem backLoop_sound : ∀ {fuel : Nat} {cmd c : Cmd} {i j : Nat}, backLoop buf fuel cmd i = .ok (c, j) →
    ∃ n, lexFrom buf i = List.replicate n (.sym 38) ++ lexFrom buf j ∧ c = backs n cmd
  | 0, _, _, _, _, h => by cases h
  | fuel + 1, cmd, c, i, j, h => by
    rw [backLoop, peek_eq buf i (by simp [symbols])] at h
    dsimp only at h
    cases hp : (lexFrom buf i).head?.any (Tok.peeks [38]) with
    | false =>
      rw [hp, if_neg Bool.false_ne_true] at h
      obtain ⟨rfl, rfl⟩ := Prod.mk.inj (Outcome.ok.inj h)
      exact ⟨0, by rw [lexFrom_skipWs]; rfl, rfl⟩
    | true =>
      rw [hp, if_pos rfl] at h
      obtain ⟨n, hn, rfl⟩ := backLoop_sound h
      refine ⟨n + 1, ?_, rfl⟩
      rw [lexFrom_of_peek (by decide) (by decide) hp, hn]
      rfl

theorem backLoop_complete : ∀ (n : Nat) (cmd : Cmd) {fuel i : Nat} {rest : List Tok},
    lexFrom buf i = List.replicate n (.sym 38) ++ rest → rest.head?.any (Tok.peeks [38]) = false →
      i ≤ buf.length → n < fuel →
      ∃ j, backLoop buf fuel cmd i = .ok (backs n cmd, j) ∧ lexFrom buf j = rest ∧ j ≤ buf.length
  | 0, cmd, fuel + 1, i, rest, hL, hstop, hi, _ => by
    rw [List.replicate_zero, List.nil_append] at hL
    refine ⟨skipWs buf i, ?_, by rw [lexFrom_skipWs, hL], skip_le_length hi⟩
    rw [backLoop, peek_eq buf i (by simp [symbols]), hL]
    dsimp only
    rw [hstop, if_neg Bool.false_ne_true]
    rfl
  | n + 1, cmd, fuel + 1, i, rest, hL, hstop, _, hn => by
    rw [List.replicate_succ, List.cons_append] at hL
    obtain ⟨hp, hL', hle⟩ := peek_of_lexFrom (by decide) hL
    rw [backLoop, peek_eq buf i (by simp [symbols])]
    dsimp only
    rw [hp, if_pos rfl]
    exact backLoop_complete n (.back cmd) hL' hstop hle (by omega)

/-- Each word is a token. -/
theorem length_argv_le (items : List Item) :
    (items.flatMap Item.argv).length ≤ (items.flatMap Item.toks).length := by
  induction items with
  | nil => exact Nat.le_refl 0
  | cons it items ih =>
    rw [List.flatMap_cons, List.flatMap_cons, List.length_append, List.length_append]
    have hit : (Item.argv it).length ≤ (Item.toks it).length := by
      cases it <;> simp [Item.argv, Item.toks, Redir.toks]
    omega

/-- The items of a command, then a token that may follow one: `parseredirs` and the word loop read
them all, and store the words in order under the redirections. -/
theorem execItems_complete : ∀ (items : List Item) {argv : List (Nat × Nat)} (ret : Cmd) {i F fuel : Nat}
    {rest : List Tok}, lexFrom buf i = items.flatMap Item.toks ++ rest → NT.exec.Follows rest →
    i ≤ buf.length → (argv ++ items.flatMap Item.argv).length < maxArgs →
    (items.flatMap Item.toks).length < F → (items.flatMap Item.argv).length < fuel →
    ∃ j, (do let (ret, ps) ← parseredirs buf F ret i; execLoop buf fuel argv ret ps) =
        .ok (((items.flatMap Item.redirs).foldl Redir.wrap ret).setArgv (argv ++ items.flatMap Item.argv), j) ∧
      lexFrom buf j = rest ∧ j ≤ buf.length
  | _, _, _, _, 0, _, _, _, _, _, _, hF, _ => absurd hF (Nat.not_lt_zero _)
  | _, _, _, _, _, 0, _, _, _, _, _, _, hfuel => absurd hfuel (Nat.not_lt_zero _)
  | [], argv, ret, i, F + 1, fuel + 1, rest, hL, hrest, hi, _, _, _ => by
    rw [List.flatMap_nil, List.nil_append] at hL
    have hstop : (lexFrom buf i).head?.any (Tok.peeks [60, 62]) = false :=
      hL ▸ any_peeks_eq_false (by simp [NT.follow]) hrest
    rw [parseredirs_stop hstop, Outcome.ok_bind]
    dsimp only
    rw [execLoop, peek_eq buf (skipWs buf i) (by simp [symbols]), lexFrom_skipWs, hL]
    dsimp only
    simp only [List.flatMap_nil, List.foldl_nil, List.append_nil]
    cases rest with
    | nil =>
      -- the end of the line
      rw [show (([] : List Tok).head?.any (Tok.peeks [124, 41, 38, 59])) = false from rfl,
        if_neg Bool.false_ne_true, gettoken_of_lexFrom_nil (by rw [lexFrom_skipWs, lexFrom_skipWs, hL])]
      dsimp only
      rw [if_pos rfl]
      exact ⟨_, rfl, by rw [lexFrom_skipWs, lexFrom_skipWs, lexFrom_skipWs, hL],
        skip_le_length (skip_le_length (skip_le_length hi))⟩
    | cons t ts =>
      -- a token that ends a command
      rw [show ((t :: ts).head?.any (Tok.peeks [124, 41, 38, 59])) = true from hrest, if_pos rfl]
      exact ⟨_, rfl, by rw [lexFrom_skipWs, lexFrom_skipWs, hL], skip_le_length (skip_le_length hi)⟩
  | .redir r :: items, argv, ret, i, F + 1, fuel, rest, hL, hrest, _, hmax, hF, hfuel => by
    rw [List.flatMap_cons, List.append_assoc] at hL
    obtain ⟨p, hp, hle, hstep⟩ := parseredirs_step F ret hL
    rw [hstep]
    have h2 : (Item.redir r).toks.length = 2 := rfl
    rw [List.flatMap_cons, List.length_append, h2] at hF
    exact execItems_complete items (Redir.wrap ret r) hp hrest hle hmax (by omega) hfuel
  | .word (q, eq) :: items, argv, ret, i, F + 1, fuel + 1, rest, hL, hrest, _, hmax, _, hfuel => by
    rw [List.flatMap_cons, List.append_assoc] at hL
    have hL' : lexFrom buf (skipWs buf i) = .word q eq :: (items.flatMap Item.toks ++ rest) := by
      rw [lexFrom_skipWs, hL]
      rfl
    have hstop : (lexFrom buf i).head?.any (Tok.peeks [60, 62]) = false := by
      rw [hL]
      rfl
    obtain ⟨p, hg, hp, hle⟩ := gettoken_word hL'
    rw [parseredirs_stop hstop, Outcome.ok_bind]
    dsimp only
    rw [execLoop, peek_eq buf (skipWs buf i) (by simp [symbols]), hL']
    dsimp only
    -- the word is stored: there is room for it
    have hroom : ¬ argv.length + 1 ≥ maxArgs := by
      simp [Item.argv] at hmax
      omega
    rw [show ((Tok.word q eq :: (items.flatMap Item.toks ++ rest)).head?.any (Tok.peeks [124, 41, 38, 59])) =
        false from rfl, if_neg Bool.false_ne_true, skipWs_skipWs, hg]
    dsimp only
    rw [if_neg (by decide), if_neg (not_not.mpr rfl), if_neg hroom]
    have hlen := length_lexFrom_le buf p
    rw [hp, List.length_append] at hlen
    have hargv : argv ++ (Item.word (q, eq) :: items).flatMap Item.argv = argv ++ [(q, eq)] ++ items.flatMap Item.argv := by
      rw [List.append_assoc]
      rfl
    have h1 : (Item.word (q, eq)).argv.length = 1 := rfl
    rw [List.flatMap_cons, List.length_append, h1] at hfuel
    rw [hargv]
    exact execItems_complete items ret hp hrest hle (by rw [← hargv]; exact hmax) (by omega) (by omega)

end Loops

/-! ## The descent -/

/-- `p` is sound for `n`: when it returns, the tokens it read derive its command from `n`. -/
def Sound (buf : List UInt8) (n : NT) (p : Nat → Outcome (Cmd × Nat)) : Prop :=
  ∀ {i : Nat} {c : Cmd} {j : Nat}, p i = .ok (c, j) → ∃ ts, lexFrom buf i = ts ++ lexFrom buf j ∧ Derives n ts c

section Soundness

variable {buf : List UInt8} {f : Nat}

theorem parseline_sound (hpipe : Sound buf .pipe (parsepipe buf f)) (hline : Sound buf .line (parseline buf f)) :
    Sound buf .line (parseline buf (f + 1)) := by
  intro i c j h
  rw [parseline] at h
  obtain ⟨⟨c1, j1⟩, h1, h⟩ := Outcome.bind_eq_ok.mp h
  dsimp only at h
  obtain ⟨⟨c2, j2⟩, h2, h⟩ := Outcome.bind_eq_ok.mp h
  obtain ⟨ts, hts, hd⟩ := hpipe h1
  obtain ⟨n, hn, rfl⟩ := backLoop_sound h2
  rw [peek_eq buf j2 (by simp [symbols])] at h
  dsimp only at h
  cases hp : (lexFrom buf j2).head?.any (Tok.peeks [59]) with
  | false =>
    rw [hp, if_neg Bool.false_ne_true] at h
    obtain ⟨rfl, rfl⟩ := Prod.mk.inj (Outcome.ok.inj h)
    refine ⟨ts ++ List.replicate n (.sym 38), ?_, .lineEnd hd n⟩
    rw [lexFrom_skipWs, hts, hn, List.append_assoc]
  | true =>
    rw [hp, if_pos rfl] at h
    obtain ⟨⟨c3, j3⟩, h3, h⟩ := Outcome.bind_eq_ok.mp h
    obtain ⟨rfl, rfl⟩ := Prod.mk.inj (Outcome.ok.inj h)
    obtain ⟨ts', hts', hd'⟩ := hline h3
    refine ⟨ts ++ List.replicate n (.sym 38) ++ .sym 59 :: ts', ?_, .lineCons hd n hd'⟩
    rw [hts, hn, lexFrom_of_peek (by decide) (by decide) hp, hts']
    simp

theorem parsepipe_sound (hexec : Sound buf .exec (parseexec buf f)) (hpipe : Sound buf .pipe (parsepipe buf f)) :
    Sound buf .pipe (parsepipe buf (f + 1)) := by
  intro i c j h
  rw [parsepipe] at h
  obtain ⟨⟨c1, j1⟩, h1, h⟩ := Outcome.bind_eq_ok.mp h
  obtain ⟨ts, hts, hd⟩ := hexec h1
  dsimp only at h
  rw [peek_eq buf j1 (by simp [symbols])] at h
  dsimp only at h
  cases hp : (lexFrom buf j1).head?.any (Tok.peeks [124]) with
  | false =>
    rw [hp, if_neg Bool.false_ne_true] at h
    obtain ⟨rfl, rfl⟩ := Prod.mk.inj (Outcome.ok.inj h)
    exact ⟨ts, by rw [lexFrom_skipWs, hts], .pipeEnd hd⟩
  | true =>
    rw [hp, if_pos rfl] at h
    obtain ⟨⟨c2, j2⟩, h2, h⟩ := Outcome.bind_eq_ok.mp h
    obtain ⟨rfl, rfl⟩ := Prod.mk.inj (Outcome.ok.inj h)
    obtain ⟨ts', hts', hd'⟩ := hpipe h2
    refine ⟨ts ++ .sym 124 :: ts', ?_, .pipeCons hd hd'⟩
    rw [hts, lexFrom_of_peek (by decide) (by decide) hp, hts']
    simp

theorem parseexec_sound (hblock : Sound buf .exec (parseblock buf f)) : Sound buf .exec (parseexec buf (f + 1)) := by
  intro i c j h
  rw [parseexec, peek_eq buf i (by simp [symbols])] at h
  dsimp only at h
  cases hp : (lexFrom buf i).head?.any (Tok.peeks [40]) with
  | true =>
    rw [hp, if_pos rfl] at h
    obtain ⟨ts, hts, hd⟩ := hblock h
    exact ⟨ts, by rw [← lexFrom_skipWs, hts], hd⟩
  | false =>
    -- the words and redirections of a command
    rw [hp, if_neg Bool.false_ne_true] at h
    obtain ⟨⟨c1, j1⟩, h1, h⟩ := Outcome.bind_eq_ok.mp h
    dsimp only at h
    obtain ⟨rs, hrs, rfl, -⟩ := parseredirs_sound h1
    obtain ⟨items, hitems, rfl, hlen⟩ := execLoop_sound h
    refine ⟨(rs.map Item.redir ++ items).flatMap Item.toks, ?_, ?_⟩
    · rw [← lexFrom_skipWs, hrs, hitems]
      simp
    · have hd := Derives.simple (rs.map Item.redir ++ items) (by simpa using hlen (by decide))
      simpa using hd

theorem parseblock_sound (hline : Sound buf .line (parseline buf f)) : Sound buf .exec (parseblock buf (f + 1)) := by
  intro i c j h
  rw [parseblock, peek_eq buf i (by simp [symbols])] at h
  dsimp only at h
  cases hp : (lexFrom buf i).head?.any (Tok.peeks [40]) with
  | false =>
    rw [hp] at h
    simp at h
  | true =>
    rw [hp, Bool.not_true, if_neg Bool.false_ne_true] at h
    obtain ⟨⟨c1, j1⟩, h1, h⟩ := Outcome.bind_eq_ok.mp h
    obtain ⟨ts, hts, hd⟩ := hline h1
    rw [peek_eq buf j1 (by simp [symbols])] at h
    dsimp only at h
    cases hq : (lexFrom buf j1).head?.any (Tok.peeks [41]) with
    | false =>
      rw [hq] at h
      simp at h
    | true =>
      rw [hq, Bool.not_true, if_neg Bool.false_ne_true] at h
      obtain ⟨rs, hrs, rfl, -⟩ := parseredirs_sound h
      refine ⟨.sym 40 :: ts ++ .sym 41 :: rs.flatMap Redir.toks, ?_, .block hd rs⟩
      rw [lexFrom_of_peek (by decide) (by decide) hp, hts, lexFrom_of_peek (by decide) (by decide) hq, hrs]
      simp

/-- What a parse that returns has read derives its command. -/
theorem parse_sound : ∀ fuel : Nat, Sound buf .line (parseline buf fuel) ∧ Sound buf .pipe (parsepipe buf fuel) ∧
    Sound buf .exec (parseexec buf fuel) ∧ Sound buf .exec (parseblock buf fuel)
  | 0 => by
    refine ⟨?_, ?_, ?_, ?_⟩ <;> intro i c j h <;> cases h
  | f + 1 =>
    have ⟨hline, hpipe, hexec, hblock⟩ := parse_sound f
    ⟨parseline_sound hpipe hline, parsepipe_sound hexec hpipe, parseexec_sound hblock, parseblock_sound hline⟩

end Soundness

/-- The parse function of each construct. -/
def parseNT (buf : List UInt8) : NT → Nat → Nat → Outcome (Cmd × Nat)
  | .line => parseline buf
  | .pipe => parsepipe buf
  | .exec => parseexec buf

/-- The fuel a construct asks beyond four for each of its tokens. -/
def NT.rank : NT → Nat
  | .line => 3
  | .pipe => 2
  | .exec => 1

/-- `p` reads the tokens `ts` into `c` when tokens that may follow `n` come after them. -/
def Complete (buf : List UInt8) (n : NT) (p : Nat → Outcome (Cmd × Nat)) (ts : List Tok) (c : Cmd) : Prop :=
  ∀ {i : Nat} {rest : List Tok}, lexFrom buf i = ts ++ rest → n.Follows rest → i ≤ buf.length →
    ∃ j, p i = .ok (c, j) ∧ lexFrom buf j = rest ∧ j ≤ buf.length

section Completeness

variable {buf : List UInt8} {f : Nat}

@[simp] theorem length_flatMap_toks (rs : List Redir) : (rs.flatMap Redir.toks).length = 2 * rs.length := by
  induction rs with
  | nil => rfl
  | cons r rs ih =>
    rw [List.flatMap_cons, List.length_append, ih, List.length_cons, show r.toks.length = 2 from rfl]
    omega

/-- `&` may follow a pipeline, and so may whatever may follow the `&`s after it. -/
theorem follows_replicate (m : Nat) {rest : List Tok} (h : NT.pipe.Follows rest) :
    NT.pipe.Follows (List.replicate m (.sym 38) ++ rest) := by
  cases m with
  | zero => exact h
  | succ m => rfl

/-- A command starts with a word or a redirection, or is empty and followed by what may follow one:
not with `(`. -/
theorem any_peeks_items (items : List Item) {rest : List Tok} (hrest : NT.exec.Follows rest) :
    (items.flatMap Item.toks ++ rest).head?.any (Tok.peeks [40]) = false := by
  cases items with
  | nil => exact any_peeks_eq_false (by simp [NT.follow]) hrest
  | cons it items =>
    cases it with
    | word w => rfl
    | redir r =>
      obtain ⟨op, file⟩ := r
      cases op <;> rfl

theorem parseexec_block_complete {ts : List Tok} {c : Cmd} (rs : List Redir)
    (hline : Complete buf .line (parseline buf f) ts c) :
    Complete buf .exec (parseexec buf (f + 2)) (.sym 40 :: ts ++ .sym 41 :: rs.flatMap Redir.toks)
      (rs.foldl Redir.wrap c) := by
  intro i rest hL hrest hi
  have hL1 : lexFrom buf i = .sym 40 :: (ts ++ .sym 41 :: (rs.flatMap Redir.toks ++ rest)) := by
    rw [hL]
    simp
  have hlen := length_lexFrom_le buf i
  rw [hL1] at hlen
  simp only [List.length_cons, List.length_append, length_flatMap_toks] at hlen
  obtain ⟨hp, hL2, hle2⟩ := peek_of_lexFrom (by decide) hL1
  obtain ⟨j1, h1, hj1, hle1⟩ := hline hL2 rfl hle2
  obtain ⟨hq, hL3, hle3⟩ := peek_of_lexFrom (by decide) hj1
  -- `parseexec` sees the `(`, and `parseblock` reads it again
  rw [parseexec, peek_eq buf i (by simp [symbols])]
  dsimp only
  rw [hp, if_pos rfl, parseblock, peek_eq buf (skipWs buf i) (by simp [symbols]), lexFrom_skipWs, hp]
  dsimp only
  rw [Bool.not_true, if_neg Bool.false_ne_true, skipWs_skipWs, h1, Outcome.ok_bind]
  dsimp only
  rw [peek_eq buf j1 (by simp [symbols]), hq]
  dsimp only
  rw [Bool.not_true, if_neg Bool.false_ne_true]
  exact parseredirs_complete rs hL3 (any_peeks_eq_false (by simp [NT.follow]) hrest) hle3 (by omega)

theorem parseexec_simple_complete (items : List Item) (hmax : (items.flatMap Item.argv).length < maxArgs) :
    Complete buf .exec (parseexec buf (f + 1)) (items.flatMap Item.toks)
      ((items.flatMap Item.redirs).foldl Redir.wrap (.exec (items.flatMap Item.argv))) := by
  intro i rest hL hrest hi
  have hlen := length_lexFrom_le buf (skipWs buf i)
  rw [lexFrom_skipWs, hL, List.length_append] at hlen
  have hargv := length_argv_le items
  rw [parseexec, peek_eq buf i (by simp [symbols]), hL, any_peeks_items items hrest]
  dsimp only
  rw [if_neg Bool.false_ne_true]
  obtain ⟨j, hj, hLj, hle⟩ := execItems_complete items (.exec [])
    (show lexFrom buf (skipWs buf i) = _ by rw [lexFrom_skipWs]; exact hL) hrest (skip_le_length hi)
    (show ([] ++ items.flatMap Item.argv).length < maxArgs by rw [List.nil_append]; exact hmax)
    (show _ < buf.length + 1 by omega) (show _ < buf.length + 1 by omega)
  simp only [setArgv_foldl, Cmd.setArgv, List.nil_append] at hj
  exact ⟨j, hj, hLj, hle⟩

theorem parsepipe_end_complete {ts : List Tok} {c : Cmd} (hexec : Complete buf .exec (parseexec buf f) ts c) :
    Complete buf .pipe (parsepipe buf (f + 1)) ts c := by
  intro i rest hL hrest hi
  obtain ⟨j1, h1, hj1, hle1⟩ := hexec hL (all_peeks_mono (by simp [NT.follow]) hrest) hi
  rw [parsepipe, h1, Outcome.ok_bind]
  dsimp only
  rw [peek_eq buf j1 (by simp [symbols]), hj1, any_peeks_eq_false (B := [124]) (by simp [NT.follow]) hrest]
  dsimp only
  rw [if_neg Bool.false_ne_true]
  exact ⟨_, rfl, by rw [lexFrom_skipWs, hj1], skip_le_length hle1⟩

theorem parsepipe_cons_complete {ts ts' : List Tok} {c c' : Cmd} (hexec : Complete buf .exec (parseexec buf f) ts c)
    (hpipe : Complete buf .pipe (parsepipe buf f) ts' c') :
    Complete buf .pipe (parsepipe buf (f + 1)) (ts ++ .sym 124 :: ts') (.pipe c c') := by
  intro i rest hL hrest hi
  obtain ⟨j1, h1, hj1, hle1⟩ :=
    hexec (show lexFrom buf i = ts ++ .sym 124 :: (ts' ++ rest) by rw [hL]; simp) rfl hi
  obtain ⟨hp, hL2, hle2⟩ := peek_of_lexFrom (by decide) hj1
  obtain ⟨j2, h2, hj2, hle3⟩ := hpipe hL2 hrest hle2
  rw [parsepipe, h1, Outcome.ok_bind]
  dsimp only
  rw [peek_eq buf j1 (by simp [symbols]), hp]
  dsimp only
  rw [if_pos rfl, h2, Outcome.ok_bind]
  exact ⟨j2, rfl, hj2, hle3⟩

theorem parseline_end_complete {ts : List Tok} {c : Cmd} (m : Nat) (hpipe : Complete buf .pipe (parsepipe buf f) ts c) :
    Complete buf .line (parseline buf (f + 1)) (ts ++ List.replicate m (.sym 38)) (backs m c) := by
  intro i rest hL hrest hi
  obtain ⟨j1, h1, hj1, hle1⟩ :=
    hpipe (show lexFrom buf i = ts ++ (List.replicate m (.sym 38) ++ rest) by rw [hL, List.append_assoc])
      (follows_replicate m (all_peeks_mono (by simp [NT.follow]) hrest)) hi
  have hlen := length_lexFrom_le buf j1
  rw [hj1, List.length_append, List.length_replicate] at hlen
  obtain ⟨j2, h2, hj2, hle2⟩ :=
    backLoop_complete m c hj1 (any_peeks_eq_false (by simp [NT.follow]) hrest) hle1 (show m < buf.length + 1 by omega)
  rw [parseline, h1, Outcome.ok_bind]
  dsimp only
  rw [h2, Outcome.ok_bind]
  dsimp only
  rw [peek_eq buf j2 (by simp [symbols]), hj2, any_peeks_eq_false (B := [59]) (by simp [NT.follow]) hrest]
  dsimp only
  rw [if_neg Bool.false_ne_true]
  exact ⟨_, rfl, by rw [lexFrom_skipWs, hj2], skip_le_length hle2⟩

theorem parseline_cons_complete {ts ts' : List Tok} {c c' : Cmd} (m : Nat)
    (hpipe : Complete buf .pipe (parsepipe buf f) ts c) (hline : Complete buf .line (parseline buf f) ts' c') :
    Complete buf .line (parseline buf (f + 1)) (ts ++ List.replicate m (.sym 38) ++ .sym 59 :: ts')
      (.list (backs m c) c') := by
  intro i rest hL hrest hi
  obtain ⟨j1, h1, hj1, hle1⟩ :=
    hpipe (show lexFrom buf i = ts ++ (List.replicate m (.sym 38) ++ .sym 59 :: (ts' ++ rest)) by rw [hL]; simp)
      (follows_replicate m rfl) hi
  have hlen := length_lexFrom_le buf j1
  rw [hj1, List.length_append, List.length_replicate] at hlen
  obtain ⟨j2, h2, hj2, hle2⟩ := backLoop_complete m c hj1 rfl hle1 (show m < buf.length + 1 by omega)
  obtain ⟨hp, hL3, hle3⟩ := peek_of_lexFrom (by decide) hj2
  obtain ⟨j3, h3, hj3, hle4⟩ := hline hL3 hrest hle3
  rw [parseline, h1, Outcome.ok_bind]
  dsimp only
  rw [h2, Outcome.ok_bind]
  dsimp only
  rw [peek_eq buf j2 (by simp [symbols]), hp]
  dsimp only
  rw [if_pos rfl, h3, Outcome.ok_bind]
  exact ⟨j3, rfl, hj3, hle4⟩

/-- Tokens that derive `c` from `n`: the parse of `n` reads them into `c`, given four fuel for each
and its rank. -/
theorem parse_complete {n : NT} {ts : List Tok} {c : Cmd} (h : Derives n ts c) :
    ∀ {fuel : Nat}, 4 * ts.length + n.rank ≤ fuel → Complete buf n (parseNT buf n fuel) ts c := by
  induction h with
  | block h rs ih =>
    intro fuel hfuel
    simp only [List.length_cons, List.length_append, length_flatMap_toks, NT.rank] at hfuel
    obtain ⟨f, rfl⟩ : ∃ f, fuel = f + 2 := ⟨fuel - 2, by omega⟩
    exact parseexec_block_complete rs (ih (by simp only [NT.rank]; omega))
  | simple items hmax =>
    intro fuel hfuel
    obtain ⟨f, rfl⟩ : ∃ f, fuel = f + 1 := ⟨fuel - 1, by simp only [NT.rank] at hfuel; omega⟩
    exact parseexec_simple_complete items hmax
  | pipeEnd h ih =>
    intro fuel hfuel
    simp only [NT.rank] at hfuel
    obtain ⟨f, rfl⟩ : ∃ f, fuel = f + 1 := ⟨fuel - 1, by omega⟩
    exact parsepipe_end_complete (ih (by simp only [NT.rank]; omega))
  | pipeCons h h' ih ih' =>
    intro fuel hfuel
    simp only [List.length_cons, List.length_append, NT.rank] at hfuel
    obtain ⟨f, rfl⟩ : ∃ f, fuel = f + 1 := ⟨fuel - 1, by omega⟩
    exact parsepipe_cons_complete (ih (by simp only [NT.rank]; omega)) (ih' (by simp only [NT.rank]; omega))
  | lineEnd h m ih =>
    intro fuel hfuel
    simp only [List.length_append, NT.rank] at hfuel
    obtain ⟨f, rfl⟩ : ∃ f, fuel = f + 1 := ⟨fuel - 1, by omega⟩
    exact parseline_end_complete m (ih (by simp only [NT.rank]; omega))
  | lineCons h m h' ih ih' =>
    intro fuel hfuel
    simp only [List.length_cons, List.length_append, NT.rank] at hfuel
    obtain ⟨f, rfl⟩ : ∃ f, fuel = f + 1 := ⟨fuel - 1, by omega⟩
    exact parseline_cons_complete m (ih (by simp only [NT.rank]; omega)) (ih' (by simp only [NT.rank]; omega))

end Completeness

/-! ## Termination -/

/-- `p` does not run out of fuel at a position whose tokens, at four fuel each, and `r` fit in
`fuel`. -/
def Total (buf : List UInt8) (r fuel : Nat) (p : Nat → Outcome (Cmd × Nat)) : Prop :=
  ∀ {i : Nat}, 4 * (lexFrom buf i).length + r ≤ fuel → p i ≠ .blocked

section Termination

variable {buf : List UInt8} {f : Nat}

/-- With more fuel than tokens, `parseredirs` does not run out of it: each turn reads two. -/
theorem parseredirs_total : ∀ {fuel : Nat} {cmd : Cmd} {i : Nat}, (lexFrom buf i).length < fuel →
    parseredirs buf fuel cmd i ≠ .blocked
  | 0, _, _, h => absurd h (Nat.not_lt_zero _)
  | fuel + 1, cmd, i, hlen => by
    rw [parseredirs, peek_eq buf i (by simp [symbols])]
    dsimp only
    cases hp : (lexFrom buf i).head?.any (Tok.peeks [60, 62]) with
    | false =>
      rw [Bool.not_false, if_pos rfl]
      intro h; cases h
    | true =>
      rw [Bool.not_true, if_neg Bool.false_ne_true]
      have h1 := length_lexFrom_gettoken_le buf (skipWs buf i)
      rw [lexFrom_skipWs] at h1
      generalize gettoken buf (skipWs buf i) = g1 at h1 ⊢
      obtain ⟨tok, q0, eq0, p1⟩ := g1
      dsimp only at h1 ⊢
      have h2 : (gettoken buf p1).1 ≠ 0 →
          (lexFrom buf (gettoken buf p1).2.2.2).length < (lexFrom buf p1).length :=
        length_lexFrom_gettoken_lt
      generalize gettoken buf p1 = g2 at h2 ⊢
      obtain ⟨t, q, eq, p2⟩ := g2
      dsimp only at h2 ⊢
      -- the file is a word, so a token, and the loop goes on two tokens further
      split_ifs with h97
      · intro h; cases h
      all_goals exact parseredirs_total (by have := h2 (by rw [not_not.mp h97]; decide); omega)

theorem execLoop_total : ∀ {fuel : Nat} {argv : List (Nat × Nat)} {ret : Cmd} {i : Nat},
    (lexFrom buf i).length < fuel → execLoop buf fuel argv ret i ≠ .blocked
  | 0, _, _, _, h => absurd h (Nat.not_lt_zero _)
  | fuel + 1, argv, ret, i, hlen => by
    rw [execLoop, peek_eq buf i (by simp [symbols])]
    dsimp only
    split
    · intro h; cases h
    · have h1 : (gettoken buf (skipWs buf i)).1 ≠ 0 →
          (lexFrom buf (gettoken buf (skipWs buf i)).2.2.2).length < (lexFrom buf i).length :=
        fun h => lexFrom_skipWs buf i ▸ length_lexFrom_gettoken_lt h
      generalize gettoken buf (skipWs buf i) = g at h1 ⊢
      obtain ⟨tok, q, eq, p⟩ := g
      dsimp only at h1 ⊢
      split_ifs with h0 h97 hmax
      · intro h; cases h
      · intro h; cases h
      · intro h; cases h
      · -- a word: the redirections after it, then the next turn
        have hp := h1 h0
        refine Outcome.bind_ne_blocked (parseredirs_total (by have := length_lexFrom_le buf p; omega)) ?_
        rintro ⟨ret', p'⟩ h
        dsimp only
        obtain ⟨rs, hrs, -, -⟩ := parseredirs_sound h
        have hle : (lexFrom buf p').length ≤ (lexFrom buf p).length := by
          rw [hrs, List.length_append]
          omega
        exact execLoop_total (by omega)

theorem backLoop_total : ∀ {fuel : Nat} {cmd : Cmd} {i : Nat}, (lexFrom buf i).length < fuel →
    backLoop buf fuel cmd i ≠ .blocked
  | 0, _, _, h => absurd h (Nat.not_lt_zero _)
  | fuel + 1, cmd, i, hlen => by
    rw [backLoop, peek_eq buf i (by simp [symbols])]
    dsimp only
    cases hp : (lexFrom buf i).head?.any (Tok.peeks [38]) with
    | false =>
      rw [if_neg Bool.false_ne_true]
      intro h; cases h
    | true =>
      rw [if_pos rfl]
      have hL := lexFrom_of_peek (by decide) (by decide) hp
      rw [hL, List.length_cons] at hlen
      exact backLoop_total (by omega)

/-- What a sound parse leaves is a suffix of what it started from. -/
theorem length_le_of_sound {n : NT} {p : Nat → Outcome (Cmd × Nat)} (hp : Sound buf n p) {i j : Nat} {c : Cmd}
    (h : p i = .ok (c, j)) : (lexFrom buf j).length ≤ (lexFrom buf i).length := by
  obtain ⟨ts, hts, -⟩ := hp h
  rw [hts, List.length_append]
  omega

theorem parseline_total (hpipe : Total buf 3 f (parsepipe buf f)) (hline : Total buf 4 f (parseline buf f)) :
    Total buf 4 (f + 1) (parseline buf (f + 1)) := by
  intro i hi
  rw [parseline]
  refine Outcome.bind_ne_blocked (hpipe (by omega)) ?_
  rintro ⟨c1, j1⟩ h1
  dsimp only
  have hj1 := length_le_of_sound (parse_sound f).2.1 h1
  refine Outcome.bind_ne_blocked (backLoop_total (by have := length_lexFrom_le buf j1; omega)) ?_
  rintro ⟨c2, j2⟩ h2
  dsimp only
  obtain ⟨n, hn, -⟩ := backLoop_sound h2
  have hj2 : (lexFrom buf j2).length ≤ (lexFrom buf j1).length := by
    rw [hn, List.length_append]
    omega
  rw [peek_eq buf j2 (by simp [symbols])]
  dsimp only
  cases hp : (lexFrom buf j2).head?.any (Tok.peeks [59]) with
  | false =>
    rw [if_neg Bool.false_ne_true]
    intro h; cases h
  | true =>
    -- the line after the `;` has a token fewer
    rw [if_pos rfl]
    rw [lexFrom_of_peek (by decide) (by decide) hp, List.length_cons] at hj2
    refine Outcome.bind_ne_blocked (hline (by omega)) ?_
    rintro ⟨c3, j3⟩ -
    intro h; cases h

theorem parsepipe_total (hexec : Total buf 2 f (parseexec buf f)) (hpipe : Total buf 3 f (parsepipe buf f)) :
    Total buf 3 (f + 1) (parsepipe buf (f + 1)) := by
  intro i hi
  rw [parsepipe]
  refine Outcome.bind_ne_blocked (hexec (by omega)) ?_
  rintro ⟨c1, j1⟩ h1
  dsimp only
  have hj1 := length_le_of_sound (parse_sound f).2.2.1 h1
  rw [peek_eq buf j1 (by simp [symbols])]
  dsimp only
  cases hp : (lexFrom buf j1).head?.any (Tok.peeks [124]) with
  | false =>
    rw [if_neg Bool.false_ne_true]
    intro h; cases h
  | true =>
    rw [if_pos rfl]
    rw [lexFrom_of_peek (by decide) (by decide) hp, List.length_cons] at hj1
    refine Outcome.bind_ne_blocked (hpipe (by omega)) ?_
    rintro ⟨c2, j2⟩ -
    intro h; cases h

theorem parseexec_total (hblock : Total buf 1 f (parseblock buf f)) : Total buf 2 (f + 1) (parseexec buf (f + 1)) := by
  intro i hi
  rw [parseexec, peek_eq buf i (by simp [symbols])]
  dsimp only
  split
  · exact hblock (by rw [lexFrom_skipWs]; omega)
  · refine Outcome.bind_ne_blocked
      (parseredirs_total (by have := length_lexFrom_le buf (skipWs buf i); omega)) ?_
    rintro ⟨ret, j⟩ -
    dsimp only
    exact execLoop_total (by have := length_lexFrom_le buf j; omega)

theorem parseblock_total (hline : Total buf 4 f (parseline buf f)) : Total buf 1 (f + 1) (parseblock buf (f + 1)) := by
  intro i hi
  rw [parseblock, peek_eq buf i (by simp [symbols])]
  dsimp only
  cases hp : (lexFrom buf i).head?.any (Tok.peeks [40]) with
  | false =>
    rw [Bool.not_false, if_pos rfl]
    intro h; cases h
  | true =>
    rw [Bool.not_true, if_neg Bool.false_ne_true]
    rw [lexFrom_of_peek (by decide) (by decide) hp, List.length_cons] at hi
    refine Outcome.bind_ne_blocked (hline (by omega)) ?_
    rintro ⟨c1, j1⟩ -
    dsimp only
    rw [peek_eq buf j1 (by simp [symbols])]
    dsimp only
    split
    · intro h; cases h
    · exact parseredirs_total (by have := length_lexFrom_le buf (gettoken buf (skipWs buf j1)).2.2.2; omega)

/-- With four fuel for each token and one more for each level of the descent, no parse runs out of
fuel. -/
theorem parse_total : ∀ fuel : Nat, Total buf 4 fuel (parseline buf fuel) ∧ Total buf 3 fuel (parsepipe buf fuel) ∧
    Total buf 2 fuel (parseexec buf fuel) ∧ Total buf 1 fuel (parseblock buf fuel)
  | 0 => by
    refine ⟨?_, ?_, ?_, ?_⟩ <;> intro i hi <;> omega
  | f + 1 =>
    have ⟨hline, hpipe, hexec, hblock⟩ := parse_total f
    ⟨parseline_total hpipe hline, parsepipe_total hexec hpipe, parseexec_total hblock, parseblock_total hline⟩

end Termination

end Xv6.Sh
