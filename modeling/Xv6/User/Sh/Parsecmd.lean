import Xv6.User.Sh.Grammar

/-!
# What `parsecmd` returns

`parsecmd` runs the descent from the start of the line with fuel for every token, then checks that
nothing is left after it. With `parse_sound`, `parse_complete` and `parse_total` it returns exactly
the trees of the derivations of the line's tokens, panics on every other line, and never runs out of
fuel. The names it returns, the words of every `execcmd` and the files of every `redircmd`, are
word tokens of the line, and `nulterminate` writes a `NUL` at the end of each and nowhere inside
one: after it, the string at each name's `q` is the text of its token.

* `Cmd.names` : the words and file names of a command, by their `q` and `eq`;
* `byteAt_nulterminate` : the bytes `nulterminate` changes are the ends of the names, to `NUL`;
* `word_mem_of_derives` : the names of a derivation's tree are word tokens of it;
* `takeWhile_drop_eq_take` : the string at `q`, read up to a `NUL`;
* `parsecmd_grammar`.
-/

namespace Xv6.Sh

open Trans

/-- The words of a command's `execcmd`s and the files of its `redircmd`s. -/
def Cmd.names : Cmd → List (Nat × Nat)
  | .exec argv => argv
  | .redir c file _ _ => c.names ++ [file]
  | .pipe l r => l.names ++ r.names
  | .list l r => l.names ++ r.names
  | .back c => c.names

/-! ## `nulterminate` -/

section Nul

theorem byteAt_set_zero (buf : List UInt8) (p k : Nat) :
    byteAt (buf.set p 0) k = if p = k then 0 else byteAt buf k := by
  rw [byteAt, byteAt, List.getD_eq_getElem?_getD, List.getD_eq_getElem?_getD, List.getElem?_set]
  by_cases hpk : p = k
  · rw [if_pos hpk, if_pos hpk]
    split <;> rfl
  · rw [if_neg hpk, if_neg hpk]

theorem byteAt_foldl_set : ∀ (argv : List (Nat × Nat)) (buf : List UInt8) (k : Nat),
    byteAt (argv.foldl (fun buf w => buf.set w.2 0) buf) k = if k ∈ argv.map Prod.snd then 0 else byteAt buf k
  | [], buf, k => by simp
  | w :: argv, buf, k => by
    rw [List.foldl_cons, byteAt_foldl_set argv, byteAt_set_zero, List.map_cons]
    by_cases hk : k = w.2
    · simp [hk]
    · rw [if_neg (Ne.symm hk)]
      simp only [List.mem_cons, hk, false_or]

/-- `nulterminate` writes `NUL` at the end of every name, and changes no other byte. -/
theorem byteAt_nulterminate : ∀ (cmd : Cmd) (buf : List UInt8) (k : Nat),
    byteAt (nulterminate cmd buf) k = if k ∈ cmd.names.map Prod.snd then 0 else byteAt buf k
  | .exec argv, buf, k => byteAt_foldl_set argv buf k
  | .redir c file _ _, buf, k => by
    rw [nulterminate, byteAt_set_zero, byteAt_nulterminate c, Cmd.names, List.map_append]
    by_cases hk : k = file.2
    · simp [hk]
    · rw [if_neg (Ne.symm hk)]
      simp only [List.mem_append, List.map_cons, List.map_nil, List.mem_singleton, hk, or_false]
  | .pipe l r, buf, k => by
    rw [nulterminate, byteAt_nulterminate r, byteAt_nulterminate l, Cmd.names, List.map_append]
    by_cases hl : k ∈ l.names.map Prod.snd
    · simp [hl]
    · simp only [List.mem_append, hl, false_or, if_false]
  | .list l r, buf, k => by
    rw [nulterminate, byteAt_nulterminate r, byteAt_nulterminate l, Cmd.names, List.map_append]
    by_cases hl : k ∈ l.names.map Prod.snd
    · simp [hl]
    · simp only [List.mem_append, hl, false_or, if_false]
  | .back c, buf, k => byteAt_nulterminate c buf k

/-- The string at `q`, read up to its `NUL`, is the `n` bytes of `buf` from `q` when `mem` holds
them there, none of them `NUL`, and a `NUL` after them. -/
theorem takeWhile_drop_eq_take {mem buf : List UInt8} : ∀ (n q : Nat),
    (∀ k, q ≤ k → k < q + n → byteAt mem k = byteAt buf k ∧ byteAt buf k ≠ 0) → byteAt mem (q + n) = 0 →
      (mem.drop q).takeWhile (· ≠ 0) = (buf.drop q).take n
  | 0, q, _, hend => by
    rw [Nat.add_zero] at hend
    rw [List.take_zero]
    by_cases hq : q < mem.length
    · rw [List.drop_eq_getElem_cons hq, List.takeWhile_cons_of_neg]
      rw [byteAt, List.getD_eq_getElem _ _ hq] at hend
      simp [hend]
    · rw [List.drop_eq_nil_of_le (by omega)]
      rfl
  | n + 1, q, hbytes, hend => by
    obtain ⟨hq, hne⟩ := hbytes q (Nat.le_refl q) (by omega)
    have hm : q < mem.length := lt_length_of_byteAt_ne_zero (hq ▸ hne)
    have hb : q < buf.length := lt_length_of_byteAt_ne_zero hne
    rw [List.drop_eq_getElem_cons hm, List.drop_eq_getElem_cons hb, List.take_succ_cons]
    rw [byteAt, byteAt, List.getD_eq_getElem _ _ hm, List.getD_eq_getElem _ _ hb] at hq
    rw [byteAt, List.getD_eq_getElem _ _ hb] at hne
    rw [List.takeWhile_cons_of_pos (by simpa [hq] using hne), hq,
      takeWhile_drop_eq_take n (q + 1) (fun k hk hk' => hbytes k (by omega) (by omega)) (by rwa [Nat.add_right_comm])]

end Nul

/-! ## The names of a derivation -/

section Names

theorem names_foldl_wrap : ∀ (rs : List Redir) (c : Cmd), (rs.foldl Redir.wrap c).names = c.names ++ rs.map Redir.file
  | [], c => by simp
  | r :: rs, c => by
    rw [List.foldl_cons, names_foldl_wrap rs, List.map_cons]
    simp [Redir.wrap, Cmd.names]

theorem names_backs : ∀ (n : Nat) (c : Cmd), (backs n c).names = c.names
  | 0, _ => rfl
  | n + 1, c => names_backs n (.back c)

theorem word_mem_of_redir {rs : List Redir} {w : Nat × Nat} (h : w ∈ rs.map Redir.file) :
    Tok.word w.1 w.2 ∈ rs.flatMap Redir.toks := by
  obtain ⟨r, hr, rfl⟩ := List.mem_map.mp h
  exact List.mem_flatMap.mpr ⟨r, hr, by simp [Redir.toks]⟩

/-- Every name of a derivation's tree is one of its word tokens. -/
theorem word_mem_of_derives {n : NT} {ts : List Tok} {c : Cmd} (h : Derives n ts c) :
    ∀ w ∈ c.names, Tok.word w.1 w.2 ∈ ts := by
  induction h with
  | block h rs ih =>
    intro w hw
    rw [names_foldl_wrap, List.mem_append] at hw
    rcases hw with hw | hw
    · simp [ih w hw]
    · simp [word_mem_of_redir hw]
  | simple items hmax =>
    intro w hw
    rw [names_foldl_wrap, Cmd.names, List.mem_append] at hw
    rcases hw with hw | hw
    · -- a word of the command is the token of its item
      obtain ⟨it, hit, hw⟩ := List.mem_flatMap.mp hw
      cases it with
      | word v =>
        obtain rfl : w = v := List.mem_singleton.mp hw
        exact List.mem_flatMap.mpr ⟨.word w, hit, by simp [Item.toks]⟩
      | redir r => exact absurd hw List.not_mem_nil
    · -- a file of a redirection is the word after its operator
      obtain ⟨r, hr, rfl⟩ := List.mem_map.mp hw
      obtain ⟨it, hit, hr⟩ := List.mem_flatMap.mp hr
      cases it with
      | word v => exact absurd hr List.not_mem_nil
      | redir r' =>
        obtain rfl : r = r' := List.mem_singleton.mp hr
        exact List.mem_flatMap.mpr ⟨.redir r, hit, by simp [Item.toks, Redir.toks]⟩
  | pipeEnd h ih => exact ih
  | pipeCons h h' ih ih' =>
    intro w hw
    rcases List.mem_append.mp hw with hw | hw
    · simp [ih w hw]
    · simp [ih' w hw]
  | lineEnd h m ih =>
    intro w hw
    rw [names_backs] at hw
    simp [ih w hw]
  | lineCons h m h' ih ih' =>
    intro w hw
    rcases List.mem_append.mp hw with hw | hw
    · rw [names_backs] at hw
      simp [ih w hw]
    · simp [ih' w hw]

/-- After `nulterminate`, the string at the start of each name of a line with no `NUL` is the text
of its word: no name ends inside another, since a word ends at a byte that is no word byte. -/
theorem text_of_names {buf : List UInt8} (h0 : (0 : UInt8) ∉ buf) {cmd : Cmd}
    (hwords : ∀ w ∈ cmd.names, WordAt buf w.1 w.2) {q eq : Nat} (hw : (q, eq) ∈ cmd.names) :
    ((nulterminate cmd buf).drop q).takeWhile (· ≠ 0) = (buf.drop q).take (eq - q) := by
  have hword := hwords _ hw
  refine takeWhile_drop_eq_take (eq - q) q (fun k hk hk' => ?_) ?_
  · have hkeq : k < eq := by have := hword.lt; omega
    -- `k` is inside the word, so the end of no name
    have hnot : k ∉ cmd.names.map Prod.snd := by
      intro hk''
      obtain ⟨w', hw', rfl⟩ := List.mem_map.mp hk''
      have hstop := (hwords w' hw').stop (by have := hword.le; omega)
      rw [hword.bytes w'.2 hk hkeq] at hstop
      exact absurd hstop (by decide)
    rw [byteAt_nulterminate, if_neg hnot]
    exact ⟨rfl, byteAt_ne_zero h0 (by have := hword.le; omega)⟩
  · rw [Nat.add_sub_cancel' (Nat.le_of_lt hword.lt), byteAt_nulterminate,
      if_pos (List.mem_map.mpr ⟨(q, eq), hw, rfl⟩)]

end Names

/-! ## `parsecmd` -/

section Parsecmd

variable {buf : List UInt8}

theorem parsecmd_ne_blocked (buf : List UInt8) : parsecmd buf ≠ .blocked := by
  rw [parsecmd]
  refine Outcome.bind_ne_blocked ((parse_total _).1 ?_) ?_
  · have := length_lexFrom_le buf 0
    omega
  · rintro ⟨cmd, ps⟩ -
    dsimp only
    split <;> (intro h; cases h)

theorem parsecmd_sound {cmd : Cmd} {buf' : List UInt8} (h : parsecmd buf = .ok (cmd, buf')) :
    Derives .line (lex buf) cmd ∧ buf' = nulterminate cmd buf := by
  rw [parsecmd] at h
  obtain ⟨⟨c, j⟩, hc, h⟩ := Outcome.bind_eq_ok.mp h
  dsimp only at h
  -- `peek` moved past the whitespace, to the end of the line
  have hpeek : (peek buf j []).2 = skipWs buf j := rfl
  rw [hpeek] at h
  split at h
  · exact absurd h (by simp)
  · next hend =>
    obtain ⟨rfl, rfl⟩ := Prod.mk.inj (Outcome.ok.inj h)
    obtain ⟨ts, hts, hd⟩ := (parse_sound _).1 hc
    rw [← lexFrom_skipWs buf j, not_not.mp hend, lexFrom_of_length_le (Nat.le_refl _), List.append_nil] at hts
    exact ⟨by rw [lex, hts]; exact hd, rfl⟩

theorem parsecmd_complete (h0 : (0 : UInt8) ∉ buf) {cmd : Cmd} (hd : Derives .line (lex buf) cmd) :
    parsecmd buf = .ok (cmd, nulterminate cmd buf) := by
  have hlen := length_lexFrom_le buf 0
  obtain ⟨j, hj, hL, hle⟩ := parse_complete hd (show _ ≤ 4 * buf.length + 4 by rw [lex]; simp only [NT.rank]; omega)
    (show lexFrom buf 0 = lex buf ++ [] by rw [List.append_nil]; rfl) rfl (Nat.zero_le _)
  -- after the tokens, only whitespace to the end of the line
  have hend : skipWs buf j = buf.length := by
    have hb := byteAt_skipWs_of_lexFrom_nil hL
    have hs : skipWs buf j ≤ buf.length := skip_le_length hle
    by_contra hne
    exact byteAt_ne_zero h0 (show skipWs buf j < buf.length by omega) hb
  rw [parsecmd]
  rw [show parseline buf (4 * buf.length + 4) 0 = .ok (cmd, j) from hj, Outcome.ok_bind]
  dsimp only
  rw [show (peek buf j []).2 = skipWs buf j from rfl, hend, if_neg (not_not.mpr rfl)]

theorem parsecmd_grammar (buf : List UInt8) (h0 : (0 : UInt8) ∉ buf) :
    parsecmd buf ≠ .blocked ∧
      (∀ cmd buf', parsecmd buf = .ok (cmd, buf') ↔ Derives .line (lex buf) cmd ∧ buf' = nulterminate cmd buf) ∧
      ((∃ msg, parsecmd buf = .panic msg) ↔ ¬ ∃ cmd, Derives .line (lex buf) cmd) ∧
      (∀ cmd, Derives .line (lex buf) cmd → ∀ q eq, (q, eq) ∈ cmd.names →
        Tok.word q eq ∈ lex buf ∧ ((nulterminate cmd buf).drop q).takeWhile (· ≠ 0) = (buf.drop q).take (eq - q)) := by
  refine ⟨parsecmd_ne_blocked buf, fun cmd buf' => ⟨parsecmd_sound, ?_⟩, ⟨?_, ?_⟩, ?_⟩
  · rintro ⟨hd, rfl⟩
    exact parsecmd_complete h0 hd
  · rintro ⟨msg, hmsg⟩ ⟨cmd, hd⟩
    rw [parsecmd_complete h0 hd] at hmsg
    exact absurd hmsg (by simp)
  · -- neither returned, by soundness, nor out of fuel
    intro hnot
    cases hp : parsecmd buf with
    | ok r => exact absurd ⟨r.1, (parsecmd_sound (show parsecmd buf = .ok (r.1, r.2) from hp)).1⟩ hnot
    | blocked => exact absurd hp (parsecmd_ne_blocked buf)
    | panic msg => exact ⟨msg, rfl⟩
  · intro cmd hd q eq hw
    have hwords : ∀ w ∈ cmd.names, WordAt buf w.1 w.2 := fun w hw' => wordAt_of_mem (word_mem_of_derives hd w hw')
    exact ⟨word_mem_of_derives hd _ hw, text_of_names h0 hwords hw⟩

theorem parsecmd_grammar_pipe :
    (0 : UInt8) ∉ [108, 115, 32, 124, 32, 119, 99] ∧
      (parsecmd [108, 115, 32, 124, 32, 119, 99] ≠ .blocked ∧
        (∀ cmd buf', parsecmd [108, 115, 32, 124, 32, 119, 99] = .ok (cmd, buf') ↔
          Derives .line (lex [108, 115, 32, 124, 32, 119, 99]) cmd ∧
            buf' = nulterminate cmd [108, 115, 32, 124, 32, 119, 99]) ∧
        ((∃ msg, parsecmd [108, 115, 32, 124, 32, 119, 99] = .panic msg) ↔
          ¬ ∃ cmd, Derives .line (lex [108, 115, 32, 124, 32, 119, 99]) cmd) ∧
        (∀ cmd, Derives .line (lex [108, 115, 32, 124, 32, 119, 99]) cmd → ∀ q eq, (q, eq) ∈ cmd.names →
          Tok.word q eq ∈ lex [108, 115, 32, 124, 32, 119, 99] ∧
            ((nulterminate cmd [108, 115, 32, 124, 32, 119, 99]).drop q).takeWhile (· ≠ 0) =
              ([108, 115, 32, 124, 32, 119, 99].drop q).take (eq - q))) :=
  ⟨by decide, parsecmd_grammar [108, 115, 32, 124, 32, 119, 99] (by decide)⟩

end Parsecmd

end Xv6.Sh
