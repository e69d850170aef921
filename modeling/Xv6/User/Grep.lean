import Xv6.Lib.Chunks
import Xv6.User.Ulib

/-!
# `grep` (`grep.c`)

`match(re, text)` is the matcher of Kernighan and Pike: `matchhere` matches `re` at the start of the
text, `matchstar` a starred byte and then the rest of the pattern, and `match` tries `matchhere` at
each position, or at the first only when the pattern starts with `^`. A string is its bytes before
the `NUL`. `matchstar` is given `matchhere(re, ·)` as the function `here`: every recursion is then
structural, on the pattern for `matchhere` and on the text for the loops of `matchstar` and `match`,
so the three functions end on every input.

`grep(pattern, fd)` reads into `buf[1024]` behind the `m` bytes of a line not yet ended, and writes
each line that ends in the buffer and matches, with its `'\n'`.

* `matchstar`, `matchhere`, `grepMatch` (`match`);
* `parse`, `Matches` : a pattern read as `'^'? item* '$'?`, with `c` and `c*` items, and the bytes
  an item sequence matches;
* `grepMatch_iff` : `match` finds exactly the substrings the items match, at the start for `^` and at
  the end for `$`;
* `scanLines`, `grepLoop`, `grep`;
* `grep_lines` : when every line is shorter than the buffer, `grep` writes the lines that match, in
  order, whatever the chunks;
* `grep_long_line` : a line of `1023` bytes fills the buffer, the next read asks for nothing, and
  `grep` stops there.
-/

namespace Xv6.Grep

open Chunks Ulib

/-- `'^'` -/
def caret : UInt8 := 94

/-- `'$'` -/
def dollar : UInt8 := 36

/-- `'*'` -/
def star : UInt8 := 42

/-- `'.'` -/
def dot : UInt8 := 46

/-- `'\n'` -/
def newline : UInt8 := 10

/-! ## The matcher -/

/-- The loop of `matchstar(c, re, text)`, with `here` for `matchhere(re, ·)`: `re` after no `c`, and
after one more each turn for as long as the text goes on with `c` (with any byte for `.`). -/
def matchstar (c : UInt8) (here : List UInt8 → Bool) : List UInt8 → Bool
  | [] => here []
  | t :: ts => here (t :: ts) || ((t == c || c == dot) && matchstar c here ts)

/-- The last case of `matchhere`: the text goes on with `c`, or with any byte for `.`, and `here`
matches the rest. -/
def matchOne (c : UInt8) (here : List UInt8 → Bool) : List UInt8 → Bool
  | [] => false
  | t :: ts => (c == dot || c == t) && here ts

/-- `matchhere(re, text)`: `re` at the start of `text`. -/
def matchhere : List UInt8 → List UInt8 → Bool
  | [], _ => true
  | [c], text => if c = dollar then text.isEmpty else matchOne c (matchhere []) text
  | c :: s :: re, text =>
    if s = star then matchstar c (matchhere re) text else matchOne c (matchhere (s :: re)) text

/-- The `do ... while(*text++ != '\0')` loop of `match`: `matchhere` at each position of the text,
its end included. -/
def matchLoop (re : List UInt8) : List UInt8 → Bool
  | [] => matchhere re []
  | t :: ts => matchhere re (t :: ts) || matchLoop re ts

/-- `match(re, text)` -/
def grepMatch : List UInt8 → List UInt8 → Bool
  | [], text => matchLoop [] text
  | c :: re, text => if c = caret then matchhere re text else matchLoop (c :: re) text

/-! ## Patterns -/

/-- An item: a byte, and whether a `*` follows it. -/
abbrev Item := UInt8 × Bool

/-- The items of a pattern after its `^`, and whether its last byte is the `$` anchor: a byte with a
`*` after it is a starred item, and a `$` that ends the pattern is the anchor. -/
def items : List UInt8 → List Item × Bool
  | [] => ([], false)
  | [c] => if c = dollar then ([], true) else ([(c, false)], false)
  | c :: s :: re =>
    if s = star then ((c, true) :: (items re).1, (items re).2)
    else ((c, false) :: (items (s :: re)).1, (items (s :: re)).2)

/-- A pattern read as `'^'? item* '$'?`. -/
structure Pattern where
  /-- the pattern starts with `^` -/
  anchored : Bool
  items : List Item
  /-- the pattern ends with a `$` that no `*` follows -/
  atEnd : Bool

/-- `re` as a `Pattern`: `^` is the anchor only as the first byte. -/
def parse : List UInt8 → Pattern
  | [] => ⟨false, [], false⟩
  | c :: re => if c = caret then ⟨true, (items re).1, (items re).2⟩
    else ⟨false, (items (c :: re)).1, (items (c :: re)).2⟩

/-- An item's byte `c` matches `t`: `.` matches any byte. -/
def ItemByte (c t : UInt8) : Prop := c = dot ∨ c = t

/-- The items match exactly the bytes: `c` one byte, `c*` any number. -/
inductive Matches : List Item → List UInt8 → Prop
  | nil : Matches [] []
  | one {c t : UInt8} {is : List Item} {s : List UInt8} :
      ItemByte c t → Matches is s → Matches ((c, false) :: is) (t :: s)
  | starNil {c : UInt8} {is : List Item} {s : List UInt8} : Matches is s → Matches ((c, true) :: is) s
  | starCons {c t : UInt8} {is : List Item} {s : List UInt8} :
      ItemByte c t → Matches ((c, true) :: is) s → Matches ((c, true) :: is) (t :: s)

theorem matches_nil_iff {s : List UInt8} : Matches [] s ↔ s = [] := by
  constructor
  · rintro ⟨⟩
    rfl
  · rintro rfl
    exact .nil

theorem matches_one_iff {c : UInt8} {is : List Item} {s : List UInt8} :
    Matches ((c, false) :: is) s ↔ ∃ t ts, s = t :: ts ∧ ItemByte c t ∧ Matches is ts := by
  constructor
  · rintro (_ | ⟨hc, hm⟩)
    exact ⟨_, _, rfl, hc, hm⟩
  · rintro ⟨t, ts, rfl, hc, hm⟩
    exact .one hc hm

/-- `c*` then the rest: some bytes that each match `c`, then bytes the rest matches. -/
theorem matches_star_iff {c : UInt8} {is : List Item} {s : List UInt8} :
    Matches ((c, true) :: is) s ↔ ∃ u v, s = u ++ v ∧ (∀ t ∈ u, ItemByte c t) ∧ Matches is v := by
  constructor
  · intro h
    -- the derivation peels the starred bytes one at a time
    generalize hi : ((c, true) :: is : List Item) = js at h
    induction h with
    | nil => cases hi
    | one => cases hi
    | starNil hm => cases hi; exact ⟨[], _, rfl, nofun, hm⟩
    | starCons hc _ ih =>
      cases hi
      obtain ⟨u, v, rfl, hu, hv⟩ := ih rfl
      refine ⟨_ :: u, v, rfl, ?_, hv⟩
      intro t ht
      rcases List.mem_cons.mp ht with rfl | ht
      · exact hc
      · exact hu t ht
  · rintro ⟨u, v, rfl, hu, hv⟩
    induction u with
    | nil => exact .starNil hv
    | cons t u ih =>
      exact .starCons (hu t List.mem_cons_self) (ih fun t' ht' => hu t' (List.mem_cons_of_mem t ht'))

/-! ## The matcher finds what the items match -/

theorem matchOne_iff (c : UInt8) (here : List UInt8 → Bool) (text : List UInt8) :
    matchOne c here text = true ↔ ∃ t ts, text = t :: ts ∧ ItemByte c t ∧ here ts = true := by
  cases text with
  | nil => simp [matchOne]
  | cons t ts =>
    simp only [matchOne, Bool.and_eq_true, Bool.or_eq_true, beq_iff_eq, ItemByte, List.cons.injEq]
    constructor
    · rintro ⟨hc, hh⟩
      exact ⟨t, ts, ⟨rfl, rfl⟩, hc, hh⟩
    · rintro ⟨t, ts, ⟨rfl, rfl⟩, hc, hh⟩
      exact ⟨hc, hh⟩

/-- `matchstar` tries `here` after every run of bytes that match `c`. -/
theorem matchstar_iff (c : UInt8) (here : List UInt8 → Bool) :
    ∀ text : List UInt8, matchstar c here text = true ↔
      ∃ u v, text = u ++ v ∧ (∀ t ∈ u, ItemByte c t) ∧ here v = true
  | [] => by
    simp only [matchstar, List.nil_eq_append_iff]
    constructor
    · intro h
      exact ⟨[], [], ⟨rfl, rfl⟩, nofun, h⟩
    · rintro ⟨u, v, ⟨rfl, rfl⟩, -, h⟩
      exact h
  | t :: ts => by
    simp only [matchstar, Bool.or_eq_true, Bool.and_eq_true, beq_iff_eq, matchstar_iff c here ts]
    constructor
    · rintro (h | ⟨hc, u, v, rfl, hu, hv⟩)
      · exact ⟨[], t :: ts, rfl, nofun, h⟩
      · refine ⟨t :: u, v, rfl, ?_, hv⟩
        intro t' ht'
        rcases List.mem_cons.mp ht' with rfl | ht'
        · exact hc.elim (fun h => .inr h.symm) .inl
        · exact hu t' ht'
    · rintro ⟨u, v, huv, hu, hv⟩
      cases u with
      | nil =>
        left
        rw [List.nil_append] at huv
        subst huv
        exact hv
      | cons t' u =>
        obtain ⟨rfl, rfl⟩ := List.cons.inj huv
        right
        refine ⟨(hu t List.mem_cons_self).elim .inr (fun h => .inl h.symm), u, v, rfl,
          fun t' ht' => hu t' (List.mem_cons_of_mem t ht'), hv⟩

/-- `matchhere` matches the items of `re` against a prefix of the text, which is the whole text when
`re` ends with the `$` anchor. -/
theorem matchhere_iff : ∀ (re text : List UInt8), matchhere re text = true ↔
    ∃ mid post, text = mid ++ post ∧ Matches (items re).1 mid ∧ ((items re).2 = true → post = [])
  | [], text => by
    simp only [matchhere, items, matches_nil_iff, Bool.false_eq_true, false_implies, and_true,
      true_iff]
    exact ⟨[], text, rfl, rfl⟩
  | [c], text => by
    by_cases hc : c = dollar
    · -- the `$` anchor: the text is over
      simp only [matchhere, items, if_pos hc, List.isEmpty_iff, matches_nil_iff, forall_const]
      constructor
      · rintro rfl
        exact ⟨[], [], rfl, rfl, rfl⟩
      · rintro ⟨mid, post, rfl, rfl, rfl⟩
        rfl
    · -- one byte, and `matchhere("", ·)` after it
      have hnil : matchhere [] = fun _ => true := rfl
      rw [matchhere, if_neg hc, matchOne_iff, hnil]
      simp only [items, if_neg hc, matches_one_iff, matches_nil_iff, Bool.false_eq_true,
        false_implies, and_true]
      constructor
      · rintro ⟨t, ts, rfl, hct⟩
        exact ⟨[t], ts, rfl, t, [], rfl, hct, rfl⟩
      · rintro ⟨mid, post, rfl, t, ts, rfl, hct, rfl⟩
        exact ⟨t, post, rfl, hct⟩
  | c :: s :: re, text => by
    by_cases hs : s = star
    · -- `c*`, then the rest of the pattern after some bytes that match `c`
      simp only [matchhere, items, if_pos hs, matchstar_iff, matchhere_iff re, matches_star_iff]
      constructor
      · rintro ⟨u, v, rfl, hu, mid, post, rfl, hm, hend⟩
        exact ⟨u ++ mid, post, by rw [List.append_assoc], ⟨u, mid, rfl, hu, hm⟩, hend⟩
      · rintro ⟨mid, post, rfl, ⟨u, v, rfl, hu, hm⟩, hend⟩
        exact ⟨u, v ++ post, by rw [List.append_assoc], hu, v, post, rfl, hm, hend⟩
    · -- `c`, then the rest of the pattern after one byte
      simp only [matchhere, items, if_neg hs, matchOne_iff, matchhere_iff (s :: re), matches_one_iff]
      constructor
      · rintro ⟨t, ts, rfl, hct, mid, post, rfl, hm, hend⟩
        exact ⟨t :: mid, post, rfl, ⟨t, mid, rfl, hct, hm⟩, hend⟩
      · rintro ⟨mid, post, rfl, ⟨t, ts, rfl, hct, hm⟩, hend⟩
        exact ⟨t, ts ++ post, rfl, hct, ts, post, rfl, hm, hend⟩

/-- `match`'s loop tries every suffix of the text. -/
theorem matchLoop_iff (re : List UInt8) : ∀ text : List UInt8,
    matchLoop re text = true ↔ ∃ pre rest, text = pre ++ rest ∧ matchhere re rest = true
  | [] => by
    simp only [matchLoop, List.nil_eq_append_iff]
    constructor
    · intro h
      exact ⟨[], [], ⟨rfl, rfl⟩, h⟩
    · rintro ⟨pre, rest, ⟨rfl, rfl⟩, h⟩
      exact h
  | t :: ts => by
    simp only [matchLoop, Bool.or_eq_true, matchLoop_iff re ts]
    constructor
    · rintro (h | ⟨pre, rest, rfl, h⟩)
      · exact ⟨[], t :: ts, rfl, h⟩
      · exact ⟨t :: pre, rest, rfl, h⟩
    · rintro ⟨pre, rest, hpr, h⟩
      cases pre with
      | nil =>
        left
        rw [List.nil_append] at hpr
        subst hpr
        exact h
      | cons t' pre =>
        obtain ⟨rfl, rfl⟩ := List.cons.inj hpr
        exact .inr ⟨pre, rest, rfl, h⟩

/-- `match(re, text)` is `1` exactly when the items of `re` match some substring of `text`, one that
starts the text when `re` starts with `^`, and one that ends it when `re` ends with a `$` that no
`*` follows. -/
theorem grepMatch_iff (re text : List UInt8) :
    grepMatch re text = true ↔
      ∃ pre mid post, text = pre ++ mid ++ post ∧ ((parse re).anchored = true → pre = []) ∧
        Matches (parse re).items mid ∧ ((parse re).atEnd = true → post = []) := by
  -- the loop over the start positions, for a pattern with no `^`
  have hloop : ∀ r, matchLoop r text = true ↔ ∃ pre mid post, text = pre ++ mid ++ post ∧
      (false = true → pre = []) ∧ Matches (items r).1 mid ∧ ((items r).2 = true → post = []) := by
    intro r
    rw [matchLoop_iff]
    constructor
    · rintro ⟨pre, rest, rfl, h⟩
      obtain ⟨mid, post, rfl, hm, hend⟩ := (matchhere_iff r rest).mp h
      exact ⟨pre, mid, post, by rw [List.append_assoc], nofun, hm, hend⟩
    · rintro ⟨pre, mid, post, rfl, -, hm, hend⟩
      exact ⟨pre, mid ++ post, by rw [List.append_assoc], (matchhere_iff r _).mpr ⟨mid, post, rfl, hm, hend⟩⟩
  cases re with
  | nil => exact hloop []
  | cons c re =>
    by_cases hc : c = caret
    · simp only [grepMatch, parse, if_pos hc, matchhere_iff, forall_const]
      constructor
      · rintro ⟨mid, post, rfl, hm, hend⟩
        exact ⟨[], mid, post, rfl, rfl, hm, hend⟩
      · rintro ⟨pre, mid, post, rfl, rfl, hm, hend⟩
        exact ⟨mid, post, rfl, hm, hend⟩
    · simp only [grepMatch, parse, if_neg hc]
      exact hloop (c :: re)

/-- A pattern of one ordinary byte finds the texts that hold it. -/
theorem grepMatch_byte {c : UInt8} (hc : c ≠ caret) (hd : c ≠ dollar) (hdot : c ≠ dot)
    (text : List UInt8) : grepMatch [c] text = true ↔ c ∈ text := by
  have hparse : parse [c] = ⟨false, [(c, false)], false⟩ := by
    simp [parse, items, hc, hd]
  rw [grepMatch_iff, hparse, List.mem_iff_append]
  simp only [Bool.false_eq_true, false_implies, true_and, and_true, matches_one_iff, matches_nil_iff]
  constructor
  · rintro ⟨pre, mid, post, rfl, t, ts, rfl, hct, rfl⟩
    obtain rfl : c = t := hct.resolve_left hdot
    exact ⟨pre, post, by simp⟩
  · rintro ⟨pre, post, rfl⟩
    exact ⟨pre, [c], post, by simp, c, [], rfl, .inr rfl, rfl⟩

/-! ## Lines -/

/-- The inner loop of `grep`, from `p` to the `NUL` at `buf[m]`: a line that ends in the buffer is
cut at its `'\n'` and written with it when it matches. The result is what the loop wrote, and the
bytes from `p` on, which `memmove` brings to the start of `buf`. -/
def scanLines (pattern : List UInt8) (p : List UInt8) : List UInt8 × List UInt8 :=
  match _h : strchr p newline with
  | none => ([], p)
  | some i =>
    let line := p.take i
    let rest := scanLines pattern (p.drop (i + 1))
    ((if grepMatch pattern line then line ++ [newline] else []) ++ rest.1, rest.2)
termination_by p.length
decreasing_by
  obtain ⟨pre, post, hp, hlen, -⟩ := strchr_eq_some.mp _h
  rw [hp, ← hlen]
  simp only [List.length_drop, List.length_append, List.length_cons]
  omega

/-- The loop `while((n = read(fd, buf+m, sizeof(buf)-m-1)) > 0)`, from the `m` bytes of `buf`: what
it writes to fd 1. -/
def grepLoop (pattern : List UInt8) : Nat → List UInt8 → List (List UInt8) → List UInt8
  | 0, _, _ => []
  | fuel + 1, buf, cs =>
    let (data, cs') := readChunk (1024 - buf.length - 1) cs
    if 0 < data.length then
      let (out, rest) := scanLines pattern (buf ++ data)
      out ++ grepLoop pattern fuel rest cs'
    else []

/-- What `grep(pattern, fd)` writes for the stream the chunks `cs` hand out. Each turn reads a byte
at least, so one turn more than the stream has bytes is enough. -/
def grep (pattern : List UInt8) (cs : List (List UInt8)) : List UInt8 :=
  grepLoop pattern (cs.flatten.length + 1) [] cs

/-- The lines `ls`, each with its newline. -/
def joinLines (ls : List (List UInt8)) : List UInt8 := ls.flatMap (· ++ [newline])

/-- The lines of `ls` that `pattern` matches, each with its newline. -/
def matching (pattern : List UInt8) (ls : List (List UInt8)) : List UInt8 :=
  joinLines (ls.filter (grepMatch pattern))

@[simp] theorem joinLines_nil : joinLines [] = [] := rfl

@[simp] theorem joinLines_cons (l : List UInt8) (ls : List (List UInt8)) :
    joinLines (l :: ls) = l ++ newline :: joinLines ls := by
  simp [joinLines]

theorem matching_append (pattern : List UInt8) (ls ls' : List (List UInt8)) :
    matching pattern (ls ++ ls') = matching pattern ls ++ matching pattern ls' := by
  simp [matching, joinLines, List.filter_append]

/-- `scanLines` of whole lines and a last piece with no newline writes the lines that match and
leaves the piece. -/
theorem scanLines_lines (pattern : List UInt8) {tail : List UInt8} (htail : newline ∉ tail)
    (htail0 : 0 ∉ tail) :
    ∀ ls : List (List UInt8), (∀ l ∈ ls, newline ∉ l ∧ 0 ∉ l) →
      scanLines pattern (joinLines ls ++ tail) = (matching pattern ls, tail)
  | [], _ => by
    have hnone : strchr tail newline = none := (strchr_eq_none htail0).mpr (.inl htail)
    rw [joinLines_nil, List.nil_append, scanLines]
    split
    · rfl
    · next i h =>
      rw [hnone] at h
      cases h
  | l :: ls, hls => by
    obtain ⟨hl, hl0⟩ := hls l List.mem_cons_self
    have hrest := scanLines_lines pattern htail htail0 ls fun l' h' => hls l' (List.mem_cons_of_mem l h')
    rw [joinLines_cons, List.append_assoc, List.cons_append]
    -- the first newline ends the first line
    have hsome : strchr (l ++ newline :: (joinLines ls ++ tail)) newline = some l.length :=
      strchr_eq_some.mpr ⟨l, _, rfl, rfl, hl, hl0, by decide⟩
    have htake : (l ++ newline :: (joinLines ls ++ tail)).take l.length = l := List.take_left
    have hdrop : (l ++ newline :: (joinLines ls ++ tail)).drop (l.length + 1) = joinLines ls ++ tail := by
      simp
    rw [scanLines]
    split
    · next h =>
      rw [hsome] at h
      cases h
    · next i h =>
      rw [hsome] at h
      cases h
      simp only [htake, hdrop, hrest]
      by_cases hm : grepMatch pattern l = true <;> simp [matching, hm]

/-- The bytes of a line up to a point where no newline was met are at most the line. -/
theorem length_le_of_prefix {part q l rest : List UInt8} (h : part ++ q = l ++ newline :: rest)
    (hpart : newline ∉ part) : part.length ≤ l.length := by
  rcases List.append_eq_append_iff.mp h with ⟨a, rfl, -⟩ | ⟨c, rfl, hc⟩
  · simp
  · cases c with
    | nil => simp
    | cons x c =>
      obtain ⟨rfl, -⟩ := List.cons.inj hc
      simp at hpart

/-- A prefix of a stream of lines is some of its lines, then a part of the next line or of the last
piece, with no newline. -/
theorem lines_prefix {tail : List UInt8} (htail : newline ∉ tail) :
    ∀ (ls : List (List UInt8)) (p q : List UInt8), (∀ l ∈ ls, newline ∉ l) →
      p ++ q = joinLines ls ++ tail →
      ∃ j part, p = joinLines (ls.take j) ++ part ∧ part ++ q = joinLines (ls.drop j) ++ tail ∧
        newline ∉ part
  | [], p, q, _, h => by
    refine ⟨0, p, by simp, by simpa using h, fun hp => htail ?_⟩
    simp only [joinLines_nil, List.nil_append] at h
    rw [← h]
    exact List.mem_append_left q hp
  | l :: ls, p, q, hls, h => by
    have hl := hls l List.mem_cons_self
    rw [joinLines_cons, List.append_assoc] at h
    rcases List.append_eq_append_iff.mp h with ⟨a, rfl, -⟩ | ⟨c, rfl, hc⟩
    · -- `p` ends inside the first line
      refine ⟨0, p, by simp, ?_, fun hp => hl (List.mem_append_left a hp)⟩
      simp only [List.drop_zero, joinLines_cons, List.append_assoc]
      rw [h, List.append_assoc]
    · cases c with
      | nil =>
        refine ⟨0, l, by simp, ?_, hl⟩
        simpa using hc.symm
      | cons x c =>
        simp only [List.cons_append, List.cons.injEq] at hc
        obtain ⟨rfl, hc⟩ := hc
        obtain ⟨j, part, hp, hq, hpart⟩ :=
          lines_prefix htail ls c q (fun l' h' => hls l' (List.mem_cons_of_mem l h')) hc.symm
        refine ⟨j + 1, part, ?_, hq, hpart⟩
        simp [hp]

/-- The loop of `grep` from a buffer that holds the start of the next line, or of the last piece:
it writes the lines that match, as long as every line fits in the buffer with its newline and the
`NUL` after it. -/
theorem grepLoop_lines (pattern : List UInt8) {tail : List UInt8} (htail : newline ∉ tail)
    (htail0 : 0 ∉ tail) :
    ∀ (fuel : Nat) (buf : List UInt8) (cs : List (List UInt8)) (ls : List (List UInt8)),
      (∀ l ∈ ls, newline ∉ l ∧ 0 ∉ l ∧ l.length < 1023) → Nonempty cs →
      cs.flatten.length < fuel → buf ++ cs.flatten = joinLines ls ++ tail → newline ∉ buf →
      grepLoop pattern fuel buf cs = matching pattern ls
  | 0, _, _, _, _, _, h, _, _ => absurd h (Nat.not_lt_zero _)
  | fuel + 1, buf, cs, ls, hls, hcs, hfuel, hstream, hbuf => by
    have happ := readChunk_append (1024 - buf.length - 1) cs
    have hlen := length_readChunk_add (1024 - buf.length - 1) cs
    have hcs' := hcs.readChunk (1024 - buf.length - 1)
    have hnil := readChunk_eq_nil hcs (1024 - buf.length - 1)
    rcases hr : readChunk (1024 - buf.length - 1) cs with ⟨data, cs'⟩
    rw [hr] at happ hlen hcs' hnil
    dsimp only at happ hlen hcs' hnil
    simp only [grepLoop, hr]
    split
    · next hpos =>
      -- the lines that end in the buffer, then the loop from the part of a line after them
      have hsplit : (buf ++ data) ++ cs'.flatten = joinLines ls ++ tail := by
        rw [List.append_assoc, happ, hstream]
      obtain ⟨j, part, hp, hq, hpart⟩ :=
        lines_prefix htail ls (buf ++ data) cs'.flatten (fun l hl => (hls l hl).1) hsplit
      have hpart0 : 0 ∉ part := by
        intro h0
        have hmem : (0 : UInt8) ∈ joinLines ls ++ tail := by
          rw [← hsplit, hp]
          exact List.mem_append_left _ (List.mem_append_right _ h0)
        rcases List.mem_append.mp hmem with hm | hm
        · obtain ⟨l, hl, hl0⟩ := List.mem_flatMap.mp hm
          rcases List.mem_append.mp hl0 with hl0 | hl0
          · exact (hls l hl).2.1 hl0
          · simp [newline] at hl0
        · exact htail0 hm
      have hscan := scanLines_lines pattern hpart hpart0 (ls.take j)
        (fun l hl => ⟨(hls l (List.mem_of_mem_take hl)).1, (hls l (List.mem_of_mem_take hl)).2.1⟩)
      rw [hp, hscan]
      dsimp only
      rw [grepLoop_lines pattern htail htail0 fuel part cs' (ls.drop j)
        (fun l hl => hls l (List.mem_of_mem_drop hl)) hcs' (by omega) hq hpart,
        ← matching_append, List.take_append_drop]
    · next hzero =>
      -- nothing read: the stream is over, or a line fills the buffer; either way no line is left
      have hdata : data = [] := List.eq_nil_of_length_eq_zero (by omega)
      cases ls with
      | nil => rfl
      | cons l ls =>
        exfalso
        have hl := hls l List.mem_cons_self
        rw [joinLines_cons, List.append_assoc] at hstream
        have hbl := length_le_of_prefix hstream hbuf
        rcases hnil.mp hdata with rfl | hreq
        · -- the newline that ends `l` is in the buffer
          simp only [List.flatten_nil, List.append_nil] at hstream
          exact hbuf (hstream ▸ List.mem_append_right l List.mem_cons_self)
        · omega

/-- When every line of the stream is shorter than `1023` bytes, `grep` writes exactly the lines that
match, each with its newline, in order, whatever the chunks `read` hands out. -/
theorem grep_lines (pattern : List UInt8) {ls : List (List UInt8)} {tail : List UInt8}
    (hls : ∀ l ∈ ls, newline ∉ l ∧ 0 ∉ l ∧ l.length < 1023) (htail : newline ∉ tail) (htail0 : 0 ∉ tail)
    {cs : List (List UInt8)} (hcs : Nonempty cs) (hstream : cs.flatten = joinLines ls ++ tail) :
    grep pattern cs = matching pattern ls :=
  grepLoop_lines pattern htail htail0 _ [] cs ls hls hcs (Nat.lt_succ_self _) hstream List.not_mem_nil

/-- A first line of `1023` bytes stops `grep` at the first read: the read fills `buf` with no
newline, and the next one asks for `sizeof(buf) - m - 1 = 0` bytes, gets none, and ends the loop. -/
theorem grep_stops_at_long_line (pattern : List UInt8) {l rest : List UInt8} (hl : l.length = 1023)
    (hnl : newline ∉ l) (h0 : 0 ∉ l) (hrest : rest ≠ []) : grep pattern [l ++ rest] = [] := by
  have hpos : 0 < rest.length := List.length_pos_iff.mpr hrest
  have hread : readChunk 1023 [l ++ rest] = (l, [rest]) := by
    rw [readChunk_cons, if_neg (by rw [List.length_append, hl]; omega), List.take_left' hl,
      List.drop_left' hl]
  have hscan : scanLines pattern l = ([], l) := scanLines_lines pattern hnl h0 [] nofun
  have hread0 : readChunk 0 [rest] = ([], [rest]) := by
    rw [readChunk_cons, if_neg (by omega), List.take_zero, List.drop_zero]
  obtain ⟨k, hk⟩ : ∃ k, [l ++ rest].flatten.length = k + 1 :=
    ⟨1022 + rest.length, by simp [hl]; omega⟩
  rw [grep, hk]
  -- the first turn reads `l`, writes nothing, and keeps `l`; the second reads nothing
  cases k <;> simp only [grepLoop, List.length_nil, hread, hl, hscan, hread0, List.nil_append] <;> rfl

/-- A line of `1023` bytes, then the line `x`: the second line matches `x`, but `grep x` writes
nothing. -/
theorem grep_long_line :
    List.replicate 1023 97 ++ [newline] ++ [120, newline] = joinLines [List.replicate 1023 97, [120]] ∧
      matching [120] [List.replicate 1023 97, [120]] = [120, newline] ∧
      grep [120] [List.replicate 1023 97 ++ [newline] ++ [120, newline]] = [] := by
  have hx : ∀ text, grepMatch [120] text = true ↔ (120 : UInt8) ∈ text :=
    grepMatch_byte (by decide) (by decide) (by decide)
  have hlong : grepMatch [120] (List.replicate 1023 97) = false := by
    rw [← Bool.not_eq_true, hx, List.mem_replicate]
    decide
  have hshort : grepMatch [120] [120] = true := (hx [120]).mpr List.mem_cons_self
  refine ⟨rfl, ?_, ?_⟩
  · simp only [matching, List.filter_cons, hlong, hshort, List.filter_nil]
    rfl
  · rw [List.append_assoc]
    exact grep_stops_at_long_line [120] List.length_replicate
      (by rw [List.mem_replicate]; decide) (by rw [List.mem_replicate]; decide) nofun

end Xv6.Grep
