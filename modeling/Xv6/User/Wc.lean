import Xv6.Lib.Chunks
import Xv6.User.Ulib

/-!
# `wc` (`wc.c`)

`wc(fd, name)` reads its stream `sizeof(buf) = 512` bytes at a time and counts, byte by byte, the
bytes, the `'\n'`s, and the words: a byte outside `" \r\t\n\v"` that is not `inword` starts one.
`inword` is kept from one read to the next. The counters are `int`s. The reads are those of
`Chunks`: a `read` that fails, after which `wc` prints an error, is left out.

* `wcByte`, `wcLoop`, `wc`;
* `words s` : the maximal runs of bytes of `s` outside `" \r\t\n\v"`, the nonempty pieces of
  `List.splitOnP`; `length_words_cons` counts them byte by byte;
* `wcLoop_eq_foldl` : whatever the chunks, the counts are those of one pass over the stream;
* `c_foldl_wcByte`, `l_foldl_wcByte`, `w_foldl_wcByte` : what one pass counts;
* `wc_counts` : the lines, the words and the bytes, as `int`s, for a stream of fewer than `2^31`
  bytes, the same for every chunking.
-/

namespace Xv6.Wc

open Chunks Ulib

/-- `wc`'s `l`, `w`, `c` and `inword`. -/
structure Counts where
  l : Int32
  w : Int32
  c : Int32
  inword : Bool
  deriving DecidableEq, Repr

/-- `" \r\t\n\v"` -/
def whitespace : List UInt8 := [32, 13, 9, 10, 11]

/-- One turn of the loop over `buf[i]`. -/
def wcByte (st : Counts) (b : UInt8) : Counts :=
  let c := st.c + 1
  let l := if b = 10 then st.l + 1 else st.l
  if (strchr whitespace b).isSome then { st with c := c, l := l, inword := false }
  else if !st.inword then { st with c := c, l := l, w := st.w + 1, inword := true }
  else { st with c := c, l := l }

/-- The loop `while((n = read(fd, buf, sizeof(buf))) > 0)` over the chunks `cs`. -/
def wcLoop : Nat → List (List UInt8) → Counts → Counts
  | 0, _, st => st
  | fuel + 1, cs, st =>
    let (buf, cs') := readChunk 512 cs
    if 0 < buf.length then wcLoop fuel cs' (buf.foldl wcByte st) else st

/-- The counts `wc(fd, name)` prints for the stream the chunks `cs` hand out. Each turn of the loop
reads a byte at least, so one turn more than the stream has bytes is enough. -/
def wc (cs : List (List UInt8)) : Counts := wcLoop (cs.flatten.length + 1) cs ⟨0, 0, 0, false⟩

/-! ## Words -/

/-- Whether `b` is a byte of `" \r\t\n\v"`. -/
def isSpace (b : UInt8) : Bool := b ∈ whitespace

/-- The words of `s`: its maximal runs of bytes outside `" \r\t\n\v"`. -/
def words (s : List UInt8) : List (List UInt8) := (s.splitOnP isSpace).filter fun w => !w.isEmpty

/-- Whether `s` starts inside a word. -/
def startsWord (s : List UInt8) : Bool := s.head?.any fun b => !isSpace b

@[simp] theorem startsWord_nil : startsWord [] = false := rfl

@[simp] theorem startsWord_cons (x : UInt8) (xs : List UInt8) : startsWord (x :: xs) = !isSpace x := rfl

/-- `strchr(" \r\t\n\v", b)` finds the bytes of the string, and not `NUL`. -/
theorem strchr_whitespace (b : UInt8) : (strchr whitespace b).isSome = isSpace b :=
  strchr_isSome (by decide) b

/-- The first piece `splitOnP` cuts is empty exactly when the bytes do not start inside a word. -/
theorem head_splitOnP_isEmpty (s : List UInt8) :
    ((s.splitOnP isSpace).head (List.splitOnP_ne_nil _ _)).isEmpty = !startsWord s := by
  cases s with
  | nil => simp
  | cons x xs =>
    by_cases hx : isSpace x = true
    · simp [List.splitOnP_cons_eq_if_modifyHead, hx]
    · obtain ⟨p, ps, hp⟩ := List.exists_cons_of_ne_nil (List.splitOnP_ne_nil isSpace xs)
      simp [List.splitOnP_cons_eq_if_modifyHead, hx, hp]

/-- A space adds no word; a byte of a word adds one unless the word goes on after it. -/
theorem length_words_cons (x : UInt8) (xs : List UInt8) :
    (words (x :: xs)).length =
      if isSpace x then (words xs).length else (words xs).length + if startsWord xs then 0 else 1 := by
  obtain ⟨p, ps, hp⟩ := List.exists_cons_of_ne_nil (List.splitOnP_ne_nil isSpace xs)
  have hhead := head_splitOnP_isEmpty xs
  simp only [hp, List.head_cons] at hhead
  by_cases hx : isSpace x = true
  · simp [words, List.splitOnP_cons_eq_if_modifyHead, hx]
  · simp only [words, List.splitOnP_cons_eq_if_modifyHead, hx, Bool.false_eq_true, if_false, hp,
      List.modifyHead_cons, List.filter_cons, List.isEmpty_cons, Bool.not_false, if_true,
      List.length_cons, hhead]
    cases startsWord xs <;> simp

theorem length_words_le (s : List UInt8) : (words s).length ≤ s.length := by
  induction s with
  | nil => simp [words]
  | cons x xs ih =>
    rw [length_words_cons, List.length_cons]
    split
    · omega
    · split <;> omega

/-- A stream that starts inside a word has one. -/
theorem length_words_pos : ∀ {s : List UInt8}, startsWord s = true → 0 < (words s).length
  | [], h => by simp at h
  | x :: xs, h => by
    rw [startsWord_cons, Bool.not_eq_true'] at h
    rw [length_words_cons, if_neg (by simp [h])]
    split
    · next hs => exact Nat.lt_of_lt_of_le (length_words_pos hs) (Nat.le_add_right _ _)
    · omega

/-! ## One pass over the bytes -/

theorem wcByte_c (st : Counts) (b : UInt8) : (wcByte st b).c = st.c + 1 := by
  unfold wcByte
  dsimp only
  split
  · rfl
  · split <;> rfl

theorem wcByte_l (st : Counts) (b : UInt8) : (wcByte st b).l = st.l + if b = 10 then 1 else 0 := by
  have hl : (if b = 10 then st.l + 1 else st.l) = st.l + if b = 10 then 1 else 0 := by
    split
    · rfl
    · exact (Int32.add_zero _).symm
  unfold wcByte
  dsimp only
  split
  · exact hl
  · split <;> exact hl

/-- One byte: a space ends a word, and a byte of a word starts one unless it is `inword`. -/
theorem wcByte_w (st : Counts) (b : UInt8) :
    (wcByte st b).inword = !isSpace b ∧
      (wcByte st b).w = st.w + if !isSpace b && !st.inword then 1 else 0 := by
  unfold wcByte
  rw [strchr_whitespace]
  by_cases hb : isSpace b = true
  · simp [hb]
  · cases st.inword <;> simp [hb]

theorem c_foldl_wcByte (s : List UInt8) (st : Counts) :
    (s.foldl wcByte st).c = st.c + Int32.ofNat s.length := by
  induction s generalizing st with
  | nil => exact (Int32.add_zero _).symm
  | cons x xs ih =>
    rw [List.foldl_cons, ih, wcByte_c, List.length_cons, Int32.ofNat_add, Int32.add_assoc,
      Int32.add_comm (Int32.ofNat _)]
    rfl

theorem l_foldl_wcByte (s : List UInt8) (st : Counts) :
    (s.foldl wcByte st).l = st.l + Int32.ofNat (s.count 10) := by
  induction s generalizing st with
  | nil => exact (Int32.add_zero _).symm
  | cons x xs ih =>
    rw [List.foldl_cons, ih, wcByte_l, List.count_cons, Int32.ofNat_add, Int32.add_assoc,
      Int32.add_comm (Int32.ofNat _)]
    congr 2
    by_cases hx : x = 10 <;> simp [hx]

/-- The words one pass counts: those of the bytes, less the first when the pass starts `inword`
in the middle of it. -/
theorem w_foldl_wcByte (s : List UInt8) (st : Counts) :
    (s.foldl wcByte st).w =
      st.w + Int32.ofNat ((words s).length - if st.inword && startsWord s then 1 else 0) := by
  induction s generalizing st with
  | nil => simp [words, Int32.add_zero]
  | cons x xs ih =>
    obtain ⟨hin, hw⟩ := wcByte_w st x
    have hpos := length_words_pos (s := xs)
    have hone : (if (!isSpace x && !st.inword) = true then (1 : Int32) else 0) =
        Int32.ofNat (if (!isSpace x && !st.inword) = true then 1 else 0) := by
      split <;> rfl
    rw [List.foldl_cons, ih, hin, hw, hone, Int32.add_assoc, ← Int32.ofNat_add]
    congr 2
    -- the count after `x`, against the words of `x :: xs`
    rw [length_words_cons, startsWord_cons]
    cases isSpace x <;> cases st.inword <;> cases hs : startsWord xs <;> simp [hs] at hpos ⊢ <;> omega

/-! ## Every chunking -/

/-- Whatever the chunks, `wc`'s loop makes one pass over the bytes of the stream. -/
theorem wcLoop_eq_foldl : ∀ (fuel : Nat) (cs : List (List UInt8)) (st : Counts), Nonempty cs →
    cs.flatten.length < fuel → wcLoop fuel cs st = cs.flatten.foldl wcByte st
  | 0, _, _, _, h => absurd h (Nat.not_lt_zero _)
  | fuel + 1, cs, st, hcs, hfuel => by
    have happ := readChunk_append 512 cs
    have hlen := length_readChunk_add 512 cs
    have hcs' := hcs.readChunk 512
    have hnil := readChunk_eq_nil hcs 512
    rcases hr : readChunk 512 cs with ⟨buf, cs'⟩
    rw [hr] at happ hlen hcs' hnil
    dsimp only at happ hlen hcs' hnil
    simp only [wcLoop, hr]
    split
    · next hpos =>
      -- a read of some bytes, and the loop on the chunks after it
      rw [wcLoop_eq_foldl fuel cs' _ hcs' (by omega), ← happ, List.foldl_append]
    · next hzero =>
      -- a read of nothing: the end of the stream
      obtain rfl : cs = [] :=
        (hnil.mp (List.eq_nil_of_length_eq_zero (by omega))).resolve_right (by decide)
      rfl

/-- `wc` prints, for a stream of fewer than `2^31` bytes, its number of `'\n'`s, of words and of
bytes, and the same counts for every way `read` hands the stream out. -/
theorem wc_counts (cs : List (List UInt8)) (hcs : Nonempty cs) (hlen : cs.flatten.length < 2 ^ 31) :
    (wc cs).l.toInt = cs.flatten.count 10 ∧ (wc cs).w.toInt = (words cs.flatten).length ∧
      (wc cs).c.toInt = cs.flatten.length ∧
      ∀ cs' : List (List UInt8), Nonempty cs' → cs'.flatten = cs.flatten → wc cs' = wc cs := by
  have hpass : ∀ cs' : List (List UInt8), Nonempty cs' →
      wc cs' = cs'.flatten.foldl wcByte ⟨0, 0, 0, false⟩ :=
    fun cs' h => wcLoop_eq_foldl _ cs' _ h (Nat.lt_succ_self _)
  have hcount := List.count_le_length (a := (10 : UInt8)) (l := cs.flatten)
  have hwords := length_words_le cs.flatten
  refine ⟨?_, ?_, ?_, fun cs' h' heq => by rw [hpass cs' h', hpass cs hcs, heq]⟩
  · rw [hpass cs hcs, l_foldl_wcByte, Int32.zero_add, Int32.toInt_ofNat_of_lt (by omega)]
  · rw [hpass cs hcs, w_foldl_wcByte]
    simp only [Bool.false_and, Bool.false_eq_true, if_false, Nat.sub_zero, Int32.zero_add]
    rw [Int32.toInt_ofNat_of_lt (by omega)]
  · rw [hpass cs hcs, c_foldl_wcByte, Int32.zero_add, Int32.toInt_ofNat_of_lt hlen]

/-- `"hi wo"` then `"rld\n"`: the word `world` is split between two `read`s and is counted once. -/
theorem wc_counts_split :
    Nonempty [[104, 105, 32, 119, 111], [114, 108, 100, 10]] ∧
      [[(104 : UInt8), 105, 32, 119, 111], [114, 108, 100, 10]].flatten.length < 2 ^ 31 ∧
      (wc [[104, 105, 32, 119, 111], [114, 108, 100, 10]]).w.toInt = 2 ∧
      (wc [[104, 105, 32, 119, 111], [114, 108, 100, 10]]).l.toInt =
        [[(104 : UInt8), 105, 32, 119, 111], [114, 108, 100, 10]].flatten.count 10 ∧
      (wc [[104, 105, 32, 119, 111], [114, 108, 100, 10]]).w.toInt =
        (words [[(104 : UInt8), 105, 32, 119, 111], [114, 108, 100, 10]].flatten).length ∧
      (wc [[104, 105, 32, 119, 111], [114, 108, 100, 10]]).c.toInt =
        [[(104 : UInt8), 105, 32, 119, 111], [114, 108, 100, 10]].flatten.length ∧
      ∀ cs' : List (List UInt8), Nonempty cs' →
        cs'.flatten = [[(104 : UInt8), 105, 32, 119, 111], [114, 108, 100, 10]].flatten →
        wc cs' = wc [[104, 105, 32, 119, 111], [114, 108, 100, 10]] :=
  ⟨by decide, by decide, by decide,
    wc_counts [[104, 105, 32, 119, 111], [114, 108, 100, 10]] (by decide) (by decide)⟩

end Xv6.Wc
