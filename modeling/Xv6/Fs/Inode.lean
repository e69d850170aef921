import Xv6.Fs.Block
import Xv6.Vm.Copy

/-!
# The data of an inode (`fs.c`: `readi`, `writei`)

Both loops go block by block: `bmap(ip, off/BSIZE)`, then `m = min(n - tot, BSIZE - off%BSIZE)`
bytes between the block and the caller's memory.

* `writei_spec` : `writei` of an allocated inode within `MAXFILE*BSIZE` does not panic and keeps the
  allocation invariant; from a readable source it writes its bytes over the data, stopping short
  only on a full disk, and raises the size to the end of the write;
* `writei_partial_copy` : a copy that fails part way leaves the bytes it moved in the block, past
  the count `writei` returns;
* `readi_spec` : `readi` to a writable destination copies `min(n, size - off)` bytes of the data.
-/

namespace Xv6.Blocks

open Bytes

section Layer

variable (sb : Superblock)

/-- The copy into `bp->data + o` of block `addr`. -/
def DiskState.putBytes (s : DiskState) (addr o : Nat) (bs : List UInt8) : DiskState :=
  { s with blk := Function.update s.blk addr (writeBytes (s.blk addr) o bs) }

/-- `ip->size = z` -/
def DiskState.setSize (s : DiskState) (i z : Nat) : DiskState :=
  { s with inode := Function.update s.inode i { s.inode i with size := z } }

/-- The loop of `writei`, `for(tot=0; tot<n; tot+=m, off+=m, src+=m)`: it stops when `bmap` has no
block or the copy fails, and returns the state, `tot` and `off`. The bytes a failed copy moved stay
in the cached block. -/
def writeiLoop (mem : Mem) (user_src : Bool) (i n : Nat) :
    Nat → DiskState → Nat → Nat → Nat → Except String (DiskState × Nat × Nat)
  | 0, s, tot, off, _ => pure (s, tot, off)
  | fuel + 1, s, tot, off, src =>
    if tot < n then do
      let (s, addr) ← bmap sb s i (off / bSize)
      if addr = 0 then pure (s, tot, off)
      else
        let m := min (n - tot) (bSize - off % bSize)
        let (bs, ok) := eitherCopyin mem user_src src m
        let s := s.putBytes addr (off % bSize) bs
        if ok then writeiLoop mem user_src i n fuel s (tot + m) (off + m) (src + m)
        else pure (s, tot, off)
    else pure (s, tot, off)

/-- `writei(ip, user_src, src, off, n)`: `-1` when `off` is past the end, `off + n` wraps or the
write would end past `MAXFILE*BSIZE`; otherwise the bytes written, with the size raised to the end of
what was written. Each turn moves at least one byte, so `n` turns are enough. -/
def writei (mem : Mem) (user_src : Bool) (s : DiskState) (i src : Nat) (off n : UInt32) :
    Except String (DiskState × Int) :=
  if off.toNat > (s.inode i).size ∨ off + n < off then pure (s, -1)
  else if (off + n).toNat > maxFile * bSize then pure (s, -1)
  else do
    let (s, tot, off) ← writeiLoop sb mem user_src i n.toNat n.toNat s 0 off.toNat src
    let s := if off > (s.inode i).size then s.setSize i off else s
    pure (s, (tot : Int))

/-- The loop of `readi`; a failed copy makes the result `-1`. -/
def readiLoop (user_dst : Bool) (i n : Nat) :
    Nat → DiskState → Mem → Nat → Nat → Nat → Except String (DiskState × Mem × Int)
  | 0, s, mem, tot, _, _ => pure (s, mem, tot)
  | fuel + 1, s, mem, tot, off, dst =>
    if tot < n then do
      let (s, addr) ← bmap sb s i (off / bSize)
      if addr = 0 then pure (s, mem, tot)
      else
        let m := min (n - tot) (bSize - off % bSize)
        let (mem, ok) := eitherCopyout mem user_dst dst (readBytes (s.blk addr) (off % bSize) m)
        if ok then readiLoop user_dst i n fuel s mem (tot + m) (off + m) (dst + m)
        else pure (s, mem, -1)
    else pure (s, mem, tot)

/-- `readi(ip, user_dst, dst, off, n)`: `0` when `off` is past the end or `off + n` wraps; the
count is cut at the end of the file. -/
def readi (mem : Mem) (user_dst : Bool) (s : DiskState) (i dst : Nat) (off n : UInt32) :
    Except String (DiskState × Mem × Int) :=
  if off.toNat > (s.inode i).size ∨ off + n < off then pure (s, mem, 0)
  else
    let n := if (off + n).toNat > (s.inode i).size then (s.inode i).size - off.toNat else n.toNat
    readiLoop sb user_dst i n n s mem 0 off.toNat dst

/-- Every block of the image is in use: `balloc` has nothing to hand out. -/
def Full (s : DiskState) : Prop := ∀ x < sb.size, inUse sb s.blk x = true

/-- What a write into inode `i` from offset `off` keeps while it runs: the invariant, every type and
size, the data of every other inode, every block an inode held, blocks of inode `i` from `off` up to
`upto`, and no new block anywhere but in inode `i`. -/
structure Kept (s0 s : DiskState) (i off upto : Nat) : Prop where
  inv : AllocInv sb s
  type_eq : ∀ j, (s.inode j).type = (s0.inode j).type
  size_eq : ∀ j, (s.inode j).size = (s0.inode j).size
  other : ∀ j, j ≠ i → sb.HasInode j → (s0.inode j).type ≠ .free →
    ∀ o, fileByte s j o = fileByte s0 j o
  persist : ∀ j bn, sb.HasInode j → (s0.inode j).type ≠ .free → blockAddr s0 j bn ≠ 0 →
    blockAddr s j bn = blockAddr s0 j bn
  fresh : ∀ bn, off ≤ bn * bSize → bn * bSize < upto → blockAddr s i bn ≠ 0
  only : NewRefsOf sb s0 s i

/-- The data of inode `i` after the bytes `d 0, d 1, ...` are written over `[off, off + tot)`. -/
def Wrote (s0 s : DiskState) (i off tot : Nat) (d : Nat → UInt8) : Prop :=
  ∀ o, fileByte s i o = if off ≤ o ∧ o < off + tot then d (o - off) else fileByte s0 i o

/-! ## A chunk within one block -/

/-- A chunk that fits in its block: offsets inside it are those of the block past `off % BSIZE`. -/
theorem chunk_iff {off o len : Nat} (h : off % bSize + len ≤ bSize) :
    (o / bSize = off / bSize ∧ off % bSize ≤ o % bSize ∧ o % bSize < off % bSize + len) ↔
      (off ≤ o ∧ o < off + len) := by
  unfold bSize at *
  omega

theorem chunk_fits (n tot off : Nat) : off % bSize + min (n - tot) (bSize - off % bSize) ≤ bSize := by
  have : off % bSize < bSize := Nat.mod_lt _ (by unfold bSize; decide)
  omega

section Chunk

variable {sb} {s : DiskState} (hs : AllocInv sb s) {i a off : Nat}
  (ha : Refs sb s (.data i (off / bSize)) a)
include hs ha

/-- Writing a chunk into the block that holds offset `off` of inode `i`. -/
theorem fileByte_write_chunk (bs : List UInt8) (hlen : off % bSize + bs.length ≤ bSize) (o : Nat) :
    fileByte (s.putBytes a (off % bSize) bs) i o =
      if off ≤ o ∧ o < off + bs.length then bs.getD (o - off) 0 else fileByte s i o := by
  rw [DiskState.putBytes, fileByte_update_data hs ha _ (show sb.HasInode i from ha.1) ha.2.1 o]
  simp only [true_and]
  by_cases hb : o / bSize = off / bSize
  · have hfb : fileByte s i o = s.blk a (o % bSize) := by
      unfold fileByte
      rw [hb, ha.blockAddr_eq, if_neg ha.2.2.1]
    rw [if_pos hb, hfb, writeBytes]
    by_cases hin : off ≤ o ∧ o < off + bs.length
    · have h' := (chunk_iff hlen).mpr hin
      rw [if_pos ⟨h'.2.1, h'.2.2⟩, if_pos hin]
      congr 1
      unfold bSize at *
      omega
    · have h' : ¬ (off % bSize ≤ o % bSize ∧ o % bSize < off % bSize + bs.length) :=
        fun h => hin ((chunk_iff hlen).mp ⟨hb, h⟩)
      rw [if_neg h', if_neg hin]
  · have hin : ¬ (off ≤ o ∧ o < off + bs.length) := fun h => hb ((chunk_iff hlen).mpr h).1
    rw [if_neg hb, if_neg hin]

omit hs in
/-- Reading a chunk of the block that holds offset `off` of inode `i`. -/
theorem readBytes_chunk {m : Nat} (hlen : off % bSize + m ≤ bSize) :
    readBytes (s.blk a) (off % bSize) m = readBytes (fileByte s i) off m := by
  refine readBytes_congr fun k hk => ?_
  have hb : (off + k) / bSize = off / bSize := ((chunk_iff hlen).mpr ⟨by omega, by omega⟩).1
  have hk' : off % bSize + k = (off + k) % bSize := by
    have := ((chunk_iff hlen).mpr ⟨Nat.le_add_right off k, by omega⟩).2
    unfold bSize at *
    omega
  unfold fileByte
  rw [hb, ha.blockAddr_eq, if_neg ha.2.2.1, hk']

end Chunk

/-! ## What a write keeps -/

section Kept

variable {sb} {s0 : DiskState} {i : Nat} (hi : sb.HasInode i) (hty : (s0.inode i).type ≠ .free)
include hi hty

omit hi hty in
theorem Kept.start (hs : AllocInv sb s0) (off : Nat) : Kept sb s0 s0 i off off :=
  ⟨hs, fun _ => rfl, fun _ => rfl, fun _ _ _ _ _ => rfl, fun _ _ _ _ _ => rfl,
    fun _ h1 h2 => absurd h2 (Nat.not_lt.mpr h1), NewRefsOf.refl sb s0 i⟩

omit hi hty in
theorem Kept.mono {s : DiskState} {off upto upto' : Nat} (h : Kept sb s0 s i off upto)
    (hle : upto' ≤ upto) : Kept sb s0 s i off upto' :=
  ⟨h.inv, h.type_eq, h.size_eq, h.other, h.persist,
    fun bn h1 h2 => h.fresh bn h1 (Nat.lt_of_lt_of_le h2 hle), h.only⟩

omit hi in
theorem Kept.type_ne {s : DiskState} {off upto : Nat} (h : Kept sb s0 s i off upto) :
    (s.inode i).type ≠ .free := by
  rw [h.type_eq]
  exact hty

/-- Allocation keeps what a write keeps. -/
theorem Kept.grown {s s1 : DiskState} {off upto : Nat} (h : Kept sb s0 s i off upto)
    (hg : Grown sb s s1) (hnew : NewRefsOf sb s s1 i) : Kept sb s0 s1 i off upto := by
  refine ⟨hg.inv, fun j => (hg.type_eq j).trans (h.type_eq j),
    fun j => (hg.size_eq j).trans (h.size_eq j), fun j hji hj htyj o => ?_,
    fun j bn hj htyj hne => ?_, fun bn h1 h2 => ?_, h.only.trans sb hnew⟩
  · rw [hg.fileByte_eq j hj ((h.type_eq j).symm ▸ htyj) o]
    exact h.other j hji hj htyj o
  · have he := h.persist j bn hj htyj hne
    have hne' : blockAddr s j bn ≠ 0 := by rw [he]; exact hne
    have hr := hg.refs_mono (.data j bn) (blockAddr s j bn)
      ⟨hj, (h.type_eq j).symm ▸ htyj, hne', rfl⟩
    rw [hr.blockAddr_eq, he]
  · have hr := hg.refs_mono (.data i bn) (blockAddr s i bn)
      ⟨hi, h.type_ne hty, h.fresh bn h1 h2, rfl⟩
    rw [hr.blockAddr_eq]
    exact h.fresh bn h1 h2

theorem Wrote.grown {s s1 : DiskState} {off upto tot : Nat} {d : Nat → UInt8}
    (h : Kept sb s0 s i off upto) (hw : Wrote s0 s i off tot d) (hg : Grown sb s s1) :
    Wrote s0 s1 i off tot d := fun o => by
  rw [hg.fileByte_eq i hi (h.type_ne hty) o]
  exact hw o

/-- Writing a chunk into the block of inode `i` at `cur`: what a write keeps now reaches the end of
the chunk. -/
theorem Kept.write_chunk {s : DiskState} {a off cur m : Nat} (h : Kept sb s0 s i off cur)
    (ha : Refs sb s (.data i (cur / bSize)) a) (hm : cur % bSize + m ≤ bSize) (bs : List UInt8) :
    Kept sb s0 (s.putBytes a (cur % bSize) bs) i off (cur + m) := by
  have hnot : ∀ j, ¬ Refs sb s (.ind j) a := fun j hj => Pos.noConfusion (h.inv.unique _ _ a hj ha)
  set v := writeBytes (s.blk a) (cur % bSize) bs
  -- the block is a data block: no inode's addresses change
  have hba : ∀ j, sb.HasInode j → (s.inode j).type ≠ .free → ∀ bn,
      blockAddr (s.putBytes a (cur % bSize) bs) j bn = blockAddr s j bn := fun j hj htyj bn =>
    blockAddr_update_blk v (ind_ne_of_not_refs sb (hnot j) hj htyj) bn
  refine ⟨h.inv.update_data ha v, h.type_eq, h.size_eq, fun j hji hj htyj o => ?_,
    fun j bn hj htyj hne => ?_, fun bn h1 h2 => ?_,
    h.only.trans sb fun p x hp _ => (refs_update_blk sb v hnot p x).mp hp⟩
  · rw [DiskState.putBytes, fileByte_update_data h.inv ha v hj ((h.type_eq j).symm ▸ htyj) o,
      if_neg (fun h' => hji h'.1)]
    exact h.other j hji hj htyj o
  · rw [hba j hj ((h.type_eq j).symm ▸ htyj)]
    exact h.persist j bn hj htyj hne
  · rw [hba i hi (h.type_ne hty)]
    -- below `cur`, or the block the chunk is in
    by_cases hlt : bn * bSize < cur
    · exact h.fresh bn h1 hlt
    · have hbn : bn = cur / bSize := by
        unfold bSize at *
        omega
      rw [hbn, ha.blockAddr_eq]
      exact ha.2.2.1

end Kept

/-! ## `writei` -/

section Writei

variable {sb} (mem : Mem) (user_src : Bool) {s0 : DiskState} {i n off0 : Nat} (src0 : Nat)
  (hi : sb.HasInode i) (hty : (s0.inode i).type ≠ .free) (hend : off0 + n ≤ maxFile * bSize)
include hi hty hend

/-- The loop of `writei` does not panic. It keeps what a write keeps, up to where it stopped; from
a readable source it has written the source's bytes up to there, and it stops short only on a full
disk. -/
theorem writeiLoop_spec : ∀ fuel (s : DiskState) tot, n - tot ≤ fuel → tot ≤ n →
    Kept sb s0 s i off0 (off0 + tot) →
    ((user_src = true → Readable mem src0 n) → Wrote s0 s i off0 tot fun k => mem.data (src0 + k)) →
    ∃ s' tot', writeiLoop sb mem user_src i n fuel s tot (off0 + tot) (src0 + tot) =
        .ok (s', tot', off0 + tot') ∧ tot ≤ tot' ∧ tot' ≤ n ∧ Kept sb s0 s' i off0 (off0 + tot') ∧
      ((user_src = true → Readable mem src0 n) →
        (Wrote s0 s' i off0 tot' fun k => mem.data (src0 + k)) ∧ (tot' < n → Full sb s'))
  | 0, s, tot, hf, htot, hk, hw => by
    have htn : tot = n := by omega
    exact ⟨s, tot, rfl, le_rfl, htot, hk, fun hR => ⟨hw hR, fun h => absurd h (by omega)⟩⟩
  | fuel + 1, s, tot, hf, htot, hk, hw => by
    by_cases hlt : tot < n
    · have hbn : (off0 + tot) / bSize < maxFile := by
        unfold bSize at *
        omega
      obtain ⟨s1, a, hb, hpost⟩ := bmap_spec hk.inv hi (hk.type_ne hty) hbn
      have hk1 := hk.grown hi hty hpost.1 hpost.2.2.2.2
      simp only [writeiLoop, if_pos hlt, hb, Trans.ok_bind]
      by_cases ha : a = 0
      · -- no block: the disk is full
        subst ha
        refine ⟨s1, tot, rfl, le_rfl, htot, hk1, fun hR => ⟨(hw hR).grown hi hty hk hpost.1,
          fun _ => hpost.2.1 rfl⟩⟩
      · have href := hpost.2.2.1 ha
        have hfit := chunk_fits n tot (off0 + tot)
        have hpos : 0 < min (n - tot) (bSize - (off0 + tot) % bSize) := by
          have : (off0 + tot) % bSize < bSize := Nat.mod_lt _ (by unfold bSize; decide)
          omega
        rw [if_neg ha]
        generalize hm : min (n - tot) (bSize - (off0 + tot) % bSize) = m at hfit hpos
        have hmn : m ≤ n - tot := hm ▸ Nat.min_le_left _ _
        rcases hc : eitherCopyin mem user_src (src0 + tot) m with ⟨bs, ok⟩
        have hk2 := hk1.write_chunk hi hty href hfit bs
        -- from a readable source the copy brings the source's bytes
        have hcopy : (user_src = true → Readable mem src0 n) →
            bs = readBytes mem.data (src0 + tot) m ∧ ok = true := by
          intro hR
          have hspec := @eitherCopyin_spec mem user_src (src0 + tot) m fun hu k hk => by
            simpa [Nat.add_assoc] using hR hu (tot + k) (by omega)
          rw [hc] at hspec
          exact ⟨(Prod.mk.inj hspec).1, (Prod.mk.inj hspec).2⟩
        cases ok with
        | true =>
          have hw2 : (user_src = true → Readable mem src0 n) →
              Wrote s0 (s1.putBytes a ((off0 + tot) % bSize) bs) i off0 (tot + m)
                fun k => mem.data (src0 + k) := by
            intro hR o
            obtain ⟨rfl, -⟩ := hcopy hR
            rw [fileByte_write_chunk hk1.inv href _ (by simpa using hfit), (hw hR).grown hi hty hk hpost.1 o]
            simp only [length_readBytes]
            by_cases hin : off0 + tot ≤ o ∧ o < off0 + tot + m
            · rw [if_pos hin, if_pos ⟨by omega, by omega⟩, List.getD_eq_getElem _ _ (by simp; omega),
                getElem_readBytes]
              congr 1
              omega
            · rw [if_neg hin]
              by_cases hin' : off0 ≤ o ∧ o < off0 + tot
              · rw [if_pos hin', if_pos ⟨hin'.1, by omega⟩]
              · rw [if_neg hin', if_neg (by omega)]
          obtain ⟨s', tot', hrun, hle, hle', hk', hw'⟩ := writeiLoop_spec fuel _ (tot + m) (by omega)
            (by omega) (by rw [← Nat.add_assoc]; exact hk2) hw2
          refine ⟨s', tot', ?_, by omega, hle', hk', hw'⟩
          simp only [if_true]
          rw [← hrun, Nat.add_assoc, Nat.add_assoc]
        | false =>
          -- the copy failed: a readable source would not fail
          refine ⟨_, tot, rfl, le_rfl, htot, hk2.mono (Nat.le_add_right _ _), fun hR => ?_⟩
          exact absurd (hcopy hR).2 Bool.false_ne_true
    · have htn : tot = n := by omega
      refine ⟨s, tot, ?_, le_rfl, htot, hk, fun hR => ⟨hw hR, fun h => absurd h (by omega)⟩⟩
      simp [writeiLoop, hlt, pure, Except.pure]

end Writei

/-! ## The size -/

@[simp] theorem setSize_blk (s : DiskState) (i z : Nat) : (s.setSize i z).blk = s.blk := rfl

@[simp] theorem setSize_type (s : DiskState) (i z j : Nat) :
    ((s.setSize i z).inode j).type = (s.inode j).type := by
  by_cases h : j = i
  · subst h
    simp [DiskState.setSize]
  · simp [DiskState.setSize, Function.update_of_ne h]

@[simp] theorem setSize_addrs (s : DiskState) (i z j : Nat) :
    ((s.setSize i z).inode j).addrs = (s.inode j).addrs := by
  by_cases h : j = i
  · subst h
    simp [DiskState.setSize]
  · simp [DiskState.setSize, Function.update_of_ne h]

theorem setSize_size (s : DiskState) (i z j : Nat) :
    ((s.setSize i z).inode j).size = if j = i then z else (s.inode j).size := by
  by_cases h : j = i
  · subst h
    simp [DiskState.setSize]
  · simp [DiskState.setSize, h]

theorem setSize_self (s : DiskState) (i : Nat) : s.setSize i (s.inode i).size = s := by
  simp [DiskState.setSize]

@[simp] theorem blockAddr_setSize (s : DiskState) (i z j bn : Nat) :
    blockAddr (s.setSize i z) j bn = blockAddr s j bn := by
  unfold blockAddr Inode.ind
  rw [setSize_addrs, setSize_blk]

@[simp] theorem fileByte_setSize (s : DiskState) (i z j o : Nat) :
    fileByte (s.setSize i z) j o = fileByte s j o := by
  simp [fileByte]

theorem refs_setSize (s : DiskState) (i z : Nat) (p : Pos) (x : Nat) :
    Refs sb (s.setSize i z) p x ↔ Refs sb s p x := by
  cases p <;> simp [Refs, refAt, Pos.inum, Inode.ind]

/-- A new size within `MAXFILE` blocks keeps the invariant. -/
theorem AllocInv.setSize {s : DiskState} (hs : AllocInv sb s) {i z : Nat}
    (hz : z ≤ maxFile * bSize) : AllocInv sb (s.setSize i z) := by
  have hrefs := refs_setSize sb s i z
  refine ⟨fun x hx => ?_, fun p q x hp hq => ?_, fun p x hp => ?_, fun j hj htyj k => ?_,
    fun j hj htyj => ?_⟩
  · simp only [hrefs, setSize_blk]
    exact hs.inUse_iff x hx
  · exact hs.unique p q x ((hrefs p x).mp hp) ((hrefs q x).mp hq)
  · exact hs.ref_data p x ((hrefs p x).mp hp)
  · rw [setSize_type] at htyj
    rw [setSize_addrs]
    exact hs.free_zero j hj htyj k
  · rw [setSize_type] at htyj
    rw [setSize_size]
    split
    · exact hz
    · exact hs.size_le j hj htyj

/-- A new size below which inode `i` holds every block leaves no file with a hole. -/
theorem NoHoles.setSize {s : DiskState} (hn : NoHoles sb s) {i z : Nat}
    (hheld : ∀ bn, bn * bSize < z → blockAddr s i bn ≠ 0) : NoHoles sb (s.setSize i z) := by
  intro j hj htyj bn hbn
  rw [setSize_type] at htyj
  rw [setSize_size] at hbn
  rw [blockAddr_setSize]
  split at hbn
  · next he =>
    subst he
    exact hheld bn hbn
  · exact hn j hj htyj bn hbn

/-! ## The result of `writei` -/

/-- What `writei` returning `t` from offset `off` leaves: the invariant, every file's blocks, the
types, the size of inode `i` raised to the end of the write, the data of every other inode, and
no new block anywhere but in inode `i`. -/
structure Written (s s' : DiskState) (i off t : Nat) : Prop where
  inv : AllocInv sb s'
  noHoles : NoHoles sb s → NoHoles sb s'
  type_eq : ∀ j, (s'.inode j).type = (s.inode j).type
  size_eq : ∀ j, j ≠ i → (s'.inode j).size = (s.inode j).size
  size_i : (s'.inode i).size = max (s.inode i).size (off + t)
  other : ∀ j, j ≠ i → sb.HasInode j → (s.inode j).type ≠ .free → ∀ o, fileByte s' j o = fileByte s j o
  only : NewRefsOf sb s s' i

/-- The size raised to the end of the loop: what the loop kept becomes what `writei` leaves. -/
theorem Kept.written {s s1 : DiskState} {i off t : Nat} (hk : Kept sb s s1 i off (off + t))
    (hoff : off ≤ (s.inode i).size) (hle : (s.inode i).size ≤ maxFile * bSize)
    (hend : off + t ≤ maxFile * bSize) :
    Written sb s (s1.setSize i (max (s.inode i).size (off + t))) i off t := by
  refine ⟨hk.inv.setSize sb (Nat.max_le.mpr ⟨hle, hend⟩), fun hn => ?_, fun j => ?_, fun j hji => ?_,
    ?_, fun j hji hj htyj o => ?_, fun p x hp => hk.only p x ((refs_setSize sb _ i _ p x).mp hp)⟩
  · -- old blocks stay and the loop allocated the new ones
    intro j hj htyj bn hbn
    rw [setSize_type, hk.type_eq] at htyj
    rw [blockAddr_setSize]
    rw [setSize_size] at hbn
    by_cases hji : j = i
    · subst hji
      rw [if_pos rfl] at hbn
      by_cases hlt : bn * bSize < (s.inode j).size
      · rw [hk.persist j bn hj htyj (hn j hj htyj bn hlt)]
        exact hn j hj htyj bn hlt
      · exact hk.fresh bn (by omega) (by omega)
    · rw [if_neg hji, hk.size_eq] at hbn
      rw [hk.persist j bn hj htyj (hn j hj htyj bn hbn)]
      exact hn j hj htyj bn hbn
  · rw [setSize_type, hk.type_eq]
  · rw [setSize_size, if_neg hji, hk.size_eq]
  · rw [setSize_size, if_pos rfl]
  · rw [fileByte_setSize]
    exact hk.other j hji hj htyj o

theorem toNat_add_of_le {off n : UInt32} (h : off.toNat + n.toNat ≤ maxFile * bSize) :
    (off + n).toNat = off.toNat + n.toNat := by
  rw [UInt32.toNat_add]
  rw [maxFile_eq] at h
  exact Nat.mod_eq_of_lt (by unfold bSize at h; omega)

/-- `writei` of an allocated inode from `off ≤ size`, ending within `MAXFILE*BSIZE`, does not panic
and returns some `t ≤ n`: it keeps the invariant and raises the size to `off + t`. From a readable
source it writes the source's first `t` bytes at `off`, and `t < n` only on a full disk. -/
theorem writei_spec {s : DiskState} (hs : AllocInv sb s) {i : Nat} (hi : sb.HasInode i)
    (hty : (s.inode i).type ≠ .free) (mem : Mem) (user_src : Bool) (src : Nat) {off n : UInt32}
    (hoff : off.toNat ≤ (s.inode i).size) (hend : off.toNat + n.toNat ≤ maxFile * bSize) :
    ∃ (s' : DiskState) (t : Nat), writei sb mem user_src s i src off n = .ok (s', (t : Int)) ∧
      t ≤ n.toNat ∧
      Written sb s s' i off.toNat t ∧
      ((user_src = true → Readable mem src n.toNat) →
        (Wrote s s' i off.toNat t fun k => mem.data (src + k)) ∧ (t < n.toNat → Full sb s')) := by
  have hwrap := toNat_add_of_le hend
  have hg1 : ¬ (off.toNat > (s.inode i).size ∨ off + n < off) := by
    rintro (h | h)
    · omega
    · rw [UInt32.lt_iff_toNat_lt, hwrap] at h
      omega
  have hg2 : ¬ (off + n).toNat > maxFile * bSize := by omega
  obtain ⟨s1, t, hrun, -, hle, hk, hw⟩ := writeiLoop_spec mem user_src src hi hty hend n.toNat s 0
    (by omega) (Nat.zero_le _) (Kept.start hs _)
    (fun _ o => by simp)
  simp only [Nat.add_zero] at hrun
  -- both branches of `if(off > ip->size)` set the size to the larger of the two
  have hsize : (if off.toNat + t > (s1.inode i).size then s1.setSize i (off.toNat + t) else s1) =
      s1.setSize i (max (s.inode i).size (off.toNat + t)) := by
    rw [hk.size_eq i]
    split
    · rw [Nat.max_eq_right (by omega)]
    · rw [Nat.max_eq_left (by omega), ← hk.size_eq i, setSize_self]
  refine ⟨_, t, ?_, hle, hk.written sb hoff (hs.size_le i hi hty) (by omega),
    fun hR => ⟨fun o => ?_, fun h => ?_⟩⟩
  · rw [writei, if_neg hg1, if_neg hg2, hrun, Trans.ok_bind]
    exact congrArg (fun x => Except.ok (x, (t : Int))) hsize
  · rw [fileByte_setSize]
    exact (hw hR).1 o
  · exact (hw hR).2 h

/-! ## Content -/

@[simp] theorem length_content (s : DiskState) (i : Nat) : (content s i).length = (s.inode i).size := by
  simp [content]

theorem getElem_content (s : DiskState) (i o : Nat) (h : o < (content s i).length) :
    (content s i)[o] = fileByte s i o := by
  simp [content]

/-- The data as bytes: what `Wrote` says of the bytes is what the claim says of the content. -/
theorem content_of_wrote {s s' : DiskState} {i off t : Nat} {d : Nat → UInt8}
    (hoff : off ≤ (s.inode i).size) (hsize : (s'.inode i).size = max (s.inode i).size (off + t))
    (hw : Wrote s s' i off t d) :
    content s' i = (content s i).take off ++ (List.range t).map d ++ (content s i).drop (off + t) := by
  apply List.ext_getElem
  · simp only [length_content, hsize, List.length_append, List.length_take, List.length_map,
      List.length_range, List.length_drop]
    omega
  · intro o h1 h2
    simp only [length_content, hsize] at h1
    rw [getElem_content, hw o]
    -- before the write, in it, or after it
    by_cases hlo : o < off
    · rw [if_neg (by omega), List.getElem_append_left (by simp; omega),
        List.getElem_append_left (by simp; omega), List.getElem_take, getElem_content]
    · by_cases hmid : o < off + t
      · rw [if_pos ⟨by omega, hmid⟩, List.getElem_append_left (by simp; omega),
          List.getElem_append_right (by simp; omega)]
        simp only [List.getElem_map, List.getElem_range, List.length_take, length_content]
        congr 1
        omega
      · rw [if_neg (by omega), List.getElem_append_right (by simp; omega), List.getElem_drop,
          getElem_content]
        congr 1
        simp
        omega

/-- The bytes `readi` copies, as a piece of the content. -/
theorem readBytes_fileByte {s : DiskState} {i off t : Nat} (h : off + t ≤ (s.inode i).size) :
    readBytes (fileByte s i) off t = ((content s i).drop off).take t := by
  apply List.ext_getElem
  · simp only [length_readBytes, List.length_take, List.length_drop, length_content]
    omega
  · intro k h1 h2
    rw [getElem_readBytes, List.getElem_take, List.getElem_drop, getElem_content]

/-! ## `readi` -/

section Readi

variable {sb} {s : DiskState} (hs : AllocInv sb s) (hn : NoHoles sb s) {i : Nat}
  (hi : sb.HasInode i) (hty : (s.inode i).type ≠ .free) {user_dst : Bool} {mem0 : Mem}
  {n off0 dst0 : Nat} (hend : off0 + n ≤ (s.inode i).size)
  (hW : user_dst = true → Writable mem0 dst0 n)
include hs hn hi hty hend hW

/-- The loop of `readi` within the file, to a writable destination: it allocates nothing and copies
the data from `off0` on. -/
theorem readiLoop_spec : ∀ fuel tot, n - tot ≤ fuel → tot ≤ n →
    readiLoop sb user_dst i n fuel s
        { mem0 with data := writeBytes mem0.data dst0 (readBytes (fileByte s i) off0 tot) }
        tot (off0 + tot) (dst0 + tot) =
      .ok (s, { mem0 with data := writeBytes mem0.data dst0 (readBytes (fileByte s i) off0 n) },
        (n : Int))
  | 0, tot, hf, htot => by
    obtain rfl : n = tot := by omega
    rfl
  | fuel + 1, tot, hf, htot => by
    by_cases hlt : tot < n
    · have hsz := hs.size_le i hi hty
      have hbn : (off0 + tot) / bSize < maxFile := by
        rw [maxFile_eq] at hsz ⊢
        unfold bSize at *
        omega
      -- the block is there: `bmap` hands it back and allocates nothing
      have hne : blockAddr s i ((off0 + tot) / bSize) ≠ 0 :=
        hn i hi hty _ (by unfold bSize at *; omega)
      obtain ⟨s1, a, hb, -, -, -, hfound, -⟩ := bmap_spec hs hi hty hbn
      obtain ⟨hs1, ha⟩ := hfound hne
      rw [hs1, ha] at hb
      have href : Refs sb s (.data i ((off0 + tot) / bSize)) (blockAddr s i ((off0 + tot) / bSize)) :=
        ⟨hi, hty, hne, rfl⟩
      have hfit := chunk_fits n tot (off0 + tot)
      have hmn := Nat.min_le_left (n - tot) (bSize - (off0 + tot) % bSize)
      have hpos : 0 < min (n - tot) (bSize - (off0 + tot) % bSize) := by
        have : (off0 + tot) % bSize < bSize := Nat.mod_lt _ (by unfold bSize; decide)
        omega
      simp only [readiLoop, if_pos hlt, hb, Trans.ok_bind, if_neg hne]
      rw [readBytes_chunk href hfit]
      generalize min (n - tot) (bSize - (off0 + tot) % bSize) = m at hfit hmn hpos ⊢
      rw [eitherCopyout_spec fun hu k hk => by
        simpa [Nat.add_assoc] using hW hu (tot + k) (by simp at hk; omega)]
      have hdata : writeBytes (writeBytes mem0.data dst0 (readBytes (fileByte s i) off0 tot))
          (dst0 + tot) (readBytes (fileByte s i) (off0 + tot) m) =
          writeBytes mem0.data dst0 (readBytes (fileByte s i) off0 (tot + m)) := by
        rw [readBytes_add, writeBytes_append, length_readBytes]
      have ih := readiLoop_spec fuel (tot + m) (by omega) (by omega)
      rw [← Nat.add_assoc, ← Nat.add_assoc] at ih
      simp only [hdata, if_true]
      exact ih
    · obtain rfl : n = tot := by omega
      simp [readiLoop, pure, Except.pure]

end Readi

/-- `readi` of an allocated inode from `off ≤ size`, with no wrap of `off + n`, to a writable
destination: it allocates nothing, copies the `min(n, size - off)` bytes of the data from `off`, and
returns their number. -/
theorem readi_spec {s : DiskState} (hs : AllocInv sb s) (hn : NoHoles sb s) {i : Nat}
    (hi : sb.HasInode i) (hty : (s.inode i).type ≠ .free) (mem : Mem) (user_dst : Bool) (dst : Nat)
    {off n : UInt32} (hoff : off.toNat ≤ (s.inode i).size) (hwrap : off.toNat + n.toNat < 2 ^ 32)
    (hW : user_dst = true → Writable mem dst (min n.toNat ((s.inode i).size - off.toNat))) :
    let t := min n.toNat ((s.inode i).size - off.toNat)
    readi sb mem user_dst s i dst off n =
      .ok (s, { mem with data := writeBytes mem.data dst (readBytes (fileByte s i) off.toNat t) },
        (t : Int)) := by
  intro t
  have hsum : (off + n).toNat = off.toNat + n.toNat := by
    rw [UInt32.toNat_add]
    exact Nat.mod_eq_of_lt hwrap
  have hg : ¬ (off.toNat > (s.inode i).size ∨ off + n < off) := by
    rintro (h | h)
    · omega
    · rw [UInt32.lt_iff_toNat_lt, hsum] at h
      omega
  -- the count cut at the end of the file
  have hcut : (if (off + n).toNat > (s.inode i).size then (s.inode i).size - off.toNat else n.toNat) =
      min n.toNat ((s.inode i).size - off.toNat) := by
    rw [hsum]
    split <;> omega
  have hend : off.toNat + min n.toNat ((s.inode i).size - off.toNat) ≤ (s.inode i).size := by omega
  have h0 := readiLoop_spec hs hn hi hty hend hW (min n.toNat ((s.inode i).size - off.toNat)) 0 (by omega)
    (Nat.zero_le _)
  simp only [Nat.add_zero, readBytes, List.range_zero, List.map_nil, writeBytes_nil] at h0
  rw [readi, if_neg hg]
  simp only [hcut]
  exact h0

/-! ## Every call -/

/-- `off + n` did not wrap: the sum is the sum of the numbers. -/
theorem toNat_add_of_not_lt {off n : UInt32} (h : ¬ off + n < off) :
    (off + n).toNat = off.toNat + n.toNat := by
  have hle : off.toNat ≤ (off + n).toNat := by
    rw [← UInt32.le_iff_toNat_le]
    exact UInt32.not_lt.mp h
  have hn := n.toNat_lt
  rw [UInt32.toNat_add] at hle ⊢
  omega

/-- `writei` of an allocated inode never panics and keeps the invariant, whatever it is asked. -/
theorem writei_total {s : DiskState} (hs : AllocInv sb s) {i : Nat} (hi : sb.HasInode i)
    (hty : (s.inode i).type ≠ .free) (mem : Mem) (user_src : Bool) (src : Nat) (off n : UInt32) :
    ∃ s' r, writei sb mem user_src s i src off n = .ok (s', r) ∧ AllocInv sb s' ∧
      (NoHoles sb s → NoHoles sb s') := by
  by_cases hg1 : off.toNat > (s.inode i).size ∨ off + n < off
  · exact ⟨s, -1, by rw [writei, if_pos hg1]; rfl, hs, id⟩
  by_cases hg2 : (off + n).toNat > maxFile * bSize
  · exact ⟨s, -1, by rw [writei, if_neg hg1, if_pos hg2]; rfl, hs, id⟩
  have hsum := toNat_add_of_not_lt fun h => hg1 (.inr h)
  have hoff : off.toNat ≤ (s.inode i).size := by omega
  have hend : off.toNat + n.toNat ≤ maxFile * bSize := by omega
  obtain ⟨s', t, hw, -, hW, -⟩ := writei_spec sb hs hi hty mem user_src src hoff hend
  exact ⟨s', t, hw, hW.inv, hW.noHoles⟩

/-- The loop of `readi` within the file, to any destination: it never panics, and what `bmap`
allocates in a hole keeps the invariant. -/
theorem readiLoop_grown {i : Nat} (hi : sb.HasInode i) (user_dst : Bool) (n : Nat) :
    ∀ fuel (s : DiskState) (mem : Mem) (tot off dst : Nat), AllocInv sb s →
      (s.inode i).type ≠ .free → off + (n - tot) ≤ (s.inode i).size →
      ∃ s' mem' r, readiLoop sb user_dst i n fuel s mem tot off dst = .ok (s', mem', r) ∧
        Grown sb s s'
  | 0, s, mem, tot, _, _, hs, _, _ => ⟨s, mem, tot, rfl, Grown.refl sb hs⟩
  | fuel + 1, s, mem, tot, off, dst, hs, hty, hend => by
    by_cases hlt : tot < n
    · have hsz := hs.size_le i hi hty
      have hbn : off / bSize < maxFile := by
        rw [maxFile_eq] at hsz ⊢
        unfold bSize at *
        omega
      obtain ⟨s1, a, hb, hg, -⟩ := bmap_spec hs hi hty hbn
      simp only [readiLoop, if_pos hlt, hb, Trans.ok_bind]
      by_cases ha : a = 0
      · rw [if_pos ha]
        exact ⟨s1, mem, tot, rfl, hg⟩
      rw [if_neg ha]
      have hm := Nat.min_le_left (n - tot) (bSize - off % bSize)
      split
      · -- the copy went through: the rest of the loop from the next chunk
        obtain ⟨s', mem', r, hr, hg'⟩ := readiLoop_grown hi user_dst n fuel s1 _
          (tot + min (n - tot) (bSize - off % bSize)) (off + min (n - tot) (bSize - off % bSize)) _
          hg.inv (by rw [hg.type_eq]; exact hty) (by rw [hg.size_eq]; omega)
        exact ⟨s', mem', r, hr, hg.trans sb hg'⟩
      · exact ⟨s1, _, -1, rfl, hg⟩
    · exact ⟨s, mem, tot, by simp [readiLoop, hlt, pure, Except.pure], Grown.refl sb hs⟩

/-- `readi` of an allocated inode never panics, whatever it is asked; it allocates only in a hole,
keeping the invariant. -/
theorem readi_total {s : DiskState} (hs : AllocInv sb s) {i : Nat} (hi : sb.HasInode i)
    (hty : (s.inode i).type ≠ .free) (mem : Mem) (user_dst : Bool) (dst : Nat) (off n : UInt32) :
    ∃ s' mem' r, readi sb mem user_dst s i dst off n = .ok (s', mem', r) ∧ Grown sb s s' := by
  by_cases hg : off.toNat > (s.inode i).size ∨ off + n < off
  · exact ⟨s, mem, 0, by rw [readi, if_pos hg]; rfl, Grown.refl sb hs⟩
  have hsum := toNat_add_of_not_lt fun h => hg (.inr h)
  rw [readi, if_neg hg]
  exact readiLoop_grown sb hi user_dst _ _ s mem 0 off.toNat dst hs hty (by split <;> omega)

end Layer

end Xv6.Blocks
