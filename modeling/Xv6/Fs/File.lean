import Xv6.Fs.Alloc
import Xv6.Lib.Splice

/-!
# Files on inodes (`file.c`: `fileread`, `filewrite`)

A `struct file` of type `FD_INODE` reads and writes its inode at `f->off` and advances it by what
the call moved. `filewrite` cuts a write into chunks of `((MAXOPBLOCKS-1-1-2)/2)*BSIZE` bytes, each
in a transaction of its own with the inode locked, and stops at the first chunk `writei` cuts short.

The abstract content of an inode is the list `content s i`; a write is `Splice.splice` of the bytes
over it, and a read is `Splice.slice`.

* `WroteAt s s' i off xs` : `s'` is `s` with `xs` written over inode `i` from `off`, the invariant
  kept; `WroteAt.trans` : one write after the other;
* `writei_wroteAt` : `writei` refines the write, `readi_slice` the read;
* `filewriteLoop_spec`, `filewrite_spec`, `fileread_spec`;
* `inode_content_refinement`, `writei_partial_copy`;
* `fileread_minus_one_reads_file` : a read of `-1` bytes from offset `0` copies the whole file.
-/

namespace Xv6.Blocks

open Bytes Splice

/-- `struct file` of type `FD_INODE`: the fields `fileread` and `filewrite` read. -/
structure File where
  readable : Bool
  writable : Bool
  ip : Nat
  off : UInt32

/-- `ilock(ip)`: the inode it reads from the disk must be allocated. -/
def ilock (s : DiskState) (i : Nat) : Except String Unit :=
  if (s.inode i).type = .free then throw "ilock: no type" else pure ()

/-- `((MAXOPBLOCKS-1-1-2) / 2) * BSIZE`: the bytes of one of `filewrite`'s transactions, with room
for the inode, the indirect block, the bitmap blocks and two blocks of slop. -/
def fileWriteMax : Nat := (maxOpBlocks - 1 - 1 - 2) / 2 * bSize

section Layer

variable (sb : Superblock)

/-- `fileread(f, addr, n)` of an inode file. -/
def fileread (mem : Mem) (s : DiskState) (f : File) (addr : Nat) (n : Int32) :
    Except String (DiskState × Mem × File × Int) := do
  if !f.readable then return (s, mem, f, -1)
  ilock s f.ip
  let (s, mem, r) ← readi sb mem true s f.ip addr f.off n.toUInt32
  pure (s, mem, if r > 0 then { f with off := f.off + r.toNat.toUInt32 } else f, r)

/-- One turn of `filewrite`'s loop, between `begin_op` and `end_op`: `writei` of `n1` bytes from
`addr` at `f->off` under `ilock`, then `f->off += r` when `r > 0`. -/
def filewriteChunk (mem : Mem) (s : DiskState) (ip addr : Nat) (off : UInt32) (n1 : Nat) :
    Except String (DiskState × UInt32 × Int) := do
  ilock s ip
  let (s, r) ← writei sb mem true s ip addr off n1.toUInt32
  pure (s, if r > 0 then off + r.toNat.toUInt32 else off, r)

/-- The loop `while(i < n)` of `filewrite`: it stops after the first chunk `writei` cuts short. -/
def filewriteLoop (mem : Mem) (ip addr : Nat) (n : Int) :
    Nat → DiskState → UInt32 → Int → Except String (DiskState × UInt32 × Int)
  | 0, s, off, i => pure (s, off, i)
  | fuel + 1, s, off, i =>
    if i < n then do
      let n1 := min (n - i) (fileWriteMax : Int)
      let (s, off, r) ← filewriteChunk sb mem s ip (addr + i.toNat) off n1.toNat
      if r ≠ n1 then pure (s, off, i) else filewriteLoop mem ip addr n fuel s off (i + r)
    else pure (s, off, i)

/-- `filewrite(f, addr, n)` of an inode file: `n` when every chunk was written whole, `-1`
otherwise. Each turn writes at least one byte, so `n` turns are enough. -/
def filewrite (mem : Mem) (s : DiskState) (f : File) (addr : Nat) (n : Int32) :
    Except String (DiskState × File × Int) := do
  if !f.writable then return (s, f, -1)
  let (s, off, i) ← filewriteLoop sb mem f.ip addr n.toInt n.toInt.toNat s f.off 0
  pure (s, { f with off := off }, if i = n.toInt then n.toInt else -1)

/-! ## Writes of the abstract content -/

/-- `s'` is `s` with `xs` written over the content of inode `i` from `off`: the invariant and the
absence of holes kept, the type kept, and no new block anywhere but in inode `i`. -/
structure WroteAt (s s' : DiskState) (i off : Nat) (xs : List UInt8) : Prop where
  inv : AllocInv sb s'
  noHoles : NoHoles sb s'
  type_eq : (s'.inode i).type = (s.inode i).type
  content_eq : content s' i = splice (content s i) off xs
  only : NewRefsOf sb s s' i

theorem WroteAt.nil {s : DiskState} (hs : AllocInv sb s) (hn : NoHoles sb s) (i off : Nat) :
    WroteAt sb s s i off [] :=
  ⟨hs, hn, rfl, (splice_nil _ _).symm, NewRefsOf.refl sb s i⟩

/-- One write and then the next from where it ended. -/
theorem WroteAt.trans {s s1 s2 : DiskState} {i off : Nat} {xs ys : List UInt8}
    (h1 : WroteAt sb s s1 i off xs) (h2 : WroteAt sb s1 s2 i (off + xs.length) ys)
    (hoff : off ≤ (s.inode i).size) : WroteAt sb s s2 i off (xs ++ ys) := by
  refine ⟨h2.inv, h2.noHoles, h2.type_eq.trans h1.type_eq, ?_, h1.only.trans sb h2.only⟩
  rw [h2.content_eq, h1.content_eq, splice_append (by rwa [length_content])]

theorem size_of_wroteAt {s s' : DiskState} {i off : Nat} {xs : List UInt8}
    (h : WroteAt sb s s' i off xs) (hoff : off ≤ (s.inode i).size) :
    (s'.inode i).size = max (s.inode i).size (off + xs.length) := by
  rw [← length_content, h.content_eq, length_splice (by rwa [length_content]), length_content]

variable {sb}

/-- `writei` from a readable source refines the write of the source's first `t` bytes. -/
theorem writei_wroteAt {s : DiskState} (hs : AllocInv sb s) (hn : NoHoles sb s) {i : Nat}
    (hi : sb.HasInode i) (hty : (s.inode i).type ≠ .free) (mem : Mem) (user_src : Bool)
    (src : Nat) {off n : UInt32} (hoff : off.toNat ≤ (s.inode i).size)
    (hend : off.toNat + n.toNat ≤ maxFile * bSize) (hR : user_src = true → Readable mem src n.toNat) :
    ∃ (s' : DiskState) (t : Nat), writei sb mem user_src s i src off n = .ok (s', (t : Int)) ∧
      t ≤ n.toNat ∧ (t < n.toNat → Full sb s') ∧
      WroteAt sb s s' i off.toNat (readBytes mem.data src t) := by
  obtain ⟨s', t, hw, hle, hW, hdata⟩ := writei_spec sb hs hi hty mem user_src src hoff hend
  obtain ⟨hwrote, hfull⟩ := hdata hR
  have hc := content_of_wrote hoff hW.size_i hwrote
  refine ⟨s', t, hw, hle, hfull, hW.inv, hW.noHoles hn, hW.type_eq i, ?_, hW.only⟩
  rw [hc, splice, length_readBytes]
  rfl

theorem ilock_ok {s : DiskState} {i : Nat} (hty : (s.inode i).type ≠ .free) : ilock s i = .ok () := by
  rw [ilock, if_neg hty]
  rfl

theorem Readable.shift {mem : Mem} {a len : Nat} (h : Readable mem a len) (t : Nat) :
    Readable mem (a + t) (len - t) := fun k hk => by
  simpa [Nat.add_assoc] using h (t + k) (by omega)

theorem toNat_add_toUInt32 {off : UInt32} {t : Nat} (h : off.toNat + t < 2 ^ 32) :
    (off + t.toUInt32).toNat = off.toNat + t := by
  rw [UInt32.toNat_add]
  simp
  omega

theorem Writable.mono {mem : Mem} {a len len' : Nat} (h : Writable mem a len) (hle : len' ≤ len) :
    Writable mem a len' := fun k hk => h k (by omega)

theorem Readable.mono {mem : Mem} {a len len' : Nat} (h : Readable mem a len) (hle : len' ≤ len) :
    Readable mem a len' := fun k hk => h k (by omega)

/-- One chunk of `filewrite` writes the first `t ≤ n1` bytes of its buffer at `f->off` and
advances it by `t`; `t < n1` only on a full disk. -/
theorem filewriteChunk_spec {s : DiskState} (hs : AllocInv sb s) (hn : NoHoles sb s) {ip : Nat}
    (hi : sb.HasInode ip) (hty : (s.inode ip).type ≠ .free) (mem : Mem) (addr : Nat) {off : UInt32}
    {n1 : Nat} (hoff : off.toNat ≤ (s.inode ip).size) (hend : off.toNat + n1 ≤ maxFile * bSize)
    (hR : Readable mem addr n1) :
    ∃ (s' : DiskState) (t : Nat),
      filewriteChunk sb mem s ip addr off n1 = .ok (s', off + t.toUInt32, (t : Int)) ∧ t ≤ n1 ∧
      (t < n1 → Full sb s') ∧ WroteAt sb s s' ip off.toNat (readBytes mem.data addr t) := by
  have hn1 : n1.toUInt32.toNat = n1 := by
    have := maxFile_eq
    unfold bSize at hend
    simp
    omega
  obtain ⟨s', t, hw, hle, hfull, hwr⟩ := writei_wroteAt hs hn hi hty mem true addr
    (n := n1.toUInt32) hoff (by rw [hn1]; exact hend) (fun _ => by rw [hn1]; exact hR)
  rw [hn1] at hle hfull
  refine ⟨s', t, ?_, hle, hfull, hwr⟩
  -- `f->off` moves by `r` when `r > 0`, and `r = 0` moves it by nothing
  have hoff' : (if (t : Int) > 0 then off + (t : Int).toNat.toUInt32 else off) = off + t.toUInt32 := by
    split
    · rfl
    · obtain rfl : t = 0 := by omega
      simp
  simp only [filewriteChunk, ilock_ok hty, hw, Trans.ok_bind, hoff']
  rfl

/-- The loop of `filewrite` from byte `i` of the buffer: it writes the next `w` bytes at `f->off`
and advances it by `w`; either every byte of the call was written and `i'` reached `n`, or a chunk
came short on a full disk, and `i'` stopped before the bytes of that chunk. The induction is on the
fuel, one chunk a turn. -/
theorem filewriteLoop_spec {ip : Nat} (hi : sb.HasInode ip) (mem : Mem) (addr : Nat) {n : Int} :
    ∀ (fuel : Nat) (s : DiskState) (off : UInt32) (i : Nat), (i : Int) ≤ n → (n - i).toNat ≤ fuel →
      AllocInv sb s → NoHoles sb s → (s.inode ip).type ≠ .free → off.toNat ≤ (s.inode ip).size →
      off.toNat + (n - i).toNat ≤ maxFile * bSize → Readable mem (addr + i) (n - i).toNat →
      ∃ (s' : DiskState) (w i' : Nat),
        filewriteLoop sb mem ip addr n fuel s off i = .ok (s', off + w.toUInt32, (i' : Int)) ∧
        WroteAt sb s s' ip off.toNat (readBytes mem.data (addr + i) w) ∧
        ((i' : Int) = n ∧ (w : Int) = n - i ∨ (i' : Int) < n ∧ (w : Int) < n - i ∧ Full sb s')
  | 0, s, off, i, hin, hfuel, hs, hn, hty, hoff, _, _ => by
    obtain rfl : n = i := by omega
    exact ⟨s, 0, i, by simp [filewriteLoop, pure, Except.pure], WroteAt.nil sb hs hn _ _, .inl ⟨rfl, by simp⟩⟩
  | fuel + 1, s, off, i, hin, hfuel, hs, hn, hty, hoff, hend, hR => by
    by_cases hlt : (i : Int) < n
    · -- the chunk: `n1 = min(n - i, max)` bytes, at least one
      set n1 := min ((n - i).toNat) fileWriteMax with hn1
      have hn1I : min (n - i) (fileWriteMax : Int) = (n1 : Int) := by
        rw [hn1]
        omega
      have hpos : 0 < n1 := by
        rw [hn1]
        unfold fileWriteMax maxOpBlocks bSize
        omega
      have hend1 : off.toNat + n1 ≤ maxFile * bSize := by omega
      obtain ⟨s1, t, hc, hle, hfull, hw1⟩ := filewriteChunk_spec hs hn hi hty mem (addr + i) hoff
        hend1 (Readable.mono hR (by omega))
      have hsize1 := size_of_wroteAt sb hw1 hoff
      rw [length_readBytes] at hsize1
      have hofft := toNat_add_toUInt32
        (show off.toNat + t < 2 ^ 32 by have := maxFile_eq; unfold bSize at hend; omega)
      rw [filewriteLoop, if_pos hlt]
      simp only [hn1I, Int.toNat_natCast, hc, Trans.ok_bind]
      by_cases ht : t = n1
      · -- a whole chunk: on to the next from byte `i + t`
        rw [if_neg (by simp [ht])]
        have hR' : Readable mem (addr + (i + t)) (n - ((i + t : Nat) : Int)).toNat := by
          have e : (n - ((i + t : Nat) : Int)).toNat = (n - i).toNat - t := by omega
          rw [e, ← Nat.add_assoc]
          exact Readable.shift hR t
        obtain ⟨s', w, i', hrest, hw2, hend'⟩ := filewriteLoop_spec hi mem addr (n := n) fuel s1
          (off + t.toUInt32) (i + t) (by push_cast; omega) (by push_cast; omega) hw1.inv hw1.noHoles
          (by rw [hw1.type_eq]; exact hty) (by rw [hofft, hsize1]; omega)
          (by rw [hofft]; push_cast; omega) hR'
        rw [Nat.cast_add] at hrest
        refine ⟨s', t + w, i', ?_, ?_, ?_⟩
        · rw [hrest]
          simp [UInt32.add_assoc]
        · rw [readBytes_add]
          refine hw1.trans sb ?_ hoff
          rw [length_readBytes, ← hofft]
          simpa only [Nat.add_assoc] using hw2
        · rcases hend' with ⟨h1, h2⟩ | ⟨h1, h2, h3⟩
          · exact .inl ⟨h1, by push_cast at h2 ⊢; omega⟩
          · exact .inr ⟨h1, by push_cast at h2 ⊢; omega, h3⟩
      · -- a short chunk: the disk is full, `f->off` moved and `i` did not
        rw [if_pos (by exact_mod_cast ht)]
        exact ⟨s1, t, i, rfl, hw1, .inr ⟨hlt, by omega, hfull (by omega)⟩⟩
    · obtain rfl : n = i := by omega
      exact ⟨s, 0, i, by simp [filewriteLoop, pure, Except.pure], WroteAt.nil sb hs hn _ _,
        .inl ⟨rfl, by simp⟩⟩

/-- `readi` within the file to a writable destination refines the read. -/
theorem readi_slice {s : DiskState} (hs : AllocInv sb s) (hn : NoHoles sb s) {i : Nat}
    (hi : sb.HasInode i) (hty : (s.inode i).type ≠ .free) (mem : Mem) (user_dst : Bool) (dst : Nat)
    {off n : UInt32} (hoff : off.toNat ≤ (s.inode i).size) (hwrap : off.toNat + n.toNat < 2 ^ 32)
    (hW : user_dst = true → Writable mem dst (min n.toNat ((s.inode i).size - off.toNat))) :
    readi sb mem user_dst s i dst off n =
      .ok (s, { mem with data := writeBytes mem.data dst (slice (content s i) off.toNat n.toNat) },
        ((min n.toNat ((s.inode i).size - off.toNat) : Nat) : Int)) := by
  rw [readi_spec sb hs hn hi hty mem user_dst dst hoff hwrap hW, readBytes_fileByte (by omega)]
  -- the count cut at the end is what `take` cuts anyway
  have hcut : ((content s i).drop off.toNat).take (min n.toNat ((s.inode i).size - off.toNat)) =
      slice (content s i) off.toNat n.toNat := by
    rw [← length_content]
    simp [slice]
  rw [hcut]

/-- `filewrite` of `n ≥ 0` bytes from a readable buffer, within `MAXFILE` blocks: it writes the
buffer's first `w` bytes at `f->off` and advances it by `w`; it returns `n` when it wrote them all,
and `-1` only on a full disk. -/
theorem filewrite_spec {s : DiskState} (hs : AllocInv sb s) (hn : NoHoles sb s) {f : File}
    (hi : sb.HasInode f.ip) (hty : (s.inode f.ip).type ≠ .free) (hw : f.writable = true) (mem : Mem)
    (addr : Nat) {n : Int32} (h0 : 0 ≤ n) (hoff : f.off.toNat ≤ (s.inode f.ip).size)
    (hend : f.off.toNat + n.toNatClampNeg ≤ maxFile * bSize) (hR : Readable mem addr n.toNatClampNeg) :
    ∃ (s' : DiskState) (w : Nat) (r : Int),
      filewrite sb mem s f addr n = .ok (s', { f with off := f.off + w.toUInt32 }, r) ∧
      WroteAt sb s s' f.ip f.off.toNat (readBytes mem.data addr w) ∧
      (r = n.toInt ∧ w = n.toNatClampNeg ∨ r = -1 ∧ w < n.toNatClampNeg ∧ Full sb s') := by
  have hN : n.toInt = n.toNatClampNeg := Int32.toInt_eq_toNatClampNeg h0
  obtain ⟨s', w, i', hl, hwr, hcase⟩ := filewriteLoop_spec hi mem addr (n := n.toInt) n.toInt.toNat
    s f.off 0 (by omega) (by omega) hs hn hty hoff (by rw [hN]; simpa using hend)
    (by rw [hN]; simpa using hR)
  simp only [Nat.add_zero] at hwr
  simp only [Nat.cast_zero] at hl
  refine ⟨s', w, if (i' : Int) = n.toInt then n.toInt else -1, ?_, hwr, ?_⟩
  · simp only [filewrite, hw, Bool.not_true, Bool.false_eq_true, if_false, hl, Trans.ok_bind]
    rfl
  · rcases hcase with ⟨h1, h2⟩ | ⟨h1, h2, h3⟩
    · exact .inl ⟨if_pos h1, by omega⟩
    · exact .inr ⟨if_neg (by omega), by omega, h3⟩

/-- `fileread` of `n ≥ 0` bytes within the file to a writable buffer: the bytes of the content from
`f->off`, as many as there are up to `n`, and `f->off` advanced by their number. -/
theorem fileread_spec {s : DiskState} (hs : AllocInv sb s) (hn : NoHoles sb s) {f : File}
    (hi : sb.HasInode f.ip) (hty : (s.inode f.ip).type ≠ .free) (hr : f.readable = true) (mem : Mem)
    (addr : Nat) {n : Int32} (h0 : 0 ≤ n) (hoff : f.off.toNat ≤ (s.inode f.ip).size)
    (hwrap : f.off.toNat + n.toNatClampNeg < 2 ^ 32)
    (hW : Writable mem addr (min n.toNatClampNeg ((s.inode f.ip).size - f.off.toNat))) :
    fileread sb mem s f addr n =
      .ok (s, { mem with data := writeBytes mem.data addr (slice (content s f.ip) f.off.toNat n.toNatClampNeg) },
        { f with off := f.off + (min n.toNatClampNeg ((s.inode f.ip).size - f.off.toNat)).toUInt32 },
        ((min n.toNatClampNeg ((s.inode f.ip).size - f.off.toNat) : Nat) : Int)) := by
  have hN : n.toUInt32.toNat = n.toNatClampNeg := Int32.toNat_toUInt32_of_le h0
  have hread := readi_slice hs hn hi hty mem true addr (n := n.toUInt32) hoff (by rwa [hN])
    (fun _ => by rwa [hN])
  rw [hN] at hread
  simp only [fileread, hr, Bool.not_true, Bool.false_eq_true, if_false, ilock_ok hty, hread, Trans.ok_bind,
    Int.toNat_natCast]
  -- `f->off += r` only when `r > 0`; with `r = 0` the offset is the same
  congr 2
  split
  · rfl
  · next hle =>
    rw [show min n.toNatClampNeg ((s.inode f.ip).size - f.off.toNat) = 0 by omega]
    rw [show (0 : Nat).toUInt32 = 0 from rfl, UInt32.add_zero]
    rcases f with ⟨_, _, _, _⟩
    simp only at hr
    rw [hr]

/-! ## A copy that fails part way -/

/-- A user buffer that starts at the last byte of the first page, `'a'`, with the next page not
mapped: `copyin` of two bytes from it copies the first and then fails. -/
def pageEndMem : Mem where
  user va := decide (va < pgSize)
  writable _ := false
  data a := if a = pgSize - 1 then 97 else 0

/-- The image of `mkfs` with one file `f` holding `xy`, as inode 2, and what `writei` of two bytes
from `pageEndMem` does to it. -/
theorem mkfs_xy : ∃ im, mkfs [([102], [120, 121])] = .ok im ∧ AllocInv mkfsSb im.disk ∧
    NoHoles mkfsSb im.disk ∧ (im.disk.inode 2).type = .file ∧ content im.disk 2 = [120, 121] ∧
    (writei mkfsSb pageEndMem true im.disk 2 (pgSize - 1) 0 2).toOption.map
      (fun r => (content r.1 2, r.2)) = some ([97, 121], 0) := by
  obtain ⟨im, hm, hv⟩ := Trans.exists_of_toOption_map (x := mkfs [([102], [120, 121])])
    (f := fun im : Image => im.freeblock == 48 && (im.disk.inode 2).type == .file &&
      content im.disk 2 == [120, 121] &&
      (writei mkfsSb pageEndMem true im.disk 2 (pgSize - 1) 0 2).toOption.map
        (fun r => (content r.1 2, r.2)) == some ([97, 121], 0))
    (v := true) (by decide +kernel)
  simp only [Bool.and_eq_true, beq_iff_eq] at hv
  obtain ⟨⟨⟨hfb, hty⟩, hc⟩, hw⟩ := hv
  have h := mkfs_allocInv hm (by rw [hfb]; decide) (by decide)
  exact ⟨im, hm, h.1, h.2 (by decide), hty, hc, hw⟩


/-! ## The content of an inode -/

/-- On an inode that satisfies the allocation invariant and has no hole, no call of `writei` or
`readi` panics; `writei` within the file and `MAXFILE` blocks from a readable source writes the first
`t` bytes over the content and raises the size to their end, with `t = n` unless the disk is full;
`readi` within the file to a writable destination copies the content from `off`, as many bytes as
there are up to `n`, and returns their number; and what `filewrite` wrote whole, `fileread` from the
same offset reads back. -/
theorem inode_content_refinement {s : DiskState} (hs : AllocInv sb s) (hn : NoHoles sb s) {i : Nat}
    (hi : sb.HasInode i) (hty : (s.inode i).type ≠ .free) :
    (∀ mem user_src src off n, ∃ s' r, writei sb mem user_src s i src off n = .ok (s', r)) ∧
    (∀ mem user_dst dst off n, ∃ s' mem' r, readi sb mem user_dst s i dst off n = .ok (s', mem', r)) ∧
    (∀ (mem : Mem) (user_src : Bool) (src : Nat) (off n : UInt32), off.toNat ≤ (s.inode i).size →
      off.toNat + n.toNat ≤ maxFile * bSize → (user_src = true → Readable mem src n.toNat) →
      ∃ (s' : DiskState) (t : Nat), writei sb mem user_src s i src off n = .ok (s', (t : Int)) ∧
        t ≤ n.toNat ∧ (t < n.toNat → Full sb s') ∧
        content s' i = (content s i).take off.toNat ++ readBytes mem.data src t ++
          (content s i).drop (off.toNat + t) ∧
        (s'.inode i).size = max (s.inode i).size (off.toNat + t) ∧ AllocInv sb s' ∧ NoHoles sb s') ∧
    (∀ (mem : Mem) (user_dst : Bool) (dst : Nat) (off n : UInt32), off.toNat ≤ (s.inode i).size →
      off.toNat + n.toNat < 2 ^ 32 →
      (user_dst = true → Writable mem dst (min n.toNat ((s.inode i).size - off.toNat))) →
      readi sb mem user_dst s i dst off n =
        .ok (s, { mem with data := writeBytes mem.data dst (((content s i).drop off.toNat).take n.toNat) },
          ((min n.toNat ((s.inode i).size - off.toNat) : Nat) : Int))) ∧
    (∀ (f g : File) (mem : Mem) (addr : Nat) (n : Int32), f.ip = i → f.writable = true → g.ip = i →
      g.readable = true → g.off = f.off → 0 ≤ n → f.off.toNat ≤ (s.inode i).size →
      f.off.toNat + n.toNatClampNeg ≤ maxFile * bSize → Readable mem addr n.toNatClampNeg →
      ∃ s' f' r, filewrite sb mem s f addr n = .ok (s', f', r) ∧ (r = n.toInt ∨ r = -1 ∧ Full sb s') ∧
        (r = n.toInt → ∀ (mem2 : Mem) (dst : Nat), Writable mem2 dst n.toNatClampNeg →
          ∃ g', fileread sb mem2 s' g dst n =
            .ok (s', { mem2 with data := writeBytes mem2.data dst (readBytes mem.data addr n.toNatClampNeg) },
              g', n.toInt))) := by
  refine ⟨fun mem user_src src off n => ?_, fun mem user_dst dst off n => ?_,
    fun mem user_src src off n hoff hend hR => ?_, fun mem user_dst dst off n hoff hwrap hW => ?_,
    fun f g mem addr n hf hfw hg hgr hoff' h0 hoff hend hR => ?_⟩
  · obtain ⟨s', r, hw, -⟩ := writei_total sb hs hi hty mem user_src src off n
    exact ⟨s', r, hw⟩
  · obtain ⟨s', mem', r, hr, -⟩ := readi_total sb hs hi hty mem user_dst dst off n
    exact ⟨s', mem', r, hr⟩
  · obtain ⟨s', t, hw, hle, hfull, hwr⟩ := writei_wroteAt hs hn hi hty mem user_src src hoff hend hR
    refine ⟨s', t, hw, hle, hfull, ?_, ?_, hwr.inv, hwr.noHoles⟩
    · rw [hwr.content_eq, splice, length_readBytes]
    · rw [size_of_wroteAt sb hwr hoff, length_readBytes]
  · exact readi_slice hs hn hi hty mem user_dst dst hoff hwrap hW
  · -- the write, then the read of what it wrote from where it started
    subst hf
    obtain ⟨s', w, r, hw, hwr, hcase⟩ := filewrite_spec hs hn hi hty hfw mem addr h0 hoff hend hR
    -- `n`, or `-1` on a full disk, as `filewrite_spec` has it
    have hret : r = n.toInt ∨ r = -1 ∧ Full sb s' := hcase.imp (fun h => h.1) (fun h => ⟨h.1, h.2.2⟩)
    refine ⟨s', _, r, hw, hret, fun hr mem2 dst hW => ?_⟩
    obtain rfl : w = n.toNatClampNeg := by
      rcases hcase with ⟨-, hw'⟩ | ⟨hr', -⟩
      · exact hw'
      · have := Int32.toInt_eq_toNatClampNeg h0
        omega
    have hsize := size_of_wroteAt sb hwr hoff
    rw [length_readBytes] at hsize
    have hread := fileread_spec (f := g) hwr.inv hwr.noHoles (hg ▸ hi)
      (by rw [hg, hwr.type_eq]; exact hty) hgr mem2 dst h0 (by rw [hoff', hg, hsize]; omega)
      (by rw [hoff']; have := maxFile_eq; unfold bSize at hend; omega) (Writable.mono hW (by omega))
    have hback : slice (splice (content s f.ip) f.off.toNat (readBytes mem.data addr n.toNatClampNeg))
        f.off.toNat n.toNatClampNeg = readBytes mem.data addr n.toNatClampNeg := by
      have := slice_splice (o := f.off.toNat) (by rwa [length_content])
        (readBytes mem.data addr n.toNatClampNeg)
      rwa [length_readBytes] at this
    have hmin : min n.toNatClampNeg ((s'.inode f.ip).size - f.off.toNat) = n.toNatClampNeg := by
      omega
    rw [hoff', hg, hwr.content_eq, hback, hmin, ← Int32.toInt_eq_toNatClampNeg h0] at hread
    exact ⟨_, hread⟩

theorem inode_content_refinement_xy : ∃ im, mkfs [([102], [120, 121])] = .ok im ∧
    ∃ (s' : DiskState) (t : Nat), writei mkfsSb pageEndMem false im.disk 2 0 0 2 = .ok (s', (t : Int)) ∧
      content s' 2 = (content im.disk 2).take 0 ++ readBytes pageEndMem.data 0 t ++
        (content im.disk 2).drop t := by
  obtain ⟨im, hm, hs, hn, hty, -, -⟩ := mkfs_xy
  obtain ⟨s', t, hw, -, -, hc, -⟩ := (inode_content_refinement hs hn (i := 2) (by decide)
    (by rw [hty]; exact nofun)).2.2.1 pageEndMem false 0 0 2 (Nat.zero_le _) (by decide) nofun
  exact ⟨im, hm, s', t, hw, by simpa using hc⟩

/-- A copy from user memory that fails part way: `copyin` moved the first byte into the cached
block before it found the next page unmapped, and `writei` returns `0` with the file changed from
`xy` to `ay`, not the content the first `0` bytes of the source make. -/
theorem writei_partial_copy :
    ∃ im, mkfs [([102], [120, 121])] = .ok im ∧ AllocInv mkfsSb im.disk ∧ NoHoles mkfsSb im.disk ∧
      (im.disk.inode 2).type = .file ∧ content im.disk 2 = [120, 121] ∧
      ∃ s', writei mkfsSb pageEndMem true im.disk 2 (pgSize - 1) 0 2 = .ok (s', 0) ∧
        content s' 2 = [97, 121] := by
  obtain ⟨im, hm, hs, hn, hty, hc, hw⟩ := mkfs_xy
  obtain ⟨r, hr, hv⟩ := Trans.exists_of_toOption_map hw
  simp only [Prod.mk.injEq] at hv
  exact ⟨im, hm, hs, hn, hty, hc, r.1, by rw [hr, ← hv.2], hv.1⟩

/-! ## A negative count -/

/-- User memory whose every page is mapped and writable, holding zeros. -/
def writableMem : Mem := ⟨fun _ => true, fun _ => true, fun _ => 0⟩

/-- `read(fd, buf, -1)` of a file open at offset `0` reads the whole file: `sys_read` passes the
`int` on, `fileread` hands it to `readi` as the `uint` `0xFFFFFFFF`, whose sum with `off = 0` does
not wrap, and `readi` cuts the count at the end of the file. The two bytes of `f` are copied out,
`fileread` returns `2` and `f->off` moves to `2`. -/
theorem fileread_minus_one_reads_file :
    ∃ im, mkfs [([102], [120, 121])] = .ok im ∧
      fileread mkfsSb writableMem im.disk ⟨true, false, 2, 0⟩ 0x1000 (-1) =
        .ok (im.disk, { writableMem with data := writeBytes writableMem.data 0x1000 [120, 121] },
          ⟨true, false, 2, 2⟩, 2) := by
  obtain ⟨im, hm, hs, hn, hty, hc, -⟩ := mkfs_xy
  have hsize : (im.disk.inode 2).size = 2 := by rw [← length_content, hc]; rfl
  have hread := readi_slice hs hn (i := 2) (by decide) (by rw [hty]; exact nofun) writableMem
    true 0x1000 (n := (-1 : Int32).toUInt32) (by simp : (0 : UInt32).toNat ≤ _) (by decide)
    (fun _ _ _ => rfl)
  rw [hc, hsize] at hread
  refine ⟨im, hm, ?_⟩
  simp only [fileread, Bool.not_true, Bool.false_eq_true, if_false,
    ilock_ok (by rw [hty]; exact nofun : (im.disk.inode 2).type ≠ .free), hread, Trans.ok_bind]
  -- the count `readi` sees, cut at the end of the two bytes
  have hN : (-1 : Int32).toUInt32.toNat = 4294967295 := by decide
  have hsl : slice [120, 121] 0 4294967295 = [(120 : UInt8), 121] := by decide
  simp only [hN, UInt32.toNat_zero, hsl]
  rfl

end Layer

end Xv6.Blocks
