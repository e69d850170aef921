import Xv6.Lib.Bytes
import Xv6.Fs.Names

/-!
# Blocks of the file system (`fs.c`: `balloc`, `bfree`, `bmap`, `itrunc`)

The disk as the buffer cache shows it, byte by byte, with the free-block bitmap in its bitmap
blocks and the block addresses of each inode in `addrs` and in its indirect block. The inodes are
the in-memory ones, which `iupdate` keeps equal to those on disk.

* `inUse`, `balloc`, `bfree` : the bitmap, read and written through `BBLOCK`, `bi / 8` and
  `bi % 8`; `inUse_markUsed`, `inUse_markFree` say which bits change;
* `blockAddr s i bn` : block `bn` of inode `i`, as `bmap` finds it without allocating;
* `bmap`, `itrunc`;
* `Refs s p b` : position `p` (an entry of `addrs` or of an indirect block) of an allocated inode
  holds block `b`; `AllocInv` : the bitmap marks exactly the metadata blocks and the referenced
  ones, no block is referenced twice, and files have no holes;
* `bmap_spec`, `itrunc_spec` : both keep `AllocInv`, and say what they do to the addresses and to
  the data the inodes hold.
-/

namespace Xv6.Blocks

open Bytes

/-- The superblock fields the block layer reads, with what `mkfs` makes true of them. -/
structure Superblock where
  size : Nat
  nblocks : Nat
  ninodes : Nat
  bmapstart : Nat
  /-- the bitmap blocks lie before the first data block -/
  bmap_meta : bmapstart + size / bpb < size - nblocks
  /-- block numbers fit the 32-bit entries of an indirect block -/
  size_lt : size < 2 ^ 32

/-- The blocks before the first data block: boot block, superblock, log, inodes and bitmap. -/
def Superblock.nmeta (sb : Superblock) : Nat := sb.size - sb.nblocks

/-- `BBLOCK(b, sb)`: the bitmap block holding block `b`'s bit. -/
def Superblock.bblock (sb : Superblock) (b : Nat) : Nat := b / bpb + sb.bmapstart

/-- The inodes `ialloc` hands out. -/
def Superblock.HasInode (sb : Superblock) (i : Nat) : Prop := 1 ≤ i ∧ i < sb.ninodes

/-- The fields of `struct inode` the block layer uses. -/
structure Inode where
  type : IType
  size : Nat
  addrs : Fin (nDirect + 1) → Nat

/-- The disk, block by block and byte by byte, and the inodes. -/
structure DiskState where
  blk : Nat → Nat → UInt8
  inode : Nat → Inode

/-- `ip->addrs[k] = a` -/
def DiskState.setAddr (s : DiskState) (i : Nat) (k : Fin (nDirect + 1)) (a : Nat) : DiskState :=
  let ip := s.inode i
  { s with inode := Function.update s.inode i { ip with addrs := Function.update ip.addrs k a } }

/-- The address of the indirect block, `ip->addrs[NDIRECT]`. -/
def Inode.ind (ip : Inode) : Nat := ip.addrs (Fin.last nDirect)

section Bitmap

variable (sb : Superblock)

/-- Whether block `b`'s bit is set: `bp->data[bi/8] & m` with `bi = b % BPB`, `m = 1 << (bi % 8)`. -/
def inUse (d : Nat → Nat → UInt8) (b : Nat) : Bool :=
  (d (sb.bblock b) (b % bpb / 8) &&& bitMask (b % bpb % 8)) != 0

/-- `bp->data[bi/8] |= m` -/
def markUsed (d : Nat → Nat → UInt8) (b : Nat) : Nat → Nat → UInt8 :=
  Function.update d (sb.bblock b) (Function.update (d (sb.bblock b)) (b % bpb / 8)
    (d (sb.bblock b) (b % bpb / 8) ||| bitMask (b % bpb % 8)))

/-- `bp->data[bi/8] &= ~m` -/
def markFree (d : Nat → Nat → UInt8) (b : Nat) : Nat → Nat → UInt8 :=
  Function.update d (sb.bblock b) (Function.update (d (sb.bblock b)) (b % bpb / 8)
    (d (sb.bblock b) (b % bpb / 8) &&& ~~~bitMask (b % bpb % 8)))

/-- What `balloc` does to the disk when it hands out `b`: the bit set, and the block zeroed by
`bzero`. -/
def claimBlk (d : Nat → Nat → UInt8) (b : Nat) : Nat → Nat → UInt8 :=
  Function.update (markUsed sb d b) b fun _ => 0

/-- `balloc`: the first block whose bit is clear is claimed; `0` when there is none. The source's two loops, over bitmap blocks and over the bits of each, visit
`b + bi = 0, 1, ..., sb.size - 1` in this order. -/
def balloc (s : DiskState) : DiskState × Nat :=
  match (List.range sb.size).find? fun b => !inUse sb s.blk b with
  | some b => ({ s with blk := claimBlk sb s.blk b }, b)
  | none => (s, 0)

/-- `bfree` -/
def bfree (s : DiskState) (b : Nat) : Except String DiskState :=
  if inUse sb s.blk b then pure { s with blk := markFree sb s.blk b }
  else throw "freeing free block"

/-! ### Bits -/

theorem bitMask_pos (b : Nat) : b % bpb % 8 < 8 := Nat.mod_lt _ (by decide)

theorem inUse_eq_testBit (d : Nat → Nat → UInt8) (b : Nat) :
    inUse sb d b = (d (sb.bblock b) (b % bpb / 8)).toNat.testBit (b % bpb % 8) := by
  have h := and_bitMask_eq_zero (d (sb.bblock b) (b % bpb / 8)) (bitMask_pos b)
  unfold inUse
  cases ht : (d (sb.bblock b) (b % bpb / 8)).toNat.testBit (b % bpb % 8)
  · simpa using h.mpr ht
  · simpa [ht] using h

/-- A block's bit is found at one block, byte and bit of the bitmap, which no other block shares. -/
theorem eq_of_bit_pos {x b : Nat} (hblk : sb.bblock x = sb.bblock b)
    (hbyte : x % bpb / 8 = b % bpb / 8) (hbit : x % bpb % 8 = b % bpb % 8) : x = b := by
  unfold Superblock.bblock at hblk
  unfold bpb bSize at *
  omega

theorem inUse_markUsed (d : Nat → Nat → UInt8) (b x : Nat) :
    inUse sb (markUsed sb d b) x = (decide (x = b) || inUse sb d x) := by
  rw [inUse_eq_testBit, inUse_eq_testBit]
  unfold markUsed
  by_cases hblk : sb.bblock x = sb.bblock b
  · by_cases hbyte : x % bpb / 8 = b % bpb / 8
    · rw [hblk, hbyte, Function.update_self, Function.update_self, testBit_or_bitMask _ (bitMask_pos b)]
      by_cases hbit : x % bpb % 8 = b % bpb % 8
      · simp [eq_of_bit_pos sb hblk hbyte hbit]
      · have hxb : x ≠ b := fun h => hbit (h ▸ rfl)
        simp [hbit, hxb]
    · have hxb : x ≠ b := fun h => hbyte (h ▸ rfl)
      rw [hblk, Function.update_self, Function.update_of_ne hbyte]
      simp [hxb]
  · have hxb : x ≠ b := fun h => hblk (h ▸ rfl)
    rw [Function.update_of_ne hblk]
    simp [hxb]

theorem inUse_markFree (d : Nat → Nat → UInt8) (b x : Nat) :
    inUse sb (markFree sb d b) x = (!decide (x = b) && inUse sb d x) := by
  rw [inUse_eq_testBit, inUse_eq_testBit]
  unfold markFree
  by_cases hblk : sb.bblock x = sb.bblock b
  · by_cases hbyte : x % bpb / 8 = b % bpb / 8
    · rw [hblk, hbyte, Function.update_self, Function.update_self,
        testBit_and_not_bitMask _ (bitMask_pos x) (bitMask_pos b)]
      by_cases hbit : x % bpb % 8 = b % bpb % 8
      · simp [eq_of_bit_pos sb hblk hbyte hbit]
      · have hxb : x ≠ b := fun h => hbit (h ▸ rfl)
        simp [hbit, hxb]
    · have hxb : x ≠ b := fun h => hbyte (h ▸ rfl)
      rw [hblk, Function.update_self, Function.update_of_ne hbyte]
      simp [hxb]
  · have hxb : x ≠ b := fun h => hblk (h ▸ rfl)
    rw [Function.update_of_ne hblk]
    simp [hxb]

/-- The bitmap block of a block in the image is a metadata block. -/
theorem bblock_lt_nmeta {b : Nat} (hb : b < sb.size) : sb.bblock b < sb.nmeta := by
  have := sb.bmap_meta
  have : b / bpb ≤ sb.size / bpb := Nat.div_le_div_right hb.le
  unfold Superblock.bblock Superblock.nmeta
  omega

/-- Writing a block other than the bitmap block of `x` leaves `x`'s bit alone. -/
theorem inUse_update_of_ne {d : Nat → Nat → UInt8} {a x : Nat} (blk : Nat → UInt8)
    (h : a ≠ sb.bblock x) : inUse sb (Function.update d a blk) x = inUse sb d x := by
  simp [inUse, Function.update_of_ne (Ne.symm h)]

end Bitmap

/-! ## Block addresses -/

/-- Block `bn` of inode `i` as `bmap` finds it without allocating: `addrs[bn]` below `NDIRECT`,
else entry `bn - NDIRECT` of the indirect block; `0` when there is none. -/
def blockAddr (s : DiskState) (i bn : Nat) : Nat :=
  if h : bn < nDirect then (s.inode i).addrs ⟨bn, by unfold nDirect at *; omega⟩
  else if bn < maxFile ∧ (s.inode i).ind ≠ 0 then get32 (s.blk (s.inode i).ind) (4 * (bn - nDirect))
  else 0

/-- Byte `o` of inode `i`'s data: in block `o / BSIZE`, or `0` in a block it does not have (`bmap`
would allocate a zeroed one). -/
def fileByte (s : DiskState) (i o : Nat) : UInt8 :=
  if blockAddr s i (o / bSize) = 0 then 0 else s.blk (blockAddr s i (o / bSize)) (o % bSize)

/-- The content of inode `i`: the first `size` bytes of its blocks. -/
def content (s : DiskState) (i : Nat) : List UInt8 := (List.range (s.inode i).size).map (fileByte s i)

section Layer

variable (sb : Superblock)

/-- `addr = balloc(dev); if(addr == 0) return 0;` then `record` the new block. -/
def allocThen (s : DiskState) (record : DiskState → Nat → DiskState) : DiskState × Nat :=
  if (balloc sb s).2 = 0 then balloc sb s else (record (balloc sb s).1 (balloc sb s).2, (balloc sb s).2)

/-- The indirect block of inode `i`, allocated when it has none; `0` when `balloc` fails. -/
def loadIndirect (s : DiskState) (i : Nat) : DiskState × Nat :=
  if (s.inode i).ind ≠ 0 then (s, (s.inode i).ind)
  else allocThen sb s fun t a => t.setAddr i (Fin.last nDirect) a

/-- `bmap(ip, bn)`: the block holding block `bn` of inode `i`, allocated when there is none; `0`
when `balloc` fails. -/
def bmap (s : DiskState) (i bn : Nat) : Except String (DiskState × Nat) :=
  if h : bn < nDirect then
    if (s.inode i).addrs ⟨bn, by omega⟩ ≠ 0 then pure (s, (s.inode i).addrs ⟨bn, by omega⟩)
    else pure (allocThen sb s fun t a => t.setAddr i ⟨bn, by omega⟩ a)
  else if bn - nDirect < nIndirect then
    match loadIndirect sb s i with
    | (t, 0) => pure (t, 0)
    | (t, ind) =>
      if get32 (t.blk ind) (4 * (bn - nDirect)) ≠ 0 then
        pure (t, get32 (t.blk ind) (4 * (bn - nDirect)))
      else pure (allocThen sb t fun u a =>
        { u with blk := Function.update u.blk ind (set32 (u.blk ind) (4 * (bn - nDirect)) a) })
  else throw "bmap: out of range"

/-- The first loop of `itrunc`: each direct block is freed and its address cleared. -/
def freeDirect (i : Nat) : List (Fin nDirect) → DiskState → Except String DiskState
  | [], s => pure s
  | k :: ks, s =>
    if (s.inode i).addrs k.castSucc ≠ 0 then do
      let s ← bfree sb s ((s.inode i).addrs k.castSucc)
      freeDirect i ks (s.setAddr i k.castSucc 0)
    else freeDirect i ks s

/-- The second loop of `itrunc`: the nonzero entries of the indirect block `ind` are freed. -/
def freeIndirect (ind : Nat) : List Nat → DiskState → Except String DiskState
  | [], s => pure s
  | j :: js, s =>
    if get32 (s.blk ind) (4 * j) ≠ 0 then do
      let s ← bfree sb s (get32 (s.blk ind) (4 * j))
      freeIndirect ind js s
    else freeIndirect ind js s

/-- The indirect part of `itrunc`: the blocks the indirect block lists, then the indirect block. -/
def truncIndirect (s : DiskState) (i : Nat) : Except String DiskState :=
  if (s.inode i).ind ≠ 0 then do
    let t ← freeIndirect sb (s.inode i).ind (List.range nIndirect) s
    let t ← bfree sb t (s.inode i).ind
    pure (t.setAddr i (Fin.last nDirect) 0)
  else pure s

/-- `itrunc`: every block of the inode goes back to the bitmap, and its size to `0`. -/
def itrunc (s : DiskState) (i : Nat) : Except String DiskState := do
  let s ← freeDirect sb i (List.finRange nDirect) s
  let s ← truncIndirect sb s i
  let ip := s.inode i
  pure { s with inode := Function.update s.inode i { ip with size := 0 } }

/-! ## The allocation invariant -/

/-- Where an inode keeps a block address: block `bn` of inode `i`, or its indirect block. -/
inductive Pos where
  | data (i bn : Nat)
  | ind (i : Nat)
  deriving DecidableEq

def Pos.inum : Pos → Nat
  | .data i _ => i
  | .ind i => i

/-- The address at a position. -/
def refAt (s : DiskState) : Pos → Nat
  | .data i bn => blockAddr s i bn
  | .ind i => (s.inode i).ind

/-- Position `p` of an allocated inode holds block `b`. -/
def Refs (s : DiskState) (p : Pos) (b : Nat) : Prop :=
  sb.HasInode p.inum ∧ (s.inode p.inum).type ≠ .free ∧ b ≠ 0 ∧ refAt s p = b

theorem Refs.blockAddr_eq {s : DiskState} {i bn b : Nat} (h : Refs sb s (.data i bn) b) :
    blockAddr s i bn = b := h.2.2.2

/-- The bitmap marks exactly the metadata blocks and the blocks allocated inodes hold; no block is
held at two positions; free inodes hold nothing; and no file is longer than `MAXFILE` blocks. -/
structure AllocInv (s : DiskState) : Prop where
  inUse_iff : ∀ b < sb.size, inUse sb s.blk b = true ↔ b < sb.nmeta ∨ ∃ p, Refs sb s p b
  unique : ∀ p q b, Refs sb s p b → Refs sb s q b → p = q
  ref_data : ∀ p b, Refs sb s p b → sb.nmeta ≤ b ∧ b < sb.size
  free_zero : ∀ i, sb.HasInode i → (s.inode i).type = .free → ∀ k, (s.inode i).addrs k = 0
  size_le : ∀ i, sb.HasInode i → (s.inode i).type ≠ .free → (s.inode i).size ≤ maxFile * bSize

/-- Every allocated inode holds every block below its size. -/
def NoHoles (s : DiskState) : Prop :=
  ∀ i, sb.HasInode i → (s.inode i).type ≠ .free → ∀ bn, bn * bSize < (s.inode i).size →
    blockAddr s i bn ≠ 0


/-! ### Frames -/

@[simp] theorem setAddr_blk (s : DiskState) (i : Nat) (k : Fin (nDirect + 1)) (a : Nat) :
    (s.setAddr i k a).blk = s.blk := rfl

theorem setAddr_inode_of_ne (s : DiskState) {i j : Nat} (k : Fin (nDirect + 1)) (a : Nat)
    (h : j ≠ i) : (s.setAddr i k a).inode j = s.inode j := by
  simp [DiskState.setAddr, Function.update_of_ne h]

@[simp] theorem setAddr_type (s : DiskState) (i j : Nat) (k : Fin (nDirect + 1)) (a : Nat) :
    ((s.setAddr i k a).inode j).type = (s.inode j).type := by
  by_cases h : j = i
  · subst h; simp [DiskState.setAddr]
  · rw [setAddr_inode_of_ne s k a h]

@[simp] theorem setAddr_size (s : DiskState) (i j : Nat) (k : Fin (nDirect + 1)) (a : Nat) :
    ((s.setAddr i k a).inode j).size = (s.inode j).size := by
  by_cases h : j = i
  · subst h; simp [DiskState.setAddr]
  · rw [setAddr_inode_of_ne s k a h]

theorem setAddr_addrs (s : DiskState) (i : Nat) (k k' : Fin (nDirect + 1)) (a : Nat) :
    ((s.setAddr i k a).inode i).addrs k' = if k' = k then a else (s.inode i).addrs k' := by
  simp [DiskState.setAddr, Function.update_apply]

/-- Writing a block other than inode `i`'s indirect block leaves its addresses alone. -/
theorem blockAddr_update_blk {s : DiskState} {i a : Nat} (v : Nat → UInt8)
    (h : (s.inode i).ind = 0 ∨ (s.inode i).ind ≠ a) (bn : Nat) :
    blockAddr { s with blk := Function.update s.blk a v } i bn = blockAddr s i bn := by
  unfold blockAddr
  split
  · rfl
  · rcases h with h | h
    · simp [h]
    · simp [Function.update_of_ne h]

theorem refs_inUse {s : DiskState} (hs : AllocInv sb s) {p : Pos} {b : Nat} (h : Refs sb s p b) :
    inUse sb s.blk b = true :=
  (hs.inUse_iff b (hs.ref_data p b h).2).mpr (.inr ⟨p, h⟩)

/-- An allocated inode's indirect block is `0` or another block than `a` when no inode has `a` as
its indirect block. -/
theorem ind_ne_of_not_refs {s : DiskState} {a j : Nat} (hnot : ¬ Refs sb s (.ind j) a)
    (hj : sb.HasInode j) (hty : (s.inode j).type ≠ .free) :
    (s.inode j).ind = 0 ∨ (s.inode j).ind ≠ a := by
  by_cases h0 : (s.inode j).ind = 0
  · exact .inl h0
  · exact .inr fun he => hnot ⟨hj, hty, he ▸ h0, he⟩

/-- Writing a block that is no inode's indirect block changes no position. -/
theorem refs_update_blk {s : DiskState} {a : Nat} (v : Nat → UInt8)
    (hnot : ∀ j, ¬ Refs sb s (.ind j) a) (p : Pos) (x : Nat) :
    Refs sb { s with blk := Function.update s.blk a v } p x ↔ Refs sb s p x := by
  cases p with
  | ind j => rfl
  | data j bn =>
    simp only [Refs, Pos.inum, refAt]
    constructor
    · rintro ⟨hj, hty, hx, hb⟩
      rw [blockAddr_update_blk v (ind_ne_of_not_refs sb (hnot j) hj hty)] at hb
      exact ⟨hj, hty, hx, hb⟩
    · rintro ⟨hj, hty, hx, hb⟩
      rw [← blockAddr_update_blk v (ind_ne_of_not_refs sb (hnot j) hj hty)] at hb
      exact ⟨hj, hty, hx, hb⟩


theorem nmeta_pos : 0 < sb.nmeta := Nat.lt_of_le_of_lt (Nat.zero_le _) sb.bmap_meta

theorem nmeta_le_size : sb.nmeta ≤ sb.size := Nat.sub_le _ _

/-- `balloc` fails only on a full disk, which it leaves as it is; otherwise it claims a block of the
image whose bit was clear. -/
theorem balloc_spec (s : DiskState) :
    ((balloc sb s).2 = 0 ∧ (balloc sb s).1 = s ∧ ∀ b < sb.size, inUse sb s.blk b = true) ∨
    ((balloc sb s).2 < sb.size ∧ inUse sb s.blk (balloc sb s).2 = false ∧
      (balloc sb s).1 = { s with blk := claimBlk sb s.blk (balloc sb s).2 }) := by
  unfold balloc
  split
  · next b hb =>
    have hclear := List.find?_some hb
    have hlt := List.mem_range.mp (List.mem_of_find?_eq_some hb)
    simp only [Bool.not_eq_true'] at hclear
    exact .inr ⟨hlt, hclear, rfl⟩
  · next hb =>
    refine .inl ⟨rfl, rfl, fun b h => ?_⟩
    simpa using List.find?_eq_none.mp hb b (List.mem_range.mpr h)

theorem inUse_claimBlk (d : Nat → Nat → UInt8) {b x : Nat} (hb : sb.nmeta ≤ b) (hx : x < sb.size) :
    inUse sb (claimBlk sb d b) x = (decide (x = b) || inUse sb d x) := by
  have hne : b ≠ sb.bblock x := by have := bblock_lt_nmeta sb hx; omega
  rw [claimBlk, inUse_update_of_ne sb _ hne, inUse_markUsed]

@[simp] theorem claimBlk_self (d : Nat → Nat → UInt8) (b : Nat) : claimBlk sb d b b = fun _ => 0 := by
  simp [claimBlk]

/-- `blk'` agrees with the disk on every block an allocated inode holds. -/
def AgreeOnRefs (s : DiskState) (blk' : Nat → Nat → UInt8) : Prop :=
  ∀ p y, Refs sb s p y → blk' y = s.blk y

section Inv

variable {sb} {s : DiskState}

theorem blockAddr_of_agree {blk' : Nat → Nat → UInt8} (h : AgreeOnRefs sb s blk') {j : Nat}
    (hj : sb.HasInode j) (hty : (s.inode j).type ≠ .free) (bn : Nat) :
    blockAddr { s with blk := blk' } j bn = blockAddr s j bn := by
  unfold blockAddr
  split
  · rfl
  · by_cases h0 : (s.inode j).ind = 0
    · simp [h0]
    · simp [h (.ind j) _ ⟨hj, hty, h0, rfl⟩]

theorem refs_of_agree {blk' : Nat → Nat → UInt8} (h : AgreeOnRefs sb s blk') (p : Pos) (x : Nat) :
    Refs sb { s with blk := blk' } p x ↔ Refs sb s p x := by
  cases p with
  | ind j => rfl
  | data j bn =>
    simp only [Refs, Pos.inum, refAt]
    constructor
    · rintro ⟨hj, hty, hx, hb⟩
      exact ⟨hj, hty, hx, blockAddr_of_agree h hj hty bn ▸ hb⟩
    · rintro ⟨hj, hty, hx, hb⟩
      exact ⟨hj, hty, hx, (blockAddr_of_agree h hj hty bn).symm ▸ hb⟩

theorem fileByte_of_agree {blk' : Nat → Nat → UInt8} (h : AgreeOnRefs sb s blk') {j : Nat}
    (hj : sb.HasInode j) (hty : (s.inode j).type ≠ .free) (o : Nat) :
    fileByte { s with blk := blk' } j o = fileByte s j o := by
  unfold fileByte
  rw [blockAddr_of_agree h hj hty]
  split
  · rfl
  · next hne => exact congrFun (h (.data j (o / bSize)) _ ⟨hj, hty, hne, rfl⟩) _

/-- Writing a block that no allocated inode holds. -/
theorem agree_update {a : Nat} (hnot : ∀ p, ¬ Refs sb s p a) (v : Nat → UInt8) :
    AgreeOnRefs sb s (Function.update s.blk a v) := fun p y hy =>
  Function.update_of_ne (fun (he : y = a) => hnot p (he ▸ hy)) _ _

/-- Writing a data block leaves every bit of the image alone. -/
theorem inUse_update_data (d : Nat → Nat → UInt8) {a : Nat} (ha : sb.nmeta ≤ a) (v : Nat → UInt8)
    {x : Nat} (hx : x < sb.size) : inUse sb (Function.update d a v) x = inUse sb d x :=
  inUse_update_of_ne sb v (by have := bblock_lt_nmeta sb hx; omega)

variable (hs : AllocInv sb s)
include hs

/-- A block in the image whose bit is clear is a data block that no inode holds. -/
theorem free_of_not_inUse {b : Nat} (hb : b < sb.size) (hfree : inUse sb s.blk b = false) :
    sb.nmeta ≤ b ∧ ∀ p, ¬ Refs sb s p b := by
  have h := hs.inUse_iff b hb
  rw [hfree] at h
  simp only [Bool.false_eq_true, false_iff, not_or, not_exists, not_lt] at h
  exact h



/-- `balloc` under the invariant: on success the block is a data block no inode holds. -/
theorem balloc_cases :
    ((balloc sb s).2 = 0 ∧ (balloc sb s).1 = s ∧ ∀ b < sb.size, inUse sb s.blk b = true) ∨
    (0 < (balloc sb s).2 ∧ (balloc sb s).2 < sb.size ∧ inUse sb s.blk (balloc sb s).2 = false ∧
      (balloc sb s).1 = { s with blk := claimBlk sb s.blk (balloc sb s).2 }) := by
  rcases balloc_spec sb s with h | ⟨hlt, hfree, heq⟩
  · exact .inl h
  · refine .inr ⟨Nat.pos_of_ne_zero fun h0 => ?_, hlt, hfree, heq⟩
    -- block 0 is metadata, so its bit is set
    have h0' := (hs.inUse_iff 0 (h0 ▸ hlt)).mpr (.inl (nmeta_pos sb))
    rw [← h0, hfree] at h0'
    cases h0'

/-- Claiming a free block changes no block an inode holds. -/
theorem agree_claim {b : Nat} (hb : b < sb.size) (hfree : inUse sb s.blk b = false) :
    AgreeOnRefs sb s (claimBlk sb s.blk b) := by
  obtain ⟨hmeta, hnot⟩ := free_of_not_inUse hs hb hfree
  intro p y hy
  have hyb : y ≠ b := fun he => hnot p (he ▸ hy)
  have hyblk : y ≠ sb.bblock b := by
    have := (hs.ref_data p y hy).1
    have := bblock_lt_nmeta sb hb
    omega
  simp [claimBlk, markUsed, Function.update_of_ne hyb, Function.update_of_ne hyblk]

/-- The invariant after a free block `b` is claimed and recorded at the position `p0`, which held
nothing: the bits, positions, types and sizes are as the hypotheses say. -/
theorem AllocInv.link {s' : DiskState} {b : Nat} (hb : b < sb.size)
    (hfree : inUse sb s.blk b = false) (p0 : Pos)
    (hbits : ∀ x < sb.size, inUse sb s'.blk x = (decide (x = b) || inUse sb s.blk x))
    (hrefs : ∀ p x, Refs sb s' p x ↔ Refs sb s p x ∨ (p = p0 ∧ x = b))
    (htype : ∀ j, (s'.inode j).type = (s.inode j).type)
    (hsize : ∀ j, (s'.inode j).size = (s.inode j).size)
    (hfreeinode : ∀ j, (s.inode j).type = .free → (s'.inode j).addrs = (s.inode j).addrs) :
    AllocInv sb s' := by
  obtain ⟨hmeta, hnot⟩ := free_of_not_inUse hs hb hfree
  refine ⟨fun x hx => ?_, fun p q x hp hq => ?_, fun p x hp => ?_, fun j hj hty k => ?_,
    fun j hj hty => ?_⟩
  · -- the bit of `b` is set now, and `b` is held at `p0`
    rw [hbits x hx, Bool.or_eq_true, decide_eq_true_iff, hs.inUse_iff x hx]
    simp only [hrefs]
    constructor
    · rintro (rfl | h | ⟨p, hp⟩)
      · exact .inr ⟨p0, .inr ⟨rfl, rfl⟩⟩
      · exact .inl h
      · exact .inr ⟨p, .inl hp⟩
    · rintro (h | ⟨p, hp | ⟨-, rfl⟩⟩)
      · exact .inr (.inl h)
      · exact .inr (.inr ⟨p, hp⟩)
      · exact .inl rfl
  · rcases (hrefs p x).mp hp with hp | ⟨hp0, hxb⟩ <;> rcases (hrefs q x).mp hq with hq | ⟨hq0, hxb'⟩
    · exact hs.unique p q x hp hq
    · exact absurd (hxb' ▸ hp) (hnot p)
    · exact absurd (hxb ▸ hq) (hnot q)
    · exact hp0.trans hq0.symm
  · rcases (hrefs p x).mp hp with hp | ⟨-, rfl⟩
    · exact hs.ref_data p x hp
    · exact ⟨hmeta, hb⟩
  · rw [htype] at hty
    rw [hfreeinode j hty]
    exact hs.free_zero j hj hty k
  · rw [htype] at hty
    rw [hsize]
    exact hs.size_le j hj hty


/-- Writing a block that an inode holds at `data i bn` changes that block's bytes of the file and
nothing else. -/
theorem fileByte_update_data {a i bn : Nat} (ha : Refs sb s (.data i bn) a) (v : Nat → UInt8)
    {j : Nat} (hj : sb.HasInode j) (hty : (s.inode j).type ≠ .free) (o : Nat) :
    fileByte { s with blk := Function.update s.blk a v } j o =
      if j = i ∧ o / bSize = bn then v (o % bSize) else fileByte s j o := by
  -- `a` is held only at `data i bn`: it is no indirect block
  have hind : ∀ q, Refs sb s q a → q = .data i bn := fun q hq => hs.unique q _ a hq ha
  have hb := blockAddr_update_blk v
    (ind_ne_of_not_refs sb (fun h => Pos.noConfusion (hind _ h)) hj hty) (o / bSize)
  unfold fileByte
  rw [hb]
  by_cases hji : j = i ∧ o / bSize = bn
  · obtain ⟨rfl, hbn⟩ := hji
    have haddr : blockAddr s j (o / bSize) = a := hbn ▸ ha.2.2.2
    rw [haddr]
    simp [ha.2.2.1, hbn]
  · rw [if_neg hji]
    split
    · rfl
    · next hne =>
      have hne' : blockAddr s j (o / bSize) ≠ a := fun he => by
        have := hind (.data j (o / bSize)) ⟨hj, hty, he ▸ hne, he⟩
        simp only [Pos.data.injEq] at this
        exact hji this
      simp [Function.update_of_ne hne']

/-- Writing a block an inode holds keeps the invariant: it is no indirect block and no bitmap
block. -/
theorem AllocInv.update_data {a i bn : Nat} (ha : Refs sb s (.data i bn) a) (v : Nat → UInt8) :
    AllocInv sb { s with blk := Function.update s.blk a v } := by
  have hnot : ∀ j, ¬ Refs sb s (.ind j) a := fun j h => Pos.noConfusion (hs.unique _ _ a h ha)
  have hrefs := refs_update_blk sb v hnot
  have hmeta := (hs.ref_data _ a ha).1
  refine ⟨fun x hx => ?_, fun p q x hp hq => ?_, fun p x hp => ?_, hs.free_zero, hs.size_le⟩
  · simp only [hrefs]
    rw [inUse_update_data s.blk hmeta v hx]
    exact hs.inUse_iff x hx
  · exact hs.unique p q x ((hrefs p x).mp hp) ((hrefs q x).mp hq)
  · exact hs.ref_data p x ((hrefs p x).mp hp)

/-- Writing a block an inode holds keeps every file's blocks. -/
theorem NoHoles.update_data {a i bn : Nat} (hn : NoHoles sb s) (ha : Refs sb s (.data i bn) a)
    (v : Nat → UInt8) : NoHoles sb { s with blk := Function.update s.blk a v } := by
  intro j hj hty bn' hbn
  have hnot : ∀ j, ¬ Refs sb s (.ind j) a := fun j h => Pos.noConfusion (hs.unique _ _ a h ha)
  rw [blockAddr_update_blk v (ind_ne_of_not_refs sb (hnot j) hj hty)]
  exact hn j hj hty bn' hbn

end Inv

/-! ### Recording a block -/

theorem blockAddr_setAddr_direct (s : DiskState) {i bn : Nat} (h : bn < nDirect) (b j bn' : Nat) :
    blockAddr (s.setAddr i ⟨bn, by omega⟩ b) j bn' =
      if j = i ∧ bn' = bn then b else blockAddr s j bn' := by
  by_cases hj : j = i
  · subst hj
    unfold blockAddr
    by_cases hbn' : bn' < nDirect
    · rw [dif_pos hbn', dif_pos hbn', setAddr_addrs]
      by_cases he : bn' = bn
      · subst he
        simp
      · have hk : (⟨bn', by omega⟩ : Fin (nDirect + 1)) ≠ ⟨bn, by omega⟩ := by simp [he]
        simp [hk, he]
    · have hne : bn' ≠ bn := by omega
      have hlast : (Fin.last nDirect : Fin (nDirect + 1)) ≠ ⟨bn, by omega⟩ := by
        simp [Fin.ext_iff]; omega
      rw [dif_neg hbn', dif_neg hbn']
      simp only [Inode.ind, setAddr_addrs, if_neg hlast, setAddr_blk, hne, and_false, if_false]
      rfl
  · rw [if_neg (fun h => hj h.1)]
    simp only [blockAddr, Inode.ind, setAddr_inode_of_ne s _ b hj, setAddr_blk]
    rfl

/-- A new indirect block, still zero, holds no block. -/
theorem blockAddr_setAddr_ind {s : DiskState} {i c : Nat} (hind : (s.inode i).ind = 0)
    (hzero : s.blk c = fun _ => 0) (j bn : Nat) :
    blockAddr (s.setAddr i (Fin.last nDirect) c) j bn = blockAddr s j bn := by
  by_cases hj : j = i
  · subst hj
    have hget : get32 (fun _ => (0 : UInt8)) (4 * (bn - nDirect)) = 0 := by simp [get32]
    unfold blockAddr
    split
    · next h =>
      have hne : (⟨bn, by omega⟩ : Fin (nDirect + 1)) ≠ Fin.last nDirect := by
        simp [Fin.ext_iff]; omega
      simp [setAddr_addrs, hne]
    · have hind' : (s.inode j).addrs (Fin.last nDirect) = 0 := hind
      simp [Inode.ind, setAddr_addrs, hind', hzero, hget]
  · simp [blockAddr, setAddr_inode_of_ne s _ c hj]

theorem blockAddr_set32 {s : DiskState} {i bn : Nat} (hind : (s.inode i).ind ≠ 0)
    (h1 : nDirect ≤ bn) (h2 : bn < maxFile) {d : Nat} (hd : d < 2 ^ 32) {j : Nat}
    (hj : j = i ∨ (s.inode j).ind ≠ (s.inode i).ind) (bn' : Nat) :
    blockAddr { s with blk := Function.update s.blk (s.inode i).ind (set32 (s.blk (s.inode i).ind)
        (4 * (bn - nDirect)) d) } j bn' =
      if j = i ∧ bn' = bn then d else blockAddr s j bn' := by
  rcases hj with rfl | hj
  · unfold blockAddr
    by_cases hbn' : bn' < nDirect
    · have : bn' ≠ bn := by omega
      simp [hbn', this]
    · simp only [dif_neg hbn', Function.update_self, true_and]
      by_cases he : bn' = bn
      · subst he
        simp [h2, hind, get32_set32_same _ _ hd]
      · have hne : bn' - nDirect ≠ bn - nDirect := by omega
        simp [he, get32_set32_of_ne _ _ hne.symm]
  · have hji : j ≠ i := fun h => hj (h ▸ rfl)
    simp only [hji, false_and, if_false]
    exact blockAddr_update_blk _ (.inr hj) bn'


theorem setAddr_ind_of_ne (s : DiskState) (i j : Nat) {k : Fin (nDirect + 1)} (a : Nat)
    (hk : k ≠ Fin.last nDirect) : ((s.setAddr i k a).inode j).ind = (s.inode j).ind := by
  by_cases hj : j = i
  · subst hj
    simp [Inode.ind, setAddr_addrs, Ne.symm hk]
  · rw [setAddr_inode_of_ne s k a hj]

/-- The positions after `b` is recorded at `p0`, which held nothing, when every other position of
an allocated inode keeps its address. -/
theorem refs_link {s s' : DiskState} {p0 : Pos} {b : Nat} (hp0 : sb.HasInode p0.inum)
    (hty0 : (s.inode p0.inum).type ≠ .free) (h0 : refAt s p0 = 0) (hb : b ≠ 0)
    (htype : ∀ j, (s'.inode j).type = (s.inode j).type)
    (hf : ∀ p, sb.HasInode p.inum → (s.inode p.inum).type ≠ .free →
      refAt s' p = if p = p0 then b else refAt s p) (p : Pos) (x : Nat) :
    Refs sb s' p x ↔ Refs sb s p x ∨ (p = p0 ∧ x = b) := by
  constructor
  · rintro ⟨hp, hty, hx, hr⟩
    rw [htype] at hty
    rw [hf p hp hty] at hr
    split at hr
    · exact .inr ⟨‹_›, hr.symm⟩
    · exact .inl ⟨hp, hty, hx, hr⟩
  · rintro (⟨hp, hty, hx, hr⟩ | ⟨rfl, rfl⟩)
    · refine ⟨hp, (htype _).symm ▸ hty, hx, ?_⟩
      rw [hf p hp hty, if_neg]
      · exact hr
      · rintro rfl
        exact hx (hr.symm.trans h0)
    · exact ⟨hp0, (htype _).symm ▸ hty0, hb, by rw [hf _ hp0 hty0, if_pos rfl]⟩

/-! ### `bmap` -/

/-- What allocation leaves: the invariant, the same types and sizes, every position still holding
its block, and the same data in every allocated inode. -/
structure Grown (s s' : DiskState) : Prop where
  inv : AllocInv sb s'
  type_eq : ∀ j, (s'.inode j).type = (s.inode j).type
  size_eq : ∀ j, (s'.inode j).size = (s.inode j).size
  refs_mono : ∀ p x, Refs sb s p x → Refs sb s' p x
  fileByte_eq : ∀ j, sb.HasInode j → (s.inode j).type ≠ .free → ∀ o, fileByte s' j o = fileByte s j o

theorem Grown.refl {s : DiskState} (hs : AllocInv sb s) : Grown sb s s :=
  ⟨hs, fun _ => rfl, fun _ => rfl, fun _ _ h => h, fun _ _ _ _ => rfl⟩

theorem Grown.trans {s s' s'' : DiskState} (h1 : Grown sb s s') (h2 : Grown sb s' s'') :
    Grown sb s s'' where
  inv := h2.inv
  type_eq j := (h2.type_eq j).trans (h1.type_eq j)
  size_eq j := (h2.size_eq j).trans (h1.size_eq j)
  refs_mono p x h := h2.refs_mono p x (h1.refs_mono p x h)
  fileByte_eq j hj hty o := by
    rw [h2.fileByte_eq j hj ((h1.type_eq j).symm ▸ hty), h1.fileByte_eq j hj hty]


/-- Every block `s'` holds at a position of an inode other than `i` was held there in `s`: what `s'`
holds and `s` did not, inode `i` holds. -/
def NewRefsOf (s s' : DiskState) (i : Nat) : Prop :=
  ∀ p x, Refs sb s' p x → p.inum ≠ i → Refs sb s p x

theorem NewRefsOf.refl (s : DiskState) (i : Nat) : NewRefsOf sb s s i := fun _ _ h _ => h

theorem NewRefsOf.trans {s s' s'' : DiskState} {i : Nat} (h1 : NewRefsOf sb s s' i)
    (h2 : NewRefsOf sb s' s'' i) : NewRefsOf sb s s'' i := fun p x h hp => h1 p x (h2 p x h hp) hp

/-- A step whose only new position is `p0`. -/
theorem NewRefsOf.of_at {s s' : DiskState} {p0 : Pos}
    (h : ∀ p x, Refs sb s' p x → Refs sb s p x ∨ p = p0) : NewRefsOf sb s s' p0.inum :=
  fun p x hp hne => (h p x hp).resolve_right fun he => hne (he ▸ rfl)

/-- Allocation keeps every file's blocks. -/
theorem NoHoles.grown {s s' : DiskState} (hn : NoHoles sb s) (hg : Grown sb s s') : NoHoles sb s' := by
  intro j hj hty bn hbn
  rw [hg.type_eq] at hty
  rw [hg.size_eq] at hbn
  have hr := hg.refs_mono (.data j bn) _ ⟨hj, hty, hn j hj hty bn hbn, rfl⟩
  rw [hr.blockAddr_eq]
  exact hn j hj hty bn hbn

theorem refAt_of_agree {s : DiskState} {blk' : Nat → Nat → UInt8} (h : AgreeOnRefs sb s blk')
    {p : Pos} (hp : sb.HasInode p.inum) (hty : (s.inode p.inum).type ≠ .free) :
    refAt { s with blk := blk' } p = refAt s p := by
  cases p with
  | data j bn => exact blockAddr_of_agree h hp hty bn
  | ind j => rfl

/-- What a `record` step of `allocThen` must do with the claimed block `b`: put it at `p0` and
change nothing else that the invariant or the data of an allocated inode reads. -/
structure RecordsAt (s s' : DiskState) (p0 : Pos) (b : Nat) : Prop where
  type_eq : ∀ j, (s'.inode j).type = (s.inode j).type
  size_eq : ∀ j, (s'.inode j).size = (s.inode j).size
  free_addrs : ∀ j, (s.inode j).type = .free → (s'.inode j).addrs = (s.inode j).addrs
  refAt_eq : ∀ p, sb.HasInode p.inum → (s.inode p.inum).type ≠ .free →
    refAt s' p = if p = p0 then b else refAt s p
  inUse_eq : ∀ x < sb.size, inUse sb s'.blk x = inUse sb s.blk x
  fileByte_eq : ∀ j, sb.HasInode j → (s.inode j).type ≠ .free → ∀ o, fileByte s' j o = fileByte s j o

/-- `allocThen` with a `record` that puts the new block at the empty position `p0` of an allocated
inode: it fails only on a full disk, which it leaves as it is, or hands out a block that `p0` then
holds. -/
theorem allocThen_spec {s : DiskState} (hs : AllocInv sb s) (record : DiskState → Nat → DiskState)
    {p0 : Pos} (hp0 : sb.HasInode p0.inum) (hty0 : (s.inode p0.inum).type ≠ .free)
    (h0 : refAt s p0 = 0)
    (hrec : ∀ b, b < sb.size → inUse sb s.blk b = false → 0 < b →
      RecordsAt sb { s with blk := claimBlk sb s.blk b } (record { s with blk := claimBlk sb s.blk b } b) p0 b) :
    ((allocThen sb s record).2 = 0 ∧ (allocThen sb s record).1 = s ∧
        ∀ x < sb.size, inUse sb s.blk x = true) ∨
      (0 < (allocThen sb s record).2 ∧ Grown sb s (allocThen sb s record).1 ∧
        refAt (allocThen sb s record).1 p0 = (allocThen sb s record).2 ∧
        NewRefsOf sb s (allocThen sb s record).1 p0.inum) := by
  unfold allocThen
  rcases balloc_cases hs with ⟨h0', hs', hfull⟩ | ⟨hpos, hlt, hfree, heq⟩
  · rw [if_pos h0']
    exact .inl ⟨h0', hs', hfull⟩
  · right
    rw [if_neg (Nat.pos_iff_ne_zero.mp hpos), heq]
    set b := (balloc sb s).2
    set s1 : DiskState := { s with blk := claimBlk sb s.blk b }
    have hmeta := (free_of_not_inUse hs hlt hfree).1
    have hagree := agree_claim hs hlt hfree
    have R := hrec b hlt hfree hpos
    -- first the claim, which no position sees, then the record at `p0`
    have h01 : refAt s1 p0 = 0 := (refAt_of_agree sb hagree hp0 hty0).trans h0
    have hrefs : ∀ p x, Refs sb (record s1 b) p x ↔ Refs sb s p x ∨ (p = p0 ∧ x = b) := by
      intro p x
      rw [@refs_link sb s1 (record s1 b) p0 b hp0 hty0 h01 (Nat.pos_iff_ne_zero.mp hpos) R.type_eq
        R.refAt_eq p x,
        refs_of_agree hagree]
    refine ⟨hpos, ⟨?_, R.type_eq, R.size_eq, fun p x h => (hrefs p x).mpr (.inl h), ?_⟩, ?_⟩
    · refine hs.link hlt hfree p0 (fun x hx => ?_) hrefs R.type_eq R.size_eq R.free_addrs
      rw [R.inUse_eq x hx]
      exact inUse_claimBlk sb s.blk hmeta hx
    · intro j hj hty o
      rw [R.fileByte_eq j hj hty o]
      exact fileByte_of_agree hagree hj hty o
    · exact ⟨by rw [R.refAt_eq p0 hp0 hty0, if_pos rfl],
        NewRefsOf.of_at sb fun p x h => ((hrefs p x).mp h).imp_right And.left⟩


/-- The data of inode `j` when its block `bn` goes from none to a zeroed block. -/
theorem fileByte_of_blockAddr {s s' : DiskState} {i j bn b : Nat}
    (hba : ∀ bn', blockAddr s' j bn' = if j = i ∧ bn' = bn then b else blockAddr s j bn')
    (h0 : blockAddr s i bn = 0) (hzero : s'.blk b = fun _ => 0)
    (hblk : ∀ bn', blockAddr s j bn' ≠ 0 → s'.blk (blockAddr s j bn') = s.blk (blockAddr s j bn'))
    (o : Nat) : fileByte s' j o = fileByte s j o := by
  unfold fileByte
  rw [hba]
  by_cases hji : j = i ∧ o / bSize = bn
  · obtain ⟨rfl, hbn⟩ := hji
    simp [hbn, h0, hzero]
  · rw [if_neg hji]
    split
    · rfl
    · next hne => rw [hblk _ hne]

theorem recordsAt_direct {s : DiskState} {i bn b : Nat} (h : bn < nDirect)
    (hty : (s.inode i).type ≠ .free) (h0 : blockAddr s i bn = 0) (hzero : s.blk b = fun _ => 0) :
    RecordsAt sb s (s.setAddr i ⟨bn, by omega⟩ b) (.data i bn) b := by
  refine ⟨fun j => setAddr_type s i j _ b, fun j => setAddr_size s i j _ b, fun j hj => ?_, fun p _ _ => ?_,
    fun _ _ => rfl, fun j _ _ o => ?_⟩
  · have hji : j ≠ i := fun he => hty (he ▸ hj)
    rw [setAddr_inode_of_ne s _ b hji]
  · cases p with
    | data j bn' => simp [refAt, blockAddr_setAddr_direct s h]
    | ind j =>
      have hk : (⟨bn, by omega⟩ : Fin (nDirect + 1)) ≠ Fin.last nDirect := by
        simp [Fin.ext_iff]; omega
      simp [refAt, setAddr_ind_of_ne s i j b hk]
  · exact fileByte_of_blockAddr (blockAddr_setAddr_direct s h b j) h0 hzero (fun _ _ => rfl) o

theorem recordsAt_ind {s : DiskState} {i c : Nat} (hty : (s.inode i).type ≠ .free)
    (hind : (s.inode i).ind = 0) (hzero : s.blk c = fun _ => 0) :
    RecordsAt sb s (s.setAddr i (Fin.last nDirect) c) (.ind i) c := by
  refine ⟨fun j => setAddr_type s i j _ c, fun j => setAddr_size s i j _ c, fun j hj => ?_, fun p _ _ => ?_,
    fun _ _ => rfl, fun j _ _ o => ?_⟩
  · have hji : j ≠ i := fun he => hty (he ▸ hj)
    rw [setAddr_inode_of_ne s _ c hji]
  · cases p with
    | data j bn => simp [refAt, blockAddr_setAddr_ind hind hzero]
    | ind j =>
      by_cases hji : j = i
      · subst hji
        simp [refAt, Inode.ind, setAddr_addrs]
      · simp [refAt, setAddr_inode_of_ne s _ c hji, hji]
  · simp only [fileByte, blockAddr_setAddr_ind hind hzero, setAddr_blk]


/-- Recording the claimed block `b` as entry `bn - NDIRECT` of inode `i`'s indirect block, which no
other inode shares. -/
theorem recordsAt_entry {s : DiskState} (hs : AllocInv sb s) {i bn b ind : Nat}
    (hi : sb.HasInode i) (hty : (s.inode i).type ≠ .free) (hind' : (s.inode i).ind = ind)
    (hind : ind ≠ 0) (h1 : nDirect ≤ bn) (h2 : bn < maxFile) (h0 : blockAddr s i bn = 0)
    (hb : b < sb.size) (hfree : inUse sb s.blk b = false) :
    RecordsAt sb { s with blk := claimBlk sb s.blk b }
      { s with blk := Function.update (claimBlk sb s.blk b) ind (set32
        (claimBlk sb s.blk b ind) (4 * (bn - nDirect)) b) } (.data i bn) b := by
  subst hind'
  obtain ⟨hmeta, hnot⟩ := free_of_not_inUse hs hb hfree
  have hagree := agree_claim hs hb hfree
  have hrefind : Refs sb s (.ind i) (s.inode i).ind := ⟨hi, hty, hind, rfl⟩
  have hbind : b ≠ (s.inode i).ind := fun he => hnot _ (he ▸ hrefind)
  -- no other allocated inode has this indirect block
  have hother : ∀ j, sb.HasInode j → (s.inode j).type ≠ .free →
      j = i ∨ (s.inode j).ind ≠ (s.inode i).ind := by
    intro j hj htyj
    by_cases he : (s.inode j).ind = (s.inode i).ind
    · have := hs.unique _ _ _ (⟨hj, htyj, hind, he⟩ : Refs sb s (.ind j) _) hrefind
      exact .inl (Pos.ind.inj this)
    · exact .inr he
  have hb32 : b < 2 ^ 32 := Nat.lt_trans hb sb.size_lt
  set s1 : DiskState := { s with blk := claimBlk sb s.blk b }
  have hset : ∀ j, sb.HasInode j → (s.inode j).type ≠ .free → ∀ bn', blockAddr { s1 with
      blk := Function.update s1.blk (s1.inode i).ind (set32 (s1.blk (s1.inode i).ind)
        (4 * (bn - nDirect)) b) } j bn' = if j = i ∧ bn' = bn then b else blockAddr s1 j bn' :=
    fun j hj htyj => @blockAddr_set32 s1 i bn hind h1 h2 b hb32 j (hother j hj htyj)
  refine ⟨fun _ => rfl, fun _ => rfl, fun _ _ => rfl, fun p hp htyp => ?_, fun x hx => ?_,
    fun j hj htyj o => ?_⟩
  · cases p with
    | data j bn' =>
      simp only [refAt, Pos.data.injEq]
      exact hset j hp htyp bn'
    | ind j =>
      rw [if_neg (fun h => Pos.noConfusion h)]
      rfl
  · exact inUse_update_data _ (hs.ref_data _ _ hrefind).1 _ hx
  · refine fileByte_of_blockAddr (hset j hj htyj) ((blockAddr_of_agree hagree hi hty bn).trans h0) ?_ ?_ o
    · simp [s1, Function.update_of_ne hbind]
    · intro bn' hne
      rw [blockAddr_of_agree hagree hj htyj] at hne ⊢
      have hy : Refs sb s (.data j bn') (blockAddr s j bn') := ⟨hj, htyj, hne, rfl⟩
      have hyind : blockAddr s j bn' ≠ (s.inode i).ind := fun he =>
        Pos.noConfusion (hs.unique _ _ _ hy (he ▸ hrefind))
      exact Function.update_of_ne hyind _ _


/-- What `bmap s i bn` returning `(s', a)` guarantees: allocation only, the block `a` at
`data i bn` unless the disk is full, and nothing new when the block was there. -/
def BmapPost (s : DiskState) (i bn : Nat) (s' : DiskState) (a : Nat) : Prop :=
  Grown sb s s' ∧ (a = 0 → ∀ x < sb.size, inUse sb s'.blk x = true) ∧
    (a ≠ 0 → Refs sb s' (.data i bn) a) ∧ (blockAddr s i bn ≠ 0 → s' = s ∧ a = blockAddr s i bn) ∧
    NewRefsOf sb s s' i

section Bmap

variable {sb} {s : DiskState} (hs : AllocInv sb s) {i : Nat} (hi : sb.HasInode i)
  (hty : (s.inode i).type ≠ .free)
include hs hi hty

/-- `bmap` finds the block where the inode has it. -/
theorem bmapPost_found {s' : DiskState} (hg : Grown sb s s') (hnew : NewRefsOf sb s s' i) {bn : Nat}
    (hba : blockAddr s' i bn ≠ 0) (heq : blockAddr s i bn ≠ 0 → s' = s) :
    BmapPost sb s i bn s' (blockAddr s' i bn) := by
  refine ⟨hg, fun h => absurd h hba, fun _ => ⟨hi, (hg.type_eq i).symm ▸ hty, hba, rfl⟩, fun h => ?_,
    hnew⟩
  obtain rfl := heq h
  exact ⟨rfl, rfl⟩


/-- `bmap` allocates the block where the inode has none. -/
theorem bmapPost_alloc {bn : Nat} (h0 : blockAddr s i bn = 0) {r : DiskState × Nat}
    (hr : (r.2 = 0 ∧ r.1 = s ∧ ∀ x < sb.size, inUse sb s.blk x = true) ∨
      (0 < r.2 ∧ Grown sb s r.1 ∧ refAt r.1 (.data i bn) = r.2 ∧ NewRefsOf sb s r.1 (Pos.data i bn).inum)) :
    BmapPost sb s i bn r.1 r.2 := by
  rcases hr with ⟨h2, h1, hfull⟩ | ⟨hpos, hg, href, hnew⟩
  · rw [h1]
    exact ⟨Grown.refl sb hs, fun _ => hfull, fun h => absurd h2 h, fun h => absurd h0 h,
      NewRefsOf.refl sb s i⟩
  · have hne := Nat.pos_iff_ne_zero.mp hpos
    exact ⟨hg, fun h => absurd h hne, fun _ => ⟨hi, (hg.type_eq i).symm ▸ hty, hne, href⟩,
      fun h => absurd h0 h, hnew⟩

omit hs in
/-- What `bmap` guarantees from a grown state holds from the state before. -/
theorem BmapPost.of_grown {s1 s' : DiskState} {bn a : Nat} (hg : Grown sb s s1)
    (hnew : NewRefsOf sb s s1 i) (h0 : blockAddr s1 i bn = 0) (hp : BmapPost sb s1 i bn s' a) :
    BmapPost sb s i bn s' a := by
  refine ⟨hg.trans sb hp.1, hp.2.1, hp.2.2.1, fun hne => ?_, hnew.trans sb hp.2.2.2.2⟩
  have := hg.refs_mono (.data i bn) _ ⟨hi, hty, hne, rfl⟩
  exact absurd (this.2.2.2.symm.trans h0) hne

theorem loadIndirect_spec :
    ((loadIndirect sb s i).2 = 0 ∧ (loadIndirect sb s i).1 = s ∧ (s.inode i).ind = 0 ∧
        ∀ x < sb.size, inUse sb s.blk x = true) ∨
      (0 < (loadIndirect sb s i).2 ∧ Grown sb s (loadIndirect sb s i).1 ∧
        NewRefsOf sb s (loadIndirect sb s i).1 i ∧
        ((loadIndirect sb s i).1.inode i).ind = (loadIndirect sb s i).2 ∧
        ((s.inode i).ind ≠ 0 → (loadIndirect sb s i).1 = s)) := by
  unfold loadIndirect
  split
  · next hind =>
    exact .inr ⟨Nat.pos_of_ne_zero hind, Grown.refl sb hs, NewRefsOf.refl sb s i, rfl, fun _ => rfl⟩
  · next hind =>
    have hind' : (s.inode i).ind = 0 := not_not.mp hind
    rcases allocThen_spec sb hs (fun t a => t.setAddr i (Fin.last nDirect) a)
      (show sb.HasInode (Pos.ind i).inum from hi) hty
      (show refAt s (.ind i) = 0 from hind')
      (fun b _ _ _ => @recordsAt_ind sb { s with blk := claimBlk sb s.blk b } i b hty hind'
        (claimBlk_self sb s.blk b)) with
      ⟨h2, h1, hfull⟩ | ⟨hpos, hg, href, hnew⟩
    · exact .inl ⟨h2, h1, hind', hfull⟩
    · exact .inr ⟨hpos, hg, hnew, href, fun h => absurd hind' h⟩

/-- `bmap` of block `bn < MAXFILE` of an allocated inode does not panic: it returns the block the
inode holds there, allocating it (and the indirect block) when there is none, or `0` on a full
disk. -/
theorem bmap_spec {bn : Nat} (hbn : bn < maxFile) :
    ∃ s' a, bmap sb s i bn = .ok (s', a) ∧ BmapPost sb s i bn s' a := by
  unfold bmap
  by_cases h : bn < nDirect
  · rw [dif_pos h]
    have hba : blockAddr s i bn = (s.inode i).addrs ⟨bn, by omega⟩ := by simp [blockAddr, h]
    split
    · next hne =>
      refine ⟨_, _, rfl, ?_⟩
      rw [← hba]
      exact bmapPost_found hs hi hty (Grown.refl sb hs) (NewRefsOf.refl sb s i) (hba ▸ hne)
        (fun _ => rfl)
    · next h0 =>
      have h0' : blockAddr s i bn = 0 := hba.trans (not_not.mp h0)
      have h0c : ∀ b, blockAddr { s with blk := claimBlk sb s.blk b } i bn = 0 := fun b => by
        simp only [blockAddr, dif_pos h] at h0' ⊢
        exact h0'
      let rec_ := fun (t : DiskState) a => t.setAddr i ⟨bn, by omega⟩ a
      exact ⟨(allocThen sb s rec_).1, (allocThen sb s rec_).2, rfl, bmapPost_alloc hs hi hty h0'
        (allocThen_spec sb hs rec_ (show sb.HasInode (Pos.data i bn).inum from hi) hty
          (show refAt s (.data i bn) = 0 from h0')
          (fun b _ _ _ => @recordsAt_direct sb { s with blk := claimBlk sb s.blk b } i bn b h hty
            (h0c b) (claimBlk_self sb s.blk b)))⟩
  · have h1 : nDirect ≤ bn := Nat.not_lt.mp h
    rw [dif_neg h, if_pos (by unfold maxFile at hbn; omega)]
    have hspec := loadIndirect_spec hs hi hty
    rcases hl : loadIndirect sb s i with ⟨t, ind⟩
    rw [hl] at hspec
    rcases hspec with ⟨hr0, hr1, hind, hfull⟩ | ⟨hpos, hg, hnew, hind, hsame⟩
    · -- no indirect block could be had
      simp only at hr0 hr1
      subst hr0 hr1
      have h0 : blockAddr t i bn = 0 := by simp [blockAddr, h, hind]
      exact ⟨t, 0, rfl, Grown.refl sb hs, fun _ => hfull, fun h => absurd rfl h, fun h => absurd h0 h,
        NewRefsOf.refl sb t i⟩
    · simp only at hpos hg hnew hind hsame
      obtain ⟨n, rfl⟩ := Nat.exists_eq_succ_of_ne_zero (Nat.pos_iff_ne_zero.mp hpos)
      have hs2 := hg.inv
      have hty2 : (t.inode i).type ≠ .free := (hg.type_eq i).symm ▸ hty
      -- the entry read is block `bn` of the inode in the grown state
      have hentry : get32 (t.blk (n + 1)) (4 * (bn - nDirect)) = blockAddr t i bn := by
        simp [blockAddr, h, hbn, hind]
      simp only
      split
      · next ha =>
        refine ⟨t, _, rfl, ?_⟩
        rw [hentry]
        refine bmapPost_found hs hi hty hg hnew (hentry ▸ ha) (fun hne => hsame fun h0 => hne ?_)
        simp [blockAddr, h, h0]
      · next ha =>
        have h0 : blockAddr t i bn = 0 := hentry ▸ not_not.mp ha
        let rec_ := fun (u : DiskState) a => { u with blk := Function.update u.blk (n + 1) (set32
          (u.blk (n + 1)) (4 * (bn - nDirect)) a) }
        refine ⟨(allocThen sb t rec_).1, (allocThen sb t rec_).2, rfl,
          BmapPost.of_grown hi hty hg hnew h0 (bmapPost_alloc hs2 hi hty2 h0
            (allocThen_spec sb hs2 rec_ (show sb.HasInode (Pos.data i bn).inum from hi) hty2
              (show refAt t (.data i bn) = 0 from h0)
              fun b hb hfree _ => recordsAt_entry sb hs2 hi hty2 hind (by omega) h1 hbn h0 hb hfree))⟩

end Bmap

/-! ### `itrunc` -/


theorem bfree_of_inUse {s : DiskState} {b : Nat} (h : inUse sb s.blk b = true) :
    bfree sb s b = .ok { s with blk := markFree sb s.blk b } := by
  simp [bfree, h, pure, Except.pure]

/-- Clearing bits changes only bitmap blocks. -/
theorem markFree_of_meta {d : Nat → Nat → UInt8} {b y : Nat} (hb : b < sb.size) (hy : sb.nmeta ≤ y) :
    markFree sb d b y = d y := by
  have := bblock_lt_nmeta sb hb
  simp [markFree, Function.update_of_ne (show y ≠ sb.bblock b by omega)]

/-- The direct-block loop of `itrunc` frees the distinct blocks the listed entries of `addrs` hold
and clears those entries. -/
theorem freeDirect_spec {i : Nat} : ∀ (ks : List (Fin nDirect)) (t : DiskState), ks.Nodup →
    (∀ k ∈ ks, (t.inode i).addrs k.castSucc ≠ 0 → (t.inode i).addrs k.castSucc < sb.size ∧
      sb.nmeta ≤ (t.inode i).addrs k.castSucc ∧ inUse sb t.blk ((t.inode i).addrs k.castSucc) = true) →
    ks.Pairwise (fun k k' => (t.inode i).addrs k.castSucc ≠ 0 →
      (t.inode i).addrs k.castSucc ≠ (t.inode i).addrs k'.castSucc) →
    ∃ t', freeDirect sb i ks t = .ok t' ∧ (∀ j, j ≠ i → t'.inode j = t.inode j) ∧
      (t'.inode i).type = (t.inode i).type ∧ (t'.inode i).size = (t.inode i).size ∧
      (∀ k', (t'.inode i).addrs k' =
        if ∃ k ∈ ks, k' = k.castSucc then 0 else (t.inode i).addrs k') ∧
      (∀ y, sb.nmeta ≤ y → t'.blk y = t.blk y) ∧
      (∀ x < sb.size, inUse sb t'.blk x = true ↔ inUse sb t.blk x = true ∧
        ¬ ∃ k ∈ ks, (t.inode i).addrs k.castSucc ≠ 0 ∧ (t.inode i).addrs k.castSucc = x)
  | [], t, _, _, _ => ⟨t, rfl, fun _ _ => rfl, rfl, rfl, fun _ => by simp, fun _ _ => rfl,
      fun _ _ => by simp⟩
  | k :: ks, t, hnd, huse, hpw => by
    obtain ⟨hk, hnd⟩ := List.nodup_cons.mp hnd
    obtain ⟨hpk, hpw⟩ := List.pairwise_cons.mp hpw
    by_cases ha : (t.inode i).addrs k.castSucc ≠ 0
    · obtain ⟨hlt, hmeta, hin⟩ := huse k (by simp) ha
      set a := (t.inode i).addrs k.castSucc
      set t2 := ({ t with blk := markFree sb t.blk a } : DiskState).setAddr i k.castSucc 0
      -- the other entries are untouched by clearing entry `k`
      have hsame : ∀ k' ∈ ks, (t2.inode i).addrs k'.castSucc = (t.inode i).addrs k'.castSucc := by
        intro k' hk'
        have hne : k'.castSucc ≠ k.castSucc := fun h => hk (Fin.castSucc_inj.mp h ▸ hk')
        simp [t2, setAddr_addrs, hne]
      have hbit : ∀ x < sb.size, inUse sb t2.blk x = (!decide (x = a) && inUse sb t.blk x) :=
        fun x _ => inUse_markFree sb t.blk a x
      obtain ⟨t', hrun, hj, hty, hsz, haddr, hblk, huse'⟩ := freeDirect_spec ks t2 hnd
        (fun k' hk' hne => by
          rw [hsame k' hk'] at hne ⊢
          obtain ⟨h1, h2, h3⟩ := huse k' (List.mem_cons_of_mem _ hk') hne
          refine ⟨h1, h2, ?_⟩
          rw [hbit _ h1, h3, Bool.and_true, Bool.not_eq_true', decide_eq_false_iff_not]
          exact fun h => hpk k' hk' ha h.symm)
        (by
          refine hpw.imp_of_mem fun {k1 k2} hk1 hk2 h => ?_
          rw [hsame k1 hk1, hsame k2 hk2]
          exact h)
      refine ⟨t', ?_, fun j hji => ?_, ?_, ?_, fun k' => ?_, fun y hy => ?_, fun x hx => ?_⟩
      · simp only [freeDirect]
        rw [if_pos ha, bfree_of_inUse sb hin]
        exact hrun
      · rw [hj j hji, setAddr_inode_of_ne _ _ _ hji]
      · rw [hty, setAddr_type]
      · rw [hsz, setAddr_size]
      · rw [haddr k']
        by_cases hk' : k' = k.castSucc
        · subst hk'
          simp [t2, setAddr_addrs]
        · by_cases hex : ∃ k'' ∈ ks, k' = k''.castSucc
          · simp [hex]
          · simp [hex, t2, setAddr_addrs, hk']
      · rw [hblk y hy]
        exact markFree_of_meta sb hlt hy
      · rw [huse' x hx, hbit x hx]
        simp only [Bool.and_eq_true, Bool.not_eq_true', decide_eq_false_iff_not, List.mem_cons,
          exists_eq_or_imp]
        constructor
        · rintro ⟨⟨hxa, hin⟩, hno⟩
          refine ⟨hin, ?_⟩
          rintro (⟨-, h⟩ | ⟨k', hk', hne, h⟩)
          · exact hxa h.symm
          · exact hno ⟨k', hk', (hsame k' hk').symm ▸ hne, (hsame k' hk').symm ▸ h⟩
        · rintro ⟨hin, hno⟩
          refine ⟨⟨fun h => hno (.inl ⟨ha, h.symm⟩), hin⟩, ?_⟩
          rintro ⟨k', hk', hne, h⟩
          exact hno (.inr ⟨k', hk', hsame k' hk' ▸ hne, hsame k' hk' ▸ h⟩)
    · have ha' : (t.inode i).addrs k.castSucc = 0 := not_not.mp ha
      obtain ⟨t', hrun, hj, hty, hsz, haddr, hblk, huse'⟩ := freeDirect_spec ks t hnd
        (fun k' hk' => huse k' (List.mem_cons_of_mem _ hk')) hpw
      refine ⟨t', ?_, hj, hty, hsz, fun k' => ?_, hblk, fun x hx => ?_⟩
      · simp only [freeDirect, if_neg ha]
        exact hrun
      · rw [haddr k']
        by_cases hk' : k' = k.castSucc
        · subst hk'
          simp [ha']
        · simp [List.mem_cons, hk']
      · rw [huse' x hx]
        simp [ha']


/-- The indirect loop of `itrunc` frees the distinct blocks that the listed entries of block `ind`
hold; the indirect block itself is a data block, which no bit clearing touches. -/
theorem freeIndirect_spec {ind : Nat} (hind : sb.nmeta ≤ ind) : ∀ (js : List Nat) (t : DiskState),
    (∀ j ∈ js, get32 (t.blk ind) (4 * j) ≠ 0 → get32 (t.blk ind) (4 * j) < sb.size ∧
      inUse sb t.blk (get32 (t.blk ind) (4 * j)) = true) →
    js.Pairwise (fun j j' => get32 (t.blk ind) (4 * j) ≠ 0 →
      get32 (t.blk ind) (4 * j) ≠ get32 (t.blk ind) (4 * j')) →
    ∃ t', freeIndirect sb ind js t = .ok t' ∧ t'.inode = t.inode ∧
      (∀ y, sb.nmeta ≤ y → t'.blk y = t.blk y) ∧
      (∀ x < sb.size, inUse sb t'.blk x = true ↔ inUse sb t.blk x = true ∧
        ¬ ∃ j ∈ js, get32 (t.blk ind) (4 * j) ≠ 0 ∧ get32 (t.blk ind) (4 * j) = x)
  | [], t, _, _ => ⟨t, rfl, rfl, fun _ _ => rfl, fun _ _ => by simp⟩
  | j :: js, t, huse, hpw => by
    obtain ⟨hpj, hpw⟩ := List.pairwise_cons.mp hpw
    by_cases he : get32 (t.blk ind) (4 * j) ≠ 0
    · obtain ⟨hlt, hin⟩ := huse j (by simp) he
      set e := get32 (t.blk ind) (4 * j)
      set t1 : DiskState := { t with blk := markFree sb t.blk e }
      have hind1 : t1.blk ind = t.blk ind := markFree_of_meta sb hlt hind
      obtain ⟨t', hrun, hino, hblk, huse'⟩ := freeIndirect_spec hind js t1
        (fun j' hj' hne => by
          rw [hind1] at hne ⊢
          obtain ⟨h1, h2⟩ := huse j' (List.mem_cons_of_mem _ hj') hne
          refine ⟨h1, ?_⟩
          rw [inUse_markFree, h2, Bool.and_true, Bool.not_eq_true', decide_eq_false_iff_not]
          exact fun h => hpj j' hj' he h.symm)
        (by rw [hind1]; exact hpw)
      refine ⟨t', ?_, hino, fun y hy => ?_, fun x hx => ?_⟩
      · simp only [freeIndirect]
        rw [if_pos he, bfree_of_inUse sb hin]
        exact hrun
      · rw [hblk y hy]
        exact markFree_of_meta sb hlt hy
      · rw [huse' x hx, hind1, inUse_markFree]
        simp only [Bool.and_eq_true, Bool.not_eq_true', decide_eq_false_iff_not, List.mem_cons,
          exists_eq_or_imp]
        constructor
        · rintro ⟨⟨hxe, hin⟩, hno⟩
          exact ⟨hin, fun h => h.elim (fun h => hxe h.2.symm) hno⟩
        · rintro ⟨hin, hno⟩
          exact ⟨⟨fun h => hno (.inl ⟨he, h.symm⟩), hin⟩, fun h => hno (.inr h)⟩
    · have he' : get32 (t.blk ind) (4 * j) = 0 := not_not.mp he
      obtain ⟨t', hrun, hino, hblk, huse'⟩ := freeIndirect_spec hind js t
        (fun j' hj' => huse j' (List.mem_cons_of_mem _ hj')) hpw
      refine ⟨t', ?_, hino, hblk, fun x hx => ?_⟩
      · simp only [freeIndirect]
        rw [if_neg he]
        exact hrun
      · rw [huse' x hx]
        simp [he']


/-- The blocks an inode holds: those in its direct entries, in the entries of its indirect block,
and the indirect block itself. -/
theorem refs_inode_iff {s : DiskState} {i x : Nat} (hi : sb.HasInode i)
    (hty : (s.inode i).type ≠ .free) :
    (∃ p, p.inum = i ∧ Refs sb s p x) ↔ x ≠ 0 ∧
      ((∃ k : Fin nDirect, (s.inode i).addrs k.castSucc = x) ∨
        ((s.inode i).ind ≠ 0 ∧ ∃ j < nIndirect, get32 (s.blk (s.inode i).ind) (4 * j) = x) ∨
        (s.inode i).ind = x) := by
  constructor
  · rintro ⟨p, rfl, -, -, hx, hr⟩
    refine ⟨hx, ?_⟩
    cases p with
    | ind j => exact .inr (.inr hr)
    | data j bn =>
      simp only [refAt, blockAddr] at hr
      split at hr
      · next h => exact .inl ⟨⟨bn, h⟩, hr⟩
      · next h =>
        split at hr
        · next h' =>
          refine .inr (.inl ⟨h'.2, bn - nDirect, ?_, hr⟩)
          have := h'.1
          unfold maxFile at this
          omega
        · exact absurd hr.symm hx
  · rintro ⟨hx, ⟨k, hk⟩ | ⟨hind, j, hj, he⟩ | hind⟩
    · refine ⟨.data i k, rfl, hi, hty, hx, ?_⟩
      simp [refAt, blockAddr, k.isLt, ← hk]
      rfl
    · refine ⟨.data i (nDirect + j), rfl, hi, hty, hx, ?_⟩
      have hlt : nDirect + j < maxFile := by unfold maxFile; omega
      simp [refAt, blockAddr, hlt, hind, he]
    · exact ⟨.ind i, rfl, hi, hty, hx, hind⟩


/-- What the indirect part of `itrunc` needs: the indirect block and its nonzero entries are
distinct blocks of the image whose bits are set. -/
def IndirectFreeable (t : DiskState) (i : Nat) : Prop :=
  (t.inode i).ind ≠ 0 → sb.nmeta ≤ (t.inode i).ind ∧ (t.inode i).ind < sb.size ∧
    inUse sb t.blk (t.inode i).ind = true ∧
    (∀ j ∈ List.range nIndirect, get32 (t.blk (t.inode i).ind) (4 * j) ≠ 0 →
      get32 (t.blk (t.inode i).ind) (4 * j) < sb.size ∧
      inUse sb t.blk (get32 (t.blk (t.inode i).ind) (4 * j)) = true ∧
      get32 (t.blk (t.inode i).ind) (4 * j) ≠ (t.inode i).ind) ∧
    (List.range nIndirect).Pairwise (fun j j' => get32 (t.blk (t.inode i).ind) (4 * j) ≠ 0 →
      get32 (t.blk (t.inode i).ind) (4 * j) ≠ get32 (t.blk (t.inode i).ind) (4 * j'))

/-- The indirect part of `itrunc` frees the blocks the indirect block lists and the indirect block
itself, and clears `addrs[NDIRECT]`. -/
theorem truncIndirect_spec {t : DiskState} {i : Nat} (hpre : IndirectFreeable sb t i) :
    ∃ t', truncIndirect sb t i = .ok t' ∧ (∀ j, j ≠ i → t'.inode j = t.inode j) ∧
      (t'.inode i).type = (t.inode i).type ∧ (t'.inode i).size = (t.inode i).size ∧
      (t'.inode i).ind = 0 ∧
      (∀ k : Fin nDirect, (t'.inode i).addrs k.castSucc = (t.inode i).addrs k.castSucc) ∧
      (∀ y, sb.nmeta ≤ y → t'.blk y = t.blk y) ∧
      (∀ x < sb.size, inUse sb t'.blk x = true ↔ inUse sb t.blk x = true ∧
        ¬ ((t.inode i).ind ≠ 0 ∧ ((t.inode i).ind = x ∨ ∃ j ∈ List.range nIndirect,
          get32 (t.blk (t.inode i).ind) (4 * j) ≠ 0 ∧ get32 (t.blk (t.inode i).ind) (4 * j) = x))) := by
  by_cases hind : (t.inode i).ind ≠ 0
  · obtain ⟨hmeta, hlt, hin, hent, hpw⟩ := hpre hind
    obtain ⟨t2, hrun2, hino2, hblk2, huse2⟩ := freeIndirect_spec sb hmeta (List.range nIndirect) t
      (fun j hj hne => ⟨(hent j hj hne).1, (hent j hj hne).2.1⟩) hpw
    -- no entry names the indirect block, so its bit is still set
    have hin2 : inUse sb t2.blk (t.inode i).ind = true :=
      (huse2 _ hlt).mpr ⟨hin, fun ⟨j, hj, hne, he⟩ => (hent j hj hne).2.2 he⟩
    have hlast : ∀ k : Fin nDirect, k.castSucc ≠ Fin.last nDirect := fun k =>
      Fin.ne_of_lt (Fin.castSucc_lt_last k)
    refine ⟨({ t2 with blk := markFree sb t2.blk (t.inode i).ind } : DiskState).setAddr i
      (Fin.last nDirect) 0, ?_, fun j hji => ?_, ?_, ?_, ?_, fun k => ?_, fun y hy => ?_,
      fun x hx => ?_⟩
    · rw [truncIndirect, if_pos hind, hrun2, Trans.ok_bind, bfree_of_inUse sb hin2, Trans.ok_bind]
      rfl
    · rw [setAddr_inode_of_ne _ _ _ hji]
      simp [hino2]
    · simp [hino2]
    · simp [hino2]
    · simp [Inode.ind, setAddr_addrs]
    · simp [setAddr_addrs, hlast k, hino2]
    · simp only [setAddr_blk]
      rw [markFree_of_meta sb hlt hy, hblk2 y hy]
    · simp only [setAddr_blk]
      rw [inUse_markFree, Bool.and_eq_true, huse2 x hx]
      simp only [Bool.not_eq_true', decide_eq_false_iff_not, ne_eq, hind, not_false_eq_true,
        true_and]
      constructor
      · rintro ⟨hxi, hin, hno⟩
        exact ⟨hin, fun h => h.elim (fun h => hxi h.symm) hno⟩
      · rintro ⟨hin, hno⟩
        exact ⟨fun h => hno (.inl h.symm), hin, fun h => hno (.inr h)⟩
  · have hind0 : (t.inode i).ind = 0 := not_not.mp hind
    refine ⟨t, by simp [truncIndirect, hind0, pure, Except.pure], fun _ _ => rfl, rfl, rfl, hind0,
      fun _ => rfl, fun _ _ => rfl, fun x _ => ?_⟩
    simp [hind0]

/-- What `itrunc` leaves: the other inodes as they were, inode `i` with no address and size `0`,
the data blocks as they were, and the bits of exactly the blocks inode `i` held cleared. -/
structure Truncated (s s' : DiskState) (i : Nat) : Prop where
  inode_ne : ∀ j, j ≠ i → s'.inode j = s.inode j
  type_eq : (s'.inode i).type = (s.inode i).type
  size_zero : (s'.inode i).size = 0
  addrs_zero : ∀ k, (s'.inode i).addrs k = 0
  blk_data : ∀ y, sb.nmeta ≤ y → s'.blk y = s.blk y
  inUse_iff : ∀ x < sb.size, inUse sb s'.blk x = true ↔
    inUse sb s.blk x = true ∧ ¬ ∃ p, p.inum = i ∧ Refs sb s p x

theorem blockAddr_direct (s : DiskState) (i : Nat) (k : Fin nDirect) :
    blockAddr s i k = (s.inode i).addrs k.castSucc := by
  simp [blockAddr, k.isLt]
  rfl

theorem blockAddr_indirect (s : DiskState) {i j : Nat} (hj : j < nIndirect)
    (hind : (s.inode i).ind ≠ 0) :
    blockAddr s i (nDirect + j) = get32 (s.blk (s.inode i).ind) (4 * j) := by
  have hlt : nDirect + j < maxFile := by unfold maxFile; omega
  simp [blockAddr, hlt, hind]

/-- An inode with no address holds no block. -/
theorem blockAddr_of_addrs_zero {s : DiskState} {i : Nat} (h : ∀ k, (s.inode i).addrs k = 0)
    (bn : Nat) : blockAddr s i bn = 0 := by
  unfold blockAddr
  split
  · exact h _
  · simp [Inode.ind, h]

/-- The addresses of inode `j` depend only on its record and its indirect block. -/
theorem blockAddr_congr {s s' : DiskState} {j : Nat} (hino : s'.inode j = s.inode j)
    (hblk : (s.inode j).ind ≠ 0 → s'.blk (s.inode j).ind = s.blk (s.inode j).ind) (bn : Nat) :
    blockAddr s' j bn = blockAddr s j bn := by
  unfold blockAddr
  rw [hino]
  split
  · rfl
  · by_cases h0 : (s.inode j).ind = 0
    · simp [h0]
    · rw [hblk h0]

section Trunc

variable {sb} {s : DiskState} {i : Nat} (hi : sb.HasInode i) (hty : (s.inode i).type ≠ .free)

section Held

include hi hty

theorem refs_direct {k : Fin nDirect} (h : (s.inode i).addrs k.castSucc ≠ 0) :
    Refs sb s (.data i k) ((s.inode i).addrs k.castSucc) :=
  ⟨hi, hty, h, blockAddr_direct s i k⟩

theorem refs_entry {j : Nat} (hj : j < nIndirect) (hind : (s.inode i).ind ≠ 0)
    (h : get32 (s.blk (s.inode i).ind) (4 * j) ≠ 0) :
    Refs sb s (.data i (nDirect + j)) (get32 (s.blk (s.inode i).ind) (4 * j)) :=
  ⟨hi, hty, h, blockAddr_indirect s hj hind⟩

theorem refs_ind (hind : (s.inode i).ind ≠ 0) : Refs sb s (.ind i) (s.inode i).ind :=
  ⟨hi, hty, hind, rfl⟩

end Held

variable (hs : AllocInv sb s)
include hs

/-- Distinct positions hold distinct blocks. -/
theorem AllocInv.ne_of_refs {p q : Pos} {x y : Nat} (hp : Refs sb s p x) (hq : Refs sb s q y)
    (hpq : p ≠ q) : x ≠ y := fun h => hpq (hs.unique p q y (h ▸ hp) hq)

include hi hty

/-- `itrunc` of an allocated inode does not panic: every block it frees has its bit set. It frees
exactly the blocks the inode holds, and clears its addresses and its size. -/
theorem itrunc_spec : ∃ s', itrunc sb s i = .ok s' ∧ Truncated sb s s' i := by
  -- the direct loop: the entries are distinct blocks of the image whose bits are set
  obtain ⟨t1, hrun1, hj1, hty1, hsz1, haddr1, hblk1, huse1⟩ :=
    freeDirect_spec sb (List.finRange nDirect) s (List.nodup_finRange _)
      (fun k _ hne => by
        have h := refs_direct hi hty hne
        exact ⟨(hs.ref_data _ _ h).2, (hs.ref_data _ _ h).1, refs_inUse sb hs h⟩)
      ((List.nodup_finRange _).imp fun {k k'} hkk' hne heq =>
        hs.ne_of_refs (refs_direct hi hty hne) (refs_direct hi hty (heq ▸ hne))
          (fun h => hkk' (Fin.ext (Pos.data.inj h).2)) heq)
  have hlast : ∀ k : Fin nDirect, Fin.last nDirect ≠ k.castSucc := fun k =>
    (Fin.ne_of_lt (Fin.castSucc_lt_last k)).symm
  have hind1 : (t1.inode i).ind = (s.inode i).ind := by
    simp [Inode.ind, haddr1, hlast]
  -- a block held elsewhere than in a direct entry keeps its bit through the direct loop
  have hkeep : ∀ p x, Refs sb s p x → (∀ k : Fin nDirect, p ≠ .data i k) →
      x < sb.size ∧ inUse sb t1.blk x = true := by
    intro p x hp hpk
    have hx := (hs.ref_data p x hp).2
    refine ⟨hx, (huse1 x hx).mpr ⟨refs_inUse sb hs hp, ?_⟩⟩
    rintro ⟨k, -, hne, he⟩
    exact hs.ne_of_refs (refs_direct hi hty hne) hp (fun h => hpk k h.symm) he
  -- the indirect part: the entries and the indirect block itself are distinct blocks, bits set
  have hpre : IndirectFreeable sb t1 i := by
    unfold IndirectFreeable
    rw [hind1]
    intro hind
    have href := refs_ind hi hty hind
    have hmeta := (hs.ref_data _ _ href).1
    rw [hblk1 _ hmeta]
    refine ⟨hmeta, (hkeep _ _ href fun k => Pos.noConfusion).1,
      (hkeep _ _ href fun k => Pos.noConfusion).2, fun j hj hne => ?_, ?_⟩
    · have he := refs_entry hi hty (List.mem_range.mp hj) hind hne
      have hk : ∀ k : Fin nDirect, Pos.data i (nDirect + j) ≠ .data i k := fun k h => by
        have := (Pos.data.inj h).2
        omega
      obtain ⟨h1, h2⟩ := hkeep _ _ he hk
      exact ⟨h1, h2, hs.ne_of_refs he href Pos.noConfusion⟩
    · refine List.nodup_range.imp_of_mem fun {j j'} hj hj' hjj' hne heq => ?_
      have he := refs_entry hi hty (List.mem_range.mp hj) hind hne
      have he' := refs_entry hi hty (List.mem_range.mp hj') hind (heq ▸ hne)
      exact hs.ne_of_refs he he' (fun h => hjj' (by have := (Pos.data.inj h).2; omega)) heq
  obtain ⟨t2, hrun2, hj2, hty2, hsz2, hind2, hdir2, hblk2, huse2⟩ := truncIndirect_spec sb hpre
  have hblkind : (s.inode i).ind ≠ 0 → t1.blk (s.inode i).ind = s.blk (s.inode i).ind :=
    fun hind => hblk1 _ (hs.ref_data _ _ (refs_ind hi hty hind)).1
  -- the two loops together free the blocks held at the positions of inode `i`
  have hheld : ∀ x, ((∃ k ∈ List.finRange nDirect, (s.inode i).addrs k.castSucc ≠ 0 ∧
      (s.inode i).addrs k.castSucc = x) ∨ ((s.inode i).ind ≠ 0 ∧ ((s.inode i).ind = x ∨
      ∃ j ∈ List.range nIndirect, get32 (t1.blk (s.inode i).ind) (4 * j) ≠ 0 ∧
        get32 (t1.blk (s.inode i).ind) (4 * j) = x))) ↔ ∃ p, p.inum = i ∧ Refs sb s p x := by
    intro x
    rw [refs_inode_iff sb hi hty]
    constructor
    · rintro (⟨k, -, hne, rfl⟩ | ⟨hind, rfl | ⟨j, hj, hne, rfl⟩⟩)
      · exact ⟨hne, .inl ⟨k, rfl⟩⟩
      · exact ⟨hind, .inr (.inr rfl)⟩
      · rw [hblkind hind] at hne ⊢
        exact ⟨hne, .inr (.inl ⟨hind, j, List.mem_range.mp hj, rfl⟩)⟩
    · rintro ⟨hx, ⟨k, rfl⟩ | ⟨hind, j, hj, rfl⟩ | rfl⟩
      · exact .inl ⟨k, List.mem_finRange k, hx, rfl⟩
      · rw [hblkind hind]
        exact .inr ⟨hind, .inr ⟨j, List.mem_range.mpr hj, hx, rfl⟩⟩
      · exact .inr ⟨hx, .inl rfl⟩
  refine ⟨{ t2 with inode := Function.update t2.inode i { t2.inode i with size := 0 } }, ?_,
    ⟨fun j hji => ?_, ?_, ?_, fun k => ?_, fun y hy => ?_, fun x hx => ?_⟩⟩
  · rw [itrunc, hrun1, Trans.ok_bind, hrun2, Trans.ok_bind]
    rfl
  · simp [Function.update_of_ne hji, hj2 j hji, hj1 j hji]
  · simp [hty2, hty1]
  · simp
  · -- the direct entries were cleared by the first loop, the indirect one by the second
    cases k using Fin.lastCases with
    | last => simpa [Inode.ind] using hind2
    | cast k => simp [hdir2, haddr1]
  · simp only
    rw [hblk2 y hy, hblk1 y hy]
  · simp only
    rw [huse2 x hx, huse1 x hx, hind1, ← hheld, not_or, and_assoc]

end Trunc

/-! ### Inodes that hold nothing -/

/-- A position of an inode with no address holds nothing. -/
theorem not_refs_of_addrs_zero {s : DiskState} {p : Pos} (h : ∀ k, (s.inode p.inum).addrs k = 0)
    (x : Nat) : ¬ Refs sb s p x := by
  rintro ⟨-, -, hx, hr⟩
  cases p with
  | data j bn => exact hx (hr.symm.trans (blockAddr_of_addrs_zero h bn))
  | ind j => exact hx (hr.symm.trans (h _))

/-- The positions of inode `p.inum` depend only on its record and its indirect block. -/
theorem refs_congr {s s' : DiskState} {p : Pos} (hino : s'.inode p.inum = s.inode p.inum)
    (hblk : sb.HasInode p.inum → (s.inode p.inum).type ≠ .free → (s.inode p.inum).ind ≠ 0 →
      s'.blk (s.inode p.inum).ind = s.blk (s.inode p.inum).ind) (x : Nat) :
    Refs sb s' p x ↔ Refs sb s p x := by
  cases p with
  | data j bn =>
    simp only [Refs, Pos.inum, refAt] at hino hblk ⊢
    rw [hino]
    constructor
    · rintro ⟨hp, hty, hx, hr⟩
      exact ⟨hp, hty, hx, (blockAddr_congr hino (hblk hp hty) bn).symm.trans hr⟩
    · rintro ⟨hp, hty, hx, hr⟩
      exact ⟨hp, hty, hx, (blockAddr_congr hino (hblk hp hty) bn).trans hr⟩
  | ind j =>
    simp only [Refs, Pos.inum, refAt] at hino ⊢
    rw [hino]

/-- An inode that holds nothing replaced by a record that holds nothing: no position changes. -/
theorem refs_set_empty {s : DiskState} {i : Nat} (hz : ∀ k, (s.inode i).addrs k = 0) {ip : Inode}
    (hip : ∀ k, ip.addrs k = 0) (p : Pos) (x : Nat) :
    Refs sb { s with inode := Function.update s.inode i ip } p x ↔ Refs sb s p x := by
  by_cases hp : p.inum = i
  · have h' : ∀ k, (({ s with inode := Function.update s.inode i ip } : DiskState).inode
        p.inum).addrs k = 0 := by simp [hp, hip]
    exact iff_of_false (not_refs_of_addrs_zero sb h' x) (not_refs_of_addrs_zero sb (hp ▸ hz) x)
  · exact @refs_congr sb s { s with inode := Function.update s.inode i ip } p
      (by simp [Function.update_of_ne hp]) (fun _ _ _ => rfl) x

/-- Inode `i`, which holds nothing, replaced by a record that holds nothing and has size `0`: the
invariant stays. `ialloc` and the freeing `iput` do this. -/
theorem AllocInv.set_empty {s : DiskState} (hs : AllocInv sb s) {i : Nat}
    (hz : ∀ k, (s.inode i).addrs k = 0) {ip : Inode} (hip : ∀ k, ip.addrs k = 0) (hsz : ip.size = 0) :
    AllocInv sb { s with inode := Function.update s.inode i ip } := by
  set s' : DiskState := { s with inode := Function.update s.inode i ip }
  have hrefs : ∀ p x, Refs sb s' p x ↔ Refs sb s p x := refs_set_empty sb hz hip
  refine ⟨fun x hx => ?_, fun p q x hp hq => ?_, fun p x hp => ?_, fun j hj htyj k => ?_,
    fun j hj htyj => ?_⟩
  · simp only [hrefs]
    exact hs.inUse_iff x hx
  · exact hs.unique p q x ((hrefs p x).mp hp) ((hrefs q x).mp hq)
  · exact hs.ref_data p x ((hrefs p x).mp hp)
  · by_cases hji : j = i
    · simp [s', hji, hip]
    · simp only [s', Function.update_of_ne hji] at htyj ⊢
      exact hs.free_zero j hj htyj k
  · by_cases hji : j = i
    · simp [s', hji, hsz]
    · simp only [s', Function.update_of_ne hji] at htyj ⊢
      exact hs.size_le j hj htyj

/-- An inode replaced by a record of size `0` that holds nothing: every other file keeps its blocks. -/
theorem NoHoles.set_empty {s : DiskState} (hn : NoHoles sb s) {i : Nat} {ip : Inode}
    (hsz : ip.size = 0) : NoHoles sb { s with inode := Function.update s.inode i ip } := by
  intro j hj htyj bn hbn
  by_cases hji : j = i
  · subst hji
    simp [hsz] at hbn
  · have hino : (({ s with inode := Function.update s.inode i ip } : DiskState).inode j) = s.inode j := by
      simp [Function.update_of_ne hji]
    rw [blockAddr_congr hino (fun _ => rfl)]
    rw [hino] at htyj hbn
    exact hn j hj htyj bn hbn

section Frame

variable {sb} {s : DiskState} (hs : AllocInv sb s)
include hs

/-- The data of an allocated inode depends only on its record and the data blocks. -/
theorem fileByte_congr {s' : DiskState} {j : Nat} (hj : sb.HasInode j)
    (htyj : (s.inode j).type ≠ .free) (hino : s'.inode j = s.inode j)
    (hblk : ∀ y, sb.nmeta ≤ y → s'.blk y = s.blk y) (o : Nat) : fileByte s' j o = fileByte s j o := by
  have hba : ∀ bn, blockAddr s' j bn = blockAddr s j bn := blockAddr_congr hino fun hind =>
    hblk _ (hs.ref_data _ _ (refs_ind hj htyj hind)).1
  unfold fileByte
  rw [hba]
  split
  · rfl
  · next hne => rw [hblk _ (hs.ref_data _ _ (⟨hj, htyj, hne, rfl⟩ : Refs sb s (.data j _) _)).1]

variable {i : Nat} {s' : DiskState} (ht : Truncated sb s s' i)
include ht

/-- After `itrunc` inode `i` holds nothing, and every other position what it held. -/
theorem Truncated.refs_iff (p : Pos) (x : Nat) : Refs sb s' p x ↔ Refs sb s p x ∧ p.inum ≠ i := by
  by_cases hp : p.inum = i
  · refine iff_of_false (not_refs_of_addrs_zero sb (hp ▸ ht.addrs_zero) x) fun h => h.2 hp
  · rw [refs_congr sb (ht.inode_ne _ hp) (fun hj htyj hind =>
      ht.blk_data _ (hs.ref_data _ _ (refs_ind hj htyj hind)).1) x]
    exact (and_iff_left hp).symm

/-- `itrunc` keeps the invariant. -/
theorem Truncated.inv : AllocInv sb s' := by
  have hrefs := ht.refs_iff hs
  refine ⟨fun x hx => ?_, fun p q x hp hq => ?_, fun p x hp => ?_, fun j hj htyj k => ?_,
    fun j hj htyj => ?_⟩
  · rw [ht.inUse_iff x hx, hs.inUse_iff x hx]
    simp only [hrefs]
    constructor
    · rintro ⟨hmeta | ⟨p, hp⟩, hno⟩
      · exact .inl hmeta
      · exact .inr ⟨p, hp, fun hpi => hno ⟨p, hpi, hp⟩⟩
    · rintro (hmeta | ⟨p, hp, hpi⟩)
      · -- a metadata block is held nowhere
        exact ⟨.inl hmeta, fun ⟨q, _, hq⟩ => absurd (hs.ref_data q x hq).1 (by omega)⟩
      · exact ⟨.inr ⟨p, hp⟩, fun ⟨q, hqi, hq⟩ => hpi (hs.unique q p x hq hp ▸ hqi)⟩
  · exact hs.unique p q x ((hrefs p x).mp hp).1 ((hrefs q x).mp hq).1
  · exact hs.ref_data p x ((hrefs p x).mp hp).1
  · by_cases hji : j = i
    · exact hji ▸ ht.addrs_zero k
    · rw [ht.inode_ne j hji] at htyj ⊢
      exact hs.free_zero j hj htyj k
  · by_cases hji : j = i
    · subst hji
      rw [ht.size_zero]
      exact Nat.zero_le _
    · rw [ht.inode_ne j hji] at htyj ⊢
      exact hs.size_le j hj htyj

/-- `itrunc` keeps every other file's blocks, and inode `i` has size `0`. -/
theorem Truncated.noHoles (hn : NoHoles sb s) : NoHoles sb s' := by
  intro j hj htyj bn hbn
  by_cases hji : j = i
  · subst hji
    rw [ht.size_zero] at hbn
    omega
  · rw [ht.inode_ne j hji] at htyj hbn
    rw [blockAddr_congr (ht.inode_ne j hji) (fun hind =>
      ht.blk_data _ (hs.ref_data _ _ (refs_ind hj htyj hind)).1)]
    exact hn j hj htyj bn hbn

/-- `itrunc` leaves the data of every other allocated inode alone. -/
theorem Truncated.fileByte_eq {j : Nat} (hji : j ≠ i) (hj : sb.HasInode j)
    (htyj : (s.inode j).type ≠ .free) (o : Nat) : fileByte s' j o = fileByte s j o :=
  fileByte_congr hs hj htyj (ht.inode_ne j hji) ht.blk_data o

end Frame

/-! ### `ialloc` and `iput` -/

/-- The inode `ialloc` writes: zeroed, then given its type. -/
def Inode.zeroed (type : IType) : Inode := ⟨type, 0, fun _ => 0⟩

/-- `ialloc`: the first free inode from `1` on, zeroed and given its type; `0` when there is none. -/
def ialloc (s : DiskState) (type : IType) : DiskState × Nat :=
  match (List.range' 1 (sb.ninodes - 1)).find? fun inum => (s.inode inum).type = .free with
  | some inum => ({ s with inode := Function.update s.inode inum (Inode.zeroed type) }, inum)
  | none => (s, 0)

/-- `iput` as the blocks see it: when the reference is the last one and the inode has no link
(`unlinked`), `itrunc` and then `ip->type = 0`; otherwise nothing. -/
def iput (s : DiskState) (i : Nat) (unlinked : Bool) : Except String DiskState :=
  if unlinked then do
    let s ← itrunc sb s i
    pure { s with inode := Function.update s.inode i { s.inode i with type := .free } }
  else pure s

/-- `ialloc` keeps the invariant; the inode it returns was free and now has the type asked for,
no block and size `0`. -/
theorem ialloc_spec {s : DiskState} (hs : AllocInv sb s) (type : IType) :
    AllocInv sb (ialloc sb s type).1 ∧
      ((ialloc sb s type).2 = 0 ∧ (ialloc sb s type).1 = s ∨
        sb.HasInode (ialloc sb s type).2 ∧ (s.inode (ialloc sb s type).2).type = .free ∧
        (ialloc sb s type).1 =
          { s with inode := Function.update s.inode (ialloc sb s type).2 (Inode.zeroed type) }) := by
  unfold ialloc
  split
  · next inum hf =>
    have hfree : (s.inode inum).type = .free := by simpa using List.find?_some hf
    have hmem := List.mem_range'_1.mp (List.mem_of_find?_eq_some hf)
    have hin : sb.HasInode inum := ⟨hmem.1, by omega⟩
    exact ⟨hs.set_empty sb (hs.free_zero inum hin hfree) (fun _ => rfl) rfl,
      .inr ⟨hin, hfree, rfl⟩⟩
  · exact ⟨hs, .inl ⟨rfl, rfl⟩⟩

/-- The freeing `iput` of an allocated inode does not panic, keeps the invariant and returns every
block the inode held to the bitmap. -/
theorem iput_spec {s : DiskState} (hs : AllocInv sb s) {i : Nat} (hi : sb.HasInode i)
    (hty : (s.inode i).type ≠ .free) (unlinked : Bool) :
    ∃ s', iput sb s i unlinked = .ok s' ∧ AllocInv sb s' ∧
      (∀ j, j ≠ i → s'.inode j = s.inode j) ∧ (∀ y, sb.nmeta ≤ y → s'.blk y = s.blk y) ∧
      (unlinked = false → s' = s) := by
  cases unlinked with
  | false => exact ⟨s, rfl, hs, fun _ _ => rfl, fun _ _ => rfl, fun _ => rfl⟩
  | true =>
    obtain ⟨t, hrun, ht⟩ := itrunc_spec hi hty hs
    refine ⟨{ t with inode := Function.update t.inode i { t.inode i with type := .free } }, ?_,
      (ht.inv hs).set_empty sb ht.addrs_zero ht.addrs_zero ht.size_zero, fun j hji => ?_,
      ht.blk_data, fun h => nomatch h⟩
    · rw [iput, if_pos rfl, hrun, Trans.ok_bind]
      rfl
    · simp [Function.update_of_ne hji, ht.inode_ne j hji]

end Layer

end Xv6.Blocks
