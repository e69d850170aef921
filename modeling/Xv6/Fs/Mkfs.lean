import Xv6.Fs.Inode
import Xv6.Lib.Trans

/-!
# The image `mkfs` writes (`mkfs.c`)

`mkfs` lays out `FSSIZE` blocks: the boot block, the superblock, the log, the inode blocks, the
bitmap, then data. It hands out inodes from `1` and data blocks from the first one past the
metadata, in order, and at the end marks the first `freeblock` blocks used in the bitmap.

* `mkfsSb` : the superblock it writes;
* `iappend` : bytes appended to an inode, with blocks (and the indirect block) taken from
  `freeblock`;
* `inUse_bitmapBytes` : the bitmap `balloc(used)` writes marks exactly the blocks below `used`;
* `mkfs_allocInv` : the image satisfies the kernel's allocation invariant, and has no hole unless
  the root directory's entries fill its last block exactly;
* `mkfs_root_hole` : when they do, `mkfs` rounds the root's size up past a block it never
  allocated, and the kernel's `readi` of the root there makes `bmap` allocate.
-/

namespace Xv6.Blocks

open Bytes

/-! ## Layout -/

/-- `NINODES` of `mkfs`. -/
def nInodes : Nat := 200

/-- `sizeof(struct dinode)`: `type`, `major`, `minor`, `nlink`, `size` and `addrs`. -/
def dinodeSize : Nat := 2 * 4 + 4 + 4 * (nDirect + 1)

/-- `IPB`: inodes per block. -/
def ipb : Nat := bSize / dinodeSize

def nBitmap : Nat := fsSize / bpb + 1

def nInodeBlocks : Nat := nInodes / ipb + 1

def nLog : Nat := logSize

/-- Boot block, superblock, log, inode blocks and bitmap. -/
def nMeta : Nat := 2 + nLog + nInodeBlocks + nBitmap

def nBlocks : Nat := fsSize - nMeta

/-- The superblock `mkfs` writes. -/
def mkfsSb : Superblock where
  size := fsSize
  nblocks := nBlocks
  ninodes := nInodes
  bmapstart := 2 + nLog + nInodeBlocks
  bmap_meta := by decide
  size_lt := by decide

theorem mkfsSb_nmeta : mkfsSb.nmeta = nMeta := by decide

theorem nMeta_eq : nMeta = 46 := by decide

/-! ## The program -/

/-- The image as `mkfs` builds it, with the next inode and the next block it hands out. -/
structure Image where
  disk : DiskState
  freeinode : Nat
  freeblock : Nat

/-- `freeblock++` -/
def Image.bump (im : Image) : Image := { im with freeblock := im.freeblock + 1 }

/-- `ialloc(type)` of `mkfs`: inode `freeinode++`, zeroed and given its type. -/
def Image.ialloc (im : Image) (type : IType) : Image × Nat :=
  let disk : DiskState :=
    { im.disk with inode := Function.update im.disk.inode im.freeinode (Inode.zeroed type) }
  ({ im with disk := disk, freeinode := im.freeinode + 1 }, im.freeinode)

/-- `din.addrs[k] = a` -/
def Inode.setAddr (ip : Inode) (k : Fin (nDirect + 1)) (a : Nat) : Inode :=
  { ip with addrs := Function.update ip.addrs k a }

/-- `indirect[j] = freeblock++; wsect(ind, indirect)` -/
def Image.setEntry (im : Image) (ind j : Nat) : Image :=
  let disk : DiskState :=
    { im.disk with blk := Function.update im.disk.blk ind (set32 (im.disk.blk ind) (4 * j) im.freeblock) }
  { im.bump with disk := disk }

/-- Entry `j` of the indirect block of `din`, taken from `freeblock` when it is `0`. -/
def iappendEntry (im : Image) (din : Inode) (j : Nat) : Image × Inode × Nat :=
  if get32 (im.disk.blk din.ind) (4 * j) = 0 then (im.setEntry din.ind j, din, im.freeblock)
  else (im, din, get32 (im.disk.blk din.ind) (4 * j))

/-- The block `x` that `iappend` writes block `fbn` of `din` into, allocated from `freeblock` when
`din` has none. -/
def iappendBlock (im : Image) (din : Inode) (fbn : Nat) : Image × Inode × Nat :=
  if h : fbn < nDirect then
    if din.addrs (Fin.castSucc ⟨fbn, h⟩) = 0 then
      (im.bump, din.setAddr (Fin.castSucc ⟨fbn, h⟩) im.freeblock, im.freeblock)
    else (im, din, din.addrs (Fin.castSucc ⟨fbn, h⟩))
  else if din.ind = 0 then
    iappendEntry im.bump (din.setAddr (Fin.last nDirect) im.freeblock) (fbn - nDirect)
  else iappendEntry im din (fbn - nDirect)

/-- The loop of `iappend`, `while(n > 0)`: block `fbn = off / BSIZE`, then
`n1 = min(n, (fbn + 1) * BSIZE - off)` bytes copied into it. `din` is the inode `rinode` read, which
`winode` writes back after the loop; `assert(fbn < MAXFILE)` stops `mkfs`. -/
def iappendLoop : Nat → Image → Inode → Nat → List UInt8 → Except String (Image × Inode × Nat)
  | 0, im, din, off, _ => pure (im, din, off)
  | fuel + 1, im, din, off, p =>
    if p.length > 0 then
      if off / bSize < maxFile then
        let r := iappendBlock im din (off / bSize)
        let n1 := min p.length ((off / bSize + 1) * bSize - off)
        let im := { r.1 with disk := r.1.disk.putBytes r.2.2 (off - off / bSize * bSize) (p.take n1) }
        iappendLoop fuel im r.2.1 (off + n1) (p.drop n1)
      else throw "assert fbn < MAXFILE"
    else pure (im, din, off)

/-- `iappend(inum, p, n)`: each turn copies at least one byte, so `n` turns are enough. -/
def iappend (im : Image) (inum : Nat) (p : List UInt8) : Except String Image := do
  let (im, din, off) ← iappendLoop p.length im (im.disk.inode inum) (im.disk.inode inum).size p
  -- `din.size = xint(off); winode(inum, &din);`
  let disk : DiskState :=
    { im.disk with inode := Function.update im.disk.inode inum { din with size := off } }
  pure { im with disk := disk }

/-- A `struct dirent`: `xshort(inum)`, then the name padded with zeroes to `DIRSIZ` by `strncpy`. -/
def dirent (inum : Nat) (name : List UInt8) : List UInt8 :=
  [(inum % 256).toUInt8, (inum / 256 % 256).toUInt8] ++ name.take dirSiz ++
    List.replicate (dirSiz - name.length) 0

/-- The bitmap block `balloc(used)` writes: `buf[i/8] = buf[i/8] | (0x1 << (i%8))` for `i < used`. -/
def bitmapBytes (used : Nat) : Nat → UInt8 :=
  (List.range used).foldl (fun buf i => Function.update buf (i / 8) (buf (i / 8) ||| bitMask (i % 8)))
    fun _ => 0

/-- One file of the command line, by its name in the root directory: a new inode, its entry in the
root, then its contents as `read` hands them over, `BSIZE` bytes at a time. -/
def mkfsFile (im : Image) (file : List UInt8 × List UInt8) : Except String Image := do
  if 47 ∈ file.1 ∨ file.1.length > dirSiz then throw "assert"
  let (im, inum) := im.ialloc .file
  let im ← iappend im rootIno (dirent inum file.1)
  (file.2.toChunks bSize).foldlM (fun im chunk => iappend im inum chunk) im

/-- `mkfs fs.img files...`, from the zeroed image to the bitmap. -/
def mkfs (files : List (List UInt8 × List UInt8)) : Except String Image := do
  let im : Image := ⟨⟨fun _ _ => 0, fun _ => Inode.zeroed .free⟩, 1, nMeta⟩
  let (im, rootino) := im.ialloc .dir
  if rootino ≠ rootIno then throw "assert rootino == ROOTINO"
  let im ← iappend im rootino (dirent rootino [46])
  let im ← iappend im rootino (dirent rootino [46, 46])
  let im ← files.foldlM mkfsFile im
  -- fix size of root inode dir
  let off := (im.disk.inode rootino).size
  let im := { im with disk := im.disk.setSize rootino ((off / bSize + 1) * bSize) }
  if im.freeblock ≥ bpb then throw "assert used < BPB"
  let bitmap := bitmapBytes im.freeblock
  pure { im with disk := { im.disk with blk := Function.update im.disk.blk mkfsSb.bmapstart bitmap } }

/-! ## The bitmap -/

theorem testBit_bitmapBytes (used k : Nat) {j : Nat} (hj : j < 8) :
    (bitmapBytes used k).toNat.testBit j = decide (8 * k + j < used) := by
  induction used with
  | zero => simp [bitmapBytes]
  | succ u ih =>
    simp only [bitmapBytes, List.range_succ, List.foldl_append, List.foldl_cons, List.foldl_nil]
      at ih ⊢
    by_cases hk : k = u / 8
    · subst hk
      rw [Function.update_self, testBit_or_bitMask _ (Nat.mod_lt u (by decide)), ih]
      by_cases he : j = u % 8
      · simp [he]
        omega
      · simp only [he, decide_false, Bool.false_or, decide_eq_decide]
        omega
    · rw [Function.update_of_ne hk, ih, decide_eq_decide]
      omega

/-- Below `BPB`, every block's bit is in the one bitmap block: set exactly below `used`. -/
theorem inUse_bitmapBytes {d : Nat → Nat → UInt8} {used b : Nat} (hb : b < mkfsSb.size) :
    inUse mkfsSb (Function.update d mkfsSb.bmapstart (bitmapBytes used)) b = decide (b < used) := by
  have hbpb : b < bpb := Nat.lt_of_lt_of_le hb (by decide)
  have hblk : mkfsSb.bblock b = mkfsSb.bmapstart := by
    simp [Superblock.bblock, Nat.div_eq_of_lt hbpb]
  rw [inUse_eq_testBit, hblk, Function.update_self, Nat.mod_eq_of_lt hbpb,
    testBit_bitmapBytes _ _ (Nat.mod_lt b (by decide))]
  congr 1
  simp only [eq_iff_iff]
  omega

/-! ## What `mkfs` keeps -/

/-- What `mkfs` keeps while it builds the image: the blocks from `freeblock` on are still zero; the
blocks the inodes hold are exactly those from the end of the metadata to `freeblock`, each at one
position; the inodes from `freeinode` on are free, and free inodes hold nothing; no file is longer
than `MAXFILE` blocks or has a hole. -/
structure MkInv (im : Image) : Prop where
  one_le : 1 ≤ im.freeinode
  meta_le : nMeta ≤ im.freeblock
  zero : ∀ b, im.freeblock ≤ b → im.disk.blk b = fun _ => 0
  held : ∀ b, (∃ p, Refs mkfsSb im.disk p b) ↔ nMeta ≤ b ∧ b < im.freeblock
  unique : ∀ p q b, Refs mkfsSb im.disk p b → Refs mkfsSb im.disk q b → p = q
  free_above : ∀ i, im.freeinode ≤ i → (im.disk.inode i).type = .free
  free_zero : ∀ i, (im.disk.inode i).type = .free → ∀ k, (im.disk.inode i).addrs k = 0
  size_le : ∀ i, mkfsSb.HasInode i → (im.disk.inode i).type ≠ .free →
    (im.disk.inode i).size ≤ maxFile * bSize
  noHoles : NoHoles mkfsSb im.disk

/-- The zeroed image `mkfs` starts from. -/
def Image.zeroed : Image := ⟨⟨fun _ _ => 0, fun _ => Inode.zeroed .free⟩, 1, nMeta⟩

theorem mkInv_zeroed : MkInv Image.zeroed := by
  -- no inode is allocated yet, so none holds a block
  have hno : ∀ p x, ¬ Refs mkfsSb Image.zeroed.disk p x := fun p x h => h.2.1 rfl
  refine ⟨le_rfl, le_rfl, fun _ _ => rfl, fun b => ?_, fun p q b hp => absurd hp (hno p b),
    fun _ _ => rfl, fun _ _ _ => rfl, fun _ _ h => absurd rfl h, fun _ _ h => absurd rfl h⟩
  simp only [Image.zeroed]
  exact iff_of_false (fun ⟨p, hp⟩ => hno p b hp) (by omega)

theorem MkInv.ialloc {im : Image} (h : MkInv im) (type : IType) : MkInv (im.ialloc type).1 := by
  have hz := h.free_zero _ (h.free_above _ le_rfl)
  have hrefs := refs_set_empty mkfsSb hz (show ∀ k, (Inode.zeroed type).addrs k = 0 from fun _ => rfl)
  refine ⟨Nat.le_succ_of_le h.one_le, h.meta_le, h.zero, fun b => ?_, fun p q b hp hq => ?_,
    fun i hi => ?_, fun i hi k => ?_, fun i hi hty => ?_,
    h.noHoles.set_empty mkfsSb (show (Inode.zeroed type).size = 0 from rfl)⟩
  · simp only [Image.ialloc, hrefs]
    exact h.held b
  · exact h.unique p q b ((hrefs p b).mp hp) ((hrefs q b).mp hq)
  · have hi' : im.freeinode + 1 ≤ i := hi
    have hne : i ≠ im.freeinode := by omega
    simp only [Image.ialloc, Function.update_of_ne hne]
    exact h.free_above i (by omega)
  · by_cases hne : i = im.freeinode
    · subst hne
      simp [Image.ialloc, Inode.zeroed]
    · simp only [Image.ialloc, Function.update_of_ne hne] at hi ⊢
      exact h.free_zero i hi k
  · by_cases hne : i = im.freeinode
    · subst hne
      simp [Image.ialloc, Inode.zeroed]
    · simp only [Image.ialloc, Function.update_of_ne hne] at hty ⊢
      exact h.size_le i hi hty

/-- The block `freeblock` recorded at the position `p0`, which held nothing, with `freeblock` then
bumped: the types, sizes and free inodes stay, and every other position keeps its block. -/
theorem MkInv.link {im im' : Image} (h : MkInv im) {p0 : Pos} (hp0 : mkfsSb.HasInode p0.inum)
    (hty0 : (im.disk.inode p0.inum).type ≠ .free) (h0 : refAt im.disk p0 = 0)
    (hfb : im'.freeblock = im.freeblock + 1) (hfi : im'.freeinode = im.freeinode)
    (htype : ∀ j, (im'.disk.inode j).type = (im.disk.inode j).type)
    (hsize : ∀ j, (im'.disk.inode j).size = (im.disk.inode j).size)
    (hfree : ∀ j, (im.disk.inode j).type = .free → (im'.disk.inode j).addrs = (im.disk.inode j).addrs)
    (hrefAt : ∀ p, mkfsSb.HasInode p.inum → (im.disk.inode p.inum).type ≠ .free →
      refAt im'.disk p = if p = p0 then im.freeblock else refAt im.disk p)
    (hblk : ∀ b, im.freeblock < b → im'.disk.blk b = im.disk.blk b) : MkInv im' := by
  have hb0 : im.freeblock ≠ 0 := by have := h.meta_le; rw [nMeta_eq] at this; omega
  have hrefs := refs_link mkfsSb hp0 hty0 h0 hb0 htype hrefAt
  -- `freeblock` was held nowhere
  have hnew : ∀ p, ¬ Refs mkfsSb im.disk p im.freeblock := fun p hp =>
    absurd ((h.held _).mp ⟨p, hp⟩).2 (Nat.lt_irrefl _)
  refine ⟨hfi ▸ h.one_le, by rw [hfb]; exact Nat.le_succ_of_le h.meta_le, fun b hb => ?_,
    fun b => ?_, fun p q b hp hq => ?_, fun i hi => ?_, fun i hi k => ?_, fun i hi hty => ?_,
    fun j hj hty bn hbn => ?_⟩
  · rw [hblk b (by omega)]
    exact h.zero b (by omega)
  · simp only [hrefs, hfb]
    constructor
    · rintro ⟨p, hp | ⟨-, rfl⟩⟩
      · have := (h.held b).mp ⟨p, hp⟩
        omega
      · exact ⟨h.meta_le, Nat.lt_succ_self _⟩
    · intro hb
      by_cases he : b = im.freeblock
      · exact ⟨p0, .inr ⟨rfl, he⟩⟩
      · obtain ⟨p, hp⟩ := (h.held b).mpr ⟨hb.1, by omega⟩
        exact ⟨p, .inl hp⟩
  · rcases (hrefs p b).mp hp with hp | ⟨hp0, hpb⟩ <;>
      rcases (hrefs q b).mp hq with hq | ⟨hq0, hqb⟩
    · exact h.unique p q b hp hq
    · exact absurd (hqb ▸ hp) (hnew p)
    · exact absurd (hpb ▸ hq) (hnew q)
    · exact hp0.trans hq0.symm
  · rw [htype]
    exact h.free_above i (hfi ▸ hi)
  · rw [htype] at hi
    rw [hfree i hi]
    exact h.free_zero i hi k
  · rw [htype] at hty
    rw [hsize]
    exact h.size_le i hi hty
  · -- every block stays where it was
    rw [htype] at hty
    rw [hsize] at hbn
    have hne := h.noHoles j hj hty bn hbn
    have hr := hrefAt (.data j bn) hj hty
    rw [if_neg (fun he => hne (by subst he; exact h0))] at hr
    exact fun h' => hne (hr.symm.trans h')

/-- A block held at a data position written over: nothing `mkfs` keeps changes. -/
theorem MkInv.write_data {im : Image} (h : MkInv im) {x i bn : Nat}
    (hx : Refs mkfsSb im.disk (.data i bn) x) (v : Nat → UInt8) :
    MkInv { im with disk := { im.disk with blk := Function.update im.disk.blk x v } } := by
  have hnot : ∀ j, ¬ Refs mkfsSb im.disk (.ind j) x := fun j hj =>
    Pos.noConfusion (h.unique _ _ x hj hx)
  have hrefs := refs_update_blk mkfsSb v hnot
  have hlt := ((h.held x).mp ⟨_, hx⟩).2
  refine ⟨h.one_le, h.meta_le, fun b hb => ?_, fun b => ?_, fun p q b hp hq => ?_, h.free_above,
    h.free_zero, h.size_le, fun j hj hty bn' hbn => ?_⟩
  · have hb' : im.freeblock ≤ b := hb
    show Function.update im.disk.blk x v b = fun _ => 0
    rw [Function.update_of_ne (by omega)]
    exact h.zero b hb'
  · simp only [hrefs]
    exact h.held b
  · exact h.unique p q b ((hrefs p b).mp hp) ((hrefs q b).mp hq)
  · rw [blockAddr_update_blk v (ind_ne_of_not_refs mkfsSb (hnot j) hj hty)]
    exact h.noHoles j hj hty bn' hbn

/-! ## `iappend` -/

/-- The image with `din`, the inode `iappend` works on, written back as `winode` will. -/
def Image.withInode (im : Image) (inum : Nat) (din : Inode) : Image :=
  { im with disk := { im.disk with inode := Function.update im.disk.inode inum din } }

@[simp] theorem withInode_inode_self (im : Image) (inum : Nat) (din : Inode) :
    (im.withInode inum din).disk.inode inum = din := by
  simp [Image.withInode]

theorem withInode_inode_of_ne (im : Image) {inum j : Nat} (din : Inode) (h : j ≠ inum) :
    (im.withInode inum din).disk.inode j = im.disk.inode j := by
  simp [Image.withInode, Function.update_of_ne h]

@[simp] theorem withInode_blk (im : Image) (inum : Nat) (din : Inode) :
    (im.withInode inum din).disk.blk = im.disk.blk := rfl

@[simp] theorem withInode_freeblock (im : Image) (inum : Nat) (din : Inode) :
    (im.withInode inum din).freeblock = im.freeblock := rfl

@[simp] theorem withInode_freeinode (im : Image) (inum : Nat) (din : Inode) :
    (im.withInode inum din).freeinode = im.freeinode := rfl

theorem withInode_setAddr (im : Image) (inum : Nat) (din : Inode) (k : Fin (nDirect + 1)) (a : Nat) :
    (im.withInode inum (din.setAddr k a)).disk = (im.withInode inum din).disk.setAddr inum k a := by
  simp [Image.withInode, DiskState.setAddr, Inode.setAddr]

/-- Writing a block an inode holds at a data position changes no address. -/
theorem MkInv.blockAddr_update {im : Image} (h : MkInv im) {x i bn : Nat}
    (hx : Refs mkfsSb im.disk (.data i bn) x) (v : Nat → UInt8) {j : Nat} (hj : mkfsSb.HasInode j)
    (hty : (im.disk.inode j).type ≠ .free) (bn' : Nat) :
    blockAddr { im.disk with blk := Function.update im.disk.blk x v } j bn' = blockAddr im.disk j bn' :=
  blockAddr_update_blk v (ind_ne_of_not_refs mkfsSb
    (fun hj' => Pos.noConfusion (h.unique _ _ x hj' hx)) hj hty) bn'

/-- What `iappend` keeps from one step to the next, seen with the inode written back: what `mkfs`
keeps, the next inode, the other inodes, the type and size of `inum`, and the blocks it holds. -/
structure Linked (V V' : Image) (inum : Nat) : Prop where
  inv : MkInv V'
  freeinode_eq : V'.freeinode = V.freeinode
  inode_ne : ∀ j, j ≠ inum → V'.disk.inode j = V.disk.inode j
  type_eq : (V'.disk.inode inum).type = (V.disk.inode inum).type
  size_eq : (V'.disk.inode inum).size = (V.disk.inode inum).size
  persist : ∀ bn, blockAddr V.disk inum bn ≠ 0 → blockAddr V'.disk inum bn = blockAddr V.disk inum bn

theorem Linked.refl {V : Image} {inum : Nat} (h : MkInv V) : Linked V V inum :=
  ⟨h, rfl, fun _ _ => rfl, rfl, rfl, fun _ _ => rfl⟩

theorem Linked.trans {V V' V'' : Image} {inum : Nat} (h1 : Linked V V' inum)
    (h2 : Linked V' V'' inum) : Linked V V'' inum :=
  ⟨h2.inv, h2.freeinode_eq.trans h1.freeinode_eq, fun j hj => (h2.inode_ne j hj).trans (h1.inode_ne j hj),
    h2.type_eq.trans h1.type_eq, h2.size_eq.trans h1.size_eq, fun bn hbn => by
      rw [h2.persist bn (by rw [h1.persist bn hbn]; exact hbn), h1.persist bn hbn]⟩

/-- A link step of `mkfs` at a position of inode `inum`: what `iappend` keeps, and the position now
holds the old `freeblock`. -/
theorem MkInv.linked {V V' : Image} (h : MkInv V) {inum : Nat} {p0 : Pos} (hp0i : p0.inum = inum)
    (hi : mkfsSb.HasInode inum) (hty0 : (V.disk.inode inum).type ≠ .free) (h0 : refAt V.disk p0 = 0)
    (hfb : V'.freeblock = V.freeblock + 1) (hfi : V'.freeinode = V.freeinode)
    (hne : ∀ j, j ≠ inum → V'.disk.inode j = V.disk.inode j)
    (htype : ∀ j, (V'.disk.inode j).type = (V.disk.inode j).type)
    (hsize : ∀ j, (V'.disk.inode j).size = (V.disk.inode j).size)
    (hfree : ∀ j, (V.disk.inode j).type = .free → (V'.disk.inode j).addrs = (V.disk.inode j).addrs)
    (hrefAt : ∀ p, mkfsSb.HasInode p.inum → (V.disk.inode p.inum).type ≠ .free →
      refAt V'.disk p = if p = p0 then V.freeblock else refAt V.disk p)
    (hblk : ∀ b, V.freeblock < b → V'.disk.blk b = V.disk.blk b) :
    Linked V V' inum ∧ refAt V'.disk p0 = V.freeblock := by
  subst hp0i
  refine ⟨⟨h.link hi hty0 h0 hfb hfi htype hsize hfree hrefAt hblk, hfi, hne, htype _, hsize _,
    fun bn hbn => ?_⟩, by rw [hrefAt p0 hi hty0, if_pos rfl]⟩
  have hr := hrefAt (.data p0.inum bn) hi hty0
  rw [if_neg (fun he => hbn (by rw [← he] at h0; exact h0))] at hr
  exact hr

/-- `iappend` putting `freeblock` into an address of `din`, the way `bmap` records a block. -/
theorem MkInv.linked_setAddr {V : Image} (h : MkInv V) {inum : Nat} (hi : mkfsSb.HasInode inum)
    (hty : (V.disk.inode inum).type ≠ .free) {k : Fin (nDirect + 1)} {p0 : Pos} (hp0 : p0.inum = inum)
    (h0 : refAt V.disk p0 = 0)
    (hR : RecordsAt mkfsSb V.disk (V.disk.setAddr inum k V.freeblock) p0 V.freeblock) :
    Linked V { V.bump with disk := V.disk.setAddr inum k V.freeblock } inum ∧
      refAt (V.disk.setAddr inum k V.freeblock) p0 = V.freeblock :=
  h.linked hp0 hi hty h0 rfl rfl (fun _ hj => setAddr_inode_of_ne _ _ _ hj) hR.type_eq hR.size_eq
    hR.free_addrs hR.refAt_eq (fun _ _ => rfl)

theorem bump_withInode_setAddr (im : Image) (inum : Nat) (din : Inode) (k : Fin (nDirect + 1))
    (a : Nat) : im.bump.withInode inum (din.setAddr k a) =
      { (im.withInode inum din).bump with disk := (im.withInode inum din).disk.setAddr inum k a } := by
  simp only [Image.withInode, Image.bump, Image.mk.injEq, and_true]
  exact withInode_setAddr im inum din k a

/-- What choosing the block for block `fbn` of inode `inum` leaves: what `iappend` keeps, with block
`fbn` at `x`. -/
structure Chosen (V V' : Image) (inum fbn x : Nat) : Prop extends Linked V V' inum where
  addr : blockAddr V'.disk inum fbn = x
  pos : x ≠ 0

theorem Linked.chosen {V V' V'' : Image} {inum fbn x : Nat} (h1 : Linked V V' inum)
    (h2 : Chosen V' V'' inum fbn x) : Chosen V V'' inum fbn x :=
  ⟨h1.trans h2.toLinked, h2.addr, h2.pos⟩

section Choose

variable {im : Image} {din : Inode} {inum fbn : Nat} (h : MkInv (im.withInode inum din))
  (hi : mkfsSb.HasInode inum) (hty : din.type ≠ .free)
include h hi hty

/-- Entry `fbn - NDIRECT` of the indirect block of `din`, taken from `freeblock` when it is `0`. -/
theorem iappendEntry_spec (hind : din.ind ≠ 0) (h1 : nDirect ≤ fbn) (h2 : fbn < maxFile)
    (hfb : (iappendEntry im din (fbn - nDirect)).1.freeblock ≤ 2 ^ 32) :
    Chosen (im.withInode inum din) ((iappendEntry im din (fbn - nDirect)).1.withInode inum
      (iappendEntry im din (fbn - nDirect)).2.1) inum fbn (iappendEntry im din (fbn - nDirect)).2.2 := by
  set V := im.withInode inum din
  have hindV : (V.disk.inode inum).ind ≠ 0 := by simpa [V] using hind
  have htyV : (V.disk.inode inum).type ≠ .free := by simpa [V] using hty
  have hentry : blockAddr V.disk inum fbn = get32 (im.disk.blk din.ind) (4 * (fbn - nDirect)) := by
    have := blockAddr_indirect V.disk (i := inum) (j := fbn - nDirect)
      (by unfold maxFile at h2; omega) hindV
    rw [Nat.add_sub_cancel' h1] at this
    simpa [V] using this
  by_cases h0 : get32 (im.disk.blk din.ind) (4 * (fbn - nDirect)) = 0
  · -- a new entry: `freeblock` recorded in the indirect block
    simp only [iappendEntry, if_pos h0] at hfb ⊢
    have href : Refs mkfsSb V.disk (.ind inum) din.ind := ⟨hi, htyV, hind, by simp [V, refAt]⟩
    have hlt := ((h.held din.ind).mp ⟨_, href⟩).2
    have hb32 : im.freeblock < 2 ^ 32 := by
      simp only [Image.setEntry, Image.bump] at hfb
      omega
    -- the other inodes have other indirect blocks
    have hother : ∀ j, mkfsSb.HasInode j → (V.disk.inode j).type ≠ .free →
        j = inum ∨ (V.disk.inode j).ind ≠ (V.disk.inode inum).ind := by
      intro j hj htyj
      by_cases he : (V.disk.inode j).ind = (V.disk.inode inum).ind
      · exact .inl (Pos.ind.inj (h.unique _ _ _ ⟨hj, htyj, he ▸ hindV, he⟩ ⟨hi, htyV, hindV, rfl⟩))
      · exact .inr he
    have hdisk : ((im.setEntry din.ind (fbn - nDirect)).withInode inum din).disk =
        { V.disk with blk := Function.update V.disk.blk (V.disk.inode inum).ind (set32
          (V.disk.blk (V.disk.inode inum).ind) (4 * (fbn - nDirect)) im.freeblock) } := by
      simp [V, Image.withInode, Image.setEntry, Image.bump]
    have hrefAt : ∀ p, mkfsSb.HasInode p.inum → (V.disk.inode p.inum).type ≠ .free →
        refAt ((im.setEntry din.ind (fbn - nDirect)).withInode inum din).disk p =
          if p = .data inum fbn then V.freeblock else refAt V.disk p := by
      intro p hp htyp
      rw [hdisk]
      cases p with
      | data j bn' =>
        simp only [refAt, Pos.data.injEq]
        exact blockAddr_set32 hindV h1 h2 hb32 (hother j hp htyp) bn'
      | ind j =>
        rw [if_neg (fun h' => Pos.noConfusion h')]
        rfl
    have hblk : ∀ b, V.freeblock < b →
        ((im.setEntry din.ind (fbn - nDirect)).withInode inum din).disk.blk b = V.disk.blk b := by
      intro b hb
      rw [hdisk]
      exact Function.update_of_ne (by simp [V]; omega) _ _
    obtain ⟨hl, haddr⟩ := h.linked (by rfl) hi htyV (by simpa [refAt] using hentry.trans h0) (by rfl)
      (by rfl) (fun _ _ => by rfl) (fun _ => by rfl) (fun _ => by rfl) (fun _ _ => by rfl) hrefAt hblk
    have hpos : V.freeblock ≠ 0 := by have := h.meta_le; rw [nMeta_eq] at this; omega
    exact ⟨hl, haddr, hpos⟩
  · simp only [iappendEntry, if_neg h0]
    exact ⟨Linked.refl h, hentry, h0⟩

/-- The block `iappend` writes block `fbn` of `din` into: the one `din` holds, or `freeblock` put at
the direct address or, through a new indirect block when `din` has none, at the indirect entry. -/
theorem iappendBlock_spec (hfbn : fbn < maxFile)
    (hfb : (iappendBlock im din fbn).1.freeblock ≤ 2 ^ 32) :
    Chosen (im.withInode inum din) ((iappendBlock im din fbn).1.withInode inum
      (iappendBlock im din fbn).2.1) inum fbn (iappendBlock im din fbn).2.2 := by
  set V := im.withInode inum din
  have htyV : (V.disk.inode inum).type ≠ .free := by simpa [V] using hty
  have hzero : V.disk.blk V.freeblock = fun _ => 0 := h.zero _ le_rfl
  have hpos : V.freeblock ≠ 0 := by have := h.meta_le; rw [nMeta_eq] at this; omega
  by_cases hd : fbn < nDirect
  · have hdir : blockAddr V.disk inum fbn = din.addrs (Fin.castSucc ⟨fbn, hd⟩) := by
      simpa [V] using blockAddr_direct V.disk inum ⟨fbn, hd⟩
    by_cases ha : din.addrs (Fin.castSucc ⟨fbn, hd⟩) = 0
    · -- a new direct block
      simp only [iappendBlock, dif_pos hd, if_pos ha]
      rw [bump_withInode_setAddr]
      have h0 : refAt V.disk (.data inum fbn) = 0 := hdir.trans ha
      obtain ⟨hl, haddr⟩ := h.linked_setAddr hi htyV rfl h0
        (recordsAt_direct mkfsSb hd htyV h0 hzero)
      exact ⟨hl, haddr, hpos⟩
    · simp only [iappendBlock, dif_pos hd, if_neg ha]
      exact ⟨Linked.refl h, hdir, ha⟩
  · by_cases hz : din.ind = 0
    · -- a new indirect block first, then its entry
      simp only [iappendBlock, dif_neg hd, if_pos hz] at hfb ⊢
      have hindV : (V.disk.inode inum).ind = 0 := by simpa [V] using hz
      obtain ⟨hl, -⟩ := h.linked_setAddr hi htyV (k := Fin.last nDirect) (by rfl)
        (show refAt V.disk (.ind inum) = 0 from hindV) (recordsAt_ind mkfsSb htyV hindV hzero)
      rw [← bump_withInode_setAddr] at hl
      have hind1 : (din.setAddr (Fin.last nDirect) im.freeblock).ind ≠ 0 := by
        simpa [Inode.ind, Inode.setAddr, V] using hpos
      have hty1 : (din.setAddr (Fin.last nDirect) im.freeblock).type ≠ .free := hty
      exact hl.chosen (iappendEntry_spec hl.inv hi hty1 hind1 (by omega) hfbn hfb)
    · simp only [iappendBlock, dif_neg hd, if_neg hz] at hfb ⊢
      exact iappendEntry_spec h hi hty hz (by omega) hfbn hfb

end Choose

/-! ### The loop -/

/-- Every block of inode `inum` below `off` is held, and `off` stays within `MAXFILE` blocks: what
lets `iappend` give the inode size `off`. -/
structure Filled (V : Image) (inum off : Nat) : Prop where
  le_max : off ≤ maxFile * bSize
  held : ∀ bn, bn * bSize < off → blockAddr V.disk inum bn ≠ 0

theorem Filled.linked {V V' : Image} {inum off : Nat} (hf : Filled V inum off)
    (hl : Linked V V' inum) : Filled V' inum off :=
  ⟨hf.le_max, fun bn hbn => by rw [hl.persist bn (hf.held bn hbn)]; exact hf.held bn hbn⟩

theorem withInode_putBytes (im : Image) (inum : Nat) (din : Inode) (x o : Nat) (bs : List UInt8) :
    ({ im with disk := im.disk.putBytes x o bs } : Image).withInode inum din =
      { im.withInode inum din with disk := (im.withInode inum din).disk.putBytes x o bs } := rfl

/-- Bytes copied into a block inode `inum` holds: nothing `iappend` keeps changes. -/
theorem MkInv.linked_putBytes {V : Image} (h : MkInv V) {inum bn x : Nat}
    (hx : Refs mkfsSb V.disk (.data inum bn) x) (o : Nat) (bs : List UInt8) :
    Linked V { V with disk := V.disk.putBytes x o bs } inum :=
  ⟨h.write_data hx _, rfl, fun _ _ => rfl, rfl, rfl,
    fun bn' _ => h.blockAddr_update hx _ hx.1 hx.2.1 bn'⟩

/-- What every step of `iappend` keeps: `freeblock` only grows, and the next inode and the inodes on
disk stay (`iappend` works on its copy `din`). -/
structure Grows (im im' : Image) : Prop where
  fb_le : im.freeblock ≤ im'.freeblock
  freeinode_eq : im'.freeinode = im.freeinode
  inode_eq : im'.disk.inode = im.disk.inode

theorem Grows.refl (im : Image) : Grows im im := ⟨le_rfl, rfl, rfl⟩

theorem Grows.trans {im im' im'' : Image} (h1 : Grows im im') (h2 : Grows im' im'') : Grows im im'' :=
  ⟨h1.fb_le.trans h2.fb_le, h2.freeinode_eq.trans h1.freeinode_eq, h2.inode_eq.trans h1.inode_eq⟩

/-- The copy changes only the bytes of a block. -/
theorem Grows.putBytes (im : Image) (x o : Nat) (bs : List UInt8) :
    Grows im { im with disk := im.disk.putBytes x o bs } := ⟨le_rfl, rfl, rfl⟩

theorem iappendBlock_grows (im : Image) (din : Inode) (fbn : Nat) :
    Grows im (iappendBlock im din fbn).1 := by
  unfold iappendBlock iappendEntry
  split_ifs <;> exact ⟨by simp only [Image.bump, Image.setEntry]; omega, rfl, rfl⟩

theorem iappendBlock_type (im : Image) (din : Inode) (fbn : Nat) :
    (iappendBlock im din fbn).2.1.type = din.type := by
  unfold iappendBlock iappendEntry
  split_ifs <;> rfl

/-- The loop changes the blocks and `din`'s addresses only. -/
theorem iappendLoop_frame : ∀ (fuel : Nat) (im : Image) (din : Inode) (off : Nat)
    (p : List UInt8) {r : Image × Inode × Nat}, iappendLoop fuel im din off p = .ok r →
    Grows im r.1 ∧ r.2.1.type = din.type
  | 0, im, din, off, p, r, h => by
    cases h
    exact ⟨Grows.refl im, rfl⟩
  | fuel + 1, im, din, off, p, r, h => by
    rw [iappendLoop] at h
    split_ifs at h with hp hf
    · dsimp only at h
      obtain ⟨hg, hty⟩ := iappendLoop_frame fuel _ _ _ _ h
      exact ⟨((iappendBlock_grows im din _).trans (Grows.putBytes _ _ _ _)).trans hg,
        hty.trans (iappendBlock_type im din _)⟩
    · cases h
      exact ⟨Grows.refl im, rfl⟩

/-- Each turn copies at least one byte, so with as much fuel as bytes the loop copies them all. -/
theorem iappendLoop_off : ∀ (fuel : Nat) (im : Image) (din : Inode) (off : Nat)
    (p : List UInt8) {r : Image × Inode × Nat}, iappendLoop fuel im din off p = .ok r →
    p.length ≤ fuel → r.2.2 = off + p.length
  | 0, im, din, off, p, r, h, hp => by
    cases h
    simp at hp ⊢
    exact hp
  | fuel + 1, im, din, off, p, r, h, hfuel => by
    rw [iappendLoop] at h
    split_ifs at h with hp hf
    · dsimp only at h
      -- the turn copies `n1` bytes, at least one as `off` is below the end of its block
      have hn1 : 0 < (off / bSize + 1) * bSize - off := by
        have : off < (off / bSize + 1) * bSize := by unfold bSize; omega
        omega
      have hrest := iappendLoop_off fuel _ _ _ _ h (by simp only [List.length_drop]; omega)
      rw [hrest, List.length_drop]
      omega
    · cases h
      simp only [gt_iff_lt, not_lt, Nat.le_zero, List.length_eq_zero_iff] at hp
      simp [hp]

/-- One turn of `iappend`'s loop and then the rest: the blocks inode `inum` holds are kept, and every
block below the new offset is held. The induction is on the fuel; `freeblock` fits in the `uint`
entries because it only grows up to its final value. -/
theorem iappendLoop_spec {inum : Nat} (hi : mkfsSb.HasInode inum) :
    ∀ (fuel : Nat) (im : Image) (din : Inode) (off : Nat) (p : List UInt8) {r : Image × Inode × Nat},
    iappendLoop fuel im din off p = .ok r → r.1.freeblock ≤ 2 ^ 32 →
    MkInv (im.withInode inum din) → din.type ≠ .free → Filled (im.withInode inum din) inum off →
    Linked (im.withInode inum din) (r.1.withInode inum r.2.1) inum ∧
      Filled (r.1.withInode inum r.2.1) inum r.2.2
  | 0, im, din, off, p, r, h, _, hinv, _, hfill => by
    cases h
    exact ⟨Linked.refl hinv, hfill⟩
  | fuel + 1, im, din, off, p, r, h, hbound, hinv, hty, hfill => by
    rw [iappendLoop] at h
    split_ifs at h with hp hf
    · -- block `off / BSIZE` chosen, then the bytes up to its end copied into it
      dsimp only at h
      have hfb := (iappendLoop_frame fuel _ _ _ _ h).1.fb_le.trans hbound
      have c := iappendBlock_spec hinv hi hty hf hfb
      set r0 := iappendBlock im din (off / bSize)
      set n1 := min p.length ((off / bSize + 1) * bSize - off)
      set im1 : Image :=
        { r0.1 with disk := r0.1.disk.putBytes r0.2.2 (off - off / bSize * bSize) (p.take n1) }
      have htyc := c.type_eq
      simp only [withInode_inode_self] at htyc
      have href : Refs mkfsSb (r0.1.withInode inum r0.2.1).disk (.data inum (off / bSize)) r0.2.2 :=
        ⟨hi, by simpa [Pos.inum, htyc] using hty, c.pos, c.addr⟩
      have l2 : Linked _ (im1.withInode inum r0.2.1) inum :=
        c.inv.linked_putBytes href (off - off / bSize * bSize) (p.take n1)
      have hty1 : r0.2.1.type ≠ .free := by rw [htyc]; exact hty
      have hn1 : off + n1 ≤ (off / bSize + 1) * bSize := by
        have : off < (off / bSize + 1) * bSize := by unfold bSize; omega
        omega
      have hfill2 : Filled (im1.withInode inum r0.2.1) inum (off + n1) := by
        refine ⟨?_, fun bn hbn => ?_⟩
        · calc off + n1 ≤ (off / bSize + 1) * bSize := hn1
            _ ≤ maxFile * bSize := Nat.mul_le_mul_right _ hf
        · by_cases hlt : bn * bSize < off
          · exact ((hfill.linked c.toLinked).linked l2).held bn hlt
          · -- past `off`, only block `off / BSIZE` is new
            have h1 : bn < off / bSize + 1 := Nat.lt_of_mul_lt_mul_right (hbn.trans_le hn1)
            have h2 : off / bSize ≤ bn := Nat.le_of_mul_le_mul_right
              ((Nat.div_mul_le_self off bSize).trans (not_lt.mp hlt)) (by decide : 0 < bSize)
            obtain rfl : bn = off / bSize := by omega
            rw [l2.persist _ (by rw [c.addr]; exact c.pos), c.addr]
            exact c.pos
      obtain ⟨l3, hfill3⟩ := iappendLoop_spec hi fuel _ _ _ _ h hbound l2.inv hty1 hfill2
      exact ⟨(c.toLinked.trans l2).trans l3, hfill3⟩
    · cases h
      exact ⟨Linked.refl hinv, hfill⟩

/-! ### `iappend` -/

theorem iappend_ok {im im' : Image} {inum : Nat} {p : List UInt8} (h : iappend im inum p = .ok im') :
    ∃ r, iappendLoop p.length im (im.disk.inode inum) (im.disk.inode inum).size p = .ok r ∧
      im' = r.1.withInode inum { r.2.1 with size := r.2.2 } := by
  unfold iappend at h
  cases hr : iappendLoop p.length im (im.disk.inode inum) (im.disk.inode inum).size p with
  | error e =>
    rw [hr] at h
    cases h
  | ok r =>
    rw [hr] at h
    cases h
    exact ⟨r, rfl, rfl⟩

theorem withInode_self (im : Image) (inum : Nat) : im.withInode inum (im.disk.inode inum) = im := by
  simp [Image.withInode]

theorem withInode_size (im : Image) (inum : Nat) (din : Inode) (z : Nat) :
    im.withInode inum { din with size := z } =
      { im.withInode inum din with disk := (im.withInode inum din).disk.setSize inum z } := by
  simp [Image.withInode, DiskState.setSize]

/-- Giving inode `i` a size below which it holds every block keeps what `mkfs` keeps. -/
theorem MkInv.setSize {im : Image} (h : MkInv im) {i z : Nat} (hf : Filled im i z) :
    MkInv { im with disk := im.disk.setSize i z } := by
  have hrefs := refs_setSize mkfsSb im.disk i z
  refine ⟨h.one_le, h.meta_le, h.zero, fun b => ?_, fun p q b hp hq => ?_, fun j hj => ?_,
    fun j hj => ?_, fun j hj hty => ?_, h.noHoles.setSize mkfsSb hf.held⟩
  · simp only [hrefs]
    exact h.held b
  · exact h.unique p q b ((hrefs p b).mp hp) ((hrefs q b).mp hq)
  · simpa using h.free_above j hj
  · simp only [setSize_type, setSize_addrs] at hj ⊢
    exact h.free_zero j hj
  · rw [setSize_type] at hty
    rw [setSize_size]
    split
    · exact hf.le_max
    · exact h.size_le j hj hty

/-- What `iappend(inum, p, n)` does to the image: `freeblock` only grows, the next inode and the other
inodes stay, inode `inum` keeps its type and grows by `n` bytes; and it keeps what `mkfs` keeps when
`freeblock` stays within the `uint` entries. -/
structure Appended (im im' : Image) (inum n : Nat) : Prop where
  fb_le : im.freeblock ≤ im'.freeblock
  freeinode_eq : im'.freeinode = im.freeinode
  inode_ne : ∀ j, j ≠ inum → im'.disk.inode j = im.disk.inode j
  type_eq : (im'.disk.inode inum).type = (im.disk.inode inum).type
  size_eq : (im'.disk.inode inum).size = (im.disk.inode inum).size + n
  inv : im'.freeblock ≤ 2 ^ 32 → MkInv im → mkfsSb.HasInode inum →
    (im.disk.inode inum).type ≠ .free → MkInv im'

theorem Appended.refl (im : Image) (inum : Nat) : Appended im im inum 0 :=
  ⟨le_rfl, rfl, fun _ _ => rfl, rfl, rfl, fun _ h _ _ => h⟩

theorem Appended.trans {im im' im'' : Image} {inum m n : Nat} (h1 : Appended im im' inum m)
    (h2 : Appended im' im'' inum n) : Appended im im'' inum (m + n) := by
  refine ⟨h1.fb_le.trans h2.fb_le, h2.freeinode_eq.trans h1.freeinode_eq,
    fun j hj => (h2.inode_ne j hj).trans (h1.inode_ne j hj), h2.type_eq.trans h1.type_eq,
    by rw [h2.size_eq, h1.size_eq, Nat.add_assoc], fun hb h hi hty => ?_⟩
  have h' := h1.inv (h2.fb_le.trans hb) h hi hty
  exact h2.inv hb h' hi (by rw [h1.type_eq]; exact hty)

/-- `iappend(inum, p, n)` -/
theorem iappend_appended {im im' : Image} {inum : Nat} {p : List UInt8}
    (h : iappend im inum p = .ok im') : Appended im im' inum p.length := by
  obtain ⟨r, hr, rfl⟩ := iappend_ok h
  obtain ⟨hg, htype⟩ := iappendLoop_frame _ _ _ _ _ hr
  have hoff := iappendLoop_off _ _ _ _ _ hr le_rfl
  refine ⟨hg.fb_le, hg.freeinode_eq, fun j hj => ?_, by simpa using htype, by simpa using hoff,
    fun hb hinv hi hty => ?_⟩
  · rw [withInode_inode_of_ne _ _ hj, hg.inode_eq]
  · -- the loop from the image as it is, which is its own view with `din` written back
    have hfill : Filled (im.withInode inum (im.disk.inode inum)) inum (im.disk.inode inum).size := by
      rw [withInode_self]
      exact ⟨hinv.size_le inum hi hty, hinv.noHoles inum hi hty⟩
    obtain ⟨hl, hfill'⟩ := iappendLoop_spec hi _ _ _ _ _ hr hb
      (by rw [withInode_self]; exact hinv) hty hfill
    rw [withInode_size]
    exact hl.inv.setSize hfill'

/-! ### Files -/

@[simp] theorem ialloc_snd (im : Image) (type : IType) : (im.ialloc type).2 = im.freeinode := rfl

@[simp] theorem ialloc_freeinode (im : Image) (type : IType) :
    (im.ialloc type).1.freeinode = im.freeinode + 1 := rfl

@[simp] theorem ialloc_freeblock (im : Image) (type : IType) :
    (im.ialloc type).1.freeblock = im.freeblock := rfl

@[simp] theorem ialloc_inode_self (im : Image) (type : IType) :
    (im.ialloc type).1.disk.inode im.freeinode = Inode.zeroed type := by
  simp [Image.ialloc]

theorem ialloc_inode_of_ne (im : Image) (type : IType) {j : Nat} (h : j ≠ im.freeinode) :
    (im.ialloc type).1.disk.inode j = im.disk.inode j := by
  simp [Image.ialloc, Function.update_of_ne h]

/-- A name with at most `DIRSIZ` bytes makes a 16-byte entry. -/
theorem dirent_length (inum : Nat) {name : List UInt8} (h : name.length ≤ dirSiz) :
    (dirent inum name).length = 2 + dirSiz := by
  simp [dirent]
  omega

/-- What adding `n` files does to the image: `freeblock` only grows, `n` inodes are handed out and
the root directory grows by `n` entries; and it keeps what `mkfs` keeps when `freeblock` stays within
the `uint` entries and the inodes within `NINODES`. -/
structure Added (im im' : Image) (n : Nat) : Prop where
  fb_le : im.freeblock ≤ im'.freeblock
  freeinode_eq : im'.freeinode = im.freeinode + n
  root_type : (im'.disk.inode rootIno).type = (im.disk.inode rootIno).type
  root_size : (im'.disk.inode rootIno).size = (im.disk.inode rootIno).size + (2 + dirSiz) * n
  inv : im'.freeblock ≤ 2 ^ 32 → im'.freeinode ≤ nInodes → MkInv im →
    (im.disk.inode rootIno).type ≠ .free → MkInv im'

theorem Added.refl (im : Image) : Added im im 0 :=
  ⟨le_rfl, rfl, rfl, rfl, fun _ _ h _ => h⟩

theorem Added.trans {im im' im'' : Image} {m n : Nat} (h1 : Added im im' m) (h2 : Added im' im'' n) :
    Added im im'' (m + n) := by
  refine ⟨h1.fb_le.trans h2.fb_le, by rw [h2.freeinode_eq, h1.freeinode_eq, Nat.add_assoc],
    h2.root_type.trans h1.root_type, by rw [h2.root_size, h1.root_size, Nat.mul_add, Nat.add_assoc],
    fun hb hfi h hty => ?_⟩
  have h' := h1.inv (h2.fb_le.trans hb) (by rw [h2.freeinode_eq] at hfi; omega) h hty
  exact h2.inv hb hfi h' (by rw [h1.root_type]; exact hty)

theorem hasInode_rootIno : mkfsSb.HasInode rootIno := ⟨le_rfl, by decide⟩

/-- A file of `mkfs`: a new inode, its entry in the root directory, then its bytes chunk by chunk. -/
theorem mkfsFile_added {im im' : Image} {file : List UInt8 × List UInt8}
    (h : mkfsFile im file = .ok im') (hroot : rootIno < im.freeinode) : Added im im' 1 := by
  unfold mkfsFile at h
  by_cases hc : 47 ∈ file.1 ∨ file.1.length > dirSiz
  · simp only [hc, if_true] at h
    obtain ⟨_, h1, -⟩ := Trans.bind_eq_ok.mp h
    cases h1
  simp only [hc, if_false] at h
  obtain ⟨im2, h2, h3⟩ := Trans.bind_eq_ok.mp h
  set im1 := (im.ialloc .file).1
  set inum := im.freeinode
  have hne : rootIno ≠ inum := Nat.ne_of_lt hroot
  have a1 := iappend_appended h2
  have a2 := Trans.foldlM_weighted (R := fun n a b => Appended a b inum n) List.length
    (fun a => Appended.refl a inum) Appended.trans iappend_appended _ h3
  have hroot1 : im1.disk.inode rootIno = im.disk.inode rootIno := ialloc_inode_of_ne im _ hne
  have hinum2 : im2.disk.inode inum = Inode.zeroed .file := by
    rw [a1.inode_ne inum hne.symm]
    exact ialloc_inode_self im _
  refine ⟨a1.fb_le.trans a2.fb_le, by rw [a2.freeinode_eq, a1.freeinode_eq]; rfl, ?_, ?_,
    fun hb hfi hinv hty => ?_⟩
  · rw [a2.inode_ne _ hne, a1.type_eq, hroot1]
  · rw [a2.inode_ne _ hne, a1.size_eq, hroot1, dirent_length _ (by omega), Nat.mul_one]
  · -- the root's entry first, then the new inode's bytes
    have hinv1 : MkInv im1 := hinv.ialloc .file
    have hfi' : im'.freeinode = inum + 1 := by rw [a2.freeinode_eq, a1.freeinode_eq]; rfl
    have hinv2 := a1.inv (a2.fb_le.trans hb) hinv1 hasInode_rootIno (by rw [hroot1]; exact hty)
    exact a2.inv hb hinv2 ⟨hinv.one_le, by rw [hfi'] at hfi; show inum < nInodes; omega⟩
      (by rw [hinum2]; exact nofun)

/-- The files of `mkfs`, one after the other. -/
theorem foldlM_mkfsFile_added (files : List (List UInt8 × List UInt8)) {im im' : Image}
    (h : files.foldlM mkfsFile im = .ok im') (hroot : rootIno < im.freeinode) :
    Added im im' files.length := by
  have := Trans.foldlM_weighted (R := fun n a b => rootIno < a.freeinode → Added a b n)
    (fun _ => 1) (fun a _ => Added.refl a)
    (fun h1 h2 ha => (h1 ha).trans (h2 (by rw [(h1 ha).freeinode_eq]; omega)))
    (fun hx ha => mkfsFile_added hx ha) files h hroot
  rw [List.map_const'] at this
  simpa using this

/-! ## The image -/

section Bitmap

variable {im : Image} (h : MkInv im)
include h

/-- The bitmap block is metadata: no inode holds it. -/
theorem MkInv.not_refs_bmap (p : Pos) : ¬ Refs mkfsSb im.disk p mkfsSb.bmapstart := fun hp => by
  have hle := ((h.held _).mp ⟨p, hp⟩).1
  rw [nMeta_eq] at hle
  exact absurd hle (by decide)

/-- With the bitmap of `balloc(freeblock)` written, the kernel's allocation invariant holds, as long
as every block handed out lies on the disk. -/
theorem MkInv.allocInv_bitmap (hfb : im.freeblock ≤ mkfsSb.size) :
    AllocInv mkfsSb
      { im.disk with blk := Function.update im.disk.blk mkfsSb.bmapstart (bitmapBytes im.freeblock) } := by
  have hrefs := refs_update_blk mkfsSb (bitmapBytes im.freeblock) fun j => h.not_refs_bmap (.ind j)
  have hmeta := h.meta_le
  refine ⟨fun b hb => ?_, fun p q b hp hq => h.unique p q b ((hrefs p b).mp hp) ((hrefs q b).mp hq),
    fun p b hp => ?_, fun i _ hty k => h.free_zero i hty k, h.size_le⟩
  · -- the bitmap marks the blocks below `freeblock`: the metadata, then those the inodes hold
    rw [inUse_bitmapBytes hb, decide_eq_true_iff]
    simp only [hrefs, h.held, mkfsSb_nmeta]
    omega
  · have hb := (h.held b).mp ⟨p, (hrefs p b).mp hp⟩
    rw [mkfsSb_nmeta]
    exact ⟨hb.1, Nat.lt_of_lt_of_le hb.2 hfb⟩

theorem MkInv.noHoles_bitmap (v : Nat → UInt8) :
    NoHoles mkfsSb { im.disk with blk := Function.update im.disk.blk mkfsSb.bmapstart v } := by
  intro j hj hty bn hbn
  rw [blockAddr_update_blk v (ind_ne_of_not_refs mkfsSb (h.not_refs_bmap (.ind j)) hj hty)]
  exact h.noHoles j hj hty bn hbn

end Bitmap

/-- The image `mkfs` writes satisfies the kernel's allocation invariant, when its blocks lie on the
disk and its inodes within `NINODES` (`mkfs` checks neither). The root directory is rounded up to a
whole block, so it has a hole exactly when its `2 + n` entries fill its last block. -/
theorem mkfs_allocInv {files : List (List UInt8 × List UInt8)} {im : Image}
    (h : mkfs files = .ok im) (hsize : im.freeblock ≤ fsSize) (hfiles : files.length + 2 ≤ nInodes) :
    AllocInv mkfsSb im.disk ∧ ((files.length + 2) % 64 ≠ 0 → NoHoles mkfsSb im.disk) := by
  unfold mkfs at h
  have hz : Image.ialloc ⟨⟨fun _ _ => 0, fun _ => Inode.zeroed .free⟩, 1, nMeta⟩ .dir =
      ((Image.zeroed.ialloc .dir).1, rootIno) := rfl
  dsimp only at h
  rw [hz] at h
  dsimp only at h
  rw [if_neg (by decide)] at h
  obtain ⟨im2, h2, h⟩ := Trans.bind_eq_ok.mp h
  obtain ⟨im3, h3, h⟩ := Trans.bind_eq_ok.mp h
  obtain ⟨im4, h4, h⟩ := Trans.bind_eq_ok.mp h
  split_ifs at h with hb
  · obtain ⟨_, h1, -⟩ := Trans.bind_eq_ok.mp h
    cases h1
  cases h
  -- the root with `.` and `..`, then the files
  set im1 := (Image.zeroed.ialloc .dir).1
  have a2 := iappend_appended h2
  have a3 := iappend_appended h3
  have ad := foldlM_mkfsFile_added files h4 (by rw [a3.freeinode_eq, a2.freeinode_eq]; decide)
  have hsize' : im4.freeblock ≤ fsSize := hsize
  have hb32 : im4.freeblock ≤ 2 ^ 32 := by unfold fsSize at hsize'; omega
  have hroot1 : im1.disk.inode rootIno = Inode.zeroed .dir := ialloc_inode_self _ _
  have hty1 : (im1.disk.inode rootIno).type ≠ .free := by rw [hroot1]; exact nofun
  have hinv2 := a2.inv ((a3.fb_le.trans ad.fb_le).trans hb32) (mkInv_zeroed.ialloc .dir)
    hasInode_rootIno hty1
  have hinv3 := a3.inv (ad.fb_le.trans hb32) hinv2 hasInode_rootIno (by rw [a2.type_eq]; exact hty1)
  have hinv4 := ad.inv hb32 (by rw [ad.freeinode_eq, a3.freeinode_eq, a2.freeinode_eq]; exact hfiles.trans' (by simp [im1, Image.zeroed]; omega))
    hinv3 (by rw [a3.type_eq, a2.type_eq]; exact hty1)
  have hty4 : (im4.disk.inode rootIno).type ≠ .free := by
    rw [ad.root_type, a3.type_eq, a2.type_eq]; exact hty1
  have hsize4 : (im4.disk.inode rootIno).size = (2 + dirSiz) * (files.length + 2) := by
    rw [ad.root_size, a3.size_eq, a2.size_eq, hroot1, dirent_length _ (by decide),
      dirent_length _ (by decide)]
    simp only [Inode.zeroed]
    unfold dirSiz
    omega
  have hfiles' : files.length + 2 ≤ 200 := hfiles
  refine ⟨(hinv4.allocInv_bitmap hsize).setSize mkfsSb ?_, fun hmod => ?_⟩
  · rw [hsize4, maxFile_eq]
    unfold bSize dirSiz
    omega
  · refine (hinv4.noHoles_bitmap _).setSize mkfsSb fun bn hbn => ?_
    rw [blockAddr_update_blk _ (ind_ne_of_not_refs mkfsSb (hinv4.not_refs_bmap (.ind rootIno))
      hasInode_rootIno hty4)]
    refine hinv4.noHoles rootIno hasInode_rootIno hty4 bn ?_
    rw [hsize4] at hbn ⊢
    unfold bSize dirSiz at hbn ⊢
    omega

/-! ## A root directory that fills its block -/

/-- Sixty-two files with distinct two-letter names and no contents. -/
def sixtyTwoFiles : List (List UInt8 × List UInt8) :=
  (List.range 62).map fun i => ([(97 + i / 26).toUInt8, (97 + i % 26).toUInt8], [])

/-- Kernel memory as `readi`'s copy into `dirlookup`'s `de` sees it. -/
def kernelMem : Mem := ⟨fun _ => false, fun _ => false, fun _ => 0⟩

/-- With sixty-two files the root's `2 + 62` entries fill its first block exactly, and `mkfs`
rounds its size up to two blocks: its second block lies below its size with no address. `readi`
of the root over that block, as `dirlookup` runs it for a name the root lacks, makes `bmap`
allocate it. -/
theorem mkfs_root_hole :
    ∃ im, mkfs sixtyTwoFiles = .ok im ∧ (im.disk.inode rootIno).size = 2 * bSize ∧
      blockAddr im.disk rootIno 1 = 0 ∧ ¬ NoHoles mkfsSb im.disk ∧
      ∃ r, readi mkfsSb kernelMem false im.disk rootIno 0 1024 16 = .ok r ∧ blockAddr r.1 rootIno 1 ≠ 0 := by
  have h : (mkfs sixtyTwoFiles).toOption.map (fun im =>
      (im.disk.inode rootIno).type == .dir && (im.disk.inode rootIno).size == 2 * bSize &&
        blockAddr im.disk rootIno 1 == 0 &&
        (readi mkfsSb kernelMem false im.disk rootIno 0 1024 16).toOption.map
          (fun r => blockAddr r.1 rootIno 1 != 0) == some true) = some true := by
    decide +kernel
  obtain ⟨im, him, hp⟩ := Trans.exists_of_toOption_map h
  simp only [Bool.and_eq_true, beq_iff_eq] at hp
  obtain ⟨⟨⟨htype, hsize⟩, hblk⟩, hread⟩ := hp
  obtain ⟨r, hr, hr'⟩ := Trans.exists_of_toOption_map hread
  refine ⟨im, him, hsize, hblk, fun hn => ?_, r, hr, by simpa using hr'⟩
  -- block 1 lies below the size, so `NoHoles` wants it mapped
  have hty : (im.disk.inode rootIno).type ≠ .free := by
    rw [htype]
    exact nofun
  exact hn rootIno hasInode_rootIno hty 1 (by rw [hsize]; decide) hblk

end Xv6.Blocks
