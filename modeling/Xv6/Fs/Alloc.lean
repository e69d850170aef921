import Xv6.Fs.Mkfs

/-!
# Block allocation over any run of the file system

What the system calls do to blocks is made of five operations of the block layer: `ialloc`,
`writei` (through `bmap`; `dirlink`, `create` and `unlink` write directories with it), `readi`
(whose `bmap` allocates in a hole), `itrunc` (`O_TRUNC`) and `iput`. Each is one step of a system
whose state is the disk; a call is made only on an inode `ilock` accepts.

* `blockSys s0` : the system from the disk `s0`;
* `blockNext_spec` : from a state with the allocation invariant, no step panics and every step keeps
  it; `allocInv_reachable` : so it holds in every reachable state;
* `balloc_fresh` : under the invariant `balloc` hands out a data block no inode holds;
* `block_alloc_invariant` : all of this from the image `mkfs` writes.
-/

namespace Xv6.Blocks

open Trans

instance (sb : Superblock) (i : Nat) : Decidable (sb.HasInode i) :=
  inferInstanceAs (Decidable (1 ≤ i ∧ i < sb.ninodes))

/-- A block-layer operation of a system call. -/
inductive BlockEv where
  | ialloc (type : IType)
  | writei (i : Nat) (mem : Mem) (user_src : Bool) (src : Nat) (off n : UInt32)
  | readi (i : Nat) (mem : Mem) (user_dst : Bool) (dst : Nat) (off n : UInt32)
  | itrunc (i : Nat)
  | iput (i : Nat) (unlinked : Bool)

section System

variable (sb : Superblock)

/-- A call on inode `i` after `ilock(ip)`: made only when the inode is in range and allocated. -/
def onLocked (s : DiskState) (i : Nat) (call : Except String DiskState) : Outcome DiskState :=
  if sb.HasInode i ∧ (s.inode i).type ≠ .free then Outcome.ofExcept call else .blocked

/-- One operation, whole. -/
def blockNext (s : DiskState) : BlockEv → Outcome DiskState
  | .ialloc type => .ok (ialloc sb s type).1
  | .writei i mem user_src src off n =>
    onLocked sb s i ((writei sb mem user_src s i src off n).map Prod.fst)
  | .readi i mem user_dst dst off n => onLocked sb s i ((readi sb mem user_dst s i dst off n).map Prod.fst)
  | .itrunc i => onLocked sb s i (itrunc sb s i)
  | .iput i unlinked => onLocked sb s i (iput sb s i unlinked)

/-- The block layer from the disk `s0`. -/
def blockSys (s0 : DiskState) : System DiskState BlockEv where
  init := s0
  next := blockNext sb

variable {sb}

/-- A call that returns a state keeping the invariant, under the guard of `ilock`. -/
theorem onLocked_spec {s : DiskState} {i : Nat} {call : Except String DiskState}
    (h : sb.HasInode i → (s.inode i).type ≠ .free → ∃ s', call = .ok s' ∧ AllocInv sb s') :
    onLocked sb s i call = .blocked ∨ ∃ s', onLocked sb s i call = .ok s' ∧ AllocInv sb s' := by
  unfold onLocked
  split
  · next hg =>
    obtain ⟨s', hc, hs'⟩ := h hg.1 hg.2
    exact .inr ⟨s', by rw [hc]; rfl, hs'⟩
  · exact .inl rfl

/-- The step lemma: from a state with the allocation invariant an operation is not made, or moves
to a state with the invariant; it never panics. -/
theorem blockNext_spec {s : DiskState} (hs : AllocInv sb s) (e : BlockEv) :
    blockNext sb s e = .blocked ∨ ∃ s', blockNext sb s e = .ok s' ∧ AllocInv sb s' := by
  cases e with
  | ialloc type => exact .inr ⟨_, rfl, (ialloc_spec sb hs type).1⟩
  | writei i mem user_src src off n =>
    refine onLocked_spec fun hi hty => ?_
    obtain ⟨s', r, hw, hs', -⟩ := writei_total sb hs hi hty mem user_src src off n
    exact ⟨s', by rw [hw]; rfl, hs'⟩
  | readi i mem user_dst dst off n =>
    refine onLocked_spec fun hi hty => ?_
    obtain ⟨s', mem', r, hr, hg⟩ := readi_total sb hs hi hty mem user_dst dst off n
    exact ⟨s', by rw [hr]; rfl, hg.inv⟩
  | itrunc i =>
    refine onLocked_spec fun hi hty => ?_
    obtain ⟨s', ht, htr⟩ := itrunc_spec hi hty hs
    exact ⟨s', ht, htr.inv hs⟩
  | iput i unlinked =>
    refine onLocked_spec fun hi hty => ?_
    obtain ⟨s', hp, hs', -⟩ := iput_spec sb hs hi hty unlinked
    exact ⟨s', hp, hs'⟩

theorem blockNext_ne_panic {s : DiskState} (hs : AllocInv sb s) (e : BlockEv) (m : String) :
    blockNext sb s e ≠ .panic m := by
  rcases blockNext_spec hs e with h | ⟨s', h, -⟩ <;> rw [h] <;> exact nofun

/-- The run lemma: the allocation invariant holds in every state reached from one that has it. -/
theorem allocInv_reachable {s0 s : DiskState} (h0 : AllocInv sb s0)
    (hs : Reachable (blockSys sb s0) s) : AllocInv sb s :=
  Reachable.induct _ h0 (fun t e t' hinv hstep => by
    change blockNext sb t e = .ok t' at hstep
    rcases blockNext_spec hinv e with h | ⟨s', h, hs'⟩
    · rw [h] at hstep
      cases hstep
    · rw [h] at hstep
      cases hstep
      exact hs') hs

/-- Under the invariant `balloc` runs out, or hands out a data block of the disk that no inode
holds. -/
theorem balloc_fresh {s : DiskState} (hs : AllocInv sb s) :
    (balloc sb s).2 = 0 ∨
      sb.nmeta ≤ (balloc sb s).2 ∧ (balloc sb s).2 < sb.size ∧ ∀ p, ¬ Refs sb s p (balloc sb s).2 := by
  rcases balloc_cases hs with ⟨h0, -⟩ | ⟨-, hlt, hfree, -⟩
  · exact .inl h0
  · obtain ⟨hmeta, hnot⟩ := free_of_not_inUse hs hlt hfree
    exact .inr ⟨hmeta, hlt, hnot⟩

end System

/-- From the image `mkfs` writes, whose blocks lie on the disk and whose inodes lie within
`NINODES`: in every state the block layer reaches, the bitmap marks exactly the metadata blocks and
the blocks the allocated inodes hold, each held at one position; no operation panics (so no
`bfree` frees a free block); and `balloc` hands out only a data block no inode holds. -/
theorem block_alloc_invariant {files : List (List UInt8 × List UInt8)} {im : Image}
    (hmk : mkfs files = .ok im) (hsize : im.freeblock ≤ fsSize) (hfiles : files.length + 2 ≤ nInodes)
    {s : DiskState} (hs : Reachable (blockSys mkfsSb im.disk) s) :
    AllocInv mkfsSb s ∧ (∀ e m, blockNext mkfsSb s e ≠ .panic m) ∧
      ((balloc mkfsSb s).2 = 0 ∨ mkfsSb.nmeta ≤ (balloc mkfsSb s).2 ∧
        (balloc mkfsSb s).2 < mkfsSb.size ∧ ∀ p, ¬ Refs mkfsSb s p (balloc mkfsSb s).2) := by
  have hinv := allocInv_reachable (mkfs_allocInv hmk hsize hfiles).1 hs
  exact ⟨hinv, blockNext_ne_panic hinv, balloc_fresh hinv⟩

/-- On the image of `mkfs` with no file, two files are created and written, the first truncated,
and the second grown past its first block. -/
theorem block_alloc_invariant_files :
    ∃ im s, mkfs [] = .ok im ∧ Reachable (blockSys mkfsSb im.disk) s ∧ (s.inode 2).size = 0 ∧
      (s.inode 3).size = 1050 ∧ (s.inode 3).addrs 1 ≠ 0 ∧
      AllocInv mkfsSb s ∧ (∀ e m, blockNext mkfsSb s e ≠ .panic m) ∧
      ((balloc mkfsSb s).2 = 0 ∨ mkfsSb.nmeta ≤ (balloc mkfsSb s).2 ∧
        (balloc mkfsSb s).2 < mkfsSb.size ∧ ∀ p, ¬ Refs mkfsSb s p (balloc mkfsSb s).2) := by
  have hok : (mkfs []).toOption.map Image.freeblock = some 47 := by decide +kernel
  have hrun : (match mkfs [] with
      | .ok im => (run (blockSys mkfsSb im.disk) im.disk
          [.ialloc .file, .writei 2 ⟨fun _ => true, fun _ => true, fun _ => 7⟩ false 0 0 3, .ialloc .file,
           .writei 3 ⟨fun _ => true, fun _ => true, fun _ => 7⟩ false 0 0 1030, .itrunc 2,
           .writei 3 ⟨fun _ => true, fun _ => true, fun _ => 7⟩ false 0 1030 20]).holds
          (fun s => (s.inode 2).size == 0 && (s.inode 3).size == 1050 && (s.inode 3).addrs 1 != 0)
      | .error _ => false) = true := by
    decide +kernel
  cases hm : mkfs [] with
  | error e =>
    rw [hm] at hok
    cases hok
  | ok im =>
    rw [hm] at hok hrun
    have hfb : im.freeblock = 47 := Option.some.inj hok
    obtain ⟨s, hs, hp⟩ := Reachable.run_holds _ .init hrun
    simp only [Bool.and_eq_true, beq_iff_eq, bne_iff_ne, ne_eq] at hp
    obtain ⟨⟨h2, h3⟩, ha⟩ := hp
    exact ⟨im, s, rfl, hs, h2, h3, ha, block_alloc_invariant hm (by rw [hfb]; decide) (by decide) hs⟩

end Xv6.Blocks
