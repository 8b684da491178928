import Xv6.Inodes

/-! The inode table on the disk, as `mkfs` lays it out and both `mkfs` and the kernel use it. -/

namespace Xv6

open Exec Function

/-- The superblock of `mkfs` for a number of inodes. -/
def mkfsLayout (ninodes : Nat) : Superblock :=
  let nbitmap := FSSIZE / (BSIZE * 8) + 1
  let ninodeblocks := ninodes / IPB + 1
  let nlog := LOGSIZE
  let nmeta := 2 + nlog + ninodeblocks + nbitmap
  { size := FSSIZE
    nblocks := FSSIZE - nmeta
    ninodes
    nlog
    logstart := 2
    inodestart := 2 + nlog
    bmapstart := 2 + nlog + ninodeblocks }

example : mkfsLayout NINODES = mkfsSb := rfl

def winode (sb : Superblock) (sector : Nat → Block) (inum : Nat) (ip : Dinode) : Nat → Block :=
  let bn := IBLOCK inum sb
  update sector bn (ip.save (inum % IPB) (sector bn))

def rinode (sb : Superblock) (sector : Nat → Block) (inum : Nat) : Dinode :=
  let bn := IBLOCK inum sb
  Dinode.load (sector bn) (inum % IPB)

/-- Inode `i` has been stored, and the others are as before. -/
def StoredAt (sb : Superblock) (i : Nat) (dinode : Dinode) (before after : Nat → Block) : Prop :=
  ∀ j < sb.ninodes, rinode sb after j = if j = i then dinode else rinode sb before j

theorem IBLOCK_mkfsLayout {ninodes i : Nat} (small : ninodes < 2 ^ 32) (lt : i < ninodes) :
    IBLOCK i (mkfsLayout ninodes) = i / IPB + (mkfsLayout ninodes).inodestart := by
  simp only [IBLOCK, mkfsLayout, IPB, BSIZE, LOGSIZE, MAXOPBLOCKS]
  omega

theorem winode_storedAt {ninodes i : Nat} (small : ninodes < 2 ^ 32) (lt : i < ninodes)
    (sector : Nat → Block) (ip : Dinode) :
    StoredAt (mkfsLayout ninodes) i ip sector (winode (mkfsLayout ninodes) sector i ip) := by
  intro j other
  refine dinodeAt_store sector ip fun eq => ?_
  rw [IBLOCK_mkfsLayout small lt, IBLOCK_mkfsLayout small other] at eq
  exact Nat.add_right_cancel eq

/-- Entry 0 of the cache refers to inode 9, which has not been read in. -/
def ninthFs : Fs :=
  (Fs.boot Disk.blank.inOp).setInode 0 ⟨ROOTDEV, 9, 1, 0, Bytes.zero, 0, Dinode.fresh T_DIR⟩

end Xv6
