import Xv6.Lib.Bytes

/-! Constants of `param.h`, `fs.h`, `stat.h`, `file.h` and `fcntl.h`, the disk block, and the
ways in which a kernel path can fail to return. -/

namespace Xv6

def NPROC : Nat := 64
def NOFILE : Nat := 16
def NFILE : Nat := 100
def NINODE : Nat := 50
def NDEV : Nat := 10
def ROOTDEV : Nat := 1
def MAXOPBLOCKS : Nat := 10
def LOGSIZE : Nat := MAXOPBLOCKS * 3
def NBUF : Nat := MAXOPBLOCKS * 3
def FSSIZE : Nat := 1000

instance : NeZero NINODE := ⟨by decide⟩
instance : NeZero NFILE := ⟨by decide⟩
instance : NeZero NPROC := ⟨by decide⟩
instance : NeZero NOFILE := ⟨by decide⟩
instance : NeZero NBUF := ⟨by decide⟩

def ROOTINO : Nat := 1
def BSIZE : Nat := 512
def NDIRECT : Nat := 12
def NINDIRECT : Nat := BSIZE / 4
def MAXFILE : Nat := NDIRECT + NINDIRECT
def IPB : Nat := BSIZE / 64
def BPB : Nat := BSIZE * 8
def DIRSIZ : Nat := 14

def T_DIR : BitVec 16 := 1
def T_FILE : BitVec 16 := 2
def T_DEV : BitVec 16 := 3
def T_SDIR : BitVec 16 := 4
def T_SFILE : BitVec 16 := 5

def I_VALID : BitVec 32 := 2

def O_RDONLY : Nat := 0x000
def O_WRONLY : Nat := 0x001
def O_RDWR : Nat := 0x002
def O_CREATE : Nat := 0x200
def O_SFILE : Nat := 0x400

abbrev Block := Bytes BSIZE

/-- Why a kernel path does not return: a call of `panic` with its message, an access through
a null pointer, or a sleep that no other running code can end. -/
inductive Stop where
  | panic (message : String)
  | fault
  | blocked
  deriving DecidableEq

end Xv6
