import Xv6.InodeCore

/-! Executable model of the directory and path layers of `fs.c`. A C string is the list of
its bytes before the terminator. -/

namespace Xv6

open Exec

/-- `strncmp`; the end of a list is read as the terminator. -/
def strncmp : Nat → List UInt8 → List UInt8 → Int
  | 0, _, _ => 0
  | n + 1, p, q =>
    if p.headD 0 ≠ 0 ∧ p.headD 0 = q.headD 0 then strncmp n p.tail q.tail
    else (p.headD 0).toNat - (q.headD 0).toNat

def namecmp (s t : List UInt8) : Int := strncmp DIRSIZ s t

/-- The bytes of a `struct dirent`, with `strncpy(de.name, name, DIRSIZ)`. -/
def direntBytes (inum : Nat) (name : List UInt8) : List UInt8 :=
  [wordByte inum 0, wordByte inum 1] ++ ((name.take DIRSIZ).takeWhile (· != 0) ++ List.replicate DIRSIZ 0).take DIRSIZ

def direntInum (de : List UInt8) : Nat := halfOf fun place => de.getD place 0

def direntName (de : List UInt8) : List UInt8 := de.drop 2

def deSize : Nat := 16

/-- One `struct dirent` read at `off`; `message` is the panic for a short read. -/
def readDirent (slot : Slot) (off : Nat) (message : String) : FsM (List UInt8) := do
  let de ← readi slot (BitVec.ofNat 32 off) (BitVec.ofNat 32 deSize)
  match de with
  | none => panic message
  | some bytes => if bytes.length ≠ deSize then panic message else return bytes

def dirlookupFrom (dp : Slot) (name : List UInt8) : Nat → Nat → FsM (Option (Slot × Nat))
  | 0, _ => return none
  | fuel + 1, off => do
      let ip ← inode dp
      if off < ip.dinode.size.toNat then do
        let de ← readDirent dp off "dirlink read"
        if direntInum de = 0 then dirlookupFrom dp name fuel (off + deSize)
        else if namecmp name (direntName de) = 0 then do
          let found ← iget ip.dev (direntInum de)
          return some (found, off)
        else dirlookupFrom dp name fuel (off + deSize)
      else return none

def dirlookup (dp : Slot) (name : List UInt8) : FsM (Option (Slot × Nat)) := do
  let ip ← inode dp
  if ip.dinode.type ≠ T_DIR ∧ ip.dinode.type ≠ T_SDIR then panic "dirlookup not DIR"
  else dirlookupFrom dp name (ip.dinode.size.toNat / deSize + 1) 0

def emptyDirent (dp : Slot) : Nat → Nat → FsM Nat
  | 0, off => return off
  | fuel + 1, off => do
      let ip ← inode dp
      if off < ip.dinode.size.toNat then do
        let de ← readDirent dp off "dirlink read"
        if direntInum de = 0 then return off else emptyDirent dp fuel (off + deSize)
      else return off

/-- Whether the entry was added; false for -1. -/
def dirlink (dp : Slot) (name : List UInt8) (inum : Nat) : FsM Bool := do
  let found ← dirlookup dp name
  match found with
  | some (ip, _) => do
      iput ip
      return false
  | none => do
      let ip ← inode dp
      let off ← emptyDirent dp (ip.dinode.size.toNat / deSize + 1) 0
      let count ← writei dp (fun place => (direntBytes inum name).getD place 0) (BitVec.ofNat 32 off)
        (BitVec.ofNat 32 deSize)
      if count ≠ deSize then panic "dirlink" else return true

def slash : UInt8 := 47

/-- The next path element, cut to `DIRSIZ` bytes, and the rest of the path. -/
def skipelem (path : List UInt8) : Option (List UInt8 × List UInt8) :=
  let path := path.dropWhile (· == slash)
  if path.isEmpty then none
  else
    some ((path.takeWhile (· != slash)).take DIRSIZ, (path.dropWhile (· != slash)).dropWhile (· == slash))

/-- The loop of `namex`. With `nameiparent` the last element is returned beside the inode. -/
def namexFrom (nameiparent : Bool) : Nat → Slot → List UInt8 → FsM (Option (Slot × List UInt8))
  | 0, _, _ => return none
  | fuel + 1, ip, path =>
    match skipelem path with
    | none =>
      if nameiparent then do
        iput ip
        return none
      else return some (ip, [])
    | some (name, path) => do
        ilock ip
        let node ← inode ip
        if node.dinode.type ≠ T_DIR ∧ node.dinode.type ≠ T_SDIR then do
          iunlockput ip
          return none
        else if nameiparent ∧ path.isEmpty then do
          iunlock ip
          return some (ip, name)
        else do
          let next ← dirlookup ip name
          match next with
          | none => do
              iunlockput ip
              return none
          | some (next, _) => do
              iunlockput ip
              namexFrom nameiparent fuel next path

def namexStart (cwd : Slot) (path : List UInt8) : FsM Slot :=
  if path.head? = some slash then iget ROOTDEV ROOTINO else idup cwd

def namex (cwd : Slot) (path : List UInt8) (nameiparent : Bool) : FsM (Option (Slot × List UInt8)) := do
  let ip ← namexStart cwd path
  namexFrom nameiparent (path.length + 1) ip path

def namei (cwd : Slot) (path : List UInt8) : FsM (Option Slot) := do
  let found ← namex cwd path false
  return found.map Prod.fst

def nameiparent (cwd : Slot) (path : List UInt8) : FsM (Option (Slot × List UInt8)) :=
  namex cwd path true

end Xv6
