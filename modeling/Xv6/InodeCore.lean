import Xv6.DiskCore

/-! Executable model of the inode layer of `fs.c`: on-disk inodes, the inode cache as an
array of structures in memory, and the functions that read, write and free inodes. -/

namespace Xv6

open Exec

/-- `struct dinode`; `addrs` is its 52-byte area, read as block numbers or, for a small file,
as the data. -/
structure Dinode where
  type : BitVec 16
  major : BitVec 16
  minor : BitVec 16
  nlink : BitVec 16
  size : BitVec 32
  addrs : Bytes 52

namespace Dinode

@[simps] def setType (dinode : Dinode) (type : BitVec 16) : Dinode := { dinode with type }

@[simps] def setNlink (dinode : Dinode) (nlink : BitVec 16) : Dinode := { dinode with nlink }

@[simps] def setSize (dinode : Dinode) (size : BitVec 32) : Dinode := { dinode with size }

@[simps] def setAddrs (dinode : Dinode) (addrs : Bytes 52) : Dinode := { dinode with addrs }

def fresh (type : BitVec 16) : Dinode := ⟨type, 0, 0, 0, 0, Bytes.zero⟩

def byte (dinode : Dinode) (k : Nat) : UInt8 :=
  if k < 2 then wordByte dinode.type.toNat k
  else if k < 4 then wordByte dinode.major.toNat (k - 2)
  else if k < 6 then wordByte dinode.minor.toNat (k - 4)
  else if k < 8 then wordByte dinode.nlink.toNat (k - 6)
  else if k < 12 then wordByte dinode.size.toNat (k - 8)
  else dinode.addrs.byte (k - 12)

def ofBytes (source : Nat → UInt8) : Dinode where
  type := BitVec.ofNat 16 (halfOf source)
  major := BitVec.ofNat 16 (halfOf fun k => source (2 + k))
  minor := BitVec.ofNat 16 (halfOf fun k => source (4 + k))
  nlink := BitVec.ofNat 16 (halfOf fun k => source (6 + k))
  size := BitVec.ofNat 32 (wordOf fun k => source (8 + k))
  addrs := Bytes.ofFn fun k => source (12 + k)

def load (data : Block) (index : Nat) : Dinode := ofBytes fun k => data.byte (64 * index + k)

def save (dinode : Dinode) (index : Nat) (data : Block) : Block := data.blit (64 * index) 64 dinode.byte

end Dinode

/-- `struct inode`: `locked` is the first word of its sleep lock, `lock` the other 60 bytes of
it, and `dinode` the copy of the disk inode. -/
structure Inode where
  dev : Nat
  inum : Nat
  ref : Int
  locked : Nat
  lock : Bytes 60
  flags : BitVec 32
  dinode : Dinode

namespace Inode

@[simps] def setDinode (ip : Inode) (dinode : Dinode) : Inode := { ip with dinode }

@[simps] def setRef (ip : Inode) (ref : Int) : Inode := { ip with ref }

@[simps] def setLocked (ip : Inode) (locked : Nat) : Inode := { ip with locked }

@[simps] def setFlags (ip : Inode) (flags : BitVec 32) : Inode := { ip with flags }

def byte (ip : Inode) (k : Nat) : UInt8 :=
  if k < 4 then wordByte ip.dev k
  else if k < 8 then wordByte ip.inum (k - 4)
  else if k < 12 then wordByte (BitVec.ofInt 32 ip.ref).toNat (k - 8)
  else if k < 16 then wordByte ip.locked (k - 12)
  else if k < 76 then ip.lock.byte (k - 16)
  else if k < 80 then wordByte ip.flags.toNat (k - 76)
  else ip.dinode.byte (k - 80)

def ofBytes (source : Nat → UInt8) : Inode where
  dev := wordOf source
  inum := wordOf fun k => source (4 + k)
  ref := toInt32 (wordOf fun k => source (8 + k))
  locked := wordOf fun k => source (12 + k)
  lock := Bytes.ofFn fun k => source (16 + k)
  flags := BitVec.ofNat 32 (wordOf fun k => source (76 + k))
  dinode := Dinode.ofBytes fun k => source (80 + k)

@[simps] def recycle (ip : Inode) (dev inum : Nat) : Inode := { ip with dev, inum, ref := 1, flags := 0 }

def valid (ip : Inode) : Bool := ip.flags &&& I_VALID != 0

end Inode

def Inode.unused : Inode := ⟨0, 0, 0, 0, Bytes.zero, 0, Dinode.fresh 0⟩

abbrev Slot := Fin NINODE

/-- A device's `read` and `write`: the bytes a read of `n` delivers, none for -1, and the value
a write of `n` bytes returns. -/
structure Device where
  read : Nat → Option (List UInt8)
  write : (Nat → UInt8) → Nat → Int

/-- The disk, `icache.inode`, the kernel bytes that follow it in memory, and `devsw` with an
entry for each major number that has its functions set. -/
structure Fs where
  disk : Disk
  icache : Slot → Inode
  tail : Nat → UInt8
  devsw : Nat → Option Device

def Fs.boot (disk : Disk) : Fs := ⟨disk, fun _ => .unused, fun _ => 0, fun _ => none⟩

abbrev FsM := Prog Fs Stop

@[simps] def Fs.setDisk (fs : Fs) (disk : Disk) : Fs := { fs with disk }

def onDisk {α : Type} (program : DiskM α) : FsM α := Prog.zoom Fs.disk Fs.setDisk program

def inode (sl : Slot) : FsM Inode := do
  let fs ← Prog.get
  return fs.icache sl

@[simps disk tail devsw] def Fs.setInode (fs : Fs) (sl : Slot) (ip : Inode) : Fs :=
  { fs with icache := Function.update fs.icache sl ip }

def Fs.single (disk : Disk) (inum : Nat) (dinode : Dinode) : Fs :=
  ((Fs.boot disk).setInode 0 ⟨ROOTDEV, inum, 1, 0, Bytes.zero, I_VALID, dinode⟩).setDisk
    (disk.setBlock (IBLOCK inum disk.sb) (dinode.save (inum % IPB) (disk.block (IBLOCK inum disk.sb))))

def modifyInode (sl : Slot) (change : Inode → Inode) : FsM Unit :=
  Prog.modify fun fs => fs.setInode sl (change (fs.icache sl))

def modifyDinode (sl : Slot) (change : Dinode → Dinode) : FsM Unit :=
  modifyInode sl fun ip => ip.setDinode (change ip.dinode)

def setAddr (sl : Slot) (index value : Nat) : FsM Unit :=
  modifyDinode sl fun dinode => dinode.setAddrs (dinode.addrs.setWord index value)

def iget (dev inum : Nat) : FsM Slot := do
  let fs ← Prog.get
  let slots := List.finRange NINODE
  match slots.find? fun sl =>
      0 < (fs.icache sl).ref ∧ (fs.icache sl).dev = dev ∧ (fs.icache sl).inum = inum with
  | some sl => do
      modifyInode sl fun ip => ip.setRef (ip.ref + 1)
      return sl
  | none =>
    match slots.find? fun sl => (fs.icache sl).ref = 0 with
    | some sl => do
        modifyInode sl fun ip => ip.recycle dev inum
        return sl
    | none => panic "iget: no inodes"

def idup (sl : Slot) : FsM Slot := do
  modifyInode sl fun ip => ip.setRef (ip.ref + 1)
  return sl

def iallocFrom (dev : Nat) (type : BitVec 16) (sb : Superblock) : Nat → Nat → FsM Slot
  | 0, _ => panic "ialloc: no inodes"
  | count + 1, inum =>
    if inum < sb.ninodes then do
      let data ← onDisk (bread (IBLOCK inum sb))
      if (Dinode.load data (inum % IPB)).type = 0 then do
        onDisk (store (IBLOCK inum sb) ((Dinode.fresh type).save (inum % IPB)))
        onDisk (logWrite (IBLOCK inum sb))
        onDisk (brelse (IBLOCK inum sb))
        iget dev inum
      else do
        onDisk (brelse (IBLOCK inum sb))
        iallocFrom dev type sb count (inum + 1)
    else panic "ialloc: no inodes"

def ialloc (dev : Nat) (type : BitVec 16) : FsM Slot := do
  let fs ← Prog.get
  iallocFrom dev type fs.disk.sb fs.disk.sb.ninodes 1

def iupdate (sl : Slot) : FsM Unit := do
  let fs ← Prog.get
  let ip := fs.icache sl
  onDisk (bupdate (IBLOCK ip.inum fs.disk.sb) (ip.dinode.save (ip.inum % IPB)))

def acquiresleep (sl : Slot) : FsM Unit := do
  let ip ← inode sl
  if ip.locked ≠ 0 then Prog.halt .blocked
  else modifyInode sl fun ip => ip.setLocked 1

def ilock (sl : Slot) : FsM Unit := do
  let ip ← inode sl
  if ip.ref < 1 then panic "ilock"
  else do
    acquiresleep sl
    Prog.onlyIf (ip.valid = false) do
      let fs ← Prog.get
      let data ← onDisk (bpeek (IBLOCK ip.inum fs.disk.sb))
      modifyDinode sl fun _ => Dinode.load data (ip.inum % IPB)
      modifyInode sl fun ip => ip.setFlags (ip.flags ||| I_VALID)
      let ip ← inode sl
      Prog.onlyIf (ip.dinode.type = 0) (panic "ilock: no type")

def iunlock (sl : Slot) : FsM Unit := do
  let ip ← inode sl
  if ip.locked = 0 ∨ ip.ref < 1 then panic "iunlock"
  else modifyInode sl fun ip => ip.setLocked 0

/-- `if((addr = ip->addrs[index]) == 0) ip->addrs[index] = addr = balloc(ip->dev)`. -/
def bmapAddr (sl : Slot) (index : Nat) : FsM Nat := do
  let ip ← inode sl
  if ip.dinode.addrs.word index = 0 then do
    let addr ← onDisk balloc
    setAddr sl index addr
    return addr
  else return ip.dinode.addrs.word index

def bmapEntry (indirect index : Nat) : DiskM Nat := do
  let data ← bread indirect
  if data.word index = 0 then do
    let addr ← balloc
    store indirect fun data => data.setWord index addr
    logWrite indirect
    brelse indirect
    return addr
  else do
    brelse indirect
    return data.word index

def bmap (sl : Slot) (bn : Nat) : FsM Nat :=
  if bn < NDIRECT then bmapAddr sl bn
  else if bn - NDIRECT < NINDIRECT then do
    let indirect ← bmapAddr sl NDIRECT
    onDisk (bmapEntry indirect (bn - NDIRECT))
  else panic "bmap: out of range"

def itruncDirect (sl : Slot) : FsM Unit :=
  Prog.upto NDIRECT fun i => do
    let ip ← inode sl
    Prog.onlyIf (ip.dinode.addrs.word i ≠ 0) do
      onDisk (bfree (ip.dinode.addrs.word i))
      setAddr sl i 0

def itruncIndirect (sl : Slot) : FsM Unit := do
  let ip ← inode sl
  let indirect := ip.dinode.addrs.word NDIRECT
  Prog.onlyIf (indirect ≠ 0) do
    let data ← onDisk (bread indirect)
    Prog.upto NINDIRECT fun j => Prog.onlyIf (data.word j ≠ 0) (onDisk (bfree (data.word j)))
    onDisk (brelse indirect)
    onDisk (bfree indirect)
    setAddr sl NDIRECT 0

def itrunc (sl : Slot) : FsM Unit := do
  itruncDirect sl
  itruncIndirect sl
  modifyDinode sl fun dinode => dinode.setSize 0
  iupdate sl

/-- The branch of `iput` for the last reference to an inode without links. -/
def ifree (sl : Slot) : FsM Unit := do
  itrunc sl
  modifyDinode sl fun dinode => dinode.setType 0
  iupdate sl
  modifyInode sl fun ip => ip.setFlags 0

def iput (sl : Slot) : FsM Unit := do
  let ip ← inode sl
  Prog.onlyIf (ip.ref = 1 ∧ ip.valid ∧ ip.dinode.nlink = 0) (ifree sl)
  modifyInode sl fun ip => ip.setRef (ip.ref - 1)

def iunlockput (sl : Slot) : FsM Unit := do
  iunlock sl
  iput sl

def Fs.peek (fs : Fs) (address : Nat) : UInt8 :=
  if inside : address / 144 < NINODE then (fs.icache ⟨address / 144, inside⟩).byte (address % 144)
  else fs.tail (address - 144 * NINODE)

def addrsAt (sl : Slot) (off : Nat) : Nat := 144 * sl.val + 92 + off

/-- `memmove((char*)ip->addrs + off, src, n)`: bytes past the 52 of `addrs` land in the cache
entries that follow and in the memory after them. -/
def Fs.moveIn (fs : Fs) (sl : Slot) (off n : Nat) (src : Nat → UInt8) : Fs :=
  let start := addrsAt sl off
  let moved (address : Nat) (old : UInt8) : UInt8 :=
    if start ≤ address ∧ address < start + n then src (address - start) else old
  { fs with
    icache := fun other =>
      let ip := fs.icache other
      if other = sl then ip.setDinode (ip.dinode.setAddrs (ip.dinode.addrs.blit off n src))
      else if start < 144 * other.val + 144 ∧ 144 * other.val < start + n then
        Inode.ofBytes fun k => moved (144 * other.val + k) (ip.byte k)
      else ip
    tail := fun k => moved (144 * NINODE + k) (fs.tail k) }

def readBlocks (sl : Slot) (n : Nat) : Nat → Nat → Nat → FsM (List UInt8)
  | 0, _, _ => return []
  | fuel + 1, tot, off =>
    if tot < n then do
      let addr ← bmap sl (off / BSIZE)
      let data ← onDisk (bpeek addr)
      let m := min (n - tot) (BSIZE - off % BSIZE)
      let rest ← readBlocks sl n fuel (tot + m) (off + m)
      return data.read (off % BSIZE) m ++ rest
    else return []

/-- The bytes `readi` delivers; none for -1. -/
def readi (sl : Slot) (off n : BitVec 32) : FsM (Option (List UInt8)) := do
  let fs ← Prog.get
  let ip := fs.icache sl
  if ip.dinode.type = T_DEV then
    if ip.dinode.major.toInt < 0 ∨ (NDEV : Int) ≤ ip.dinode.major.toInt then return none
    else
      match fs.devsw ip.dinode.major.toNat with
      | none => return none
      | some device => return device.read n.toNat
  else if ip.dinode.size < off ∨ off + n < off then return none
  else do
    let n := if ip.dinode.size < off + n then ip.dinode.size - off else n
    if ip.dinode.type = T_SFILE then
      return some ((List.range n.toNat).map fun index => fs.peek (addrsAt sl (off.toNat + index)))
    else do
      let bytes ← readBlocks sl n.toNat n.toNat 0 off.toNat
      return some bytes

def writeBlocks (sl : Slot) (src : Nat → UInt8) (n : Nat) : Nat → Nat → Nat → FsM Unit
  | 0, _, _ => return ()
  | fuel + 1, tot, off =>
    if tot < n then do
      let addr ← bmap sl (off / BSIZE)
      let m := min (n - tot) (BSIZE - off % BSIZE)
      onDisk (bupdate addr fun data => data.blit (off % BSIZE) m fun index => src (tot + index))
      writeBlocks sl src n fuel (tot + m) (off + m)
    else return ()

def writeData (sl : Slot) (type : BitVec 16) (src : Nat → UInt8) (off n : Nat) : FsM Unit :=
  if type = T_SFILE then Prog.modify fun fs => fs.moveIn sl off n src
  else writeBlocks sl src n n 0 off

def grow (sl : Slot) (off n : BitVec 32) : FsM Unit := do
  let ip ← inode sl
  Prog.onlyIf (0 < n ∧ ip.dinode.size < off) do
    modifyDinode sl fun dinode => dinode.setSize off
    iupdate sl

def writeSize (sl : Slot) (off n : BitVec 32) : FsM Unit := do
  grow sl off n
  let ip ← inode sl
  Prog.onlyIf (ip.dinode.type = T_SFILE) (grow sl off n)

def writei (sl : Slot) (src : Nat → UInt8) (off n : BitVec 32) : FsM Int := do
  let fs ← Prog.get
  let ip := fs.icache sl
  if ip.dinode.type = T_DEV then
    if ip.dinode.major.toInt < 0 ∨ (NDEV : Int) ≤ ip.dinode.major.toInt then return -1
    else
      match fs.devsw ip.dinode.major.toNat with
      | none => return -1
      | some device => return device.write src n.toNat
  else if ip.dinode.size < off ∨ off + n < off then return -1
  else if MAXFILE * BSIZE < (off + n).toNat then return -1
  else do
    writeData sl ip.dinode.type src off.toNat n.toNat
    writeSize sl (off + n) n
    return n.toNat

end Xv6
