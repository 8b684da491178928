import Xv6.LogCore
import Xv6.Lib.Exec

/-! Executable model of the block layer under `fs.c`: buffers with their locks, the log as
the operations see it, the superblock and the block allocator. -/

namespace Xv6

open Exec

structure Superblock where
  size : Nat
  nblocks : Nat
  ninodes : Nat
  nlog : Nat
  logstart : Nat
  inodestart : Nat
  bmapstart : Nat
  deriving DecidableEq

def Superblock.ofBlock (data : Block) : Superblock :=
  ⟨data.word 0, data.word 1, data.word 2, data.word 3, data.word 4, data.word 5, data.word 6⟩

def Superblock.encode (sb : Superblock) : Block :=
  fillWords Bytes.zero 0 [sb.size, sb.nblocks, sb.ninodes, sb.nlog, sb.logstart, sb.inodestart, sb.bmapstart]

def NINODES : Nat := 200

def mkfsSb : Superblock :=
  let nbitmap := FSSIZE / (BSIZE * 8) + 1
  let ninodeblocks := NINODES / IPB + 1
  let nlog := LOGSIZE
  let nmeta := 2 + nlog + ninodeblocks + nbitmap
  { size := FSSIZE
    nblocks := FSSIZE - nmeta
    ninodes := NINODES
    nlog
    logstart := 2
    inodestart := 2 + nlog
    bmapstart := 2 + nlog + ninodeblocks }

/-- The disk as `bread` shows it, with the buffers now locked and the driver's limit on block numbers. As
history, `written` lists the blocks logged since the last `begin_op` and `sections` those of the
operations ended. -/
structure Disk where
  fssize : Nat
  block : Nat → Block
  held : List Nat
  sb : Superblock
  log : Log
  written : List Nat
  sections : List (List Nat)

abbrev DiskM := Prog Disk Stop

def Disk.blank : Disk where
  fssize := FSSIZE
  block := fun blockno => if blockno = 1 then mkfsSb.encode else Bytes.zero
  held := []
  sb := mkfsSb
  log := ⟨mkfsSb.logstart, mkfsSb.nlog, 0, false, .empty⟩
  written := []
  sections := []

def Disk.inOp (disk : Disk) : Disk := { disk with log := { disk.log with outstanding := 1 } }

@[simps] def Disk.setHeld (disk : Disk) (held : List Nat) : Disk := { disk with held }

@[simps] def Disk.setSb (disk : Disk) (sb : Superblock) : Disk := { disk with sb }

@[simps] def Disk.setLog (disk : Disk) (log : Log) (written : List Nat) : Disk :=
  { disk with log, written }

@[simps] def Disk.setBlock (disk : Disk) (blockno : Nat) (data : Block) : Disk :=
  { disk with block := Function.update disk.block blockno data }

def panic {σ α : Type} (message : String) : Prog σ Stop α := Prog.halt (.panic message)

/-- Locks the buffer; a block number the driver refuses panics in `idestart`. -/
def bread (blockno : Nat) : DiskM Block := do
  let disk ← Prog.get
  if blockno ∈ disk.held then Prog.halt .blocked
  else if disk.fssize ≤ blockno then panic "incorrect blockno"
  else do
    Prog.modify fun disk => disk.setHeld (blockno :: disk.held)
    return disk.block blockno

def brelse (blockno : Nat) : DiskM Unit :=
  Prog.modify fun disk => disk.setHeld (disk.held.erase blockno)

def store (blockno : Nat) (change : Block → Block) : DiskM Unit :=
  Prog.modify fun disk => disk.setBlock blockno (change (disk.block blockno))

def logWrite (blockno : Nat) : DiskM Unit := fun disk =>
  match disk.log.logWrite blockno with
  | .ok log => .ok () (disk.setLog log (insertBlock blockno disk.written))
  | .error reason => .stop reason

def beginOp : DiskM Unit := fun disk =>
  match disk.log.beginOp with
  | some log => .ok () (disk.setLog log [])
  | none => .stop .blocked

/-- A commit changes no block as `bread` shows it, and leaves the header empty. -/
def endOp : DiskM Unit := fun disk =>
  match disk.log.endOp with
  | .ok (doCommit, log) =>
    .ok () { disk with
      log := if doCommit then log.cleared.finish else log
      sections := disk.sections ++ [disk.written] }
  | .error reason => .stop reason

/-- The sequence `bread`, reading of the data, `brelse`. -/
def bpeek (blockno : Nat) : DiskM Block := do
  let data ← bread blockno
  brelse blockno
  return data

def readsb : DiskM Superblock := do
  let data ← bpeek 1
  return Superblock.ofBlock data

def IBLOCK (inum : Nat) (sb : Superblock) : Nat := (inum / IPB + sb.inodestart) % 2 ^ 32

def BBLOCK (blockno : Nat) (sb : Superblock) : Nat := (blockno / BPB + sb.bmapstart) % 2 ^ 32

/-- The sequence `bread`, change of the data, `log_write`, `brelse`. -/
def bupdate (blockno : Nat) (change : Block → Block) : DiskM Unit := do
  let _ ← bread blockno
  store blockno change
  logWrite blockno
  brelse blockno

def bzero (bno : Nat) : DiskM Unit := bupdate bno fun _ => Bytes.zero

def firstFree (data : Block) (b size : Nat) : Nat → Nat → Option Nat
  | 0, _ => none
  | count + 1, bi =>
    if b + bi < size then
      if data.bit bi then firstFree data b size count (bi + 1) else some bi
    else none

def ballocFrom (sb : Superblock) : Nat → Nat → DiskM Nat
  | 0, _ => panic "balloc: out of blocks"
  | rounds + 1, b =>
    if b < sb.size then do
      let data ← bread (BBLOCK b sb)
      match firstFree data b sb.size BPB 0 with
      | some bi => do
          store (BBLOCK b sb) fun data => data.setBit bi
          logWrite (BBLOCK b sb)
          brelse (BBLOCK b sb)
          bzero (b + bi)
          return b + bi
      | none => do
          brelse (BBLOCK b sb)
          ballocFrom sb rounds (b + BPB)
    else panic "balloc: out of blocks"

def balloc : DiskM Nat := do
  let disk ← Prog.get
  ballocFrom disk.sb (disk.sb.size / BPB + 1) 0

def bfree (b : Nat) : DiskM Unit := do
  let sb ← readsb
  Prog.modify fun disk => disk.setSb sb
  let data ← bread (BBLOCK b sb)
  if data.bit (b % BPB) then do
    store (BBLOCK b sb) fun data => data.clearBit (b % BPB)
    logWrite (BBLOCK b sb)
    brelse (BBLOCK b sb)
  else panic "freeing free block"

end Xv6
