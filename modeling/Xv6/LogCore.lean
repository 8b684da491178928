import Xv6.Param

/-! Executable model of `log.c`: the log header and its admission counters, and the
commit and recovery paths over a disk seen through the buffer cache. -/

namespace Xv6

def insertBlock (blockno : Nat) (wr : List Nat) : List Nat :=
  if blockno ∈ wr then wr else wr ++ [blockno]

theorem mem_insertBlock (b other : Nat) (wr : List Nat) : other ∈ insertBlock b wr ↔ other ∈ wr ∨ other = b := by
  unfold insertBlock
  split
  · rename_i has
    constructor
    · exact .inl
    · rintro (old | rfl)
      · exact old
      · exact has
  · simp

structure LogHeader where
  blocks : List Nat
  fits : blocks.length ≤ LOGSIZE

namespace LogHeader

def empty : LogHeader := ⟨[], by simp⟩

def n (header : LogHeader) : Nat := header.blocks.length

def absorb (header : LogHeader) (blockno : Nat) (room : header.n < LOGSIZE) : LogHeader :=
  if blockno ∈ header.blocks then header
  else ⟨header.blocks ++ [blockno], by rw [List.length_append]; exact room⟩

theorem n_absorb (header : LogHeader) (blockno : Nat) (room : header.n < LOGSIZE) :
    (header.absorb blockno room).n ≤ header.n + 1 := by
  rw [absorb]
  split
  · omega
  · exact (List.length_append).le

end LogHeader

structure Log where
  start : Nat
  size : Nat
  outstanding : Int
  committing : Bool
  lh : LogHeader

namespace Log

def admits (log : Log) : Bool :=
  !log.committing && decide ((log.lh.n : Int) + (log.outstanding + 1) * MAXOPBLOCKS ≤ LOGSIZE)

def beginOp (log : Log) : Option Log :=
  if log.admits then some { log with outstanding := log.outstanding + 1 } else none

def logWrite (log : Log) (blockno : Nat) : Except Stop Log :=
  if room : log.lh.n < LOGSIZE ∧ log.lh.n < log.size - 1 then
    if log.outstanding < 1 then .error (.panic "log_write outside of trans")
    else .ok { log with lh := log.lh.absorb blockno room.1 }
  else .error (.panic "too big a transaction")

/-- The locked first half of `end_op`; the flag says whether the caller must commit. -/
def endOp (log : Log) : Except Stop (Bool × Log) :=
  let outstanding := log.outstanding - 1
  if log.committing then .error (.panic "log.committing")
  else if outstanding = 0 then .ok (true, { log with outstanding, committing := true })
  else .ok (false, { log with outstanding })

def cleared (log : Log) : Log := { log with lh := .empty }

def finish (log : Log) : Log := { log with committing := false }

end Log

/-- The disk, the buffers that cache it, and every `bwrite` so far, oldest first. -/
structure Machine where
  disk : Nat → Block
  cache : Nat → Option Block
  writes : List (Nat × Block)

namespace Machine

def boot (disk : Nat → Block) : Machine := ⟨disk, fun _ => none, []⟩

def contents (m : Machine) (blockno : Nat) : Block :=
  (m.cache blockno).getD (m.disk blockno)

def bread (m : Machine) (blockno : Nat) : Block × Machine :=
  (m.contents blockno, { m with
      cache := Function.update m.cache blockno (some (m.contents blockno)) })

def bwrite (m : Machine) (blockno : Nat) (data : Block) : Machine where
  disk := Function.update m.disk blockno data
  cache := Function.update m.cache blockno (some data)
  writes := m.writes ++ [(blockno, data)]

end Machine

def toInt32 (word : Nat) : Int := (BitVec.ofNat 32 word).toInt

def fillWords (data : Block) : Nat → List Nat → Block
  | _, [] => data
  | index, value :: rest => fillWords (data.setWord index value) (index + 1) rest

def encodeHead (data : Block) (lh : LogHeader) : Block := fillWords (data.setWord 0 lh.n) 1 lh.blocks

def decodeHead (data : Block) : Option LogHeader :=
  let count := (toInt32 (data.word 0)).toNat
  if small : count ≤ LOGSIZE then
    some ⟨(List.range count).map fun index => data.word (index + 1), by simpa using small⟩
  else none

def writeLog (start : Nat) : Nat → List Nat → Machine → Machine
  | _, [], m => m
  | tail, blockno :: rest, m =>
    let (_, m) := m.bread (start + tail + 1)
    let (from_, m) := m.bread blockno
    writeLog start (tail + 1) rest (m.bwrite (start + tail + 1) from_)

def installTrans (start : Nat) : Nat → List Nat → Machine → Machine
  | _, [], m => m
  | tail, blockno :: rest, m =>
    let (lbuf, m) := m.bread (start + tail + 1)
    let (_, m) := m.bread blockno
    installTrans start (tail + 1) rest (m.bwrite blockno lbuf)

def readHead (start : Nat) (m : Machine) : Option (LogHeader × Machine) :=
  let (data, m) := m.bread start
  (decodeHead data).map fun lh => (lh, m)

def writeHead (start : Nat) (lh : LogHeader) (m : Machine) : Machine :=
  let (data, m) := m.bread start
  m.bwrite start (encodeHead data lh)

def recoverFromLog (start : Nat) (m : Machine) : Option Machine :=
  (readHead start m).map fun (lh, m) =>
    writeHead start .empty (installTrans start 0 lh.blocks m)

def commit (start : Nat) (lh : LogHeader) (m : Machine) : Machine :=
  if lh.n > 0 then
    let m := writeLog start 0 lh.blocks m
    let m := writeHead start lh m
    let m := installTrans start 0 lh.blocks m
    writeHead start .empty m
  else m

end Xv6
