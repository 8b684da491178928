import Xv6.DirCore

/-! Executable model of `file.c` and of the process state the file system calls use. -/

namespace Xv6

open Exec

inductive FileType where
  | none
  | pipe
  | inode
  deriving DecidableEq

abbrev FileSlot := Fin NFILE
abbrev ProcSlot := Fin NPROC
abbrev Fd := Fin NOFILE

/-- `struct file`; `pipe` and `ip` mean something only under the type that uses them. -/
structure File where
  type : FileType
  ref : Int
  readable : Bool
  writable : Bool
  pipe : Nat
  ip : Slot
  off : BitVec 32

inductive ProcState where
  | unused
  | embryo
  | sleeping
  | runnable
  | running
  | zombie
  deriving DecidableEq

/-- The part of `struct proc` that the file system calls read and write. -/
structure Proc where
  state : ProcState
  pid : Int
  parent : Option ProcSlot
  ofile : Fd → Option FileSlot
  cwd : Option Slot

/-- The file system, `ftable`, `ptable` and, for pipes, what a read or write on each returns. -/
structure Kernel where
  fs : Fs
  ftable : FileSlot → File
  ptable : ProcSlot → Proc
  initproc : ProcSlot
  nextpid : Int
  pipes : Nat → Device

abbrev KernelM := Prog Kernel Stop

@[simps] def Kernel.setFs (kern : Kernel) (fs : Fs) : Kernel := { kern with fs }

def onFs {α : Type} (program : FsM α) : KernelM α := Prog.zoom Kernel.fs Kernel.setFs program

@[simps fs ptable initproc nextpid pipes] def Kernel.setFile (kern : Kernel) (f : FileSlot) (file : File) : Kernel :=
  { kern with ftable := Function.update kern.ftable f file }

@[simps fs ftable initproc nextpid pipes] def Kernel.setProc (kern : Kernel) (p : ProcSlot) (proc : Proc) : Kernel :=
  { kern with ptable := Function.update kern.ptable p proc }

def modifyFile (f : FileSlot) (change : File → File) : KernelM Unit :=
  Prog.modify fun kern => kern.setFile f (change (kern.ftable f))

def modifyProc (p : ProcSlot) (change : Proc → Proc) : KernelM Unit :=
  Prog.modify fun kern => kern.setProc p (change (kern.ptable p))

def file (f : FileSlot) : KernelM File := do
  let kern ← Prog.get
  return kern.ftable f

def proc (p : ProcSlot) : KernelM Proc := do
  let kern ← Prog.get
  return kern.ptable p

def cwd (p : ProcSlot) : KernelM Slot := do
  let kern ← Prog.get
  match (kern.ptable p).cwd with
  | some slot => return slot
  | none => Prog.halt .fault

def kernelBeginOp : KernelM Unit := onFs (onDisk beginOp)

def kernelEndOp : KernelM Unit := onFs (onDisk endOp)

def filealloc : KernelM (Option FileSlot) := do
  let kern ← Prog.get
  match (List.finRange NFILE).find? fun f => (kern.ftable f).ref = 0 with
  | some f => do
      modifyFile f fun file => { file with ref := 1 }
      return some f
  | none => return none

def filedup (f : FileSlot) : KernelM FileSlot := do
  let file ← file f
  if file.ref < 1 then panic "filedup"
  else do
    modifyFile f fun file => { file with ref := file.ref + 1 }
    return f

def fileclose (f : FileSlot) : KernelM Unit := do
  let ff ← file f
  if ff.ref < 1 then panic "fileclose"
  else if ff.ref - 1 > 0 then modifyFile f fun file => { file with ref := file.ref - 1 }
  else do
    modifyFile f fun file => { file with ref := 0, type := .none }
    Prog.onlyIf (ff.type = .inode) do
      kernelBeginOp
      onFs (iput ff.ip)
      kernelEndOp

def fileread (f : FileSlot) (n : BitVec 32) : KernelM (Option (List UInt8)) := do
  let kern ← Prog.get
  let file := kern.ftable f
  if file.readable = false then return none
  else
    match file.type with
    | .pipe => return (kern.pipes file.pipe).read n.toNat
    | .inode => do
        onFs (ilock file.ip)
        let r ← onFs (readi file.ip file.off n)
        modifyFile f fun file => { file with off := file.off + BitVec.ofNat 32 ((r.getD []).length) }
        onFs (iunlock file.ip)
        return r
    | .none => panic "fileread"

def filewriteMax : Nat := (LOGSIZE - 1 - 1 - 2) / 2 * 512

def filewriteSection (f : FileSlot) (addr : Nat → UInt8) (n1 : Nat) : KernelM Int := do
  let file ← file f
  kernelBeginOp
  onFs (ilock file.ip)
  let r ← onFs (writei file.ip addr file.off (BitVec.ofNat 32 n1))
  Prog.onlyIf (r > 0) (modifyFile f fun file => { file with off := file.off + BitVec.ofInt 32 r })
  onFs (iunlock file.ip)
  kernelEndOp
  return r

/-- The loop of `filewrite`; the value of `i` when it is left. -/
def filewriteFrom (f : FileSlot) (addr : Nat → UInt8) (n : Nat) : Nat → Nat → KernelM Nat
  | 0, i => return i
  | fuel + 1, i =>
    if i < n then do
      let n1 := min (n - i) filewriteMax
      let r ← filewriteSection f (fun index => addr (i + index)) n1
      if r < 0 then return i
      else if r ≠ n1 then panic "short filewrite"
      else filewriteFrom f addr n fuel (i + n1)
    else return i

def filewrite (f : FileSlot) (addr : Nat → UInt8) (n : Int) : KernelM Int := do
  let kern ← Prog.get
  let file := kern.ftable f
  if file.writable = false then return -1
  else
    match file.type with
    | .pipe => return (kern.pipes file.pipe).write addr n.toNat
    | .inode => do
        let i ← filewriteFrom f addr n.toNat n.toNat 0
        return if (i : Int) = n then n else -1
    | .none => panic "filewrite"

end Xv6
