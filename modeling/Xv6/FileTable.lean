import Xv6.SysfileCore
import Xv6.Lib.Custody

/-! `file.c` with the ends of pipes: the open-file table, the descriptors of all processes, and
the calls that make, share and drop them. What `sys_open` does before `filealloc` is an input:
the inode it found, if any. A pipe's page is named by the order of allocation, and so is the
inode reference that an open file takes over. The log tells when these were taken, released and
freed. -/

namespace Xv6.FileTable

open Exec Exec.Prog Custody Function

/-- What is behind an open file: a reference to an inode, or an end of a pipe. -/
inductive Resource where
  | inode (ticket : Nat)
  | pipe (page : Nat) (writable : Bool)
  deriving DecidableEq

/-- `struct file`; `ticket` is history, the reference that `ip` stands for. -/
structure File where
  type : FileType
  ref : Int
  readable : Bool
  writable : Bool
  pipe : Nat
  ip : Nat
  ticket : Nat

def File.resource (file : File) : Option Resource :=
  match file.type with
  | .none => none
  | .pipe => some (.pipe file.pipe file.writable)
  | .inode => some (.inode file.ticket)

structure Pipe where
  readopen : Bool
  writeopen : Bool

structure Proc where
  state : ProcState
  ofile : Fd → Option FileSlot

structure State where
  ftable : FileSlot → File
  ptable : ProcSlot → Proc
  initproc : ProcSlot
  pipes : Nat → Pipe
  serial : Nat
  log : List (Event Resource Nat)

abbrev FileM := Prog State Stop

@[simps ptable initproc pipes serial log]
def State.setFile (state : State) (f : FileSlot) (file : File) : State :=
  { state with ftable := update state.ftable f file }

@[simps ftable initproc pipes serial log]
def State.setProc (state : State) (p : ProcSlot) (proc : Proc) : State :=
  { state with ptable := update state.ptable p proc }

@[simps! ftable initproc pipes serial log]
def State.setOfile (state : State) (p : ProcSlot) (fd : Fd) (f : Option FileSlot) : State :=
  state.setProc p { state.ptable p with ofile := update (state.ptable p).ofile fd f }

@[simps]
def State.record (state : State) (event : Event Resource Nat) : State :=
  { state with log := event :: state.log }

def modifyFile (f : FileSlot) (change : File → File) : FileM Unit :=
  modify fun state => state.setFile f (change (state.ftable f))

def setState (p : ProcSlot) (new : ProcState) : FileM Unit :=
  modify fun state => state.setProc p { state.ptable p with state := new }

def setOfile (p : ProcSlot) (fd : Fd) (f : Option FileSlot) : FileM Unit :=
  modify fun state => state.setOfile p fd f

def filealloc : FileM (Option FileSlot) := do
  let state ← get
  match (List.finRange NFILE).find? fun f => (state.ftable f).ref = 0 with
  | some f => do
      modifyFile f fun file => { file with ref := 1 }
      return some f
  | none => return none

def filedup (f : FileSlot) : FileM FileSlot := do
  let state ← get
  if (state.ftable f).ref < 1 then halt (.panic "filedup")
  else do
    modifyFile f fun file => { file with ref := file.ref + 1 }
    return f

def Pipe.shut (pipe : Pipe) (writable : Bool) : Pipe :=
  if writable then { pipe with writeopen := false } else { pipe with readopen := false }

def pipeclose (page : Nat) (writable : Bool) : FileM Unit := do
  modify fun state => { state.record (.released (.pipe page writable)) with
    pipes := update state.pipes page ((state.pipes page).shut writable) }
  let state ← get
  onlyIf ((state.pipes page).readopen = false ∧ (state.pipes page).writeopen = false)
    (modify fun state => state.record (.freed page))

def iput (ticket : Nat) : FileM Unit :=
  modify fun state => state.record (.released (.inode ticket))

def fileclose (f : FileSlot) : FileM Unit := do
  let state ← get
  let ff := state.ftable f
  if ff.ref < 1 then halt (.panic "fileclose")
  else if ff.ref - 1 > 0 then modifyFile f fun file => { file with ref := file.ref - 1 }
  else do
    modifyFile f fun file => { file with ref := 0, type := .none }
    match ff.type with
    | .pipe => pipeclose ff.pipe ff.writable
    | .inode => iput ff.ticket
    | .none => return ()

def argfd (p : ProcSlot) (fd : Option Int) : FileM (Option (Fd × FileSlot)) := do
  let state ← get
  match fd with
  | none => return none
  | some fd =>
    if bound : 0 ≤ fd ∧ fd.toNat < NOFILE then
      return ((state.ptable p).ofile ⟨fd.toNat, fd_inside bound⟩).map fun f => (⟨fd.toNat, fd_inside bound⟩, f)
    else return none

def fdalloc (p : ProcSlot) (f : FileSlot) : FileM (Option Fd) := do
  let state ← get
  match (List.finRange NOFILE).find? fun fd => ((state.ptable p).ofile fd).isNone with
  | some fd => do
      setOfile p fd (some f)
      return some fd
  | none => return none

def sysDup (p : ProcSlot) (fd : Option Int) : FileM Int := do
  match ← argfd p fd with
  | none => return -1
  | some (_, f) => do
      match ← fdalloc p f with
      | none => return -1
      | some fd => do
          let _ ← filedup f
          return fd.val

def sysClose (p : ProcSlot) (fd : Option Int) : FileM Int := do
  match ← argfd p fd with
  | none => return -1
  | some (fd, f) => do
      setOfile p fd none
      fileclose f
      return 0

/-- `found` is the inode of the path; none where `sys_open` returned before `filealloc`. On
failure the inode is put by `sys_open` itself. -/
def sysOpen (p : ProcSlot) (found : Option Nat) (omode : BitVec 32) : FileM Int := do
  match found with
  | none => return -1
  | some ip => do
      match ← filealloc with
      | none => return -1
      | some f => do
          match ← fdalloc p f with
          | none => do
              fileclose f
              return -1
          | some fd => do
              modify fun state => { (state.setFile f { state.ftable f with
                type := .inode
                ip
                ticket := state.serial
                readable := !hasFlag omode O_WRONLY
                writable := hasFlag omode O_WRONLY || hasFlag omode O_RDWR }).record
                  (.taken (.inode state.serial)) with serial := state.serial + 1 }
              return fd.val

/-- `memory` says whether `kalloc` found a page. -/
def pipealloc (memory : Bool) : FileM (Option (FileSlot × FileSlot)) := do
  match ← filealloc with
  | none => return none
  | some f0 => do
      match ← filealloc with
      | none => do
          fileclose f0
          return none
      | some f1 => do
          if memory then do
            modify fun state => { ((state.setFile f0 { state.ftable f0 with
                type := .pipe
                readable := true
                writable := false
                pipe := state.serial }).record (.taken (.pipe state.serial false))) with
              pipes := update state.pipes state.serial ⟨true, true⟩ }
            modify fun state => { ((state.setFile f1 { state.ftable f1 with
                type := .pipe
                readable := false
                writable := true
                pipe := state.serial }).record (.taken (.pipe state.serial true))) with
              serial := state.serial + 1 }
            return some (f0, f1)
          else do
            fileclose f0
            fileclose f1
            return none

/-- `arg` says whether the address for the descriptors was good. -/
def sysPipe (p : ProcSlot) (arg memory : Bool) : FileM Int := do
  if !arg then return -1
  else
    match ← pipealloc memory with
    | none => return -1
    | some (rf, wf) => do
        match ← fdalloc p rf with
        | none => do
            fileclose rf
            fileclose wf
            return -1
        | some fd0 => do
            match ← fdalloc p wf with
            | none => do
                setOfile p fd0 none
                fileclose rf
                fileclose wf
                return -1
            | some _ => return 0

def allocproc (kstack : Bool) : FileM (Option ProcSlot) := do
  let state ← get
  match (List.finRange NPROC).find? fun p => (state.ptable p).state = .unused with
  | none => return none
  | some p => do
      setState p .embryo
      if kstack then return some p
      else do
        setState p .unused
        return none

/-- `kstack` and `uvm` say whether there was memory for `allocproc` and for `copyuvm`. -/
def fork (p : ProcSlot) (kstack uvm : Bool) : FileM Int := do
  match ← allocproc kstack with
  | none => return -1
  | some np => do
      if uvm then do
        each (List.finRange NOFILE) fun i => do
          let state ← get
          match (state.ptable p).ofile i with
          | none => return ()
          | some f => do
              let f ← filedup f
              setOfile np i (some f)
        setState np .runnable
        return 0
      else do
        setState np .unused
        return -1

def exit (p : ProcSlot) : FileM Unit := do
  let state ← get
  if p = state.initproc then halt (.panic "init exiting")
  else do
    each (List.finRange NOFILE) fun fd => do
      let state ← get
      match (state.ptable p).ofile fd with
      | none => return ()
      | some f => do
          fileclose f
          setOfile p fd none
    setState p .zombie

inductive Call where
  | sysOpen (found : Option Nat) (omode : BitVec 32)
  | sysPipe (arg memory : Bool)
  | sysDup (fd : Option Int)
  | sysClose (fd : Option Int)
  | fork (kstack uvm : Bool)
  | exit
  | wait (child : ProcSlot)

def Call.run (p : ProcSlot) (state : State) : Call → Option State
  | .sysOpen found omode => (FileTable.sysOpen p found omode state).state?
  | .sysPipe arg memory => (FileTable.sysPipe p arg memory state).state?
  | .sysDup fd => (FileTable.sysDup p fd state).state?
  | .sysClose fd => (FileTable.sysClose p fd state).state?
  | .fork kstack uvm => (FileTable.fork p kstack uvm state).state?
  | .exit => (FileTable.exit p state).state?
  | .wait child => (setState child .unused state).state?

def Proc.live (proc : Proc) : Bool :=
  proc.state == .sleeping || proc.state == .runnable || proc.state == .running

def Call.finds (state : State) : Call → Bool
  | .wait child => (state.ptable child).state == .zombie
  | _ => true

def Made (state : State) (step : ProcSlot × Call) : Prop :=
  (state.ptable step.1).live = true ∧ step.2.finds state = true

instance (state : State) (step : ProcSlot × Call) : Decidable (Made state step) :=
  inferInstanceAs (Decidable (_ ∧ _))

def Next (state : State) (step : ProcSlot × Call) (state' : State) : Prop :=
  step.2.run step.1 state = some state'

def State.initial : State where
  ftable := fun _ => ⟨.none, 0, false, false, 0, 0, 0⟩
  ptable := fun p => ⟨if p = 0 then .running else .unused, fun _ => none⟩
  initproc := 0
  pipes := fun _ => ⟨false, false⟩
  serial := 0
  log := []

end Xv6.FileTable
