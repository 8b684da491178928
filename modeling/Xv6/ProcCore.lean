import Xv6.Param
import Xv6.Lib.Lineage
import Xv6.Lib.Reach

/-! The process table of `proc.c`: `allocproc`, `fork`, `exit`, `wait`, `kill`, `sleep`, `wakeup`
and the scheduler as steps of the processes, each section under `ptable.lock` one step. The
memory, files and names of processes are left out; that `kalloc` or `copyuvm` fails is a choice. -/

namespace Xv6.ProcTable

abbrev Slot := Fin NPROC

inductive ProcState where
  | unused
  | embryo
  | sleeping
  | runnable
  | running
  | zombie
  deriving DecidableEq

/-- What a process sleeps on: a process (in `wait`), or anything else. -/
inductive Chan where
  | proc (sl : Slot)
  | other (addr : Nat)
  deriving DecidableEq

structure Proc where
  state : ProcState
  pid : BitVec 32
  parent : Option Slot
  chan : Option Chan
  killed : Bool
  deriving DecidableEq

inductive ForkStage where
  | stack
  | copy
  | adopt
  | start
  deriving DecidableEq

inductive Pc where
  | user
  | forking (stage : ForkStage) (np : Slot)
  | waiting
  deriving DecidableEq

open Lineage (Event)

/-- The table, `nextpid`, the processes, and as history the number of processes allocated and what
`fork`, `exit` and `wait` did. -/
structure State where
  proc : Slot → Proc
  nextpid : BitVec 32
  pc : Slot → Pc
  created : Nat
  history : List (Event (BitVec 32))

def initproc : Slot := 0

def slots : List Slot := List.finRange NPROC

def State.setProc (state : State) (sl : Slot) (proc : Proc) : State :=
  { state with proc := Function.update state.proc sl proc }

def State.setState (state : State) (sl : Slot) (value : ProcState) : State :=
  state.setProc sl { state.proc sl with state := value }

def State.goto (state : State) (sl : Slot) (pc : Pc) : State :=
  { state with pc := Function.update state.pc sl pc }

/-- `allocproc` up to the release of `ptable.lock`. -/
def allocproc (state : State) : Option (Slot × State) :=
  match slots.find? fun sl => (state.proc sl).state = .unused with
  | none => none
  | some sl =>
    some (sl, { state with
      proc := Function.update state.proc sl { state.proc sl with state := .embryo, pid := state.nextpid }
      nextpid := state.nextpid + 1
      created := state.created + 1 })

def Proc.wakeup1 (chan : Chan) (proc : Proc) : Proc :=
  if proc.state = .sleeping ∧ proc.chan = some chan then { proc with state := .runnable } else proc

def wakeup1 (chan : Chan) (state : State) : State :=
  { state with proc := fun sl => (state.proc sl).wakeup1 chan }

def Proc.abandon (sl : Slot) (proc : Proc) : Proc :=
  if proc.parent = some sl then { proc with parent := some initproc } else proc

/-- The section of `exit` under `ptable.lock`: wake the parent, give the children to init. -/
def exitSection (state : State) (sl : Slot) : State :=
  let woken :=
    match (state.proc sl).parent with
    | some parent => wakeup1 (.proc parent) state
    | none => state
  let passed := { woken with proc := fun c => (woken.proc c).abandon sl }
  let abandoned := slots.any fun c =>
    (woken.proc c).parent = some sl ∧ (woken.proc c).state = .zombie
  let told := if abandoned then wakeup1 (.proc initproc) passed else passed
  { told.setState sl .zombie with history := .died (state.proc sl).pid :: state.history }

inductive Scan where
  | zombie (sl : Slot)
  | fail
  | sleep
  deriving DecidableEq

def waitScan (state : State) (sl : Slot) : Scan :=
  match slots.find? fun c =>
      (state.proc c).parent = some sl ∧ (state.proc c).state = .zombie with
  | some c => .zombie c
  | none =>
    let havekids := slots.any fun c => (state.proc c).parent = some sl
    if !havekids || (state.proc sl).killed then .fail else .sleep

def reap (state : State) (c : Slot) : State :=
  state.setProc c { state.proc c with pid := 0, parent := none, killed := false, state := .unused }

def kill (state : State) (pid : BitVec 32) : Int × State :=
  match slots.find? fun sl => (state.proc sl).pid = pid with
  | none => (-1, state)
  | some sl =>
    let p := { state.proc sl with killed := true }
    (0, state.setProc sl (if p.state = .sleeping then { p with state := .runnable } else p))

inductive Action where
  | scheduler (sl : Slot)
  | yield (sl : Slot)
  | sleep (sl : Slot) (addr : Nat)
  | wakeup (addr : Nat)
  | fork (sl : Slot)
  | forkStack (sl : Slot) (given : Bool)
  | forkCopy (sl : Slot) (given : Bool)
  | forkAdopt (sl : Slot)
  | forkStart (sl : Slot)
  | exit (sl : Slot)
  | wait (sl : Slot)
  | kill (sl : Slot) (pid : BitVec 32)
  | fault (sl : Slot)

def State.at_ (state : State) (sl : Slot) (pc : Pc) : Bool :=
  (state.proc sl).state = .running && state.pc sl = pc

def step (state : State) : Action → Option State
  | .scheduler sl =>
    let p := state.proc sl
    if p.state = .runnable then some (state.setProc sl { p with state := .running, chan := none })
    else none
  | .yield sl =>
    if (state.proc sl).state = .running then some (state.setState sl .runnable) else none
  | .sleep sl addr =>
    if state.at_ sl .user then
      some (state.setProc sl { state.proc sl with state := .sleeping, chan := some (.other addr) })
    else none
  | .wakeup addr => some (wakeup1 (.other addr) state)
  | .fork sl =>
    if state.at_ sl .user then
      match allocproc state with
      | none => some state
      | some (np, state) => some (state.goto sl (.forking .stack np))
    else none
  | .forkStack sl given =>
    match state.pc sl with
    | .forking .stack np =>
      if (state.proc sl).state ≠ .running then none
      else if given then some (state.goto sl (.forking .copy np))
      else some ((state.setState np .unused).goto sl .user)
    | _ => none
  | .forkCopy sl given =>
    match state.pc sl with
    | .forking .copy np =>
      if (state.proc sl).state ≠ .running then none
      else if given then some (state.goto sl (.forking .adopt np))
      else some ((state.setState np .unused).goto sl .user)
    | _ => none
  | .forkAdopt sl =>
    match state.pc sl with
    | .forking .adopt np =>
      if (state.proc sl).state ≠ .running then none
      else some ((state.setProc np { state.proc np with parent := some sl }).goto sl (.forking .start np))
    | _ => none
  | .forkStart sl =>
    match state.pc sl with
    | .forking .start np =>
      if (state.proc sl).state ≠ .running then none
      else some { (state.setState np .runnable).goto sl .user with
        history := .born (state.proc np).pid (state.proc sl).pid :: state.history }
    | _ => none
  | .exit sl =>
    -- `exit` of init is a panic.
    if state.at_ sl .user ∧ sl ≠ initproc then some (exitSection state sl) else none
  | .wait sl =>
    if state.at_ sl .user || state.at_ sl .waiting then
      match waitScan state sl with
      | .zombie c => some { (reap state c).goto sl .user with
          history := .collected (state.proc c).pid (state.proc sl).pid :: state.history }
      | .fail => some (state.goto sl .user)
      | .sleep =>
        some ((state.setProc sl { state.proc sl with state := .sleeping, chan := some (.proc sl) }).goto sl .waiting)
    else none
  | .kill sl pid => if state.at_ sl .user then some (kill state pid).2 else none
  | .fault sl =>
    if state.at_ sl .user then
      some (state.setProc sl { state.proc sl with killed := true })
    else none

def Next (state : State) (action : Action) (state' : State) : Prop := step state action = some state'

def State.empty : State where
  proc := fun _ => ⟨.unused, 0, none, none, false⟩
  nextpid := 1
  pc := fun _ => .user
  created := 0
  history := []

/-- The table after `userinit`: `allocproc`, then the state is set to RUNNABLE. -/
def State.initial : State :=
  match allocproc State.empty with
  | some (sl, state) => state.setState sl .runnable
  | none => State.empty

end Xv6.ProcTable
