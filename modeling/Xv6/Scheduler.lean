import Xv6.ProcTree

/-! The scheduler: processors that run the loop of `scheduler` or the kernel thread of a process,
with `ptable.lock` held by a processor and handed over across `swtch`. What is done to the table
under the lock is that of the process table; each acquire, each release, each `swtch`, and in
`scheduler` each assignment to `proc` and to `p->state`, is a step of its own. -/


namespace Xv6.Scheduler

open Function
open ProcTable (initproc)

/-- Why a process takes `ptable.lock`: a call, an interrupt, or the end of `fork`. -/
inductive Op where
  | yield
  | sleep (addr : Nat)
  | exit
  | wait
  | wakeup (addr : Nat)
  | kill (pid : BitVec 32)
  | fork
  | start
  deriving DecidableEq

/-- Where `sched` returns to; a new process first comes to `forkret`. -/
inductive Caller where
  | yield
  | sleep
  | exit
  | wait
  | forkret
  deriving DecidableEq

/-- Where the kernel thread of a process stands. At `sched` the state has been changed and `swtch`
is next; `parked` is the point in `p->context`. -/
inductive ThreadPc where
  | user
  | acquiring (op : Op)
  | holding (op : Op)
  | sched (caller : Caller)
  | parked (caller : Caller)
  | releasing
  deriving DecidableEq

/-- Where the loop of `scheduler` stands. An interrupt may come in before it takes the lock, and wake a
channel. -/
inductive SchedPc where
  | idle
  | scan (index : Nat)
  | chosen (p : ProcTable.Slot)
  | marked (p : ProcTable.Slot)
  | back (p : ProcTable.Slot)
  | waking (addr : Nat)
  | rousing (addr : Nat)
  | roused
  deriving DecidableEq

/-- A processor: its variable `proc`, its scheduler, and the process whose thread it runs, if any. -/
structure Cpu where
  proc : Option ProcTable.Slot
  scheduler : SchedPc
  thread : Option ProcTable.Slot

/-- The table, which processes have a kernel stack and a page directory, the processor that holds
`ptable.lock`, the processors, and the threads. -/
structure State (C : Type) where
  table : ProcTable.State
  kstack : ProcTable.Slot → Bool
  pgdir : ProcTable.Slot → Bool
  lock : Option C
  cpu : C → Cpu
  thread : ProcTable.Slot → ThreadPc

variable {C : Type} [DecidableEq C]

def State.initial : State C where
  table := .initial
  kstack := fun slot => slot = initproc
  pgdir := fun slot => slot = initproc
  lock := none
  cpu := fun _ => ⟨none, .idle, none⟩
  thread := fun _ => .parked .forkret

@[simp] def State.setCpu (st : State C) (c : C) (cpu : Cpu) : State C :=
  { st with cpu := update st.cpu c cpu }

@[simp] def State.setTable (st : State C) (table : ProcTable.State) : State C := { st with table }

@[simp] def State.setLock (st : State C) (lock : Option C) : State C := { st with lock }

@[simp] def State.goto (st : State C) (p : ProcTable.Slot) (pc : ThreadPc) : State C :=
  { st with thread := update st.thread p pc }

@[simp] def State.setScheduler (st : State C) (c : C) (pc : SchedPc) : State C :=
  st.setCpu c { st.cpu c with scheduler := pc }

/-- What a thread may begin. In `fork` only interrupts come in between its steps. -/
def Op.may (p : ProcTable.Slot) : ProcTable.Pc → Op → Bool
  | _, .yield | _, .wakeup _ => true
  | .user, .exit => p ≠ initproc
  | .user, .sleep _ | .user, .wait | .user, .kill _ | .user, .fork => true
  | .forking .start _, .start => true
  | _, _ => false

def section_ (st : State C) (p : ProcTable.Slot) : Op → Option (State C)
  | .yield => some ((st.setTable (st.table.setState p .runnable)).goto p (.sched .yield))
  | .sleep addr =>
    some ((st.setTable (st.table.setProc p
      { st.table.proc p with state := .sleeping, chan := some (.other addr) })).goto p (.sched .sleep))
  | .exit => some ((st.setTable (ProcTable.exitSection st.table p)).goto p (.sched .exit))
  | .wait =>
    match ProcTable.waitScan st.table p with
    | .zombie child =>
      some ({ st.setTable ((ProcTable.reap st.table child).goto p .user) with
        kstack := update st.kstack child false
        pgdir := update st.pgdir child false }.goto p .releasing)
    | .fail => some ((st.setTable (st.table.goto p .user)).goto p .releasing)
    | .sleep =>
      some ((st.setTable ((st.table.setProc p
        { st.table.proc p with state := .sleeping, chan := some (.proc p) }).goto p .waiting)).goto p (.sched .wait))
  | .wakeup addr =>
    some ((st.setTable (ProcTable.wakeup1 (.other addr) st.table)).goto p .releasing)
  | .kill pid => some ((st.setTable (ProcTable.kill st.table pid).2).goto p .releasing)
  | .fork =>
    match ProcTable.allocproc st.table with
    | none => some (st.goto p .releasing)
    | some (np, table) => some ((st.setTable (table.goto p (.forking .stack np))).goto p .releasing)
  | .start =>
    match st.table.pc p with
    | .forking .start np =>
      some ((st.setTable { (st.table.setState np .runnable).goto p .user with
        history := .born (st.table.proc np).pid (st.table.proc p).pid :: st.table.history }).goto p .releasing)
    | _ => none

def resume (st : State C) (p : ProcTable.Slot) : Caller → Option (State C)
  | .yield | .forkret => some (st.goto p .releasing)
  | .sleep =>
    some ((st.setTable (st.table.setProc p { st.table.proc p with chan := none })).goto p .releasing)
  | .wait =>
    some ((st.setTable (st.table.setProc p { st.table.proc p with chan := none })).goto p (.holding .wait))
  -- panic("zombie exit")
  | .exit => none

def threadStep (st : State C) (c : C) (p : ProcTable.Slot) : Option (State C) :=
  match st.thread p with
  | .user => none
  | .acquiring op => if st.lock = none then some ((st.setLock (some c)).goto p (.holding op)) else none
  | .holding op => section_ st p op
  | .sched caller => some ((st.setCpu c { st.cpu c with thread := none }).goto p (.parked caller))
  | .parked caller => resume st p caller
  | .releasing => some ((st.setLock none).goto p .user)

def schedStep (st : State C) (c : C) : Option (State C) :=
  match (st.cpu c).scheduler with
  | .idle => if st.lock = none then some ((st.setLock (some c)).setScheduler c (.scan 0)) else none
  | .scan index =>
    if bound : index < NPROC then
      if (st.table.proc ⟨index, bound⟩).state = .runnable then
        some (st.setCpu c ⟨some ⟨index, bound⟩, .chosen ⟨index, bound⟩, none⟩)
      else some (st.setScheduler c (.scan (index + 1)))
    else some ((st.setLock none).setScheduler c .idle)
  | .chosen p => some ((st.setTable (st.table.setState p .running)).setScheduler c (.marked p))
  | .marked p => some (st.setCpu c { st.cpu c with scheduler := .back p, thread := some p })
  | .back p => some (st.setCpu c ⟨none, .scan (p.val + 1), none⟩)
  | .waking addr =>
    if st.lock = none then some ((st.setLock (some c)).setScheduler c (.rousing addr)) else none
  | .rousing addr =>
    some ((st.setTable (ProcTable.wakeup1 (.other addr) st.table)).setScheduler c .roused)
  | .roused => some ((st.setLock none).setScheduler c .idle)

/-! `fork` without the lock, by the thread of `p`; whether `kalloc` and `copyuvm` succeed is a
choice. -/

def forkStack (st : State C) (p : ProcTable.Slot) (given : Bool) : Option (State C) :=
  match st.table.pc p with
  | .forking .stack np =>
    if given then
      some ({ st.setTable (st.table.goto p (.forking .copy np)) with
        kstack := update st.kstack np true }.goto np (.parked .forkret))
    else some (st.setTable ((st.table.setState np .unused).goto p .user))
  | _ => none

def forkCopy (st : State C) (p : ProcTable.Slot) (given : Bool) : Option (State C) :=
  match st.table.pc p with
  | .forking .copy np =>
    if given then
      some { st.setTable (st.table.goto p (.forking .adopt np)) with
        pgdir := update st.pgdir np true }
    else
      some { st.setTable ((st.table.setState np .unused).goto p .user) with
        kstack := update st.kstack np false }
  | _ => none

def forkAdopt (st : State C) (p : ProcTable.Slot) : Option (State C) :=
  match st.table.pc p with
  | .forking .adopt np =>
    some (st.setTable ((st.table.setProc np { st.table.proc np with parent := some p }).goto p (.forking .start np)))
  | _ => none

inductive Action (C : Type) where
  | begin (c : C) (op : Op)
  | interrupt (c : C) (addr : Nat)
  | forkStack (c : C) (given : Bool)
  | forkCopy (c : C) (given : Bool)
  | forkAdopt (c : C)
  | run (c : C)

def State.free (st : State C) (c : C) : Option ProcTable.Slot :=
  (st.cpu c).thread.filter fun p => st.thread p = .user

def step (st : State C) : Action C → Option (State C)
  | .begin c op =>
    (st.free c).bind fun p =>
      if op.may p (st.table.pc p) then some (st.goto p (.acquiring op)) else none
  | .interrupt c addr =>
    if (st.cpu c).thread = none ∧ (st.cpu c).scheduler = .idle then
      some (st.setScheduler c (.waking addr))
    else none
  | .forkStack c given => (st.free c).bind fun p => forkStack st p given
  | .forkCopy c given => (st.free c).bind fun p => forkCopy st p given
  | .forkAdopt c => (st.free c).bind fun p => forkAdopt st p
  | .run c =>
    match (st.cpu c).thread with
    | some p => threadStep st c p
    | none => schedStep st c

def Next (st : State C) (action : Action C) (st' : State C) : Prop := step st action = some st'

end Xv6.Scheduler
