import Xv6.Lib.Reach
import Xv6.Lib.Ring

/-! `pipe.c` as a system of processes: `pipewrite`, `piperead` and `pipeclose` on one pipe,
with `sleep`, `wakeup` and `kill` of `proc.c`. A process stands at a point of the code and
holds `p->lock`, `ptable.lock` or neither; each section under `ptable.lock` that does not end
in `sleep` is one step. -/

namespace Xv6.PipeProtocol

def PIPESIZE : UInt32 := 512

structure Pipe where
  data : Nat → UInt8
  nread : UInt32
  nwrite : UInt32
  readopen : Bool
  writeopen : Bool

def Pipe.alloc (data : Nat → UInt8) : Pipe where
  data := data
  nread := 0
  nwrite := 0
  readopen := true
  writeopen := true

def Pipe.full (pipe : Pipe) : Bool := pipe.nwrite == pipe.nread + PIPESIZE

def Pipe.drained (pipe : Pipe) : Bool := pipe.nread == pipe.nwrite

/-- `p->data[p->nwrite++ % PIPESIZE] = byte`. -/
def Pipe.store (pipe : Pipe) (byte : UInt8) : Pipe :=
  { pipe with
    data := Function.update pipe.data (pipe.nwrite % PIPESIZE).toNat byte
    nwrite := pipe.nwrite + 1 }

def Pipe.front (pipe : Pipe) : UInt8 := pipe.data (pipe.nread % PIPESIZE).toNat

def Pipe.take (pipe : Pipe) : Pipe := { pipe with nread := pipe.nread + 1 }

def Pipe.close (pipe : Pipe) (writable : Bool) : Pipe :=
  if writable then { pipe with writeopen := false } else { pipe with readopen := false }

inductive Chan where
  | nread
  | nwrite
  deriving DecidableEq

/-- A call of `pipewrite`. `since` is history: the value of `i` when it last took `p->lock`. -/
structure Writer where
  addr : Nat → UInt8
  n : Int
  i : Nat
  since : Nat

/-- A call of `piperead` with the bytes copied to `addr` so far. -/
structure Reader where
  n : Int
  addr : List UInt8

def Reader.i (reader : Reader) : Nat := reader.addr.length

inductive Call where
  | write (writer : Writer)
  | read (reader : Reader)
  | close (writable : Bool)

def Call.resume : Call → Call
  | .write writer => .write { writer with since := writer.i }
  | call => call

inductive Stage where
  | acquire
  | release
  | sched
  | asleep
  deriving DecidableEq

inductive Pc where
  | idle
  | acquiring (call : Call)
  | testing (call : Call)
  | full (writer : Writer)
  | signalling (writer : Writer)
  | copying (reader : Reader)
  | sleep (stage : Stage) (chan : Chan) (call : Call)
  | notifying (chan : Chan) (call : Call) (result : Int)
  | returning (call : Call) (result : Int)

/-- The pipe, the holders of its lock and of `ptable.lock`, the processes, and as history the
bytes stored by writers and the bytes delivered to readers. -/
structure State (P : Type) where
  pipe : Pipe
  freed : Bool
  lock : Option P
  ptable : Option P
  pc : P → Pc
  killed : P → Bool
  stored : List UInt8
  delivered : List UInt8

variable {P : Type} [DecidableEq P]

def State.initial (data : Nat → UInt8) : State P where
  pipe := .alloc data
  freed := false
  lock := none
  ptable := none
  pc := fun _ => .idle
  killed := fun _ => false
  stored := []
  delivered := []

def State.goto (st : State P) (q : P) (pc : Pc) : State P :=
  { st with pc := Function.update st.pc q pc }

def Pc.rouse : Pc → Pc
  | .sleep .asleep _ call => .acquiring call
  | pc => pc

def Pc.wake (chan : Chan) : Pc → Pc
  | .sleep .asleep on call => if on = chan then .acquiring call else .sleep .asleep on call
  | pc => pc

def State.wakeup (st : State P) (chan : Chan) : State P :=
  { st with pc := fun q => (st.pc q).wake chan }

inductive Action (P : Type) where
  | call (q : P) (call : Call)
  | run (q : P)
  | kill (q : P)

def Call.Fresh : Call → Bool
  | .write writer => writer.i == 0 && writer.since == 0
  | .read reader => reader.addr.isEmpty
  | .close _ => true

def run (st : State P) (q : P) : Option (State P) :=
  match st.pc q with
  | .idle => none
  | .acquiring call =>
    if st.lock = none ∧ st.freed = false then
      some ({ st with lock := some q }.goto q (.testing call.resume))
    else none
  | .testing (.write writer) =>
    if writer.i < writer.n then
      if st.pipe.full then some (st.goto q (.full writer))
      else
        let byte := writer.addr writer.i
        some ({ st with
          pipe := st.pipe.store byte
          stored := st.stored ++ [byte] }.goto q (.testing (.write { writer with i := writer.i + 1 })))
    else some (st.goto q (.notifying .nread (.write writer) writer.n))
  | .full writer =>
    if st.pipe.readopen = false ∨ st.killed q then
      some (st.goto q (.returning (.write writer) (-1)))
    else some (st.goto q (.signalling writer))
  | .signalling writer =>
    if st.ptable = none then
      some ((st.goto q (.sleep .acquire .nwrite (.write writer))).wakeup .nread)
    else none
  | .testing (.read reader) =>
    if st.pipe.drained ∧ st.pipe.writeopen then
      if st.killed q then some (st.goto q (.returning (.read reader) (-1)))
      else some (st.goto q (.sleep .acquire .nread (.read reader)))
    else some (st.goto q (.copying reader))
  | .copying reader =>
    if reader.i < reader.n ∧ st.pipe.drained = false then
      let byte := st.pipe.front
      some ({ st with
        pipe := st.pipe.take
        delivered := st.delivered ++ [byte] }.goto q (.copying { reader with addr := reader.addr ++ [byte] }))
    else some (st.goto q (.notifying .nwrite (.read reader) reader.i))
  | .testing (.close writable) =>
    some ({ st with pipe := st.pipe.close writable }.goto q
      (.notifying (if writable then .nread else .nwrite) (.close writable) 0))
  | .sleep .acquire chan call =>
    if st.ptable = none then
      some ({ st with ptable := some q }.goto q (.sleep .release chan call))
    else none
  | .sleep .release chan call =>
    some ({ st with lock := none }.goto q (.sleep .sched chan call))
  | .sleep .sched chan call =>
    some ({ st with ptable := none }.goto q (.sleep .asleep chan call))
  | .sleep .asleep _ _ => none
  | .notifying chan call result =>
    if st.ptable = none then
      some ((st.goto q (.returning call result)).wakeup chan)
    else none
  | .returning (.close _) _ =>
    -- The page goes back to the allocator with the second end.
    some ({ st with
      lock := none
      freed := st.pipe.readopen == false && st.pipe.writeopen == false }.goto q .idle)
  | .returning _ _ => some ({ st with lock := none }.goto q .idle)

def step (st : State P) : Action P → Option (State P)
  | .call q call =>
    match st.pc q with
    | .idle =>
      if call.Fresh ∧ st.freed = false then some (st.goto q (.acquiring call))
      else none
    | _ => none
  | .run q => run st q
  | .kill q =>
    if st.ptable = none then
      some ({ st with killed := Function.update st.killed q true }.goto q (st.pc q).rouse)
    else none

def Next (st : State P) (action : Action P) (st' : State P) : Prop :=
  step st action = some st'

end Xv6.PipeProtocol
