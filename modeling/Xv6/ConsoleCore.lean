import Xv6.Lib.Reach
import Xv6.Lib.Ring
import Mathlib.Data.UInt

/-! The input of the console (`console.c`): `consoleintr` and `consoleread` over a ring of
characters with three indices, each section under `cons.lock` one step. What is echoed to the screen
is left out. -/

namespace Xv6.Console

open Function

def INPUT_BUF : UInt32 := 128

def ctrl (x : Char) : UInt8 := x.toUInt8 - '@'.toUInt8

def newline : UInt8 := '\n'.toUInt8

/-- `input`: the ring, the read index, the write index and the edit index. -/
structure Input where
  buf : Nat → UInt8
  r : UInt32
  w : UInt32
  e : UInt32

def Input.at_ (input : Input) (index : UInt32) : UInt8 := input.buf (index % INPUT_BUF).toNat

def Input.ready (input : Input) : List UInt8 :=
  (List.range (input.w - input.r).toNat).map fun i => input.at_ (input.r + UInt32.ofNat i)

def Input.line (input : Input) : List UInt8 :=
  (List.range (input.e - input.w).toNat).map fun i => input.at_ (input.w + UInt32.ofNat i)

theorem sub_one_lt {x : UInt32} (pos : x ≠ 0) : (x - 1).toNat < x.toNat := by
  have large : 1 ≤ x.toNat := by
    by_contra zero
    exact pos (UInt32.toNat.inj (by simpa using zero))
  have small : (1 : UInt32) ≤ x := by
    rw [UInt32.le_iff_toNat_le]
    exact large
  rw [UInt32.toNat_sub_of_le _ _ small]
  simp only [UInt32.reduceToNat]
  omega

def Input.killLine (input : Input) : Input :=
  if input.e ≠ input.w ∧ input.at_ (input.e - 1) ≠ newline then
    Input.killLine { input with e := input.e - 1 }
  else input
termination_by (input.e - input.w).toNat
decreasing_by
  rename_i more
  rw [sub_right_comm]
  exact sub_one_lt (sub_ne_zero.mpr more.1)

/-- A call of `consoleread` under way: what it was asked for, what is left of that, and what it has
copied to `dst`. -/
structure Reader where
  target : Nat
  n : Nat
  dst : List UInt8
  deriving DecidableEq

/-- A process outside `consoleread`, asleep in it, or about to take `cons.lock` there. -/
inductive Pc where
  | idle
  | asleep (reader : Reader)
  | awake (reader : Reader)
  deriving DecidableEq

/-- A call that has returned: what it copied, whether it took a Control-D, and whether it returned
`-1`. -/
structure Read (P : Type) where
  process : P
  bytes : List UInt8
  eof : Bool
  failed : Bool
  deriving DecidableEq

/-- The console and the processes, and as history the characters committed, those taken and by whom, and
the calls that have returned. -/
structure State (P : Type) where
  input : Input
  pc : P → Pc
  killed : P → Bool
  committed : List UInt8
  taken : List (P × UInt8)
  reads : List (Read P)

variable {P : Type} [DecidableEq P]

def State.initial (buf : Nat → UInt8) : State P where
  input := ⟨buf, 0, 0, 0⟩
  pc := fun _ => .idle
  killed := fun _ => false
  committed := []
  taken := []
  reads := []

def Pc.wake : Pc → Pc
  | .asleep reader => .awake reader
  | pc => pc

/-- `input.w = input.e; wakeup(&input.r)`. -/
def State.commit (st : State P) : State P :=
  { st with
    input := { st.input with w := st.input.e }
    pc := fun process => (st.pc process).wake
    committed := st.committed ++ st.input.line }

def typeChar (st : State P) (c : UInt8) : State P :=
  if c = ctrl 'P' then st
  else if c = ctrl 'U' then { st with input := st.input.killLine }
  else if c = ctrl 'H' ∨ c = 0x7f then
    if st.input.e ≠ st.input.w then
      { st with input := { st.input with e := st.input.e - 1 } }
    else st
  else if c ≠ 0 ∧ st.input.e - st.input.r < INPUT_BUF then
    let c := if c = '\r'.toUInt8 then newline else c
    let input := { st.input with
      buf := update st.input.buf (st.input.e % INPUT_BUF).toNat c
      e := st.input.e + 1 }
    if c = newline ∨ c = ctrl 'D' ∨ input.e = input.r + INPUT_BUF then
      State.commit { st with input }
    else { st with input }
  else st

def consoleintr (st : State P) (chars : List UInt8) : State P := chars.foldl typeChar st

/-- How a section of `consoleread` ends: no character is ready, or the call returns, with a
Control-D taken or not. -/
inductive Ending where
  | wait
  | done (eof : Bool)
  deriving DecidableEq

/-- The loop of `consoleread`, up to where it would sleep. -/
def readLoop (target : Nat) : Nat → Input → List UInt8 → Input × Nat × List UInt8 × Ending
  | 0, input, dst => (input, 0, dst, .done false)
  | n + 1, input, dst =>
    if input.r = input.w then (input, n + 1, dst, .wait)
    else
      let c := input.at_ input.r
      let input := { input with r := input.r + 1 }
      if c = ctrl 'D' then
        -- The Control-D is left for the next call when this one has something to return.
        if n + 1 < target then ({ input with r := input.r - 1 }, n + 1, dst, .done false)
        else (input, n + 1, dst, .done true)
      else if c = newline then (input, n, dst ++ [c], .done false)
      else readLoop target n input (dst ++ [c])

def sectionTook (dst dst' : List UInt8) : Ending → List UInt8
  | .done true => dst'.drop dst.length ++ [ctrl 'D']
  | _ => dst'.drop dst.length

def State.return_ (st : State P) (process : P) (bytes : List UInt8) (eof failed : Bool) : State P :=
  { st with
    pc := update st.pc process .idle
    reads := st.reads ++ [⟨process, bytes, eof, failed⟩] }

/-- A section of `consoleread`: from `acquire`, or the return from `sleep`, to `sleep` or `release`. -/
def readSection (st : State P) (process : P) (reader : Reader) : State P :=
  let (input, n, dst, ending) := readLoop reader.target reader.n st.input reader.dst
  let st := { st with
    input, taken := st.taken ++ (sectionTook reader.dst dst ending).map fun c => (process, c) }
  match ending with
  | .done eof => st.return_ process dst eof false
  | .wait =>
    if st.killed process then st.return_ process dst false true
    else { st with pc := update st.pc process (.asleep ⟨reader.target, n, dst⟩) }

inductive Action (P : Type) where
  | consoleintr (chars : List UInt8)
  | consoleread (process : P) (n : Int)
  | run (process : P)
  | kill (process : P)

def step (st : State P) : Action P → Option (State P)
  | .consoleintr chars => some (Console.consoleintr st chars)
  | .consoleread process n =>
    if st.pc process = .idle then
      -- A length that is not positive does not enter the loop.
      some { st with pc := update st.pc process (.awake ⟨n.toNat, n.toNat, []⟩) }
    else none
  | .run process =>
    match st.pc process with
    | .awake reader => some (readSection st process reader)
    | _ => none
  | .kill process =>
    some { st with
      killed := update st.killed process true
      pc := update st.pc process (st.pc process).wake }

def Next (st : State P) (action : Action P) (st' : State P) : Prop := step st action = some st'

end Xv6.Console
