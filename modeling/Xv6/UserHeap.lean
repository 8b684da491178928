import Xv6.Lib.Chain
import Xv6.Lib.Reach
import Mathlib.Algebra.GroupWithZero.Nat

/-! The user heap (`umalloc.c`): `malloc`, `morecore` and `free` over headers in memory. Addresses
are in bytes, sizes in units of a header. The break stays below `KERNBASE`, so that no address and
no size leaves its 32 bits. -/

namespace Xv6.UserHeap

open Chain Reach

def KERNBASE : Nat := 2 ^ 31

def headerSize : Nat := 8

structure Header where
  ptr : Nat
  size : Nat
  deriving DecidableEq

structure Block where
  addr : Nat
  size : Nat
  deriving DecidableEq

def Block.stop (b : Block) : Nat := b.addr + headerSize * b.size

structure Request where
  block : Block
  nbytes : Nat
  deriving DecidableEq

/-- Memory as headers, `freep` (zero before the first call), the break, and as history the blocks
that are allocated and the units obtained from `sbrk`. -/
structure State where
  header : Nat → Header
  freep : Nat
  brk : Nat
  allocated : List Request
  obtained : Nat

def State.next (st : State) (p : Nat) : Nat := (st.header p).ptr

def State.size (st : State) (p : Nat) : Nat := (st.header p).size

def State.set (st : State) (p : Nat) (header : Header) : State :=
  { st with header := Function.update st.header p header }

/-- Where the loop of `free` stops: between its neighbours, or at the end of the list. -/
def State.fits (st : State) (bp p : Nat) : Bool :=
  (p < bp ∧ bp < st.next p) ∨ (st.next p ≤ p ∧ (p < bp ∨ bp < st.next p))

def free (fuel : Nat) (st : State) (bp : Nat) : Option State :=
  (follow st.next (st.fits bp) fuel st.freep).map fun p =>
    let upper :=
      if bp + headerSize * st.size bp = st.next p then
        st.set bp ⟨st.next (st.next p), st.size bp + st.size (st.next p)⟩
      else st.set bp ⟨st.next p, st.size bp⟩
    let lower :=
      if p + headerSize * upper.size p = bp then upper.set p ⟨upper.next bp, upper.size p + upper.size bp⟩
      else upper.set p ⟨bp, upper.size p⟩
    { lower with freep := p }

/-- `sbrk`: grants are up to the kernel, but the break stays below `KERNBASE`. -/
def sbrk (grant : Bool) (st : State) (bytes : Nat) : Option (State × Nat) :=
  if grant ∧ st.brk + bytes < KERNBASE then some ({ st with brk := st.brk + bytes }, st.brk)
  else none

def morecore (fuel : Nat) (grant : Bool) (st : State) (nunits : Nat) : Option (State × Nat) :=
  let nu := if nunits < 4096 then 4096 else nunits
  match sbrk grant st (nu * headerSize) with
  | none => some (st, 0)
  | some (grown, hp) =>
    let sized := { grown.set hp { grown.header hp with size := nu } with obtained := grown.obtained + nu }
    (free fuel sized hp).map fun st => (st, st.freep)

/-- A block large enough was found: all of it is taken, or its tail. The result is the header of
what was taken. -/
def take (st : State) (nunits prevp p : Nat) : State × Nat :=
  if st.size p = nunits then
    ({ st.set prevp { st.header prevp with ptr := st.next p } with freep := prevp }, p)
  else
    let shorter := st.set p { st.header p with size := st.size p - nunits }
    let tail := p + headerSize * shorter.size p
    ({ shorter.set tail { shorter.header tail with size := nunits } with freep := prevp }, tail)

def mallocLoop (grant : Bool) (nunits : Nat) : Nat → State → Nat → Nat → Option (State × Nat)
  | 0, _, _, _ => none
  | fuel + 1, st, prevp, p =>
    if nunits ≤ st.size p then some (take st nunits prevp p)
    else if p = st.freep then
      match morecore fuel grant st nunits with
      | none => none
      | some (st, p) =>
        if p = 0 then some (st, 0) else mallocLoop grant nunits fuel st p (st.next p)
    else mallocLoop grant nunits fuel st p (st.next p)

def nunitsOf (nbytes : Nat) : Nat := (nbytes + headerSize - 1) / headerSize + 1

/-- Before the first call there is no list: it is made of `base` alone. -/
def prepare (base : Nat) (st : State) : State :=
  if st.freep = 0 then { st.set base ⟨base, 0⟩ with freep := base } else st

def malloc (base fuel : Nat) (grant : Bool) (st : State) (nbytes : Nat) : Option (State × Nat) :=
  let st := prepare base st
  (mallocLoop grant (nunitsOf nbytes) fuel st st.freep (st.next st.freep)).map fun (st, p) =>
      if p = 0 then (st, 0)
      else ({ st with allocated := ⟨⟨p, nunitsOf nbytes⟩, nbytes⟩ :: st.allocated }, p + headerSize)

inductive Action where
  | malloc (nbytes : Nat) (grant : Bool)
  | free (ap : Nat)
  | write (header : Nat → Header)

def Allowed (st : State) : Action → Prop
  | .malloc nbytes _ => nbytes < 2 ^ 30
  | .free ap => ∃ request ∈ st.allocated, ap = request.block.addr + headerSize
  -- Bytes behind the header and before the end of an allocated block.
  | .write header => ∀ p, header p ≠ st.header p →
      ∃ request ∈ st.allocated, request.block.addr < p ∧ p < request.block.stop

/-- A step; none if a loop has not ended in `fuel` rounds. -/
def step (base fuel : Nat) (st : State) : Action → Option State
  | .malloc nbytes grant => (malloc base fuel grant st nbytes).map Prod.fst
  | .free ap =>
    (free fuel st (ap - headerSize)).map fun after => { after with
      allocated := st.allocated.filter fun request => request.block.addr ≠ ap - headerSize }
  | .write header => some { st with header }

def Next (base : Nat) (st : State) (action : Action) (st' : State) : Prop :=
  ∃ fuel, step base fuel st action = some st'

def State.initial (header : Nat → Header) (start : Nat) : State where
  header := header
  freep := 0
  brk := start
  allocated := []
  obtained := 0

end Xv6.UserHeap
