import Xv6.Param
import Xv6.Lib.Exec
import Xv6.Lib.Reach

/-! `kalloc.c` and `vm.c`: the free list, page directories and page tables in physical memory,
and the calls that change address spaces. Physical and virtual addresses are numbers of pages
of `PGSIZE` bytes; sizes are in bytes, in 32 bits. A word of a page is a page table entry, its
page number apart from its flags. What a program reads from files into user pages is left out;
whether it could be read is part of the input. -/

namespace Xv6.Vm

open Exec Exec.Prog Function

def PGSIZE : Nat := 4096
def NPDENTRIES : Nat := 1024

def KERNBASE : Nat := 0x80000
def EXTMEM : Nat := 0x100
def PHYSTOP : Nat := 0xE000
def DEVSPACE : Nat := 0xFE000
def TOP : Nat := 0x100000

def PTE_P : BitVec 12 := 1
def PTE_W : BitVec 12 := 2
def PTE_U : BitVec 12 := 4

/-- Where the linker put the kernel: its data, and the first page after it. -/
structure Layout where
  data : Nat
  first : Nat
  text_above : EXTMEM < data
  data_below : data < PHYSTOP
  end_above : data ≤ first

/-- A page directory or page table entry: `PTE_ADDR` and `PTE_FLAGS`. -/
structure Entry where
  frame : Nat
  flags : BitVec 12
  deriving DecidableEq

def Entry.zero : Entry := ⟨0, 0⟩

def Entry.junk : Entry := ⟨0x1010, 0x101⟩

def Entry.present (entry : Entry) : Bool := entry.flags &&& PTE_P != 0

def Entry.user (entry : Entry) : Bool := entry.flags &&& PTE_U != 0

/-- Physical memory. `refreed` is history: a page was freed while on the free list. -/
structure Mem where
  freelist : List Nat
  word : Nat → Fin 1024 → Entry
  refreed : Bool

abbrev MemM := Prog Mem Stop

def Mem.setWord (mem : Mem) (page : Nat) (index : Fin 1024) (entry : Entry) : Mem :=
  { mem with word := update mem.word page (update (mem.word page) index entry) }

def Mem.fill (mem : Mem) (page : Nat) (entry : Entry) : Mem :=
  { mem with word := update mem.word page fun _ => entry }

def kalloc : MemM (Option Nat) := do
  let mem ← get
  match mem.freelist with
  | [] => pure none
  | page :: rest => do
      modify fun mem => { mem with freelist := rest }
      pure (some page)

def kfree (lay : Layout) (page : Nat) : MemM Unit := do
  if page < lay.first ∨ PHYSTOP ≤ page then halt (.panic "kfree")
  else modify fun mem => { mem.fill page .junk with
    freelist := page :: mem.freelist
    refreed := mem.refreed || decide (page ∈ mem.freelist) }

instance entries : NeZero 1024 := ⟨by decide⟩

def pdx (va : Nat) : Fin 1024 := Fin.ofNat 1024 (va / 1024)

def ptx (va : Nat) : Fin 1024 := Fin.ofNat 1024 va

/-- The page table and index of the entry for `va`. -/
def walkpgdir (pgdir va : Nat) (alloc : Bool) : MemM (Option (Nat × Fin 1024)) := do
  let mem ← get
  let pde := mem.word pgdir (pdx va)
  if pde.present then pure (some (pde.frame, ptx va))
  else if !alloc then pure none
  else
    match ← kalloc with
    | none => pure none
    | some pgtab => do
        modify fun mem => (mem.fill pgtab .zero).setWord pgdir (pdx va) ⟨pgtab, PTE_P ||| PTE_W ||| PTE_U⟩
        pure (some (pgtab, ptx va))

/-- `mappages` of a number of pages; false is its failure. -/
def mappages (pgdir : Nat) : Nat → Nat → Nat → BitVec 12 → MemM Bool
  | 0, _, _, _ => pure true
  | count + 1, va, frame, perm => do
      match ← walkpgdir pgdir va true with
      | none => pure false
      | some (pgtab, index) => do
          let mem ← get
          if (mem.word pgtab index).present then halt (.panic "remap")
          else
            modify fun mem => mem.setWord pgtab index ⟨frame, perm ||| PTE_P⟩
            mappages pgdir count (va + 1) (frame + 1) perm

structure Kmap where
  virt : Nat
  start : Nat
  stop : Nat
  perm : BitVec 12

def kmap (lay : Layout) : List Kmap :=
  [⟨KERNBASE, 0, EXTMEM, PTE_W⟩, ⟨KERNBASE + EXTMEM, EXTMEM, lay.data, 0⟩,
    ⟨KERNBASE + lay.data, lay.data, PHYSTOP, PTE_W⟩, ⟨DEVSPACE, DEVSPACE, TOP, PTE_W⟩]

def mapKernel (pgdir : Nat) : List Kmap → MemM Bool
  | [] => pure true
  | k :: rest => do
      if ← mappages pgdir (k.stop - k.start) k.virt k.start k.perm then mapKernel pgdir rest
      else pure false

def setupkvm (lay : Layout) : MemM (Option Nat) := do
  match ← kalloc with
  | none => pure none
  | some pgdir => do
      modify fun mem => mem.fill pgdir .zero
      if ← mapKernel pgdir (kmap lay) then pure (some pgdir) else pure none

def pages (sz : Nat) : Nat := (sz + (PGSIZE - 1)) / PGSIZE

/-- The loop of `deallocuvm` from `va` up to `stop`; each round goes on by at least a page. -/
def deallocLoop (lay : Layout) (pgdir stop : Nat) : Nat → Nat → MemM Unit
  | 0, _ => pure ()
  | fuel + 1, va => do
      if va < stop then
        match ← walkpgdir pgdir va false with
        | none => deallocLoop lay pgdir stop fuel ((va / 1024 + 1) * 1024)
        | some (pgtab, index) => do
            let mem ← get
            let pte := mem.word pgtab index
            onlyIf (pte.present = true) (do
              onlyIf (pte.frame = 0) (halt (.panic "kfree"))
              kfree lay pte.frame
              modify fun mem => mem.setWord pgtab index .zero)
            deallocLoop lay pgdir stop fuel (va + 1)
      else pure ()

def deallocuvm (lay : Layout) (pgdir oldsz newsz : Nat) : MemM Nat := do
  if oldsz ≤ newsz then pure oldsz
  else
    deallocLoop lay pgdir (pages oldsz) (pages oldsz - pages newsz) (pages newsz)
    pure newsz

def allocLoop (lay : Layout) (pgdir oldsz newsz : Nat) : Nat → Nat → MemM Nat
  | 0, _ => pure newsz
  | count + 1, va => do
      match ← kalloc with
      | none => do
          let _ ← deallocuvm lay pgdir newsz oldsz
          pure 0
      | some page => do
          modify fun mem => mem.fill page .zero
          if ← mappages pgdir 1 va page (PTE_W ||| PTE_U) then
            allocLoop lay pgdir oldsz newsz count (va + 1)
          else
            let _ ← deallocuvm lay pgdir newsz oldsz
            kfree lay page
            pure 0

/-- The new size, or 0 on failure. -/
def allocuvm (lay : Layout) (pgdir oldsz newsz : Nat) : MemM Nat := do
  if KERNBASE * PGSIZE ≤ newsz then pure 0
  else if newsz < oldsz then pure oldsz
  else allocLoop lay pgdir oldsz newsz (pages newsz - pages oldsz) (pages oldsz)

def freevm (lay : Layout) (pgdir : Nat) : MemM Unit := do
  let _ ← deallocuvm lay pgdir (KERNBASE * PGSIZE) 0
  upto NPDENTRIES fun i => do
    let mem ← get
    let pde := mem.word pgdir (Fin.ofNat 1024 i)
    onlyIf (pde.present = true) (kfree lay pde.frame)
  kfree lay pgdir

def clearpteu (pgdir va : Nat) : MemM Unit := do
  match ← walkpgdir pgdir va false with
  | none => halt (.panic "clearpteu")
  | some (pgtab, index) =>
    modify fun mem =>
      let pte := mem.word pgtab index
      mem.setWord pgtab index ⟨pte.frame, pte.flags &&& ~~~PTE_U⟩

def copyLoop (lay : Layout) (pgdir d : Nat) : Nat → Nat → MemM (Option Nat)
  | 0, _ => pure (some d)
  | count + 1, va => do
      match ← walkpgdir pgdir va false with
      | none => halt (.panic "copyuvm: pte should exist")
      | some (pgtab, index) => do
          let mem ← get
          let pte := mem.word pgtab index
          if pte.present then
            match ← kalloc with
            | none => do
                freevm lay d
                pure none
            | some page => do
                modify fun mem => { mem with
                  word := update mem.word page (mem.word pte.frame) }
                if ← mappages d 1 va page pte.flags then copyLoop lay pgdir d count (va + 1)
                else
                  freevm lay d
                  pure none
          else halt (.panic "copyuvm: page not present")

def copyuvm (lay : Layout) (pgdir sz : Nat) : MemM (Option Nat) := do
  match ← setupkvm lay with
  | none => pure none
  | some d => copyLoop lay pgdir d (pages sz) 0

/-! `exec`. -/

/-- A program header, whether it could be read, and how many pages of its segment can be. -/
structure Segment where
  readable : Bool
  load : Bool
  filesz : Nat
  memsz : Nat
  vaddr : Nat
  good : Nat

/-- An executable: whether its ELF header is right, its segments, and whether the arguments
fit on the stack. -/
structure Image where
  header : Bool
  segments : List Segment
  arguments : Bool

/-- `loaduvm` of `count` pages, of which the first `good` can be read. -/
def loaduvm (pgdir va good : Nat) : Nat → MemM Bool
  | 0 => pure true
  | count + 1 => do
      match ← walkpgdir pgdir va false with
      | none => halt (.panic "loaduvm: address should exist")
      | some _ => if good = 0 then pure false else loaduvm pgdir (va + 1) (good - 1) count

def loadSegments (lay : Layout) (pgdir : Nat) : List Segment → Nat → MemM (Option Nat)
  | [], sz => pure (some sz)
  | ph :: rest, sz => do
      if !ph.readable then pure none
      else if !ph.load then loadSegments lay pgdir rest sz
      else if ph.memsz < ph.filesz then pure none
      else if (ph.vaddr + ph.memsz) % 2 ^ 32 < ph.vaddr then pure none
      else
        let sz ← allocuvm lay pgdir sz ((ph.vaddr + ph.memsz) % 2 ^ 32)
        if sz = 0 then pure none
        else if ph.vaddr % PGSIZE ≠ 0 then pure none
        else if ← loaduvm pgdir (ph.vaddr / PGSIZE) ph.good (pages ph.filesz) then
          loadSegments lay pgdir rest sz
        else pure none

/-- The user stack: two pages at the next page boundary, the first inaccessible. -/
def makeStack (lay : Layout) (pgdir sz : Nat) : MemM (Option Nat) := do
  let base := pages sz * PGSIZE
  let sz ← allocuvm lay pgdir base (base + 2 * PGSIZE)
  if sz = 0 then pure none
  else
    clearpteu pgdir (pages sz - 2)
    pure (some sz)

/-- `exec` up to the point where the new address space is taken. -/
def execImage (lay : Layout) (img : Image) : MemM (Option (Nat × Nat)) := do
  if !img.header then pure none
  else
    match ← setupkvm lay with
    | none => pure none
    | some pgdir => do
        match ← loadSegments lay pgdir img.segments 0 with
        | none => do
            freevm lay pgdir
            pure none
        | some sz => do
            match ← makeStack lay pgdir sz with
            | none => do
                freevm lay pgdir
                pure none
            | some sz => do
                if img.arguments then pure (some (pgdir, sz))
                else
                  freevm lay pgdir
                  pure none

/-! Processes and their memory. -/

inductive Life where
  | unused
  | used
  | zombie
  deriving DecidableEq

structure Proc where
  life : Life
  pgdir : Nat
  sz : Nat
  kstack : Nat

abbrev Slot := Fin NPROC

structure World where
  mem : Mem
  kpgdir : Nat
  proc : Slot → Proc
  pipes : List Nat

abbrev WorldM := Prog World Stop

def onMem {α : Type} (program : MemM α) : WorldM α :=
  zoom World.mem (fun w mem => { w with mem }) program

def setProc (sl : Slot) (proc : Proc) : WorldM Unit :=
  modify fun w => { w with proc := update w.proc sl proc }

def fork (lay : Layout) (sl : Slot) : WorldM Int := do
  let w ← get
  match (List.finRange NPROC).find? fun np => (w.proc np).life = .unused with
  | none => pure (-1)
  | some np => do
      match ← onMem kalloc with
      | none => pure (-1)
      | some kstack => do
          let proc := w.proc sl
          match ← onMem (copyuvm lay proc.pgdir proc.sz) with
          | none => do
              onMem (kfree lay kstack)
              pure (-1)
          | some pgdir => do
              setProc np ⟨.used, pgdir, proc.sz, kstack⟩
              pure 0

def exec (lay : Layout) (sl : Slot) (img : Image) : WorldM Int := do
  match ← onMem (execImage lay img) with
  | none => pure (-1)
  | some (pgdir, sz) => do
      let w ← get
      let proc := w.proc sl
      setProc sl { proc with pgdir, sz }
      onMem (freevm lay proc.pgdir)
      pure 0

def growproc (lay : Layout) (sl : Slot) (n : Int) : WorldM Int := do
  let w ← get
  let proc := w.proc sl
  let newsz := ((proc.sz + n) % 2 ^ 32).toNat
  if 0 < n then
    let sz ← onMem (allocuvm lay proc.pgdir proc.sz newsz)
    if sz = 0 then pure (-1)
    else
      setProc sl { proc with sz }
      pure 0
  else if n < 0 then
    let sz ← onMem (deallocuvm lay proc.pgdir proc.sz newsz)
    if sz = 0 then pure (-1)
    else
      setProc sl { proc with sz }
      pure 0
  else pure 0

def exit (sl : Slot) : WorldM Int := do
  let w ← get
  setProc sl { w.proc sl with life := .zombie }
  pure 0

def wait (lay : Layout) (c : Slot) : WorldM Int := do
  let w ← get
  let proc := w.proc c
  onMem (kfree lay proc.kstack)
  onMem (freevm lay proc.pgdir)
  setProc c { proc with life := .unused }
  pure 0

def pipealloc : WorldM Int := do
  match ← onMem kalloc with
  | none => pure (-1)
  | some page => do
      modify fun w => { w with pipes := page :: w.pipes }
      pure 0

def pipefree (lay : Layout) (page : Nat) : WorldM Int := do
  onMem (kfree lay page)
  modify fun w => { w with pipes := w.pipes.erase page }
  pure 0

inductive Call where
  | fork (sl : Slot)
  | exec (sl : Slot) (img : Image)
  | growproc (sl : Slot) (n : Int)
  | exit (sl : Slot)
  | wait (c : Slot)
  | pipealloc
  | pipefree (page : Nat)

def Call.Made (w : World) : Call → Prop
  | .fork sl | .exec sl _ | .growproc sl _ | .exit sl => (w.proc sl).life = .used
  | .wait c => (w.proc c).life = .zombie
  | .pipealloc => True
  | .pipefree page => page ∈ w.pipes

def Call.run (lay : Layout) : Call → WorldM Int
  | .fork sl => Vm.fork lay sl
  | .exec sl img => Vm.exec lay sl img
  | .growproc sl n => Vm.growproc lay sl n
  | .exit sl => Vm.exit sl
  | .wait c => Vm.wait lay c
  | .pipealloc => Vm.pipealloc
  | .pipefree page => Vm.pipefree lay page

def Next (lay : Layout) (w : World) (call : Call) (w' : World) : Prop :=
  (call.run lay w).state? = some w'

/-! The boot. -/

/-- `inituvm`, which does not look at the result of `mappages`. -/
def inituvm (pgdir : Nat) : MemM Unit := do
  match ← kalloc with
  | none => halt .fault
  | some page => do
      modify fun mem => mem.fill page .zero
      let _ ← mappages pgdir 1 0 page (PTE_W ||| PTE_U)
      pure ()

/-- `kvmalloc`, then `userinit`: the kernel's page directory and the stack and the page directory
of the first process. -/
def bootMem (lay : Layout) : MemM (Nat × Nat × Nat) := do
  match ← setupkvm lay with
  | none => halt .fault
  | some kpgdir => do
      match ← kalloc with
      | none => halt .fault
      | some kstack => do
          match ← setupkvm lay with
          | none => halt (.panic "userinit: out of memory?")
          | some pgdir => do
              inituvm pgdir
              pure (kpgdir, kstack, pgdir)

def Mem.initial (freelist : List Nat) : Mem := ⟨freelist, fun _ _ => .junk, false⟩

def World.initial (mem : Mem) (kpgdir kstack pgdir : Nat) : World where
  mem := mem
  kpgdir := kpgdir
  proc := update (fun _ => ⟨.unused, 0, 0, 0⟩) 0 ⟨.used, pgdir, PGSIZE, kstack⟩
  pipes := []

end Xv6.Vm
