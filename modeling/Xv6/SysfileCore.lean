import Xv6.FileCore

/-! Executable model of `sysfile.c`, of the file system side of `exec`, and of `fork` and
`exit`. An argument that could not be fetched from user memory is `none`. -/

namespace Xv6

open Exec

theorem fd_inside {fd : Int} (lt : 0 ≤ fd ∧ fd.toNat < NOFILE) : fd.toNat < NOFILE := lt.2

def argfd (p : ProcSlot) (fd : Option Int) : KernelM (Option (Fd × FileSlot)) := do
  let proc ← proc p
  match fd with
  | none => return none
  | some fd =>
    if bound : 0 ≤ fd ∧ fd.toNat < NOFILE then
      return (proc.ofile ⟨fd.toNat, bound.2⟩).map fun f => (⟨fd.toNat, bound.2⟩, f)
    else return none

def setOfile (p : ProcSlot) (fd : Fd) (f : Option FileSlot) : KernelM Unit :=
  modifyProc p fun proc => { proc with ofile := Function.update proc.ofile fd f }

def fdalloc (p : ProcSlot) (f : FileSlot) : KernelM (Option Fd) := do
  let proc ← proc p
  match (List.finRange NOFILE).find? fun fd => (proc.ofile fd).isNone with
  | some fd => do
      setOfile p fd (some f)
      return some fd
  | none => return none

def sysDup (p : ProcSlot) (fd : Option Int) : KernelM Int := do
  let found ← argfd p fd
  match found with
  | none => return -1
  | some (_, f) => do
      let fd ← fdalloc p f
      match fd with
      | none => return -1
      | some fd => do
          let _ ← filedup f
          return fd.val

/-- `n` is none when it or the buffer could not be fetched. -/
def sysRead (p : ProcSlot) (fd : Option Int) (n : Option (BitVec 32)) : KernelM (Option (List UInt8)) := do
  let found ← argfd p fd
  match found, n with
  | some (_, f), some n => fileread f n
  | _, _ => return none

def sysWrite (p : ProcSlot) (fd : Option Int) (buffer : Nat → UInt8) (n : Option Int) : KernelM Int := do
  let found ← argfd p fd
  match found, n with
  | some (_, f), some n => filewrite f buffer n
  | _, _ => return -1

def sysClose (p : ProcSlot) (fd : Option Int) : KernelM Int := do
  let found ← argfd p fd
  match found with
  | none => return -1
  | some (fd, f) => do
      setOfile p fd none
      fileclose f
      return 0

def addNlink (slot : Slot) (change : BitVec 16) : FsM Unit := do
  modifyDinode slot fun dinode => dinode.setNlink (dinode.nlink + change)
  iupdate slot

def linkInto (cwd ip : Slot) (new : List UInt8) : FsM Bool := do
  let found ← nameiparent cwd new
  match found with
  | none => return false
  | some (dp, name) => do
      ilock dp
      let parent ← inode dp
      let node ← inode ip
      if parent.dev ≠ node.dev then do
        iunlockput dp
        return false
      else do
        let linked ← dirlink dp name node.inum
        iunlockput dp
        return linked

def link (cwd : Slot) (old new : List UInt8) : FsM Int := do
  let found ← namei cwd old
  match found with
  | none => return -1
  | some ip => do
      ilock ip
      let node ← inode ip
      if node.dinode.type = T_DIR ∨ node.dinode.type = T_SDIR then do
        iunlockput ip
        return -1
      else do
        addNlink ip 1
        iunlock ip
        let linked ← linkInto cwd ip new
        if linked then do
          iput ip
          return 0
        else do
          ilock ip
          addNlink ip (-1)
          iunlockput ip
          return -1

def sysLink (p : ProcSlot) (old new : Option (List UInt8)) : KernelM Int := do
  match old, new with
  | some old, some new => do
      kernelBeginOp
      let cwd ← cwd p
      let result ← onFs (link cwd old new)
      kernelEndOp
      return result
  | _, _ => return -1

def isdirempty (dp : Slot) : Nat → Nat → FsM Bool
  | 0, _ => return true
  | fuel + 1, off => do
      let ip ← inode dp
      if off < ip.dinode.size.toNat then do
        let de ← readDirent dp off "isdirempty: readi"
        if direntInum de ≠ 0 then return false else isdirempty dp fuel (off + deSize)
      else return true

/-- The checks on the victim of `sys_unlink` from `ilock(ip)` on: whether it may go. -/
def removable (ip : Slot) : FsM Bool := do
  let node ← inode ip
  if node.dinode.nlink.toInt < 1 then panic "unlink: nlink < 1"
  else if node.dinode.type = T_DIR ∨ node.dinode.type = T_SDIR then
    isdirempty ip (node.dinode.size.toNat / deSize + 1) (2 * deSize)
  else return true

/-- Both directory types lose the link of the removed directory's "..". -/
def unlinkAt (dp ip : Slot) (off : Nat) : FsM Unit := do
  let count ← writei dp (fun _ => 0) (BitVec.ofNat 32 off) (BitVec.ofNat 32 deSize)
  if count ≠ deSize then panic "unlink: writei"
  else do
    let node ← inode ip
    Prog.onlyIf (node.dinode.type = T_DIR ∨ node.dinode.type = T_SDIR) (addNlink dp (-1))
    iunlockput dp
    addNlink ip (-1)
    iunlockput ip

def dot : List UInt8 := [46]

def dotdot : List UInt8 := [46, 46]

def unlink (cwd : Slot) (path : List UInt8) : FsM Int := do
  let found ← nameiparent cwd path
  match found with
  | none => return -1
  | some (dp, name) => do
      ilock dp
      if namecmp name dot = 0 ∨ namecmp name dotdot = 0 then do
        iunlockput dp
        return -1
      else do
        let entry ← dirlookup dp name
        match entry with
        | none => do
            iunlockput dp
            return -1
        | some (ip, off) => do
            ilock ip
            let removable ← removable ip
            if removable then do
              unlinkAt dp ip off
              return 0
            else do
              iunlockput ip
              iunlockput dp
              return -1

def sysUnlink (p : ProcSlot) (path : Option (List UInt8)) : KernelM Int := do
  match path with
  | none => return -1
  | some path => do
      kernelBeginOp
      let cwd ← cwd p
      let result ← onFs (unlink cwd path)
      kernelEndOp
      return result

/-- The entries "." and ".." of a new directory; `message` is the panic of its type. -/
def createDots (dp ip : Slot) (message : String) : FsM Unit := do
  addNlink dp 1
  let node ← inode ip
  let parent ← inode dp
  let first ← dirlink ip dot node.inum
  if first then do
    let second ← dirlink ip dotdot parent.inum
    Prog.onlyIf (second = false) (panic message)
  else panic message

/-- An existing inode that `create` hands out instead of making one. -/
def reusable (wanted type : BitVec 16) : Bool :=
  (wanted == T_FILE || wanted == T_SDIR || wanted == T_SFILE) && type == wanted

/-- The inode made by `create` and its entry in the locked directory `dp`. -/
def createIn (dp : Slot) (name : List UInt8) (type major minor : BitVec 16) : FsM Slot := do
  let parent ← inode dp
  let ip ← ialloc parent.dev type
  ilock ip
  modifyDinode ip fun dinode => { dinode with major, minor, nlink := 1 }
  iupdate ip
  Prog.onlyIf (type = T_DIR) (createDots dp ip "create dotsz")
  Prog.onlyIf (type = T_SDIR) (createDots dp ip "create dots")
  let node ← inode ip
  let linked ← dirlink dp name node.inum
  if linked then do
    iunlockput dp
    return ip
  else panic "create: dirlink"

def create (cwd : Slot) (path : List UInt8) (type major minor : BitVec 16) : FsM (Option Slot) := do
  let found ← nameiparent cwd path
  match found with
  | none => return none
  | some (dp, name) => do
      ilock dp
      let entry ← dirlookup dp name
      match entry with
      | some (ip, _) => do
          iunlockput dp
          ilock ip
          let node ← inode ip
          if reusable type node.dinode.type then return some ip
          else do
            iunlockput ip
            return none
      | none => do
          let ip ← createIn dp name type major minor
          return some ip

def hasFlag (omode : BitVec 32) (flag : Nat) : Bool := omode &&& BitVec.ofNat 32 flag != 0

/-- The branch of `sys_open` for `O_CREATE`: the type of the parent, looked up without a lock
and through a pointer that may be null, and then `create`. -/
def openCreate (cwd : Slot) (path : List UInt8) (small : Bool) : FsM (Option Slot) := do
  let found ← nameiparent cwd path
  match found with
  | none => Prog.halt .fault
  | some (dp, _) => do
      let parent ← inode dp
      if small then
        if parent.dinode.type ≠ T_SDIR then return none else create cwd path T_SFILE 0 0
      else if parent.dinode.type = T_SDIR then return none
      else create cwd path T_FILE 0 0

def openExisting (cwd : Slot) (path : List UInt8) (omode : BitVec 32) : FsM (Option Slot) := do
  let found ← namei cwd path
  match found with
  | none => return none
  | some ip => do
      ilock ip
      let node ← inode ip
      if (node.dinode.type = T_DIR ∨ node.dinode.type = T_SDIR) ∧ omode ≠ BitVec.ofNat 32 O_RDONLY
      then do
        iunlockput ip
        return none
      else return some ip

def openFile (p : ProcSlot) (ip : Slot) (omode : BitVec 32) : KernelM Int := do
  let allocated ← filealloc
  match allocated with
  | none => do
      onFs (iunlockput ip)
      kernelEndOp
      return -1
  | some f => do
      let fd ← fdalloc p f
      match fd with
      | none => do
          fileclose f
          onFs (iunlockput ip)
          kernelEndOp
          return -1
      | some fd => do
          onFs (iunlock ip)
          kernelEndOp
          modifyFile f fun file =>
            { file with
              type := .inode
              ip
              off := 0
              readable := !hasFlag omode O_WRONLY
              writable := hasFlag omode O_WRONLY || hasFlag omode O_RDWR }
          return fd.val

def sysOpen (p : ProcSlot) (path : Option (List UInt8)) (omode : Option (BitVec 32)) : KernelM Int := do
  match path, omode with
  | some path, some omode => do
      kernelBeginOp
      let cwd ← cwd p
      let found ← onFs (if hasFlag omode O_CREATE then openCreate cwd path (hasFlag omode O_SFILE)
        else openExisting cwd path omode)
      match found with
      | none => do
          kernelEndOp
          return -1
      | some ip => openFile p ip omode
  | _, _ => return -1

/-- `sys_mkdir`, `sys_mknod` and `mkSmallFilesdir` from `create` on. -/
def makeNode (p : ProcSlot) (path : Option (List UInt8)) (type major minor : BitVec 16) : KernelM Int := do
  kernelBeginOp
  match path with
  | none => do
      kernelEndOp
      return -1
  | some path => do
      let cwd ← cwd p
      let made ← onFs (create cwd path type major minor)
      match made with
      | none => do
          kernelEndOp
          return -1
      | some ip => do
          onFs (iunlockput ip)
          kernelEndOp
          return 0

def sysMkdir (p : ProcSlot) (path : Option (List UInt8)) : KernelM Int := makeNode p path T_DIR 0 0

/-- The device numbers are cut to `short` by the call of `create`. -/
def sysMknod (p : ProcSlot) (path : Option (List UInt8)) (major minor : Option (BitVec 32)) : KernelM Int :=
  match major, minor with
  | some major, some minor => makeNode p path T_DEV (major.setWidth 16) (minor.setWidth 16)
  | _, _ => makeNode p none T_DEV 0 0

def mkSmallFilesdir (p : ProcSlot) (path : Option (List UInt8)) : KernelM Int :=
  makeNode p path T_SDIR 0 0

def sysChdir (p : ProcSlot) (path : Option (List UInt8)) : KernelM Int := do
  kernelBeginOp
  match path with
  | none => do
      kernelEndOp
      return -1
  | some path => do
      let old ← cwd p
      let found ← onFs (namei old path)
      match found with
      | none => do
          kernelEndOp
          return -1
      | some ip => do
          onFs (ilock ip)
          let node ← onFs (inode ip)
          if node.dinode.type ≠ T_DIR ∧ node.dinode.type ≠ T_SDIR then do
            onFs (iunlockput ip)
            kernelEndOp
            return -1
          else do
            onFs (iunlock ip)
            onFs (iput old)
            kernelEndOp
            modifyProc p fun proc => { proc with cwd := some ip }
            return 0

def PGSIZE : Nat := 4096

def wordAt (bytes : List UInt8) (place : Nat) : Nat := wordOf fun index => bytes.getD (place + index) 0

/-- What the memory functions called by `exec` return: `setupkvm`, `allocuvm` for each program
header, and everything after the file has been closed. -/
structure ExecMemory where
  setupkvm : Bool
  allocuvm : Nat → Bool
  stack : Bool

def loaduvm (ip : Slot) (offset : BitVec 32) (sz : Nat) : Nat → Nat → FsM Bool
  | 0, _ => return true
  | fuel + 1, i =>
    if i < sz then do
      let n := min (sz - i) PGSIZE
      let bytes ← readi ip (offset + BitVec.ofNat 32 i) (BitVec.ofNat 32 n)
      if (bytes.getD []).length = n then loaduvm ip offset sz fuel (i + PGSIZE) else return false
    else return true

def ELF_MAGIC : Nat := 0x464C457F
def elfSize : Nat := 52
def phSize : Nat := 32
def ELF_PROG_LOAD : Nat := 1

/-- The loop of `exec` over the program headers; false where it jumps to `bad`. -/
def loadHeaders (ip : Slot) (mem : ExecMemory) : Nat → Nat → BitVec 32 → FsM Bool
  | 0, _, _ => return true
  | left + 1, i, off => do
      let header ← readi ip off (BitVec.ofNat 32 phSize)
      let ph := header.getD []
      if ph.length ≠ phSize then return false
      else if wordAt ph 0 ≠ ELF_PROG_LOAD then
        loadHeaders ip mem left (i + 1) (off + BitVec.ofNat 32 phSize)
      else if wordAt ph 20 < wordAt ph 16 then return false
      else if 2 ^ 32 ≤ wordAt ph 8 + wordAt ph 20 then return false
      else if mem.allocuvm i = false then return false
      else if wordAt ph 8 % PGSIZE ≠ 0 then return false
      else do
        let loaded ← loaduvm ip (BitVec.ofNat 32 (wordAt ph 4)) (wordAt ph 16) (wordAt ph 16 / PGSIZE + 1) 0
        if loaded then loadHeaders ip mem left (i + 1) (off + BitVec.ofNat 32 phSize)
        else return false

/-- What `exec` does with its locked inode; false where it jumps to `bad`. -/
def loadImage (ip : Slot) (mem : ExecMemory) : FsM Bool := do
  let header ← readi ip 0 (BitVec.ofNat 32 elfSize)
  let elf := header.getD []
  if elf.length ≠ elfSize then return false
  else if wordAt elf 0 ≠ ELF_MAGIC then return false
  else if mem.setupkvm = false then return false
  else
    let phnum := halfOf fun index => elf.getD (44 + index) 0
    loadHeaders ip mem phnum 0 (BitVec.ofNat 32 (wordAt elf 28))

def exec (p : ProcSlot) (path : List UInt8) (mem : ExecMemory) : KernelM Int := do
  kernelBeginOp
  let cwd ← cwd p
  let found ← onFs (namei cwd path)
  match found with
  | none => do
      kernelEndOp
      return -1
  | some ip => do
      onFs (ilock ip)
      let loaded ← onFs (loadImage ip mem)
      onFs (iunlockput ip)
      kernelEndOp
      return if loaded && mem.stack then 0 else -1

/-- `path` is none when it or the argument vector could not be fetched. -/
def sysExec (p : ProcSlot) (path : Option (List UInt8)) (mem : ExecMemory) : KernelM Int :=
  match path with
  | none => return -1
  | some path => exec p path mem

/-- `kstack` says whether `kalloc` found a page. -/
def allocproc (kstack : Bool) : KernelM (Option ProcSlot) := do
  let kern ← Prog.get
  match (List.finRange NPROC).find? fun p => (kern.ptable p).state = .unused with
  | none => return none
  | some p => do
      Prog.modify fun kern => { kern with nextpid := kern.nextpid + 1 }
      modifyProc p fun proc => { proc with state := .embryo, pid := kern.nextpid }
      if kstack then return some p
      else do
        modifyProc p fun proc => { proc with state := .unused }
        return none

/-- `uvm` says whether `copyuvm` succeeded. -/
def fork (p : ProcSlot) (kstack uvm : Bool) : KernelM Int := do
  let allocated ← allocproc kstack
  match allocated with
  | none => return -1
  | some np =>
    if uvm then do
      modifyProc np fun proc => { proc with parent := some p }
      Prog.each (List.finRange NOFILE) fun i => do
        let parent ← proc p
        match parent.ofile i with
        | none => return ()
        | some f => do
            let f ← filedup f
            setOfile np i (some f)
      let cwd ← cwd p
      let cwd ← onFs (idup cwd)
      modifyProc np fun proc => { proc with cwd := some cwd }
      let child ← proc np
      modifyProc np fun proc => { proc with state := .runnable }
      return child.pid
    else do
      modifyProc np fun proc => { proc with state := .unused }
      return -1

/-- `exit` up to the call of `sched` that does not return. -/
def exit (p : ProcSlot) : KernelM Unit := do
  let kern ← Prog.get
  if p = kern.initproc then panic "init exiting"
  else do
    Prog.each (List.finRange NOFILE) fun fd => do
      let proc ← proc p
      match proc.ofile fd with
      | none => return ()
      | some f => do
          fileclose f
          setOfile p fd none
    kernelBeginOp
    let cwd ← cwd p
    onFs (iput cwd)
    kernelEndOp
    modifyProc p fun proc => { proc with cwd := none }
    Prog.modify fun kern =>
      { kern with
        ptable := fun other =>
          let proc := kern.ptable other
          if proc.parent = some p then { proc with parent := some kern.initproc } else proc }
    modifyProc p fun proc => { proc with state := .zombie }

inductive Call where
  | sysOpen (path : Option (List UInt8)) (omode : Option (BitVec 32))
  | sysClose (fd : Option Int)
  | sysDup (fd : Option Int)
  | sysRead (fd : Option Int) (n : Option (BitVec 32))
  | sysWrite (fd : Option Int) (buffer : Nat → UInt8) (n : Option Int)
  | sysLink (old new : Option (List UInt8))
  | sysUnlink (path : Option (List UInt8))
  | sysMkdir (path : Option (List UInt8))
  | sysMknod (path : Option (List UInt8)) (major minor : Option (BitVec 32))
  | mkSmallFilesdir (path : Option (List UInt8))
  | sysChdir (path : Option (List UInt8))
  | sysExec (path : Option (List UInt8)) (mem : ExecMemory)
  | fork (kstack uvm : Bool)
  | exit

def Call.run (p : ProcSlot) (kern : Kernel) : Call → Option Kernel
  | .sysOpen path omode => (Xv6.sysOpen p path omode kern).state?
  | .sysClose fd => (Xv6.sysClose p fd kern).state?
  | .sysDup fd => (Xv6.sysDup p fd kern).state?
  | .sysRead fd n => (Xv6.sysRead p fd n kern).state?
  | .sysWrite fd buffer n => (Xv6.sysWrite p fd buffer n kern).state?
  | .sysLink old new => (Xv6.sysLink p old new kern).state?
  | .sysUnlink path => (Xv6.sysUnlink p path kern).state?
  | .sysMkdir path => (Xv6.sysMkdir p path kern).state?
  | .sysMknod path major minor => (Xv6.sysMknod p path major minor kern).state?
  | .mkSmallFilesdir path => (Xv6.mkSmallFilesdir p path kern).state?
  | .sysChdir path => (Xv6.sysChdir p path kern).state?
  | .sysExec path mem => (Xv6.sysExec p path mem kern).state?
  | .fork kstack uvm => (Xv6.fork p kstack uvm kern).state?
  | .exit => (Xv6.exit p kern).state?

def Proc.live (proc : Proc) : Prop :=
  proc.state = .sleeping ∨ proc.state = .runnable ∨ proc.state = .running

instance (proc : Proc) : Decidable proc.live := inferInstanceAs (Decidable (_ ∨ _))

def Call.Next (kern : Kernel) (step : ProcSlot × Call) (kern' : Kernel) : Prop :=
  (kern.ptable step.1).live ∧ step.2.run step.1 kern = some kern'

def Kernel.single (fs : Fs) : Kernel where
  fs
  ftable := fun _ => ⟨.none, 0, false, false, 0, 0, 0⟩
  ptable := fun p => if p = 0 then ⟨.running, 1, none, fun _ => none, some 0⟩
    else ⟨.unused, 0, none, fun _ => none, none⟩
  initproc := 0
  nextpid := 2
  pipes := fun _ => ⟨fun _ => none, fun _ _ => -1⟩

end Xv6
