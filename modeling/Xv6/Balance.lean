import Xv6.Overrun

/-! The file system calls as transactions: each opens at most one operation of the log at a time,
logs only inside it, and returns with the log's counter and every lock as it found them. -/

namespace Xv6

open Exec List Kernel Stage Fs Disk

inductive KernelCalls : {α : Type} → Op → KernelM α → Prop
  | onFs {α : Type} {op : Op} {program : FsM α} (called : FsCalls op program) :
      KernelCalls op (Xv6.onFs program)

def kernelProtocol : Protocol Kernel Stop Op ((Log × List Nat) × (Slot → Nat)) Stage where
  calls := KernelCalls
  view := fun kern => fsProtocol.view kern.fs
  step := Stage.step

def Stage.working : Stage := ⟨true, [], []⟩

section

variable {α : Type} {g : Stage} {p : ProcSlot} {f : FileSlot} {k : Kernel}

theorem followsFrom_onFs {prog : FsM α} {final : α → Stage} (followed : FollowsFrom fsProtocol g prog k.fs final) :
    FollowsFrom kernelProtocol g (onFs prog) k final :=
  have zooms : Zooms fsProtocol kernelProtocol fs setFs :=
    ⟨fun _ _ => rfl, fun _ => rfl, fun _ _ _ => rfl, KernelCalls.onFs, fun _ _ eq => eq⟩
  followed.zoom zooms rfl

theorem follows_onFs {prog : FsM α} {final : α → Stage} (followed : Follows fsProtocol g prog final) :
    Follows kernelProtocol g (onFs prog) final := fun k =>
  followsFrom_onFs (followed k.fs)

theorem follows_beginOp : Follows kernelProtocol .rest kernelBeginOp fun _ => .working :=
  follows_onFs (follows_call (.onDisk .beginOp) rfl)

theorem follows_endOp : Follows kernelProtocol .working kernelEndOp fun _ => .rest :=
  follows_onFs (follows_call (.onDisk .endOp) rfl)

theorem follows_cwd : Follows kernelProtocol g (cwd p) := by
  refine follows_get.bind fun k => ?_
  split
  · exact .pure _
  · exact follows_halt _ _

theorem follows_file : Follows kernelProtocol g (file f) :=
  follows_get.bind fun _ => .pure _

theorem follows_modifyFile (change : File → File) : Follows kernelProtocol g (modifyFile f change) :=
  follows_modify fun _ => rfl

theorem follows_modifyProc (change : Proc → Proc) : Follows kernelProtocol g (modifyProc p change) :=
  follows_modify fun _ => rfl

theorem follows_filealloc : Follows kernelProtocol g filealloc := by
  refine follows_get.bind fun k => ?_
  split
  · exact (follows_modifyFile _).bind fun _ => .pure _
  · exact .pure _

theorem follows_fdalloc : Follows kernelProtocol g (fdalloc p f) := by
  refine Follows.bind (follows_get.bind fun _ => .pure _) fun proc => ?_
  split
  · exact (follows_modifyProc _).bind fun _ => .pure _
  · exact .pure _

theorem follows_fileclose : Follows kernelProtocol .rest (fileclose f) := by
  refine follows_file.bind fun file => .ite (follows_halt _ _) (.ite (follows_modifyFile _) ?_)
  refine (follows_modifyFile _).bind fun _ => .onlyIf ?_
  exact follows_beginOp.bind fun _ => (follows_onFs (follows_iput rfl)).bind fun _ => follows_endOp

theorem followsFrom_fileclose (idle : (k.ftable f).type ≠ .inode) : FollowsFrom kernelProtocol g (fileclose f) k := by
  have read : Holds (file f) k fun val _ => val = k.ftable f :=
    holds_file.mpr rfl
  refine (follows_file k).bind read fun ff _ eq => ?_
  subst ff
  rw [Prog.onlyIf, if_neg idle]
  exact Follows.ite (follows_halt _ _) (.ite (follows_modifyFile _) ((follows_modifyFile _).bind fun _ => .pure _)) _

theorem followsFrom_openFile (ip : Slot) (omode : BitVec 32) (tidy : FilesTidy k) :
    FollowsFrom kernelProtocol (working.lock ip) (openFile p ip omode) k fun _ => .rest := by
  have back : Follows kernelProtocol (working.lock ip)
      (do onFs (iunlockput ip); kernelEndOp; return (-1 : Int)) fun _ => .rest :=
    (follows_onFs (follows_iunlockput rfl)).bind fun _ => follows_endOp.bind fun _ => .pure _
  refine (follows_filealloc k).bind filealloc_spec ?_
  rintro hit k1 (⟨rfl, rfl⟩ | ⟨f, file, rfl, free, _, type, rfl⟩)
  · exact back _
  · refine (follows_fdalloc _).bind (fdalloc_excess p f) fun fd k2 done => ?_
    cases fd with
    | none =>
      have idle : (k2.ftable f).type ≠ .inode := by
        rw [done.2, setFile_same, type]
        exact (tidy f).2 free
      exact (followsFrom_fileclose idle).andThen fun _ => back
    | some fd =>
      exact ((follows_onFs follows_iunlock).bind fun _ => follows_endOp.bind fun _ =>
        (follows_modifyFile _).bind fun _ => .pure _) k2

theorem followsFrom_sysOpen (path : Option (List UInt8)) (omode : Option (BitVec 32)) (tidy : FilesTidy k) :
    FollowsFrom kernelProtocol .rest (sysOpen p path omode) k := by
  unfold sysOpen
  split
  · rename_i path mode
    have tidied : ∀ {β : Type} {prog : FsM β} {k : Kernel}, FilesTidy k →
        Holds (onFs prog) k fun _ => FilesTidy := fun tidy =>
      holds_onFs.mpr (.trivial (fun _ _ => tidy) fun _ => trivial)
    refine (follows_beginOp k).bind (tidied tidy) fun _ k1 tidy1 => ?_
    refine (follows_cwd k1).bind (holds_cwd trivial fun _ _ => tidy1 : Holds _ _ (fun _ => FilesTidy) _)
      fun sl k2 tidy2 => ?_
    have hit : Follows fsProtocol .working (if hasFlag mode O_CREATE then
        openCreate sl path (hasFlag mode O_SFILE) else openExisting sl path mode)
        working.lockIf :=
      .ite (follows_openCreate rfl _ _) (follows_openExisting rfl _ _)
    refine (follows_onFs hit k2).bind (tidied tidy2) fun ip k3 tidy3 => ?_
    cases ip with
    | none => exact (follows_endOp.bind fun _ => .pure _) k3
    | some ip => exact followsFrom_openFile ip mode tidy3
  · exact Follows.pure _ k

theorem follows_transaction {prog : Slot → FsM Int}
    (followed : ∀ ip, Follows fsProtocol .working (prog ip) fun _ => .working) : Follows kernelProtocol .rest (do
      kernelBeginOp
      let cwd ← cwd p
      let result ← onFs (prog cwd)
      kernelEndOp
      return result) :=
  follows_beginOp.bind fun _ => follows_cwd.bind fun _ => (follows_onFs (followed _)).bind fun _ =>
    follows_endOp.bind fun _ => .pure _

theorem follows_sysLink (old new : Option (List UInt8)) : Follows kernelProtocol .rest (sysLink p old new) := by
  unfold sysLink
  split
  · exact follows_transaction fun _ => follows_link rfl _ _
  · exact .pure _

section

variable (path : Option (List UInt8))

include path

theorem follows_sysUnlink : Follows kernelProtocol .rest (sysUnlink p path) := by
  unfold sysUnlink
  split
  · exact .pure _
  · exact follows_transaction fun _ => follows_unlink rfl _

theorem follows_makeNode (type major minor : BitVec 16) :
    Follows kernelProtocol .rest (makeNode p path type major minor) := by
  refine follows_beginOp.bind fun _ => ?_
  cases path with
  | none => exact follows_endOp.bind fun _ => .pure _
  | some path =>
    refine follows_cwd.bind fun sl => (follows_onFs (follows_create rfl path type major minor)).bind fun made => ?_
    cases made with
    | none => exact follows_endOp.bind fun _ => .pure _
    | some ip =>
      exact (follows_onFs (follows_iunlockput rfl)).bind fun _ => follows_endOp.bind fun _ =>
        .pure _

theorem follows_sysMknod (major minor : Option (BitVec 32)) :
    Follows kernelProtocol .rest (sysMknod p path major minor) := by
  unfold sysMknod
  split <;> exact follows_makeNode _ _ _ _

theorem follows_sysChdir : Follows kernelProtocol .rest (sysChdir p path) := by
  refine follows_beginOp.bind fun _ => ?_
  cases path with
  | none => exact follows_endOp.bind fun _ => .pure _
  | some path =>
    refine follows_cwd.bind fun old => (follows_onFs (follows_namei rfl old path)).bind fun hit => ?_
    cases hit with
    | none => exact follows_endOp.bind fun _ => .pure _
    | some ip =>
      refine (follows_onFs follows_ilock).bind fun _ => (follows_onFs follows_inode).bind fun _ =>
        .ite ?_ ?_
      · exact (follows_onFs (follows_iunlockput rfl)).bind fun _ => follows_endOp.bind fun _ =>
          .pure _
      · exact (follows_onFs follows_iunlock).bind fun _ =>
          (follows_onFs (follows_iput rfl)).bind fun _ => follows_endOp.bind fun _ =>
            (follows_modifyProc _).bind fun _ => .pure _

end

theorem follows_exec (path : List UInt8) (memory : ExecMemory) : Follows kernelProtocol .rest (exec p path memory) := by
  refine follows_beginOp.bind fun _ => follows_cwd.bind fun sl =>
    (follows_onFs (follows_namei rfl sl path)).bind fun hit => ?_
  cases hit with
  | none => exact follows_endOp.bind fun _ => .pure _
  | some ip =>
    have locked : (working.lock ip).inside = true := rfl
    exact (follows_onFs follows_ilock).bind fun _ =>
      (follows_onFs (follows_loadImage locked memory)).bind fun _ =>
        (follows_onFs (follows_iunlockput rfl)).bind fun _ => follows_endOp.bind fun _ =>
          .pure _

theorem follows_proc : Follows kernelProtocol g (proc p) :=
  follows_get.bind fun _ => .pure _

theorem follows_argfd (fd : Option Int) : Follows kernelProtocol g (argfd p fd) := by
  refine follows_proc.bind fun proc => ?_
  cases fd with
  | none => exact .pure _
  | some fd =>
    dsimp only
    split <;> exact .pure _

theorem follows_filedup : Follows kernelProtocol g (filedup f) :=
  follows_file.bind fun _ => .ite (follows_halt _ _) ((follows_modifyFile _).bind fun _ => .pure _)

theorem follows_sysDup (fd : Option Int) : Follows kernelProtocol g (sysDup p fd) := by
  refine (follows_argfd fd).bind fun hit => ?_
  cases hit with
  | none => exact .pure _
  | some hit =>
    refine follows_fdalloc.bind fun fd => ?_
    cases fd with
    | none => exact .pure _
    | some fd => exact follows_filedup.bind fun _ => .pure _

theorem follows_sysClose (fd : Option Int) : Follows kernelProtocol .rest (sysClose p fd) := by
  refine (follows_argfd fd).bind fun hit => ?_
  cases hit with
  | none => exact .pure _
  | some hit =>
    exact (follows_modifyProc _).bind fun _ => follows_fileclose.bind fun _ => .pure _

theorem follows_sysExec (path : Option (List UInt8)) (memory : ExecMemory) :
    Follows kernelProtocol .rest (sysExec p path memory) := by
  cases path with
  | none => exact .pure _
  | some path => exact follows_exec path memory

theorem follows_allocproc (kstack : Bool) : Follows kernelProtocol g (allocproc kstack) := by
  refine follows_get.bind fun k => ?_
  split
  · exact .pure _
  · refine Follows.bind (follows_modify fun _ => rfl) fun _ => (follows_modifyProc _).bind fun _ =>
      .ite (.pure _) ((follows_modifyProc _).bind fun _ => .pure _)

theorem follows_fork (kstack uvm : Bool) : Follows kernelProtocol g (fork p kstack uvm) := by
  refine (follows_allocproc kstack).bind fun allocated => ?_
  cases allocated with
  | none => exact .pure _
  | some np =>
    refine .ite ?_ ((follows_modifyProc _).bind fun _ => .pure _)
    refine (follows_modifyProc _).bind fun _ => Follows.bind (.each fun fd => ?_) fun _ =>
      follows_cwd.bind fun _ => (follows_onFs follows_idup).bind fun _ =>
        (follows_modifyProc _).bind fun _ => follows_proc.bind fun _ =>
          (follows_modifyProc _).bind fun _ => .pure _
    refine follows_proc.bind fun up => ?_
    split
    · exact .pure _
    · exact follows_filedup.bind fun _ => follows_modifyProc _

theorem follows_exit : Follows kernelProtocol .rest (exit p) := by
  refine follows_get.bind fun k => .ite (follows_halt _ _) ?_
  refine Follows.bind (.each fun fd => ?_) fun _ => follows_beginOp.bind fun _ => follows_cwd.bind fun _ =>
    (follows_onFs (follows_iput rfl)).bind fun _ => follows_endOp.bind fun _ =>
      (follows_modifyProc _).bind fun _ => Follows.bind (follows_modify fun _ => rfl) fun _ =>
        follows_modifyProc _
  refine follows_proc.bind fun proc => ?_
  split
  · exact .pure _
  · exact follows_fileclose.bind fun _ => follows_modifyProc _

end

section

variable {k : Kernel} {f : FileSlot}

theorem followsFrom_filewriteSection {addr : Nat → UInt8} {n1 : Nat} (some_ : 0 < n1) (int : n1 < 2 ^ 32)
    (spared : (k.fs.node (k.ftable f).ip).type = T_SFILE →
      Refused (k.fs.node (k.ftable f).ip) (k.ftable f).off (BitVec.ofNat 32 n1) ∨
      ∀ o, relock (k.ftable f).ip (k.ftable f).off.toNat n1 addr o (k.fs.locks o) = k.fs.locks o) :
    FollowsFrom kernelProtocol .rest (filewriteSection f addr n1) k := by
  have read : Holds (file f) k fun val k' => val = k.ftable f ∧ k' = k :=
    holds_file.mpr ⟨rfl, rfl⟩
  refine (follows_file k).bind read ?_
  rintro file k' ⟨here, eq⟩
  subst file k'
  have begun : Holds kernelBeginOp k fun _ k' => k'.fs.node = k.fs.node ∧ k'.fs.locks = k.fs.locks := by
    rw [kernelBeginOp, holds_onFs, holds_onDisk]
    exact holds_beginOp trivial fun disk alike _ _ _ => ⟨node_alike alike, rfl⟩
  refine (follows_beginOp k).bind begun ?_
  rintro _ k1 ⟨node1, locks1⟩
  have locked : Holds (onFs (ilock (k.ftable f).ip)) k1 fun _ k2 =>
      (k2.fs.icache (k.ftable f).ip).dinode = k.fs.node (k.ftable f).ip ∧
      ∀ o ≠ (k.ftable f).ip, k2.fs.locks o = k.fs.locks o := by
    rw [holds_onFs, ← node1, ← locks1]
    exact ((ilock_node _ _).and (ilock_locks _ _)).mono (fun _ _ done => ⟨done.1.2.1, done.2.2⟩) fun _ _ => trivial
  refine (follows_onFs follows_ilock k1).bind locked ?_
  rintro _ k2 ⟨node2, locks2⟩
  rw [← node2] at spared
  have count : (BitVec.ofNat 32 n1).toNat = n1 := by rw [BitVec.toNat_ofNat, Nat.mod_eq_of_lt int]
  have kept : (k2.fs.icache (k.ftable f).ip).dinode.type = T_SFILE →
      Refused (k2.fs.icache (k.ftable f).ip).dinode (k.ftable f).off (BitVec.ofNat 32 n1) ∨
      (k2.fs.moveIn (k.ftable f).ip (k.ftable f).off.toNat (BitVec.ofNat 32 n1).toNat addr).locks = k2.fs.locks := by
    intro small
    refine (spared small).imp_right fun same => funext fun o => ?_
    rw [count, moveIn_locks some_]
    by_cases own : o = (k.ftable f).ip
    · rw [own, relock_same]
    · rw [locks2 o own, same]
  refine (followsFrom_onFs (follows_writei (show (working.lock _).inside = true from rfl) kept)).andThen fun r => ?_
  exact Follows.bind (.onlyIf (follows_modifyFile _)) fun _ => (follows_onFs follows_iunlock).bind fun _ =>
    follows_endOp.bind fun _ => .pure _

theorem followsFrom_filewriteFrom (addr : Nat → UInt8) {n : Nat} (fuel i : Nat) (tidy : FilesTidy k)
    (fits : RestContained k f n i) : FollowsFrom kernelProtocol .rest (filewriteFrom f addr n fuel i) k := by
  have limit : filewriteMax = 6656 := rfl
  induction fuel generalizing k i with
  | zero => exact Follows.pure _ _
  | succ fuel ih =>
    refine .ite (fun more => ?_) fun _ => Follows.pure _ _
    refine (followsFrom_filewriteSection (by omega) (by omega) fun small => ?_).bind
      (filewriteSection_kept _ _ tidy (fits.chunk more)) fun result k' kept => ?_
    · exact (fits small more).imp .inl fun low o => relock_inside (by omega)
    refine .ite (fun _ => Follows.pure _ _) fun wrote => .ite (fun _ => follows_halt _ _ _) fun _ => ?_
    exact ih _ kept.tidy (fits.later kept more wrote)

theorem followsFrom_filewriteFrom_small {addr : Nat → UInt8} {n i : Nat} (fuel : Nat)
    (small : (k.fs.node (k.ftable f).ip).type = T_SFILE) (reaches : (k.ftable f).off ≤ (k.fs.node (k.ftable f).ip).size)
    (spared : ∀ o, relock (k.ftable f).ip (k.ftable f).off.toNat (landed (k.ftable f).off.toNat (n - i))
      (fun j => addr (i + j)) o (k.fs.locks o) = k.fs.locks o) :
    FollowsFrom kernelProtocol .rest (filewriteFrom f addr n fuel i) k := by
  have limit : filewriteMax = 6656 := rfl
  induction fuel generalizing k i with
  | zero => exact Follows.pure _ _
  | succ fuel ih =>
    refine .ite (fun more => ?_) fun _ => Follows.pure _ _
    have front : ∀ o, (k.ftable f).off.toNat + min (n - i) filewriteMax ≤ MAXFILE * BSIZE →
        relock (k.ftable f).ip (k.ftable f).off.toNat (min (n - i) filewriteMax) (fun j => addr (i + j)) o
          (k.fs.locks o) = k.fs.locks o := by
      intro o low
      have whole := spared o
      rw [landed_chunk low] at whole
      exact relock_front whole
    refine (followsFrom_filewriteSection (by omega) (by omega) fun _ => ?_).bind
      (filewriteSection_locks small reaches (by omega) (by omega)) ?_
    · rw [refused_iff (by omega)]
      exact (Nat.lt_or_ge _ _).imp .inr fun low o => front o low
    rintro r k' (⟨_, rfl, _⟩ | ⟨low, rfl, wrote⟩)
    · exact .ite (fun _ => Follows.pure _ _) fun pos => absurd (by decide) pos
    refine .ite (fun _ => Follows.pure _ _) fun _ => .ite (fun _ => follows_halt _ _ _) fun _ => ?_
    refine ih (wrote.ip ▸ wrote.small) (wrote.ip ▸ wrote.reaches) fun o => ?_
    have whole := spared o
    rw [landed_chunk low, ← relock_append, front o low] at whole
    rw [wrote.ip, wrote.off, wrote.locks o, front o low]
    simpa only [Nat.add_assoc, Nat.sub_sub] using whole

/-- Where `filewrite` writes to a small file, every lock word is after the bytes that land on it what it was. -/
def LocksSpared (kern : Kernel) (f : FileSlot) (addr : Nat → UInt8) (n : Int) : Prop :=
  let file := kern.ftable f
  file.writable = true → file.type = .inode → (kern.fs.node file.ip).type = T_SFILE →
    file.off ≤ (kern.fs.node file.ip).size → ∀ o,
      relock file.ip file.off.toNat (landed file.off.toNat n.toNat) addr o (kern.fs.locks o) = kern.fs.locks o

theorem followsFrom_filewrite {addr : Nat → UInt8} {n : Int} (tidy : FilesTidy k) (spared : LocksSpared k f addr n) :
    FollowsFrom kernelProtocol .rest (filewrite f addr n) k := by
  have read : Holds (Prog.get : KernelM Kernel) k fun val k' => val = k ∧ k' = k :=
    holds_get.mpr ⟨rfl, rfl⟩
  refine (follows_get k).bind read ?_
  rintro val k' ⟨here, eq⟩
  subst val k'
  refine .ite (fun _ => Follows.pure _ _) fun writable => ?_
  split
  · exact Follows.pure _ _
  · rename_i op
    refine FollowsFrom.andThen ?_ fun _ => .pure _
    by_cases inside : (k.fs.node (k.ftable f).ip).type = T_SFILE ∧ (k.ftable f).off ≤ (k.fs.node (k.ftable f).ip).size
    · refine followsFrom_filewriteFrom_small _ inside.1 inside.2 ?_
      simpa using spared (by simpa using writable) op inside.1 inside.2
    · refine followsFrom_filewriteFrom addr _ _ tidy fun small _ => .inl ?_
      exact BitVec.not_le.mp fun reaches => inside ⟨small, reaches⟩
  · exact follows_halt _ _ _

theorem LocksSpared.of_locks {addr : Nat → UInt8} {n v : Int} {k' : Kernel} (ret : filewrite f addr n k = .ok v k')
    (same : k'.fs.locks = k.fs.locks) : LocksSpared k f addr n := by
  intro writable op small reaches o
  have loop : Holds (filewriteFrom f addr n.toNat n.toNat 0) k _ := filewriteFrom_locks _ le_rfl small reaches
  have run : Holds (filewrite f addr n) k fun _ k' => ∀ o, k'.fs.locks o = relock (k.ftable f).ip
      (k.ftable f).off.toNat (landed (k.ftable f).off.toNat n.toNat) addr o (k.fs.locks o) := by
    simp only [filewrite, holds_bind, holds_get, writable, op, reduceCtorEq, ↓reduceIte]
    refine loop.conseq fun _ _ final => .pure ?_
    simpa using final
  rw [← run.of_ok ret o, same]

end

structure AtStage (base : Kernel) (g : Stage) (kern : Kernel) : Prop where
  outstanding : kern.fs.disk.log.outstanding = base.fs.disk.log.outstanding + if g.inside then 1 else 0
  buffers : kern.fs.disk.held = g.buffers ++ base.fs.disk.held
  inodes : ∀ sl, kern.fs.locks sl = if sl ∈ g.inodes then 1 else base.fs.locks sl
  free : ∀ sl ∈ g.inodes, base.fs.locks sl = 0
  distinct : g.inodes.Nodup

theorem AtStage.rest (k : Kernel) : AtStage k .rest k where
  outstanding := (add_zero _).symm
  buffers := rfl
  inodes := fun _ => rfl
  free := fun _ mem => absurd mem not_mem_nil
  distinct := nodup_nil

variable {base k : Kernel} {g g' : Stage} {α : Type}

section

variable (here : AtStage base g k)

include here

theorem AtStage.apart {k' : Kernel} (eq : kernelProtocol.view k' = kernelProtocol.view k) : AtStage base g k' := by
  obtain ⟨outstanding, buffers, inodes, free, distinct⟩ := here
  simp only [kernelProtocol, fsProtocol, Prod.mk.injEq] at eq
  obtain ⟨⟨log, held⟩, locks⟩ := eq
  exact ⟨log ▸ outstanding, held ▸ buffers, locks ▸ inodes, free, distinct⟩

theorem AtStage.setDisk {disk : Disk} (inodes : g'.inodes = g.inodes)
    (outstanding : disk.log.outstanding = base.fs.disk.log.outstanding + if g'.inside then 1 else 0)
    (buffers : disk.held = g'.buffers ++ base.fs.disk.held) : AtStage base g' (k.setFs (k.fs.setDisk disk)) where
  outstanding := outstanding
  buffers := buffers
  inodes := inodes ▸ here.inodes
  free := inodes ▸ here.free
  distinct := inodes ▸ here.distinct

theorem AtStage.holds_diskCalls {op : Op} {prog : DiskM α} (called : DiskCalls op prog)
    (allowed : g.step op = some g') : Holds prog k.fs.disk
      fun _ disk => AtStage base g' (k.setFs (k.fs.setDisk disk)) := by
  have outstanding := here.outstanding
  have buffers := here.buffers
  cases called with
  | beginOp =>
    rw [Stage.step] at allowed
    split at allowed
    · cases allowed
    · rename_i outside
      cases allowed
      refine holds_beginOp trivial fun disk alike opened _ _ => here.setDisk rfl ?_ (alike.held.trans buffers)
      rw [opened, outstanding, if_neg outside]
      simp
  | endOp =>
    rw [Stage.step] at allowed
    split at allowed <;> cases allowed
    rename_i low
    refine holds_endOp trivial fun disk alike closed _ => here.setDisk rfl ?_ (alike.held.trans buffers)
    rw [closed, outstanding, if_pos low]
    simp
  | logWrite b =>
    rw [Stage.step] at allowed
    split at allowed <;> cases allowed
    unfold Holds logWrite
    cases logged : k.fs.disk.log.logWrite b with
    | error reason => trivial
    | ok log =>
      refine here.setDisk rfl ?_ buffers
      rw [setLog_log, Log.logWrite_outstanding logged]
      exact outstanding
  | bread b =>
    cases allowed
    rw [bread, holds_bind, holds_get, holds_ite, holds_ite, holds_bind, holds_modify, holds_pure]
    refine ⟨fun _ => holds_halt.mpr trivial, fun _ => ⟨fun _ => holds_halt.mpr trivial, fun _ => ?_⟩⟩
    refine here.setDisk rfl outstanding ?_
    rw [setHeld_held, buffers]
    rfl
  | brelse b =>
    rw [Stage.step] at allowed
    split at allowed <;> cases allowed
    rename_i held
    refine holds_modify.mpr (here.setDisk rfl outstanding ?_)
    rw [setHeld_held, buffers, erase_append_left _ held]
    rfl

theorem AtStage.holds_calls {op : Op} {prog : KernelM α} (called : KernelCalls op prog)
    (allowed : g.step op = some g') : Holds prog k fun _ k' => AtStage base g' k' := by
  obtain ⟨outstanding, buffers, inodes, free, distinct⟩ := here
  cases called with
  | onFs called =>
    rw [holds_onFs]
    cases called with
    | onDisk called =>
      rw [holds_onDisk]
      exact AtStage.holds_diskCalls ⟨outstanding, buffers, inodes, free, distinct⟩ called allowed
    | acquiresleep ip =>
      cases allowed
      rw [acquiresleep, holds_bind, holds_inode, holds_ite, holds_modifyInode]
      refine ⟨fun _ => holds_halt.mpr trivial, fun unlocked => ?_⟩
      have word : k.fs.locks ip = 0 := not_not.mp unlocked
      have o : ip ∉ g.inodes := by
        intro mem
        rw [inodes, if_pos mem] at word
        cases word
      rw [inodes, if_neg o] at word
      refine ⟨outstanding, buffers, fun ip' => ?_, ?_, nodup_cons.mpr ⟨o, distinct⟩⟩
      · by_cases eq : ip' = ip
        · simp [eq, Fs.locks]
        · have kept := inodes ip'
          simp only [Fs.locks] at kept ⊢
          rw [setFs_fs, setInode_ne _ _ _ eq, kept]
          simp [eq]
      · intro ip' mem
        rcases mem_cons.mp mem with rfl | mem
        · exact word
        · exact free ip' mem
    | releasesleep ip =>
      rw [Stage.step] at allowed
      split at allowed <;> cases allowed
      rename_i held
      rw [holds_modifyInode]
      refine ⟨outstanding, buffers, fun ip' => ?_, fun ip' mem => ?_, distinct.erase ip⟩
      · by_cases eq : ip' = ip
        · have gone : ip ∉ (g.unlock ip).inodes := fun mem =>
            (distinct.mem_erase_iff.mp mem).1 rfl
          rw [eq, Fs.locks, setFs_fs, setInode_same, if_neg gone, free ip held]
          rfl
        · have kept := inodes ip'
          simp only [Fs.locks] at kept ⊢
          rw [setFs_fs, setInode_ne _ _ _ eq, kept]
          simp [distinct.mem_erase_iff, eq]
      · exact free ip' (mem_of_mem_erase mem)

end

/-- Every run that returns leaves the counter of the log and all locks as they were, with blocks logged
inside an operation only and every lock taken released. -/
def Paired {α : Type} (program : KernelM α) (kern : Kernel) : Prop :=
  ∀ v kern', program kern = .ok v kern' → kern'.fs.disk.log.outstanding = kern.fs.disk.log.outstanding ∧
    kern'.fs.locks = kern.fs.locks ∧ kern'.fs.disk.held = kern.fs.disk.held ∧
    ∃ ops, Performs kernelProtocol program kern v kern' ops ∧ ops.foldlM Stage.step .rest = some .rest

theorem Paired.of_follows {prog : KernelM α} (followed : FollowsFrom kernelProtocol .rest prog k) : Paired prog k := by
  intro val k' ret
  obtain ⟨ops, made, paired⟩ := followed.of_ok ret
  have ended : AtStage k .rest k' :=
    made.invariant (fun eq here => AtStage.apart here eq)
      (fun called ret allowed here => (AtStage.holds_calls here called allowed).of_ok ret) paired (.rest k)
  refine ⟨?_, ?_, ended.buffers, ops, made, paired⟩
  · exact ended.outstanding.trans (add_zero _)
  · exact funext ended.inodes

inductive LoggedCall where
  | sysOpen (path : Option (List UInt8)) (omode : Option (BitVec 32))
  | sysLink (old new : Option (List UInt8))
  | sysUnlink (path : Option (List UInt8))
  | sysMkdir (path : Option (List UInt8))
  | sysMknod (path : Option (List UInt8)) (major minor : Option (BitVec 32))
  | mkSmallFilesdir (path : Option (List UInt8))
  | sysChdir (path : Option (List UInt8))
  | filewrite (f : FileSlot) (addr : Nat → UInt8) (n : Int)
  | fileclose (f : FileSlot)
  | exec (path : List UInt8) (memory : ExecMemory)

def LoggedCall.Paired (p : ProcSlot) (kern : Kernel) : LoggedCall → Prop
  | .sysOpen path omode => Xv6.Paired (Xv6.sysOpen p path omode) kern
  | .sysLink old new => Xv6.Paired (Xv6.sysLink p old new) kern
  | .sysUnlink path => Xv6.Paired (Xv6.sysUnlink p path) kern
  | .sysMkdir path => Xv6.Paired (Xv6.sysMkdir p path) kern
  | .sysMknod path major minor => Xv6.Paired (Xv6.sysMknod p path major minor) kern
  | .mkSmallFilesdir path => Xv6.Paired (Xv6.mkSmallFilesdir p path) kern
  | .sysChdir path => Xv6.Paired (Xv6.sysChdir p path) kern
  | .filewrite f addr n => Xv6.Paired (Xv6.filewrite f addr n) kern
  | .fileclose f => Xv6.Paired (Xv6.fileclose f) kern
  | .exec path memory => Xv6.Paired (Xv6.exec p path memory) kern

def LoggedCall.Spared (kern : Kernel) : LoggedCall → Prop
  | .filewrite f addr n => LocksSpared kern f addr n
  | _ => True

def smallOpenKernel : Kernel :=
  (Kernel.single (Fs.single Disk.blank 2 ((Dinode.fresh T_SFILE).setNlink 1))).setFile 0
    ⟨.inode, 1, false, true, 0, 0, 0⟩

theorem smallOpenKernel_tidy : FilesTidy smallOpenKernel := by
  refine FilesTidy.setFile (fun _ => ⟨le_refl 0, fun _ => ?_⟩) (by decide) fun zero => absurd zero (by decide)
  exact FileType.noConfusion

end Xv6
