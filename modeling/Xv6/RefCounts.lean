import Xv6.InodeRefs
import Xv6.Files
import Xv6.Lib.Reach
import Mathlib.Algebra.BigOperators.Pi
import Mathlib.Algebra.BigOperators.Ring.Finset

/-! The reference count of every inode-cache entry against its users, the open files and the
current directories, over runs of file system calls. -/

namespace Xv6

open Exec Reach Fs Kernel Proc Pi Function Prod

variable {k k' k1 : Kernel} {f : FileSlot} {sl : Slot} {fs : Fs} {res : Int} {n i : Nat}

def File.uses (file : File) (sl : Slot) : Prop := 0 < file.ref ∧ file.type = .inode ∧ file.ip = sl

def Proc.uses (proc : Proc) (sl : Slot) : Prop := proc.live ∧ proc.cwd = some sl

instance (file : File) (sl : Slot) : Decidable (file.uses sl) := inferInstanceAs (Decidable (_ ∧ _))

instance (proc : Proc) (sl : Slot) : Decidable (proc.uses sl) := inferInstanceAs (Decidable (_ ∧ _))

def Counted (kern : Kernel) : Prop :=
  ∀ sl, (kern.fs.icache sl).ref = (Finset.univ.filter fun f => (kern.ftable f).uses sl).card +
      (Finset.univ.filter fun p => (kern.ptable p).uses sl).card

def FilesTidy (kern : Kernel) : Prop :=
  ∀ f, 0 ≤ (kern.ftable f).ref ∧ ((kern.ftable f).ref = 0 → (kern.ftable f).type ≠ .inode)

def File.claims (file : File) (sl : Slot) : Int := if file.uses sl then 1 else 0

def Proc.claims (proc : Proc) (sl : Slot) : Int := if proc.uses sl then 1 else 0

def Kernel.excess (kern : Kernel) : Slot → Int :=
  kern.fs.refs - (∑ f, (kern.ftable f).claims + ∑ p, (kern.ptable p).claims)

theorem counted_iff : Counted k ↔ k.excess = 0 := by
  have files : ∀ sl, (∑ f, (k.ftable f).claims) sl =
      ((Finset.univ.filter fun f => (k.ftable f).uses sl).card : Int) := by
    intro sl
    rw [Finset.sum_apply, Finset.natCast_card_filter]
    rfl
  have procs : ∀ sl, (∑ p, (k.ptable p).claims) sl =
      ((Finset.univ.filter fun p => (k.ptable p).uses sl).card : Int) := by
    intro sl
    rw [Finset.sum_apply, Finset.natCast_card_filter]
    rfl
  rw [Counted, Kernel.excess, sub_eq_zero, funext_iff]
  refine forall_congr' fun sl => ?_
  rw [Pi.add_apply, files, procs]
  rfl

section

variable {k : Kernel}

theorem excess_setFs (fs : Fs) : (k.setFs fs).excess = k.excess + (fs.refs - k.fs.refs) := by
  simp only [Kernel.excess, setFs_fs, setFs_ftable, setFs_ptable]
  abel

theorem excess_setFile (f : FileSlot) (file : File) :
    (k.setFile f file).excess = k.excess + ((k.ftable f).claims - file.claims) := by
  have moved := sum_update k.ftable f file File.claims
  have sum : ∑ o, ((k.setFile f file).ftable o).claims = ∑ o, (k.ftable o).claims + file.claims - (k.ftable f).claims :=
    eq_sub_of_add_eq moved
  simp only [Kernel.excess, setFile_fs, setFile_ptable, sum]
  abel

theorem excess_setProc (p : ProcSlot) (proc : Proc) :
    (k.setProc p proc).excess = k.excess + ((k.ptable p).claims - proc.claims) := by
  have moved := sum_update k.ptable p proc Proc.claims
  have sum : ∑ o, ((k.setProc p proc).ptable o).claims = ∑ o, (k.ptable o).claims + proc.claims - (k.ptable p).claims :=
    eq_sub_of_add_eq moved
  simp only [Kernel.excess, setProc_fs, setProc_ftable, sum]
  abel

theorem excess_setFile_same {file : File} (same : file.claims = (k.ftable f).claims) :
    (k.setFile f file).excess = k.excess := by
  rw [excess_setFile, same, sub_self, add_zero]

theorem excess_setProc_same {p : ProcSlot} {proc : Proc} (same : proc.claims = (k.ptable p).claims) :
    (k.setProc p proc).excess = k.excess := by
  rw [excess_setProc, same, sub_self, add_zero]

theorem excess_congr (fs : k'.fs = k.fs) (ftable : k'.ftable = k.ftable)
    (procs : ∀ q, (k'.ptable q).claims = (k.ptable q).claims) : k'.excess = k.excess := by
  simp only [Kernel.excess, fs, ftable, procs]

end

section

theorem File.claims_of_uses {file : File} (inUse : 0 < file.ref) (type : file.type = .inode) :
    file.claims = Pi.single file.ip 1 := by
  funext sl
  by_cases here : sl = file.ip
  · rw [here, single_eq_same, claims, if_pos ⟨inUse, type, rfl⟩]
  · rw [single_eq_of_ne here, claims, if_neg fun uses => here uses.2.2.symm]

theorem File.claims_of_not {file : File} (unused : ¬(0 < file.ref ∧ file.type = .inode)) : file.claims = 0 := by
  funext sl
  exact if_neg fun uses => unused ⟨uses.1, uses.2.1⟩

theorem File.claims_congr {file file' : File} (ref : 0 < file'.ref ↔ 0 < file.ref)
    (type : file'.type = file.type) (ip : file'.ip = file.ip) : file'.claims = file.claims := by
  funext sl
  exact if_congr (by simp only [uses, ref, type, ip]) rfl rfl

theorem Proc.claims_of_live {proc : Proc} (alive : proc.live) (cwd : proc.cwd = some sl) :
    proc.claims = Pi.single sl 1 := by
  funext o
  by_cases here : o = sl
  · rw [here, single_eq_same, claims, if_pos ⟨alive, cwd⟩]
  · rw [single_eq_of_ne here, claims, if_neg]
    rintro ⟨_, there⟩
    rw [cwd] at there
    exact here (Option.some.inj there).symm

theorem Proc.claims_of_not {proc : Proc} (dead : ¬proc.live ∨ proc.cwd = none) : proc.claims = 0 := by
  funext sl
  refine if_neg fun uses => ?_
  rcases dead with dead | nowhere
  · exact dead uses.1
  · rw [uses.2] at nowhere
    cases nowhere

theorem Proc.claims_congr {proc proc' : Proc} (st : proc'.state = proc.state)
    (cwd : proc'.cwd = proc.cwd) : proc'.claims = proc.claims := by
  funext sl
  exact if_congr (by simp only [uses, live, st, cwd]) rfl rfl

end

section

variable {k : Kernel} {α : Type}

theorem FilesTidy.setFile (tidy : FilesTidy k) {file : File} (ref : 0 ≤ file.ref)
    (type : file.ref = 0 → file.type ≠ .inode) : FilesTidy (k.setFile f file) := by
  intro o
  by_cases eq : o = f
  · rw [eq, setFile_same]
    exact ⟨ref, type⟩
  · have kept : (k.setFile f file).ftable o = k.ftable o :=
      update_of_ne eq _ _
    rw [kept]
    exact tidy o

theorem refs_beginOp : Keeps Fs.refs (onDisk beginOp) := refs_of (standing_onDisk _)

theorem refs_endOp : Keeps Fs.refs (onDisk endOp) := refs_of (standing_onDisk _)

def Balances (kern kern' : Kernel) : Prop := kern'.excess = kern.excess ∧ FilesTidy kern'

structure Owing (kern : Kernel) (amount : Slot → Int) (kern1 : Kernel) : Prop where
  excess : kern1.excess = kern.excess + amount
  tidy : FilesTidy kern1
  ptable : kern1.ptable = kern.ptable

section

variable {k1 : Kernel} {amount : Slot → Int} {β : Type} {prog : FsM α} {rest : α → KernelM β} {post : β → Kernel → Prop}

theorem Owing.refl (tidy : FilesTidy k) : Owing k 0 k := ⟨(add_zero _).symm, tidy, rfl⟩

section

variable (owing : Owing k amount k1)

include owing

theorem Owing.run {delta : α → Slot → Int} (moved : Shifts Fs.refs prog delta) :
    Holds (onFs prog) k1 fun val => Owing k (amount + delta val) := by
  rw [holds_onFs]
  refine (moved k1.fs).conseq fun val fs refs => ⟨?_, owing.tidy, owing.ptable⟩
  rw [excess_setFs, refs, add_sub_cancel_left, owing.excess, add_assoc]

theorem Owing.shifts {delta : α → Slot → Int} (moved : Shifts Fs.refs prog delta)
    (next : ∀ val k2, Owing k (amount + delta val) k2 → Holds (rest val) k2 post) :
    Holds (onFs prog >>= rest) k1 post := by
  exact (owing.run moved).bind next

theorem Owing.keeps (kept : Keeps Fs.refs prog) (next : ∀ val k2, Owing k amount k2 → Holds (rest val) k2 post) :
    Holds (onFs prog >>= rest) k1 post :=
  owing.shifts kept.shifts fun val k2 eq => next val k2 (by simpa using eq)

theorem Owing.close (val : β) : Holds (kernelEndOp >>= fun _ => pure val) k1 fun _ => Owing k amount :=
  owing.keeps refs_endOp fun _ _ ended => .pure ended

theorem Owing.finish (paid : amount = 0) (val : β) : Holds (kernelEndOp >>= fun _ => pure val) k1 fun _ => Balances k :=
  (owing.close val).conseq fun _ _ ended => ⟨by rw [ended.excess, paid, add_zero], ended.tidy⟩

theorem Owing.setFile {file : File} (eq : file.claims = (k1.ftable f).claims)
    (ref : 0 ≤ file.ref) (type : file.ref = 0 → file.type ≠ .inode) : Owing k amount (k1.setFile f file) :=
  ⟨(excess_setFile_same eq).trans owing.excess, owing.tidy.setFile ref type, owing.ptable⟩

end

end

theorem fileclose_owing (f : FileSlot) (tidy : FilesTidy k) : Holds (fileclose f) k fun _ => Owing k 0 := by
  simp only [fileclose, holds_bind, holds_file]
  rw [holds_ite, holds_panic, holds_ite, holds_modifyFile, holds_bind, holds_modifyFile]
  refine ⟨fun _ => trivial, fun used => ⟨fun others => ?_, fun last => ?_⟩⟩
  · refine (Owing.refl tidy).setFile (File.claims_congr (by simp only; omega) rfl rfl)
      (by simp only; omega) fun zero => absurd zero (by simp only; omega)
  · have freed : ∀ file : File, file.ref = 0 → file.type = .none → Owing k (k.ftable f).claims (k.setFile f file) := by
      intro file zero none
      refine ⟨?_, tidy.setFile zero.ge fun _ => by simp [none], rfl⟩
      rw [excess_setFile, File.claims_of_not (show ¬(0 < file.ref ∧ file.type = .inode) by omega), sub_zero]
    replace freed := freed { k.ftable f with ref := 0, type := .none } rfl rfl
    rw [holds_onlyIf]
    refine ⟨fun type => ?_, fun o => ?_⟩
    · rw [File.claims_of_uses (by omega) type] at freed
      refine freed.keeps refs_beginOp fun _ k1 begun => ?_
      refine begun.shifts refs_iput fun _ k2 put => ?_
      rw [add_neg_cancel] at put
      exact (put.run refs_endOp.shifts).conseq fun _ _ ended => by simpa using ended
    · rwa [File.claims_of_not fun uses => o uses.2] at freed

theorem filealloc_spec : Holds filealloc k fun hit k' =>
    (hit = none ∧ k' = k) ∨ ∃ f file, hit = some f ∧ (k.ftable f).ref = 0 ∧
      file.ref = 1 ∧ file.type = (k.ftable f).type ∧ k' = k.setFile f file := by
  rw [filealloc, holds_bind, holds_get]
  split
  · rename_i f hit
    have free := List.find?_some hit
    rw [decide_eq_true_eq] at free
    rw [holds_bind, holds_modifyFile, holds_pure]
    exact .inr ⟨f, { k.ftable f with ref := 1 }, rfl, free, rfl, rfl, rfl⟩
  · exact .pure (.inl ⟨rfl, rfl⟩)

theorem filedup_owing (f : FileSlot) (tidy : FilesTidy k) : Holds (filedup f) k fun _ => Owing k 0 := by
  simp only [filedup, holds_bind, holds_file]
  rw [holds_ite, holds_panic, holds_bind, holds_modifyFile, holds_pure]
  refine ⟨fun _ => trivial, fun used => ?_⟩
  exact (Owing.refl tidy).setFile (File.claims_congr (by simp only; omega) rfl rfl)
    (by simp only; omega) fun zero => absurd zero (by simp only; omega)

theorem fileread_balances (f : FileSlot) (n : BitVec 32) (tidy : FilesTidy k) :
    Holds (fileread f n) k fun _ => Balances k := by
  rw [fileread, holds_bind, holds_get, holds_ite, holds_pure]
  refine ⟨fun _ => ⟨rfl, tidy⟩, fun _ => ?_⟩
  split
  · exact .pure ⟨rfl, tidy⟩
  · refine (Owing.refl tidy).keeps refs_ilock fun _ k1 locked => ?_
    refine locked.keeps (refs_of (standing_readi _ _)) fun bytes k2 read => ?_
    rw [holds_bind, holds_modifyFile]
    refine Owing.keeps (read.setFile (File.claims_congr Iff.rfl rfl rfl) (read.tidy f).1 (read.tidy f).2)
      refs_iunlock fun _ k3 unlocked => ?_
    exact .pure ⟨unlocked.excess.trans (add_zero _), unlocked.tidy⟩
  · exact holds_panic.mpr trivial

end

section

variable {k : Kernel}

theorem fdalloc_excess (p : ProcSlot) (f : FileSlot) : Holds (fdalloc p f) k fun _ k' =>
    k'.excess = k.excess ∧ k'.ftable = k.ftable := by
  simp only [fdalloc, holds_bind, holds_proc]
  split
  · rw [holds_bind, setOfile, holds_modifyProc, holds_pure]
    exact ⟨excess_setProc_same (claims_congr rfl rfl), rfl⟩
  · exact .pure ⟨rfl, rfl⟩

theorem openFile_excess (p : ProcSlot) (ip : Slot) (omode : BitVec 32) (tidy : FilesTidy k) :
    Holds (openFile p ip omode) k fun _ k' =>
      k'.excess = k.excess + -Pi.single ip 1 ∧ FilesTidy k' := by
  have drops : ∀ k1 : Kernel, k1.excess = k.excess → FilesTidy k1 →
      Holds (do onFs (iunlockput ip); kernelEndOp; return -1 : KernelM Int) k1 fun _ k' =>
        k'.excess = k.excess + -Pi.single ip 1 ∧ FilesTidy k' := by
    intro k1 excess tidy
    refine (Owing.refl tidy).shifts refs_iunlockput fun _ k2 put => ?_
    refine (put.close _).conseq fun _ k' ended => ⟨?_, ended.tidy⟩
    rw [ended.excess, excess, zero_add]
  rw [openFile]
  refine filealloc_spec.bind ?_
  rintro hit k1 (⟨rfl, rfl⟩ | ⟨f, file, rfl, free, one, type, rfl⟩)
  · exact drops _ rfl tidy
  · have idle := (tidy f).2 free
    have none : file.claims = 0 := File.claims_of_not fun uses => idle (type ▸ uses.2)
    have eq : (k.setFile f file).excess = k.excess :=
      excess_setFile_same (none.trans (File.claims_of_not fun uses => idle uses.2).symm)
    have tidy1 : FilesTidy (k.setFile f file) := tidy.setFile (by omega) (by omega)
    refine (fdalloc_excess p f).bind ?_
    rintro fd k2 ⟨excess2, ftable2⟩
    have tidy2 : FilesTidy k2 := by
      intro o
      rw [ftable2]
      exact tidy1 o
    rw [eq] at excess2
    cases fd with
    | none =>
      refine (fileclose_owing f tidy2).bind fun _ k3 closed => ?_
      exact drops k3 (closed.excess.trans ((add_zero _).trans excess2)) closed.tidy
    | some fd =>
      rw [holds_bind, holds_onFs]
      refine (refs_iunlock k2.fs).conseq fun _ fs1 unlocked => ?_
      rw [holds_bind, kernelEndOp, holds_onFs]
      refine (refs_endOp fs1).conseq fun _ fs2 ended => ?_
      rw [holds_bind, holds_modifyFile, holds_pure]
      have ent : k2.ftable f = file := by rw [ftable2, setFile_same]
      refine ⟨?_, tidy2.setFile (by simp [ent, one]) fun zero => absurd zero (by simp [ent, one])⟩
      have before : (((k2.setFs fs1).setFs fs2).ftable f).claims = 0 := by
        rw [← none, ← ent]
        rfl
      rw [excess_setFile, before, zero_sub, File.claims_of_uses (by simp [ent, one]) rfl,
        setFs_setFs, excess_setFs, ended, unlocked, sub_self, add_zero, excess2]

theorem sysOpen_excess (p : ProcSlot) (path : Option (List UInt8)) (omode : Option (BitVec 32))
    (tidy : FilesTidy k) (existing : ∀ mode, omode = some mode → hasFlag mode O_CREATE = false) :
    Holds (sysOpen p path omode) k fun _ => Balances k := by
  unfold sysOpen
  split
  · rename_i path mode
    refine (Owing.refl tidy).keeps refs_beginOp fun _ k1 begun => ?_
    rw [holds_bind]
    refine holds_cwd trivial fun sl _ => ?_
    rw [existing mode rfl]
    refine begun.shifts (refs_openExisting path mode) fun hit k2 op => ?_
    rw [zero_add] at op
    cases hit with
    | none => exact op.finish rfl _
    | some ip =>
      refine (openFile_excess p ip mode op.tidy).conseq fun _ k' done => ⟨?_, done.2⟩
      rw [done.1, op.excess, claim, add_neg_cancel_right]
  · exact .pure ⟨rfl, tidy⟩

end

def Fs.node (fs : Fs) (sl : Slot) : Dinode :=
  if (fs.icache sl).valid then (fs.icache sl).dinode
  else dinodeAt fs.disk.sb fs.disk.block (fs.icache sl).inum

section

variable {k : Kernel} {f : FileSlot}

theorem Fs.node_alike {disk : Disk} (alike : fs.disk.Alike disk) : (fs.setDisk disk).node = fs.node := by
  funext sl
  simp only [node, setDisk_icache, setDisk_disk, alike.sb, alike.block]

theorem ilock_node (fs : Fs) (sl : Slot) : Holds (ilock sl) fs fun _ fs' => fs'.refs = fs.refs ∧
    (fs'.icache sl).dinode = fs.node sl ∧ (fs'.icache sl).valid = true := by
  refine (ilock_spec fs sl).conseq ?_
  rintro _ fs' ⟨_, _, ⟨valid, rfl⟩ | ⟨invalid, _, rfl⟩⟩
  · refine ⟨refs_setInode_same rfl, ?_, ?_⟩
    · simp [Fs.node, valid]
    · simpa using valid
  · refine ⟨refs_setInode_same rfl, ?_, ?_⟩
    · rw [setInode_same, Fs.node, if_neg (by simp [invalid])]
      rfl
    · rw [setInode_same]
      exact Inode.loaded_valid _ _

theorem writei_beyond  {src : Nat → UInt8} {off n : BitVec 32}
    (small : (fs.icache sl).dinode.type = T_SFILE) (beyond : (fs.icache sl).dinode.size < off) :
    Holds (writei sl src off n) fs fun res _ => res = -1 := by
  refine holds_writei (by rw [small]; decide) (fun _ => rfl) fun ok => ?_
  exact absurd (.inl beyond) ok

structure SectionKept (kern kern' : Kernel) (f : FileSlot) (result : Int) : Prop where
  excess : kern'.excess = kern.excess
  tidy : FilesTidy kern'
  type : (kern'.fs.node (kern'.ftable f).ip).type = (kern.fs.node (kern.ftable f).ip).type
  refused : (kern.fs.node (kern.ftable f).ip).type = T_SFILE →
    (kern.fs.node (kern.ftable f).ip).size < (kern.ftable f).off → result = -1

theorem closeSection_kept (kept : SectionKept k k' f res) (ip : (k'.ftable f).ip = (k.ftable f).ip)
    (valid : (k'.fs.icache (k.ftable f).ip).valid = true) :
    Holds (iunlock (k.ftable f).ip) k'.fs fun _ fs => Holds kernelEndOp (k'.setFs fs)
      fun _ final => Holds (pure res : KernelM Int) final fun res final => SectionKept k final f res := by
  obtain ⟨excess, tidy, type, refused⟩ := kept
  rw [ip] at type
  refine (iunlock_spec _ _).conseq fun _ fs unlocked => ?_
  subst unlocked
  rw [kernelEndOp, holds_onFs, holds_onDisk]
  refine holds_endOp trivial fun disk alike _ _ => .pure ⟨?_, tidy, ?_, refused⟩
  · rw [← excess, setFs_setFs, excess_setFs, add_eq_left, sub_eq_zero]
    exact refs_setInode_same rfl
  · rw [setFs_fs] at alike
    rw [← type, setFs_fs, setFs_fs, node_alike alike, setFs_ftable, setFs_ftable, ip]
    simp [Fs.node, valid]

theorem filewriteSection_kept (addr : Nat → UInt8) (n1 : Nat) (tidy : FilesTidy k)
    (fits : Contained (k.fs.node (k.ftable f).ip) (k.ftable f).off (BitVec.ofNat 32 n1)) :
    Holds (filewriteSection f addr n1) k fun res k' => SectionKept k k' f res := by
  simp only [filewriteSection, holds_bind, holds_file, kernelBeginOp, holds_onFs, holds_onDisk]
  refine holds_beginOp trivial fun disk alike _ _ _ => ?_
  refine (ilock_node _ _).conseq ?_
  rintro _ fs1 ⟨refs1, node1, valid1⟩
  simp only [setFs_fs, node_alike alike] at node1
  have wrote : Holds (writei (k.ftable f).ip addr (k.ftable f).off (BitVec.ofNat 32 n1)) fs1
      fun res fs2 => fs2.standing = fs1.standing ∧ ((k.fs.node (k.ftable f).ip).type = T_SFILE →
          (k.fs.node (k.ftable f).ip).size < (k.ftable f).off → res = -1) := by
    rw [← node1] at fits ⊢
    by_cases beyond : (fs1.icache (k.ftable f).ip).dinode.type = T_SFILE ∧
        (fs1.icache (k.ftable f).ip).dinode.size < (k.ftable f).off
    · exact ((standing_writei fits).and (writei_beyond beyond.1 beyond.2)).mono
        (fun _ _ done => ⟨done.1, fun _ _ => done.2⟩) fun _ _ => trivial
    · exact (standing_writei fits).conseq fun _ _ eq =>
        ⟨eq, fun small far => absurd ⟨small, far⟩ beyond⟩
  refine wrote.conseq ?_
  rintro res fs2 ⟨standing, refused⟩
  have ent : (fs2.icache (k.ftable f).ip).valid = true ∧
      (fs2.icache (k.ftable f).ip).dinode.type = (k.fs.node (k.ftable f).ip).type := by
    have eq := congrFun standing (k.ftable f).ip
    refine ⟨(congrArg Standing.valid eq).trans valid1, ?_⟩
    rw [← node1]
    exact congrArg Standing.type eq
  have refs2 : fs2.refs = k.fs.refs :=
    (funext fun sl => congrArg Standing.ref (congrFun standing sl) : fs2.refs = fs1.refs).trans refs1
  have eq : (k.setFs fs2).excess = k.excess := by
    rw [excess_setFs, refs2, sub_self, add_zero]
  have kept : SectionKept k (k.setFs fs2) f res := by
    refine ⟨eq, tidy, ?_, refused⟩
    rw [setFs_fs, setFs_ftable, Fs.node, if_pos ent.1]
    exact ent.2
  simp only [setFs_setFs]
  rw [holds_onlyIf, holds_modifyFile]
  refine ⟨fun _ => closeSection_kept ⟨?_, ?_, ?_, refused⟩ ?_ ent.1, fun _ => closeSection_kept kept rfl ent.1⟩
  · refine (excess_setFile_same ?_).trans eq
    exact File.claims_congr Iff.rfl rfl rfl
  · exact FilesTidy.setFile kept.tidy (tidy f).1 (tidy f).2
  · rw [setFile_same]
    exact kept.type
  · rw [setFile_same]
    rfl

def RestContained (kern : Kernel) (f : FileSlot) (n i : Nat) : Prop :=
  (kern.fs.node (kern.ftable f).ip).type = T_SFILE → i < n →
    (kern.fs.node (kern.ftable f).ip).size < (kern.ftable f).off ∨ (kern.ftable f).off.toNat + (n - i) ≤ 52

theorem RestContained.chunk (fits : RestContained k f n i) (more : i < n) :
    Contained (k.fs.node (k.ftable f).ip) (k.ftable f).off (BitVec.ofNat 32 (min (n - i) filewriteMax)) := by
  intro small
  have limit : filewriteMax = 6656 := rfl
  have count : (BitVec.ofNat 32 (min (n - i) filewriteMax)).toNat = min (n - i) filewriteMax := by
    rw [BitVec.toNat_ofNat]
    omega
  rw [count]
  exact (fits small more).imp .inl fun short => by omega

theorem RestContained.later (fits : RestContained k f n i) (kept : SectionKept k k' f res) (more : i < n)
    (wrote : ¬res < 0) : RestContained k' f n (i + min (n - i) filewriteMax) := by
  intro small left
  have limit : filewriteMax = 6656 := rfl
  rw [kept.type] at small
  rcases fits small more with beyond | short
  · have refused := kept.refused small beyond
    omega
  · omega

theorem filewriteFrom_excess (addr : Nat → UInt8) (fuel i : Nat) (tidy : FilesTidy k)
    (fits : RestContained k f n i) : Holds (filewriteFrom f addr n fuel i) k
      fun _ k' => k'.excess = k.excess ∧ FilesTidy k' := by
  induction fuel generalizing k i with
  | zero => exact .pure ⟨rfl, tidy⟩
  | succ fuel ih =>
    rw [filewriteFrom, holds_ite, holds_pure]
    refine ⟨fun more => ?_, fun _ => ⟨rfl, tidy⟩⟩
    refine (filewriteSection_kept _ _ tidy (fits.chunk more)).bind fun res k' kept => ?_
    rw [holds_ite, holds_pure, holds_ite, holds_panic]
    refine ⟨fun _ => ⟨kept.excess, kept.tidy⟩, fun wrote => ⟨fun _ => trivial, fun _ => ?_⟩⟩
    exact (ih _ kept.tidy (fits.later kept more wrote)).conseq fun _ _ done =>
      ⟨done.1.trans kept.excess, done.2⟩

def WriteContained (kern : Kernel) (f : FileSlot) (n : Int) : Prop :=
  (kern.ftable f).type = .inode → (kern.fs.node (kern.ftable f).ip).type = T_SFILE →
    n ≤ 0 ∨ (kern.fs.node (kern.ftable f).ip).size < (kern.ftable f).off ∨ (kern.ftable f).off.toNat + n.toNat ≤ 52

theorem WriteContained.start {n : Int} (fits : WriteContained k f n)
    (op : (k.ftable f).type = .inode) : RestContained k f n.toNat 0 := by
  intro small some_
  rcases fits op small with none_ | rest
  · omega
  · exact rest

theorem filewrite_excess (addr : Nat → UInt8) (n : Int) (tidy : FilesTidy k) (fits : WriteContained k f n) :
    Holds (filewrite f addr n) k fun _ k' => k'.excess = k.excess ∧ FilesTidy k' := by
  rw [filewrite, holds_bind, holds_get, holds_ite, holds_pure]
  refine ⟨fun _ => ⟨rfl, tidy⟩, fun _ => ?_⟩
  split
  · exact .pure ⟨rfl, tidy⟩
  · rename_i op
    exact (filewriteFrom_excess addr _ _ tidy (fits.start op)).bind fun _ _ done =>
      .pure done
  · exact holds_panic.mpr trivial

end

def Kernel.posts (kern : Kernel) (p : ProcSlot) : ProcState × Option Slot :=
  ((kern.ptable p).state, (kern.ptable p).cwd)

section

variable {k : Kernel} {p : ProcSlot}

theorem posts_setProc {proc : Proc} (st : proc.state = (k.ptable p).state)
    (cwd : proc.cwd = (k.ptable p).cwd) : (k.setProc p proc).posts = k.posts := by
  funext o
  by_cases eq : o = p
  · rw [eq, Kernel.posts, setProc_same, st, cwd, Kernel.posts]
  · have kept : (k.setProc p proc).ptable o = k.ptable o :=
      update_of_ne eq _ _
    rw [Kernel.posts, kept, Kernel.posts]

structure Undisturbed (kern kern' : Kernel) : Prop where
  excess : kern'.excess = kern.excess
  tidy : FilesTidy kern'
  posts : kern'.posts = kern.posts

theorem Undisturbed.setOfile (kept : Undisturbed k k') (fd : Fd) (f : Option FileSlot) :
    Holds (setOfile p fd f) k' fun _ final => Undisturbed k final := by
  rw [Xv6.setOfile, holds_modifyProc]
  refine ⟨Eq.trans ?_ kept.excess, kept.tidy, Eq.trans ?_ kept.posts⟩
  · exact excess_setProc_same (claims_congr rfl rfl)
  · exact posts_setProc rfl rfl

theorem posts_of_ptable (same : k'.ptable = k.ptable) : k'.posts = k.posts := by
  funext o
  rw [Kernel.posts, same, Kernel.posts]

theorem Undisturbed.owing {k2 : Kernel} (kept : Undisturbed k k1) (owing : Owing k1 0 k2) : Undisturbed k k2 :=
  ⟨owing.excess.trans ((add_zero _).trans kept.excess), owing.tidy, (posts_of_ptable owing.ptable).trans kept.posts⟩

theorem exit_closes (tidy : FilesTidy k) : Holds (Prog.each (List.finRange NOFILE) fun fd => do
      let proc ← proc p
      match proc.ofile fd with
      | none => return ()
      | some f => do
          fileclose f
          setOfile p fd none) k fun _ k' => Undisturbed k k' := by
  refine Holds.each (Undisturbed k) ⟨rfl, tidy, rfl⟩ fun fd k1 kept => ?_
  rw [holds_bind, holds_proc]
  split
  · exact .pure kept
  · rename_i f _
    exact (fileclose_owing f kept.tidy).bind fun _ k2 closed => (kept.owing closed).setOfile fd none

theorem leave_excess (alive : (k.ptable p).live) (here : (k.ptable p).cwd = some sl) (tidy : FilesTidy k) : Holds (do
      modifyProc p fun proc => { proc with cwd := none }
      Prog.modify fun k =>
        { k with
          ptable := fun o =>
            let proc := k.ptable o
            if proc.parent = some p then { proc with parent := some k.initproc } else proc }
      modifyProc p fun proc => { proc with state := .zombie }) k
      fun _ k' => k'.excess = k.excess + Pi.single sl 1 ∧ FilesTidy k' := by
  have before := claims_of_live alive here
  rw [holds_bind, holds_modifyProc]
  have first : ∀ proc : Proc, proc.cwd = none →
      (k.setProc p proc).excess = k.excess + Pi.single sl 1 := fun proc nowhere => by
    rw [excess_setProc, claims_of_not (.inr nowhere), before, sub_zero]
  rw [← first { k.ptable p with cwd := none } rfl]
  have nowhere : ((k.setProc p { k.ptable p with cwd := none }).ptable p).cwd = none := by
    rw [setProc_same]
  have tidy1 : FilesTidy (k.setProc p { k.ptable p with cwd := none }) := tidy
  generalize k.setProc p { k.ptable p with cwd := none } = k1 at nowhere tidy1 ⊢
  have last : ∀ (k2 : Kernel) (proc : Proc), k2.fs = k1.fs →
      k2.ftable = k1.ftable → k2.posts = k1.posts → proc.state = .zombie → (k2.setProc p proc).excess = k1.excess := by
    intro k2 proc fs ftable posts dead
    have st := fun q => congrArg fst (congrFun posts q)
    have cwd := fun q => congrArg snd (congrFun posts q)
    have none : (k2.ptable p).claims = 0 := claims_of_not (.inr ((cwd p).trans nowhere))
    refine (excess_setProc_same ?_).trans (excess_congr fs ftable fun q => ?_)
    · rw [none, claims_of_not (.inl (by simp [Proc.live, dead]))]
    · exact claims_congr (st q) (cwd q)
  rw [holds_bind, holds_modify, holds_modifyProc]
  refine ⟨last _ _ rfl rfl (funext fun q => ?_) rfl, tidy1⟩
  simp only [Kernel.posts]
  split <;> rfl

theorem exit_excess (tidy : FilesTidy k) (alive : (k.ptable p).live) : Holds (exit p) k fun _ => Balances k := by
  rw [exit, holds_bind, holds_get, holds_ite, holds_panic, holds_bind]
  refine ⟨fun _ => trivial, fun _ => (exit_closes tidy).conseq fun _ k1 kept => ?_⟩
  have live1 : (k1.ptable p).live := by
    have s : (k1.ptable p).state = (k.ptable p).state :=
      congrArg fst (congrFun kept.posts p)
    simpa only [Proc.live, s] using alive
  refine (Owing.refl kept.tidy).keeps refs_beginOp fun _ k2 begun => ?_
  rw [holds_bind]
  refine holds_cwd trivial fun sl here => ?_
  rw [begun.ptable] at here
  refine begun.shifts refs_iput fun _ k3 put => put.keeps refs_endOp fun _ k4 ended => ?_
  rw [← ended.ptable] at live1 here
  refine (leave_excess live1 here ended.tidy).conseq fun _ k' left => ⟨?_, left.2⟩
  rw [left.1, ended.excess, kept.excess, zero_add, neg_add_cancel_right]

theorem holds_modifyProc_as {change : Proc → Proc} {post : Unit → Kernel → Prop} {stops : Stop → Prop}
    (next : ∀ k', k' = k.setProc p (change (k.ptable p)) → post () k') : Holds (modifyProc p change) k post stops :=
  holds_modifyProc.mpr (next _ rfl)

theorem excess_setProc_idle {proc : Proc} (pre : ¬(k.ptable p).live) (after : ¬proc.live) :
    (k.setProc p proc).excess = k.excess :=
  excess_setProc_same (by
    rw [claims_of_not (.inl pre), claims_of_not (.inl after)])

theorem not_live_of_embryo {proc : Proc} (s : proc.state = .embryo) : ¬proc.live := by
  simp [Proc.live, s]

theorem not_live_of_unused {proc : Proc} (s : proc.state = .unused) : ¬proc.live := by
  simp [Proc.live, s]

theorem allocproc_excess (kstack : Bool) (tidy : FilesTidy k) :
    Holds (allocproc kstack) k fun hit k' => k'.excess = k.excess ∧
      FilesTidy k' ∧ ∀ np, hit = some np → (k'.ptable np).state = .embryo := by
  rw [allocproc, holds_bind, holds_get]
  split
  · exact .pure ⟨rfl, tidy, by simp⟩
  · rename_i np hit
    have unused := List.find?_some hit
    rw [decide_eq_true_eq] at unused
    have idle : ∀ (pid : Int) (proc : Proc), ¬proc.live →
        (({ k with nextpid := pid } : Kernel).setProc np proc).excess = k.excess :=
      fun pid proc dead => excess_setProc_idle (not_live_of_unused unused) dead
    rw [holds_bind, holds_modify, holds_bind, holds_modifyProc, holds_ite, holds_pure, holds_bind,
      holds_modifyProc, holds_pure]
    refine ⟨fun _ => ⟨idle _ _ (not_live_of_embryo rfl), tidy, fun np' eq => ?_⟩, fun _ => ⟨?_, tidy, by simp⟩⟩
    · cases eq
      rw [setProc_same]
    · refine (excess_setProc_idle ?_ (not_live_of_unused rfl)).trans (idle _ _ (not_live_of_embryo rfl))
      rw [setProc_same]
      exact not_live_of_embryo rfl

theorem fork_shares {np : ProcSlot} (tidy : FilesTidy k) : Holds (Prog.each (List.finRange NOFILE) fun i => do
      let up ← proc p
      match up.ofile i with
      | none => return ()
      | some f => do
          let f ← filedup f
          setOfile np i (some f)) k fun _ k' => Undisturbed k k' := by
  refine Holds.each (Undisturbed k) ⟨rfl, tidy, rfl⟩ fun fd k1 kept => ?_
  rw [holds_bind, holds_proc]
  split
  · exact .pure kept
  · rename_i f _
    exact (filedup_owing f kept.tidy).bind fun _ k2 shared => (kept.owing shared).setOfile fd _

theorem enter_excess (embryo : (k.ptable p).state = .embryo) (tidy : FilesTidy k) : Holds (do
      modifyProc p fun proc => { proc with cwd := some sl }
      let child ← proc p
      modifyProc p fun proc => { proc with state := .runnable }
      return child.pid : KernelM Int) k
      fun _ k' => k'.excess = k.excess + -Pi.single sl 1 ∧ FilesTidy k' := by
  rw [holds_bind]
  refine holds_modifyProc_as fun k1 fst => ?_
  have ent : k1.ptable p = { k.ptable p with cwd := some sl } := by
    rw [fst, setProc_same]
  have embryo1 : (k1.ptable p).state = .embryo := by rw [ent, embryo]
  have excess1 : k1.excess = k.excess := by
    rw [fst]
    exact excess_setProc_idle (not_live_of_embryo embryo) (not_live_of_embryo embryo)
  rw [holds_bind, holds_proc, holds_bind]
  refine holds_modifyProc_as fun k2 snd => .pure ⟨?_, ?_⟩
  · have joined : ∀ proc : Proc, proc.state = .runnable → proc.cwd = some sl →
        proc.claims = Pi.single sl 1 := fun proc st cwd =>
      claims_of_live (.inr (.inl st)) cwd
    rw [snd, excess_setProc, claims_of_not (.inl (not_live_of_embryo embryo1)), zero_sub,
      joined _ rfl (by rw [ent]), excess1]
  · rw [snd, fst]
    exact tidy

theorem fork_excess (kstack uvm : Bool) (tidy : FilesTidy k) : Holds (fork p kstack uvm) k fun _ => Balances k := by
  rw [fork]
  refine (allocproc_excess kstack tidy).bind ?_
  rintro hit k1 ⟨excess1, tidy1, s1⟩
  cases hit with
  | none => exact .pure ⟨excess1, tidy1⟩
  | some np =>
    have embryo := s1 np rfl
    rw [holds_ite, holds_bind]
    refine ⟨fun _ => holds_modifyProc_as fun k2 adopted => ?_, fun _ => ?_⟩
    · have ent : (k2.ptable np).state = .embryo := by
        rw [adopted, setProc_same, embryo]
      have excess2 : k2.excess = k.excess := by
        rw [adopted, ← excess1]
        exact excess_setProc_idle (not_live_of_embryo embryo) (not_live_of_embryo embryo)
      have tidy2 : FilesTidy k2 := by
        rw [adopted]
        exact tidy1
      refine (fork_shares tidy2).bind fun _ k3 kept => ?_
      rw [holds_bind]
      refine holds_cwd trivial fun sl _ => ?_
      refine (Owing.refl kept.tidy).shifts refs_idup fun sl k4 shared => ?_
      have embryo4 : (k4.ptable np).state = .embryo := by
        rw [shared.ptable]
        exact (congrArg fst (congrFun kept.posts np)).trans ent
      refine (enter_excess embryo4 shared.tidy).conseq fun _ k' done => ⟨?_, done.2⟩
      rw [done.1, shared.excess, zero_add, kept.excess, excess2, add_neg_cancel_right]
    · rw [holds_bind, holds_modifyProc, holds_pure]
      exact ⟨(excess_setProc_idle (not_live_of_embryo embryo) (not_live_of_unused rfl)).trans excess1, tidy1⟩

end

section

variable {k : Kernel} {p : ProcSlot}

section

variable (fd : Option Int)

include fd

theorem argfd_spec : Holds (argfd p fd) k fun hit k' =>
    k' = k ∧ ∀ d f, hit = some (d, f) → fd = some (d.val : Int) ∧ (k.ptable p).ofile d = some f := by
  rw [argfd, holds_bind, holds_proc]
  cases fd with
  | none => exact .pure ⟨rfl, by simp⟩
  | some fd =>
    simp only
    split
    · rename_i lt
      refine .pure ⟨rfl, fun d f hit => ?_⟩
      obtain ⟨file, here, eq⟩ := Option.map_eq_some_iff.mp hit
      cases eq
      exact ⟨by simp [lt.1], here⟩
    · exact .pure ⟨rfl, by simp⟩

theorem sysDup_balances (tidy : FilesTidy k) : Holds (sysDup p fd) k fun _ => Balances k := by
  rw [sysDup]
  refine (argfd_spec fd).bind ?_
  rintro hit k1 ⟨rfl, _⟩
  cases hit with
  | none => exact .pure ⟨rfl, tidy⟩
  | some ent =>
    refine (fdalloc_excess p ent.2).bind ?_
    rintro fd k2 ⟨excess2, ftable2⟩
    have tidy2 : FilesTidy k2 := fun f => by
      rw [ftable2]
      exact tidy f
    cases fd with
    | none => exact .pure ⟨excess2, tidy2⟩
    | some fd =>
      exact (filedup_owing ent.2 tidy2).bind fun _ _ done =>
        .pure ⟨done.excess.trans ((add_zero _).trans excess2), done.tidy⟩

theorem sysRead_balances (n : Option (BitVec 32)) (tidy : FilesTidy k) :
    Holds (sysRead p fd n) k fun _ => Balances k := by
  rw [sysRead]
  refine (argfd_spec fd).bind ?_
  rintro hit k1 ⟨rfl, _⟩
  split
  · exact fileread_balances _ _ tidy
  · exact .pure ⟨rfl, tidy⟩

theorem sysWrite_balances (buffer : Nat → UInt8) (n : Option Int) (tidy : FilesTidy k)
    (fits : ∀ (d : Fd) f count, fd = some (d.val : Int) → (k.ptable p).ofile d = some f →
      n = some count → WriteContained k f count) : Holds (sysWrite p fd buffer n) k fun _ => Balances k := by
  rw [sysWrite]
  refine (argfd_spec fd).bind ?_
  rintro hit k1 ⟨rfl, descriptor⟩
  split
  · rename_i d f count
    obtain ⟨num, op⟩ := descriptor d f rfl
    exact filewrite_excess buffer count tidy (fits d f count num op rfl)
  · exact .pure ⟨rfl, tidy⟩

theorem sysClose_balances (tidy : FilesTidy k) : Holds (sysClose p fd) k fun _ => Balances k := by
  rw [sysClose]
  refine (argfd_spec fd).bind ?_
  rintro hit k1 ⟨rfl, _⟩
  cases hit with
  | none => exact .pure ⟨rfl, tidy⟩
  | some ent =>
    obtain ⟨d, f⟩ := ent
    refine (Undisturbed.setOfile ⟨rfl, tidy, rfl⟩ d none).bind fun _ k2 cleared => ?_
    refine (fileclose_owing f cleared.tidy).bind fun _ _ closed => .pure ?_
    exact ⟨(cleared.owing closed).excess, closed.tidy⟩

end

theorem transaction_balances {prog : Slot → FsM Int} (kept : ∀ cwd, Keeps Fs.refs (prog cwd)) (tidy : FilesTidy k) :
    Holds (do
      kernelBeginOp
      let cwd ← cwd p
      let res ← onFs (prog cwd)
      kernelEndOp
      return res) k fun _ => Balances k := by
  refine (Owing.refl tidy).keeps refs_beginOp fun _ k1 begun => ?_
  rw [holds_bind]
  refine holds_cwd trivial fun sl _ => ?_
  exact begun.keeps (kept sl) fun _ k2 ran => ran.finish rfl _

theorem sysLink_balances (old new : Option (List UInt8)) (tidy : FilesTidy k) :
    Holds (sysLink p old new) k fun _ => Balances k := by
  unfold sysLink
  split
  · exact transaction_balances (fun _ => refs_link _ _) tidy
  · exact .pure ⟨rfl, tidy⟩

theorem sysUnlink_balances (path : Option (List UInt8)) (tidy : FilesTidy k) :
    Holds (sysUnlink p path) k fun _ => Balances k := by
  unfold sysUnlink
  split
  · exact .pure ⟨rfl, tidy⟩
  · exact transaction_balances (fun _ => refs_unlink _) tidy

theorem makeNode_balances (path : Option (List UInt8)) (type major minor : BitVec 16) (tidy : FilesTidy k) :
    Holds (makeNode p path type major minor) k fun _ => Balances k := by
  unfold makeNode
  refine (Owing.refl tidy).keeps refs_beginOp fun _ k1 begun => ?_
  cases path with
  | none => exact begun.finish rfl _
  | some path =>
    rw [holds_bind]
    refine holds_cwd trivial fun sl _ => ?_
    refine begun.shifts (refs_create path type major minor) fun made k2 created => ?_
    rw [zero_add] at created
    cases made with
    | none => exact created.finish rfl _
    | some ip =>
      exact created.shifts refs_iunlockput fun _ k3 put => put.finish (add_neg_cancel _) _

theorem sysExec_balances (path : Option (List UInt8)) (memory : ExecMemory) (tidy : FilesTidy k) :
    Holds (sysExec p path memory) k fun _ => Balances k := by
  cases path with
  | none => exact .pure ⟨rfl, tidy⟩
  | some path =>
    rw [sysExec, exec]
    refine (Owing.refl tidy).keeps refs_beginOp fun _ k1 begun => ?_
    rw [holds_bind]
    refine holds_cwd trivial fun sl _ => ?_
    refine begun.shifts (refs_namei sl path) fun hit k2 named => ?_
    rw [zero_add] at named
    cases hit with
    | none => exact named.finish rfl _
    | some ip =>
      refine named.keeps refs_ilock fun _ k3 locked => ?_
      refine locked.keeps (refs_of (standing_loadImage memory)) fun loaded k4 read => ?_
      exact read.shifts refs_iunlockput fun _ k5 put => put.finish (add_neg_cancel _) _

theorem move_excess {old ip : Slot} (alive : (k1.ptable p).live)
    (here : (k1.ptable p).cwd = some old) (tidy : FilesTidy k1) : Holds (do
      modifyProc p fun proc => { proc with cwd := some ip }
      return 0 : KernelM Int) k1
      fun _ k' => k'.excess = k1.excess + (Pi.single old 1 - Pi.single ip 1) ∧ FilesTidy k' := by
  rw [holds_bind]
  refine holds_modifyProc_as fun k' moved => .pure ⟨?_, ?_⟩
  · have there : ∀ proc : Proc, proc.state = (k1.ptable p).state → proc.cwd = some ip →
        proc.claims = Pi.single ip 1 := fun proc s cwd =>
      claims_of_live (by simpa only [Proc.live, s] using alive) cwd
    rw [moved, excess_setProc, claims_of_live alive here]
    refine congrArg (fun claims => k1.excess + (Pi.single old 1 - claims)) (there _ ?_ ?_) <;> rfl
  · rw [moved]
    exact tidy

theorem sysChdir_balances (path : Option (List UInt8)) (tidy : FilesTidy k) (alive : (k.ptable p).live) :
    Holds (sysChdir p path) k fun _ => Balances k := by
  unfold sysChdir
  refine (Owing.refl tidy).keeps refs_beginOp fun _ k1 begun => ?_
  cases path with
  | none => exact begun.finish rfl _
  | some path =>
    rw [holds_bind]
    refine holds_cwd trivial fun old here => ?_
    refine begun.shifts (refs_namei old path) fun hit k2 named => ?_
    rw [zero_add] at named
    cases hit with
    | none => exact named.finish rfl _
    | some ip =>
      refine named.keeps refs_ilock fun _ k3 locked => ?_
      refine locked.keeps (refs_of standing_inode) fun node k4 read => ?_
      rw [holds_ite]
      refine ⟨fun _ => ?_, fun _ => ?_⟩
      · exact read.shifts refs_iunlockput fun _ k5 put => put.finish (add_neg_cancel _) _
      · refine read.keeps refs_iunlock fun _ k5 unlocked => ?_
        refine unlocked.shifts refs_iput fun _ k6 put => ?_
        refine put.keeps refs_endOp fun _ kern7 ended => ?_
        rw [begun.ptable, ← ended.ptable] at here
        rw [← ended.ptable] at alive
        refine (move_excess alive here ended.tidy).conseq fun _ _ moved => ⟨?_, moved.2⟩
        rw [moved.1, ended.excess, claim]
        abel

theorem openCreate_leaks (fs : Fs) (cwd : Slot) (path : List UInt8) (small : Bool) :
    Holds (openCreate cwd path small) fs fun hit fs' =>
      ∃ dp, fs'.refs = fs.refs + claim hit + Pi.single dp 1 := by
  rw [openCreate]
  refine (refs_nameiparent cwd path fs).bind fun hit fs1 named => ?_
  cases hit with
  | none => exact holds_halt.mpr trivial
  | some up =>
    obtain ⟨dp, name⟩ := up
    have leaked : ∀ type, Holds (create cwd path type 0 0) fs1 fun hit fs' =>
        ∃ dp, fs'.refs = fs.refs + claim hit + Pi.single dp 1 := fun type =>
      (refs_create path type 0 0 fs1).conseq fun hit fs' made => ⟨dp, by
        rw [made, named, add_right_comm]
        rfl⟩
    have unmade : Holds (pure none : FsM (Option Slot)) fs1 fun hit fs' =>
        ∃ dp, fs'.refs = fs.refs + claim hit + Pi.single dp 1 :=
      .pure ⟨dp, named.trans (by rw [claim, add_zero]; rfl)⟩
    rw [holds_bind, holds_inode, holds_ite, holds_ite, holds_ite]
    exact ⟨fun _ => ⟨fun _ => unmade, fun _ => leaked _⟩, fun _ => ⟨fun _ => unmade, fun _ => leaked _⟩⟩

theorem sysOpen_leaks (path : List UInt8) {mode : BitVec 32} (creates : hasFlag mode O_CREATE = true)
    (tidy : FilesTidy k) : Holds (sysOpen p (some path) (some mode)) k
      fun _ k' => ∃ dp, k'.excess = k.excess + Pi.single dp 1 := by
  refine (Owing.refl tidy).keeps refs_beginOp fun _ k1 begun => ?_
  rw [holds_bind]
  refine holds_cwd trivial fun sl _ => ?_
  rw [creates, if_pos rfl, holds_bind, holds_onFs]
  refine (openCreate_leaks k1.fs sl path _).conseq ?_
  rintro hit fs2 ⟨dp, refs2⟩
  have owing : Owing k (claim hit + Pi.single dp 1) (k1.setFs fs2) := by
    refine ⟨?_, begun.tidy, begun.ptable⟩
    rw [excess_setFs, begun.excess, add_zero, refs2, add_assoc, add_sub_cancel_left]
  cases hit with
  | none =>
    refine (owing.close _).conseq fun _ k' ended => ⟨dp, ?_⟩
    rw [ended.excess, claim, zero_add]
  | some ip =>
    refine (openFile_excess p ip mode owing.tidy).conseq fun _ k' done => ⟨dp, ?_⟩
    rw [done.1, owing.excess, claim]
    abel

end

/-- The call is no `sys_open` with `O_CREATE` and no write past byte 52 of a small file. -/
def Call.Returns (kern : Kernel) (step : ProcSlot × Call) : Prop :=
  match step.2 with
  | .sysOpen _ omode => ∀ mode, omode = some mode → hasFlag mode O_CREATE = false
  | .sysWrite fd _ n => ∀ (d : Fd) f count, fd = some (d.val : Int) →
      (kern.ptable step.1).ofile d = some f → n = some count → WriteContained kern f count
  | _ => True

theorem Call.balances {step : ProcSlot × Call} (tidy : FilesTidy k)
    (returns : Call.Returns k step) (next : Call.Next k step k') : Balances k k' := by
  obtain ⟨p, call⟩ := step
  obtain ⟨alive, ran⟩ := next
  cases call with
  | sysOpen path omode => exact (sysOpen_excess p path omode tidy returns).final ran
  | sysClose fd => exact (sysClose_balances fd tidy).final ran
  | sysDup fd => exact (sysDup_balances fd tidy).final ran
  | sysRead fd n => exact (sysRead_balances fd n tidy).final ran
  | sysWrite fd buffer n => exact (sysWrite_balances fd buffer n tidy returns).final ran
  | sysLink old new => exact (sysLink_balances old new tidy).final ran
  | sysUnlink path => exact (sysUnlink_balances path tidy).final ran
  | sysMkdir path => exact (makeNode_balances path _ _ _ tidy).final ran
  | sysMknod path major minor =>
    have made : Holds (Xv6.sysMknod p path major minor) k fun _ => Balances k := by
      unfold Xv6.sysMknod
      split <;> exact makeNode_balances _ _ _ _ tidy
    exact made.final ran
  | mkSmallFilesdir path => exact (makeNode_balances path _ _ _ tidy).final ran
  | sysChdir path => exact (sysChdir_balances path tidy alive).final ran
  | sysExec path memory => exact (sysExec_balances path memory tidy).final ran
  | fork kstack uvm => exact (fork_excess kstack uvm tidy).final ran
  | exit => exact (exit_excess tidy alive).final ran

theorem Counted.user (cnt : Counted k) (held : 0 < (k.fs.icache sl).ref) :
    (∃ f, (k.ftable f).uses sl) ∨ ∃ p, (k.ptable p).uses sl := by
  by_contra unused
  rw [not_or, not_exists, not_exists] at unused
  have none := cnt sl
  rw [Finset.filter_false_of_mem fun f _ => unused.1 f, Finset.filter_false_of_mem fun p _ => unused.2 p] at none
  simp only [Finset.card_empty, Nat.cast_zero, add_zero] at none
  omega

/-- Each reference count is the number of users of its entry, in every run without `O_CREATE` and without
a write past byte 52 of a small file. -/
theorem inode_refs_conserved {kern : Kernel} (cnt : Counted kern) (tidy : FilesTidy kern)
    {kern' : Kernel} (reached : Reachable Call.Next Call.Returns kern kern') :
    Counted kern' ∧ (∀ sl, 0 < (kern'.fs.icache sl).ref →
      (∃ f, (kern'.ftable f).uses sl) ∨ ∃ p, (kern'.ptable p).uses sl) ∧ ∀ p path mode, hasFlag mode O_CREATE = true →
      Holds (sysOpen p (some path) (some mode)) kern' (fun _ after => ¬Counted after) fun _ => True := by
  obtain ⟨excess, tidy'⟩ : kern'.excess = 0 ∧ FilesTidy kern' := by
    refine reached.invariant (fun st => st.excess = 0 ∧ FilesTidy st)
      ⟨counted_iff.mp cnt, tidy⟩ fun st step st' holds returns next => ?_
    obtain ⟨same, tidy'⟩ := Call.balances holds.2 returns next
    exact ⟨same.trans holds.1, tidy'⟩
  have cnt' := counted_iff.mpr excess
  refine ⟨cnt', fun sl referenced => cnt'.user referenced, fun p path mode creates => ?_⟩
  refine (sysOpen_leaks path creates tidy').conseq fun _ after leaked balanced => ?_
  obtain ⟨dp, more⟩ := leaked
  rw [counted_iff.mp balanced, excess, zero_add] at more
  have one := congrFun more dp
  rw [Pi.single_eq_same] at one
  exact absurd one (by simp)

def rootKernel : Kernel := Kernel.single (Fs.single Disk.blank ROOTINO ((Dinode.fresh T_DIR).setNlink 1))

theorem rootKernel_counted : Counted rootKernel := by
  unfold Counted
  decide +kernel

theorem rootKernel_tidy : FilesTidy rootKernel := fun _ => ⟨le_refl 0, fun _ => by
  simp [rootKernel, Kernel.single]⟩

theorem inode_refs_conserved_open : ∃ kern' : Kernel, Call.Next rootKernel (0, .sysOpen (some [slash]) (some 0)) kern' ∧
    (kern'.fs.icache 0).ref = 2 ∧ Counted kern' := by
  have checked : ((Call.sysOpen (some [slash]) (some 0)).run 0 rootKernel).any
      (fun kern' => (kern'.fs.icache 0).ref == 2) = true := by
    decide +kernel
  obtain ⟨kern', ran, refs⟩ := (Option.any_eq_true _ _).mp checked
  rw [beq_iff_eq] at refs
  have next : Call.Next rootKernel (0, .sysOpen (some [slash]) (some 0)) kern' := ⟨by decide, ran⟩
  have flags : ∀ mode : BitVec 32, some 0 = some mode → hasFlag mode O_CREATE = false := by
    rintro _ ⟨⟩
    decide
  exact ⟨kern', next, refs, (inode_refs_conserved rootKernel_counted rootKernel_tidy
    (.step (0, .sysOpen (some [slash]) (some 0)) .start flags next)).1⟩

/-- `open("a", O_CREATE | O_SFILE)` in the root directory, which is refused, leaves a reference to
the root directory that nobody holds. -/
theorem inode_refs_leaked : Counted rootKernel ∧ FilesTidy rootKernel ∧ ∃ kern' : Kernel,
    Call.Next rootKernel (0, .sysOpen (some [97]) (some (BitVec.ofNat 32 (O_CREATE + O_SFILE)))) kern' ∧
    (kern'.fs.icache 0).ref = 2 ∧ (Finset.univ.filter fun f => (kern'.ftable f).uses 0).card = 0 ∧
    (Finset.univ.filter fun p => (kern'.ptable p).uses 0).card = 1 ∧ ¬Counted kern' := by
  have checked : ((Call.sysOpen (some [97]) (some (BitVec.ofNat 32 (O_CREATE + O_SFILE)))).run 0
      rootKernel).any (fun kern' => (kern'.fs.icache 0).ref == 2 &&
        (Finset.univ.filter fun f => (kern'.ftable f).uses 0).card == 0 &&
        (Finset.univ.filter fun p => (kern'.ptable p).uses 0).card == 1) = true := by
    decide +kernel
  obtain ⟨kern', ran, value⟩ := (Option.any_eq_true _ _).mp checked
  simp only [Bool.and_eq_true, beq_iff_eq] at value
  obtain ⟨⟨refs, files⟩, procs⟩ := value
  refine ⟨rootKernel_counted, rootKernel_tidy, kern', ⟨by decide, ran⟩, refs, files, procs, fun cnt => ?_⟩
  have same := cnt 0
  rw [refs, files, procs] at same
  exact absurd same (by decide)

end Xv6
