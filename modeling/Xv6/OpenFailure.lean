import Xv6.OpenCall
import Xv6.Mkfs

/-! Calls of `open` that fail. Without `O_CREATE` they leave no trace; with it the parent is looked up
once more than it is given back, and through a pointer that may be null. -/

namespace Xv6

open Exec Kernel Prog

/-- The inodes and their references, the processes and the open files are what they were. -/
structure Unchanged (kern kern' : Kernel) : Prop where
  image : kern'.fs.image = kern.fs.image
  refs : kern'.fs.refs = kern.fs.refs
  ptable : kern'.ptable = kern.ptable
  ftable : ∀ f, kern'.ftable f = kern.ftable f ∨ (kern.ftable f).ref = 0 ∧ (kern'.ftable f).ref = 0

section

variable {R : Rules} {k k1 : Kernel} {p : ProcSlot} {path : List UInt8} {omode : BitVec 32} {disk : Disk} {ip : Slot}
  {stops : Stop → Prop}

theorem fdalloc_spec (f : FileSlot) : Holds (fdalloc p f) k (fun fd k' => k'.fs = k.fs ∧
    (fd = none → k' = k)) stops := by
  simp only [fdalloc, holds_bind, holds_proc]
  split
  · rw [holds_bind, setOfile, holds_modifyProc, holds_pure]
    exact ⟨rfl, fun none => by cases none⟩
  · exact .pure ⟨rfl, fun _ => rfl⟩

theorem Running.holds_fail (run : Running R k) (kept : R.kept) (begun : k.fs.disk.Alike disk)
    (act : Active R k1.fs) (fades : Fades k.fs.refs (k.fs.setDisk disk) k1.fs)
    (refs : k1.fs.refs = k.fs.refs) (ptable : k1.ptable = k.ptable) (ftable : ∀ f, k1.ftable f = k.ftable f ∨
      (k.ftable f).ref = 0 ∧ (k1.ftable f).ref = 0) (committing : stops (.panic "log.committing")) :
    Holds (do kernelEndOp; return -1 : KernelM Int) k1 (fun res k' => res = -1 ∧ Unchanged k k') stops := by
  rw [holds_bind]
  refine act.toSound.holds_end committing fun disk' ended _ _ => .pure ⟨rfl, ?_, refs, ptable, ftable⟩
  rw [setFs_fs, Fs.image_alike ended, (run.sound.alike begun).not_faded kept fades.image, Fs.image_alike begun]

theorem Running.holds_openFile_fail {fs : Fs} (run : Running R k) (kept : R.kept) (begun : k.fs.disk.Alike disk)
    (walk : Walking R k.fs.refs (k.fs.setDisk disk) fs ip) (valid : (fs.icache ip).valid = true) :
    Holds (openFile p ip omode) (k.setFs fs) fun res k' => res = -1 → Unchanged k k' := by
  have giveBack : ∀ k1 : Kernel, k1.fs = fs → k1.ptable = k.ptable →
      (∀ f, k1.ftable f = k.ftable f ∨ (k.ftable f).ref = 0 ∧ (k1.ftable f).ref = 0) →
      Holds (do onFs (iunlockput ip); kernelEndOp; return -1 : KernelM Int) k1
        fun res k' => res = -1 → Unchanged k k' := by
    intro k1 eq ptable ftable
    subst eq
    rw [holds_bind, holds_onFs]
    refine walk.holds_iunlockput (fun _ _ _ => trivial) valid fun fs1 act1 fades refs => ?_
    have done : Holds (do kernelEndOp; return -1 : KernelM Int) (k1.setFs fs1)
        fun res k' => res = -1 ∧ Unchanged k k' :=
      run.holds_fail kept begun act1 fades refs ptable ftable trivial
    exact done.conseq fun _ _ failed _ => failed.2
  unfold openFile
  refine filealloc_spec.bind ?_
  rintro hit k1 (⟨rfl, rfl⟩ | ⟨f, file, rfl, free, ref, type, rfl⟩)
  · exact giveBack _ rfl rfl fun _ => .inl rfl
  refine (fdalloc_spec f).bind fun fd k2 done => ?_
  cases fd with
  | none =>
    rw [done.2 rfl, holds_bind]
    have idle : file.type ≠ .inode := by
      rw [type]
      exact (run.tidy f).2 free
    refine (holds_fileclose_idle ?_ ?_).conseq fun _ k3 closed => ?_
    · rw [setFile_same, ref]
    · rwa [setFile_same]
    · subst closed
      refine giveBack _ rfl rfl fun g => ?_
      by_cases here : g = f
      · rw [here, setFile_same]
        exact .inr ⟨free, rfl⟩
      · rw [setFile_ne _ here, setFile_ne _ here]
        exact .inl rfl
  | some fd =>
    simp only [holds_bind, holds_modifyFile, holds_pure]
    refine Holds.trivial (fun _ _ => Holds.trivial (fun _ _ failed => ?_) fun _ => trivial) fun _ => trivial
    omega

theorem Unchanged.refl (k : Kernel) : Unchanged k k :=
  ⟨rfl, rfl, rfl, fun _ => .inl rfl⟩

theorem Running.holds_sysOpen_fail (run : Running R k) (kept : R.kept) (alive : (k.ptable p).live)
    (path : Option (List UInt8)) (omode : Option (BitVec 32))
    (plain : ∀ given mode, path = some given → omode = some mode → hasFlag mode O_CREATE = false) :
    Holds (sysOpen p path omode) k fun res k' => res = -1 → Unchanged k k' := by
  unfold sysOpen
  split
  · rename_i path mode
    refine run.holds_begin_cwd alive fun disk cwd begun op act here held => ?_
    rw [holds_bind, holds_onFs, plain path mode rfl rfl, if_neg (by decide)]
    refine act.holds_openExisting held (fun _ _ _ => trivial) trivial
      (fun fs2 act2 fades refs => ?_) fun ip fs2 walk valid _ => ?_
    · have done : Holds (do kernelEndOp; return -1 : KernelM Int) (k.setFs fs2)
          fun res k' => res = -1 ∧ Unchanged k k' :=
        run.holds_fail kept begun act2 fades refs rfl (fun _ => .inl rfl) trivial
      exact done.conseq fun _ _ failed _ => failed.2
    · exact run.holds_openFile_fail kept begun walk valid
  · exact .pure fun _ => .refl k

end

theorem Unchanged.excess {k k' : Kernel} (same : Unchanged k k') : k'.excess = k.excess := by
  have files : ∀ f, (k'.ftable f).claims = (k.ftable f).claims := by
    intro f
    rcases same.ftable f with eq | ⟨free, free'⟩
    · rw [eq]
    · funext ip
      simp [File.claims, File.uses, free, free']
  simp only [Kernel.excess, same.refs, same.ptable, files]

/-- With `O_CREATE`, with `O_SFILE` and without, `open` follows the null pointer that `nameiparent` has
returned, for every path whose parent is not found. -/
theorem open_create_unresolved (kern begun : Kernel) (fs' : Fs) (p : ProcSlot) (cwd : Slot) (path : List UInt8)
    (omode : BitVec 32) (here : (kern.ptable p).cwd = some cwd) (creates : hasFlag omode O_CREATE = true)
    (started : kernelBeginOp kern = .ok () begun) (unresolved : nameiparent cwd path begun.fs = .ok none fs') :
    Holds (sysOpen p (some path) (some omode)) kern (fun _ _ => False) (· = .fault) := by
  have same : Holds kernelBeginOp kern (fun _ begun => begun.ptable = kern.ptable) fun _ => True := by
    rw [kernelBeginOp, holds_onFs, holds_onDisk]
    exact holds_beginOp trivial fun _ _ _ _ _ => rfl
  simp only [sysOpen, holds_bind, holds_onFs]
  refine .of_outcome (fun _ begun' ran => ?_) fun reason stopped => by cases started.symm.trans stopped
  cases started.symm.trans ran
  rw [Xv6.cwd, holds_bind, holds_get, same.of_ok started, here, holds_pure, creates, if_pos rfl, openCreate, holds_bind]
  refine .of_outcome (fun found fs2 looked => ?_) fun reason stopped => by cases unresolved.symm.trans stopped
  cases unresolved.symm.trans looked
  exact holds_halt.mpr rfl

theorem mkfs_unresolved : ∃ begun fs', kernelBeginOp mkfsKernel = .ok () begun ∧
    nameiparent 0 [97, slash, 98] begun.fs = .ok none fs' := by
  have chk : (kernelBeginOp mkfsKernel).check (fun _ begun =>
      (nameiparent 0 [97, slash, 98] begun.fs).check fun hit _ => hit.isNone) = true := by
    decide +kernel
  obtain ⟨_, begun, ran, inner⟩ := Outcome.of_check chk
  obtain ⟨hit, fs', looked, none⟩ := Outcome.of_check inner
  rw [Option.isNone_iff_eq_none] at none
  exact ⟨begun, fs', ran, none ▸ looked⟩

theorem open_create_unresolved_missing : Holds (sysOpen 0 (some [97, slash, 98]) (some (BitVec.ofNat 32 O_CREATE)))
    mkfsKernel (fun _ _ => False) (· = .fault) := by
  obtain ⟨begun, fs', started, unresolved⟩ := mkfs_unresolved
  exact open_create_unresolved mkfsKernel begun fs' 0 0 _ _ rfl (by decide) started unresolved

/-- A missing directory, and the root, which has no name in a parent. -/
theorem open_create_null : (∃ begun fs', kernelBeginOp mkfsKernel = .ok () begun ∧
      nameiparent 0 [97, slash, 98] begun.fs = .ok none fs') ∧
    (sysOpen 0 (some [97, slash, 98]) (some (BitVec.ofNat 32 O_CREATE)) mkfsKernel).reason? = some .fault ∧
    (sysOpen 0 (some [slash]) (some (BitVec.ofNat 32 (O_CREATE + O_SFILE))) mkfsKernel).reason? =
      some .fault := ⟨mkfs_unresolved, by decide +kernel, by decide +kernel⟩

end Xv6
