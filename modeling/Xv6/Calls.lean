import Xv6.Running

/-! What each file system call does to the inodes, from any state between calls. -/

namespace Xv6

open Exec Fs Kernel

def Kernel.Walks (kern : Kernel) (p : ProcSlot) (parent : Bool) (path : List UInt8) (d : Nat)
    (name : List UInt8) : Prop :=
  ∃ cwd, (kern.ptable p).cwd = some cwd ∧ Walk kern.fs.image parent (kern.fs.origin cwd path) path d name

inductive Makes : Call → List UInt8 → BitVec 16 → Prop
  | sysOpen {path : List UInt8} {mode : BitVec 32} : hasFlag mode O_CREATE = true →
      Makes (.sysOpen (some path) (some mode)) path (if hasFlag mode O_SFILE then T_SFILE else T_FILE)
  | sysMkdir {path : List UInt8} : Makes (.sysMkdir (some path)) path T_DIR
  | sysMknod {path : List UInt8} {major minor : BitVec 32} :
      Makes (.sysMknod (some path) (some major) (some minor)) path T_DEV
  | mkSmallFilesdir {path : List UInt8} : Makes (.mkSmallFilesdir (some path)) path T_SDIR

def Admits (parent type : BitVec 16) : Prop :=
  (type = T_SFILE → parent = T_SDIR) ∧ (type = T_FILE → parent ≠ T_SDIR)

def Kernel.Describes (kern : Kernel) (p : ProcSlot) (fd : Option Int) (f : FileSlot) : Prop :=
  ∃ d : Fd, fd = some (d.val : Int) ∧ (kern.ptable p).ofile d = some f

/-- What a call of process `p` may do to the inodes, apart from releasing those without links. -/
inductive Act (R : Rules) (kern : Kernel) (p : ProcSlot) :
    Call → (Nat → Node) → (Nat → Node) → Prop
  | same {call : Call} {im : Nat → Node} : Act R kern p call im im
  | made {call : Call} {path name : List UInt8} {type : BitVec 16} {d k i : Nat}
      {im im' : Nat → Node} : Makes call path type → kern.Walks p true path d name →
      Admits (im d).type type → (R.kept → im = kern.fs.image) → Made d name type k i im im' → Act R kern p call im im'
  | linked {old new last name : List UInt8} {d k i : Nat} {im im' : Nat → Node} :
      kern.Walks p false old i last → kern.Walks p true new d name →
      Linked d name k i im im' → Act R kern p (.sysLink (some old) (some new)) im im'
  | unlinked {path name : List UInt8} {d k i : Nat} {im im' : Nat → Node} :
      kern.Walks p true path d name → Unlinked d name k i im im' → Act R kern p (.sysUnlink (some path)) im im'
  | wrote {fd : Option Int} {buffer : Nat → UInt8} {n : Int} {f : FileSlot} {count : Nat}
      {im : Nat → Node} : kern.Describes p fd f → (im (kern.fs.icache (kern.ftable f).ip).inum).type = T_FILE →
      (kern.ftable f).off.toNat ≤ (im (kern.fs.icache (kern.ftable f).ip).inum).size.toNat →
      (kern.ftable f).off.toNat + count ≤ MAXFILE * BSIZE → count ≤ n.toNat →
      Act R kern p (.sysWrite fd buffer (some n)) im (Function.update im (kern.fs.icache (kern.ftable f).ip).inum
          ((im (kern.fs.icache (kern.ftable f).ip).inum).write buffer (kern.ftable f).off.toNat count))

theorem Act.keepsTypes (R : Rules) (kern : Kernel) (p : ProcSlot) (call : Call) : KeepsTypes (Act R kern p call) := by
  intro img img' act j ty
  cases act with
  | same => rfl
  | made _ _ _ _ made => exact Made.keepsTypes _ _ _ _ _ _ _ made j ty
  | linked _ _ linked => exact linked.types j
  | unlinked _ unlinked => exact unlinked.types j
  | wrote => exact write_types _ _ _ _ _ j

section

variable {R : Rules} {kern : Kernel} {change : (Nat → Node) → (Nat → Node) → Prop} {stops : Stop → Prop}

variable {post : Unit → Kernel → Prop} {fs2 : Fs} {disk : Disk}

theorem Sound.holds_begin (sound : Sound R kern.fs) (idle : 0 ≤ kern.fs.disk.log.outstanding)
    (blocked : stops .blocked) (next : ∀ disk, kern.fs.disk.Alike disk →
      disk.log.outstanding = kern.fs.disk.log.outstanding + 1 → Active R (kern.fs.setDisk disk) →
      post () (kern.setFs (kern.fs.setDisk disk))) : Holds kernelBeginOp kern post stops := by
  rw [kernelBeginOp, holds_onFs]
  refine sound.holds_beginOp blocked fun disk alike op sound => ?_
  refine next disk alike op ⟨sound, ?_⟩
  rw [setDisk_disk]
  omega

theorem Sound.holds_end (sound : Sound R kern.fs) (committing : stops (.panic "log.committing"))
    (next : ∀ disk, kern.fs.disk.Alike disk →
      disk.log.outstanding = kern.fs.disk.log.outstanding - 1 → Sound R (kern.fs.setDisk disk) →
      post () (kern.setFs (kern.fs.setDisk disk))) : Holds kernelEndOp kern post stops := by
  rw [kernelEndOp, holds_onFs]
  exact sound.holds_endOp committing next

theorem Running.settle {fs' : Fs} (run : Running R kern) (types : KeepsTypes change)
    (sound : Sound R fs') (evolves : Evolves change kern.fs fs')
    (refs : fs'.refs = kern.fs.refs) : Advances R change kern (kern.setFs fs') := by
  refine run.next_balanced types sound evolves run.tidy ?_ (fun f ip uses => .inr ⟨uses, rfl⟩)
    fun p ip uses => .inr uses
  rw [excess_setFs, refs, sub_self, add_zero]

theorem Changes.evolves {fs : Fs} {base : Slot → Int} {disk' : Disk}
    (changes : Changes base change (fs.setDisk disk) fs2) (begun : fs.disk.Alike disk)
    (op : disk.log.outstanding = fs.disk.log.outstanding + 1) (ended : fs2.disk.Alike disk')
    (closed : disk'.log.outstanding = fs2.disk.log.outstanding - 1)
    (cover : ∀ ip, 0 < fs.refs ip → 0 < fs2.refs ip → 0 < base ip) : Evolves change fs (fs2.setDisk disk') :=
  (changes.transaction begun op ended closed).anti fun ip both =>
    cover ip (lt_of_lt_of_le both (min_le_left _ _)) (lt_of_lt_of_le both (min_le_right _ _))

theorem Running.stay (run : Running R kern) (none : ∀ img, change img img) : Advances R change kern kern :=
  ⟨run, (Fades.refl _ _).changes none⟩

theorem Running.holds_finish {α : Type} {res : α} (run : Running R kern)
    (types : KeepsTypes change) (begun : kern.fs.disk.Alike disk)
    (op : disk.log.outstanding = kern.fs.disk.log.outstanding + 1) (act : Active R fs2)
    (changes : Changes kern.fs.refs change (kern.fs.setDisk disk) fs2)
    (refs : fs2.refs = kern.fs.refs) : Holds (do kernelEndOp; return res : KernelM α) (kern.setFs fs2)
      fun _ => Advances R change kern := by
  rw [holds_bind]
  refine act.toSound.holds_end trivial fun disk2 ended closed sound => .pure ?_
  exact run.settle types sound (changes.evolves begun op ended closed fun ip pre _ => pre) refs

end

section

variable {R : Rules} {kern : Kernel} {p : ProcSlot} {fs : Fs} {ip : Slot}

section

variable (run : Running R kern) (alive : (kern.ptable p).live)

include run alive

theorem Running.referenced {cwd : Slot} (here : (kern.ptable p).cwd = some cwd) : 0 < (kern.fs.icache cwd).ref :=
  referenced_of_proc (run.surplus cwd) ⟨alive, here⟩

theorem Running.holds_begin_cwd {α : Type} {rest : Slot → KernelM α} {post : α → Kernel → Prop}
    (next : ∀ disk ip, kern.fs.disk.Alike disk → disk.log.outstanding = kern.fs.disk.log.outstanding + 1 →
      Active R (kern.fs.setDisk disk) → (kern.ptable p).cwd = some ip → 0 < (kern.fs.icache ip).ref →
      Holds (rest ip) (kern.setFs (kern.fs.setDisk disk)) post) :
    Holds (do kernelBeginOp; let ip ← cwd p; rest ip) kern post := by
  rw [holds_bind]
  refine run.sound.holds_begin run.idle trivial fun disk begun op act => ?_
  rw [holds_bind]
  exact holds_cwd trivial fun ip here => next disk ip begun op act here (run.referenced alive here)

theorem Running.holds_sysLink (blank : R.blank) (old new : Option (List UInt8)) : Holds (sysLink p old new) kern
      fun _ => Advances R (Act R kern p (.sysLink old new)) kern := by
  have types := Act.keepsTypes R kern p (.sysLink old new)
  unfold sysLink
  split
  · rename_i old new
    refine run.holds_begin_cwd alive fun disk cwd begun op act here referenced => ?_
    rw [holds_bind, holds_onFs]
    refine act.holds_link referenced (fun _ _ _ => trivial) trivial (fun _ ty _ => act.bare ty (.inr blank))
      (fun fs2 act2 fades refs => ?_) fun fs2 i last d name k oldWalk newWalk changes act2 refs => ?_
    · exact run.holds_finish types begun op act2 (fades.changes fun _ => .same) refs
    · rw [image_alike begun] at oldWalk newWalk
      refine run.holds_finish types begun op act2 (changes.imp fun pre after _ linked => ?_) refs
      exact .linked ⟨cwd, here, oldWalk⟩ ⟨cwd, here, newWalk⟩ linked
  · exact .pure (run.stay fun _ => .same)

theorem Running.holds_sysUnlink (blank : R.blank) (path : Option (List UInt8)) : Holds (sysUnlink p path) kern
      fun _ => Advances R (Act R kern p (.sysUnlink path)) kern := by
  have types := Act.keepsTypes R kern p (.sysUnlink path)
  unfold sysUnlink
  cases path with
  | none => exact .pure (run.stay fun _ => .same)
  | some path =>
    refine run.holds_begin_cwd alive fun disk cwd begun op act here referenced => ?_
    rw [holds_bind, holds_onFs]
    refine act.holds_unlink referenced (fun _ _ _ => trivial) trivial (act.lastBare blank)
      (fun _ _ _ _ _ _ _ _ _ _ _ _ _ => trivial) (fun fs2 act2 fades refs => ?_)
      fun fs2 d name k i walk changes act2 refs => ?_
    · exact run.holds_finish types begun op act2 (fades.changes fun _ => .same) refs
    · rw [image_alike begun] at walk
      refine run.holds_finish types begun op act2 (changes.imp fun pre after _ unlinked => ?_) refs
      exact .unlinked ⟨cwd, here, walk⟩ unlinked

theorem Running.holds_makeNode (path : Option (List UInt8)) {call : Call} {type major minor : BitVec 16}
    (makes : ∀ given, path = some given → Makes call given type) (known : BlockType type ∨ PlainType type)
    (o : type ≠ T_SFILE ∧ type ≠ T_FILE) : Holds (makeNode p path type major minor) kern
      fun _ => Advances R (Act R kern p call) kern := by
  have types := Act.keepsTypes R kern p call
  unfold makeNode
  rw [holds_bind]
  refine run.sound.holds_begin run.idle trivial fun disk begun op act => ?_
  cases path with
  | none =>
    exact run.holds_finish types begun op act ((Fades.refl _ _).changes fun _ => .same) rfl
  | some path =>
    rw [holds_bind]
    refine holds_cwd trivial fun cwd here => ?_
    have referenced := run.referenced alive here
    rw [holds_bind, holds_onFs]
    refine act.holds_create referenced known (fun _ _ _ => trivial) trivial
      (fun fs2 act2 fades refs => ?_) (fun ip fs2 walking valid _ => ?_)
      fun ip fs2 d name k walk changes act2 refs live valid _ => ?_
    · exact run.holds_finish types begun op act2 (fades.changes fun _ => .same) refs
    · rw [holds_bind, holds_onFs]
      refine walking.holds_iunlockput (fun _ _ _ => trivial) valid fun fs3 act3 fades refs => ?_
      exact run.holds_finish types begun op act3 (fades.changes fun _ => .same) refs
    · rw [holds_bind, holds_onFs]
      refine act2.holds_iunlockput valid trivial trivial fun fs3 put act3 => ?_
      have refs3 : fs2.refs - Pi.single ip 1 = kern.fs.refs := by
        rw [refs]
        exact add_sub_cancel_right _ _
      rw [image_alike begun] at walk
      have fades := put.fades
      rw [refs3] at fades
      refine run.holds_finish types begun op act3
        (Changes.fades (changes.imp fun pre after faded made => ?_) fades) (put.refs.trans refs3)
      refine .made (makes path rfl) ⟨cwd, here, walk⟩
        ⟨fun small => absurd small o.1, fun file => absurd file o.2⟩ (fun strictly => ?_) made
      rw [act.not_faded strictly faded, image_alike begun]

end

section

variable (sound : Sound R fs) (referenced : 0 < (fs.icache ip).ref) (valid : (fs.icache ip).valid = true)

include sound referenced valid

theorem Sound.holds_loaduvm (offset : BitVec 32) (sz fuel i : Nat) :
    Holds (loaduvm ip offset sz fuel i) fs fun _ fs' => fs' = fs := by
  induction fuel generalizing i with
  | zero => exact .pure rfl
  | succ fuel ih =>
    simp only [loaduvm, holds_ite, holds_bind, holds_pure]
    refine ⟨fun _ => (sound.holds_readi referenced valid).conseq fun _ fs' same => ?_, fun _ => trivial⟩
    subst same
    exact ⟨fun _ => ih _, fun _ => rfl⟩

theorem Sound.holds_loadHeaders (mem : ExecMemory) (left i : Nat) (off : BitVec 32) :
    Holds (loadHeaders ip mem left i off) fs fun _ fs' => fs' = fs := by
  induction left generalizing i off with
  | zero => exact .pure rfl
  | succ left ih =>
    simp only [loadHeaders, holds_ite, holds_bind, holds_pure]
    refine (sound.holds_readi referenced valid).conseq fun _ fs' same => ?_
    subst same
    refine ⟨fun _ => rfl, fun _ => ⟨fun _ => ih _ _, fun _ => ⟨fun _ => rfl, fun _ => ⟨fun _ => rfl,
      fun _ => ⟨fun _ => rfl, fun _ => ⟨fun _ => rfl, fun _ => ?_⟩⟩⟩⟩⟩⟩
    refine (sound.holds_loaduvm referenced valid _ _ _ _).conseq fun _ fs' same => ?_
    subst same
    exact ⟨fun _ => ih _ _, fun _ => rfl⟩

theorem Sound.holds_loadImage (mem : ExecMemory) : Holds (loadImage ip mem) fs fun _ fs' => fs' = fs := by
  simp only [loadImage, holds_ite, holds_bind, holds_pure]
  refine (sound.holds_readi referenced valid).conseq fun _ fs' same => ?_
  subst same
  exact ⟨fun _ => rfl, fun _ => ⟨fun _ => rfl, fun _ => ⟨fun _ => rfl, fun _ =>
    sound.holds_loadHeaders referenced valid _ _ _ _⟩⟩⟩

end

section

variable (run : Running R kern)

include run

theorem Running.holds_sysExec (alive : (kern.ptable p).live) (path : Option (List UInt8))
    (mem : ExecMemory) : Holds (sysExec p path mem) kern
      fun _ => Advances R (Act R kern p (.sysExec path mem)) kern := by
  have types := Act.keepsTypes R kern p (.sysExec path mem)
  cases path with
  | none => exact .pure (run.stay fun _ => .same)
  | some path =>
    rw [sysExec, exec]
    refine run.holds_begin_cwd alive fun disk cwd begun op act here referenced => ?_
    rw [holds_bind, holds_onFs]
    refine act.holds_namei referenced (fun _ _ _ => trivial) (.inl trivial)
      (fun fs2 act2 fades refs => ?_) fun ip name fs2 walking _ _ => ?_
    · exact run.holds_finish types begun op act2 (fades.changes fun _ => .same) refs
    · rw [holds_bind, holds_onFs]
      refine walking.holds_ilock (fun _ _ _ => trivial) (fun _ => trivial) fun fs3 took walking3 => ?_
      rw [holds_bind, holds_onFs]
      refine (walking3.active.holds_loadImage walking3.referenced took.loaded mem).conseq fun loaded fs4 same => ?_
      subst same
      rw [holds_bind, holds_onFs]
      refine walking3.holds_iunlockput (fun _ _ _ => trivial) took.loaded fun fs4 act4 fades refs => ?_
      exact run.holds_finish types begun op act4 (fades.changes fun _ => .same) refs

theorem Running.changed {change : (Nat → Node) → (Nat → Node) → Prop} {disk disk5 : Disk} {fs4 fs5 : Fs}
    {old : Slot} (types : KeepsTypes change) (none : ∀ img, change img img)
    (alive : (kern.ptable p).live) (here : (kern.ptable p).cwd = some old)
    (begun : kern.fs.disk.Alike disk) (op : disk.log.outstanding = kern.fs.disk.log.outstanding + 1)
    (walking : Walking R kern.fs.refs (kern.fs.setDisk disk) fs4 ip)
    (dir : IsDir (fs4.nodeAt ip).type) (put : Put fs4 fs5 old) (ended : fs5.disk.Alike disk5)
    (closed : disk5.log.outstanding = fs5.disk.log.outstanding - 1)
    (sound : Sound R (fs5.setDisk disk5)) {proc : Proc} (still : proc.live) (moved : proc.cwd = some ip) :
    Advances R change kern ((kern.setFs (fs5.setDisk disk5)).setProc p proc) := by
  have referenced := run.referenced alive here
  have refs5 : fs5.refs = kern.fs.refs + Pi.single ip 1 - Pi.single old 1 := by
    rw [put.refs, walking.refs]
  have live : 0 < (fs5.icache ip).ref := by
    by_cases same : ip = old
    · have val := congrFun refs5 ip
      rw [same, add_sub_cancel_right] at val
      rw [same]
      exact referenced.trans_eq val.symm
    · rw [put.other ip same]
      exact walking.referenced
  have inum : (fs5.icache ip).inum = (fs4.icache ip).inum := by
    by_cases same : ip = old
    · rw [same, put.inum]
    · rw [put.other ip same]
  have fades : Fades (kern.fs.refs ⊓ fs5.refs) (kern.fs.setDisk disk) fs5 := by
    refine (walking.fades.anti fun sl both => lt_of_lt_of_le both (min_le_left _ _)).trans
      (put.fades.anti fun sl both => ?_)
    rw [← put.refs]
    exact lt_of_lt_of_le both (min_le_right _ _)
  refine run.next_balanced types sound ?_ run.tidy ?_ (fun f sl uses => .inr ⟨uses, rfl⟩) fun q sl uses => ?_
  · exact (fades.changes none).evolves begun op ended closed fun sl pre after => lt_min pre after
  · rw [excess_setProc, excess_setFs, setFs_ptable, Proc.claims_of_live alive here, Proc.claims_of_live still moved]
    have refs6 : (fs5.setDisk disk5).refs = fs5.refs := rfl
    rw [refs6, refs5]
    abel
  · by_cases same : q = p
    · subst same
      rw [setProc_same] at uses
      have ent : ip = sl := Option.some.inj (moved.symm.trans uses.2)
      subst ent
      refine .inl ?_
      rw [setProc_fs, setFs_fs, Fs.nodeAt, image_alike ended, setDisk_icache, inum,
        put.image_other walking.active.toCoherent live]
      exact dir
    · rw [setProc_ne _ same] at uses
      exact .inr uses

theorem Running.holds_sysChdir (alive : (kern.ptable p).live) (path : Option (List UInt8)) :
    Holds (sysChdir p path) kern fun _ => Advances R (Act R kern p (.sysChdir path)) kern := by
  have types := Act.keepsTypes R kern p (.sysChdir path)
  unfold sysChdir
  rw [holds_bind]
  refine run.sound.holds_begin run.idle trivial fun disk begun op act => ?_
  cases path with
  | none =>
    exact run.holds_finish types begun op act ((Fades.refl _ _).changes fun _ => .same) rfl
  | some path =>
    rw [holds_bind]
    refine holds_cwd trivial fun old here => ?_
    have referenced := run.referenced alive here
    rw [holds_bind, holds_onFs]
    refine act.holds_namei referenced (fun _ _ _ => trivial) (.inl trivial)
      (fun fs2 act2 fades refs => ?_) fun ip name fs2 walking _ _ => ?_
    · exact run.holds_finish types begun op act2 (fades.changes fun _ => .same) refs
    rw [holds_bind, holds_onFs]
    refine walking.holds_ilock (fun _ _ _ => trivial) (fun _ => trivial) fun fs3 took walking3 => ?_
    rw [holds_bind, holds_onFs, holds_inode, holds_ite, not_isDir_iff]
    refine ⟨fun _ => ?_, fun dir => ?_⟩
    · rw [holds_bind, holds_onFs]
      refine walking3.holds_iunlockput (fun _ _ _ => trivial) took.loaded fun fs4 act4 fades refs => ?_
      exact run.holds_finish types begun op act4 (fades.changes fun _ => .same) refs
    · rw [holds_bind, holds_onFs]
      refine walking3.active.holds_iunlock trivial fun fs4 touched _ sound4 => ?_
      have walking4 := walking3.touched touched sound4
      rw [holds_bind, holds_onFs]
      have held : 0 < (fs4.icache old).ref :=
        pos_of_base walking4.refs (single_nonneg ip) old referenced
      refine walking4.active.holds_iput held trivial fun fs5 put act5 => ?_
      rw [holds_bind]
      refine act5.toSound.holds_end trivial fun disk5 ended closed sound5 => ?_
      rw [holds_bind, holds_modifyProc, holds_pure]
      have directory : IsDir (fs4.nodeAt ip).type := by
        rw [Fs.nodeAt, touched.image, touched.inum, (walking3.active.image_slot walking3.referenced took.loaded).1]
        exact not_not.mp dir
      exact run.changed types (fun _ => .same) alive here begun op walking4 directory put ended closed sound5 alive rfl

end

end

end Xv6
