import Xv6.FileCalls

/-! `sys_open`, and what every call does to the state between calls. -/

namespace Xv6

open Exec Kernel IsDir Fs

section

variable {img : Nat → Node} {up : Bool} {i d d' : Nat} {path name name' : List UInt8}

theorem Node.Finds.unique {node : Node} {k k' j j' : Nat} (fst : node.Finds name k j)
    (snd : node.Finds name k' j') : j = j' := by
  have eq : k = k' := by
    rcases lt_trichotomy k k' with less | eq | more
    · exact absurd fst.1 (snd.2 k less j)
    · exact eq
    · exact absurd snd.1 (fst.2 k' more j')
  subst eq
  have ent := fst.1.symm.trans snd.1
  simp only [Option.some.injEq, Prod.mk.injEq, true_and] at ent
  exact ent

theorem Walk.unique (fst : Walk img up i path d name) (snd : Walk img up i path d' name') : d = d' ∧ name = name' := by
  induction fst with
  | done ended _ =>
    cases snd with
    | done => exact ⟨rfl, rfl⟩
    | last some_ => rw [ended] at some_; cases some_
    | next some_ => rw [ended] at some_; cases some_
  | last elem _ here =>
    cases snd with
    | done ended => rw [elem] at ended; cases ended
    | last elem' _ _ =>
      rw [elem] at elem'
      cases elem'
      exact ⟨rfl, rfl⟩
    | next elem' _ beyond =>
      rw [elem] at elem'
      cases elem'
      exact absurd here beyond
  | next elem _ beyond hit _ ih =>
    cases snd with
    | done ended => rw [elem] at ended; cases ended
    | last elem' _ here =>
      rw [elem] at elem'
      cases elem'
      exact absurd here beyond
    | next elem' _ _ hit' rest =>
      rw [elem] at elem'
      cases elem'
      have eq := hit.unique hit'
      subst eq
      exact ih rest

theorem Walk.of_faded {safe : Nat → Prop} {img' : Nat → Node} (faded : Faded safe img img')
    (walk : Walk img' up i path d name) : Walk img up i path d name :=
  walk.congr fun j dir => by
    rw [faded.same_of_typed (blockType dir).ne_zero]
    exact ⟨rfl, rfl⟩

end

section

variable {R : Rules} {fs : Fs} {cwd : Slot} {stops : Stop → Prop} {path : List UInt8}
  {post : Option Slot → Fs → Prop} {small : Bool}

theorem Active.holds_openExisting {omode : BitVec 32} (act : Active R fs)
    (held : 0 < (fs.icache cwd).ref) (lax : Lenient stops) (untyped : stops noType)
    (none : ∀ fs', Active R fs' → Fades fs.refs fs fs' → fs'.refs = fs.refs → post none fs')
    (hit : ∀ ip fs', Walking R fs.refs fs fs' ip → (fs'.icache ip).valid = true →
      (IsDir (fs'.nodeAt ip).type → omode = BitVec.ofNat 32 O_RDONLY) → post (some ip) fs') :
    Holds (openExisting cwd path omode) fs post stops := by
  rw [openExisting, holds_bind]
  refine act.holds_namei held lax (.inl untyped) (fun fs' act' fades refs => .pure (none fs' act' fades refs))
    fun ip name fs1 walk _ _ => ?_
  rw [holds_bind]
  refine walk.holds_ilock lax (fun _ => untyped) fun fs2 took walk2 => ?_
  rw [holds_bind, holds_inode, holds_ite]
  refine ⟨fun _ => ?_, fun fine => .pure (hit ip fs2 walk2 took.loaded fun dir => ?_)⟩
  · rw [holds_bind]
    exact walk2.holds_iunlockput lax took.loaded fun fs3 act3 fades refs =>
      .pure (none fs3 act3 fades refs)
  · by_contra o
    rw [nodeAt, (walk2.active.image_slot walk2.referenced took.loaded).1] at dir
    exact fine ⟨dir, o⟩

def createdType (small : Bool) : BitVec 16 := if small then T_SFILE else T_FILE

theorem createdType_known (small : Bool) : BlockType (createdType small) ∨ PlainType (createdType small) := by
  cases small <;> decide

theorem createdType_file : ¬IsDir (createdType small) := by
  cases small <;> decide

theorem type_of_reusable {wanted type : BitVec 16} (reused : reusable wanted type = true) : type = wanted := by
  rw [reusable, Bool.and_eq_true, beq_iff_eq] at reused
  exact reused.2

theorem Active.holds_openCreate (act : Active R fs) (held : 0 < (fs.icache cwd).ref)
    (lax : Lenient stops) (untyped : stops noType)
    (none : ∀ dp fs', Active R fs' → Fades fs.refs fs fs' → fs'.refs = fs.refs + Pi.single dp 1 →
      IsDir (fs'.nodeAt dp).type → post none fs')
    (hit : ∀ dp ip fs' change, KeepsTypes change → (change = Eq ∨ ∃ d name k i,
        Walk fs.image true (fs.origin cwd path) path d name ∧
        Admits (fs.image d).type (createdType small) ∧ change = Made d name (createdType small) k i) →
      Active R fs' → Changes fs.refs change fs fs' →
      fs'.refs = fs.refs + Pi.single dp 1 + Pi.single ip 1 → IsDir (fs'.nodeAt dp).type →
      (fs'.icache ip).valid = true → ¬IsDir (fs'.nodeAt ip).type → 0 < (fs'.icache ip).ref →
      post (some ip) fs') : Holds (openCreate cwd path small) fs post stops := by
  rw [openCreate, nameiparent, holds_bind]
  refine act.holds_namex true held lax (.inl untyped) (fun fs' _ _ _ => holds_halt.mpr lax.other)
    fun dp name fs1 walking walk up _ => ?_
  obtain ⟨valid, dir⟩ := up rfl
  have refd1 : 0 < (fs1.icache cwd).ref := pos_of_base walking.refs (single_nonneg dp) cwd held
  have origin : fs1.origin cwd path = fs.origin cwd path := by
    rw [Fs.origin, Fs.origin, walking.fades.inum cwd held]
  have node : fs1.nodeAt dp = fs.image (fs1.icache dp).inum :=
    walking.fades.image.same_of_typed (blockType dir).ne_zero
  have type : (fs1.icache dp).dinode.type = (fs.image (fs1.icache dp).inum).type := by
    rw [← (walking.active.image_slot walking.referenced valid).1, ← node]
    rfl
  have more : ∀ sl, 0 < fs.refs sl → 0 < fs1.refs sl :=
    pos_of_base walking.refs (single_nonneg dp)
  have creating : Admits (fs1.icache dp).dinode.type (createdType small) →
      Holds (create cwd path (createdType small) 0 0) fs1 post stops := by
    intro admits
    rw [type] at admits
    refine walking.active.holds_create refd1 (createdType_known small) lax untyped
      (fun fs2 act2 fades refs => ?_) (fun ip fs2 walking2 loaded reused => ?_)
      fun ip fs2 d name' k walk' changes act2 refs live loaded made => ?_
    · have kept : Changes fs1.refs Eq fs1 fs2 := fades.changes fun _ => rfl
      exact none dp fs2 act2 (walking.fades.trans (fades.anti more)) (refs.trans walking.refs)
        (kept.directory keepsTypes_eq walking.referenced dir)
    · have kept : Changes fs1.refs Eq fs1 fs2 := walking2.fades.changes fun _ => rfl
      refine hit dp ip fs2 Eq keepsTypes_eq (.inl rfl) walking2.active
        ((walking.fades.trans (walking2.fades.anti more)).changes fun _ => rfl) ?_
        (kept.directory keepsTypes_eq walking.referenced dir) loaded ?_ walking2.referenced
      · rw [walking2.refs, walking.refs]
      · rw [type_of_reusable reused]
        exact createdType_file
    · have eq : d = (fs1.icache dp).inum := by
        rw [origin] at walk'
        exact ((walk'.of_faded walking.fades.image).unique walk).1
      have types := Made.keepsTypes d name' (createdType small) k (fs2.icache ip).inum
      refine hit dp ip fs2 _ types (.inr ⟨d, name', k, _, ?_, ?_, rfl⟩) act2
        (walking.fades.then_changes (changes.anti more)) ?_
        (changes.directory types walking.referenced dir) loaded ?_ live
      · rw [← origin]
        exact walk'.of_faded walking.fades.image
      · rw [eq]
        exact admits
      · rw [refs, walking.refs]
      · rw [made]
        exact createdType_file
  have refused : post Option.none fs1 := none dp fs1 walking.active walking.fades walking.refs dir
  rw [holds_bind, holds_inode]
  cases small with
  | true =>
    rw [if_pos rfl, holds_ite, holds_pure]
    refine ⟨fun _ => refused, fun fits => creating ⟨fun _ => not_not.mp fits, fun file => ?_⟩⟩
    exact absurd file (by decide)
  | false =>
    rw [if_neg (by decide), holds_ite, holds_pure]
    refine ⟨fun _ => refused, fun fits => creating ⟨fun file => ?_, fun _ => fits⟩⟩
    exact absurd file (by decide)

end

structure Opening (R : Rules) (change : (Nat → Node) → (Nat → Node) → Prop) (kern : Kernel)
    (disk : Disk) (extra : Slot → Int) (fs : Fs) : Prop where
  begun : kern.fs.disk.Alike disk
  counted : disk.log.outstanding = kern.fs.disk.log.outstanding + 1
  active : Active R fs
  changes : Changes kern.fs.refs change (kern.fs.setDisk disk) fs
  nonneg : ∀ sl, 0 ≤ extra sl
  directory : ∀ sl, 0 < extra sl → IsDir (fs.nodeAt sl).type

section

variable {R : Rules} {k : Kernel} {p : ProcSlot} {f : FileSlot}
  {change : (Nat → Node) → (Nat → Node) → Prop} {disk : Disk} {extra : Slot → Int} {fs : Fs} {ip : Slot}

theorem Running.refs_nonneg (run : Running R k) (ip : Slot) : 0 ≤ k.fs.refs ip := by
  have files := fileClaims_nonneg k ip
  have procs := procClaims_nonneg k ip
  have least := run.surplus ip
  rw [refs_eq]
  omega

variable {fs3 : Fs} {disk3 : Disk} {k' : Kernel}

theorem Running.abandon (run : Running R k) (types : KeepsTypes change)
    (opening : Opening R change k disk extra fs) (fades : Fades (k.fs.refs + extra) fs fs3)
    (ended : fs3.disk.Alike disk3) (closed : disk3.log.outstanding = fs3.disk.log.outstanding - 1)
    (sound : Sound R (fs3.setDisk disk3)) (eq : k'.fs = fs3.setDisk disk3)
    (tidy : FilesTidy k') (excess : k'.excess = k.excess + extra)
    (files : ∀ f ip, (k'.ftable f).uses ip → (k.ftable f).uses ip ∧ (k'.ftable f).writable = (k.ftable f).writable)
    (homes : ∀ p ip, (k'.ptable p).uses ip → (k.ptable p).uses ip) : Advances R change k k' := by
  have more : ∀ ip, 0 < k.fs.refs ip → 0 < (k.fs.refs + extra) ip := fun ip counted =>
    Int.add_pos_of_pos_of_nonneg counted (opening.nonneg ip)
  have kept : Changes (k.fs.refs + extra) Eq fs fs3 := fades.changes fun _ => rfl
  refine run.next types (eq ▸ sound) ?_ tidy excess (fun ip => ⟨opening.nonneg ip, fun new => ?_⟩)
    (fun f ip uses => .inr (files f ip uses)) fun p ip uses => .inr (homes p ip uses)
  · rw [eq]
    exact (opening.changes.fades (fades.anti more)).evolves opening.begun opening.counted ended closed
      fun ip pre _ => pre
  · rw [eq, nodeAt, image_alike ended]
    refine kept.directory keepsTypes_eq ?_ (opening.directory ip new)
    exact Int.add_pos_of_nonneg_of_pos (run.refs_nonneg ip) new

theorem Running.holds_giveBack {k1 : Kernel} (run : Running R k)
    (types : KeepsTypes change) (opening : Opening R change k disk extra fs)
    (refs : fs.refs = k.fs.refs + extra + Pi.single ip 1) (valid : (fs.icache ip).valid = true)
    (eq : k1.fs = fs) (files : ∀ f sl, (k1.ftable f).uses sl → (k.ftable f).uses sl ∧
      (k1.ftable f).writable = (k.ftable f).writable) (homes : ∀ p sl, (k1.ptable p).uses sl → (k.ptable p).uses sl) :
    Holds (do onFs (iunlockput ip); kernelEndOp; return -1 : KernelM Int) k1
      fun _ k' => k'.excess = k.excess + extra → FilesTidy k' → Advances R change k k' := by
  subst eq
  rw [holds_bind, holds_onFs]
  refine opening.active.holds_iunlockput valid trivial trivial fun fs3 put act3 => ?_
  rw [holds_bind]
  refine act3.toSound.holds_end trivial fun disk3 ended closed sound3 => .pure fun excess tidy => ?_
  have base : k1.fs.refs - Pi.single ip 1 = k.fs.refs + extra := by
    rw [refs]
    exact add_sub_cancel_right _ _
  exact run.abandon types opening (base ▸ put.fades) ended closed sound3 rfl tidy excess files homes

theorem holds_fileclose_idle (ref : (k.ftable f).ref = 1) (idle : (k.ftable f).type ≠ .inode) :
    Holds (fileclose f) k fun _ k' => k' = k.setFile f { k.ftable f with ref := 0, type := .none } := by
  simp only [fileclose, holds_bind, holds_file]
  rw [holds_ite, holds_panic, holds_ite, holds_modifyFile, holds_bind, holds_modifyFile, holds_onlyIf]
  exact ⟨fun _ => trivial, fun _ => ⟨fun more => absurd more (by omega), fun _ =>
    ⟨fun inode => absurd inode idle, fun _ => rfl⟩⟩⟩

theorem Running.install (run : Running R k) (types : KeepsTypes change)
    (opening : Opening R change k disk extra fs) (touched : Touched fs fs3 ip)
    (valid : (fs.icache ip).valid = true) (ended : fs3.disk.Alike disk3)
    (closed : disk3.log.outstanding = fs3.disk.log.outstanding - 1)
    (sound : Sound R (fs3.setDisk disk3)) (eq : k'.fs = fs3.setDisk disk3)
    (tidy : FilesTidy k') (excess : k'.excess = k.excess + extra)
    (others : ∀ g, g ≠ f → k'.ftable g = k.ftable g) (place : (k'.ftable f).ip = ip)
    (writable : (k'.ftable f).writable = true → ¬IsDir (fs.nodeAt ip).type)
    (homes : ∀ p sl, (k'.ptable p).uses sl → (k.ptable p).uses sl) : Advances R change k k' := by
  have node : ∀ sl, (fs3.setDisk disk3).nodeAt sl = fs.nodeAt sl := fun sl => by
    rw [nodeAt, image_alike ended, touched.image, setDisk_icache, (touched.same sl).2.1]
    rfl
  refine run.next types (eq ▸ sound) ?_ tidy excess (fun sl => ⟨opening.nonneg sl, fun new => ?_⟩)
    (fun g sl uses => ?_) fun p sl uses => .inr (homes p sl uses)
  · rw [eq]
    exact (opening.changes.fades (touched.fades _)).evolves opening.begun opening.counted ended closed
      fun sl pre _ => pre
  · rw [eq, node]
    exact opening.directory sl new
  · by_cases here : g = f
    · subst here
      have ent : ip = sl := place.symm.trans uses.2.2
      subst ent
      refine .inl ⟨?_, fun may => ?_⟩
      · rw [eq]
        exact touched.valid valid
      · rw [eq, node]
        exact writable may
    · rw [others g here] at uses ⊢
      exact .inr ⟨uses, rfl⟩

theorem Running.holds_openFile {omode : BitVec 32} (run : Running R k)
    (types : KeepsTypes change) (opening : Opening R change k disk extra fs)
    (refs : fs.refs = k.fs.refs + extra + Pi.single ip 1) (valid : (fs.icache ip).valid = true)
    (readOnly : IsDir (fs.nodeAt ip).type → omode = BitVec.ofNat 32 O_RDONLY) :
    Holds (openFile p ip omode) (k.setFs fs) fun _ => Advances R change k := by
  have total : (k.setFs fs).excess = k.excess + extra + Pi.single ip 1 := by
    rw [excess_setFs, refs]
    abel
  have tidy1 : FilesTidy (k.setFs fs) := run.tidy
  have spec : Holds (openFile p ip omode) (k.setFs fs) fun _ k' =>
      k'.excess = k.excess + extra → FilesTidy k' → Advances R change k k' := by
    unfold openFile
    refine filealloc_spec.bind ?_
    rintro hit k1 (⟨rfl, rfl⟩ | ⟨f, file, rfl, free, ref, type, rfl⟩)
    · exact run.holds_giveBack types opening refs valid rfl (fun _ _ uses => ⟨uses, rfl⟩) fun _ _ uses => uses
    · have idle : file.type ≠ .inode := by
        rw [type]
        exact (run.tidy f).2 free
      have unused : ∀ g sl, (((k.setFs fs).setFile f file).ftable g).uses sl →
          (k.ftable g).uses sl ∧ (((k.setFs fs).setFile f file).ftable g).writable = (k.ftable g).writable := by
        intro g sl uses
        by_cases here : g = f
        · rw [here, setFile_same] at uses
          exact absurd uses.2.1 idle
        · rw [setFile_ne _ here] at uses ⊢
          exact ⟨uses, rfl⟩
      refine holds_fdalloc.bind ?_
      rintro fd k2 ⟨sheds, fs2, ftable⟩
      have ent : k2.ftable f = file := by rw [ftable, setFile_same]
      have homes : ∀ p sl, (k2.ptable p).uses sl → (k.ptable p).uses sl := sheds.homes
      cases fd with
      | none =>
        refine (holds_fileclose_idle (by rw [ent, ref]) (by rw [ent]; exact idle)).bind fun _ k3 closed => ?_
        subst closed
        refine run.holds_giveBack types opening refs valid fs2 (fun g sl uses => ?_) homes
        by_cases here : g = f
        · rw [here, setFile_same] at uses
          exact absurd uses.1 (lt_irrefl _)
        · rw [setFile_ne _ here, ftable] at uses ⊢
          exact unused g sl uses
      | some fd =>
        have sound2 : Sound R k2.fs := fs2 ▸ opening.active.toSound
        rw [holds_bind, holds_onFs]
        refine sound2.holds_iunlock trivial fun fs3 touched _ sound3 => ?_
        rw [holds_bind]
        refine Sound.holds_end sound3 trivial fun disk3 ended closed sound4 => ?_
        rw [holds_bind, holds_modifyFile, holds_pure]
        have eq : k2.fs = fs := fs2
        rw [eq] at touched
        refine fun excess tidy => run.install (f := f) types opening touched valid ended closed
          sound4 rfl tidy excess (fun g o => ?_) ?_ (fun writable dir => ?_) homes
        · rw [setFile_ne _ o, setFs_ftable, setFs_ftable, ftable, setFile_ne _ o]
          rfl
        · rw [setFile_same]
        · have flags : (hasFlag (BitVec.ofNat 32 O_RDONLY) O_WRONLY ||
              hasFlag (BitVec.ofNat 32 O_RDONLY) O_RDWR) = false := by decide
          rw [setFile_same, readOnly dir] at writable
          exact absurd (writable.symm.trans flags) (by decide)
  refine ((openFile_excess p ip omode tidy1).total spec).conseq ?_
  rintro _ k' ⟨⟨excess, tidy⟩, advances⟩
  refine advances ?_ tidy
  rw [excess, total]
  exact add_neg_cancel_right _ _

theorem directory_of_single {dp : Slot} (dir : IsDir (fs.nodeAt dp).type) (ip : Slot)
    (more : 0 < (Pi.single dp 1 : Slot → Int) ip) : IsDir (fs.nodeAt ip).type := by
  by_cases eq : ip = dp
  · rwa [eq]
  · rw [Pi.single_eq_of_ne eq] at more
    exact absurd more (lt_irrefl _)

theorem Running.holds_sysOpen (run : Running R k) (alive : (k.ptable p).live)
    (path : Option (List UInt8)) (omode : Option (BitVec 32)) : Holds (sysOpen p path omode) k
      fun _ => Advances R (Act R k p (.sysOpen path omode)) k := by
  have types := Act.keepsTypes R k p (.sysOpen path omode)
  unfold sysOpen
  split
  · rename_i path mode
    refine run.holds_begin_cwd alive fun disk cwd begun opened act here held => ?_
    rw [holds_bind, holds_onFs]
    have img := image_alike begun
    by_cases creates : hasFlag mode O_CREATE = true
    · rw [if_pos creates]
      refine act.holds_openCreate held (fun _ _ _ => trivial) trivial (fun dp fs2 act2 fades refs dir => ?_)
        fun dp ip fs2 change kept done act2 changes refs dir valid file live => ?_
      · have opening : Opening R (Act R k p (.sysOpen (some path) (some mode))) k disk
            (Pi.single dp 1) fs2 := ⟨begun, opened, act2, fades.changes fun _ => .same, single_nonneg dp,
          directory_of_single dir⟩
        rw [holds_bind]
        refine act2.toSound.holds_end trivial fun disk3 ended closed sound3 => .pure ?_
        refine run.abandon types opening (.refl _ _) ended closed sound3 rfl run.tidy ?_
          (fun _ _ uses => ⟨uses, rfl⟩) fun _ _ uses => uses
        have refs3 : (fs2.setDisk disk3).refs = k.fs.refs + Pi.single dp 1 := refs
        rw [setFs_setFs, setFs_setFs, excess_setFs, setFs_fs, refs3, add_sub_cancel_left]
      · have acts : Changes k.fs.refs (Act R k p (.sysOpen (some path) (some mode))) (k.fs.setDisk disk) fs2 := by
          refine changes.imp fun pre after faded changed => ?_
          rcases done with rfl | ⟨d, name, _, i, walk, admits, rfl⟩
          · rw [← (changed : pre = after)]
            exact .same
          · rw [img] at walk admits
            refine .made (.sysOpen creates) ⟨cwd, here, walk⟩ ?_ (fun strictly => ?_) changed
            · rw [faded.same_of_typed (blockType changed.directory).ne_zero, img]
              exact admits
            · rw [act.not_faded strictly faded, img]
        have opening : Opening R (Act R k p (.sysOpen (some path) (some mode))) k disk (Pi.single dp 1) fs2 :=
          ⟨begun, opened, act2, acts, single_nonneg dp, directory_of_single dir⟩
        exact run.holds_openFile types opening refs valid fun dir => absurd dir file
    · rw [if_neg creates]
      refine act.holds_openExisting held (fun _ _ _ => trivial) trivial
        (fun fs2 act2 fades refs => ?_) fun ip fs2 walking valid readOnly => ?_
      · exact run.holds_finish types begun opened act2 (fades.changes fun _ => .same) refs
      · have opening : Opening R (Act R k p (.sysOpen (some path) (some mode))) k disk 0
            fs2 := ⟨begun, opened, walking.active, walking.fades.changes fun _ => .same,
          fun _ => le_rfl, fun _ more => absurd more (lt_irrefl _)⟩
        refine run.holds_openFile types opening ?_ valid readOnly
        rw [walking.refs, add_zero]
        rfl
  · exact .pure (run.stay fun _ => .same)

end

variable {R : Rules} {k : Kernel}

theorem Running.holds_sysMknod {p : ProcSlot} (run : Running R k)
    (alive : (k.ptable p).live) (path : Option (List UInt8)) (major minor : Option (BitVec 32)) :
    Holds (sysMknod p path major minor) k fun _ => Advances R (Act R k p (.sysMknod path major minor)) k := by
  unfold sysMknod
  split
  · refine run.holds_makeNode alive path ?_ (by decide) (by decide)
    rintro _ rfl
    exact .sysMknod
  · refine run.holds_makeNode alive none (fun _ given => ?_) (by decide) (by decide)
    cases given

def Call.LeavesSmall (kern : Kernel) (step : ProcSlot × Call) : Prop :=
  match step.2 with
  | .sysWrite fd _ _ => ∀ f, kern.Describes step.1 fd f → (kern.ftable f).type = .inode →
      (kern.fs.nodeAt (kern.ftable f).ip).type ≠ T_SFILE
  | _ => True

theorem Running.advances {k' : Kernel} {step : ProcSlot × Call} (run : Running R k) (blank : R.blank)
    (leaves : Call.LeavesSmall k step) (next : Call.Next k step k') : Advances R (Act R k step.1 step.2) k k' := by
  obtain ⟨p, call⟩ := step
  obtain ⟨alive, ran⟩ := next
  cases call with
  | sysOpen path omode => exact (run.holds_sysOpen alive path omode).final ran
  | sysClose fd => exact (run.holds_sysClose fd).final ran
  | sysDup fd => exact (run.holds_sysDup fd).final ran
  | sysRead fd n => exact (run.holds_sysRead fd n).final ran
  | sysWrite fd buffer n => exact (run.holds_sysWrite fd buffer n leaves).final ran
  | sysLink old new => exact (run.holds_sysLink alive blank old new).final ran
  | sysUnlink path => exact (run.holds_sysUnlink alive blank path).final ran
  | sysMkdir path =>
    have makes : ∀ given, path = some given → Makes (.sysMkdir path) given T_DIR := by
      rintro _ rfl
      exact .sysMkdir
    exact (run.holds_makeNode alive path makes (by decide) (by decide)).final ran
  | sysMknod path major minor => exact (run.holds_sysMknod alive path major minor).final ran
  | mkSmallFilesdir path =>
    have makes : ∀ given, path = some given → Makes (.mkSmallFilesdir path) given T_SDIR := by
      rintro _ rfl
      exact .mkSmallFilesdir
    exact (run.holds_makeNode alive path makes (by decide) (by decide)).final ran
  | sysChdir path => exact (run.holds_sysChdir alive path).final ran
  | sysExec path memory => exact (run.holds_sysExec alive path memory).final ran
  | fork kstack uvm => exact (run.holds_fork alive kstack uvm).final ran
  | exit => exact (run.holds_exit alive).final ran

end Xv6
