import Xv6.Calls

/-! The calls on open files and on processes, from any state between calls, and what every call
does. -/

namespace Xv6

open Exec Node Function

variable {ip : Slot} {fs : Fs} {post : Unit → Kernel → Prop}
  {change : (Nat → Node) → (Nat → Node) → Prop} {k' : Kernel} {off n m : Nat}

structure Sheds (kern kern' : Kernel) : Prop where
  fewer : kern'.fs.refs ≤ kern.fs.refs
  fades : Fades kern'.fs.refs kern.fs kern'.fs
  files : ∀ f sl, (kern'.ftable f).uses sl →
    (kern.ftable f).uses sl ∧ (kern'.ftable f).writable = (kern.ftable f).writable
  homes : ∀ p sl, (kern'.ptable p).uses sl → (kern.ptable p).uses sl

section

variable {R : Rules} {k k' k'' : Kernel} {p : ProcSlot} {change : (Nat → Node) → (Nat → Node) → Prop}

theorem Sheds.refl (k : Kernel) : Sheds k k :=
  ⟨le_rfl, .refl _ _, fun _ _ uses => ⟨uses, rfl⟩, fun _ _ uses => uses⟩

theorem Sheds.trans (first : Sheds k k') (snd : Sheds k' k'') : Sheds k k'' := by
  refine ⟨snd.fewer.trans first.fewer, ?_, fun f ip uses => ?_, fun p ip uses =>
    first.homes p ip (snd.homes p ip uses)⟩
  · exact (first.fades.anti fun ip counted => lt_of_lt_of_le counted (snd.fewer ip)).trans snd.fades
  · obtain ⟨middle, writable⟩ := snd.files f ip uses
    obtain ⟨s0, writable'⟩ := first.files f ip middle
    exact ⟨s0, writable.trans writable'⟩

theorem Sheds.evolves (sheds : Sheds k k') (none : ∀ img, change img img) : Evolves change k.fs k'.fs :=
  (sheds.fades.changes none).anti fun _ both => lt_of_lt_of_le both (min_le_right _ _)

theorem Running.sheds (run : Running R k) (types : KeepsTypes change)
    (none : ∀ img, change img img) (sound : Sound R k'.fs) (sheds : Sheds k k') (balances : Balances k k') :
    Advances R change k k' :=
  run.next_balanced types sound (sheds.evolves none) balances.2 balances.1
    (fun f ip uses => .inr (sheds.files f ip uses)) fun p ip uses => .inr (sheds.homes p ip uses)

theorem Sheds.of_users (fs : k'.fs = k.fs) (files : ∀ f ip, (k'.ftable f).uses ip →
      (k.ftable f).uses ip ∧ (k'.ftable f).writable = (k.ftable f).writable)
    (homes : ∀ p ip, (k'.ptable p).uses ip → (k.ptable p).uses ip) : Sheds k k' := by
  refine ⟨by rw [fs], ?_, files, homes⟩
  rw [fs]
  exact .refl _ _

theorem Sheds.setFile {f : FileSlot} {file : File} (uses : ∀ ip, file.uses ip → (k.ftable f).uses ip ∧
      file.writable = (k.ftable f).writable) : Sheds k (k.setFile f file) := by
  refine .of_users rfl (fun g ip used => ?_) fun _ _ used => used
  by_cases eq : g = f
  · subst eq
    rw [Kernel.setFile_same] at used ⊢
    exact uses ip used
  · rw [Kernel.setFile_ne _ eq] at used ⊢
    exact ⟨used, rfl⟩

theorem Sheds.setProc {proc : Proc} (uses : ∀ ip, proc.uses ip → (k.ptable p).uses ip) :
    Sheds k (k.setProc p proc) := by
  refine .of_users rfl (fun _ _ used => ⟨used, rfl⟩) fun q ip used => ?_
  by_cases eq : q = p
  · subst eq
    rw [Kernel.setProc_same] at used
    exact uses ip used
  · rwa [Kernel.setProc_ne _ eq] at used

theorem Sheds.release  (refs : fs.refs = k.fs.refs - Pi.single ip 1)
    (fades : Fades fs.refs k.fs fs) : Sheds k (k.setFs fs) := by
  refine ⟨fun o => ?_, fades, fun _ _ uses => ⟨uses, rfl⟩, fun _ _ uses => uses⟩
  rw [Kernel.setFs_fs, refs]
  exact sub_le_self _ (single_nonneg ip o)

theorem Sheds.setFs (refs : fs.refs = k.fs.refs) (fades : Fades k.fs.refs k.fs fs) : Sheds k (k.setFs fs) := by
  refine ⟨?_, ?_, fun _ _ uses => ⟨uses, rfl⟩, fun _ _ uses => uses⟩
  · rw [Kernel.setFs_fs, refs]
  · rw [Kernel.setFs_fs, refs]
    exact fades

theorem Sheds.setProc_idle {proc : Proc} (dead : ¬proc.live) : Sheds k (k.setProc p proc) :=
  .setProc fun _ uses => absurd uses.1 dead

end

section

variable {R : Rules} {k : Kernel} {p : ProcSlot} {f : FileSlot}

theorem Sound.holds_release  (sound : Sound R k.fs)
    (idle : 0 ≤ k.fs.disk.log.outstanding) (held : 0 < (k.fs.icache ip).ref)
    (next : ∀ fs, fs.refs = k.fs.refs - Pi.single ip 1 → Fades fs.refs k.fs fs →
      Sound R fs → post () (k.setFs fs)) : Holds (do kernelBeginOp; onFs (iput ip); kernelEndOp) k post := by
  rw [holds_bind]
  refine sound.holds_begin idle trivial fun disk begun op act => ?_
  rw [holds_bind, holds_onFs]
  refine act.holds_iput held trivial fun fs put act2 => ?_
  refine act2.toSound.holds_end trivial fun disk2 ended closed sound2 => next _ put.refs ?_ sound2
  have fades := put.fades
  rw [← put.refs] at fades
  exact fades.transaction begun op ended closed

theorem Sheds.setProc_same {proc : Proc} (state : proc.state = (k.ptable p).state)
    (cwd : proc.cwd = (k.ptable p).cwd) : Sheds k (k.setProc p proc) :=
  .setProc fun ip uses => by simpa only [Proc.uses, Proc.live, state, cwd] using uses

section

variable (run : Running R k)

include run

theorem Running.setProc_same {proc : Proc} (s : proc.state = (k.ptable p).state)
    (cwd : proc.cwd = (k.ptable p).cwd) : Running R (k.setProc p proc) := by
  have advances : Advances R Eq k (k.setProc p proc) :=
    run.sheds keepsTypes_eq (fun _ => rfl) run.sound
      (.setProc_same s cwd) ⟨excess_setProc_same (Proc.claims_congr s cwd), run.tidy⟩
  exact advances.running

theorem Running.holds_setOfile {fd : Fd} {val : Option FileSlot}
    (next : ∀ k', Running R k' → Sheds k k' → k'.fs = k.fs → k'.posts = k.posts → post () k') :
    Holds (setOfile p fd val) k post := by
  rw [setOfile, holds_modifyProc]
  exact next _ (run.setProc_same rfl rfl) (.setProc_same rfl rfl) rfl (posts_setProc rfl rfl)

theorem Running.holds_fileclose : Holds (fileclose f) k
    fun _ k' => Running R k' ∧ Sheds k k' ∧ k'.ptable = k.ptable := by
  have spec : Holds (fileclose f) k fun _ k' => Sound R k'.fs ∧ Sheds k k' := by
    simp only [fileclose, holds_bind, holds_file]
    rw [holds_ite, holds_panic, holds_ite, holds_modifyFile, holds_bind, holds_modifyFile, holds_onlyIf]
    refine ⟨fun _ => trivial, fun used => ⟨fun others => ⟨run.sound, .setFile fun ip uses => ?_⟩,
      fun last => ⟨fun inode => ?_, fun o => ⟨run.sound, .setFile fun ip uses => ?_⟩⟩⟩⟩
    · exact ⟨⟨by omega, uses.2⟩, rfl⟩
    · have uses : (k.ftable f).uses (k.ftable f).ip := ⟨by omega, inode, rfl⟩
      have held := referenced_of_file (run.surplus _) uses
      have closed : Sheds k (k.setFile f { k.ftable f with ref := 0, type := .none }) :=
        .setFile fun ip uses => absurd uses.1 (lt_irrefl _)
      exact Sound.holds_release run.sound run.idle held fun fs refs fades sound =>
        ⟨sound, closed.trans (.release refs fades)⟩
    · exact absurd uses.1 (lt_irrefl _)
  refine ((fileclose_owing f run.tidy).total spec).conseq ?_
  rintro _ k' ⟨owing, sound, sheds⟩
  have advances : Advances R Eq k k' :=
    run.sheds keepsTypes_eq (fun _ => rfl) sound sheds ⟨owing.excess.trans (add_zero _), owing.tidy⟩
  exact ⟨advances.running, sheds, owing.ptable⟩

theorem Running.holds_shedding {α : Type} {prog : KernelM α} {call : Call} (balances : Holds prog k fun _ => Balances k)
    (spec : Holds prog k fun _ k' => Sound R k'.fs ∧ Sheds k k') :
    Holds prog k fun _ => Advances R (Act R k p call) k :=
  (balances.total spec).conseq fun _ _ done => run.sheds (Act.keepsTypes R k p call)
    (fun _ => .same) done.2.1 done.2.2 done.1

theorem Running.holds_sysClose (fd : Option Int) : Holds (sysClose p fd) k
      fun _ => Advances R (Act R k p (.sysClose fd)) k := by
  refine run.holds_shedding (sysClose_balances fd run.tidy) ?_
  rw [sysClose]
  refine (argfd_spec fd).bind ?_
  rintro hit k1 ⟨rfl, _⟩
  cases hit with
  | none => exact .pure ⟨run.sound, .refl _⟩
  | some ent =>
    rw [holds_bind]
    refine run.holds_setOfile fun k2 run2 sheds _ _ => ?_
    refine run2.holds_fileclose.bind fun _ k3 done => .pure ?_
    exact ⟨done.1.sound, sheds.trans done.2.1⟩

theorem Running.holds_exit (alive : (k.ptable p).live) : Holds (exit p) k fun _ => Advances R (Act R k p .exit) k := by
  refine run.holds_shedding (exit_excess run.tidy alive) ?_
  rw [exit, holds_bind, holds_get, holds_ite, holds_panic, holds_bind]
  refine ⟨fun _ => trivial, fun _ => ?_⟩
  -- closing the files one after the other
  refine (Holds.each (fun k1 => (Running R k1 ∧ Sheds k k1) ∧
    k1.posts = k.posts) ⟨⟨run, .refl _⟩, rfl⟩ fun fd k1 kept => ?_).conseq fun _ k1 kept => ?_
  · obtain ⟨⟨run1, sheds1⟩, posts1⟩ := kept
    rw [holds_bind, holds_proc]
    split
    · exact .pure ⟨⟨run1, sheds1⟩, posts1⟩
    · refine run1.holds_fileclose.bind ?_
      rintro _ k2 ⟨run2, sheds2, ptable⟩
      refine run2.holds_setOfile fun k3 run3 sheds3 _ posts3 => ?_
      exact ⟨⟨run3, (sheds1.trans sheds2).trans sheds3⟩, posts3.trans ((posts_of_ptable ptable).trans posts1)⟩
  · obtain ⟨⟨run1, sheds1⟩, posts1⟩ := kept
    have alive1 : (k1.ptable p).live := by
      have s : (k1.ptable p).state = (k.ptable p).state :=
        congrArg Prod.fst (congrFun posts1 p)
      simpa only [Proc.live, s] using alive
    rw [holds_bind]
    refine run1.sound.holds_begin run1.idle trivial fun disk begun op act => ?_
    rw [holds_bind]
    refine holds_cwd trivial fun cwd here => ?_
    rw [holds_bind, holds_onFs]
    refine act.holds_iput (run1.referenced alive1 here) trivial fun fs put act2 => ?_
    rw [holds_bind]
    refine act2.toSound.holds_end trivial fun disk2 ended closed sound2 => ?_
    have fades := put.fades
    rw [← put.refs] at fades
    have released : Sheds k1 (k1.setFs (fs.setDisk disk2)) :=
      .release put.refs (fades.transaction begun op ended closed)
    rw [holds_bind, holds_modifyProc, holds_bind, holds_modify, holds_modifyProc]
    refine ⟨sound2, sheds1.trans (released.trans (Sheds.of_users rfl (fun _ _ uses => ⟨uses, rfl⟩) ?_))⟩
    intro q ip uses
    by_cases eq : q = p
    · subst eq
      rw [Kernel.setProc_same] at uses
      exact absurd uses.1 (by simp [Proc.live])
    · rw [Kernel.setProc_ne _ eq] at uses
      simp only [Kernel.setProc_ne _ eq] at uses
      split at uses <;> exact uses

end

theorem holds_filedup : Holds (filedup f) k fun _ k' => Sheds k k' ∧ k'.fs = k.fs ∧ k'.ptable = k.ptable := by
  simp only [filedup, holds_bind, holds_file]
  rw [holds_ite, holds_panic, holds_bind, holds_modifyFile, holds_pure]
  exact ⟨fun _ => trivial, fun used => ⟨.setFile fun ip uses => ⟨⟨by omega, uses.2⟩, rfl⟩, rfl, rfl⟩⟩

theorem holds_fdalloc : Holds (fdalloc p f) k fun _ k' => Sheds k k' ∧ k'.fs = k.fs ∧ k'.ftable = k.ftable := by
  simp only [fdalloc, holds_bind, holds_proc]
  split
  · rw [holds_bind, setOfile, holds_modifyProc, holds_pure]
    exact ⟨.setProc_same rfl rfl, rfl, rfl⟩
  · exact .pure ⟨.refl _, rfl, rfl⟩

theorem Running.holds_sysDup (run : Running R k) (fd : Option Int) : Holds (sysDup p fd) k
      fun _ => Advances R (Act R k p (.sysDup fd)) k := by
  refine run.holds_shedding (sysDup_balances fd run.tidy) ?_
  rw [sysDup]
  refine (argfd_spec fd).bind ?_
  rintro hit k1 ⟨rfl, _⟩
  cases hit with
  | none => exact .pure ⟨run.sound, .refl _⟩
  | some ent =>
    refine holds_fdalloc.bind ?_
    rintro fd k2 ⟨sheds, fs, _⟩
    have sound : Sound R k2.fs := fs ▸ run.sound
    cases fd with
    | none => exact .pure ⟨sound, sheds⟩
    | some fd =>
      refine holds_filedup.bind fun _ k3 done => .pure ?_
      exact ⟨done.2.1 ▸ sound, sheds.trans done.1⟩

theorem holds_allocproc (kstack : Bool) (alive : (k.ptable p).live) :
    Holds (allocproc kstack) k fun hit k' => Sheds k k' ∧
      k'.fs = k.fs ∧ ∀ np, hit = some np → np ≠ p ∧ (k'.ptable np).state = .embryo ∧ k'.posts p = k.posts p := by
  rw [allocproc, holds_bind, holds_get]
  split
  · exact .pure ⟨.refl _, rfl, fun _ none => by cases none⟩
  · rename_i np hit
    have unused := List.find?_some hit
    rw [decide_eq_true_eq] at unused
    have o : np ≠ p := fun eq => not_live_of_unused unused (eq ▸ alive)
    rw [holds_bind, holds_modify, holds_bind]
    refine holds_modifyProc_as fun k1 first => ?_
    have sheds : Sheds k k1 := by
      rw [first]
      refine Sheds.trans ?_ (.setProc_idle (not_live_of_embryo rfl))
      exact .of_users rfl (fun _ _ uses => ⟨uses, rfl⟩) fun _ _ uses => uses
    have fs : k1.fs = k.fs := by
      rw [first]
      rfl
    rw [holds_ite, holds_pure, holds_bind, holds_modifyProc, holds_pure]
    refine ⟨fun _ => ⟨sheds, fs, fun _ eq => ?_⟩, fun _ =>
      ⟨sheds.trans (.setProc_idle (not_live_of_unused rfl)), fs, fun _ none => by cases none⟩⟩
    cases eq
    refine ⟨o, by rw [first, Kernel.setProc_same], ?_⟩
    simp only [Kernel.posts, first, Kernel.setProc_ne _ o.symm]

theorem holds_share {np : ProcSlot} : Holds (Prog.each (List.finRange NOFILE) fun i => do
      let parent ← proc p
      match parent.ofile i with
      | none => return ()
      | some f => do
          let f ← filedup f
          setOfile np i (some f)) k fun _ k' => (Sheds k k' ∧ k'.fs = k.fs) ∧ k'.posts = k.posts := by
  refine Holds.each (fun k' => (Sheds k k' ∧ k'.fs = k.fs) ∧
    k'.posts = k.posts) ⟨⟨.refl _, rfl⟩, rfl⟩ fun fd k1 kept => ?_
  obtain ⟨⟨sheds, fs⟩, posts⟩ := kept
  rw [holds_bind, holds_proc]
  split
  · exact .pure ⟨⟨sheds, fs⟩, posts⟩
  · refine holds_filedup.bind ?_
    rintro _ k2 ⟨sheds2, fs2, ptable⟩
    rw [setOfile, holds_modifyProc]
    refine ⟨⟨(sheds.trans sheds2).trans (.setProc_same rfl rfl), fs2.trans fs⟩,
      Eq.trans ?_ ((posts_of_ptable ptable).trans posts)⟩
    exact posts_setProc rfl rfl

theorem Running.forked {k3 : Kernel} {fs' : Fs} (run : Running R k) (np : ProcSlot)
    (types : KeepsTypes change) (none : ∀ img, change img img)
    (alive : (k.ptable p).live) (home : (k.ptable p).cwd = some ip)
    (got : Got k.fs fs' ip (k.fs.icache ip).inum) (sound : Sound R fs')
    (sheds : Sheds k k3) (balances : Balances k k') (fs : k'.fs = fs') (ftable : k'.ftable = k3.ftable)
    (others : ∀ q, q ≠ np → k'.ptable q = k3.ptable q)
    (child : (k'.ptable np).cwd = some ip) : Advances R change k k' := by
  subst fs
  refine run.next_balanced types sound ?_ balances.2 balances.1 (fun f o uses => ?_) fun q o uses => ?_
  · exact (got.fades.changes none).anti fun _ both => lt_of_lt_of_le both (min_le_left _ _)
  · rw [ftable] at uses ⊢
    exact .inr (sheds.files f o uses)
  · by_cases eq : q = np
    · subst eq
      have ent : ip = o := Option.some.inj (child.symm.trans uses.2)
      subst ent
      refine .inl ?_
      rw [Fs.nodeAt, got.image, got.number]
      exact run.homes p ip ⟨alive, home⟩
    · rw [others q eq] at uses
      exact .inr (sheds.homes q o uses)

theorem Running.holds_fork (run : Running R k) (alive : (k.ptable p).live)
    (kstack uvm : Bool) : Holds (fork p kstack uvm) k fun _ => Advances R (Act R k p (.fork kstack uvm)) k := by
  have types := Act.keepsTypes R k p (.fork kstack uvm)
  have spec : Holds (fork p kstack uvm) k fun _ k' => Balances k k' →
      Advances R (Act R k p (.fork kstack uvm)) k k' := by
    rw [fork]
    refine (holds_allocproc kstack alive).bind ?_
    rintro hit k1 ⟨sheds1, fs1, s1⟩
    have sound1 : Sound R k1.fs := fs1 ▸ run.sound
    cases hit with
    | none => exact .pure (run.sheds types (fun _ => .same) sound1 sheds1)
    | some np =>
      obtain ⟨o, embryo, posts1⟩ := s1 np rfl
      rw [holds_ite, holds_bind, holds_modifyProc, holds_bind]
      refine ⟨fun _ => holds_share.conseq fun _ k3 kept => ?_, fun _ => ?_⟩
      · obtain ⟨⟨sheds3, fs3⟩, posts3⟩ := kept
        rw [holds_bind]
        refine holds_cwd trivial fun ip here => ?_
        have parent : k3.posts p = k.posts p := by
          rw [posts3, ← posts1]
          simp only [Kernel.posts, Kernel.setProc_ne _ o.symm]
        have home : (k.ptable p).cwd = some ip :=
          (congrArg Prod.snd parent).symm.trans here
        have eq3 : k3.fs = k.fs := fs3.trans fs1
        have sheds4 : Sheds k k3 := by
          refine Sheds.trans (sheds1.trans ?_) sheds3
          exact .setProc_same rfl rfl
        rw [holds_bind, holds_onFs, eq3]
        refine run.sound.holds_idup (run.referenced alive home) fun fs' got sound' => ?_
        rw [holds_bind]
        refine holds_modifyProc_as fun k4 first => ?_
        rw [holds_bind, holds_proc, holds_bind]
        refine holds_modifyProc_as fun k5 snd => .pure fun balances => ?_
        refine run.forked np types (fun _ => .same) alive home got sound' sheds4 balances ?_ ?_ (fun q ne => ?_) ?_
        · rw [snd, first]
          rfl
        · rw [snd, first]
          rfl
        · rw [snd, Kernel.setProc_ne _ ne, first, Kernel.setProc_ne _ ne]
          rfl
        · rw [snd, Kernel.setProc_same, first, Kernel.setProc_same]
      · rw [holds_bind, holds_modifyProc, holds_pure]
        exact run.sheds types (fun _ => .same) sound1 (sheds1.trans (.setProc_idle (not_live_of_unused rfl)))
  exact ((fork_excess kstack uvm run.tidy).and spec).mono (fun _ k' done => done.2 done.1) fun _ _ => trivial

end

def Node.delivered (node : Node) (off n : BitVec 32) : Option (List UInt8) :=
  if node.size < off ∨ off + n < off then none
  else some ((node.contents.drop off.toNat).take n.toNat)

section

variable {R : Rules} {k : Kernel} {p : ProcSlot} {f : FileSlot} {i n1 off' : Nat}
  {addr : Nat → UInt8} {r : Int} {img img' : Nat → Node}

theorem FilesTidy.uses (tidy : FilesTidy k) (type : (k.ftable f).type = .inode) :
    (k.ftable f).uses (k.ftable f).ip := by
  have nonneg := (tidy f).1
  have used : (k.ftable f).ref ≠ 0 := fun zero => (tidy f).2 zero type
  exact ⟨by omega, type, rfl⟩

theorem Sound.holds_readi_delivered  {off n : BitVec 32} {stops : Stop → Prop}
    (sound : Sound R fs) (held : 0 < (fs.icache ip).ref) (valid : (fs.icache ip).valid = true) :
    Holds (readi ip off n) fs (fun r fs' => fs' = fs ∧ ((fs.nodeAt ip).type = T_FILE →
      r = (fs.nodeAt ip).delivered off n)) stops := by
  obtain ⟨type, _, size⟩ := sound.image_slot held valid
  by_cases regular : (fs.nodeAt ip).type = T_FILE
  · have block : BlockType (fs.icache ip).dinode.type := .inl (type ▸ regular)
    have outcome : (fs.nodeAt ip).delivered off n = if (fs.icache ip).dinode.size < off ∨ off + n < off
        then none else some (((fs.image (fs.icache ip).inum).contents.drop off.toNat).take n.toNat) := by
      rw [delivered, Fs.nodeAt, size]
    refine holds_readi_image sound.well sound.toCoherent held valid block (fun refused => ?_) fun accepted => ?_
    · exact ⟨rfl, fun _ => by rw [outcome, if_pos refused]⟩
    · exact ⟨rfl, fun _ => by rw [outcome, if_neg accepted]⟩
  · exact (sound.holds_readi held valid).conseq fun _ _ eq =>
      ⟨eq, fun file => absurd file regular⟩

theorem Running.holds_fileread (run : Running R k) (n : BitVec 32) :
    Holds (fileread f n) k fun r k' => (Sound R k'.fs ∧ Sheds k k') ∧
      k'.fs.image = k.fs.image ∧ ((k.ftable f).type = .inode →
        (k.ftable f).readable = true → (k.fs.nodeAt (k.ftable f).ip).type = T_FILE →
        r = (k.fs.nodeAt (k.ftable f).ip).delivered (k.ftable f).off n) := by
  simp only [fileread, holds_bind, holds_get]
  rw [holds_ite, holds_pure]
  refine ⟨fun closed => ⟨⟨run.sound, .refl _⟩, rfl, fun _ readable => ?_⟩, fun _ => ?_⟩
  · rw [closed] at readable
    cases readable
  · split
    · rename_i type
      refine .pure ⟨⟨run.sound, .refl _⟩, rfl, fun inode => ?_⟩
      rw [type] at inode
      cases inode
    · rename_i type
      have uses := run.tidy.uses type
      have held := referenced_of_file (run.surplus _) uses
      rw [holds_bind, holds_onFs]
      refine run.sound.holds_ilock held (fun _ => trivial) (fun _ => trivial) fun fs1 took sound1 => ?_
      rw [holds_bind, holds_onFs]
      have referenced1 : 0 < (fs1.icache (k.ftable f).ip).ref := took.ref ▸ held
      refine (sound1.holds_readi_delivered referenced1 took.loaded).conseq ?_
      rintro r fs2 ⟨rfl, result⟩
      rw [holds_bind, holds_modifyFile, holds_bind, holds_onFs]
      refine sound1.holds_iunlock trivial fun fs3 touched _ sound3 => .pure ?_
      have node : fs2.nodeAt (k.ftable f).ip = k.fs.nodeAt (k.ftable f).ip := took.nodeAt
      have fades : Fades k.fs.refs k.fs fs3 :=
        (took.toTouched.fades _).trans (touched.fades _)
      have refs : fs3.refs = k.fs.refs := touched.refs.trans took.refs
      have moved : ∀ file : File, (∀ ip, file.uses ip → (k.ftable f).uses ip ∧
          file.writable = (k.ftable f).writable) → Sheds k ((k.setFile f file).setFs fs3) :=
        fun file uses => (Sheds.setFile uses).trans (.setFs refs fades)
      refine ⟨⟨sound3, moved _ fun ip uses => ⟨uses, rfl⟩⟩, touched.image.trans took.image, fun _ _ regular => ?_⟩
      rw [← node]
      exact result (node ▸ regular)
    · exact holds_panic.mpr trivial

theorem Running.holds_sysRead (run : Running R k) (fd : Option Int)
    (n : Option (BitVec 32)) : Holds (sysRead p fd n) k fun _ => Advances R (Act R k p (.sysRead fd n)) k := by
  refine run.holds_shedding (sysRead_balances fd n run.tidy) ?_
  rw [sysRead]
  refine (argfd_spec fd).bind ?_
  rintro hit k1 ⟨rfl, _⟩
  split
  · exact (run.holds_fileread _).conseq fun _ _ done => done.1
  · exact .pure ⟨run.sound, .refl _⟩

structure Reposition (kern kern' : Kernel) : Prop where
  stays : Stays kern.fs.refs kern.fs kern'.fs
  refs : kern'.fs.refs = kern.fs.refs
  ptable : kern'.ptable = kern.ptable
  ftable : ∀ g, ∃ off, kern'.ftable g = { kern.ftable g with off }

theorem Reposition.refl (k : Kernel) : Reposition k k :=
  ⟨.refl _ _, rfl, rfl, fun _ => ⟨_, rfl⟩⟩

theorem Reposition.trans {k'' : Kernel} (first : Reposition k k') (snd : Reposition k' k'') : Reposition k k'' := by
  have stays := snd.stays
  rw [first.refs] at stays
  refine ⟨first.stays.trans stays, snd.refs.trans first.refs, snd.ptable.trans first.ptable, fun g => ?_⟩
  obtain ⟨off, eq⟩ := first.ftable g
  obtain ⟨off', eq'⟩ := snd.ftable g
  exact ⟨off', by rw [eq', eq]⟩

theorem Running.reposition (run : Running R k) (types : KeepsTypes change) (sound : Sound R k'.fs)
    (moved : Reposition k k') (changed : change k.fs.image k'.fs.image) : Advances R change k k' := by
  have file : ∀ g, (k'.ftable g).ref = (k.ftable g).ref ∧
      (k'.ftable g).type = (k.ftable g).type ∧ (k'.ftable g).ip = (k.ftable g).ip ∧
      (k'.ftable g).writable = (k.ftable g).writable := fun g => by
    obtain ⟨off, eq⟩ := moved.ftable g
    rw [eq]
    exact ⟨rfl, rfl, rfl, rfl⟩
  have excess : k'.excess = k.excess := by
    have claims : ∀ g, (k'.ftable g).claims = (k.ftable g).claims := fun g =>
      File.claims_congr (by rw [(file g).1]) (file g).2.1 (file g).2.2.1
    simp only [Kernel.excess, moved.refs, moved.ptable, claims]
  refine run.next_balanced types sound ?_ (fun g => ?_) excess (fun g ip uses => .inr ⟨?_, ?_⟩) fun q ip uses => .inr ?_
  · refine Changes.anti ⟨moved.stays, _, _, .refl, changed, .refl⟩ fun _ both => ?_
    exact lt_of_lt_of_le both (min_le_left _ _)
  · rw [(file g).1, (file g).2.1]
    exact run.tidy g
  · simpa only [File.uses, (file g).1, (file g).2.1, (file g).2.2.1] using uses
  · exact (file g).2.2.2
  · rwa [moved.ptable] at uses

inductive SectionWrote (image : Nat → Node) (i off n1 : Nat) (addr : Nat → UInt8) (off' : Nat) :
    Int → (Nat → Node) → Prop
  | refused {r : Int} : ((image i).type = T_FILE → r < 0 ∧ off' = off) →
      SectionWrote image i off n1 addr off' r image
  | accepted : (image i).type = T_FILE → off ≤ (image i).size.toNat → off + n1 ≤ MAXFILE * BSIZE →
      off' = off + n1 → SectionWrote image i off n1 addr off' n1 (update image i ((image i).write addr off n1))

theorem repositioned (off : BitVec 32) (g : FileSlot) : ∃ off', (k.setFile f
    { k.ftable f with off }).ftable g = { k.ftable g with off := off' } := by
  by_cases eq : g = f
  · subst eq
    exact ⟨off, by rw [Kernel.setFile_same]⟩
  · exact ⟨_, by rw [Kernel.setFile_ne _ eq]⟩

def writeLocked (f : FileSlot) (addr : Nat → UInt8) (n1 : Nat) : KernelM Int := do
  let file ← file f
  onFs (ilock file.ip)
  let r ← onFs (writei file.ip addr file.off (BitVec.ofNat 32 n1))
  Prog.onlyIf (r > 0) (modifyFile f fun file => { file with off := file.off + BitVec.ofInt 32 r })
  onFs (iunlock file.ip)
  return r

theorem filewriteSection_eq (addr : Nat → UInt8) (n1 : Nat) : filewriteSection f addr n1 = (do
    kernelBeginOp
    let r ← writeLocked f addr n1
    kernelEndOp
    return r) := by
  funext k
  simp only [filewriteSection, writeLocked, file, Prog.bind_assoc, Prog.pure_bind]
  change (kernelBeginOp >>= _) k = (kernelBeginOp >>= _) k
  refine Prog.bind_congr fun val k' begun => ?_
  have eq : k'.ftable = k.ftable := by
    have run : Holds kernelBeginOp k fun _ k' => k'.ftable = k.ftable := by
      rw [kernelBeginOp, holds_onFs]
      exact .trivial (fun _ _ => rfl) fun _ => trivial
    exact run.of_ok begun
  change _ = (onFs (ilock (k'.ftable f).ip) >>= _) k'
  rw [eq]

theorem Running.alike {disk : Disk} (run : Running R k)
    (alike : k.fs.disk.Alike disk) (idle : 0 ≤ disk.log.outstanding) : Running R (k.setFs (k.fs.setDisk disk)) := by
  have img : (k.fs.setDisk disk).image = k.fs.image := Fs.image_alike alike
  have node : ∀ ip, (k.fs.setDisk disk).nodeAt ip = k.fs.nodeAt ip := fun ip => by
    rw [Fs.nodeAt, img]
    rfl
  refine ⟨run.sound.alike alike, idle, run.tidy, run.surplus, fun ip more => ?_,
    fun g ip uses => ?_, fun q ip uses => ?_⟩
  · rw [Kernel.setFs_fs, node]
    exact run.stray ip more
  · obtain ⟨valid, apart⟩ := run.files g ip uses
    refine ⟨valid, ?_⟩
    rw [Kernel.setFs_fs, node]
    exact apart
  · rw [Kernel.setFs_fs, node]
    exact run.homes q ip uses

theorem holds_unlocking {k2 : Kernel} (sound : Sound R k2.fs)
    (stays : Stays k.fs.refs k.fs k2.fs) (refs : k2.fs.refs = k.fs.refs) (ptable : k2.ptable = k.ptable)
    (ftable : ∀ g, ∃ off, k2.ftable g = { k.ftable g with off })
    (wrote : SectionWrote k.fs.image i off n1 addr (k2.ftable f).off.toNat r k2.fs.image) :
    Holds (onFs (iunlock ip)) k2 fun _ k3 =>
      Holds (pure r : KernelM Int) k3 fun r k' => Sound R k'.fs ∧
        Reposition k k' ∧ SectionWrote k.fs.image i off n1 addr (k'.ftable f).off.toNat r k'.fs.image := by
  rw [holds_onFs]
  refine sound.holds_iunlock trivial fun fs3 touched _ sound3 => .pure ⟨sound3, ?_, ?_⟩
  · exact ⟨stays.trans (touched.fades _).toStays, touched.refs.trans refs, ptable, ftable⟩
  · rw [Kernel.setFs_fs, touched.image]
    exact wrote

section

variable (run : Running R k) (type : (k.ftable f).type = .inode) (writable : (k.ftable f).writable = true)
  (large : (k.fs.nodeAt (k.ftable f).ip).type ≠ T_SFILE) (pos : 0 < n1) (bound : n1 ≤ filewriteMax)

include run type writable large pos bound

theorem Running.holds_writeLocked (op : 0 < k.fs.disk.log.outstanding) :
    Holds (writeLocked f addr n1) k fun r k' => Sound R k'.fs ∧ Reposition k k' ∧ SectionWrote k.fs.image
        (k.fs.icache (k.ftable f).ip).inum (k.ftable f).off.toNat n1 addr (k'.ftable f).off.toNat r k'.fs.image := by
  have uses := run.tidy.uses type
  have held := referenced_of_file (run.surplus _) uses
  obtain ⟨valid, apart⟩ := run.files f _ uses
  simp only [writeLocked, holds_bind, holds_file]
  rw [holds_onFs]
  refine run.sound.holds_ilock held (fun _ => trivial) (fun _ => trivial) fun fs1 took sound1 => ?_
  have act1 : Active R fs1 := ⟨sound1, took.disk ▸ op⟩
  have referenced1 : 0 < (fs1.icache (k.ftable f).ip).ref := took.ref ▸ held
  have img1 : fs1.image = k.fs.image := took.image
  have inum1 : (fs1.icache (k.ftable f).ip).inum = (k.fs.icache (k.ftable f).ip).inum :=
    took.inum
  have node1 : fs1.nodeAt (k.ftable f).ip = k.fs.nodeAt (k.ftable f).ip := took.nodeAt
  have stays1 : Stays k.fs.refs k.fs fs1 := (took.fades _).toStays
  have refs1 : fs1.refs = k.fs.refs := took.refs
  have count : (BitVec.ofNat 32 n1).toNat = n1 := by
    have limit : filewriteMax = 6656 := rfl
    rw [BitVec.toNat_ofNat]
    omega
  rw [holds_onFs]
  by_cases regular : (k.fs.nodeAt (k.ftable f).ip).type = T_FILE
  · obtain ⟨_, _, size1⟩ := sound1.image_slot referenced1 took.loaded
    refine act1.holds_writei referenced1 took.loaded (.inl (node1 ▸ regular)) ?_ trivial trivial
      (fun refused => ?_) fun accepted fs2 act2 recasts img2 => ?_
    · intro directory
      rw [node1, regular] at directory
      exact absurd directory (by decide)
    · rw [holds_onlyIf]
      refine ⟨fun more => absurd more (by decide), fun _ => ?_⟩
      refine holds_unlocking sound1 stays1 refs1 rfl (fun g => ⟨_, rfl⟩) ?_
      rw [Kernel.setFs_fs, img1]
      exact .refused fun _ => ⟨by decide, rfl⟩
    · obtain ⟨inside, fits⟩ := Refused.not_iff.mp accepted
      rw [← size1, count] at *
      rw [holds_onlyIf, holds_modifyFile]
      refine ⟨fun _ => ?_, fun none => absurd (by omega) none⟩
      refine holds_unlocking act2.toSound (stays1.trans (recasts.entries.stays _))
        (recasts.entries.refs.trans refs1) rfl (repositioned _) ?_
      have place : ((k.ftable f).off + BitVec.ofInt 32 n1).toNat = (k.ftable f).off.toNat + n1 := by
        simp only [MAXFILE, NDIRECT, NINDIRECT, BSIZE] at fits
        rw [BitVec.ofInt_natCast, BitVec.toNat_add, BitVec.toNat_ofNat]
        omega
      rw [Kernel.setFile_same, Kernel.setFile_fs, Kernel.setFs_fs, img2, node1, img1, inum1]
      refine .accepted regular ?_ fits place
      rw [img1, inum1] at inside
      exact inside
  · have ty1 : ¬BlockType (fs1.nodeAt (k.ftable f).ip).type := by
      rw [node1]
      rintro (file | dir)
      · exact regular file
      · exact apart writable dir
    have device := sound1.device_of_plain referenced1 took.loaded ty1 (node1 ▸ large)
    have eq : ∀ off' r, SectionWrote k.fs.image (k.fs.icache (k.ftable f).ip).inum
        (k.ftable f).off.toNat n1 addr off' r fs1.image := fun off' r => by
      rw [img1]
      exact .refused fun file => absurd file regular
    refine holds_writei_device device fun r => ?_
    rw [holds_onlyIf, holds_modifyFile]
    exact ⟨fun _ => holds_unlocking sound1 stays1 refs1 rfl (repositioned _) (eq _ _),
      fun _ => holds_unlocking sound1 stays1 refs1 rfl (fun g => ⟨_, rfl⟩) (eq _ _)⟩

theorem Running.holds_filewriteSection :
    Holds (filewriteSection f addr n1) k fun r k' => Sound R k'.fs ∧ Reposition k k' ∧ SectionWrote k.fs.image
        (k.fs.icache (k.ftable f).ip).inum (k.ftable f).off.toNat n1 addr (k'.ftable f).off.toNat r k'.fs.image := by
  rw [filewriteSection_eq, holds_bind]
  refine run.sound.holds_begin run.idle trivial fun disk begun op act => ?_
  have idle := run.idle
  have run1 := run.alike begun (by omega)
  have img1 : (k.fs.setDisk disk).image = k.fs.image := Fs.image_alike begun
  have node1 : (k.fs.setDisk disk).nodeAt (k.ftable f).ip = k.fs.nodeAt (k.ftable f).ip := by
    rw [Fs.nodeAt, img1]
    rfl
  refine (run1.holds_writeLocked type writable (node1 ▸ large) pos bound act.opened).bind fun r k2 done => ?_
  obtain ⟨sound2, moved, wrote⟩ := done
  rw [holds_bind]
  refine Sound.holds_end sound2 trivial fun disk2 ended closed sound3 => .pure ⟨sound3, ?_, ?_⟩
  · refine ⟨?_, moved.refs, moved.ptable, moved.ftable⟩
    have both : Changes k.fs.refs (fun _ _ => True) (k.fs.setDisk disk) k2.fs :=
      ⟨moved.stays, _, _, .refl, trivial, .refl⟩
    exact (both.transaction begun op ended closed).toStays
  · rw [Kernel.setFs_fs, Fs.image_alike ended, ← img1]
    exact wrote

end

theorem Node.write_write (node : Node) (src : Nat → UInt8) (fits : off + n + m < 2 ^ 32) :
    (node.write src off n).write (fun i => src (n + i)) (off + n) m = node.write src off (n + m) := by
  have small : (BitVec.ofNat 32 (off + n)).toNat = off + n := by
    rw [BitVec.toNat_ofNat]
    omega
  simp only [write, mk.injEq, true_and]
  constructor
  · rw [← Nat.add_assoc]
    split_ifs <;> (try simp only [small] at *) <;> first | rfl | omega | (congr 1; omega)
  · funext i
    split_ifs <;> first | rfl | omega | skip
    congr 1
    omega

inductive FileWrote (image : Nat → Node) (i off : Nat) (addr : Nat → UInt8) (off' count : Nat) :
    (Nat → Node) → Prop
  | kept : ((image i).type = T_FILE → count = 0 ∧ off' = off) → FileWrote image i off addr off' count image
  | taken : (image i).type = T_FILE → off ≤ (image i).size.toNat → off + count ≤ MAXFILE * BSIZE →
      off' = off + count → FileWrote image i off addr off' count (update image i ((image i).write addr off count))

theorem SectionWrote.types (wrote : SectionWrote img i off n1 addr off' r img') (j : Nat) :
    (img' j).type = (img j).type := by
  cases wrote with
  | refused => rfl
  | accepted =>
    by_cases here : j = i
    · rw [here, update_self]
      rfl
    · rw [update_of_ne here]

theorem SectionWrote.stopped {addr' : Nat → UInt8}
    (wrote : SectionWrote img i off n1 addr off' r img') (failed : r < 0) : FileWrote img i off addr' off' 0 img' := by
  cases wrote with
  | refused eq => exact .kept fun file => ⟨rfl, (eq file).2⟩
  | accepted => omega

theorem SectionWrote.append {img'' : Nat → Node} {off'' : Nat}
    (wrote : SectionWrote img i off n1 addr off' r img') (taken : ¬r < 0)
    (rest : FileWrote img' i off' (fun index => addr (n1 + index)) off'' m img'') :
    FileWrote img i off addr off'' (n1 + m) img'' := by
  cases wrote with
  | refused eq =>
    have o : (img i).type ≠ T_FILE := fun file => taken (eq file).1
    cases rest with
    | kept => exact .kept fun file => absurd file o
    | taken file => exact absurd file o
  | accepted file inside fits moved =>
    have here : update img i ((img i).write addr off n1) i = (img i).write addr off n1 :=
      update_self _ _ _
    cases rest with
    | kept eq =>
      obtain ⟨rfl, rfl⟩ := eq (by rw [here]; exact file)
      exact .taken file inside fits moved
    | taken _ _ fits' moved' =>
      rw [here, moved, write_write _ _ (by
        simp only [MAXFILE, NDIRECT, NINDIRECT, BSIZE] at fits'
        omega), update_idem]
      exact .taken file inside (by omega) (by omega)

theorem Running.holds_filewriteFrom (fuel i : Nat) (inside : i ≤ n)
    (run : Running R k) (type : (k.ftable f).type = .inode) (writable : (k.ftable f).writable = true)
    (large : (k.fs.nodeAt (k.ftable f).ip).type ≠ T_SFILE) :
    Holds (filewriteFrom f addr n fuel i) k fun j k' => (Sound R k'.fs ∧
      Reposition k k') ∧ (i ≤ j ∧ j ≤ n) ∧ FileWrote k.fs.image
        (k.fs.icache (k.ftable f).ip).inum (k.ftable f).off.toNat
        (fun index => addr (i + index)) (k'.ftable f).off.toNat (j - i) k'.fs.image := by
  induction fuel generalizing i k with
  | zero =>
    exact .pure ⟨⟨run.sound, .refl _⟩, ⟨le_rfl, inside⟩, .kept fun _ => ⟨Nat.sub_self i, rfl⟩⟩
  | succ fuel ih =>
    rw [filewriteFrom, holds_ite, holds_pure]
    refine ⟨fun more => ?_, fun _ =>
      ⟨⟨run.sound, .refl _⟩, ⟨le_rfl, inside⟩, .kept fun _ => ⟨Nat.sub_self i, rfl⟩⟩⟩
    have least : 0 < min (n - i) filewriteMax ∧ i + min (n - i) filewriteMax ≤ n := by
      have limit : filewriteMax = 6656 := rfl
      omega
    refine (run.holds_filewriteSection type writable large least.1 (min_le_right _ _)).bind fun r k1 done => ?_
    obtain ⟨sound1, moved1, wrote⟩ := done
    generalize min (n - i) filewriteMax = n1 at *
    rw [holds_ite, holds_pure, holds_ite, holds_panic]
    refine ⟨fun failed => ?_, fun taken => ⟨fun _ => trivial, fun _ => ?_⟩⟩
    · refine ⟨⟨sound1, moved1⟩, ⟨le_rfl, inside⟩, ?_⟩
      rw [Nat.sub_self]
      exact wrote.stopped failed
    · have types : KeepsTypes fun img img' => ∀ j, (img' j).type = (img j).type :=
        fun _ _ eq j _ => eq j
      have run1 := (run.reposition types sound1 moved1 wrote.types).running
      obtain ⟨off, file⟩ := moved1.ftable f
      have ip : (k1.ftable f).ip = (k.ftable f).ip := by rw [file]
      have inum : (k1.fs.icache (k.ftable f).ip).inum = (k.fs.icache (k.ftable f).ip).inum :=
        moved1.stays.inum _ (referenced_of_file (run.surplus _) (run.tidy.uses type))
      refine (ih (i + n1) least.2 run1 (by rw [file]; exact type) (by rw [file]; exact writable)
        ?_).conseq fun j k2 done => ?_
      · rw [ip, Fs.nodeAt, inum, wrote.types]
        exact large
      · obtain ⟨⟨sound2, moved2⟩, ⟨low, high⟩, rest⟩ := done
        refine ⟨⟨sound2, moved1.trans moved2⟩, ⟨by omega, high⟩, ?_⟩
        have split : j - i = n1 + (j - (i + n1)) := by omega
        rw [ip, inum] at rest
        rw [split]
        refine wrote.append taken ?_
        simpa only [Nat.add_assoc] using rest

theorem Running.holds_filewrite {n : Int} (run : Running R k)
    (large : (k.ftable f).type = .inode → (k.fs.nodeAt (k.ftable f).ip).type ≠ T_SFILE) :
    Holds (filewrite f addr n) k fun r k' => (Sound R k'.fs ∧ Reposition k k') ∧ ∃ count ≤ n.toNat,
        ((k.ftable f).type = .inode → (k.ftable f).writable = true → r = if (count : Int) = n then n else -1) ∧
        FileWrote k.fs.image (k.fs.icache (k.ftable f).ip).inum
          (k.ftable f).off.toNat addr (k'.ftable f).off.toNat count k'.fs.image := by
  have idle : ∀ r, ((k.ftable f).type = .inode → (k.ftable f).writable = true → False) →
      (Sound R k.fs ∧ Reposition k k) ∧ ∃ count ≤ n.toNat,
        ((k.ftable f).type = .inode → (k.ftable f).writable = true → r = if (count : Int) = n then n else -1) ∧
        FileWrote k.fs.image (k.fs.icache (k.ftable f).ip).inum
          (k.ftable f).off.toNat addr (k.ftable f).off.toNat count k.fs.image :=
    fun r o => ⟨⟨run.sound, .refl _⟩, 0, Nat.zero_le _,
      fun type writable => (o type writable).elim, .kept fun _ => ⟨rfl, rfl⟩⟩
  rw [filewrite, holds_bind, holds_get, holds_ite, holds_pure]
  refine ⟨fun closed => idle _ fun _ writable => ?_, fun writable => ?_⟩
  · rw [closed] at writable
    cases writable
  · split
    · rename_i pipe
      refine .pure (idle _ fun type _ => ?_)
      rw [pipe] at type
      cases type
    · rename_i type
      refine (run.holds_filewriteFrom n.toNat 0 (Nat.zero_le _) type (by simpa using writable)
        (large type)).bind fun j k' done => .pure ?_
      obtain ⟨kept, ⟨_, high⟩, wrote⟩ := done
      refine ⟨kept, j, high, fun _ _ => rfl, ?_⟩
      simpa only [Nat.zero_add, Nat.sub_zero] using wrote
    · exact holds_panic.mpr trivial

theorem FileWrote.act {fd : Option Int} {n : Int} {count : Nat} (describes : k.Describes p fd f)
    (bound : count ≤ n.toNat) (wrote : FileWrote k.fs.image (k.fs.icache (k.ftable f).ip).inum
      (k.ftable f).off.toNat addr off' count img') : Act R k p (.sysWrite fd addr (some n)) k.fs.image img' := by
  generalize s0 : k.fs.image = img at wrote ⊢
  cases wrote with
  | kept => exact .same
  | taken file inside fits _ => exact .wrote describes file inside fits bound

theorem Running.holds_sysWrite (run : Running R k) (fd : Option Int)
    (buffer : Nat → UInt8) (n : Option Int) (large : ∀ f, k.Describes p fd f → (k.ftable f).type = .inode →
      (k.fs.nodeAt (k.ftable f).ip).type ≠ T_SFILE) : Holds (sysWrite p fd buffer n) k
      fun _ => Advances R (Act R k p (.sysWrite fd buffer n)) k := by
  have types := Act.keepsTypes R k p (.sysWrite fd buffer n)
  rw [sysWrite]
  refine (argfd_spec fd).bind ?_
  rintro hit k1 ⟨rfl, known⟩
  split
  · rename_i d f n
    have describes : k1.Describes p fd f := ⟨d, known d f rfl⟩
    refine (run.holds_filewrite (large f describes)).conseq ?_
    rintro r k' ⟨⟨sound, moved⟩, count, bound, _, wrote⟩
    exact run.reposition types sound moved (wrote.act describes bound)
  · exact .pure (run.stay fun _ => .same)

end

end Xv6
