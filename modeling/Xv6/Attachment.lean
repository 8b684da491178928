import Xv6.TreeShape

/-! Runs in which removed directories are left alone: every inode with links hangs in the tree, and
no entry of any directory dangles. -/

namespace Xv6

open Exec Hierarchy Reach IsDir

/-- Entries are made only in directories with links. -/
def Call.Attached (kern : Kernel) (step : ProcSlot × Call) : Prop :=
  ∀ d, kern.Enters step.1 step.2 d → 1 ≤ (kern.fs.image d).nlink.toInt

/-- A directory is removed only when no other directory, removed or not, has it as its "..". -/
def Call.Clear (kern : Kernel) (step : ProcSlot × Call) : Prop :=
  ∀ i, kern.Drops step.1 step.2 i → IsDir (kern.fs.image i).type →
    ∀ j k, j ≠ i → IsDir (kern.fs.image j).type → ¬(kern.fs.image j).Finds dotdot k i

structure Seated (kern : Kernel) : Prop where
  running : Running ⟨False, True⟩ kern
  small : kern.fs.disk.fssize ≤ FSSIZE
  dotted : Dotted kern.fs.image
  upright : Upright ROOTINO (tree True kern.fs.image)
  connected : Connected ROOTINO (tree True kern.fs.image)

section

variable {rules : Rules} {k k' : Kernel} {step : ProcSlot × Call} {safe : Nat → Prop} {im im' : Nat → Node}

theorem Upright.act_step (upright : Upright ROOTINO (tree True im)) (sound : Sound rules k.fs)
    (small : k.fs.disk.fssize ≤ FSSIZE) (faded : Faded safe k.fs.image im)
    (dotted : Dotted im) (act : Act rules k step.1 step.2 im im') :
    Dotted im' ∧ Step (k.Enters step.1 step.2) (k.Drops step.1 step.2) (tree True im) (tree True im') := by
  refine Xv6.act_step sound small faded dotted upright.toForest (fun old new i last ty _ _ => ?_) act
  have links : (im i).nlink.toInt = (tree True im).degree ROOTINO i :=
    upright.links_eq fun free => ty (kindOf_free.mp free)
  rw [links]
  exact sound.degree_lt small faded upright.toShape i

theorem Call.Attached.awake (attached : Call.Attached k step)
    (faded : Faded safe k.fs.image im) (d : Nat) (enters : k.Enters step.1 step.2 d)
    (dir : (tree True im).kind d = .dir) : 1 ≤ (tree True im).links d := by
  show 1 ≤ (im d).nlink.toInt
  rw [faded.same_of_typed (blockType (kindOf_dir.mp dir)).ne_zero]
  exact attached d enters

theorem Call.Clear.clear (clear : Call.Clear k step) (faded : Faded safe k.fs.image im)
    (dotted : Dotted im) (i : Nat) (drops : k.Drops step.1 step.2 i)
    (dir : (tree True im).kind i = .dir) (j : Nat) (o : j ≠ i)
    (below : (tree True im).kind j = .dir) : (tree True im).up j ≠ i := by
  have finds := (dotted.finds True (kindOf_dir.mp below)).2
  intro eq
  rw [eq] at finds
  rw [faded.same_of_typed (blockType (kindOf_dir.mp below)).ne_zero] at finds
  refine clear i drops ?_ j 1 o ?_ finds
  · rw [← faded.same_of_typed (blockType (kindOf_dir.mp dir)).ne_zero]
    exact kindOf_dir.mp dir
  · rw [← faded.same_of_typed (blockType (kindOf_dir.mp below)).ne_zero]
    exact kindOf_dir.mp below

theorem Seated.next (seated : Seated k) (attached : Call.Attached k step)
    (leaves : Call.LeavesSmall k step) (next : Call.Next k step k') :
    Seated k' ∧ (Call.Clear k step → Rising (tree True k.fs.image) → Rising (tree True k'.fs.image)) := by
  have advances := seated.running.advances trivial leaves next
  obtain ⟨stays, im, im', first, act, last⟩ := advances.evolves
  have upright := seated.upright.fade first.fade
  have connected := seated.connected.fade seated.upright first.fade
  have dotted := seated.dotted.faded first
  obtain ⟨dotted', ran⟩ := Upright.act_step upright seated.running.sound seated.small first dotted act
  have upright' := upright.step ran (attached.awake first)
  refine ⟨⟨advances.running, stays.fssize ▸ seated.small, dotted'.faded last, upright'.fade last.fade,
    (connected.step upright ran (attached.awake first)).fade upright' last.fade⟩, fun clear rising => ?_⟩
  exact ((rising.fade first.fade).step upright ran (attached.awake first) (clear.clear first dotted)).fade last.fade

end

section

variable {im : Nat → Node}

theorem Dotted.reached (dotted : Dotted im) {i : Nat} (reach : (tree True im).Reach ROOTINO i) : Reached im i := by
  refine Relation.ReflTransGen.mono ?_ _ _ reach
  rintro d i ⟨⟨d', k, i'⟩, mem, rfl, rfl⟩
  obtain ⟨name, names⟩ := dotted.names_iff.mpr mem
  exact ⟨k, name, names⟩

theorem noDangling_of_rising (dotted : Dotted im) (forest : Forest ROOTINO (tree True im))
    (rising : Rising (tree True im)) : NoDangling im := by
  intro d k name i dir here
  match k with
  | 0 =>
    rw [dotted.self d dir, Option.some.injEq, Prod.mk.injEq] at here
    rw [← here.2]
    exact (blockType dir).ne_zero
  | 1 =>
    rw [dotted.up_eq True dir, Option.some.injEq, Prod.mk.injEq] at here
    rw [← here.2]
    exact (blockType (kindOf_dir.mp (rising d (kindOf_dir.mpr dir)).1)).ne_zero
  | k + 2 =>
    have mem : ⟨d, k + 2, i⟩ ∈ (tree True im).edges :=
      ⟨⟨dir, .inl trivial⟩, Nat.le_add_left _ _, name, here⟩
    exact fun free => forest.named _ mem (kindOf_free.mpr free)

end

section

theorem mkfsKernel_seated : Seated mkfsKernel := by
  refine ⟨mkfsKernel_running ⟨False, True⟩, mkfsKernel_small, mkfsKernel_dotted, mkfsKernel_upright, ?_⟩
  intro i dir _
  rw [(mkfsKernel_root (kindOf_dir.mp dir)).1]
  exact .refl

theorem mkfsKernel_rising : Rising (tree True mkfsKernel.fs.image) := by
  intro i dir
  have upright : Upright ROOTINO (tree True mkfsKernel.fs.image) := mkfsKernel_upright
  rw [(mkfsKernel_root (kindOf_dir.mp dir)).1, upright.crown]
  exact ⟨upright.top, upright.toForest.root_links⟩

end

section

def lookup (cwd : Slot) (path : List UInt8) (nameiparent : Bool) : KernelM (Option (Slot × List UInt8)) := do
  kernelBeginOp
  onFs (namex cwd path nameiparent)

variable {rules : Rules} {k : Kernel}

theorem Running.holds_lookup (run : Running rules k) (closed : ∀ safe im, Faded safe k.fs.image im → NoDangling im)
    (root : (k.fs.image ROOTINO).type ≠ 0) {p : ProcSlot} (alive : (k.ptable p).live)
    {cwd : Slot} (here : (k.ptable p).cwd = some cwd) (path : List UInt8) (nameiparent : Bool) :
    Holds (lookup cwd path nameiparent) k (fun _ _ => True) (· ≠ noType) := by
  have held := run.referenced alive here
  have home := run.homes p cwd ⟨alive, here⟩
  rw [lookup, holds_bind]
  refine run.sound.holds_begin run.idle (by decide) fun disk alike op act => ?_
  rw [holds_onFs]
  refine act.holds_namex nameiparent held (fun reason o _ => o) (.inr ⟨?_, ?_⟩)
    (fun _ _ _ _ => trivial) fun _ _ _ _ _ _ _ => trivial
  · show ((k.fs.setDisk disk).image _).type ≠ 0
    rw [Fs.image_alike alike, Fs.origin]
    split
    · exact root
    · exact (blockType home).ne_zero
  · intro im faded
    change Faded _ (k.fs.setDisk disk).image im at faded
    rw [Fs.image_alike alike] at faded
    exact closed _ im faded

end

/-- In every run in which entries are made only in directories with links, and nothing is written
to a small file, every inode with links is reached from the root. -/
theorem inodes_not_orphaned (start : Kernel) (seated : Seated start) (kern : Kernel) (reached : Reachable Call.Next
      (fun kern step => Call.Attached kern step ∧ Call.LeavesSmall kern step) start kern) :
    ∀ i, (kern.fs.image i).type ≠ 0 → 1 ≤ (kern.fs.image i).nlink.toInt → Reached kern.fs.image i := by
  have seated := reached.invariant Seated seated fun before step after seated ok next =>
    (seated.next ok.1 ok.2 next).1
  intro i typed linked
  exact seated.dotted.reached (seated.upright.reach seated.connected (fun free => typed (kindOf_free.mp free)) linked)

theorem Walk.directory {im : Nat → Node} {i d : Nat} {path name : List UInt8}
    (walk : Walk im true i path d name) : IsDir (im d).type := by
  induction walk with
  | done _ child => cases child
  | last _ dir _ => exact dir
  | next _ _ _ _ _ ih => exact ih

theorem mkfsKernel_attached (step : ProcSlot × Call) : Call.Attached mkfsKernel step := by
  have least : ∀ path d name, mkfsKernel.Walks step.1 true path d name → 1 ≤ (mkfsKernel.fs.image d).nlink.toInt := by
    rintro path d name ⟨_, _, walk⟩
    rw [(mkfsKernel_root walk.directory).1, mkfsKernel_image]
    decide
  rintro d (⟨path, _, name, _, walks⟩ | ⟨_, path, name, _, walks⟩)
  · exact least path d name walks
  · exact least path d name walks

theorem inodes_made_reached : Seated mkfsKernel ∧ ∃ kern : Kernel,
    Call.Next mkfsKernel (0, .sysMkdir (some [97])) kern ∧ (kern.fs.image 2).type = T_DIR ∧
    (kern.fs.image 2).nlink = 1 ∧ Reached kern.fs.image 2 := by
  have chk : ((Call.sysMkdir (some [97])).run 0 mkfsKernel).any (fun kern =>
      (kern.fs.image 2).type == T_DIR && (kern.fs.image 2).nlink == 1) = true := by
    decide +kernel
  obtain ⟨kern, ran, v⟩ := (Option.any_eq_true _ _).mp chk
  simp only [Bool.and_eq_true, beq_iff_eq] at v
  have next : Call.Next mkfsKernel (0, .sysMkdir (some [97])) kern := ⟨by decide, ran⟩
  have leaves : Call.LeavesSmall mkfsKernel (0, .sysMkdir (some [97])) := trivial
  refine ⟨mkfsKernel_seated, kern, next, v.1, v.2, ?_⟩
  refine inodes_not_orphaned mkfsKernel mkfsKernel_seated kern
    (.step _ .start ⟨mkfsKernel_attached _, leaves⟩ next) 2 ?_ ?_
  · rw [v.1]
    decide
  · rw [v.2]
    decide

/-- A process removes its current directory "d" and makes a file "f" in it. -/
theorem inodes_orphaned : ∃ kern : Kernel,
    Reachable Call.Next (fun _ _ => True) mkfsKernel kern ∧ (kern.fs.image 3).type = T_FILE ∧
    (kern.fs.image 3).nlink = 1 ∧ ¬Reached kern.fs.image 3 := by
  have chk : (replayCalls [(0, .sysMkdir (some [100])), (0, .sysChdir (some [100])),
        (0, .sysUnlink (some [47, 100])), (0, .sysOpen (some [102]) (some (BitVec.ofNat 32 O_CREATE)))] mkfsKernel).any
      (fun kern => (kern.fs.image 3).type == T_FILE && (kern.fs.image 3).nlink == 1 &&
        (kern.fs.image ROOTINO).size.toNat == BSIZE &&
        (List.range 32).all fun k => ((kern.fs.image ROOTINO).slot k).all fun entry =>
          entry.1 == dot || entry.1 == dotdot) = true := by
    decide +kernel
  obtain ⟨kern, reached, v⟩ := calls_of_replay chk
  simp only [Bool.and_eq_true, beq_iff_eq] at v
  obtain ⟨⟨⟨file, linked⟩, size⟩, bare⟩ := v
  refine ⟨kern, reached, file, linked, fun within => ?_⟩
  rcases within.cases_head with same | ⟨i, ⟨k, name, _, here, notDot, notDotdot⟩, _⟩
  · cases same
  · have inside : k < 32 := by
      by_contra outside
      rw [Node.slot_beyond (by simp only [deSize, BSIZE] at *; omega)] at here
      cases here
    have entry := List.all_eq_true.mp bare k (List.mem_range.mpr inside)
    rw [here] at entry
    simp only [Option.all_some, Bool.or_eq_true, beq_iff_eq] at entry
    exact entry.elim notDot notDotdot

/-- In every run in which moreover a directory is removed only when no other one, removed or not,
has it as its "..": no entry names a free inode, and no lookup stops at one. -/
theorem entries_not_dangling (start : Kernel) (seated : Seated start)
    (rising : Rising (tree True start.fs.image)) (kern : Kernel)
    (reached : Reachable Call.Next (fun kern step => Call.Attached kern step ∧
      Call.Clear kern step ∧ Call.LeavesSmall kern step) start kern) :
    NoDangling kern.fs.image ∧ ∀ p cwd path nameiparent, (kern.ptable p).live → (kern.ptable p).cwd = some cwd →
      Holds (lookup cwd path nameiparent) kern (fun _ _ => True) (· ≠ noType) := by
  obtain ⟨seated, rising⟩ := reached.invariant
    (fun kern => Seated kern ∧ Rising (tree True kern.fs.image)) ⟨seated, rising⟩
    fun before step after holds ok next => by
      obtain ⟨seated, rises⟩ := holds.1.next ok.1 ok.2.2 next
      exact ⟨seated, rises ok.2.1 holds.2⟩
  have closed : ∀ safe im, Faded safe kern.fs.image im → NoDangling im :=
    fun safe im faded => noDangling_of_rising (seated.dotted.faded faded)
      (seated.upright.fade faded.fade).toForest (rising.fade faded.fade)
  have root : (kern.fs.image ROOTINO).type ≠ 0 :=
    (IsDir.blockType (kindOf_dir.mp seated.upright.top)).ne_zero
  exact ⟨closed (fun _ => True) _ .refl, fun p cwd path nameiparent alive here =>
    seated.running.holds_lookup closed root alive here path nameiparent⟩

theorem entries_made_not_dangling : Seated mkfsKernel ∧ Rising (tree True mkfsKernel.fs.image) ∧
    ∃ kern : Kernel, Call.Next mkfsKernel (0, .sysMkdir (some [97])) kern ∧
    NoDangling kern.fs.image ∧ (kern.ptable 0).live ∧ (kern.ptable 0).cwd = some 0 ∧
    Holds (lookup 0 [97] false) kern (fun _ _ => True) (· ≠ noType) := by
  have chk : ((Call.sysMkdir (some [97])).run 0 mkfsKernel).any (fun kern =>
      decide (kern.ptable 0).live && (kern.ptable 0).cwd == some 0) = true := by
    decide +kernel
  obtain ⟨kern, ran, v⟩ := (Option.any_eq_true _ _).mp chk
  simp only [Bool.and_eq_true, beq_iff_eq, decide_eq_true_eq] at v
  have next : Call.Next mkfsKernel (0, .sysMkdir (some [97])) kern := ⟨by decide, ran⟩
  have clear : Call.Clear mkfsKernel (0, .sysMkdir (some [97])) := by
    rintro i ⟨_, _, _, _, called, _⟩
    cases called
  have holds := entries_not_dangling mkfsKernel mkfsKernel_seated mkfsKernel_rising kern
    (.step _ .start ⟨mkfsKernel_attached _, clear, trivial⟩ next)
  exact ⟨mkfsKernel_seated, mkfsKernel_rising, kern, next, holds.1, v.1, v.2, holds.2 0 0 [97] false v.1 v.2⟩

/-- A process removes its current directory "a/b", and then "a", which it has open until the end: the
".." of the one is freed with the other, and a lookup of "../x" stops there. -/
theorem entries_dangling : ∃ kern : Kernel,
    Reachable Call.Next (fun _ _ => True) mkfsKernel kern ∧ IsDir (kern.fs.image 3).type ∧
    (kern.fs.image 3).slot 1 = some (dotdot, 2) ∧ (kern.fs.image 2).type = 0 ∧ ¬NoDangling kern.fs.image ∧
    (sysChdir 0 (some [46, 46, 47, 120]) kern).reason? = some noType := by
  have chk : (replayCalls [(0, .sysOpen (some [47]) (some 0)), (0, .sysMkdir (some [97])),
        (0, .sysOpen (some [97]) (some 0)), (0, .sysMkdir (some [97, 47, 98])),
        (0, .sysChdir (some [97, 47, 98])), (0, .sysUnlink (some [47, 97, 47, 98])),
        (0, .sysUnlink (some [47, 97])), (0, .sysClose (some 1))] mkfsKernel).any
      (fun kern => decide (IsDir (kern.fs.image 3).type) &&
        (kern.fs.image 3).slot 1 == some (dotdot, 2) && (kern.fs.image 2).type == 0 &&
        decide ((sysChdir 0 (some [46, 46, 47, 120]) kern).reason? = some noType)) = true := by
    decide +kernel
  obtain ⟨kern, reached, v⟩ := calls_of_replay chk
  simp only [Bool.and_eq_true, beq_iff_eq, decide_eq_true_eq] at v
  obtain ⟨⟨⟨dir, above⟩, free⟩, stopped⟩ := v
  exact ⟨kern, reached, dir, above, free, fun closed => closed 3 1 _ _ dir above free, stopped⟩

end Xv6
