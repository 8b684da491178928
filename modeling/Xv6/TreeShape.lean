import Xv6.OpenCall
import Xv6.Mkfs
import Xv6.Tree

/-! The directories reached from the root form a tree, also while removed directories are still
in use. -/

namespace Xv6

open Hierarchy Reach Prod

/-- Entry `k` of directory `d` gives inode `i` a name other than "." and "..". -/
def Names (im : Nat → Node) (d k : Nat) (name : List UInt8) (i : Nat) : Prop :=
  IsDir (im d).type ∧ (im d).slot k = some (name, i) ∧ name ≠ dot ∧ name ≠ dotdot

instance (im : Nat → Node) (d k : Nat) (name : List UInt8) (i : Nat) :
    Decidable (Names im d k name i) := inferInstanceAs (Decidable (_ ∧ _ ∧ _ ∧ _))

def Reached (im : Nat → Node) : Nat → Prop :=
  Relation.ReflTransGen (fun d i => ∃ k name, Names im d k name i) ROOTINO

structure TreeShaped (im : Nat → Node) : Prop where
  root : IsDir (im ROOTINO).type ∧ (im ROOTINO).Finds dot 0 ROOTINO ∧ (im ROOTINO).Finds dotdot 1 ROOTINO
  unnamed : ∀ d k name, ¬Names im d k name ROOTINO
  below : ∀ i, Reached im i → IsDir (im i).type → i ≠ ROOTINO → ∃ d k name,
    Reached im d ∧ Names im d k name i ∧ (im i).Finds dot 0 i ∧ (im i).Finds dotdot 1 d ∧
      ∀ d' k' name', Reached im d' → Names im d' k' name' i → d' = d ∧ k' = k

/-- No file gets so many links that their count runs over. -/
def Call.Bounded (kern : Kernel) (step : ProcSlot × Call) : Prop :=
  match step.2 with
  | .sysLink old _ => ∀ i last, (∃ path, old = some path ∧ kern.Walks step.1 false path i last) →
      (kern.fs.image i).nlink.toInt < 32767
  | _ => True

section

variable {im : Nat → Node} {d k i : Nat}

section

variable (dotted : Dotted im)

include dotted

theorem Dotted.edge_iff {idle : Prop} : ⟨d, k, i⟩ ∈ (tree idle im).edges ↔
    (idle ∨ 1 ≤ (im d).nlink.toInt) ∧ ∃ name, Names im d k name i := by
  constructor
  · rintro ⟨⟨dir, seen⟩, late, name, here⟩
    exact ⟨seen, name, dir, here, dotted.rest d k name i dir late here⟩
  · rintro ⟨seen, name, dir, here, notDot, notDotdot⟩
    refine ⟨⟨dir, seen⟩, ?_, name, here⟩
    match k with
    | 0 =>
      rw [dotted.self d dir, Option.some.injEq, mk.injEq] at here
      exact absurd here.1.symm notDot
    | 1 =>
      obtain ⟨_, there⟩ := dotted.upper d dir
      rw [there, Option.some.injEq, mk.injEq] at here
      exact absurd here.1.symm notDotdot
    | k + 2 => exact Nat.le_add_left _ _

theorem Dotted.names_iff : (∃ name, Names im d k name i) ↔ ⟨d, k, i⟩ ∈ (tree True im).edges := by
  rw [dotted.edge_iff, true_or, true_and]

theorem Dotted.finds (idle : Prop) (dir : IsDir (im i).type) :
    (im i).Finds dot 0 i ∧ (im i).Finds dotdot 1 ((tree idle im).up i) := by
  refine ⟨⟨dotted.self i dir, fun j low => absurd low (Nat.not_lt_zero j)⟩, dotted.up_eq idle dir,
    fun j low i' here => ?_⟩
  obtain rfl : j = 0 := by omega
  rw [dotted.self i dir, Option.some.injEq, mk.injEq] at here
  exact absurd here.1 (by decide)

theorem Dotted.treeShaped (shape : Shape ROOTINO (tree True im)) : TreeShaped im := by
  have root : IsDir (im ROOTINO).type := kindOf_dir.mp shape.top
  refine ⟨⟨root, (dotted.finds True root).1, ?_⟩, fun d k name names => ?_, fun i run dir o => ?_⟩
  · have finds := (dotted.finds True root).2
    rwa [shape.crown] at finds
  · exact shape.bare _ (dotted.names_iff.mp ⟨name, names⟩) rfl
  · rcases run.cases_tail with eq | ⟨d, before, k, name, names⟩
    · exact absurd eq o
    · have mem := dotted.names_iff.mp ⟨name, names⟩
      have finds := dotted.finds True dir
      have above : (tree True im).up i = d := shape.above _ mem (kindOf_dir.mpr dir)
      rw [above] at finds
      refine ⟨d, k, name, before, names, finds.1, finds.2, fun d' k' name' _ names' => ?_⟩
      have eq := shape.single _ (dotted.names_iff.mp ⟨name', names'⟩) _ mem rfl (kindOf_dir.mpr dir)
      rw [Edge.mk.injEq] at eq
      exact ⟨eq.1, eq.2.1⟩

end

end

structure Planted (kern : Kernel) : Prop where
  running : Running ⟨False, True⟩ kern
  small : kern.fs.disk.fssize ≤ FSSIZE
  dotted : Dotted kern.fs.image
  forest : Forest ROOTINO (tree True kern.fs.image)

theorem Planted.next {k k' : Kernel} {step : ProcSlot × Call} (planted : Planted k)
    (bounded : Call.Bounded k step) (leaves : Call.LeavesSmall k step) (next : Call.Next k step k') : Planted k' := by
  have advances := planted.running.advances trivial leaves next
  obtain ⟨stays, im, im', first, act, last⟩ := advances.evolves
  have forest := planted.forest.fade first.fade
  obtain ⟨dotted, ran⟩ := act_step planted.running.sound planted.small first
    (planted.dotted.faded first) forest (fun old new i last ty called walks => by
      rw [first.same_of_typed ty]
      rw [Call.Bounded, called] at bounded
      exact bounded i last ⟨old, rfl, walks⟩) act
  exact ⟨advances.running, stays.fssize ▸ planted.small, dotted.faded last, (forest.step ran).fade last.fade⟩

section

variable {idle : Prop}

theorem mkfsKernel_root {d : Nat} (dir : IsDir (mkfsKernel.fs.image d).type) :
    d = ROOTINO ∧ (mkfsKernel.fs.image d).slot = dots ROOTINO ROOTINO := by
  obtain rfl := mkfsKernel_typed (IsDir.blockType dir).ne_zero
  rw [mkfsKernel_image, mkfsNode_slot]
  exact ⟨rfl, rfl⟩

theorem mkfsKernel_dotted : Dotted mkfsKernel.fs.image := by
  refine ⟨fun i dir => ?_, fun i dir => ⟨ROOTINO, ?_⟩, fun i k name j dir late here => ?_⟩ <;>
    obtain ⟨rfl, slots⟩ := mkfsKernel_root dir
  · rw [slots]
    rfl
  · rw [slots]
    rfl
  · rw [slots] at here
    match k, late with
    | k + 2, _ => cases here

theorem mkfsKernel_edges : (tree idle mkfsKernel.fs.image).edges = ∅ := by
  refine Set.eq_empty_of_forall_notMem ?_
  rintro ⟨d, k, i⟩ ⟨⟨dir, _⟩, late, name, here⟩
  rw [(mkfsKernel_root dir).2] at here
  match k, late with
  | k + 2, _ => cases here

theorem mkfsKernel_upright : Upright ROOTINO (tree idle mkfsKernel.fs.image) := by
  have edges : (tree idle mkfsKernel.fs.image).edges = ∅ := mkfsKernel_edges
  have none : ∀ e, e ∉ (tree idle mkfsKernel.fs.image).edges := fun e => by
    rw [edges]
    exact Set.notMem_empty e
  have root : IsDir (mkfsKernel.fs.image ROOTINO).type := by
    rw [mkfsKernel_image]
    decide
  have peak : ∀ i, (tree idle mkfsKernel.fs.image).kind i ≠ .free → i = ROOTINO := fun i used =>
    mkfsKernel_typed fun free => used (kindOf_free.mpr free)
  have slack : ∀ i, (tree idle mkfsKernel.fs.image).kind i ≠ .free →
      (tree idle mkfsKernel.fs.image).slack ROOTINO i = 0 := by
    intro i used
    have links : (tree idle mkfsKernel.fs.image).links ROOTINO = 1 := by
      show (mkfsKernel.fs.image ROOTINO).nlink.toInt = 1
      rw [mkfsKernel_image]
      rfl
    rw [peak i used, Net.slack, Net.degree, tally_zero fun e mem => absurd mem (none e),
      tally_zero fun e mem => absurd mem (none e), if_pos rfl, links]
    rfl
  refine ⟨⟨⟨?_, fun e mem => absurd mem (none e), fun e mem => absurd mem (none e),
    fun e mem => absurd mem (none e), fun e mem => absurd mem (none e), kindOf_dir.mpr root, ?_,
    fun e mem => absurd mem (none e)⟩, fun i used => (slack i used).ge, fun i dir => ?_⟩, slack,
    fun e mem => absurd mem (none e), fun i dir _ => .inl (peak i ?_)⟩
  · rw [edges]
    exact Set.finite_empty
  · have here := mkfsKernel_dotted.up_eq idle root
    rw [(mkfsKernel_root root).2] at here
    exact (mk.inj (Option.some.inj here)).2.symm
  · exact slack i (by rw [dir]; decide)
  · rw [dir]
    decide

theorem mkfsKernel_small : mkfsKernel.fs.disk.fssize ≤ FSSIZE := le_rfl

theorem mkfsKernel_planted : Planted mkfsKernel :=
  ⟨mkfsKernel_running ⟨False, True⟩, mkfsKernel_small, mkfsKernel_dotted, mkfsKernel_upright.toForest⟩

end

/-- In every run in which nothing is written to a small file and no file gets more links than can
be counted, the directories reached from the root form a tree. -/
theorem directory_tree_kept (start : Kernel) (planted : Planted start) (kern : Kernel) (run : Reachable Call.Next
      (fun kern step => Call.Bounded kern step ∧ Call.LeavesSmall kern step) start kern) :
    TreeShaped kern.fs.image := by
  have planted := run.invariant Planted planted fun before step after planted allowed next =>
    planted.next allowed.1 allowed.2 next
  exact planted.dotted.treeShaped planted.forest.toShape

theorem directory_tree_made : Planted mkfsKernel ∧ ∃ kern : Kernel,
    Call.Next mkfsKernel (0, .sysMkdir (some [97])) kern ∧ Names kern.fs.image ROOTINO 2 [97] 2 ∧
    TreeShaped kern.fs.image := by
  have checked : ((Call.sysMkdir (some [97])).run 0 mkfsKernel).any (fun kern =>
      decide (Names kern.fs.image ROOTINO 2 [97] 2)) = true := by
    decide +kernel
  obtain ⟨kern, ran, value⟩ := (Option.any_eq_true _ _).mp checked
  have next : Call.Next mkfsKernel (0, .sysMkdir (some [97])) kern := ⟨by decide, ran⟩
  have bounded : Call.Bounded mkfsKernel (0, .sysMkdir (some [97])) := trivial
  exact ⟨mkfsKernel_planted, kern, next, of_decide_eq_true value,
    directory_tree_kept mkfsKernel mkfsKernel_planted kern (.step _ .start ⟨bounded, trivial⟩ next)⟩

/-- Data of a small file is taken for the number of the root directory's block when the file is
removed: a new directory "d" gets that block, and "d/x" is then an entry of the root as well. -/
theorem directory_tree_broken : ∃ kern : Kernel,
    Reachable Call.Next (fun _ _ => True) mkfsKernel kern ∧ Names kern.fs.image ROOTINO 2 [120] 4 ∧
    (kern.fs.image 4).type = T_DIR ∧ (kern.fs.image 4).slot 1 = some (dotdot, 3) ∧ ¬TreeShaped kern.fs.image := by
  have checked : (replayCalls [(0, .mkSmallFilesdir (some [115])),
        (0, .sysOpen (some [115, 47, 102]) (some (BitVec.ofNat 32 (O_CREATE + O_SFILE + O_RDWR)))),
        (0, .sysWrite (some 0) (fun index => if index = 0 then 59 else 0) (some 4)),
        (0, .sysUnlink (some [115, 47, 102])), (0, .sysClose (some 0)), (0, .sysMkdir (some [100])),
        (0, .sysMkdir (some [100, 47, 120]))] mkfsKernel).any
      (fun kern => decide (Names kern.fs.image ROOTINO 2 [120] 4) &&
        (kern.fs.image 4).type == T_DIR && (kern.fs.image 4).slot 1 == some (dotdot, 3)) = true := by
    decide +kernel
  obtain ⟨kern, run, value⟩ := calls_of_replay checked
  simp only [Bool.and_eq_true, beq_iff_eq, decide_eq_true_eq] at value
  obtain ⟨⟨names, dir⟩, above⟩ := value
  refine ⟨kern, run, names, dir, above, fun shaped => ?_⟩
  obtain ⟨d, k, name, _, _, _, finds, unique⟩ :=
    shaped.below 4 (.tail .refl ⟨2, [120], names⟩) (Or.inl dir) (by decide)
  have parent : d = 3 := by
    have here := finds.1
    rw [above] at here
    exact (Prod.mk.inj (Option.some.inj here)).2.symm
  have holder := (unique ROOTINO 2 [120] .refl names).1
  rw [parent] at holder
  exact absurd holder (by decide)

end Xv6
