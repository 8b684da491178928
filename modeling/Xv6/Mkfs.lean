import Xv6.Running

/-! The disk as `mkfs` leaves it without any files: a root directory with its two entries, and
the kernel that starts on it. -/

namespace Xv6

open Bytes Function

def mkfsBitmap (used : Nat) : Block := (List.range used).foldl (fun data b => data.setBit b) Bytes.zero

def mkfsEntries : Block :=
  Bytes.ofFn fun place => (direntBytes ROOTINO dot ++ direntBytes ROOTINO dotdot).getD place 0

def mkfsRoot : Dinode :=
  ⟨T_DIR, 0, 0, 1, BitVec.ofNat 32 BSIZE, Bytes.zero.setWord 0 mkfsSb.dataStart⟩

def mkfsDisk : Disk :=
  (Disk.blankWith (mkfsBitmap (mkfsSb.dataStart + 1))).setBlock mkfsSb.dataStart mkfsEntries

def mkfsFs : Fs := Fs.single mkfsDisk ROOTINO mkfsRoot

theorem bit_mkfsBitmap {used : Nat} (small : used ≤ BPB) (b : Nat) : (mkfsBitmap used).bit b = decide (b < used) := by
  induction used with
  | zero => simp [mkfsBitmap, bit_zero]
  | succ used ih =>
    have low : used / 8 < BSIZE := by
      simp only [BPB, BSIZE] at *
      omega
    have step : mkfsBitmap (used + 1) = (mkfsBitmap used).setBit used := by
      simp [mkfsBitmap, List.range_succ]
    rw [step, bit_setBit _ _ _ low, ih (by omega), Bool.eq_iff_iff]
    simp only [Bool.or_eq_true, decide_eq_true_eq]
    omega

def rootNode (entries : Block) : Node := ⟨T_DIR, 1, BitVec.ofNat 32 BSIZE, fun index =>
  if index < BSIZE then entries.byte index else 0⟩

theorem rootNode_beyond {entries : Block} {k : Nat} (outside : 32 ≤ k) : (rootNode entries).slot k = none := by
  refine Node.slot_beyond ?_
  have size : (rootNode entries).size.toNat = 512 := rfl
  simp only [deSize, size]
  omega

theorem rootNode_inside {entries : Block} {k : Nat} {entry : List UInt8 × Nat}
    (here : (rootNode entries).slot k = some entry) : k < 32 := by
  by_contra outside
  rw [rootNode_beyond (by omega)] at here
  cases here

section

variable {disk : Disk} (fmt : Formatted (mkfsBitmap (mkfsSb.dataStart + 1)) disk)

theorem mkfs_bitmap (b : Nat) : (mkfsBitmap (mkfsSb.dataStart + 1)).bit b = decide (b < mkfsSb.dataStart + 1) :=
  bit_mkfsBitmap (by decide) b

theorem mkfs_owns : Owner.Owns (update (fun _ => 0) (ROOTINO, some 0) mkfsSb.dataStart : Nat × Option Nat → Nat)
    (· < mkfsSb.dataStart + 1) mkfsSb.area := by
  have pos := mkfs_layout.not_area_zero
  have mem : mkfsSb.area mkfsSb.dataStart := ⟨le_rfl, by decide⟩
  -- before the root's block was handed out, no place held anything
  have blank : Owner.Owns (fun _ : Nat × Option Nat => 0) (· < mkfsSb.dataStart) mkfsSb.area :=
    ⟨fun _ has => absurd rfl has, fun _ _ _ has => absurd rfl has, fun b area =>
      iff_of_false area.1.not_gt fun ⟨_, here⟩ => pos (here ▸ area)⟩
  exact blank.alloc rfl pos mem (lt_irrefl _) (fun o => update_apply _ _ _ o) fun _ _ => Nat.lt_succ_iff_lt_or_eq

include fmt

theorem root_table : table mkfsSb (Fs.single disk ROOTINO mkfsRoot).disk.block =
      update (table mkfsSb Disk.blank.block) ROOTINO mkfsRoot :=
  single_table fmt (by decide)

theorem root_typed {inum : Nat}
    (ty : (table mkfsSb (Fs.single disk ROOTINO mkfsRoot).disk.block inum).type ≠ 0) : inum = ROOTINO := by
  by_contra o
  rw [root_table fmt, update_of_ne o] at ty
  exact ty (blank_table inum)

theorem root_pointers : (Fs.single disk ROOTINO mkfsRoot).pointers =
    update (fun _ => 0) (ROOTINO, some 0) mkfsSb.dataStart := by
  funext ⟨inum, k⟩
  rw [update_apply, Fs.pointers, single_sb fmt, root_table fmt, pointer_update_dinode]
  by_cases root : inum = ROOTINO
  · have indirect : mkfsRoot.addrs.word NDIRECT = 0 := by
      rw [mkfsRoot, word_setWord_ne _ _ (by decide), word_zero]
    rw [if_pos root, if_pos (by decide)]
    cases k with
    | none =>
      rw [blockOf, indirect, if_neg (by simp)]
    | some bn =>
      by_cases fst : bn = 0
      · subst fst
        rw [if_pos (by rw [root])]
        rfl
      · rw [if_neg (by simp [fst])]
        by_cases direct : bn < NDIRECT
        · rw [blockOf_direct direct, mkfsRoot, word_setWord_ne _ _ fst, word_zero]
        · exact blockOf_absent (by omega) (.inr indirect)
  · rw [if_neg root, if_neg (by simp [root])]
    exact pointer_of_not_type (fun ty => ty.ne_zero (blank_table inum)) k

theorem root_wellFormed : WellFormed (Fs.single disk ROOTINO mkfsRoot) := by
  have places := root_pointers fmt
  constructor
  · rw [single_sb fmt]
    refine mkfs_owns.congr (fun i => ?_) fun b area => ?_
    · rw [places]
    · rw [single_bitmap fmt (by decide) area.2, mkfs_bitmap, decide_eq_true_eq]
  · intro inum ty
    rw [single_sb fmt] at ty ⊢
    have root := root_typed fmt ty.ne_zero
    have count : blocksOf mkfsRoot.size.toNat = 1 := by decide
    rw [root, root_table fmt, update_self, count, places]
    refine ⟨by decide, fun bn _ => ?_, by decide⟩
    by_cases fst : bn = 0
    · subst fst
      decide
    · rw [update_of_ne (by simp [fst])]
      omega

theorem root_coherent : Coherent (Fs.single disk ROOTINO mkfsRoot) :=
  single_coherent fmt (by decide) (fun b small => by
    rw [mkfs_bitmap, decide_eq_true_eq]
    exact Nat.lt_succ_of_lt small) (by decide)

theorem root_image : (Fs.single disk ROOTINO mkfsRoot).image ROOTINO = rootNode (disk.block mkfsSb.dataStart) := by
  have byte : fileByte (Fs.single disk ROOTINO mkfsRoot).pointers (Fs.single disk ROOTINO mkfsRoot).disk.block ROOTINO =
        (rootNode (disk.block mkfsSb.dataStart)).byte := by
    funext i
    rw [fileByte, root_pointers fmt]
    by_cases low : i < BSIZE
    · rw [Nat.div_eq_of_lt low, Nat.mod_eq_of_lt low, update_self, if_neg (by decide),
        single_block fmt, update_of_ne (by decide)]
      exact (if_pos low).symm
    · have far : i / BSIZE ≠ 0 := by
        simp only [BSIZE] at *
        omega
      rw [update_of_ne (by simp [far]), if_pos rfl]
      exact (if_neg low).symm
  rw [Fs.image, single_sb fmt, root_table fmt, update_self, byte]
  rfl

theorem root_image_other {inum : Nat} (o : inum ≠ ROOTINO) :
    ((Fs.single disk ROOTINO mkfsRoot).image inum).type = 0 := by
  have free : (table mkfsSb (Fs.single disk ROOTINO mkfsRoot).disk.block inum).type = 0 := by
    by_contra ty
    exact o (root_typed fmt ty)
  have sb : (Fs.single disk ROOTINO mkfsRoot).disk.sb = mkfsSb := single_sb fmt
  rw [← sb] at free
  exact free

theorem root_tidy {blank : Prop} (named : ∀ k < 32, ∀ entry ∈ (rootNode (disk.block mkfsSb.dataStart)).slot k,
      entry.2 < mkfsSb.ninodes) : Tidy blank (Fs.single disk ROOTINO mkfsRoot).image mkfsSb.ninodes := by
  refine ⟨fun i ty unblocked => ?_, fun d k name i dir here => ?_⟩
  · have root : i = ROOTINO := not_imp_comm.mp (root_image_other fmt) ty
    rw [root, root_image fmt] at unblocked
    exact absurd (.inr (.inl rfl)) unblocked
  · have root : d = ROOTINO := not_imp_comm.mp (root_image_other fmt) (IsDir.blockType dir).ne_zero
    rw [root, root_image fmt] at here
    exact named k (rootNode_inside here) _ here

theorem root_sound (R : Rules) (named : ∀ k < 32, ∀ entry ∈ (rootNode (disk.block mkfsSb.dataStart)).slot k,
      entry.2 < mkfsSb.ninodes) : Sound R (Fs.single disk ROOTINO mkfsRoot) := by
  have sb : (Fs.single disk ROOTINO mkfsRoot).disk.sb = mkfsSb := single_sb fmt
  refine ⟨root_coherent fmt, root_wellFormed fmt, ?_, fun ip live => ?_, ?_, ?_, fun _ i ty cut => ?_⟩
  · rw [sb]
    exact root_tidy fmt named
  · rw [single_referenced live, sb]
    exact ⟨show 0 < ROOTINO by decide, show ROOTINO < NINODES by decide⟩
  · rw [sb]
    decide
  · rw [sb]
    decide
  · have root : i = ROOTINO := not_imp_comm.mp (root_image_other fmt) ty
    rw [root, root_image fmt] at cut
    exact absurd (show (1 : BitVec 16) = 0 from cut) (by decide)

end

def mkfsNode : Node := rootNode mkfsEntries

theorem mkfsDisk_formatted : Formatted (mkfsBitmap (mkfsSb.dataStart + 1)) mkfsDisk := by
  refine ⟨rfl, rfl, rfl, fun b low => ?_⟩
  rw [mkfsDisk, Disk.setBlock_block, update_of_ne low.ne]

theorem mkfsDisk_entries : mkfsDisk.block mkfsSb.dataStart = mkfsEntries := by
  rw [mkfsDisk, Disk.setBlock_block, update_self]

theorem mkfs_image : mkfsFs.image ROOTINO = mkfsNode := by
  rw [mkfsFs, root_image mkfsDisk_formatted, mkfsDisk_entries]
  rfl

theorem mkfsNode_slot : mkfsNode.slot = dots ROOTINO ROOTINO := by
  have low : ∀ k < 32, mkfsNode.slot k = dots ROOTINO ROOTINO k := by decide +kernel
  funext k
  by_cases inside : k < 32
  · exact low k inside
  · rw [mkfsNode, rootNode_beyond (by omega)]
    match k, inside with
    | _ + 2, _ => rfl

theorem mkfs_sound (R : Rules) : Sound R mkfsFs := by
  refine root_sound mkfsDisk_formatted R ?_
  rw [mkfsDisk_entries]
  show ∀ k < 32, ∀ entry ∈ mkfsNode.slot k, entry.2 < mkfsSb.ninodes
  rw [mkfsNode_slot]
  decide

def mkfsKernel : Kernel := Kernel.single mkfsFs

theorem mkfsKernel_excess : mkfsKernel.excess = 0 := by
  have counted : Counted mkfsKernel := by
    unfold Counted
    decide +kernel
  exact counted_iff.mp counted

theorem mkfsKernel_running (R : Rules) : Running R mkfsKernel := by
  refine ⟨mkfs_sound R, by decide, fun f => ⟨le_rfl, fun _ => ?_⟩, fun ip => ?_,
    fun ip more => ?_, fun f ip uses => ?_, fun p ip uses => ?_⟩
  · simp [mkfsKernel, Kernel.single]
  · rw [mkfsKernel_excess]
    rfl
  · rw [mkfsKernel_excess] at more
    exact absurd more (lt_irrefl _)
  · exact absurd uses.1 (lt_irrefl _)
  · have entry : ip = 0 := by
      by_cases fst : p = 0
      · subst fst
        exact (Option.some.inj uses.2).symm
      · have idle : mkfsKernel.ptable p = ⟨.unused, 0, none, fun _ => none, none⟩ := if_neg fst
        rw [idle] at uses
        cases uses.2
    have root : mkfsKernel.fs.nodeAt ip = mkfsNode := by
      rw [entry]
      exact mkfs_image
    rw [root]
    decide

theorem mkfsKernel_image : mkfsKernel.fs.image ROOTINO = mkfsNode := mkfs_image

theorem mkfsKernel_typed {d : Nat} (ty : (mkfsKernel.fs.image d).type ≠ 0) : d = ROOTINO :=
  not_imp_comm.mp (root_image_other mkfsDisk_formatted) ty

theorem mkfsNode_entry {k i : Nat} {name : List UInt8} (here : mkfsNode.slot k = some (name, i)) :
    i = ROOTINO ∧ (k = 0 ∧ name = dot ∨ k = 1 ∧ name = dotdot) := by
  rw [mkfsNode_slot] at here
  match k, here with
  | 0, rfl => exact ⟨rfl, .inl ⟨rfl, rfl⟩⟩
  | 1, rfl => exact ⟨rfl, .inr ⟨rfl, rfl⟩⟩

theorem mkfsKernel_noDangling : NoDangling mkfsKernel.fs.image := by
  intro d k name i dir here
  have root := mkfsKernel_typed (IsDir.blockType dir).ne_zero
  rw [root, mkfsKernel_image] at here
  rw [(mkfsNode_entry here).1, mkfsKernel_image]
  decide

def replayCalls (calls : List (ProcSlot × Call)) (start : Kernel) : Option Kernel :=
  Reach.replay (fun kernel (step : ProcSlot × Call) => step.2.run step.1 kernel)
    (fun kernel step => (kernel.ptable step.1).live) calls start

theorem calls_of_replay {start : Kernel} {calls : List (ProcSlot × Call)} {test : Kernel → Bool}
    (checked : (replayCalls calls start).any test = true) :
    ∃ k, Reach.Reachable Call.Next (fun _ _ => True) start k ∧ test k = true := by
  obtain ⟨k, reached, passed⟩ := Reach.Reachable.of_replay
    (fun s step s' alive ran => (⟨alive, ran⟩ : Call.Next s step s')) checked
  exact ⟨k, reached.widen fun _ _ _ => trivial, passed⟩

end Xv6
