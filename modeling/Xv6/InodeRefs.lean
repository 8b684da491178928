import Xv6.SysfileCore
import Xv6.Inodes
import Xv6.Lib.Frames
import Mathlib.Algebra.Group.Pi.Lemmas
import Mathlib.Tactic.Abel

/-! What the functions of the inode and directory layers do to the reference counts of the inode
cache, on any disk whatever: which reference each hands out, takes over or gives back. -/

namespace Xv6

open Exec List Fs Inode Pi Prod

variable {ip : Inode} {α : Type} {fs : Fs} {src : Nat → UInt8}

structure Standing where
  ref : Int
  locked : Nat
  valid : Bool
  type : BitVec 16

def Inode.standing (ip : Inode) : Standing := ⟨ip.ref, ip.locked, ip.valid, ip.dinode.type⟩

def Fs.standing (fs : Fs) (sl : Slot) : Standing := (fs.icache sl).standing

def Fs.refs (fs : Fs) (sl : Slot) : Int := (fs.icache sl).ref

def claim : Option Slot → Slot → Int
  | some sl => Pi.single sl 1
  | none => 0

section

variable {fs : Fs} {sl : Slot}

theorem Fs.standing_setInode (same : ip.standing = (fs.icache sl).standing) :
    (fs.setInode sl ip).standing = fs.standing := by
  funext o
  by_cases here : o = sl
  · rw [here, Fs.standing, setInode_same, same, Fs.standing]
  · rw [Fs.standing, setInode_ne _ _ _ here, Fs.standing]

theorem Fs.refs_setInode (ip : Inode) :
    (fs.setInode sl ip).refs = fs.refs + Pi.single sl (ip.ref - (fs.icache sl).ref) := by
  funext o
  by_cases here : o = sl
  · rw [here, Fs.refs, setInode_same, Pi.add_apply, single_eq_same, Fs.refs]
    omega
  · rw [Fs.refs, setInode_ne _ _ _ here, Pi.add_apply, single_eq_of_ne here, add_zero, Fs.refs]

theorem Fs.refs_setInode_same (same : ip.ref = (fs.icache sl).ref) : (fs.setInode sl ip).refs = fs.refs := by
  rw [refs_setInode, same, sub_self, single_zero, add_zero]

theorem refs_of {prog : FsM α} (kept : Keeps Fs.standing prog) : Keeps Fs.refs prog :=
  kept.map fun standing sl => (standing sl).ref

end

section

variable {sl : Slot}

theorem keeps_onDisk {V : Type} {view : Fs → V} (prog : DiskM α)
    (disk : ∀ fs disk, view (fs.setDisk disk) = view fs) : Keeps view (onDisk prog) := fun fs =>
  (onDisk_frame prog fs).conseq fun _ fs' done => by
    obtain ⟨disk', rfl⟩ := done
    exact disk fs disk'

theorem standing_onDisk (prog : DiskM α) : Keeps Fs.standing (onDisk prog) :=
  keeps_onDisk prog fun _ _ => rfl

theorem standing_inode : Keeps Fs.standing (inode sl) := fun _ => holds_inode.mpr rfl

theorem standing_modifyDinode {change : Dinode → Dinode} (eq : ∀ dinode, (change dinode).type = dinode.type) :
    Keeps Fs.standing (modifyDinode sl change) := fun fs =>
  holds_modifyDinode.mpr (standing_setInode (by
    simp only [Inode.standing, setDinode_ref, setDinode_locked, setDinode_valid, setDinode_dinode, eq]))

theorem standing_setAddr (i val : Nat) : Keeps Fs.standing (setAddr sl i val) := by
  rw [setAddr]
  exact standing_modifyDinode fun _ => rfl

theorem standing_iupdate : Keeps Fs.standing (iupdate sl) :=
  keeps_get.bind fun _ => standing_onDisk _

theorem standing_bmapAddr (i : Nat) : Keeps Fs.standing (bmapAddr sl i) :=
  standing_inode.bind fun _ => .ite
    ((standing_onDisk _).bind fun _ => (standing_setAddr _ _).bind fun _ => keeps_pure _) (keeps_pure _)

theorem standing_bmap (bn : Nat) : Keeps Fs.standing (bmap sl bn) :=
  .ite (standing_bmapAddr _) (.ite ((standing_bmapAddr _).bind fun _ => standing_onDisk _) (keeps_halt _))

theorem standing_readBlocks (n fuel tot off : Nat) : Keeps Fs.standing (readBlocks sl n fuel tot off) := by
  induction fuel generalizing tot off with
  | zero => exact keeps_pure _
  | succ fuel ih =>
    exact .ite ((standing_bmap _).bind fun _ => (standing_onDisk _).bind fun _ =>
      (ih _ _).bind fun _ => keeps_pure _) (keeps_pure _)

theorem standing_readi (off n : BitVec 32) : Keeps Fs.standing (readi sl off n) := by
  refine keeps_get.bind fun fs => .ite (.ite (keeps_pure _) ?_) (.ite (keeps_pure _) ?_)
  · split <;> exact keeps_pure _
  · exact .ite (keeps_pure _) ((standing_readBlocks _ _ _ _).bind fun _ => keeps_pure _)

theorem standing_readDirent (off : Nat) (message : String) : Keeps Fs.standing (readDirent sl off message) := by
  refine (standing_readi _ _).bind fun de => ?_
  cases de with
  | none => exact keeps_halt _
  | some bytes => exact .ite (keeps_halt _) (keeps_pure _)

theorem standing_emptyDirent (fuel off : Nat) : Keeps Fs.standing (emptyDirent sl fuel off) := by
  induction fuel generalizing off with
  | zero => exact keeps_pure _
  | succ fuel ih =>
    exact standing_inode.bind fun _ => .ite ((standing_readDirent _ _).bind fun _ =>
      .ite (keeps_pure _) (ih _)) (keeps_pure _)

theorem standing_isdirempty (fuel off : Nat) : Keeps Fs.standing (isdirempty sl fuel off) := by
  induction fuel generalizing off with
  | zero => exact keeps_pure _
  | succ fuel ih =>
    exact standing_inode.bind fun _ => .ite ((standing_readDirent _ _).bind fun _ =>
      .ite (keeps_pure _) (ih _)) (keeps_pure _)

theorem standing_removable : Keeps Fs.standing (removable sl) :=
  standing_inode.bind fun _ => .ite (keeps_halt _) (.ite (standing_isdirempty _ _) (keeps_pure _))

theorem standing_addNlink (change : BitVec 16) : Keeps Fs.standing (addNlink sl change) := by
  refine Keeps.bind ?_ fun _ => standing_iupdate
  exact standing_modifyDinode fun _ => rfl

theorem standing_grow (off n : BitVec 32) : Keeps Fs.standing (grow sl off n) := by
  refine standing_inode.bind fun _ => .onlyIf (Keeps.bind ?_ fun _ => standing_iupdate)
  exact standing_modifyDinode fun _ => rfl

theorem standing_writeBlocks (src : Nat → UInt8) (n fuel tot off : Nat) :
    Keeps Fs.standing (writeBlocks sl src n fuel tot off) := by
  induction fuel generalizing tot off with
  | zero => exact keeps_pure _
  | succ fuel ih =>
    exact .ite ((standing_bmap _).bind fun _ => (standing_onDisk _).bind fun _ => ih _ _) (keeps_pure _)

theorem standing_moveIn {off n : Nat} (low : off + n ≤ 52) : (fs.moveIn sl off n src).standing = fs.standing := by
  funext o
  simp only [Fs.standing, moveIn]
  split
  · rfl
  · rename_i ne
    rw [if_neg]
    have numbers : o.val ≠ sl.val := fun eq => ne (Fin.ext eq)
    simp only [addrsAt]
    omega

def Contained (dinode : Dinode) (off n : BitVec 32) : Prop :=
  dinode.type = T_SFILE → Refused dinode off n ∨ off.toNat + n.toNat ≤ 52

theorem standing_writei  {off n : BitVec 32} (fits : Contained (fs.icache sl).dinode off n) :
    Holds (writei sl src off n) fs fun _ fs' => fs'.standing = fs.standing := by
  by_cases device : (fs.icache sl).dinode.type = T_DEV
  · simp only [writei, holds_bind, holds_get, if_pos device]
    rw [holds_ite, holds_pure]
    refine ⟨fun _ => rfl, fun _ => ?_⟩
    split <;> exact .pure rfl
  · refine holds_writei device (fun _ => rfl) fun ok => ?_
    have copied : Holds (writeData sl (fs.icache sl).dinode.type src off.toNat n.toNat) fs
        fun _ fs' => fs'.standing = fs.standing := by
      rw [writeData]
      split
      · rename_i small
        exact holds_modify.mpr (standing_moveIn ((fits small).resolve_left ok))
      · exact standing_writeBlocks _ _ _ _ _ fs
    refine copied.conseq fun _ fs' eq => ?_
    exact (standing_grow _ _ fs').conseq fun _ _ after => after.trans eq

theorem standing_loaduvm (offset : BitVec 32) (sz fuel i : Nat) : Keeps Fs.standing (loaduvm sl offset sz fuel i) := by
  induction fuel generalizing i with
  | zero => exact keeps_pure _
  | succ fuel ih =>
    exact .ite ((standing_readi _ _).bind fun _ => .ite (ih _) (keeps_pure _)) (keeps_pure _)

theorem standing_loadHeaders (memory : ExecMemory) (left i : Nat) (off : BitVec 32) :
    Keeps Fs.standing (loadHeaders sl memory left i off) := by
  induction left generalizing i off with
  | zero => exact keeps_pure _
  | succ left ih =>
    refine (standing_readi _ _).bind fun header => .ite (keeps_pure _) (.ite (ih _ _)
      (.ite (keeps_pure _) (.ite (keeps_pure _) (.ite (keeps_pure _) (.ite (keeps_pure _) ?_)))))
    exact (standing_loaduvm _ _ _ _).bind fun _ => .ite (ih _ _) (keeps_pure _)

theorem standing_loadImage (memory : ExecMemory) : Keeps Fs.standing (loadImage sl memory) :=
  (standing_readi _ _).bind fun _ => .ite (keeps_pure _) (.ite (keeps_pure _) (.ite (keeps_pure _)
    (standing_loadHeaders _ _ _ _)))

end

section

variable {sl : Slot}

theorem refs_modifyInode {change : Inode → Inode} (eq : ∀ ip, (change ip).ref = ip.ref) :
    Keeps Fs.refs (modifyInode sl change) := fun _ =>
  holds_modifyInode.mpr (refs_setInode_same (eq _))

theorem refs_iget (dev inum : Nat) : Shifts Fs.refs (iget dev inum) fun sl => Pi.single sl 1 := by
  intro fs
  refine holds_iget (fun _ => trivial) (fun sl _ _ _ => ?_) fun _ sl unused => ?_
  · rw [refs_setInode, setRef_ref, add_sub_cancel_left]
  · rw [refs_setInode, recycle_ref, unused, sub_zero]

theorem refs_idup : Shifts Fs.refs (idup sl) fun sl => Pi.single sl 1 := by
  intro fs
  rw [idup, holds_bind, holds_modifyInode, holds_pure, refs_setInode, setRef_ref, add_sub_cancel_left]

theorem refs_ilock : Keeps Fs.refs (ilock sl) := by
  intro fs
  refine (ilock_spec fs sl).conseq fun _ fs' done => ?_
  obtain ⟨_, _, ⟨_, rfl⟩ | ⟨_, _, rfl⟩⟩ := done <;> exact refs_setInode_same rfl

theorem refs_iunlock : Keeps Fs.refs (iunlock sl) := by
  intro fs
  refine (iunlock_spec fs sl).conseq fun _ fs' done => ?_
  subst done
  exact refs_setInode_same rfl

theorem standing_itrunc : Keeps Fs.standing (itrunc sl) := by
  have direct : Keeps Fs.standing (itruncDirect sl) := .upto fun _ => standing_inode.bind fun _ =>
    .onlyIf ((standing_onDisk _).bind fun _ => standing_setAddr _ _)
  have indirect : Keeps Fs.standing (itruncIndirect sl) := standing_inode.bind fun _ =>
    .onlyIf ((standing_onDisk _).bind fun _ => Keeps.bind (.upto fun _ => .onlyIf (standing_onDisk _))
      fun _ => (standing_onDisk _).bind fun _ => (standing_onDisk _).bind fun _ => standing_setAddr _ _)
  refine direct.bind fun _ => indirect.bind fun _ => Keeps.bind ?_ fun _ => standing_iupdate
  exact standing_modifyDinode fun _ => rfl

theorem refs_ifree : Keeps Fs.refs (ifree sl) := by
  refine (refs_of standing_itrunc).bind fun _ => Keeps.bind ?_ fun _ =>
    (refs_of standing_iupdate).bind fun _ => refs_modifyInode fun _ => rfl
  exact refs_modifyInode fun _ => rfl

theorem refs_iput : Shifts Fs.refs (iput sl) fun _ => -Pi.single sl 1 := by
  refine (refs_of standing_inode).andShifts fun _ => (Keeps.onlyIf refs_ifree).andShifts fun _ fs => ?_
  rw [holds_modifyInode, refs_setInode, setRef_ref, sub_sub_cancel_left, single_neg]

theorem refs_iunlockput : Shifts Fs.refs (iunlockput sl) fun _ => -Pi.single sl 1 :=
  refs_iunlock.andShifts fun _ => refs_iput

theorem refs_ialloc (dev : Nat) (type : BitVec 16) : Shifts Fs.refs (ialloc dev type) fun sl => Pi.single sl 1 := by
  refine keeps_get.andShifts fun fs => ?_
  generalize fs.disk.sb = sb
  generalize sb.ninodes = n
  generalize 1 = inum
  induction n generalizing inum with
  | zero => exact shifts_halt _ _
  | succ n ih =>
    refine .ite ((refs_of (standing_onDisk _)).andShifts fun _ => .ite ?_ ?_) (shifts_halt _ _)
    · exact (refs_of (standing_onDisk _)).andShifts fun _ => (refs_of (standing_onDisk _)).andShifts fun _ =>
        (refs_of (standing_onDisk _)).andShifts fun _ => refs_iget _ _
    · exact (refs_of (standing_onDisk _)).andShifts fun _ => ih _

end

def Fs.grip (fs : Fs) (sl : Slot) : Nat × BitVec 16 :=
  ((fs.icache sl).locked, (fs.icache sl).dinode.type)

def IsDir (type : BitVec 16) : Prop := type = T_DIR ∨ type = T_SDIR

theorem IsDir.ne_small {type : BitVec 16} (dir : IsDir type) : type ≠ T_SFILE := by
  rcases dir with rfl | rfl <;> decide

theorem IsDir.contained {dinode : Dinode} (dir : IsDir dinode.type) (off n : BitVec 32) : Contained dinode off n :=
  fun small => absurd small dir.ne_small

section

variable {dp : Slot}

theorem refs_dirlookupFrom (name : List UInt8) (fuel off : Nat) :
    Shifts Fs.refs (dirlookupFrom dp name fuel off) fun hit => claim (hit.map fst) := by
  induction fuel generalizing off with
  | zero => exact shifts_pure rfl
  | succ fuel ih =>
    refine (refs_of standing_inode).andShifts fun _ => .ite ?_ (shifts_pure rfl)
    refine (refs_of (standing_readDirent _ _)).andShifts fun _ => .ite (ih _) (.ite ?_ (ih _))
    exact (refs_iget _ _).bind fun _ => shifts_pure (sub_self _)

theorem refs_dirlookup (name : List UInt8) : Shifts Fs.refs (dirlookup dp name) fun hit => claim (hit.map fst) :=
  (refs_of standing_inode).andShifts fun _ => .ite (shifts_halt _ _) (refs_dirlookupFrom _ _ _)

theorem grip_of {prog : FsM α} (kept : Keeps Fs.standing prog) : Keeps Fs.grip prog :=
  kept.map fun standing sl => ((standing sl).locked, (standing sl).type)

theorem grip_setInode {sl : Slot} (locked : ip.locked = (fs.icache sl).locked)
    (type : ip.dinode.type = (fs.icache sl).dinode.type) : (fs.setInode sl ip).grip = fs.grip := by
  funext o
  by_cases here : o = sl
  · rw [here, Fs.grip, setInode_same, locked, type, Fs.grip]
  · rw [Fs.grip, setInode_ne _ _ _ here, Fs.grip]

theorem grip_iget (dev inum : Nat) : Keeps Fs.grip (iget dev inum) := fun _ =>
  holds_iget (fun _ => trivial) (fun _ _ _ _ => grip_setInode rfl rfl) fun _ _ _ =>
    grip_setInode rfl rfl

theorem grip_dirlookupFrom (name : List UInt8) (fuel off : Nat) : Keeps Fs.grip (dirlookupFrom dp name fuel off) := by
  induction fuel generalizing off with
  | zero => exact keeps_pure _
  | succ fuel ih =>
    refine (grip_of standing_inode).bind fun _ => .ite ?_ (keeps_pure _)
    refine (grip_of (standing_readDirent _ _)).bind fun _ => .ite (ih _) (.ite ?_ (ih _))
    exact (grip_iget _ _).bind fun _ => keeps_pure _

theorem dirlookup_refs (fs : Fs) (name : List UInt8) : Holds (dirlookup dp name) fs fun hit fs' =>
      fs'.refs = fs.refs + claim (hit.map fst) ∧ fs'.grip = fs.grip ∧ IsDir (fs.icache dp).dinode.type := by
  simp only [dirlookup, holds_bind, holds_inode]
  rw [holds_ite]
  refine ⟨fun _ => holds_halt.mpr trivial, fun dir => ?_⟩
  refine ((refs_dirlookupFrom name _ _ fs).and (grip_dirlookupFrom name _ _ fs)).mono
    (fun hit fs' done => ⟨done.1, done.2, ?_⟩) fun _ _ => trivial
  rw [IsDir]
  tauto

theorem refs_dirlink (name : List UInt8) (inum : Nat) : Keeps Fs.refs (dirlink dp name inum) := by
  intro fs
  rw [dirlink]
  refine (dirlookup_refs fs name).bind ?_
  rintro hit fs1 ⟨refs, grip, dir⟩
  cases hit with
  | some ent =>
    refine (refs_iput fs1).bind fun _ fs2 put => ?_
    rw [holds_pure, put, refs]
    exact add_neg_cancel_right _ _
  | none =>
    have eq : fs1.refs = fs.refs := refs.trans (add_zero _)
    rw [holds_bind, holds_inode]
    refine (standing_emptyDirent _ _ fs1).bind fun off fs2 kept => ?_
    have type : (fs2.icache dp).dinode.type = (fs.icache dp).dinode.type :=
      (congrArg Standing.type (congrFun kept dp)).trans (congrArg snd (congrFun grip dp))
    refine (standing_writei (IsDir.contained (type ▸ dir) _ _)).bind fun n fs3 wrote => ?_
    have after : fs3.refs = fs.refs := by
      rw [← eq]
      exact funext fun sl => congrArg Standing.ref (congrFun (wrote.trans kept) sl)
    exact (Keeps.ite (keeps_halt _) (keeps_pure _) fs3).conseq fun _ _ done => done.trans after

theorem skipelem_shorter {path name rest : List UInt8} (hit : skipelem path = some (name, rest)) :
    rest.length < path.length := by
  simp only [skipelem] at hit
  split at hit
  · cases hit
  · rename_i more
    cases hit
    have fst := (dropWhile_sublist (l := path) (· == slash)).length_le
    cases shape : path.dropWhile (· == slash) with
    | nil => simp [shape] at more
    | cons byte others =>
      have head : (byte == slash) = false := by
        have starts := head_dropWhile_not (l := path) (· == slash) (by simp [shape])
        simpa only [shape, head_cons] using starts
      have nonslash : (byte != slash) = true := by simp [bne, head]
      have snd := (dropWhile_sublist (l := others) (· != slash)).length_le
      have third := (dropWhile_sublist (l := others.dropWhile (· != slash)) (· == slash)).length_le
      rw [shape, length_cons] at fst
      simp only [dropWhile_cons, nonslash, if_true]
      omega

theorem refs_namexFrom (up : Bool) (fuel : Nat) (ip : Slot) (path : List UInt8) (enough : path.length < fuel) :
    Shifts Fs.refs (namexFrom up fuel ip path) fun hit =>
      claim (hit.map fst) - Pi.single ip 1 := by
  have gone : ∀ res : Option (Slot × List UInt8), res = none →
      claim (res.map fst) - Pi.single ip 1 - -Pi.single ip 1 = 0 := by
    rintro _ rfl
    simp [claim]
  have eq : ∀ name : List UInt8, claim ((some (ip, name)).map fst) - Pi.single ip 1 = 0 :=
    fun _ => sub_self _
  induction fuel generalizing ip path with
  | zero => omega
  | succ fuel ih =>
    rw [namexFrom]
    cases element : skipelem path with
    | none => exact .ite (refs_iput.bind fun _ => shifts_pure (gone _ rfl)) (shifts_pure (eq _))
    | some split =>
      obtain ⟨name, rest⟩ := split
      have shorter := skipelem_shorter element
      refine refs_ilock.andShifts fun _ => (refs_of standing_inode).andShifts fun _ => .ite
        (refs_iunlockput.bind fun _ => shifts_pure (gone _ rfl)) (.ite
          (refs_iunlock.andShifts fun _ => shifts_pure (eq _)) ?_)
      refine (refs_dirlookup name).bind fun next => ?_
      cases next with
      | none => exact refs_iunlockput.bind fun _ => shifts_pure (by simp [claim])
      | some ent =>
        refine refs_iunlockput.bind fun _ => (ih ent.1 rest (by omega) ?_ ?_).congr ?_
        · rintro _ rfl
          simp [claim]
        · exact fun _ => sub_self _
        · intro hit
          simp only [Option.map_some, claim]
          abel

theorem refs_namex (cwd : Slot) (path : List UInt8) (up : Bool) :
    Shifts Fs.refs (namex cwd path up) fun hit => claim (hit.map fst) := by
  have s0 : Shifts Fs.refs (namexStart cwd path) fun sl => Pi.single sl 1 :=
    .ite (refs_iget _ _) refs_idup
  exact s0.bind fun ip => refs_namexFrom up _ ip path (by omega)

theorem refs_namei (cwd : Slot) (path : List UInt8) : Shifts Fs.refs (namei cwd path) claim :=
  (refs_namex cwd path false).bind fun _ => shifts_pure (sub_self _)

theorem refs_nameiparent (cwd : Slot) (path : List UInt8) :
    Shifts Fs.refs (nameiparent cwd path) fun hit => claim (hit.map fst) :=
  refs_namex cwd path true

end

section

variable {cwd dp ip : Slot}

theorem refs_createDots (message : String) : Keeps Fs.refs (createDots dp ip message) :=
  (refs_of (standing_addNlink _)).bind fun _ => (refs_of standing_inode).bind fun _ =>
    (refs_of standing_inode).bind fun _ => (refs_dirlink _ _).bind fun _ =>
      .ite ((refs_dirlink _ _).bind fun _ => .onlyIf (keeps_halt _)) (keeps_halt _)

theorem refs_createIn (name : List UInt8) (type major minor : BitVec 16) :
    Shifts Fs.refs (createIn dp name type major minor) fun ip => Pi.single ip 1 - Pi.single dp 1 := by
  refine (refs_of standing_inode).andShifts fun _ => (refs_ialloc _ _).bind fun made => ?_
  refine refs_ilock.andShifts fun _ => Keeps.andShifts ?_ fun _ =>
    (refs_of standing_iupdate).andShifts fun _ => (Keeps.onlyIf (refs_createDots _)).andShifts fun _ =>
      (Keeps.onlyIf (refs_createDots _)).andShifts fun _ => (refs_of standing_inode).andShifts fun _ =>
        (refs_dirlink _ _).andShifts fun _ => .ite ?_ (shifts_halt _ _)
  · exact refs_of (standing_modifyDinode fun _ => rfl)
  · exact refs_iunlockput.bind fun _ => shifts_pure (by abel)

theorem refs_create (path : List UInt8) (type major minor : BitVec 16) :
    Shifts Fs.refs (create cwd path type major minor) claim := by
  refine (refs_nameiparent cwd path).bind fun hit => ?_
  cases hit with
  | none => exact shifts_pure (sub_self _)
  | some up =>
    obtain ⟨dp, name⟩ := up
    refine refs_ilock.andShifts fun _ => (refs_dirlookup name).bind fun ent => ?_
    cases ent with
    | none => exact (refs_createIn _ _ _ _).bind fun _ => shifts_pure (by simp [claim])
    | some existing =>
      obtain ⟨ip, off⟩ := existing
      refine refs_iunlockput.bind fun _ => refs_ilock.andShifts fun _ =>
        (refs_of standing_inode).andShifts fun _ => .ite ?_ ?_
      · exact shifts_pure (by simp only [Option.map_some, claim]; abel)
      · exact refs_iunlockput.bind fun _ => shifts_pure (by simp only [Option.map_some, claim]; abel)

theorem refs_openExisting (path : List UInt8) (omode : BitVec 32) :
    Shifts Fs.refs (openExisting cwd path omode) claim := by
  refine (refs_namei cwd path).bind fun hit => ?_
  cases hit with
  | none => exact shifts_pure (sub_self _)
  | some ip =>
    refine refs_ilock.andShifts fun _ => (refs_of standing_inode).andShifts fun _ => .ite ?_ ?_
    · exact refs_iunlockput.bind fun _ => shifts_pure (by simp [claim])
    · exact shifts_pure (sub_self _)

theorem refs_linkInto (new : List UInt8) : Keeps Fs.refs (linkInto cwd ip new) := by
  refine Shifts.keeps ((refs_nameiparent cwd new).bind fun hit => ?_)
  cases hit with
  | none => exact shifts_pure (sub_self _)
  | some up =>
    obtain ⟨dp, name⟩ := up
    have back : ∀ linked : Bool, Shifts Fs.refs (do iunlockput dp; return linked) fun _ =>
        0 - claim ((some (dp, name)).map fst) := fun _ =>
      refs_iunlockput.bind fun _ => shifts_pure (by simp [claim])
    exact refs_ilock.andShifts fun _ => (refs_of standing_inode).andShifts fun _ =>
      (refs_of standing_inode).andShifts fun _ => .ite (back _) ((refs_dirlink _ _).andShifts fun _ => back _)

theorem refs_link (old new : List UInt8) : Keeps Fs.refs (link cwd old new) := by
  refine Shifts.keeps ((refs_namei cwd old).bind fun hit => ?_)
  cases hit with
  | none => exact shifts_pure (sub_self _)
  | some ip =>
    have back : ∀ res : Int, Shifts Fs.refs (do iunlockput ip; return res) fun _ =>
        0 - claim (some ip) := fun _ => refs_iunlockput.bind fun _ => shifts_pure (by simp [claim])
    refine refs_ilock.andShifts fun _ => (refs_of standing_inode).andShifts fun _ => .ite (back _) ?_
    refine (refs_of (standing_addNlink _)).andShifts fun _ => refs_iunlock.andShifts fun _ =>
      (refs_linkInto new).andShifts fun _ => .ite ?_ ?_
    · exact refs_iput.bind fun _ => shifts_pure (by simp [claim])
    · exact refs_ilock.andShifts fun _ => (refs_of (standing_addNlink _)).andShifts fun _ => back _

theorem ilock_locked (held : (fs.icache dp).locked ≠ 0) :
    Holds (ilock ip) fs fun _ fs' => fs'.icache dp = fs.icache dp := by
  refine (ilock_spec fs ip).conseq fun _ fs' locked => ?_
  have o : dp ≠ ip := by
    rintro rfl
    exact held locked.2.1
  obtain ⟨_, _, ⟨_, rfl⟩ | ⟨_, _, rfl⟩⟩ := locked <;> exact setInode_ne _ _ _ o

theorem ilock_holds (fs : Fs) : Holds (ilock ip) fs fun _ fs' => (fs'.icache ip).locked = 1 := by
  refine (ilock_spec fs ip).conseq fun _ fs' locked => ?_
  obtain ⟨_, _, ⟨_, rfl⟩ | ⟨_, _, rfl⟩⟩ := locked <;> rw [setInode_same] <;> rfl

theorem unlinkAt_refs (fs : Fs) (off : Nat) (dir : IsDir (fs.icache dp).dinode.type) : Holds (unlinkAt dp ip off) fs
      fun _ fs' => fs'.refs = fs.refs + (-Pi.single dp 1 + -Pi.single ip 1) := by
  rw [unlinkAt]
  refine (standing_writei (dir.contained _ _)).bind fun n fs1 wrote => ?_
  have eq : fs1.refs = fs.refs := funext fun sl => congrArg Standing.ref (congrFun wrote sl)
  rw [← eq, holds_ite]
  refine ⟨fun _ => holds_halt.mpr trivial, fun _ => ?_⟩
  suffices moved : Shifts Fs.refs _ fun _ => -Pi.single dp 1 + -Pi.single ip 1 from moved fs1
  refine (refs_of standing_inode).andShifts fun _ =>
    (Keeps.onlyIf (refs_of (standing_addNlink _))).andShifts fun _ => refs_iunlockput.bind fun _ =>
      (refs_of (standing_addNlink _)).andShifts fun _ => refs_iunlockput.congr fun _ => by abel

theorem refs_unlink (path : List UInt8) : Keeps Fs.refs (unlink cwd path) := by
  intro fs
  rw [unlink]
  refine (refs_nameiparent cwd path fs).bind fun hit fs1 claimed => ?_
  cases hit with
  | none => exact .pure (claimed.trans (add_zero _))
  | some up =>
    obtain ⟨dp, name⟩ := up
    have back : ∀ (res : Int) (fs' : Fs), fs'.refs = fs.refs + Pi.single dp 1 →
        Holds (do iunlockput dp; return res) fs' fun _ fs'' => fs''.refs = fs.refs := by
      intro res fs' refs
      refine (refs_iunlockput fs').bind fun _ fs'' put => .pure ?_
      rw [put, refs, add_neg_cancel_right]
    simp only [holds_bind]
    refine ((refs_ilock fs1).total (ilock_holds fs1)).conseq ?_
    rintro _ fs2 ⟨eq2, held⟩
    have refs2 : fs2.refs = fs.refs + Pi.single dp 1 := eq2.trans claimed
    rw [holds_ite]
    refine ⟨fun _ => back _ _ refs2, fun _ => ?_⟩
    refine (dirlookup_refs fs2 name).bind ?_
    rintro ent fs3 ⟨refs3, grip, dir⟩
    have atDp := congrFun grip dp
    simp only [Fs.grip, Prod.mk.injEq] at atDp
    cases ent with
    | none => exact back _ _ (refs3.trans ((add_zero _).trans refs2))
    | some target =>
      obtain ⟨ip, off⟩ := target
      simp only [holds_bind]
      -- the directory is locked, so the entry found is another one
      have held3 : (fs3.icache dp).locked ≠ 0 := by omega
      refine ((refs_ilock fs3).total (ilock_locked held3)).conseq ?_
      rintro _ fs4 ⟨refs4, kept4⟩
      refine (standing_removable fs4).conseq fun removable fs5 kept => ?_
      have type : IsDir (fs5.icache dp).dinode.type := by
        have eq : (fs5.icache dp).dinode.type = (fs2.icache dp).dinode.type := by
          rw [← atDp.2, ← kept4]
          exact congrArg Standing.type (congrFun kept dp)
        rw [eq]
        exact dir
      have refs5 : fs5.refs = fs.refs + Pi.single dp 1 + Pi.single ip 1 := by
        rw [← refs2, ← show fs3.refs = fs2.refs + Pi.single ip 1 from refs3, ← refs4]
        exact funext fun sl => congrArg Standing.ref (congrFun kept sl)
      rw [holds_ite]
      refine ⟨fun _ => ?_, fun _ => ?_⟩
      · refine (unlinkAt_refs fs5 off type).bind fun _ fs6 done => .pure ?_
        rw [done, refs5]
        abel
      · refine (refs_iunlockput fs5).bind fun _ fs6 put => back _ _ ?_
        rw [put, refs5, add_neg_cancel_right]

end

end Xv6
