import Xv6.InodeRefs
import Xv6.Lib.Trace

/-! The log operations and the buffer and inode locks of the block, inode and directory layers: which
locks each function holds when it returns, and that it logs only inside an operation. -/

namespace Xv6

open Exec List Fs

/-- A call of one of the functions that change the log or a sleep lock. -/
inductive Op where
  | beginOp
  | endOp
  | logWrite (blockno : Nat)
  | bread (blockno : Nat)
  | brelse (blockno : Nat)
  | acquiresleep (sl : Slot)
  | releasesleep (sl : Slot)

/-- Where a call is: inside its own operation or not, and the locks that it holds. -/
structure Stage where
  inside : Bool
  buffers : List Nat
  inodes : List Slot

namespace Stage

def rest : Stage := ⟨false, [], []⟩

@[simps] def take (g : Stage) (blockno : Nat) : Stage :=
  { g with buffers := blockno :: g.buffers }

@[simps] def drop (g : Stage) (blockno : Nat) : Stage :=
  { g with buffers := g.buffers.erase blockno }

@[simps] def lock (g : Stage) (sl : Slot) : Stage :=
  { g with inodes := sl :: g.inodes }

@[simps] def unlock (g : Stage) (sl : Slot) : Stage :=
  { g with inodes := g.inodes.erase sl }

/-- Operations are not nested, blocks are logged inside one and under the lock of their buffer,
and only a lock that is held is released. -/
def step (g : Stage) : Op → Option Stage
  | .beginOp => if g.inside then none else some { g with inside := true }
  | .endOp => if g.inside then some { g with inside := false } else none
  | .logWrite blockno => if g.inside ∧ blockno ∈ g.buffers then some g else none
  | .bread blockno => some (g.take blockno)
  | .brelse blockno => if blockno ∈ g.buffers then some (g.drop blockno) else none
  | .acquiresleep sl => some (g.lock sl)
  | .releasesleep sl => if sl ∈ g.inodes then some (g.unlock sl) else none

@[simp] theorem drop_take (g : Stage) (b : Nat) : (g.take b).drop b = g := by
  simp [take, drop]

@[simp] theorem unlock_lock (g : Stage) (sl : Slot) : (g.lock sl).unlock sl = g := by
  simp [lock, unlock]

@[simp] theorem unlock_lock_lock (g : Stage) (fst snd : Slot) : ((g.lock fst).lock snd).unlock fst = g.lock snd := by
  by_cases eq : snd = fst
  · simp [lock, unlock, eq]
  · simp [lock, unlock, erase_cons_tail (beq_iff_eq.not.mpr eq)]

end Stage

inductive DiskCalls : {α : Type} → Op → DiskM α → Prop
  | beginOp : DiskCalls .beginOp Xv6.beginOp
  | endOp : DiskCalls .endOp Xv6.endOp
  | logWrite (blockno : Nat) : DiskCalls (.logWrite blockno) (Xv6.logWrite blockno)
  | bread (blockno : Nat) : DiskCalls (.bread blockno) (Xv6.bread blockno)
  | brelse (blockno : Nat) : DiskCalls (.brelse blockno) (Xv6.brelse blockno)

inductive FsCalls : {α : Type} → Op → FsM α → Prop
  | onDisk {α : Type} {op : Op} {program : DiskM α} (called : DiskCalls op program) :
      FsCalls op (Xv6.onDisk program)
  | acquiresleep (sl : Slot) : FsCalls (.acquiresleep sl) (Xv6.acquiresleep sl)
  | releasesleep (sl : Slot) : FsCalls (.releasesleep sl) (modifyInode sl fun ip => ip.setLocked 0)

def Fs.locks (fs : Fs) (sl : Slot) : Nat := (fs.icache sl).locked

def diskProtocol : Protocol Disk Stop Op (Log × List Nat) Stage where
  calls := DiskCalls
  view := fun disk => (disk.log, disk.held)
  step := Stage.step

def fsProtocol : Protocol Fs Stop Op ((Log × List Nat) × (Slot → Nat)) Stage where
  calls := FsCalls
  view := fun fs => ((fs.disk.log, fs.disk.held), fs.locks)
  step := Stage.step

section

variable {g : Stage} {b : Nat}

theorem follows_bread : Follows diskProtocol g (bread b) fun _ => g.take b :=
  follows_call (.bread b) rfl

theorem follows_brelse : Follows diskProtocol (g.take b) (brelse b) fun _ => g := by
  refine follows_call (.brelse b) ?_
  simp [diskProtocol, Stage.step]

theorem follows_store (change : Block → Block) : Follows diskProtocol g (store b change) :=
  follows_modify fun _ => rfl

theorem follows_logWrite (low : g.inside = true) : Follows diskProtocol (g.take b) (logWrite b) fun _ => g.take b := by
  refine follows_call (.logWrite b) ?_
  simp [diskProtocol, Stage.step, low]

theorem follows_bpeek : Follows diskProtocol g (bpeek b) :=
  follows_bread.bind fun _ => follows_brelse.bind fun _ => .pure _

theorem follows_readsb : Follows diskProtocol g readsb :=
  follows_bpeek.bind fun _ => .pure _

section

variable (low : g.inside = true)

include low

theorem follows_bupdate (change : Block → Block) : Follows diskProtocol g (bupdate b change) :=
  follows_bread.bind fun _ => (follows_store _).bind fun _ => (follows_logWrite low).bind fun _ =>
    follows_brelse

theorem follows_ballocFrom (sb : Superblock) (rounds b : Nat) : Follows diskProtocol g (ballocFrom sb rounds b) := by
  induction rounds generalizing b with
  | zero => exact follows_halt _ _
  | succ rounds ih =>
    refine .ite (follows_bread.bind fun data => ?_) (follows_halt _ _)
    split
    · exact (follows_store _).bind fun _ => (follows_logWrite low).bind fun _ =>
        follows_brelse.bind fun _ => (follows_bupdate low _).bind fun _ => .pure _
    · exact follows_brelse.bind fun _ => ih _

theorem follows_balloc : Follows diskProtocol g balloc :=
  follows_get.bind fun _ => follows_ballocFrom low _ _ _

theorem follows_bfree (b : Nat) : Follows diskProtocol g (bfree b) := by
  refine follows_readsb.bind fun sb => Follows.bind (follows_modify fun _ => rfl) fun _ =>
    follows_bread.bind fun data => .ite ?_ (follows_halt _ _)
  exact (follows_store _).bind fun _ => (follows_logWrite low).bind fun _ => follows_brelse

theorem follows_bmapEntry (indirect i : Nat) : Follows diskProtocol g (bmapEntry indirect i) := by
  refine follows_bread.bind fun data => .ite ?_ (follows_brelse.bind fun _ => .pure _)
  have held : (g.take indirect).inside = true := low
  exact (follows_balloc held).bind fun _ => (follows_store _).bind fun _ =>
    (follows_logWrite low).bind fun _ => follows_brelse.bind fun _ => .pure _

end

end

section

variable {g : Stage} {sl : Slot}

theorem follows_onDisk {α : Type} {prog : DiskM α} {final : α → Stage}
    (followed : Follows diskProtocol g prog final) : Follows fsProtocol g (onDisk prog) final := by
  have zooms : Zooms diskProtocol fsProtocol Fs.disk setDisk :=
    ⟨fun _ _ => rfl, fun _ => rfl, fun _ _ _ => rfl, FsCalls.onDisk, fun whole _ eq =>
      congrArg (fun view => (view, whole.locks)) eq⟩
  exact fun fs => (followed fs.disk).zoom zooms rfl

theorem follows_inode : Follows fsProtocol g (inode sl) :=
  follows_get.bind fun _ => .pure _

theorem Fs.locks_setInode {fs : Fs} {ip : Inode} (same : ip.locked = (fs.icache sl).locked) :
    (fs.setInode sl ip).locks = fs.locks := by
  funext o
  by_cases here : o = sl
  · rw [here, Fs.locks, setInode_same, same, Fs.locks]
  · rw [Fs.locks, setInode_ne _ _ _ here, Fs.locks]

theorem follows_modifyInode {change : Inode → Inode} (eq : ∀ ip, (change ip).locked = ip.locked) :
    Follows fsProtocol g (modifyInode sl change) :=
  follows_modify fun fs => congrArg ((fs.disk.log, fs.disk.held), ·) (locks_setInode (eq _))

theorem follows_modifyDinode (change : Dinode → Dinode) : Follows fsProtocol g (modifyDinode sl change) :=
  follows_modifyInode fun _ => rfl

theorem follows_iget (dev inum : Nat) : Follows fsProtocol g (iget dev inum) := by
  refine follows_get.bind fun fs => ?_
  dsimp only
  split
  · refine Follows.bind (follows_modifyInode ?_) fun _ => .pure _
    exact fun _ => rfl
  · split
    · refine Follows.bind (follows_modifyInode ?_) fun _ => .pure _
      exact fun _ => rfl
    · exact follows_halt _ _

theorem follows_idup : Follows fsProtocol g (idup sl) := by
  refine Follows.bind (follows_modifyInode ?_) fun _ => .pure _
  exact fun _ => rfl

theorem follows_ialloc (low : g.inside = true) (dev : Nat) (type : BitVec 16) :
    Follows fsProtocol g (ialloc dev type) := by
  refine follows_get.bind fun fs => ?_
  generalize fs.disk.sb = sb
  generalize sb.ninodes = n
  generalize 1 = inum
  induction n generalizing inum with
  | zero => exact follows_halt _ _
  | succ n ih =>
    refine .ite ((follows_onDisk follows_bread).bind fun data => .ite ?_ ?_) (follows_halt _ _)
    · exact (follows_onDisk (follows_store _)).bind fun _ =>
        (follows_onDisk (follows_logWrite low)).bind fun _ =>
          (follows_onDisk follows_brelse).bind fun _ => follows_iget _ _
    · exact (follows_onDisk follows_brelse).bind fun _ => ih _

theorem follows_iupdate (low : g.inside = true) : Follows fsProtocol g (iupdate sl) :=
  follows_get.bind fun _ => follows_onDisk (follows_bupdate low _)

theorem follows_ilock : Follows fsProtocol g (ilock sl) fun _ => g.lock sl := by
  refine follows_inode.bind fun ip => .ite (follows_halt _ _) ?_
  refine Follows.bind (follows_call (.acquiresleep sl) rfl) fun _ => .onlyIf ?_
  refine follows_get.bind fun _ => (follows_onDisk follows_bpeek).bind fun _ =>
    (follows_modifyDinode _).bind fun _ => Follows.bind (follows_modifyInode ?_) fun _ =>
      follows_inode.bind fun _ => .onlyIf (follows_halt _ _)
  exact fun _ => rfl

theorem follows_release (held : sl ∈ g.inodes) : Follows fsProtocol g (iunlock sl) fun _ => g.unlock sl := by
  refine follows_inode.bind fun ip => .ite (follows_halt _ _) ?_
  refine follows_call (.releasesleep sl) ?_
  simp [fsProtocol, Stage.step, held]

theorem follows_iunlock : Follows fsProtocol (g.lock sl) (iunlock sl) fun _ => g := by
  have held : sl ∈ (g.lock sl).inodes := mem_cons_self
  simpa only [Stage.unlock_lock] using follows_release held

section

variable (low : g.inside = true)

include low

theorem follows_bmapAddr (i : Nat) : Follows fsProtocol g (bmapAddr sl i) :=
  follows_inode.bind fun _ => .ite
    ((follows_onDisk (follows_balloc low)).bind fun _ => (follows_modifyDinode _).bind fun _ =>
      .pure _) (.pure _)

theorem follows_bmap (bn : Nat) : Follows fsProtocol g (bmap sl bn) :=
  .ite (follows_bmapAddr low _) (.ite ((follows_bmapAddr low _).bind fun _ =>
    follows_onDisk (follows_bmapEntry low _ _)) (follows_halt _ _))

theorem follows_itrunc : Follows fsProtocol g (itrunc sl) := by
  have direct : Follows fsProtocol g (itruncDirect sl) :=
    .upto fun _ => follows_inode.bind fun _ => .onlyIf
      ((follows_onDisk (follows_bfree low _)).bind fun _ => follows_modifyDinode _)
  have indirect : Follows fsProtocol g (itruncIndirect sl) := by
    refine follows_inode.bind fun ip => .onlyIf ((follows_onDisk follows_bread).bind fun data => ?_)
    have held : (g.take (ip.dinode.addrs.word NDIRECT)).inside = true := low
    refine Follows.bind (.upto fun _ => .onlyIf (follows_onDisk (follows_bfree held _))) fun _ => ?_
    exact (follows_onDisk follows_brelse).bind fun _ =>
      (follows_onDisk (follows_bfree low _)).bind fun _ => follows_modifyDinode _
  exact direct.bind fun _ => indirect.bind fun _ => (follows_modifyDinode _).bind fun _ =>
    follows_iupdate low

theorem follows_iput : Follows fsProtocol g (iput sl) := by
  refine follows_inode.bind fun ip => Follows.bind (.onlyIf ?_) fun _ => follows_modifyInode fun _ => rfl
  exact (follows_itrunc low).bind fun _ => (follows_modifyDinode _).bind fun _ =>
    (follows_iupdate low).bind fun _ => follows_modifyInode fun _ => rfl

theorem follows_iunlockput : Follows fsProtocol (g.lock sl) (iunlockput sl) fun _ => g :=
  follows_iunlock.bind fun _ => follows_iput low

theorem follows_iunlockput_first {o : Slot} :
    Follows fsProtocol ((g.lock sl).lock o) (iunlockput sl) fun _ => g.lock o := by
  have held : sl ∈ ((g.lock sl).lock o).inodes :=
    mem_cons_of_mem _ mem_cons_self
  have kept : (((g.lock sl).lock o).unlock sl).inside = true := low
  have put : Follows fsProtocol (((g.lock sl).lock o).unlock sl) (iput sl) fun _ =>
      ((g.lock sl).lock o).unlock sl := follows_iput kept
  have released := (follows_release held).bind fun _ => put
  rw [Stage.unlock_lock_lock] at released
  exact released

theorem follows_readBlocks (n fuel tot off : Nat) : Follows fsProtocol g (readBlocks sl n fuel tot off) := by
  induction fuel generalizing tot off with
  | zero => exact .pure _
  | succ fuel ih =>
    exact .ite ((follows_bmap low _).bind fun _ => (follows_onDisk follows_bpeek).bind fun _ =>
      (ih _ _).bind fun _ => .pure _) (.pure _)

theorem follows_readi (off n : BitVec 32) : Follows fsProtocol g (readi sl off n) := by
  refine follows_get.bind fun fs => .ite (.ite (.pure _) ?_) (.ite (.pure _) ?_)
  · split <;> exact .pure _
  · exact .ite (.pure _) ((follows_readBlocks low _ _ _ _).bind fun _ => .pure _)

theorem follows_writeBlocks (src : Nat → UInt8) (n fuel tot off : Nat) :
    Follows fsProtocol g (writeBlocks sl src n fuel tot off) := by
  induction fuel generalizing tot off with
  | zero => exact .pure _
  | succ fuel ih =>
    exact .ite ((follows_bmap low _).bind fun _ =>
      (follows_onDisk (follows_bupdate low _)).bind fun _ => ih _ _) (.pure _)

theorem follows_grow (off n : BitVec 32) : Follows fsProtocol g (grow sl off n) :=
  follows_inode.bind fun _ => .onlyIf ((follows_modifyDinode _).bind fun _ => follows_iupdate low)

theorem follows_writeSize (off n : BitVec 32) : Follows fsProtocol g (writeSize sl off n) :=
  (follows_grow low _ _).bind fun _ => follows_inode.bind fun _ => .onlyIf (follows_grow low _ _)

theorem follows_writei {fs : Fs} {src : Nat → UInt8} {off n : BitVec 32}
    (spared : (fs.icache sl).dinode.type = T_SFILE → Refused (fs.icache sl).dinode off n ∨
      (fs.moveIn sl off.toNat n.toNat src).locks = fs.locks) : FollowsFrom fsProtocol g (writei sl src off n) fs := by
  have here : Holds (Prog.get : FsM Fs) fs fun val fs' => val = fs ∧ fs' = fs :=
    holds_get.mpr ⟨rfl, rfl⟩
  refine (follows_get fs).bind here ?_
  rintro val fs' ⟨read, eq⟩
  subst val fs'
  refine .ite (fun _ => .ite (fun _ => Follows.pure _ _) fun _ => ?_) fun _ => ?_
  · split <;> exact Follows.pure _ _
  · refine .ite (fun _ => Follows.pure _ _) fun early => .ite (fun _ => Follows.pure _ _) fun late => ?_
    have copied : FollowsFrom fsProtocol g (writeData sl (fs.icache sl).dinode.type src off.toNat n.toNat) fs := by
      rw [writeData]
      split
      · rename_i small
        refine followsFrom_modify (congrArg ((fs.disk.log, fs.disk.held), ·) ((spared small).resolve_left ?_))
        rintro (beyond | wraps | large)
        · exact early (.inl beyond)
        · exact early (.inr wraps)
        · exact late large
      · exact follows_writeBlocks low _ _ _ _ _ _
    exact copied.andThen fun _ => (follows_writeSize low _ _).bind fun _ => .pure _

end

end

section

variable {g : Stage} {dp ip sl : Slot}

section

variable (low : g.inside = true)

include low

theorem follows_readDirent (off : Nat) (message : String) : Follows fsProtocol g (readDirent sl off message) := by
  refine (follows_readi low _ _).bind fun de => ?_
  cases de with
  | none => exact follows_halt _ _
  | some bytes => exact .ite (follows_halt _ _) (.pure _)

theorem follows_dirlookup (name : List UInt8) : Follows fsProtocol g (dirlookup dp name) := by
  refine follows_inode.bind fun ip => .ite (follows_halt _ _) ?_
  generalize ip.dinode.size.toNat / deSize + 1 = fuel
  generalize 0 = off
  induction fuel generalizing off with
  | zero => exact .pure _
  | succ fuel ih =>
    refine follows_inode.bind fun _ => .ite ((follows_readDirent low _ _).bind fun _ =>
      .ite (ih _) (.ite ?_ (ih _))) (.pure _)
    exact (follows_iget _ _).bind fun _ => .pure _

theorem follows_emptyDirent (fuel off : Nat) : Follows fsProtocol g (emptyDirent dp fuel off) := by
  induction fuel generalizing off with
  | zero => exact .pure _
  | succ fuel ih =>
    exact follows_inode.bind fun _ => .ite ((follows_readDirent low _ _).bind fun _ =>
      .ite (.pure _) (ih _)) (.pure _)

theorem follows_dirlink (name : List UInt8) (inum : Nat) : Follows fsProtocol g (dirlink dp name inum) := by
  intro fs
  refine (follows_dirlookup low name fs).bind (dirlookup_refs fs name) ?_
  rintro hit fs1 ⟨_, grip, dir⟩
  cases hit with
  | some ent => exact ((follows_iput low).bind fun _ => .pure _) fs1
  | none =>
    refine (follows_inode fs1).bind (holds_inode.mpr rfl : Holds _ _ (fun _ fs' => fs' = fs1) _) ?_
    rintro node fs' eq
    subst fs'
    refine (follows_emptyDirent low _ _ fs1).bind (standing_emptyDirent _ _ fs1) fun off fs2 kept => ?_
    have type : (fs2.icache dp).dinode.type = (fs.icache dp).dinode.type :=
      (congrArg Standing.type (congrFun kept dp)).trans (congrArg Prod.snd (congrFun grip dp))
    exact (follows_writei low fun small => absurd small (IsDir.ne_small (type ▸ dir))).andThen fun _ =>
      .ite (follows_halt _ _) (.pure _)

theorem follows_namexFrom (up : Bool) (fuel : Nat) (ip : Slot) (path : List UInt8) :
    Follows fsProtocol g (namexFrom up fuel ip path) := by
  induction fuel generalizing ip path with
  | zero => exact .pure _
  | succ fuel ih =>
    have locked : (g.lock ip).inside = true := low
    rw [namexFrom]
    split
    · exact .ite ((follows_iput low).bind fun _ => .pure _) (.pure _)
    · refine follows_ilock.bind fun _ => follows_inode.bind fun _ => .ite
        ((follows_iunlockput low).bind fun _ => .pure _) (.ite (follows_iunlock.bind fun _ => .pure _) ?_)
      refine (follows_dirlookup locked _).bind fun next => ?_
      cases next with
      | none => exact (follows_iunlockput low).bind fun _ => .pure _
      | some ent => exact (follows_iunlockput low).bind fun _ => ih _ _

theorem follows_namex (cwd : Slot) (path : List UInt8) (up : Bool) : Follows fsProtocol g (namex cwd path up) := by
  have s0 : Follows fsProtocol g (namexStart cwd path) :=
    .ite (follows_iget _ _) follows_idup
  exact s0.bind fun ip => follows_namexFrom low up _ ip path

theorem follows_namei (cwd : Slot) (path : List UInt8) : Follows fsProtocol g (namei cwd path) :=
  (follows_namex low cwd path false).bind fun _ => .pure _

end

end

section

variable {g : Stage} {cwd dp ip : Slot}

section

variable (low : g.inside = true)

include low

theorem follows_addNlink (change : BitVec 16) : Follows fsProtocol g (addNlink ip change) :=
  (follows_modifyDinode _).bind fun _ => follows_iupdate low

theorem follows_linkInto (new : List UInt8) : Follows fsProtocol g (linkInto cwd ip new) := by
  refine (follows_namex low cwd new true).bind fun hit => ?_
  cases hit with
  | none => exact .pure _
  | some up =>
    have locked : (g.lock up.1).inside = true := low
    refine follows_ilock.bind fun _ => follows_inode.bind fun _ => follows_inode.bind fun _ => .ite
      ((follows_iunlockput low).bind fun _ => .pure _) ?_
    exact (follows_dirlink locked _ _).bind fun _ => (follows_iunlockput low).bind fun _ =>
      .pure _

theorem follows_link (old new : List UInt8) : Follows fsProtocol g (link cwd old new) := by
  refine (follows_namei low cwd old).bind fun hit => ?_
  cases hit with
  | none => exact .pure _
  | some ip =>
    have locked : (g.lock ip).inside = true := low
    have back : ∀ res : Int, Follows fsProtocol (g.lock ip) (do iunlockput ip; return res) fun _ => g :=
      fun _ => (follows_iunlockput low).bind fun _ => .pure _
    refine follows_ilock.bind fun _ => follows_inode.bind fun _ => .ite (back _) ?_
    refine (follows_addNlink locked _).bind fun _ => follows_iunlock.bind fun _ =>
      (follows_linkInto low new).bind fun _ => .ite ?_ ?_
    · exact (follows_iput low).bind fun _ => .pure _
    · exact follows_ilock.bind fun _ => (follows_addNlink locked _).bind fun _ => back _

theorem follows_removable : Follows fsProtocol g (removable ip) := by
  refine follows_inode.bind fun node => .ite (follows_halt _ _) (.ite ?_ (.pure _))
  generalize node.dinode.size.toNat / deSize + 1 = fuel
  generalize 2 * deSize = off
  induction fuel generalizing off with
  | zero => exact .pure _
  | succ fuel ih =>
    exact follows_inode.bind fun _ => .ite ((follows_readDirent low _ _).bind fun _ =>
      .ite (.pure _) (ih _)) (.pure _)

theorem follows_unlinkAt {fs : Fs} (off : Nat) (dir : IsDir (fs.icache dp).dinode.type) :
    FollowsFrom fsProtocol ((g.lock dp).lock ip) (unlinkAt dp ip off) fs fun _ => g := by
  have both : ((g.lock dp).lock ip).inside = true := low
  have one : (g.lock ip).inside = true := low
  refine (follows_writei both fun small => absurd small dir.ne_small).andThen fun n => .ite (follows_halt _ _) ?_
  refine follows_inode.bind fun _ => Follows.bind (.onlyIf (follows_addNlink both _)) fun _ => ?_
  exact (follows_iunlockput_first low).bind fun _ => (follows_addNlink one _).bind fun _ =>
    follows_iunlockput low

theorem follows_unlink (path : List UInt8) : Follows fsProtocol g (unlink cwd path) := by
  refine (follows_namex low cwd path true).bind fun hit => ?_
  cases hit with
  | none => exact .pure _
  | some up =>
    obtain ⟨dp, name⟩ := up
    have locked : (g.lock dp).inside = true := low
    have back : ∀ res : Int, Follows fsProtocol (g.lock dp) (do iunlockput dp; return res) fun _ => g :=
      fun _ => (follows_iunlockput low).bind fun _ => .pure _
    intro fs
    refine (follows_ilock fs).bind (ilock_holds fs) fun _ fs1 held => ?_
    refine .ite (fun _ => back _ fs1) fun _ => ?_
    refine (follows_dirlookup locked name fs1).bind (dirlookup_refs fs1 name) ?_
    rintro ent fs2 ⟨_, grip, dir⟩
    have eq := congrFun grip dp
    simp only [Fs.grip, Prod.mk.injEq] at eq
    cases ent with
    | none => exact back _ fs2
    | some target =>
      obtain ⟨ip, off⟩ := target
      have both : ((g.lock dp).lock ip).inside = true := low
      have held2 : (fs2.icache dp).locked ≠ 0 := by omega
      refine (follows_ilock fs2).bind (ilock_locked held2) fun _ fs3 kept3 => ?_
      refine (follows_removable both fs3).bind (standing_removable fs3) fun removable fs4 kept4 => ?_
      refine .ite (fun _ => ?_) fun _ => ?_
      · have type : (fs4.icache dp).dinode.type = (fs1.icache dp).dinode.type := by
          rw [← eq.2, ← kept3]
          exact congrArg Standing.type (congrFun kept4 dp)
        exact (follows_unlinkAt low off (type ▸ dir)).andThen fun _ => .pure _
      · exact ((follows_iunlockput locked).bind fun _ => back _) fs4

theorem follows_createDots (message : String) : Follows fsProtocol g (createDots dp ip message) :=
  (follows_addNlink low _).bind fun _ => follows_inode.bind fun _ => follows_inode.bind fun _ =>
    (follows_dirlink low _ _).bind fun _ => .ite ((follows_dirlink low _ _).bind fun _ =>
      .onlyIf (follows_halt _ _)) (follows_halt _ _)

theorem follows_createIn (name : List UInt8) (type major minor : BitVec 16) :
    Follows fsProtocol (g.lock dp) (createIn dp name type major minor) g.lock := by
  have locked : (g.lock dp).inside = true := low
  refine follows_inode.bind fun _ => (follows_ialloc locked _ _).bind fun ip => ?_
  have both : ((g.lock dp).lock ip).inside = true := low
  refine follows_ilock.bind fun _ => (follows_modifyDinode _).bind fun _ =>
    (follows_iupdate both).bind fun _ => Follows.bind (.onlyIf (follows_createDots both _)) fun _ =>
      Follows.bind (.onlyIf (follows_createDots both _)) fun _ => follows_inode.bind fun _ =>
        (follows_dirlink both _ _).bind fun _ => .ite ?_ (follows_halt _ _)
  exact (follows_iunlockput_first low).bind fun _ => follows_pure ip rfl

end

def Stage.lockIf (g : Stage) : Option Slot → Stage
  | some sl => g.lock sl
  | none => g

section

variable (low : g.inside = true)

include low

theorem follows_create (path : List UInt8) (type major minor : BitVec 16) :
    Follows fsProtocol g (create cwd path type major minor) g.lockIf := by
  refine (follows_namex low cwd path true).bind fun hit => ?_
  cases hit with
  | none => exact follows_pure _ rfl
  | some up =>
    obtain ⟨dp, name⟩ := up
    have locked : (g.lock dp).inside = true := low
    refine follows_ilock.bind fun _ => (follows_dirlookup locked name).bind fun ent => ?_
    cases ent with
    | none => exact (follows_createIn low _ _ _ _).bind fun ip => follows_pure _ rfl
    | some existing =>
      obtain ⟨ip, off⟩ := existing
      refine (follows_iunlockput low).bind fun _ => follows_ilock.bind fun _ =>
        follows_inode.bind fun _ => .ite (follows_pure _ rfl) ?_
      exact (follows_iunlockput low).bind fun _ => follows_pure _ rfl

theorem follows_openCreate (path : List UInt8) (small : Bool) :
    Follows fsProtocol g (openCreate cwd path small) g.lockIf := by
  refine (follows_namex low cwd path true).bind fun hit => ?_
  cases hit with
  | none => exact follows_halt _ _
  | some up =>
    exact follows_inode.bind fun _ => .ite (.ite (follows_pure _ rfl) (follows_create low _ _ _ _))
      (.ite (follows_pure _ rfl) (follows_create low _ _ _ _))

theorem follows_openExisting (path : List UInt8) (omode : BitVec 32) :
    Follows fsProtocol g (openExisting cwd path omode) g.lockIf := by
  refine (follows_namei low cwd path).bind fun hit => ?_
  cases hit with
  | none => exact follows_pure _ rfl
  | some ip =>
    exact follows_ilock.bind fun _ => follows_inode.bind fun _ => .ite
      ((follows_iunlockput low).bind fun _ => follows_pure _ rfl) (follows_pure _ rfl)

theorem follows_loaduvm (offset : BitVec 32) (sz fuel i : Nat) :
    Follows fsProtocol g (loaduvm ip offset sz fuel i) := by
  induction fuel generalizing i with
  | zero => exact .pure _
  | succ fuel ih =>
    exact .ite ((follows_readi low _ _).bind fun _ => .ite (ih _) (.pure _)) (.pure _)

theorem follows_loadHeaders (memory : ExecMemory) (left i : Nat) (off : BitVec 32) :
    Follows fsProtocol g (loadHeaders ip memory left i off) := by
  induction left generalizing i off with
  | zero => exact .pure _
  | succ left ih =>
    refine (follows_readi low _ _).bind fun header => .ite (.pure _) (.ite (ih _ _)
      (.ite (.pure _) (.ite (.pure _) (.ite (.pure _) (.ite (.pure _) ?_)))))
    exact (follows_loaduvm low _ _ _ _).bind fun _ => .ite (ih _ _) (.pure _)

theorem follows_loadImage (memory : ExecMemory) : Follows fsProtocol g (loadImage ip memory) :=
  (follows_readi low _ _).bind fun _ => .ite (.pure _) (.ite (.pure _)
    (.ite (.pure _) (follows_loadHeaders low _ _ _ _)))

end

end

end Xv6
