import Xv6.SmallFile

/-! The life of a small file from `ialloc` to the `iput` that frees it, and what it does to
the free-block bitmap. -/

namespace Xv6

open Exec Writes List Fs Inode Bytes Function Dinode

inductive SmallOp where
  | read (off n : BitVec 32)
  | write (src : Nat → UInt8) (off n : BitVec 32)

namespace SmallOp

def run (sl : Slot) : SmallOp → FsM Unit
  | .read off n => do
      let _ ← readi sl off n
      pure ()
  | .write src off n => do
      let _ ← writei sl src off n
      pure ()

def effect (dinode : Dinode) : SmallOp → Dinode
  | .read _ _ => dinode
  | .write src off n => if Refused dinode off n then dinode else dinode.written src off n

def Inside : SmallOp → Prop
  | .read _ _ => True
  | .write _ off n => off.toNat + n.toNat ≤ 52

end SmallOp

def smallLife (dev : Nat) (ops : List SmallOp) : FsM Unit := do
  let sl ← ialloc dev T_SFILE
  ilock sl
  Prog.each ops (SmallOp.run sl)
  iunlock sl
  iput sl

def afterOps (ops : List SmallOp) : Dinode := ops.foldl SmallOp.effect (Dinode.fresh T_SFILE)

def Harmless (reason : Stop) : Prop :=
  reason ≠ .panic "freeing free block" ∧ reason ≠ .panic "incorrect blockno"

instance (reason : Stop) : Decidable (Harmless reason) := inferInstanceAs (Decidable (_ ∧ _))

structure Settled (fs : Fs) : Prop where
  layout : Layout fs.disk.sb fs.disk.fssize
  whole : fs.disk.fssize = fs.disk.sb.size
  low : fs.disk.sb.bmapstart + 2 ^ 20 ≤ 2 ^ 32
  super : Superblock.ofBlock (fs.disk.block 1) = fs.disk.sb
  unheld : fs.disk.held = []
  opened : 0 < fs.disk.log.outstanding
  absent : ∀ sl, 0 < (fs.icache sl).ref → (dinodeAt fs.disk.sb fs.disk.block (fs.icache sl).inum).type ≠ 0

structure Disk.Spares (disk disk' : Disk) : Prop where
  sb : disk'.sb = disk.sb
  fssize : disk'.fssize = disk.fssize
  held : disk'.held = disk.held
  outstanding : disk'.log.outstanding = disk.log.outstanding
  block : ∀ b, (∀ inum < disk.sb.ninodes, b ≠ IBLOCK inum disk.sb) → disk'.block b = disk.block b

theorem Disk.Spares.refl (disk : Disk) : disk.Spares disk := ⟨rfl, rfl, rfl, rfl, fun _ _ => rfl⟩

variable {disk disk' : Disk} {b : Nat}

theorem Disk.Spares.iupdate {disk1 disk2 : Disk} {inum : Nat} {dinode : Dinode} (spares : disk.Spares disk1)
    (lt : inum < disk.sb.ninodes)
    (puts : disk1.Puts disk2 [iupdateWrite disk1.sb disk1.block inum dinode]) : disk.Spares disk2 where
  sb := puts.sb.trans spares.sb
  fssize := puts.fssize.trans spares.fssize
  held := puts.held.trans spares.held
  outstanding := puts.outstanding.trans spares.outstanding
  block := by
    intro b o
    rw [puts.block, iupdateWrite, applyAll_cons, applyAll_nil, spares.sb, update_of_ne (o inum lt), spares.block b o]

theorem Disk.Spares.bitmap (spares : disk.Spares disk') (lay : Layout disk.sb disk.fssize)
    (lt : b < disk.sb.size) : disk'.block (BBLOCK b disk.sb) = disk.block (BBLOCK b disk.sb) := by
  refine spares.block _ fun inum inside eq => ?_
  have low := lay.IBLOCK_lt inside
  have high := lay.le_BBLOCK lt
  omega

theorem Disk.Spares.superblock (spares : disk.Spares disk') (lay : Layout disk.sb disk.fssize) :
    disk'.block 1 = disk.block 1 := by
  refine spares.block _ fun inum low eq => ?_
  have := lay.one_lt_IBLOCK low
  omega

structure Living (start : Disk) (sl : Slot) (dinode : Dinode) (fs : Fs) : Prop where
  disk : start.Spares fs.disk
  number : (fs.icache sl).inum < start.sb.ninodes
  last : (fs.icache sl).ref = 1
  valid : (fs.icache sl).valid = true
  dinode : (fs.icache sl).dinode = dinode

section

variable {s0 fs : Fs} {ip : Slot} {dinode : Dinode} {stops : Stop → Prop} {post : Unit → Fs → Prop} {ops : List SmallOp}

theorem Living.holds_iupdate (settled : Settled s0) (living : Living s0.disk ip dinode fs)
    (full : stops tooBig) (next : ∀ disk', s0.disk.Spares disk' → post () (fs.setDisk disk')) :
    Holds (iupdate ip) fs post stops := by
  have limits := settled.layout.bounds
  have low := settled.layout.IBLOCK_lt living.number
  refine Xv6.holds_iupdate ?_ ?_ ?_ full fun disk' puts =>
    next disk' (living.disk.iupdate living.number puts)
  · rw [living.disk.held, settled.unheld]
    exact not_mem_nil
  · rw [living.disk.fssize, living.disk.sb]
    omega
  · rw [living.disk.outstanding]
    exact settled.opened

theorem Living.setDinode (living : Living s0.disk ip dinode fs) (changed : Dinode) :
    Living s0.disk ip changed (fs.setInode ip ((fs.icache ip).setDinode changed)) := by
  obtain ⟨disk, number, last, valid, _⟩ := living
  constructor <;> simp [*]

theorem Living.setDisk (living : Living s0.disk ip dinode fs) (spares : s0.disk.Spares disk) :
    Living s0.disk ip dinode (fs.setDisk disk) :=
  ⟨spares, living.number, living.last, living.valid, living.dinode⟩

theorem holds_smallOp {op : SmallOp} (settled : Settled s0) (full : stops tooBig)
    (small : dinode.type = T_SFILE) (low : op.Inside) (living : Living s0.disk ip dinode fs) :
    Holds (op.run ip) fs (fun _ fs' => Living s0.disk ip (op.effect dinode) fs') stops := by
  have type : (fs.icache ip).dinode.type = T_SFILE := by rw [living.dinode, small]
  cases op with
  | read off n =>
    have notDevice : ¬(fs.icache ip).dinode.type = T_DEV := by
      rw [type]
      decide
    simp only [SmallOp.run, readi, holds_bind, holds_get, holds_pure]
    rw [if_neg notDevice, if_pos type, holds_ite, holds_pure, holds_pure]
    exact ⟨fun _ => living, fun _ => living⟩
  | write src off n =>
    simp only [SmallOp.run, holds_bind, holds_pure, SmallOp.effect]
    refine holds_writei_small type ?_ ?_ ?_ <;> rw [living.dinode]
    · intro refused
      rwa [if_pos refused]
    · intro ok keeps
      rw [if_neg ok, fs.moveIn_inside ip src low, living.dinode, written, if_neg keeps]
      exact living.setDinode _
    · intro ok grows
      rw [if_neg ok, fs.moveIn_inside ip src low, setInode_setInode]
      have moved := living.setDinode (dinode.written src off n)
      exact moved.holds_iupdate settled full fun disk' spares => moved.setDisk spares

theorem SmallOp.effect_keeps (dinode : Dinode) (op : SmallOp) :
    (op.effect dinode).type = dinode.type ∧ (op.effect dinode).nlink = dinode.nlink := by
  cases op with
  | read off n => exact ⟨rfl, rfl⟩
  | write src off n =>
    simp only [SmallOp.effect, written]
    split
    · exact ⟨rfl, rfl⟩
    · split <;> exact ⟨rfl, rfl⟩

theorem foldl_effect_keeps (ops : List SmallOp) (dinode : Dinode) :
    (ops.foldl SmallOp.effect dinode).type = dinode.type ∧ (ops.foldl SmallOp.effect dinode).nlink = dinode.nlink := by
  induction ops generalizing dinode with
  | nil => exact ⟨rfl, rfl⟩
  | cons op rest ih =>
    rw [foldl_cons, (ih _).1, (ih _).2]
    exact op.effect_keeps dinode

theorem holds_smallOps (settled : Settled s0) (full : stops tooBig) (small : dinode.type = T_SFILE)
    (low : ∀ op ∈ ops, op.Inside) (living : Living s0.disk ip dinode fs) : Holds (Prog.each ops (SmallOp.run ip)) fs
      (fun _ fs' => Living s0.disk ip (ops.foldl SmallOp.effect dinode) fs') stops := by
  induction ops generalizing fs dinode with
  | nil =>
    rw [Prog.each, holds_ret]
    exact living
  | cons op rest ih =>
    rw [Prog.each, holds_andThen]
    refine (holds_smallOp settled full small (low op mem_cons_self) living).conseq fun _ fs' next => ?_
    refine ih ?_ (fun o mem => low o (mem_cons_of_mem _ mem)) next
    rw [(op.effect_keeps dinode).1, small]

theorem holds_smallLife {dev : Nat} (settled : Settled s0)
    (mild : ∀ reason, Harmless reason → stops reason) (inside : ∀ op ∈ ops, op.Inside)
    (next : ∀ ip fs, Living s0.disk ip (afterOps ops) fs → Holds (iput ip) fs post stops) :
    Holds (smallLife dev ops) s0 post stops := by
  have limits := settled.layout.bounds
  have full : stops tooBig := mild _ (by decide)
  rw [smallLife, holds_bind]
  refine holds_ialloc settled.layout (by simp [settled.unheld]) settled.opened full
    (mild _ (by decide)) fun inum disk1 pos lt free puts => ?_
  have spares := (Disk.Spares.refl s0.disk).iupdate lt puts
  have fresh := dinodeAt_iupdate puts
  refine holds_iget (fun _ => mild _ (by decide)) (fun ip held _ number => ?_) fun _ ip _ => ?_
  · exact absurd free (number ▸ settled.absent ip held)
  rw [holds_bind]
  have low := settled.layout.IBLOCK_lt lt
  refine holds_ilock ?_ ?_ ?_ (fun _ => mild _ (by decide)) ?_ ?_
  all_goals simp only [setInode_same, recycle_ref, recycle_inum, setInode_disk, setDisk_disk, fresh]
  · omega
  · rw [puts.held, settled.unheld]
    exact not_mem_nil
  · rw [puts.fssize, puts.sb]
    omega
  · simp [Inode.valid]
  · refine fun _ => ⟨fun untyped => absurd untyped (by decide), fun _ => ?_⟩
    refine (holds_smallOps settled full (show (Dinode.fresh T_SFILE).type = T_SFILE from rfl) inside
      ⟨spares, ?_, ?_, ?_, ?_⟩).bind fun _ fs' living => ?_
    · simpa [loaded] using lt
    · simp [loaded]
    · simp [loaded, Inode.valid, I_VALID]
    · simp [loaded]
    · simp only [holds_bind, iunlock, holds_inode, holds_ite, holds_panic, holds_modifyInode]
      refine ⟨fun _ => mild _ (by decide), fun _ => next ip _ ?_⟩
      obtain ⟨disk, number, last, valid, dinode⟩ := living
      exact ⟨disk, by simpa using number, by simpa using last, by simpa using valid, by simpa [afterOps] using dinode⟩

theorem holds_itrunc_empty (empty : (fs.icache ip).dinode.addrs = Bytes.zero)
    (next : Holds (iupdate ip) (fs.setInode ip ((fs.icache ip).setDinode
      ((fs.icache ip).dinode.setSize 0))) post stops) : Holds (itrunc ip) fs post stops := by
  have direct : Holds (itruncDirect ip) fs (fun _ fs' => fs' = fs) stops := by
    refine Holds.upto (fun _ fs' => fs' = fs) rfl fun i fs' _ eq => ?_
    subst eq
    simp [holds_onlyIf, empty]
  rw [itrunc]
  refine direct.bind fun _ fs' eq => ?_
  subst eq
  simp only [itruncIndirect, holds_bind, holds_inode, holds_onlyIf, empty, word_zero,
    ne_eq, not_true_eq_false, false_implies, not_false_eq_true, true_implies, true_and, holds_modifyDinode]
  exact next

theorem Living.holds_iput (settled : Settled s0) (full : stops tooBig)
    (living : Living s0.disk ip dinode fs) (cut : dinode.nlink = 0) (empty : dinode.addrs = Bytes.zero) :
    Holds (iput ip) fs (fun _ fs' => s0.disk.Spares fs'.disk) stops := by
  have free : (fs.icache ip).ref = 1 ∧ (fs.icache ip).valid ∧ (fs.icache ip).dinode.nlink = 0 := by
    rw [living.dinode]
    exact ⟨living.last, living.valid, cut⟩
  simp only [iput, holds_bind, holds_inode, holds_onlyIf, free, true_implies, not_true_eq_false,
    false_implies, and_true, and_self, ifree]
  refine holds_itrunc_empty (by rw [living.dinode, empty]) ?_
  refine (living.setDinode _).holds_iupdate settled full fun disk1 spares1 => ?_
  have living1 := (living.setDinode ((fs.icache ip).dinode.setSize 0)).setDisk spares1
  rw [holds_modifyDinode]
  refine (living1.setDinode _).holds_iupdate settled full fun disk2 spares2 => ?_
  simpa using spares2

end

structure Disk.Clears (disk disk' : Disk) : Prop where
  sb : disk'.sb = disk.sb
  super : Superblock.ofBlock (disk'.block 1) = disk.sb
  used : ∀ b, Used disk.sb disk'.block b → Used disk.sb disk.block b

theorem bfree_clears {s0 : Disk} (low : 1 < s0.sb.bmapstart ∧ s0.sb.bmapstart + 2 ^ 20 ≤ 2 ^ 32)
    (clears : s0.Clears disk) (word : b < 2 ^ 32) :
    Holds (bfree b) disk fun _ disk' => s0.Clears disk' ∧ Used s0.sb s0.block b ∧
      ∀ c, Used s0.sb disk'.block c → Used s0.sb disk.block c ∧ c ≠ b := by
  have o : 1 ≠ BBLOCK b s0.sb := by
    simp only [BBLOCK, BPB, BSIZE]
    omega
  refine (bfree_puts disk b (clears.super.trans clears.sb.symm)).conseq ?_
  rintro _ disk' ⟨used, puts⟩
  have block := puts.block
  rw [clears.sb] at used block
  rw [applyAll_cons, applyAll_nil] at block
  have fewer : ∀ c, Used s0.sb disk'.block c → Used s0.sb disk.block c ∧ c ≠ b := by
    intro c still
    rw [block] at still
    exact used_of_clearBit still
  refine ⟨⟨puts.sb.trans clears.sb, ?_, fun c still => clears.used c (fewer c still).1⟩, clears.used b used, fewer⟩
  rw [block, update_of_ne o]
  exact clears.super

structure Freed (start : Disk) (sl : Slot) (inum : Nat) (addrs : Bytes 52) (count : Nat)
    (fs : Fs) : Prop where
  clears : start.Clears fs.disk
  number : (fs.icache sl).inum = inum
  gone : ∀ index < count, addrs.word index ≠ 0 → Used start.sb start.block (addrs.word index) ∧
    ¬Used start.sb fs.disk.block (addrs.word index)
  rest : ∀ index, count ≤ index → index < 13 → (fs.icache sl).dinode.addrs.word index = addrs.word index

section

variable {s0 : Disk} {ip : Slot} {inum n : Nat} {addrs : Bytes 52} {fs : Fs}

section

variable (freed : Freed s0 ip inum addrs n fs)

include freed

theorem Freed.clear (clears : s0.Clears disk) (fewer : ∀ b, Used s0.sb disk.block b → Used s0.sb fs.disk.block b) :
    Freed s0 ip inum addrs n (fs.setDisk disk) :=
  ⟨clears, freed.number, fun i lt has =>
    ⟨(freed.gone i lt has).1, fun still => (freed.gone i lt has).2 (fewer _ still)⟩, freed.rest⟩

theorem Freed.skip (zero : addrs.word n = 0) : Freed s0 ip inum addrs (n + 1) fs := by
  refine ⟨freed.clears, freed.number, fun i lt has => ?_, fun i low => freed.rest i (by omega)⟩
  by_cases last : i = n
  · exact absurd (last ▸ zero) has
  · exact freed.gone i (by omega) has

theorem Freed.bfree (lt : n < 13) (low : 1 < s0.sb.bmapstart ∧ s0.sb.bmapstart + 2 ^ 20 ≤ 2 ^ 32) : Holds (do
      onDisk (bfree (addrs.word n))
      setAddr ip n 0) fs fun _ fs' => Freed s0 ip inum addrs (n + 1) fs' := by
  simp only [holds_bind, holds_onDisk, holds_setAddr]
  refine (bfree_clears low freed.clears (word_lt _ _)).conseq ?_
  rintro _ disk' ⟨clears, used, fewer⟩
  refine ⟨by simpa using clears, by simpa using freed.number, fun i small has => ?_, fun i small inside => ?_⟩
  · by_cases last : i = n
    · subst last
      exact ⟨used, fun still => (fewer _ still).2 rfl⟩
    · obtain ⟨pre, gone⟩ := freed.gone i (by omega) has
      exact ⟨pre, fun still => gone (fewer _ still).1⟩
  · simp only [setInode_same, setDisk_icache, setDinode_dinode, setAddrs_addrs]
    rw [word_setWord_ne _ _ (by omega)]
    exact freed.rest i (by omega) inside

end

theorem itruncDirect_freed (freed : Freed s0 ip inum addrs 0 fs)
    (low : 1 < s0.sb.bmapstart ∧ s0.sb.bmapstart + 2 ^ 20 ≤ 2 ^ 32) :
    Holds (itruncDirect ip) fs fun _ fs' => Freed s0 ip inum addrs NDIRECT fs' := by
  refine Holds.upto (fun i fs' => Freed s0 ip inum addrs i fs') freed fun i fs' lt freed => ?_
  have word := freed.rest i (le_refl _) (by simp only [NDIRECT] at lt; omega)
  simp only [holds_bind, holds_inode, holds_onlyIf, word]
  refine ⟨fun _ => ?_, fun zero => freed.skip (not_not.mp zero)⟩
  simpa only [holds_bind] using freed.bfree (by simp only [NDIRECT] at lt; omega) low

theorem entries_freed (freed : Freed s0 ip inum addrs n fs) (data : Block)
    (low : 1 < s0.sb.bmapstart ∧ s0.sb.bmapstart + 2 ^ 20 ≤ 2 ^ 32) :
    Holds (Prog.upto NINDIRECT fun j => Prog.onlyIf (data.word j ≠ 0) (onDisk (bfree (data.word j)))) fs
      fun _ fs' => Freed s0 ip inum addrs n fs' := by
  refine Holds.upto (fun _ fs' => Freed s0 ip inum addrs n fs') freed fun i fs' _ freed => ?_
  rw [holds_onlyIf, holds_onDisk]
  refine ⟨fun _ => ?_, fun _ => freed⟩
  refine (bfree_clears low freed.clears (word_lt _ _)).conseq fun _ disk' done => ?_
  exact freed.clear done.1 fun b used => (done.2.2 b used).1

theorem Freed.setHeld (freed : Freed s0 ip inum addrs n fs) (held : List Nat) :
    Freed s0 ip inum addrs n (fs.setDisk (fs.disk.setHeld held)) :=
  freed.clear ⟨freed.clears.sb, freed.clears.super, freed.clears.used⟩ fun _ used => used

theorem itruncIndirect_freed (freed : Freed s0 ip inum addrs NDIRECT fs)
    (low : 1 < s0.sb.bmapstart ∧ s0.sb.bmapstart + 2 ^ 20 ≤ 2 ^ 32) :
    Holds (itruncIndirect ip) fs fun _ fs' => Freed s0 ip inum addrs (NDIRECT + 1) fs' := by
  have word := freed.rest NDIRECT (le_refl _) (by decide)
  simp only [itruncIndirect, holds_bind, holds_inode, holds_onlyIf, word]
  refine ⟨fun _ => ?_, fun zero => freed.skip (not_not.mp zero)⟩
  simp only [holds_onDisk, bread, holds_bind, holds_get, holds_ite, holds_halt, panic, implies_true,
    true_and, holds_modify, holds_pure]
  intro _ _
  refine (entries_freed (freed.setHeld _) _ low).conseq fun _ fs' freed => ?_
  simpa only [holds_bind, holds_onDisk, brelse, holds_modify] using (freed.setHeld _).bfree (by decide) low

theorem iupdate_used (fssize : Nat) (lay : Layout fs.disk.sb fssize) (lt : (fs.icache ip).inum < fs.disk.sb.ninodes) :
    Holds (iupdate ip) fs fun _ fs' => ∃ disk', fs' = fs.setDisk disk' ∧ disk'.sb = fs.disk.sb ∧ ∀ b < fs.disk.sb.size,
        (Used fs.disk.sb disk'.block b ↔ Used fs.disk.sb fs.disk.block b) := by
  refine (iupdate_puts fs ip).conseq ?_
  rintro _ fs' ⟨disk', puts, rfl⟩
  refine ⟨disk', rfl, puts.sb, fun b inside => ?_⟩
  have low := lay.IBLOCK_lt lt
  have high := lay.le_BBLOCK inside
  rw [puts.block, iupdateWrite, applyAll_cons, applyAll_nil]
  exact used_update_ne (by omega)

theorem iput_freed (fssize : Nat) (lay : Layout fs.disk.sb fssize)
    (low : fs.disk.sb.bmapstart + 2 ^ 20 ≤ 2 ^ 32) (super : Superblock.ofBlock (fs.disk.block 1) = fs.disk.sb)
    (lt : (fs.icache ip).inum < fs.disk.sb.ninodes)
    (free : (fs.icache ip).ref = 1 ∧ (fs.icache ip).valid ∧ (fs.icache ip).dinode.nlink = 0) :
    Holds (iput ip) fs fun _ fs' => ∀ i < 13, (fs.icache ip).dinode.addrs.word i ≠ 0 →
      (fs.icache ip).dinode.addrs.word i < fs.disk.sb.size →
      Used fs.disk.sb fs.disk.block ((fs.icache ip).dinode.addrs.word i) ∧
        ¬Used fs.disk.sb fs'.disk.block ((fs.icache ip).dinode.addrs.word i) := by
  have limits := lay.bounds
  have k : 1 < fs.disk.sb.bmapstart ∧ fs.disk.sb.bmapstart + 2 ^ 20 ≤ 2 ^ 32 :=
    ⟨by omega, low⟩
  have initial : Freed fs.disk ip (fs.icache ip).inum (fs.icache ip).dinode.addrs 0 fs :=
    ⟨⟨rfl, super, fun _ used => used⟩, rfl, fun _ none => absurd none (Nat.not_lt_zero _), fun _ _ _ => rfl⟩
  simp only [iput, holds_bind, holds_inode, holds_onlyIf, free, true_implies, not_true_eq_false,
    false_implies, and_true, and_self, ifree, itrunc, holds_modifyDinode, holds_modifyInode]
  refine (itruncDirect_freed initial k).conseq fun _ fs1 freed => ?_
  refine (itruncIndirect_freed freed k).conseq fun _ fs2 freed => ?_
  have sb := freed.clears.sb
  refine (iupdate_used fssize ?_ ?_).conseq fun _ fs3 done => ?_
  · simpa [sb] using lay
  · simpa [sb, freed.number] using lt
  obtain ⟨disk3, rfl, sb3, used3⟩ := done
  refine (iupdate_used fssize ?_ ?_).conseq fun _ fs4 done => ?_
  · simpa [sb3, sb] using lay
  · simpa [sb3, sb, freed.number] using lt
  obtain ⟨disk4, rfl, sb4, used4⟩ := done
  intro i inside has small
  obtain ⟨pre, gone⟩ := freed.gone i inside has
  simp only [setInode_disk, setDisk_disk, sb3, sb] at used3 used4 ⊢
  refine ⟨pre, fun still => gone ?_⟩
  exact (used3 _ small).mp ((used4 _ small).mp still)

end

/-- The life of a small file leaves the bitmap alone if all its inline bytes are zero when it is freed,
and otherwise only by accident. -/
theorem small_life_spares_bitmap (dev : Nat) (start : Fs) (settled : Settled start)
    (ops : List SmallOp) (inside : ∀ op ∈ ops, op.Inside) : ((afterOps ops).addrs = Bytes.zero →
      Holds (smallLife dev ops) start (fun _ fs => ∀ b < start.disk.sb.size,
        fs.disk.block (BBLOCK b start.disk.sb) = start.disk.block (BBLOCK b start.disk.sb))
        Harmless) ∧ ((∀ index < 13, (afterOps ops).addrs.word index < start.disk.sb.size) →
      ∀ fs, (smallLife dev ops start).state? = some fs → (∀ b < start.disk.sb.size,
        fs.disk.block (BBLOCK b start.disk.sb) = start.disk.block (BBLOCK b start.disk.sb)) →
      (afterOps ops).addrs = Bytes.zero) := by
  have unlinked : (afterOps ops).nlink = 0 := (foldl_effect_keeps ops _).2
  constructor
  · intro empty
    refine holds_smallLife settled (fun _ harmless => harmless) inside fun sl fs living => ?_
    refine (living.holds_iput settled (by decide) unlinked empty).conseq fun _ fs' spares => ?_
    exact fun b bound => spares.bitmap settled.layout bound
  · intro words fs returned same
    have spec : Holds (smallLife dev ops) start (fun _ fs => ∀ index < 13,
        (afterOps ops).addrs.word index ≠ 0 → (afterOps ops).addrs.word index < start.disk.sb.size →
        Used start.disk.sb start.disk.block ((afterOps ops).addrs.word index) ∧
          ¬Used start.disk.sb fs.disk.block ((afterOps ops).addrs.word index)) fun _ => True := by
      refine holds_smallLife settled (fun _ _ => trivial) inside fun sl fs living => ?_
      have sb := living.disk.sb
      refine (iput_freed start.disk.fssize ?_ ?_ ?_ ?_ ?_).conseq fun _ fs' freed => ?_
      · rw [sb]
        exact settled.layout
      · rw [sb]
        exact settled.low
      · rw [sb, living.disk.superblock settled.layout]
        exact settled.super
      · rw [sb]
        exact living.number
      · rw [living.dinode]
        exact ⟨living.last, living.valid, unlinked⟩
      · intro index bound present small
        rw [sb, living.dinode] at freed
        obtain ⟨before, after⟩ := freed index bound present small
        rw [Used, living.disk.bitmap settled.layout small] at before
        exact ⟨before, after⟩
    obtain ⟨_, freed⟩ := spec.of_state? returned
    refine Bytes.eq_zero_of_words _ (by decide) fun index bound => ?_
    by_contra present
    obtain ⟨before, after⟩ := freed index (by omega) present (words index (by omega))
    rw [Used, same _ (words index (by omega))] at after
    exact after before

theorem settled_boot : Settled (boot Disk.blank.inOp) :=
  ⟨mkfs_layout, rfl, by decide, by decide +kernel, rfl, by decide, fun _ held =>
    absurd held (Int.lt_irrefl 0)⟩

theorem small_life_spares_bitmap_zero : ∃ fs,
    smallLife ROOTDEV [.write (fun _ => 0) 0 4, .read 0 4] (Fs.boot Disk.blank.inOp) = .ok () fs ∧
    ∀ b < mkfsSb.size, fs.disk.block (BBLOCK b mkfsSb) = (Fs.boot Disk.blank.inOp).disk.block (BBLOCK b mkfsSb) := by
  have checked : (smallLife ROOTDEV [.write (fun _ => 0) 0 4, .read 0 4]
      (Fs.boot Disk.blank.inOp)).check (fun _ _ => true) = true := by
    decide +kernel
  obtain ⟨⟨⟩, fs, ran, _⟩ := Outcome.of_check checked
  have spared := (small_life_spares_bitmap ROOTDEV (Fs.boot Disk.blank.inOp) settled_boot
    [.write (fun _ => 0) 0 4, .read 0 4] (by simp [SmallOp.Inside])).1 ?_
  · exact ⟨fs, ran, spared.of_ok ran⟩
  · have words : ∀ index < 13, (afterOps [.write (fun _ => 0) 0 4, .read 0 4]).addrs.word index = 0 := by
      decide +kernel
    exact Bytes.eq_zero_of_words _ (by decide) fun index bound => words index (by omega)

def bootUsed : Fs :=
  (Fs.boot Disk.blank.inOp).setDisk (Disk.blank.inOp.setBlock (BBLOCK 100 mkfsSb) (Bytes.zero.setBit 100))

/-- Four bytes that read as the number 100: freeing the file frees that block if it is in use, and
panics if it is not. -/
theorem small_life_frees_block :
    (∃ fs, smallLife ROOTDEV [.write (fun index => if index = 0 then 100 else 0) 0 4] bootUsed =
        .ok () fs ∧ Used mkfsSb bootUsed.disk.block 100 ∧ ¬Used mkfsSb fs.disk.block 100) ∧
    (smallLife ROOTDEV [.write (fun index => if index = 0 then 100 else 0) 0 4]
      (Fs.boot Disk.blank.inOp)).reason? = some (.panic "freeing free block") := by
  refine ⟨?_, by decide +kernel⟩
  have checked : (smallLife ROOTDEV [.write (fun index => if index = 0 then 100 else 0) 0 4]
      bootUsed).check (fun _ fs => !(fs.disk.block (BBLOCK 100 mkfsSb)).bit (100 % BPB)) = true := by
    decide +kernel
  obtain ⟨⟨⟩, fs, ran, cleared⟩ := Outcome.of_check checked
  refine ⟨fs, ran, by unfold Used; decide +kernel, ?_⟩
  rw [Used]
  simpa using cleared

end Xv6
