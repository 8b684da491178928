import Xv6.InodeCore
import Xv6.Blocks

/-! The on-disk inode table as a map from inode numbers, and what the functions that move
inodes between disk and cache do to it. -/

namespace Xv6

open Exec Writes List Fs Bytes Disk Function

variable {i o k inum : Nat} {sb : Superblock} {dinode : Dinode} {α : Type} {post : Unit → Fs → Prop}

namespace Dinode

theorem halfOf_wordByte (val : Nat) : halfOf (wordByte val) = val % 2 ^ 16 := by
  simp only [halfOf, wordByte, UInt8.toNat_ofNat']
  omega

theorem ofNat_halfOf (val : BitVec 16) (source : Nat → UInt8)
    (first : source 0 = wordByte val.toNat 0) (second : source 1 = wordByte val.toNat 1) :
    BitVec.ofNat 16 (halfOf source) = val := by
  have half := halfOf_wordByte val.toNat
  rw [halfOf] at half
  rw [halfOf, first, second, half, Nat.mod_eq_of_lt val.isLt, BitVec.ofNat_toNat, BitVec.setWidth_eq]

theorem ofBytes_byte (dinode : Dinode) : ofBytes dinode.byte = dinode := by
  have size : BitVec.ofNat 32 (wordOf fun k => dinode.byte (8 + k)) = dinode.size := by
    have bytes : (wordOf fun k => dinode.byte (8 + k)) = wordOf (wordByte dinode.size.toNat) := by
      refine wordOf_congr fun k lt => ?_
      rw [byte, if_neg (by omega), if_neg (by omega), if_neg (by omega), if_neg (by omega),
        if_pos (by omega), Nat.add_sub_cancel_left]
    rw [bytes, wordOf_wordByte, Nat.mod_eq_of_lt dinode.size.isLt, BitVec.ofNat_toNat, BitVec.setWidth_eq]
  have addrs : (Bytes.ofFn fun k => dinode.byte (12 + k) : Bytes 52) = dinode.addrs := by
    refine Bytes.ext fun k lt => ?_
    rw [byte_ofFn _ lt, byte]
    rw [if_neg (by omega), if_neg (by omega), if_neg (by omega), if_neg (by omega),
      if_neg (by omega), Nat.add_sub_cancel_left]
  simp only [ofBytes, size, addrs]
  congr 1 <;> exact ofNat_halfOf _ _ rfl rfl

theorem ofBytes_congr {left right : Nat → UInt8} (eq : ∀ k < 64, left k = right k) : ofBytes left = ofBytes right := by
  have half : ∀ base < 62, (halfOf fun k => left (base + k)) = halfOf fun k => right (base + k) := by
    intro base lt
    simp only [halfOf, eq (base + 0) (by omega), eq (base + 1) (by omega)]
  have zero := half 0 (by omega)
  simp only [Nat.zero_add] at zero
  simp only [ofBytes, zero, half 2 (by omega), half 4 (by omega), half 6 (by omega)]
  congr 1
  · rw [wordOf_congr fun k lt => eq (8 + k) (by omega)]
  · refine Bytes.ext fun k lt => ?_
    rw [byte_ofFn _ lt, byte_ofFn _ lt]
    exact eq _ (by omega)

theorem load_save_same (dinode : Dinode) (lt : i < IPB) (data : Block) : load (dinode.save i data) i = dinode := by
  rw [← ofBytes_byte dinode]
  refine ofBytes_congr fun k small => ?_
  simp only [IPB, BSIZE] at lt
  rw [save, byte_blit _ _ _ _ (by simp only [BSIZE]; omega), if_pos (by omega), ofBytes_byte, Nat.add_sub_cancel_left]

theorem load_save_ne (dinode : Dinode) (ne : o ≠ i) (data : Block) : load (dinode.save i data) o = load data o := by
  refine ofBytes_congr fun k small => ?_
  exact byte_blit_outside _ _ _ _ (by omega)

theorem wordByte_wordOf (source : Nat → UInt8) (lt : k < 4) : wordByte (wordOf source) k = source k := by
  have small := fun k => (source k).toNat_lt
  have bounds := And.intro (And.intro (small 0) (small 1)) (And.intro (small 2) (small 3))
  rw [← UInt8.toNat_inj, wordByte, wordOf, UInt8.toNat_ofNat']
  obtain rfl | rfl | rfl | rfl : k = 0 ∨ k = 1 ∨ k = 2 ∨ k = 3 := by omega
  all_goals omega

theorem wordByte_halfOf (source : Nat → UInt8) (lt : k < 2) :
    wordByte (BitVec.ofNat 16 (halfOf source)).toNat k = source k := by
  have small := fun k => (source k).toNat_lt
  have bounds := And.intro (small 0) (small 1)
  rw [← UInt8.toNat_inj, wordByte, halfOf, BitVec.toNat_ofNat, UInt8.toNat_ofNat']
  obtain rfl | rfl : k = 0 ∨ k = 1 := by omega
  all_goals omega

theorem byte_ofBytes (source : Nat → UInt8) (lt : k < 64) : (ofBytes source).byte k = source k := by
  simp only [byte, ofBytes]
  split_ifs with type major minor nlink size
  · exact wordByte_halfOf _ type
  iterate 3 rw [wordByte_halfOf _ (by omega), Nat.add_sub_cancel' (by omega)]
  · rw [BitVec.toNat_ofNat, Nat.mod_eq_of_lt (wordOf_lt _), wordByte_wordOf _ (by omega),
      Nat.add_sub_cancel' (by omega)]
  · rw [byte_ofFn _ (by omega), Nat.add_sub_cancel' (by omega)]

theorem save_load (dinode : Dinode) (data : Block) (i : Nat) : (load data i).save i (dinode.save i data) = data := by
  refine Bytes.ext fun k lt => ?_
  rw [save, byte_blit _ _ _ _ lt, save, byte_blit _ _ _ _ lt]
  split
  · rw [load, byte_ofBytes _ (by omega), Nat.add_sub_cancel' (by omega)]
  · rfl

end Dinode

def dinodeAt (sb : Superblock) (block : Nat → Block) (inum : Nat) : Dinode :=
  Dinode.load (block (IBLOCK inum sb)) (inum % IPB)

theorem dinodeAt_update_ne {block : Nat → Block} {target : Nat} {data : Block} (ne : IBLOCK inum sb ≠ target) :
    dinodeAt sb (update block target data) inum = dinodeAt sb block inum := by
  rw [dinodeAt, dinodeAt, update_of_ne ne]

theorem dinodeAt_store (block : Nat → Block) (dinode : Dinode)
    (apart : IBLOCK o sb = IBLOCK inum sb → o / IPB = inum / IPB) : dinodeAt sb (update block (IBLOCK inum sb)
      (dinode.save (inum % IPB) (block (IBLOCK inum sb)))) o = if o = inum then dinode else dinodeAt sb block o := by
  have small : inum % IPB < IPB := Nat.mod_lt _ (by decide)
  split
  · rename_i same
    rw [same, dinodeAt, update_self, Dinode.load_save_same _ small]
  · rename_i ne
    by_cases same : IBLOCK o sb = IBLOCK inum sb
    · have i : o % IPB ≠ inum % IPB := by
        have row := apart same
        simp only [IPB, BSIZE] at *
        omega
      rw [dinodeAt, same, update_self, Dinode.load_save_ne _ i, dinodeAt, same]
    · exact dinodeAt_update_ne same

theorem Layout.row {fssize : Nat} (lay : Layout sb fssize)
    (lt : inum < sb.ninodes) (low : o < sb.ninodes) (eq : IBLOCK o sb = IBLOCK inum sb) : o / IPB = inum / IPB := by
  rw [lay.IBLOCK_eq lt, lay.IBLOCK_eq low] at eq
  exact Nat.add_right_cancel eq

def iupdateWrite (sb : Superblock) (block : Nat → Block) (inum : Nat) (dinode : Dinode) : Nat × Block :=
  (IBLOCK inum sb, dinode.save (inum % IPB) (block (IBLOCK inum sb)))

def iupdated (sb : Superblock) (block : Nat → Block) (inum : Nat) (dinode : Dinode) : Nat → Block :=
  update block (IBLOCK inum sb) (dinode.save (inum % IPB) (block (IBLOCK inum sb)))

theorem dinodeAt_iupdated (sb : Superblock) (block : Nat → Block) (inum : Nat) (dinode : Dinode) :
    dinodeAt sb (iupdated sb block inum dinode) inum = dinode := by
  rw [dinodeAt, iupdated, update_self, Dinode.load_save_same _ (Nat.mod_lt _ (by decide))]

theorem iupdated_back (sb : Superblock) (block : Nat → Block) (inum : Nat) (dinode : Dinode) :
    iupdated sb (iupdated sb block inum dinode) inum (dinodeAt sb block inum) = block := by
  rw [iupdated, iupdated, update_self, dinodeAt, Dinode.save_load, Function.update_idem, Function.update_eq_self]

def Refused (dinode : Dinode) (off n : BitVec 32) : Prop :=
  dinode.size < off ∨ off + n < off ∨ MAXFILE * BSIZE < (off + n).toNat

def Grows (dinode : Dinode) (off n : BitVec 32) : Prop := 0 < n ∧ dinode.size < off + n

instance (dinode : Dinode) (off n : BitVec 32) : Decidable (Refused dinode off n) :=
  inferInstanceAs (Decidable (_ ∨ _))

instance (dinode : Dinode) (off n : BitVec 32) : Decidable (Grows dinode off n) :=
  inferInstanceAs (Decidable (_ ∧ _))

variable {off n : BitVec 32}

theorem Refused.not_iff :
    ¬Refused dinode off n ↔ off.toNat ≤ dinode.size.toNat ∧ off.toNat + n.toNat ≤ MAXFILE * BSIZE := by
  have offBound := off.isLt
  have nBound := n.isLt
  simp only [Refused, not_or, BitVec.lt_def, BitVec.toNat_add, MAXFILE, NDIRECT, NINDIRECT, BSIZE]
  omega

theorem Grows.iff_of_accepted (ok : ¬Refused dinode off n) :
    Grows dinode off n ↔ dinode.size.toNat < off.toNat + n.toNat := by
  have limits := Refused.not_iff.mp ok
  have zero : (0 : BitVec 32).toNat = 0 := rfl
  simp only [MAXFILE, NDIRECT, NINDIRECT, BSIZE] at limits
  simp only [Grows, BitVec.lt_def, BitVec.toNat_add, zero]
  omega

theorem readi_count {size : BitVec 32} (low : ¬(size < off ∨ off + n < off)) :
    (if size < off + n then size - off else n).toNat = min n.toNat (size.toNat - off.toNat) := by
  have sizeBound := size.isLt
  simp only [not_or, BitVec.lt_def, BitVec.toNat_add] at low
  split
  · rename_i beyond
    rw [BitVec.lt_def, BitVec.toNat_add] at beyond
    rw [BitVec.toNat_sub]
    omega
  · rename_i within
    rw [BitVec.lt_def, BitVec.toNat_add] at within
    omega

section

variable (dinode : Dinode) (ip : Inode) (fs : Fs) (sl : Slot)

@[simp] theorem Inode.setDinode_valid : (ip.setDinode dinode).valid = ip.valid := rfl

@[simp] theorem Inode.setLocked_valid (locked : Nat) : (ip.setLocked locked).valid = ip.valid := rfl

@[simp] theorem Inode.setDinode_setDinode (o : Dinode) : (ip.setDinode o).setDinode dinode = ip.setDinode dinode := rfl

@[simp] theorem Dinode.setAddrs_self : dinode.setAddrs dinode.addrs = dinode := rfl

@[simp] theorem Inode.setDinode_self : ip.setDinode ip.dinode = ip := rfl

@[simp] theorem Fs.setDisk_setDisk (fst snd : Disk) : (fs.setDisk fst).setDisk snd = fs.setDisk snd := rfl

@[simp] theorem Fs.setDisk_setInode (disk : Disk) :
    (fs.setDisk disk).setInode sl ip = (fs.setInode sl ip).setDisk disk := rfl

@[simp] theorem Fs.setDisk_self : fs.setDisk fs.disk = fs := rfl

@[simp] theorem Fs.setInode_same : (fs.setInode sl ip).icache sl = ip :=
  update_self _ _ _

theorem Fs.setInode_ne {o : Slot} (ne : o ≠ sl) : (fs.setInode sl ip).icache o = fs.icache o :=
  update_of_ne ne _ _

@[simp] theorem Fs.setInode_setInode (fst : Inode) : (fs.setInode sl fst).setInode sl ip = fs.setInode sl ip := by
  simp [setInode]

@[simp] theorem Fs.setInode_self : fs.setInode sl (fs.icache sl) = fs := by
  simp [setInode]

@[simp] theorem Fs.setInode_setDisk_self : (fs.setInode sl ip).setDisk fs.disk = fs.setInode sl ip :=
  rfl

end

section

variable {fs : Fs} {sl : Slot} {stops : Stop → Prop} {off n : BitVec 32} {dev : Nat}

@[simp] theorem holds_onDisk  {prog : DiskM α} {post : α → Fs → Prop} : Holds (onDisk prog) fs post stops ↔
      Holds prog fs.disk (fun val disk => post val (fs.setDisk disk)) stops :=
  holds_zoom

@[simp] theorem holds_inode {post : Inode → Fs → Prop} : Holds (inode sl) fs post stops ↔ post (fs.icache sl) fs := by
  simp [inode]

@[simp] theorem holds_modifyInode {change : Inode → Inode} : Holds (modifyInode sl change) fs post stops ↔
      post () (fs.setInode sl (change (fs.icache sl))) := holds_modify

@[simp] theorem holds_modifyDinode {change : Dinode → Dinode} : Holds (modifyDinode sl change) fs post stops ↔
      post () (fs.setInode sl ((fs.icache sl).setDinode (change (fs.icache sl).dinode))) := holds_modify

@[simp] theorem holds_setAddr {val : Nat} : Holds (setAddr sl i val) fs post stops ↔
      post () (fs.setInode sl ((fs.icache sl).setDinode ((fs.icache sl).dinode.setAddrs
        ((fs.icache sl).dinode.addrs.setWord i val)))) := holds_modifyDinode

theorem holds_iupdate_iff : Holds (iupdate sl) fs post stops ↔ Holds (bupdate (IBLOCK (fs.icache sl).inum fs.disk.sb)
        ((fs.icache sl).dinode.save ((fs.icache sl).inum % IPB))) fs.disk
        (fun _ disk => post () (fs.setDisk disk)) stops := by
  simp only [iupdate, holds_bind, holds_get, holds_onDisk]

theorem holds_iupdate (unheld : IBLOCK (fs.icache sl).inum fs.disk.sb ∉ fs.disk.held)
    (lt : IBLOCK (fs.icache sl).inum fs.disk.sb < fs.disk.fssize)
    (op : 0 < fs.disk.log.outstanding) (full : stops tooBig)
    (next : ∀ disk', fs.disk.Puts disk' [iupdateWrite fs.disk.sb fs.disk.block
      (fs.icache sl).inum (fs.icache sl).dinode] → post () (fs.setDisk disk')) : Holds (iupdate sl) fs post stops :=
  holds_iupdate_iff.mpr (holds_bupdate unheld lt op (fun _ => full) next)

theorem iupdate_puts (fs : Fs) (sl : Slot) :
    Holds (iupdate sl) fs fun _ fs' => ∃ disk', fs.disk.Puts disk' [iupdateWrite fs.disk.sb
      fs.disk.block (fs.icache sl).inum (fs.icache sl).dinode] ∧ fs' = fs.setDisk disk' :=
  holds_iupdate_iff.mpr ((bupdate_puts _ _ _).conseq fun _ disk' puts => ⟨disk', puts, rfl⟩)

theorem dinodeAt_iupdate {disk disk' : Disk} (puts : disk.Puts disk' [iupdateWrite disk.sb disk.block inum dinode]) :
    dinodeAt disk'.sb disk'.block inum = dinode := by
  have small : inum % IPB < IPB := Nat.mod_lt _ (by decide)
  rw [puts.sb, puts.block, dinodeAt, iupdateWrite, applyAll_cons, applyAll_nil,
    update_self, Dinode.load_save_same _ small]

theorem holds_grow_idle (idle : ¬(0 < n ∧ (fs.icache sl).dinode.size < off)) :
    Holds (grow sl off n) fs post stops ↔ post () fs := by
  simp only [grow, holds_bind, holds_inode, holds_onlyIf, idle, false_implies, true_and,
    not_false_eq_true, true_implies]

theorem holds_writeSize : Holds (writeSize sl off n) fs post stops ↔ Holds (grow sl off n) fs post stops := by
  by_cases grows : 0 < n ∧ (fs.icache sl).dinode.size < off
  · have again : ∀ disk, Holds (do
          let ip ← inode sl
          Prog.onlyIf (ip.dinode.type = T_SFILE) (grow sl off n))
        ((fs.setInode sl ((fs.icache sl).setDinode ((fs.icache sl).dinode.setSize off))).setDisk disk) post stops ↔
        post () ((fs.setInode sl ((fs.icache sl).setDinode ((fs.icache sl).dinode.setSize off))).setDisk disk) := by
      intro disk
      rw [holds_bind, holds_inode, holds_onlyIf, holds_grow_idle (by simp)]
      tauto
    simp only [holds_bind] at again
    simp only [writeSize, holds_bind]
    simp only [grow, holds_bind, holds_inode, holds_onlyIf, grows, true_implies, true_and,
      not_true_eq_false, false_implies, and_true, holds_modifyDinode, holds_iupdate_iff] at again ⊢
    simp only [again]
  · simp only [writeSize, holds_bind, holds_grow_idle grows, holds_inode, holds_onlyIf]
    tauto

theorem holds_writei {src : Nat → UInt8} {post : Int → Fs → Prop} (notDevice : ¬(fs.icache sl).dinode.type = T_DEV)
    (refused : Refused (fs.icache sl).dinode off n → post (-1) fs) (ok : ¬Refused (fs.icache sl).dinode off n →
      Holds (writeData sl (fs.icache sl).dinode.type src off.toNat n.toNat) fs
        (fun _ fs' => Holds (grow sl (off + n) n) fs' (fun _ => post n.toNat) stops) stops) :
    Holds (writei sl src off n) fs post stops := by
  simp only [writei, holds_bind, holds_get]
  rw [if_neg notDevice]
  by_cases early : (fs.icache sl).dinode.size < off ∨ off + n < off
  · rw [if_pos early, holds_pure]
    exact refused (by rcases early with beyond | wraps <;> simp [Refused, *])
  · rw [if_neg early]
    by_cases large : MAXFILE * BSIZE < (off + n).toNat
    · rw [if_pos large, holds_pure]
      exact refused (.inr (.inr large))
    · rw [if_neg large]
      refine (ok ?_).bind fun _ fs' done => ?_
      · simp only [not_or] at early
        simp only [Refused, not_or]
        exact ⟨early.1, early.2, large⟩
      · simpa only [holds_bind, holds_writeSize, holds_pure] using done

def noInodes : Stop := .panic "iget: no inodes"

theorem holds_iget {post : Slot → Fs → Prop} (full : (∀ sl, (fs.icache sl).ref ≠ 0) → stops noInodes)
    (cached : ∀ sl, 0 < (fs.icache sl).ref → (fs.icache sl).dev = dev → (fs.icache sl).inum = inum →
      post sl (fs.setInode sl ((fs.icache sl).setRef ((fs.icache sl).ref + 1))))
    (recycled : (∀ sl, ¬(0 < (fs.icache sl).ref ∧ (fs.icache sl).dev = dev ∧ (fs.icache sl).inum = inum)) →
      ∀ sl, (fs.icache sl).ref = 0 → post sl (fs.setInode sl ((fs.icache sl).recycle dev inum))) :
    Holds (iget dev inum) fs post stops := by
  simp only [iget, holds_bind, holds_get]
  split
  · rename_i hit
    have here := List.find?_some hit
    simp only [decide_eq_true_eq] at here
    simpa using cached _ here.1 here.2.1 here.2.2
  · rename_i absent
    have none : ∀ sl, ¬(0 < (fs.icache sl).ref ∧ (fs.icache sl).dev = dev ∧ (fs.icache sl).inum = inum) := by
      intro sl
      have missing := List.find?_eq_none.mp absent sl (mem_finRange sl)
      simpa using missing
    split
    · rename_i hit
      have here := List.find?_some hit
      simp only [decide_eq_true_eq] at here
      simpa using recycled none _ here
    · rename_i ran
      rw [holds_panic]
      refine full fun sl => ?_
      have missing := List.find?_eq_none.mp ran sl (mem_finRange sl)
      simpa using missing

theorem onDisk_frame (prog : DiskM α) (fs : Fs) :
    Holds (onDisk prog) fs fun _ fs' => ∃ disk, fs' = fs.setDisk disk := by
  rw [holds_onDisk]
  unfold Holds
  split
  · exact ⟨_, rfl⟩
  · trivial

def Inode.loaded (ip : Inode) (dinode : Dinode) : Inode :=
  ((ip.setLocked 1).setDinode dinode).setFlags (ip.flags ||| I_VALID)

theorem Inode.loaded_valid (ip : Inode) (dinode : Dinode) : (ip.loaded dinode).valid = true := by
  have kept : (ip.flags ||| I_VALID) &&& I_VALID = I_VALID := by
    ext i
    simp only [BitVec.getElem_and, BitVec.getElem_or]
    cases I_VALID[i] <;> simp
  simp only [Inode.valid, Inode.loaded, Inode.setFlags_flags, kept]
  decide

theorem ilock_spec (fs : Fs) (sl : Slot) : Holds (ilock sl) fs fun _ fs' =>
      let ip := fs.icache sl
      let dinode := dinodeAt fs.disk.sb fs.disk.block ip.inum
      0 < ip.ref ∧ ip.locked = 0 ∧ ((ip.valid = true ∧ fs' = fs.setInode sl (ip.setLocked 1)) ∨
          (ip.valid = false ∧ dinode.type ≠ 0 ∧ fs' = fs.setInode sl (ip.loaded dinode))) := by
  simp only [ilock, holds_bind, holds_inode, holds_ite, panic, holds_halt, implies_true, true_and,
    acquiresleep, holds_modifyInode, holds_onlyIf, not_not]
  intro held unlocked
  have pos : 0 < (fs.icache sl).ref := by omega
  refine ⟨fun invalid => ?_, fun valid => ⟨pos, unlocked, .inl ⟨by simpa using valid, trivial⟩⟩⟩
  simp only [holds_get, holds_onDisk, setInode_disk]
  refine (bpeek_same _ _).conseq ?_
  rintro data disk' ⟨rfl, rfl⟩
  simp only [setInode_same, setInode_setInode, holds_modifyDinode, setInode_setDisk_self]
  exact fun typed => ⟨pos, unlocked, .inr ⟨invalid, typed, rfl⟩⟩

def noType : Stop := .panic "ilock: no type"

theorem holds_ilock (held : 0 < (fs.icache sl).ref) (unheld : IBLOCK (fs.icache sl).inum fs.disk.sb ∉ fs.disk.held)
    (lt : IBLOCK (fs.icache sl).inum fs.disk.sb < fs.disk.fssize) (blocked : (fs.icache sl).locked ≠ 0 → stops .blocked)
    (cached : (fs.icache sl).valid = true → post () (fs.setInode sl ((fs.icache sl).setLocked 1)))
    (read : (fs.icache sl).valid = false → let dinode := dinodeAt fs.disk.sb fs.disk.block (fs.icache sl).inum
      (dinode.type = 0 → stops noType) ∧ (dinode.type ≠ 0 → post () (fs.setInode sl ((fs.icache sl).loaded dinode)))) :
    Holds (ilock sl) fs post stops := by
  simp only [ilock, holds_bind, holds_inode, acquiresleep]
  rw [if_neg (by omega), holds_bind, holds_bind, holds_inode, holds_ite, holds_halt]
  refine ⟨blocked, fun _ => ?_⟩
  simp only [holds_modifyInode, holds_onlyIf]
  refine ⟨fun invalid => ?_, fun valid => cached (by simpa using valid)⟩
  simp only [holds_get, holds_onDisk, setInode_disk, holds_bpeek unheld lt, holds_bind,
    holds_modifyDinode, setInode_same, setInode_setDisk_self, setInode_setInode,
    holds_inode, holds_modifyInode, holds_onlyIf, panic, holds_halt]
  exact read invalid

theorem iunlock_spec (fs : Fs) (sl : Slot) :
    Holds (iunlock sl) fs fun _ fs' => fs' = fs.setInode sl ((fs.icache sl).setLocked 0) := by
  simp only [iunlock, holds_bind, holds_inode, holds_ite, panic, holds_halt, implies_true, true_and, holds_modifyInode]

def noFreeInode : Stop := .panic "ialloc: no inodes"

section

variable {type : BitVec 16} {post : Slot → Fs → Prop} (lay : Layout fs.disk.sb fs.disk.fssize)
  (unheld : ∀ inum < fs.disk.sb.ninodes, IBLOCK inum fs.disk.sb ∉ fs.disk.held)
  (op : 0 < fs.disk.log.outstanding) (full : stops tooBig) (exhausted : stops noFreeInode)
  (next : ∀ inum disk', 0 < inum → inum < fs.disk.sb.ninodes → (dinodeAt fs.disk.sb fs.disk.block inum).type = 0 →
    fs.disk.Puts disk' [iupdateWrite fs.disk.sb fs.disk.block inum (Dinode.fresh type)] →
    Holds (iget dev inum) (fs.setDisk disk') post stops)

include lay unheld op full exhausted next

theorem holds_iallocFrom (n inum : Nat) (pos : 0 < inum) :
    Holds (iallocFrom dev type fs.disk.sb n inum) fs post stops := by
  induction n generalizing inum with
  | zero =>
    rw [iallocFrom, holds_panic]
    exact exhausted
  | succ n ih =>
    rw [iallocFrom, holds_ite, holds_panic]
    refine ⟨fun below => ?_, fun _ => exhausted⟩
    have limits := lay.bounds
    have device : IBLOCK inum fs.disk.sb < fs.disk.fssize := by
      have := lay.IBLOCK_lt below
      omega
    rw [holds_bind, holds_onDisk, holds_bread (unheld inum below) device, holds_ite]
    refine ⟨fun free => ?_, fun _ => ?_⟩
    · simp only [holds_bind, holds_onDisk, store, brelse, holds_modify]
      refine holds_logWrite op (fun _ => full) fun log same _ => ?_
      refine next inum _ pos below free ⟨rfl, rfl, ?_, rfl, rfl, same, rfl⟩
      exact erase_cons_head ..
    · simp only [holds_bind, holds_onDisk, brelse, holds_modify, setDisk_disk,
        setHeld_held, erase_cons_head, setHeld_setHeld, setHeld_self, setDisk_setDisk, setDisk_self]
      exact ih (inum + 1) (by omega)

theorem holds_ialloc : Holds (ialloc dev type) fs post stops := by
  rw [ialloc, holds_bind, holds_get]
  exact holds_iallocFrom lay unheld op full exhausted next _ 1 (by omega)

end

end

end Xv6
