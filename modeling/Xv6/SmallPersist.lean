import Xv6.SmallFile

/-! When the writes of a small file reach the inode block, so that its bytes survive the
recycling of the cache entry. -/

namespace Xv6

open Exec Writes Reach List Fs Inode Dinode

def Saved (fs : Fs) (sl : Slot) : Prop :=
  dinodeAt fs.disk.sb fs.disk.block (fs.icache sl).inum = (fs.icache sl).dinode

structure SmallWrite where
  src : Nat → UInt8
  off : BitVec 32
  n : BitVec 32

namespace SmallWrite

def Next (sl : Slot) (fs : Fs) (write : SmallWrite) (fs' : Fs) : Prop :=
  write.off.toNat ≤ (fs.icache sl).dinode.size.toNat ∧ write.off.toNat + write.n.toNat ≤ 52 ∧
    (writei sl write.src write.off write.n fs).state? = some fs'

/-- The write makes the file longer or repeats the bytes that are there. -/
def Lasting (sl : Slot) (fs : Fs) (write : SmallWrite) : Prop :=
  (fs.icache sl).dinode.size.toNat < write.off.toNat + write.n.toNat ∨
    ∀ place < write.n.toNat, write.src place = (fs.icache sl).dinode.addrs.byte (write.off.toNat + place)

variable {ip : Slot} {fs fs' : Fs} {write : SmallWrite}

theorem next_cases (small : (fs.icache ip).dinode.type = T_SFILE) (next : Next ip fs write fs') :
    (¬(fs.icache ip).dinode.size.toNat < write.off.toNat + write.n.toNat ∧
      fs' = fs.setInode ip ((fs.icache ip).setDinode
        ((fs.icache ip).dinode.inlined write.off.toNat write.n.toNat write.src))) ∨
    ((fs.icache ip).dinode.size.toNat < write.off.toNat + write.n.toNat ∧
      ∃ disk', fs.disk.Puts disk' [iupdateWrite fs.disk.sb fs.disk.block (fs.icache ip).inum
          ((fs.icache ip).dinode.written write.src write.off write.n)] ∧ fs' = (fs.setInode ip ((fs.icache ip).setDinode
          ((fs.icache ip).dinode.written write.src write.off write.n))).setDisk disk') := by
  obtain ⟨s0, fits, ran⟩ := next
  have ok : ¬Refused (fs.icache ip).dinode write.off write.n := by
    rw [Refused.not_iff]
    simp only [MAXFILE, NDIRECT, NINDIRECT, BSIZE]
    omega
  have moved := fs.moveIn_inside ip write.src fits
  obtain ⟨_, done⟩ := (writei_small fs ip write.src write.off write.n small).of_state? ran
  simp only [moved, Grows.iff_of_accepted ok] at done
  rcases done with ⟨refused, _⟩ | ⟨_, _, keeps, rfl⟩ | ⟨_, _, grows, disk', puts, rfl⟩
  · exact absurd refused ok
  · exact .inl ⟨keeps, rfl⟩
  · rw [setInode_setInode]
    exact .inr ⟨grows, disk', puts, rfl⟩

theorem blit_eq_iff (addrs : Bytes 52) (off n : Nat) (src : Nat → UInt8) (fits : off + n ≤ 52) :
    addrs.blit off n src = addrs ↔ ∀ k < n, src k = addrs.byte (off + k) := by
  constructor
  · intro eq k lt
    have here : (addrs.blit off n src).byte (off + k) = addrs.byte (off + k) := by rw [eq]
    rwa [Bytes.byte_blit _ _ _ _ (by omega), if_pos (by omega), Nat.add_sub_cancel_left] at here
  · intro repeated
    refine Bytes.ext fun k lt => ?_
    rw [Bytes.byte_blit _ _ _ _ lt]
    split
    · rename_i low
      rw [repeated _ (by omega), Nat.add_sub_cancel' low.1]
    · rfl

section

variable (small : (fs.icache ip).dinode.type = T_SFILE)

include small

theorem saved_of_grows (grows : (fs.icache ip).dinode.size.toNat < write.off.toNat + write.n.toNat)
    (next : Next ip fs write fs') : Saved fs' ip := by
  rcases next_cases small next with ⟨keeps, _⟩ | ⟨_, disk', puts, rfl⟩
  · exact absurd grows keeps
  · rw [Saved, setDisk_icache, setInode_same, setDisk_disk, setDinode_inum, setDinode_dinode]
    exact dinodeAt_iupdate puts

theorem saved_iff (saved : Saved fs ip) (next : Next ip fs write fs') : Saved fs' ip ↔ Lasting ip fs write := by
  by_cases grows : (fs.icache ip).dinode.size.toNat < write.off.toNat + write.n.toNat
  · exact iff_of_true (saved_of_grows small grows next) (.inl grows)
  · rcases next_cases small next with ⟨keeps, rfl⟩ | ⟨longer, _⟩
    · rw [Saved, setInode_same, setInode_disk, setDinode_dinode, setDinode_inum,
        saved, Lasting, ← blit_eq_iff _ _ _ _ next.2.1]
      constructor
      · intro equal
        exact .inr (congrArg Dinode.addrs equal).symm
      · intro lasting
        rw [inlined, lasting.resolve_left keeps]
        rfl
    · exact absurd longer grows

theorem next_dinode (next : Next ip fs write fs') : (fs'.icache ip).dinode.type = T_SFILE ∧
    (fs'.icache ip).dinode.size.toNat = max (fs.icache ip).dinode.size.toNat (write.off.toNat + write.n.toNat) ∧
    (fs'.icache ip).dinode.addrs = (fs.icache ip).dinode.addrs.blit write.off.toNat write.n.toNat write.src := by
  rcases next_cases small next with ⟨keeps, rfl⟩ | ⟨grows, disk', _, rfl⟩
  · rw [setInode_same, setDinode_dinode]
    exact ⟨small, (max_eq_left (Nat.le_of_not_lt keeps)).symm, rfl⟩
  · have longer : Grows (fs.icache ip).dinode write.off write.n := by
      rw [Grows.iff_of_accepted]
      · exact grows
      · rw [Refused.not_iff]
        simp only [MAXFILE, NDIRECT, NINDIRECT, BSIZE]
        exact ⟨next.1, by have fits := next.2.1; omega⟩
    rw [setDisk_icache, setInode_same, setDinode_dinode, written, if_pos longer]
    refine ⟨small, ?_, rfl⟩
    have fits := next.2.1
    rw [setSize_size, BitVec.toNat_add, max_eq_right (by omega)]
    omega

end

end SmallWrite

/-- Drop the last reference, let `iget` recycle an entry, and read the whole file back. -/
def reread (sl : Slot) (dev inum : Nat) : FsM (Option (List UInt8)) := do
  iput sl
  let again ← iget dev inum
  ilock again
  readi again 0 52

def Dinode.inline (dinode : Dinode) : List UInt8 := dinode.addrs.read 0 dinode.size.toNat

/-- The entry `sl` holds the only reference to its inode, is unlocked and has links; unused
entries are unlocked; and the inode block can be read. -/
structure Evictable (fs : Fs) (sl : Slot) : Prop where
  last : (fs.icache sl).ref = 1
  linked : (fs.icache sl).dinode.nlink ≠ 0
  unlocked : (fs.icache sl).locked = 0
  alone : ∀ other, other ≠ sl → ¬(0 < (fs.icache other).ref ∧
    (fs.icache other).dev = (fs.icache sl).dev ∧ (fs.icache other).inum = (fs.icache sl).inum)
  unused : ∀ other, (fs.icache other).ref = 0 → (fs.icache other).locked = 0
  unheld : IBLOCK (fs.icache sl).inum fs.disk.sb ∉ fs.disk.held
  bound : IBLOCK (fs.icache sl).inum fs.disk.sb < fs.disk.fssize

theorem Fs.peek_addrs (fs : Fs) (ip : Slot) {k : Nat} (lt : k < 52) :
    fs.peek (addrsAt ip k) = (fs.icache ip).dinode.addrs.byte k := by
  have s0 : addrsAt ip k = 144 * ip.val + 92 + k := rfl
  have small := ip.isLt
  have quotient : addrsAt ip k / 144 = ip.val := by omega
  have remainder : addrsAt ip k % 144 = 92 + k := by omega
  have here : (⟨addrsAt ip k / 144, quotient.symm ▸ small⟩ : Slot) = ip := Fin.ext quotient
  rw [Fs.peek, dif_pos (quotient.symm ▸ small), here, remainder, Inode.byte]
  iterate 6 rw [if_neg (by omega)]
  rw [Dinode.byte]
  iterate 5 rw [if_neg (by omega)]
  congr 1
  omega

variable {fs : Fs} {ip : Slot}

theorem holds_readi_small {off n : BitVec 32} {post : Option (List UInt8) → Fs → Prop} {stops : Stop → Prop}
    (small : (fs.icache ip).dinode.type = T_SFILE) (short : (fs.icache ip).dinode.size.toNat ≤ 52)
    (refused : (fs.icache ip).dinode.size < off ∨ off + n < off → post none fs)
    (ok : ¬((fs.icache ip).dinode.size < off ∨ off + n < off) →
      post (some (((fs.icache ip).dinode.inline.drop off.toNat).take n.toNat)) fs) :
    Holds (readi ip off n) fs post stops := by
  have notDevice : ¬(fs.icache ip).dinode.type = T_DEV := by
    rw [small]
    decide
  simp only [readi, holds_bind, holds_get]
  rw [if_neg notDevice, holds_ite, holds_pure, if_pos small]
  refine ⟨refused, fun low => ?_⟩
  rw [holds_pure, readi_count low]
  convert ok low using 2
  refine ext_getElem ?_ fun i left right => ?_
  · simp [Dinode.inline, Bytes.read]
  · rw [length_map, length_range] at left
    simp only [Dinode.inline, Bytes.read, getElem_map, getElem_range, getElem_take, getElem_drop, Nat.zero_add]
    exact fs.peek_addrs ip (by omega)

theorem holds_iput_keep {post : Unit → Fs → Prop} {stops : Stop → Prop} (linked : (fs.icache ip).dinode.nlink ≠ 0)
    (next : post () (fs.setInode ip ((fs.icache ip).setRef ((fs.icache ip).ref - 1)))) :
    Holds (iput ip) fs post stops := by
  simp only [iput, holds_bind, holds_inode, holds_onlyIf, holds_modifyInode, linked, and_false,
    false_implies, true_and, not_false_eq_true, true_implies]
  exact next

theorem holds_reread (small : (fs.icache ip).dinode.type = T_SFILE)
    (short : (fs.icache ip).dinode.size.toNat ≤ 52) (saved : Saved fs ip)
    (evictable : Evictable fs ip) : Holds (reread ip (fs.icache ip).dev (fs.icache ip).inum) fs
      (fun bytes _ => bytes = some (fs.icache ip).dinode.inline) fun _ => False := by
  obtain ⟨last, linked, unlocked, alone, unused, unheld, lt⟩ := evictable
  have dropped : ∀ o, ((fs.setInode ip ((fs.icache ip).setRef ((fs.icache ip).ref - 1))).icache
      o).locked = (fs.icache o).locked := by
    intro o
    by_cases eq : o = ip
    · rw [eq, setInode_same, setRef_locked]
    · rw [setInode_ne _ _ _ eq]
  rw [reread, holds_bind]
  refine holds_iput_keep linked ?_
  rw [holds_bind]
  refine holds_iget (fun ran => ?_) (fun o held device num => ?_) fun _ o free => ?_
  · exact absurd (by simp [last]) (ran ip)
  · by_cases eq : o = ip
    · rw [eq, setInode_same, setRef_ref, last] at held
      omega
    · rw [setInode_ne _ _ _ eq] at held device num
      exact absurd ⟨held, device, num⟩ (alone o eq)
  · have open_ : (fs.icache o).locked = 0 := by
      by_cases eq : o = ip
      · rw [eq, unlocked]
      · rw [setInode_ne _ _ _ eq] at free
        exact unused o free
    rw [holds_bind]
    refine holds_ilock ?_ ?_ ?_ ?_ ?_ ?_
    all_goals simp only [setInode_same, recycle_ref, recycle_locked, recycle_inum, setInode_disk, dropped, open_]
    · omega
    · exact unheld
    · exact lt
    · exact fun locked => locked rfl
    · simp [valid]
    · rw [saved, small]
      refine fun _ => ⟨by decide, fun _ => holds_readi_small ?_ ?_ (fun past => absurd past (by simp)) fun _ => ?_⟩
      all_goals simp only [setInode_same, loaded, setFlags_dinode, setDinode_dinode]
      · exact small
      · exact short
      · rw [take_of_length_le (by simpa [Dinode.inline, Bytes.read] using short)]
        rfl

/-- A write inside the inline data leaves the inode block holding the inode exactly when it makes the
file longer or repeats the bytes that are there; in every run of such writes the bytes read back are
those in memory. -/
theorem small_data_persistent (sl : Slot) (start : Fs) (small : (start.icache sl).dinode.type = T_SFILE)
    (short : (start.icache sl).dinode.size.toNat ≤ 52) (saved : Saved start sl) :
    ∀ fs, Reachable (SmallWrite.Next sl) (SmallWrite.Lasting sl) start fs → Saved fs sl ∧
      (Evictable fs sl → Holds (reread sl (fs.icache sl).dev (fs.icache sl).inum) fs
        (fun bytes _ => bytes = some (fs.icache sl).dinode.inline) fun _ => False) ∧
      ∀ write fs', SmallWrite.Next sl fs write fs' → (fs'.icache sl).dinode.addrs =
          (fs.icache sl).dinode.addrs.blit write.off.toNat write.n.toNat write.src ∧
        (Saved fs' sl ↔ SmallWrite.Lasting sl fs write) := by
  intro fs reached
  have now : (fs.icache sl).dinode.type = T_SFILE ∧ (fs.icache sl).dinode.size.toNat ≤ 52 ∧ Saved fs sl := by
    refine reached.invariant (fun fs => (fs.icache sl).dinode.type = T_SFILE ∧
      (fs.icache sl).dinode.size.toNat ≤ 52 ∧ Saved fs sl) ⟨small, short, saved⟩ ?_
    rintro fs write fs' ⟨small, short, saved⟩ lasting next
    obtain ⟨small', size, _⟩ := SmallWrite.next_dinode small next
    have fits := next.2.1
    exact ⟨small', by omega, (SmallWrite.saved_iff small saved next).mpr lasting⟩
  obtain ⟨small, short, saved⟩ := now
  exact ⟨saved, holds_reread small short saved, fun write fs' next =>
    ⟨(SmallWrite.next_dinode small next).2.2, SmallWrite.saved_iff small saved next⟩⟩

def savedFs : Fs :=
  let ip := (smallFs.icache 0).setDinode ((Dinode.fresh T_SFILE).setNlink 1)
  (smallFs.setInode 0 ip).setDisk (smallFs.disk.setBlock (IBLOCK ip.inum smallFs.disk.sb)
    (ip.dinode.save (ip.inum % IPB) Bytes.zero))

theorem savedFs_saved : Saved savedFs 0 := by
  rw [Saved, dinodeAt, savedFs, setDisk_disk, setDisk_icache, setInode_same,
    Disk.setBlock_sb, Disk.setBlock_block, Function.update_self, load_save_same _ (Nat.mod_lt _ (by decide))]

theorem small_data_persistent_append : ∃ fs' : Fs, writei 0 (fun _ => 7) 0 1 savedFs = .ok 1 fs' ∧ Saved fs' 0 := by
  have chk : (writei 0 (fun _ => 7) 0 1 savedFs).check (fun r _ => r == 1) = true := by
    decide +kernel
  obtain ⟨r, fs', ran, value⟩ := Outcome.of_check chk
  have same : r = 1 := by simpa using value
  subst same
  have next : SmallWrite.Next 0 savedFs ⟨fun _ => 7, 0, 1⟩ fs' :=
    ⟨by decide, by decide, by rw [ran]; rfl⟩
  have longer : SmallWrite.Lasting 0 savedFs ⟨fun _ => 7, 0, 1⟩ := Or.inl (by decide)
  have reached := Reachable.start.step _ longer next
  exact ⟨fs', ran, (small_data_persistent 0 savedFs rfl (by decide) savedFs_saved fs' reached).1⟩

/-- The byte appended, then overwritten, then read back from the disk. -/
theorem small_overwrite_lost : Saved savedFs 0 ∧ (savedFs.icache 0).dinode.type = T_SFILE ∧
    ∃ fs1, writei 0 (fun _ => 7) 0 1 savedFs = .ok 1 fs1 ∧ ∃ fs2, writei 0 (fun _ => 8) 0 1 fs1 = .ok 1 fs2 ∧
      (fs2.icache 0).dinode.inline = [8] ∧ (dinodeAt fs2.disk.sb fs2.disk.block (fs2.icache 0).inum).inline = [7] ∧
      ∃ fs3, reread 0 ROOTDEV 2 fs2 = .ok (some [7]) fs3 := by
  refine ⟨savedFs_saved, rfl, ?_⟩
  have chk : (writei 0 (fun _ => 7) 0 1 savedFs).check (fun r fs1 => r == 1 &&
      (writei 0 (fun _ => 8) 0 1 fs1).check fun r fs2 => r == 1 && (fs2.icache 0).dinode.inline == [8] &&
        (dinodeAt fs2.disk.sb fs2.disk.block (fs2.icache 0).inum).inline == [7] &&
        (reread 0 ROOTDEV 2 fs2).check fun bytes _ => bytes == some [7]) = true := by
    decide +kernel
  obtain ⟨_, fs1, append, chk⟩ := Outcome.of_check chk
  simp only [Bool.and_eq_true, beq_iff_eq] at chk
  obtain ⟨rfl, chk⟩ := chk
  obtain ⟨_, fs2, overwrite, chk⟩ := Outcome.of_check chk
  simp only [Bool.and_eq_true, beq_iff_eq] at chk
  obtain ⟨⟨⟨rfl, memory⟩, stored⟩, chk⟩ := chk
  obtain ⟨_, fs3, back, bytes⟩ := Outcome.of_check chk
  rw [beq_iff_eq] at bytes
  subst bytes
  exact ⟨fs1, append, fs2, overwrite, memory, stored, fs3, back⟩

end Xv6
