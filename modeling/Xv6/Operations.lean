import Xv6.Ownership
import Xv6.Files

/-! The brackets of an operation in a coherent state: a transaction is opened or closed, an inode
locked. -/

namespace Xv6

open Exec Fs

structure Resting (fs : Fs) : Prop extends Coherent fs where
  idle : 0 ≤ fs.disk.log.outstanding

section

variable {fs : Fs} {disk : Disk}

theorem WellFormed.alike (well : WellFormed fs) (alike : fs.disk.Alike disk) : WellFormed (fs.setDisk disk) := by
  obtain ⟨owns, has⟩ := well
  constructor
  · simpa only [pointers, setDisk_disk, alike.block, alike.sb] using owns
  · simpa only [pointers, setDisk_disk, alike.block, alike.sb] using has

theorem Coherent.alike (coherent : Coherent fs) (alike : fs.disk.Alike disk) : Coherent (fs.setDisk disk) := by
  obtain ⟨layout, super, marked, unheld, device, unique, loaded⟩ := coherent
  refine ⟨?_, ?_, ?_, alike.held.trans unheld, device, unique, ?_⟩
  · simpa only [setDisk_disk, alike.sb, alike.fssize] using layout
  · simpa only [setDisk_disk, alike.sb, alike.block] using super
  · simpa only [setDisk_disk, alike.sb, alike.block] using marked
  · simpa only [setDisk_disk, setDisk_icache, alike.sb, alike.block] using loaded

end

structure Inode.Locked (ip ip' : Inode) (dinode : Dinode) : Prop where
  ref : ip'.ref = ip.ref
  dev : ip'.dev = ip.dev
  inum : ip'.inum = ip.inum
  locked : ip'.locked = 1
  valid : ip'.valid = true
  dinode : ip'.dinode = dinode

section

variable {fs : Fs} {sl : Slot} {stops : Stop → Prop}

theorem holds_ilock_coherent {post : Unit → Fs → Prop} (coherent : Coherent fs)
    (num : (fs.icache sl).inum < fs.disk.sb.ninodes) (held : 0 < (fs.icache sl).ref)
    (blocked : (fs.icache sl).locked ≠ 0 → stops .blocked)
    (untyped : (table fs.disk.sb fs.disk.block (fs.icache sl).inum).type = 0 → stops noType)
    (next : ∀ ip, (fs.icache sl).locked = 0 → (table fs.disk.sb fs.disk.block (fs.icache sl).inum).type ≠ 0 →
      (fs.icache sl).Locked ip (table fs.disk.sb fs.disk.block (fs.icache sl).inum) →
      Coherent (fs.setInode sl ip) → post () (fs.setInode sl ip)) : Holds (ilock sl) fs post stops := by
  have limits := coherent.layout.bounds
  have low := coherent.layout.IBLOCK_lt num
  have run : Holds (ilock sl) fs (fun _ fs' => (fs.icache sl).locked = 0 → post () fs') stops := by
    refine holds_ilock held (by simp [coherent.unheld]) (by omega) blocked
      (fun valid unlocked => ?_) fun _ => ⟨fun free => untyped ?_, fun ty unlocked => ?_⟩
    · obtain ⟨eq, ty⟩ := coherent.loaded sl held valid
      refine next _ unlocked (eq ▸ ty) ⟨rfl, rfl, rfl, rfl, valid, eq⟩ ?_
      exact coherent.reenter held rfl rfl fun _ => ⟨eq, ty⟩
    · rw [table_of_lt num, free]
    · rw [← table_of_lt num] at ty ⊢
      refine next _ unlocked ty ⟨rfl, rfl, rfl, rfl, Inode.loaded_valid _ _, rfl⟩ ?_
      exact coherent.reenter held rfl rfl fun _ => ⟨rfl, ty⟩
  exact (run.and (ilock_spec fs sl)).mono (fun _ _ both => both.1 both.2.2.1) fun _ both => both.1

end

end Xv6
