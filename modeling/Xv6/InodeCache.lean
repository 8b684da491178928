import Xv6.Mkfs

/-! The inode cache over whole runs: one entry for each inode, entries that keep their identity
while referenced, and copies that equal the logged inode blocks between calls. -/

namespace Xv6

open Exec Reach

/-- A step some process takes with the cache. `create`, `link` and `unlink` are the calls' parts
between `begin_op` and `end_op`. -/
inductive CacheOp where
  | beginOp
  | endOp
  | iget (dev inum : Nat)
  | idup (slot : Slot)
  | ilock (slot : Slot)
  | iunlock (slot : Slot)
  | iput (slot : Slot)
  | writei (slot : Slot) (src : Nat → UInt8) (off n : BitVec 32)
  | create (cwd : Slot) (path : List UInt8) (type major minor : BitVec 16)
  | link (cwd : Slot) (old new : List UInt8)
  | unlink (cwd : Slot) (path : List UInt8)

def CacheOp.run (fs : Fs) : CacheOp → Option Fs
  | .beginOp => (onDisk Xv6.beginOp fs).state?
  | .endOp => (onDisk Xv6.endOp fs).state?
  | .iget dev inum => (Xv6.iget dev inum fs).state?
  | .idup slot => (Xv6.idup slot fs).state?
  | .ilock slot => (Xv6.ilock slot fs).state?
  | .iunlock slot => (Xv6.iunlock slot fs).state?
  | .iput slot => (Xv6.iput slot fs).state?
  | .writei slot src off n => (Xv6.writei slot src off n fs).state?
  | .create cwd path type major minor => (Xv6.create cwd path type major minor fs).state?
  | .link cwd old new => (Xv6.link cwd old new fs).state?
  | .unlink cwd path => (Xv6.unlink cwd path fs).state?

def CacheOp.Next (fs : Fs) (op : CacheOp) (fs' : Fs) : Prop := op.run fs = some fs'

/-- How processes use the cache: through references they hold, inside transactions, writing only
to inodes that they have locked. -/
def CacheOp.Disciplined (fs : Fs) : CacheOp → Prop
  | .beginOp => True
  | .endOp => 0 < fs.disk.log.outstanding
  | .iget dev inum => dev = ROOTDEV ∧ fs.disk.sb.inTable inum
  | .idup slot => 0 < (fs.icache slot).ref
  | .ilock slot => 0 < (fs.icache slot).ref
  | .iunlock slot => 0 < (fs.icache slot).ref
  | .iput slot => 0 < (fs.icache slot).ref ∧ 0 < fs.disk.log.outstanding
  | .writei slot _ _ _ => (0 < (fs.icache slot).ref ∧ (fs.icache slot).locked ≠ 0 ∧
      (fs.icache slot).valid = true) ∧ 0 < fs.disk.log.outstanding
  | .create cwd _ type _ _ => (0 < (fs.icache cwd).ref ∧ 0 < fs.disk.log.outstanding) ∧
      (BlockType type ∨ PlainType type)
  | .link cwd _ _ => 0 < (fs.icache cwd).ref ∧ 0 < fs.disk.log.outstanding
  | .unlink cwd _ => 0 < (fs.icache cwd).ref ∧ 0 < fs.disk.log.outstanding

/-- The writes that stay inside the file system: none to a small file, and none that makes a
directory entry name an inode that does not exist. -/
def CacheOp.Contained (fs : Fs) : CacheOp → Prop
  | .writei slot src off n => (fs.icache slot).dinode.type ≠ T_SFILE ∧
      let node := (fs.nodeAt slot).write src off.toNat n.toNat
      (IsDir node.type → ∀ k < node.size.toNat / deSize, ∀ entry ∈ node.slot k, entry.2 < fs.disk.sb.ninodes)
  | _ => True

instance (fs : Fs) : (op : CacheOp) → Decidable (op.Disciplined fs)
  | .beginOp => inferInstanceAs (Decidable True)
  | .endOp => inferInstanceAs (Decidable (_ < _))
  | .iget _ _ => inferInstanceAs (Decidable (_ ∧ _))
  | .idup _ => inferInstanceAs (Decidable (_ < _))
  | .ilock _ => inferInstanceAs (Decidable (_ < _))
  | .iunlock _ => inferInstanceAs (Decidable (_ < _))
  | .iput _ => inferInstanceAs (Decidable (_ ∧ _))
  | .writei _ _ _ _ => inferInstanceAs (Decidable (_ ∧ _))
  | .create _ _ _ _ _ => inferInstanceAs (Decidable (_ ∧ _))
  | .link _ _ _ => inferInstanceAs (Decidable (_ ∧ _))
  | .unlink _ _ => inferInstanceAs (Decidable (_ ∧ _))

instance (fs : Fs) : (op : CacheOp) → Decidable (op.Contained fs)
  | .writei _ _ _ _ => inferInstanceAs (Decidable (_ ∧ (IsDir _ → ∀ k < _, ∀ entry ∈ _, _ < _)))
  | .beginOp | .endOp | .iget _ _ | .idup _ | .ilock _ | .iunlock _ | .iput _
  | .create _ _ _ _ _ | .link _ _ _ | .unlink _ _ => inferInstanceAs (Decidable True)

structure Cached (fs : Fs) : Prop where
  sound : Sound ⟨False, True⟩ fs
  idle : 0 ≤ fs.disk.log.outstanding

structure CacheStep (fs fs' : Fs) : Prop where
  cached : Cached fs'
  identity : ∀ slot, 0 < (fs.icache slot).ref → (fs'.icache slot).inum = (fs.icache slot).inum

section

variable {fs fs' : Fs} {ip : Slot}

theorem CacheStep.of_stays (sound : Sound ⟨False, True⟩ fs') (stays : Stays fs.refs fs fs')
    (idle : 0 ≤ fs.disk.log.outstanding) : CacheStep fs fs' :=
  ⟨⟨sound, stays.outstanding ▸ idle⟩, stays.inum⟩

theorem CacheStep.of_touched (touched : Touched fs fs' ip) (sound : Sound ⟨False, True⟩ fs')
    (idle : 0 ≤ fs.disk.log.outstanding) : CacheStep fs fs' :=
  .of_stays sound (touched.fades fs.refs).toStays idle

theorem CacheStep.of_put (put : Put fs fs' ip) (sound : Sound ⟨False, True⟩ fs')
    (idle : 0 ≤ fs.disk.log.outstanding) : CacheStep fs fs' := by
  refine ⟨⟨sound, put.fades.outstanding ▸ idle⟩, fun o _ => ?_⟩
  by_cases eq : o = ip
  · rw [eq, put.inum]
  · rw [put.other o eq]

section

variable (cached : Cached fs)

include cached

theorem Cached.holds_writei {src : Nat → UInt8} {off n : BitVec 32}
    (disc : (CacheOp.writei ip src off n).Disciplined fs) (contained : (CacheOp.writei ip src off n).Contained fs) :
    Holds (writei ip src off n) fs fun _ => CacheStep fs := by
  obtain ⟨⟨held, _, valid⟩, op⟩ := disc
  obtain ⟨large, named⟩ := contained
  have act : Active ⟨False, True⟩ fs := ⟨cached.sound, op⟩
  obtain ⟨type, _⟩ := act.image_slot held valid
  by_cases block : BlockType (fs.nodeAt ip).type
  · have bounded : IsDir (fs.nodeAt ip).type → ∀ k name i,
        ((fs.nodeAt ip).write src off.toNat n.toNat).slot k = some (name, i) → i < fs.disk.sb.ninodes := by
      intro dir k name i here
      have fits := Node.lt_of_slot here
      refine named dir k ?_ _ here
      rw [Nat.lt_div_iff_mul_lt (by decide)]
      simp only [deSize] at *
      omega
    refine act.holds_writei held valid block bounded trivial trivial
      (fun _ => .of_stays cached.sound (.refl _ _) cached.idle) fun _ fs' act' recasts _ => ?_
    exact .of_stays act'.toSound (recasts.entries.stays _) cached.idle
  · have device := act.device_of_plain held valid block (type ▸ large)
    exact holds_writei_device device fun _ => .of_stays cached.sound (.refl _ _) cached.idle

theorem Cached.holds_create {cwd : Slot} {path : List UInt8} {type major minor : BitVec 16}
    (disc : (CacheOp.create cwd path type major minor).Disciplined fs) :
    Holds (create cwd path type major minor) fs fun _ => CacheStep fs := by
  obtain ⟨⟨held, op⟩, known⟩ := disc
  refine Active.holds_create ⟨cached.sound, op⟩ held known (fun _ _ _ => trivial) trivial
    (fun fs' act fades _ => .of_stays act.toSound fades.toStays cached.idle)
    (fun ip fs' walk _ _ => .of_stays walk.active.toSound walk.fades.toStays cached.idle)
    fun ip fs' d name k _ changes act _ _ _ _ => ?_
  exact .of_stays act.toSound changes.toStays cached.idle

theorem Cached.holds_link {cwd : Slot} {old new : List UInt8}
    (disc : (CacheOp.link cwd old new).Disciplined fs) : Holds (link cwd old new) fs fun _ => CacheStep fs := by
  obtain ⟨held, op⟩ := disc
  refine Active.holds_link ⟨cached.sound, op⟩ held (fun _ _ _ => trivial) trivial
    (fun _ ty _ => cached.sound.bare ty (.inr trivial))
    (fun fs' act fades _ => .of_stays act.toSound fades.toStays cached.idle)
    fun fs' i last d name k _ _ changes act _ => ?_
  exact .of_stays act.toSound changes.toStays cached.idle

theorem Cached.holds_unlink {cwd : Slot} {path : List UInt8} (disc : (CacheOp.unlink cwd path).Disciplined fs) :
    Holds (unlink cwd path) fs fun _ => CacheStep fs := by
  obtain ⟨held, op⟩ := disc
  refine Active.holds_unlink ⟨cached.sound, op⟩ held (fun _ _ _ => trivial) trivial
    (cached.sound.lastBare trivial) (fun _ _ _ _ _ _ _ _ _ _ _ _ _ => trivial)
    (fun fs' act fades _ => .of_stays act.toSound fades.toStays cached.idle) fun fs' d name k i _ changes act _ => ?_
  exact .of_stays act.toSound changes.toStays cached.idle

theorem Cached.step {op : CacheOp} (disc : op.Disciplined fs) (contained : op.Contained fs)
    (next : op.Next fs fs') : CacheStep fs fs' := by
  obtain ⟨sound, idle⟩ := cached
  cases op with
  | beginOp =>
    have spec : Holds (onDisk beginOp) fs fun _ => CacheStep fs := by
      refine sound.holds_beginOp trivial fun disk alike opened sound' => ⟨⟨sound', ?_⟩, fun _ _ => rfl⟩
      rw [Fs.setDisk_disk, opened]
      omega
    exact spec.final next
  | endOp =>
    have spec : Holds (onDisk endOp) fs fun _ => CacheStep fs := by
      refine sound.holds_endOp trivial fun disk alike closed sound' => ⟨⟨sound', ?_⟩, fun _ _ => rfl⟩
      rw [Fs.setDisk_disk, closed]
      exact Int.sub_nonneg_of_le disc
    exact spec.final next
  | iget dev inum =>
    obtain ⟨rfl, lt⟩ := disc
    have spec : Holds (iget ROOTDEV inum) fs fun _ => CacheStep fs :=
      holds_iget_got (fun _ => trivial) fun ip fs' got =>
        .of_stays (got.sound sound lt) got.fades.toStays idle
    exact spec.final next
  | idup ip =>
    have spec : Holds (idup ip) fs fun _ => CacheStep fs :=
      sound.holds_idup disc fun fs' got sound' => .of_stays sound' got.fades.toStays idle
    exact spec.final next
  | ilock ip =>
    have spec : Holds (ilock ip) fs fun _ => CacheStep fs :=
      sound.holds_ilock disc (fun _ => trivial) (fun _ => trivial) fun fs' took sound' =>
        .of_touched took.toTouched sound' idle
    exact spec.final next
  | iunlock ip =>
    have spec : Holds (iunlock ip) fs fun _ => CacheStep fs :=
      sound.holds_iunlock trivial fun fs' touched _ sound' => .of_touched touched sound' idle
    exact spec.final next
  | iput ip =>
    have spec : Holds (iput ip) fs fun _ => CacheStep fs :=
      Active.holds_iput ⟨sound, disc.2⟩ disc.1 trivial fun fs' put act =>
        .of_put put act.toSound idle
    exact spec.final next
  | writei ip src off n => exact (Cached.holds_writei ⟨sound, idle⟩ disc contained).final next
  | create cwd path type major minor =>
    exact (Cached.holds_create ⟨sound, idle⟩ disc).final next
  | link cwd old new => exact (Cached.holds_link ⟨sound, idle⟩ disc).final next
  | unlink cwd path => exact (Cached.holds_unlink ⟨sound, idle⟩ disc).final next

end

end

/-- In every run whose writes stay inside the file system: one entry for each inode, no change of
identity while referenced, and each entry read in equal to its inode on the logged disk. -/
theorem inode_cache_unique_and_written_through (start : Fs) (sound : Sound ⟨False, True⟩ start)
    (idle : 0 ≤ start.disk.log.outstanding) (fs : Fs)
    (run : Reachable CacheOp.Next (fun fs op => op.Disciplined fs ∧ op.Contained fs) start fs) :
    (∀ slot other, 0 < (fs.icache slot).ref → 0 < (fs.icache other).ref →
      (fs.icache slot).dev = (fs.icache other).dev → (fs.icache slot).inum = (fs.icache other).inum →
      slot = other) ∧ (∀ slot, 0 < (fs.icache slot).ref → (fs.icache slot).valid = true →
      (fs.icache slot).dinode = dinodeAt fs.disk.sb fs.disk.block (fs.icache slot).inum) ∧
    ∀ (op : CacheOp) (fs' : Fs), op.Disciplined fs → op.Contained fs → op.Next fs fs' →
      ∀ slot, 0 < (fs.icache slot).ref → 0 < (fs'.icache slot).ref →
        (fs'.icache slot).dev = (fs.icache slot).dev ∧ (fs'.icache slot).inum = (fs.icache slot).inum := by
  have cached : Cached fs := run.invariant Cached ⟨sound, idle⟩
    fun _ _ _ cached ⟨disc, contained⟩ next => (cached.step disc contained next).cached
  have coherent := cached.sound.toCoherent
  refine ⟨fun slot other live otherLive _ same => coherent.unique slot other live otherLive same,
    fun slot live valid => ?_, fun op fs' disc contained next slot live after => ?_⟩
  · rw [(coherent.loaded slot live valid).1, table_of_lt (coherent.number live valid)]
  · have step := cached.step disc contained next
    refine ⟨?_, step.identity slot live⟩
    rw [coherent.device slot live, step.cached.sound.device slot after]

theorem inode_cache_written_file : ∃ fs : Fs,
    Reachable CacheOp.Next (fun fs op => op.Disciplined fs ∧ op.Contained fs) mkfsFs fs ∧
    (fs.icache 1).dinode.size = 600 ∧ (fs.icache 1).dinode = dinodeAt fs.disk.sb fs.disk.block (fs.icache 1).inum := by
  have checked : (replay (fun fs (op : CacheOp) => op.run fs) (fun fs op => op.Disciplined fs ∧ op.Contained fs)
      [.beginOp, .create 0 [97] T_FILE 0 0, .writei 1 (fun _ => 7) 0 600, .iunlock 1, .endOp] mkfsFs).any
      (fun fs => 0 < (fs.icache 1).ref && (fs.icache 1).valid && (fs.icache 1).dinode.size == 600) = true := by
    decide +kernel
  obtain ⟨fs, run, v⟩ := Reachable.of_replay (fun _ _ _ _ ran => ran) checked
  simp only [Bool.and_eq_true, beq_iff_eq, decide_eq_true_eq] at v
  exact ⟨fs, run, v.2, (inode_cache_unique_and_written_through mkfsFs
    (mkfs_sound ⟨False, True⟩) (by decide) fs run).2.1 1 v.1.1 v.1.2⟩

/-- With a small file in entry 1 and inode 5 in entry 2, the bytes past the 52 of the small file's
`addrs` replace the device and the number of entry 2 while it is referenced. -/
theorem inode_cache_overwritten : ∃ fs fs' : Fs, Reachable CacheOp.Next (fun fs op => op.Disciplined fs) mkfsFs fs ∧
    (CacheOp.writei 1 (fun _ => 7) 0 60).Disciplined fs ∧ (CacheOp.writei 1 (fun _ => 7) 0 60).Next fs fs' ∧
    0 < (fs.icache 2).ref ∧ 0 < (fs'.icache 2).ref ∧ (fs.icache 2).inum = 5 ∧ (fs'.icache 2).inum = 0x07070707 := by
  have checked : (replay (fun fs (op : CacheOp) => op.run fs) (fun fs op => op.Disciplined fs)
      [.beginOp, .create 0 [115] T_SFILE 0 0, .iget ROOTDEV 5] mkfsFs).any
      (fun fs => (CacheOp.writei 1 (fun _ => 7) 0 60).Disciplined fs && 0 < (fs.icache 2).ref &&
        (fs.icache 2).inum == 5 && ((CacheOp.writei 1 (fun _ => 7) 0 60).run fs).any fun fs' =>
          0 < (fs'.icache 2).ref && (fs'.icache 2).inum == 0x07070707) = true := by
    decide +kernel
  obtain ⟨fs, run, v⟩ := Reachable.of_replay (fun _ _ _ _ ran => ran) checked
  simp only [Bool.and_eq_true, beq_iff_eq, decide_eq_true_eq] at v
  obtain ⟨⟨⟨disc, before⟩, number⟩, written⟩ := v
  obtain ⟨fs', ran, after⟩ := (Option.any_eq_true _ _).mp written
  simp only [Bool.and_eq_true, beq_iff_eq, decide_eq_true_eq] at after
  exact ⟨fs, fs', run, disc, ran, before, after.1, number, after.2⟩

end Xv6
