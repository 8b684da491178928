import Xv6.Ownership

/-! The block allocator: `balloc` takes the first free block, and `bfree` gives it back. -/

namespace Xv6

open Exec Writes Function

/-- Where the blocks before the data area are marked, `balloc` takes the first block that is not and
clears it, or panics if there is none; `bfree` clears the bit of its block, and so undoes the
change of the bitmap. Both stop where the log has no room for what they write. -/
theorem block_allocator (disk : Disk) (lay : Layout disk.sb disk.fssize) (unlocked : disk.held = [])
    (opened : 0 < disk.log.outstanding) (super : Superblock.ofBlock (disk.block 1) = disk.sb)
    (marked : ∀ b < disk.sb.dataStart, Used disk.sb disk.block b) :
    Holds balloc disk (fun b disk' => (∀ c < b, Used disk.sb disk.block c) ∧ Allotted disk.sb disk.block disk'.block b ∧
        Holds (bfree b) disk' (fun _ disk'' => ∀ c ≠ b, disk''.block c = disk.block c)
          fun stop => disk'.log.room = 0 ∧ stop = tooBig)
      (fun stop => ((∃ b < disk.sb.size, ¬Used disk.sb disk.block b) ∧ disk.log.room < 2 ∧ stop = tooBig) ∨
        (∀ b < disk.sb.size, Used disk.sb disk.block b) ∧ stop = outOfBlocks) ∧
    ∀ b < disk.sb.size, Used disk.sb disk.block b → Holds (bfree b) disk (fun _ disk' =>
      (∀ c < disk.sb.size, Used disk.sb disk'.block c ↔ Used disk.sb disk.block c ∧ c ≠ b) ∧
        ∀ c ≠ BBLOCK b disk.sb, disk'.block c = disk.block c) fun stop => disk.log.room = 0 ∧ stop = tooBig := by
  have limits := lay.bounds
  have device : ∀ {b}, b < disk.sb.size → BBLOCK b disk.sb < disk.fssize := fun bound => by
    have := lay.BBLOCK_lt bound
    omega
  refine ⟨holds_balloc lay (by simp [unlocked]) (by simp [unlocked]) opened (fun free room => Or.inl ⟨free, room, rfl⟩)
    (fun none => Or.inr ⟨none, rfl⟩) fun b disk' bound free first puts => ?_, fun b bound used => ?_⟩
  · have allotted := allotted_of_balloc lay marked bound free
    rw [← puts.block] at allotted
    refine ⟨first, allotted, ?_⟩
    have start := allotted.area.1
    have here := lay.BBLOCK_lt bound
    have there := lay.le_BBLOCK bound
    refine holds_bfree ?_ (by simp [puts.held, unlocked]) (by rw [puts.fssize]; omega)
      (by simp [puts.held, unlocked]) (by rw [puts.sb, puts.fssize]; exact device bound)
      (by rw [puts.sb]; exact (allotted.used b bound).mpr (Or.inr rfl))
      (by rw [puts.outstanding]; exact opened) (⟨·, rfl⟩) fun disk'' freed c ne => ?_
    · rw [allotted.low 1 (by omega), super, puts.sb]
    · rw [freed.block, puts.block, puts.sb, ballocWrites]
      simp only [applyAll_cons, applyAll_nil]
      rw [update_of_ne (show BBLOCK b disk.sb ≠ b by omega), update_self,
        Bytes.clearBit_setBit _ (Bool.eq_false_iff.mpr free)]
      by_cases same : c = BBLOCK b disk.sb
      · rw [same, update_self]
      · rw [update_of_ne same, update_of_ne ne, update_of_ne same]
  · refine holds_bfree super (by simp [unlocked]) (by omega) (by simp [unlocked]) (device bound) used opened (⟨·, rfl⟩)
      fun disk' puts => ?_
    rw [puts.block, applyAll_cons, applyAll_nil]
    exact ⟨fun c inside => used_clearBit lay bound inside, fun c ne => update_of_ne ne _ _⟩

theorem block_allocator_first : ∃ b disk', balloc (Disk.blankWith markedBitmap).inOp = .ok b disk' ∧
    Allotted mkfsSb (Disk.blankWith markedBitmap).block disk'.block b := by
  have bits : ∀ b < mkfsSb.dataStart, ((Disk.blankWith markedBitmap).block (BBLOCK b mkfsSb)).bit (b % BPB) = true := by
    decide +kernel
  have first := (block_allocator (Disk.blankWith markedBitmap).inOp mkfs_layout rfl (by decide) rfl bits).1
  refine (first.mono (fun _ _ done => done.2.1) ?_).returns
  rintro stop (⟨_, short, _⟩ | ⟨all, _⟩)
  · exact absurd short (by decide)
  · have free : ((Disk.blankWith markedBitmap).block (BBLOCK 999 mkfsSb)).bit (999 % BPB) = false := by
      decide +kernel
    exact absurd (all 999 (by decide)) (by rw [Used]; exact Bool.eq_false_iff.mp free)

/-- The bitmap marks all blocks before the data area but its own: `balloc` takes that block, and with
it every bit is cleared. -/
theorem balloc_clears_bitmap : let disk := (Disk.blankWith (markedBitmap.clearBit mkfsSb.bmapstart)).inOp
    Layout disk.sb disk.fssize ∧ disk.held = [] ∧ 0 < disk.log.outstanding ∧
      Used disk.sb disk.block 0 ∧ ∃ disk', balloc disk = .ok disk.sb.bmapstart disk' ∧ ¬Used disk.sb disk'.block 0 := by
  have checked : (balloc (Disk.blankWith (markedBitmap.clearBit mkfsSb.bmapstart)).inOp).check
      (fun b disk' => b = mkfsSb.bmapstart ∧ ¬(disk'.block (BBLOCK 0 mkfsSb)).bit 0 = true) = true := by
    decide +kernel
  obtain ⟨b, disk', ran, found⟩ := Outcome.of_check checked
  obtain ⟨rfl, cleared⟩ := of_decide_eq_true found
  have marked : ((Disk.blankWith (markedBitmap.clearBit mkfsSb.bmapstart)).block (BBLOCK 0 mkfsSb)).bit 0 = true := by
    decide +kernel
  exact ⟨mkfs_layout, rfl, by decide, marked, disk', ran, cleared⟩

end Xv6
