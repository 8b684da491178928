import Xv6.Discipline
import Xv6.RefCounts
import Xv6.SmallFile

/-! What a write to a small file does to the lock words of the inode cache: `writei` copies to `addrs` without
looking at its 52 bytes, and what goes past them lands in the entries that follow. -/

namespace Xv6

open Exec Kernel Fs Disk Inode Bytes

/-- The lock word of entry `o` after `n` bytes of `src` went to `addrs` of entry `sl` from `off` on. -/
def relock (sl : Slot) (off n : Nat) (src : Nat → UInt8) (o : Slot) (word : Nat) : Nat :=
  let start := addrsAt sl off
  if o ≠ sl ∧ 0 < n ∧ start < 144 * o.val + 144 ∧ 144 * o.val < start + n then
    wordOf fun lane =>
      let address := 144 * o.val + (12 + lane)
      if start ≤ address ∧ address < start + n then src (address - start) else wordByte word lane
  else word

/-- How many of `n` bytes `filewrite` has written when it returns: a section that would end past the largest
file is refused and ends the loop. -/
def landed (off n : Nat) : Nat :=
  if off + n ≤ MAXFILE * BSIZE then n else (MAXFILE * BSIZE - off) / filewriteMax * filewriteMax

theorem landed_refused {off n : Nat} (large : MAXFILE * BSIZE < off + min n filewriteMax) : landed off n = 0 := by
  have limit : filewriteMax = 6656 := rfl
  have most : MAXFILE * BSIZE = 71680 := rfl
  rw [limit, most] at large
  rw [landed, limit, most, if_neg (by omega)]
  omega

theorem landed_zero (off : Nat) : landed off 0 = 0 := by
  rw [landed]
  split
  · rfl
  · rename_i large
    rw [Nat.sub_eq_zero_of_le (by omega), Nat.zero_div, Nat.zero_mul]

theorem landed_chunk {off n : Nat} (low : off + min n filewriteMax ≤ MAXFILE * BSIZE) : landed off n =
    min n filewriteMax + landed (off + min n filewriteMax) (n - min n filewriteMax) := by
  have limit : filewriteMax = 6656 := rfl
  have most : MAXFILE * BSIZE = 71680 := rfl
  rw [limit, most] at low
  rw [landed, landed, limit, most]
  split <;> split <;> omega

section

variable {fs : Fs} {sl o : Slot} {off m n word : Nat} {src : Nat → UInt8}

theorem relock_same : relock sl off n src sl word = word := if_neg fun both => both.1 rfl

theorem relock_zero : relock sl off 0 src o word = word := if_neg fun both => absurd both.2.1 (by decide)

theorem relock_inside (low : off + n ≤ 52) : relock sl off n src o word = word := by
  rw [relock, addrsAt]
  refine if_neg ?_
  rintro ⟨other, _, reaches, past⟩
  exact other (Fin.ext (by omega))

theorem Fs.moveIn_locks (some_ : 0 < n) : (fs.moveIn sl off n src).locks o = relock sl off n src o (fs.locks o) := by
  simp only [Fs.locks, moveIn, relock, some_, true_and]
  by_cases own : o = sl
  · simp [own]
  · rw [if_neg own, apply_ite Inode.locked]
    simp only [ne_eq, own, not_false_eq_true, true_and]
    refine if_congr Iff.rfl ?_ rfl
    simp only [Inode.ofBytes]
    refine wordOf_congr fun lane low => ?_
    have byte : (fs.icache o).byte (12 + lane) = wordByte (fs.icache o).locked lane := by
      rw [Inode.byte, if_neg (by omega), if_neg (by omega), if_neg (by omega), if_pos (by omega),
        Nat.add_sub_cancel_left]
    rw [byte]

theorem relock_append : relock sl (off + m) n (fun i => src (m + i)) o (relock sl off m src o word) =
    relock sl off (m + n) src o word := by
  have start : addrsAt sl (off + m) = addrsAt sl off + m := (Nat.add_assoc _ _ _).symm
  rw [relock, relock, relock, start]
  generalize addrsAt sl off = first
  dsimp only
  by_cases own : o = sl
  · simp [own]
  simp only [ne_eq, own, not_false_eq_true, true_and]
  -- one lane: the second part if it reaches it, else the first, else the old byte
  have lanes : ∀ address old, (if first + m ≤ address ∧ address < first + m + n then
        src (m + (address - (first + m)))
      else if first ≤ address ∧ address < first + m then src (address - first) else old) =
      if first ≤ address ∧ address < first + (m + n) then src (address - first) else old := by
    intro address old
    by_cases snd : first + m ≤ address ∧ address < first + m + n
    · rw [if_pos snd, if_pos (by omega)]
      congr 1
      omega
    · rw [if_neg snd]
      exact if_congr (by omega) rfl rfl
  by_cases fst : 0 < m ∧ first < 144 * o.val + 144 ∧ 144 * o.val < first + m <;>
    by_cases snd : 0 < n ∧ first + m < 144 * o.val + 144 ∧ 144 * o.val < first + m + n
  · rw [if_pos fst, if_pos snd, if_pos (by omega)]
    refine wordOf_congr fun lane low => ?_
    rw [Dinode.wordByte_wordOf _ low]
    exact lanes _ _
  · rw [if_pos fst, if_neg snd, if_pos (by omega)]
    refine wordOf_congr fun lane low => ?_
    rw [← lanes, if_neg (by omega : ¬(first + m ≤ 144 * o.val + (12 + lane) ∧ _))]
  · rw [if_neg fst, if_pos snd, if_pos (by omega)]
    refine wordOf_congr fun lane low => ?_
    rw [← lanes, if_neg (by omega : ¬(first ≤ 144 * o.val + (12 + lane) ∧ _))]
  · rw [if_neg fst, if_neg snd, if_neg (by omega)]

/-- Bytes that leave the lock words alone together do so one part at a time. -/
theorem relock_front (kept : relock sl off (m + n) src o word = word) : relock sl off m src o word = word := by
  rw [relock] at kept ⊢
  generalize addrsAt sl off = first at kept ⊢
  dsimp only at kept ⊢
  split
  · rename_i reaches
    rw [if_pos ⟨reaches.1, by omega, by omega, by omega⟩] at kept
    refine (wordOf_congr fun lane low => ?_).trans kept
    have same := congrArg (wordByte · lane) kept
    rw [Dinode.wordByte_wordOf _ low] at same
    split
    · rw [if_pos (by omega)]
    · exact same.symm
  · rfl

theorem refused_iff {dinode : Dinode} {off : BitVec 32} {count : Nat} (int : count < 2 ^ 32) :
    Refused dinode off (BitVec.ofNat 32 count) ↔ dinode.size < off ∨ MAXFILE * BSIZE < off.toNat + count := by
  have most : MAXFILE * BSIZE = 71680 := rfl
  have lt := off.isLt
  rw [Refused, most, BitVec.lt_def, BitVec.lt_def, BitVec.toNat_add, BitVec.toNat_ofNat, Nat.mod_eq_of_lt int]
  omega

theorem ilock_locks (fs : Fs) (sl : Slot) : Holds (ilock sl) fs fun _ fs' =>
    fs.locks sl = 0 ∧ ∀ o ≠ sl, fs'.locks o = fs.locks o := by
  refine (ilock_spec fs sl).conseq ?_
  rintro _ fs' ⟨_, unlocked, loaded⟩
  refine ⟨unlocked, fun o ne => ?_⟩
  rcases loaded with ⟨_, rfl⟩ | ⟨_, _, rfl⟩ <;> exact congrArg Inode.locked (setInode_ne _ _ _ ne)

theorem writei_locks {off : BitVec 32} (small : (fs.icache sl).dinode.type = T_SFILE)
    (reaches : off ≤ (fs.icache sl).dinode.size) (int : n < 2 ^ 32) (some_ : 0 < n) :
    Holds (writei sl src off (BitVec.ofNat 32 n)) fs fun r fs' =>
      (MAXFILE * BSIZE < off.toNat + n ∧ r = -1 ∧ fs' = fs) ∨
      (off.toNat + n ≤ MAXFILE * BSIZE ∧ r = n ∧ (fs'.icache sl).valid = (fs.icache sl).valid ∧
        (fs'.icache sl).dinode.type = T_SFILE ∧ off.toNat + n ≤ (fs'.icache sl).dinode.size.toNat ∧
        ∀ o, fs'.locks o = relock sl off.toNat n src o (fs.locks o)) := by
  have most : MAXFILE * BSIZE = 71680 := rfl
  have count : (BitVec.ofNat 32 n).toNat = n := by rw [BitVec.toNat_ofNat, Nat.mod_eq_of_lt int]
  have ends : ¬MAXFILE * BSIZE < off.toNat + n → (off + BitVec.ofNat 32 n).toNat = off.toNat + n := by
    intro low
    rw [BitVec.toNat_add, count]
    omega
  refine (writei_small fs sl src off _ small).conseq ?_
  simp only [refused_iff int, count]
  rintro r fs' (⟨refused, rfl, rfl⟩ | ⟨ok, rfl, keeps, rfl⟩ | ⟨ok, rfl, grows, disk', _, rfl⟩)
  · exact .inl ⟨refused.resolve_left (BitVec.not_lt.mpr reaches), rfl, rfl⟩
  · obtain ⟨_, low⟩ := not_or.mp ok
    refine .inr ⟨Nat.not_lt.mp low, rfl, ?_, ?_, ?_, fun o => moveIn_locks some_⟩ <;> rw [moveIn_same]
    · rfl
    · exact small
    · rw [← ends low, ← BitVec.le_def]
      exact BitVec.not_lt.mp fun longer => keeps ⟨by rw [BitVec.lt_def, count]; exact some_, longer⟩
  · obtain ⟨_, low⟩ := not_or.mp ok
    refine .inr ⟨Nat.not_lt.mp low, rfl, ?_, ?_, ?_, fun o => ?_⟩
    · rw [setDisk_icache, setInode_same]
      rfl
    · rw [setDisk_icache, setInode_same, setDinode_dinode, Dinode.written, if_pos grows]
      exact small
    · rw [setDisk_icache, setInode_same, setDinode_dinode, Dinode.written, if_pos grows, Dinode.setSize_size, ends low]
    · rw [Fs.locks, setDisk_icache]
      by_cases own : o = sl
      · rw [own, setInode_same, relock_same]
        rfl
      · rw [setInode_ne _ _ _ own]
        exact moveIn_locks some_

end

/-- A section of `filewrite` on a small file that is not refused. -/
structure SmallSection (kern kern' : Kernel) (f : FileSlot) (addr : Nat → UInt8) (n1 : Nat) : Prop where
  ip : (kern'.ftable f).ip = (kern.ftable f).ip
  off : (kern'.ftable f).off.toNat = (kern.ftable f).off.toNat + n1
  small : (kern'.fs.node (kern.ftable f).ip).type = T_SFILE
  reaches : (kern'.ftable f).off ≤ (kern'.fs.node (kern.ftable f).ip).size
  locks : ∀ o, kern'.fs.locks o = relock (kern.ftable f).ip (kern.ftable f).off.toNat n1 addr o (kern.fs.locks o)

section

variable {k k' : Kernel} {f : FileSlot} {n1 : Nat} {addr : Nat → UInt8}

theorem closeSection {ip : Slot} {r : Int} {post : Int → Kernel → Prop}
    (done : ∀ k', k'.ftable = k.ftable → (k'.fs.icache ip = (k.fs.icache ip).setLocked 0) →
      (∀ o ≠ ip, k'.fs.icache o = k.fs.icache o) → post r k') :
    Holds (iunlock ip) k.fs fun _ fs => Holds kernelEndOp (k.setFs fs) fun _ k' =>
      Holds (pure r : KernelM Int) k' post := by
  refine (iunlock_spec _ _).conseq fun _ fs unlocked => ?_
  subst unlocked
  rw [kernelEndOp, holds_onFs, holds_onDisk]
  refine holds_endOp trivial fun disk _ _ _ => .pure (done _ rfl ?_ fun o ne => ?_)
  · exact setInode_same _ _ _
  · exact setInode_ne _ _ _ ne

theorem filewriteSection_locks (small : (k.fs.node (k.ftable f).ip).type = T_SFILE)
    (reaches : (k.ftable f).off ≤ (k.fs.node (k.ftable f).ip).size) (int : n1 < 2 ^ 32) (some_ : 0 < n1) :
    Holds (filewriteSection f addr n1) k fun r k' =>
      (MAXFILE * BSIZE < (k.ftable f).off.toNat + n1 ∧ r = -1 ∧ k'.fs.locks = k.fs.locks) ∨
      ((k.ftable f).off.toNat + n1 ≤ MAXFILE * BSIZE ∧ r = n1 ∧ SmallSection k k' f addr n1) := by
  simp only [filewriteSection, holds_bind, holds_file, kernelBeginOp, holds_onFs, holds_onDisk]
  refine holds_beginOp trivial fun disk alike _ _ _ => ?_
  refine ((ilock_node _ _).and (ilock_locks _ _)).mono ?_ fun _ _ => trivial
  rintro _ fs1 ⟨⟨_, node1, valid1⟩, unlocked, locks1⟩
  simp only [setFs_fs, node_alike alike] at node1
  replace unlocked : k.fs.locks (k.ftable f).ip = 0 := unlocked
  replace locks1 : ∀ o ≠ (k.ftable f).ip, fs1.locks o = k.fs.locks o := locks1
  refine (writei_locks (node1 ▸ small) (node1 ▸ reaches) int some_).conseq ?_
  rintro r fs2 (⟨large, rfl, rfl⟩ | ⟨low, rfl, valid2, small2, size2, locks2⟩)
  · refine holds_onlyIf.mpr ⟨fun pos => absurd pos (by decide), fun _ => ?_⟩
    refine closeSection fun k' _ own others => .inl ⟨large, rfl, funext fun o => ?_⟩
    by_cases eq : o = (k.ftable f).ip
    · rw [eq, unlocked, Fs.locks, own]
      rfl
    · rw [← locks1 o eq, Fs.locks, others o eq]
      rfl
  · refine holds_onlyIf.mpr ⟨fun _ => ?_, fun none => absurd (Int.natCast_pos.mpr some_) none⟩
    rw [holds_modifyFile]
    refine closeSection fun k' table own others => .inr ⟨low, rfl, ?_⟩
    have file := (congrFun table f).trans (setFile_same _ _)
    have most : MAXFILE * BSIZE = 71680 := rfl
    have ends : (k'.ftable f).off.toNat = (k.ftable f).off.toNat + n1 := by
      rw [file]
      change ((k.ftable f).off + BitVec.ofInt 32 n1).toNat = _
      rw [BitVec.ofInt_natCast, BitVec.toNat_add, BitVec.toNat_ofNat]
      omega
    have node : k'.fs.node (k.ftable f).ip = (fs2.icache (k.ftable f).ip).dinode := by
      rw [Fs.node, own, setLocked_valid, setLocked_dinode]
      exact if_pos (valid2.trans valid1)
    refine ⟨by rw [file]; rfl, ends, node ▸ small2, ?_, fun o => ?_⟩
    · rw [node, BitVec.le_def, ends]
      exact size2
    · by_cases eq : o = (k.ftable f).ip
      · rw [eq, relock_same, unlocked, Fs.locks, own]
        rfl
      · rw [← locks1 o eq]
        exact (congrArg Inode.locked (others o eq)).trans (locks2 o)

variable {n i : Nat}

/-- By induction on the sections: the lock words at the end are those of the bytes that landed. -/
theorem filewriteFrom_locks (fuel : Nat) (enough : n - i ≤ fuel) (small : (k.fs.node (k.ftable f).ip).type = T_SFILE)
    (reaches : (k.ftable f).off ≤ (k.fs.node (k.ftable f).ip).size) :
    Holds (filewriteFrom f addr n fuel i) k fun _ k' => ∀ o, k'.fs.locks o =
      relock (k.ftable f).ip (k.ftable f).off.toNat (landed (k.ftable f).off.toNat (n - i)) (fun j => addr (i + j)) o
        (k.fs.locks o) := by
  have limit : filewriteMax = 6656 := rfl
  induction fuel generalizing k i with
  | zero =>
    refine .pure fun o => ?_
    rw [Nat.le_zero.mp enough, landed_zero, relock_zero]
  | succ fuel ih =>
    rw [filewriteFrom, holds_ite, holds_pure]
    refine ⟨fun more => ?_, fun done o => ?_⟩
    · refine (filewriteSection_locks small reaches (by omega) (by omega)).bind ?_
      rintro r k' (⟨large, rfl, same⟩ | ⟨low, rfl, wrote⟩)
      · refine (holds_ite.mpr ⟨fun _ => .pure fun o => ?_, fun pos => absurd (by decide) pos⟩)
        rw [landed_refused large, relock_zero, same]
      · rw [if_neg (by omega), if_neg (by simp)]
        refine (ih (by omega) (wrote.ip ▸ wrote.small) (wrote.ip ▸ wrote.reaches)).conseq fun _ k'' final o => ?_
        rw [final o, wrote.ip, wrote.off, wrote.locks o, landed_chunk low, ← relock_append]
        simp only [Nat.add_assoc, Nat.sub_sub]
    · rw [Nat.sub_eq_zero_of_le (Nat.not_lt.mp done), landed_zero, relock_zero]

end

end Xv6
