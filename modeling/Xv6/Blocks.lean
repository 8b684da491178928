import Xv6.DiskCore
import Xv6.Lib.Writes

/-! What the functions of the block layer do: each is a list of logged block writes, made
with the buffers it needs unlocked before and after. -/

namespace Xv6

open Exec Writes List Disk Bytes Superblock Function

variable {post : Unit → Disk → Prop} {fssize size n bi : Nat}

def tooBig : Stop := .panic "too big a transaction"

def outOfBlocks : Stop := .panic "balloc: out of blocks"

@[simp] theorem holds_panic {σ α : Type} {message : String} {s : σ} {post : α → σ → Prop} {stops : Stop → Prop} :
    Holds (panic message) s post stops ↔ stops (.panic message) := holds_halt

def logAll (written : List Nat) (changes : List (Nat × Block)) : List Nat :=
  changes.foldl (fun written change => insertBlock change.1 written) written

theorem logAll_append (written : List Nat) (fst snd : List (Nat × Block)) :
    logAll written (fst ++ snd) = logAll (logAll written fst) snd :=
  foldl_append

variable {blockno o b : Nat} {sb : Superblock} {block : Nat → Block} {data : Block}

theorem mem_logAll {written : List Nat} {changes : List (Nat × Block)} :
    b ∈ logAll written changes ↔ b ∈ written ∨ ∃ change ∈ changes, change.1 = b := by
  induction changes generalizing written with
  | nil => simp [logAll]
  | cons change rest ih =>
    rw [logAll, foldl_cons, ← logAll, ih, mem_insertBlock, exists_mem_cons_iff, or_assoc, eq_comm]

structure Disk.Puts (disk disk' : Disk) (changes : List (Nat × Block)) : Prop where
  block : disk'.block = applyAll disk.block changes
  written : disk'.written = logAll disk.written changes
  held : disk'.held = disk.held
  sb : disk'.sb = disk.sb
  fssize : disk'.fssize = disk.fssize
  outstanding : disk'.log.outstanding = disk.log.outstanding
  sections : disk'.sections = disk.sections

/-- How many blocks can be logged before `log_write` finds the transaction too big. -/
def Log.room (log : Log) : Nat := min LOGSIZE (log.size - 1) - log.lh.n

theorem Log.logWrite_cases (log : Log) (b : Nat) (op : 0 < log.outstanding) :
    (∃ log', log.logWrite b = .ok log' ∧ log'.outstanding = log.outstanding ∧ log.room ≤ log'.room + 1) ∨
      log.room = 0 ∧ log.logWrite b = .error tooBig := by
  unfold Log.logWrite
  split
  · rename_i low
    rw [if_neg (by omega)]
    refine .inl ⟨_, rfl, rfl, ?_⟩
    have grown := log.lh.n_absorb b low.1
    simp only [Log.room]
    omega
  · exact .inr ⟨by rw [Log.room]; omega, rfl⟩

@[simp] theorem Disk.setHeld_setHeld (disk : Disk) (fst snd : List Nat) :
    (disk.setHeld fst).setHeld snd = disk.setHeld snd := rfl

@[simp] theorem Disk.setHeld_self (disk : Disk) : disk.setHeld disk.held = disk := rfl

@[simp] theorem Disk.setSb_self (disk : Disk) : disk.setSb disk.sb = disk := rfl

section

variable {disk : Disk} {b : Nat} {stops : Stop → Prop}

theorem holds_bread {post : Block → Disk → Prop} (unheld : b ∉ disk.held) (lt : b < disk.fssize) :
    Holds (bread b) disk post stops ↔ post (disk.block b) (disk.setHeld (b :: disk.held)) := by
  simp [bread, unheld, Nat.not_le.mpr lt]

theorem holds_bpeek {post : Block → Disk → Prop} (unheld : b ∉ disk.held) (lt : b < disk.fssize) :
    Holds (bpeek b) disk post stops ↔ post (disk.block b) disk := by
  simp [bpeek, holds_bread unheld lt, brelse]

theorem holds_logWrite (op : 0 < disk.log.outstanding) (full : disk.log.room = 0 → stops tooBig)
    (next : ∀ log : Log, log.outstanding = disk.log.outstanding → disk.log.room ≤ log.room + 1 →
      post () (disk.setLog log (insertBlock b disk.written))) : Holds (logWrite b) disk post stops := by
  unfold Holds logWrite
  rcases disk.log.logWrite_cases b op with ⟨log, logged, eq, room⟩ | ⟨none, stopped⟩
  · rw [logged]
    exact next log eq room
  · rw [stopped]
    exact full none

theorem holds_bupdate {change : Block → Block} (unheld : b ∉ disk.held) (lt : b < disk.fssize)
    (op : 0 < disk.log.outstanding) (full : disk.log.room = 0 → stops tooBig)
    (next : ∀ disk', disk.Puts disk' [(b, change (disk.block b))] → post () disk') :
    Holds (bupdate b change) disk post stops := by
  simp only [bupdate, holds_bind, holds_bread unheld lt, store, holds_modify, brelse]
  refine holds_logWrite op full fun log same _ => next _ ?_
  exact ⟨rfl, rfl, by simp, rfl, rfl, same, rfl⟩

theorem Log.logWrite_outstanding {log log' : Log} (logged : log.logWrite b = .ok log') :
    log'.outstanding = log.outstanding := by
  unfold Log.logWrite at logged
  split at logged
  · split at logged
    · cases logged
    · cases logged
      rfl
  · cases logged

theorem bupdate_puts (disk : Disk) (b : Nat) (change : Block → Block) : Holds (bupdate b change) disk
      fun _ disk' => disk.Puts disk' [(b, change (disk.block b))] := by
  simp only [bupdate, bread, holds_bind, holds_get, holds_ite, holds_halt, panic, holds_modify,
    holds_pure, store, brelse, implies_true, true_and]
  intro _ _
  unfold Holds logWrite
  simp only [setBlock_log, setHeld_log]
  cases logged : disk.log.logWrite b with
  | error reason => trivial
  | ok log => exact ⟨rfl, rfl, by simp, rfl, rfl, Log.logWrite_outstanding logged, rfl⟩

theorem bpeek_same (disk : Disk) (b : Nat) :
    Holds (bpeek b) disk fun data disk' => data = disk.block b ∧ disk' = disk := by
  simp [bpeek, bread, holds_ite, panic, brelse]

end

def Superblock.dataStart (sb : Superblock) : Nat := sb.size - sb.nblocks

/-- The regions of the disk follow one another as the superblock says and end below the
driver's limit. -/
structure Layout (sb : Superblock) (fssize : Nat) : Prop where
  superblock : 1 < sb.inodestart
  inodes : sb.inodestart + sb.ninodes / IPB < sb.bmapstart
  bitmap : sb.bmapstart + sb.size / BPB < sb.dataStart
  fits : sb.size ≤ fssize
  words : fssize < 2 ^ 32

namespace Layout

variable {sb : Superblock} {fssize b inum : Nat}

section

variable (lay : Layout sb fssize)

include lay

theorem bounds : 1 < sb.inodestart ∧ sb.inodestart + sb.ninodes / 8 < sb.bmapstart ∧
      sb.bmapstart + sb.size / 4096 < sb.dataStart ∧ sb.dataStart ≤ sb.size ∧ sb.size ≤ fssize ∧ fssize < 2 ^ 32 :=
  ⟨lay.superblock, lay.inodes, lay.bitmap, Nat.sub_le _ _, lay.fits, lay.words⟩

theorem BBLOCK_eq (lt : b < sb.size) : BBLOCK b sb = b / 4096 + sb.bmapstart := by
  have := lay.bounds
  exact Nat.mod_eq_of_lt (by simp only [BPB, BSIZE]; omega)

theorem IBLOCK_eq (lt : inum < sb.ninodes) : IBLOCK inum sb = inum / 8 + sb.inodestart := by
  have := lay.bounds
  exact Nat.mod_eq_of_lt (by simp only [IPB, BSIZE]; omega)

theorem BBLOCK_lt (lt : b < sb.size) : BBLOCK b sb < sb.dataStart := by
  have := lay.bounds
  rw [lay.BBLOCK_eq lt]
  omega

theorem le_BBLOCK (lt : b < sb.size) : sb.bmapstart ≤ BBLOCK b sb := by
  rw [lay.BBLOCK_eq lt]
  omega

theorem IBLOCK_lt (lt : inum < sb.ninodes) : IBLOCK inum sb < sb.bmapstart := by
  have := lay.bounds
  rw [lay.IBLOCK_eq lt]
  omega

theorem one_lt_IBLOCK (lt : inum < sb.ninodes) : 1 < IBLOCK inum sb := by
  have := lay.bounds
  rw [lay.IBLOCK_eq lt]
  omega

end

end Layout

theorem mkfs_layout : Layout mkfsSb FSSIZE := by
  constructor <;> decide

def Used (sb : Superblock) (block : Nat → Block) (blockno : Nat) : Prop :=
  (block (BBLOCK blockno sb)).bit (blockno % BPB) = true

theorem used_update_ne {target : Nat} (ne : BBLOCK b sb ≠ target) :
    Used sb (update block target data) b ↔ Used sb block b := by
  rw [Used, Used, update_of_ne ne]

theorem used_setBit (lay : Layout sb fssize) (lt : b < sb.size)
    (otherBound : o < sb.size) : Used sb (update block (BBLOCK b sb)
      ((block (BBLOCK b sb)).setBit (b % BPB))) o ↔ Used sb block o ∨ o = b := by
  have small : b % BPB / 8 < BSIZE := by simp only [BPB, BSIZE]; omega
  by_cases same : BBLOCK o sb = BBLOCK b sb
  · rw [Used, same, update_self, bit_setBit _ _ _ small, Bool.or_eq_true, decide_eq_true_eq, Used, same]
    rw [lay.BBLOCK_eq lt, lay.BBLOCK_eq otherBound] at same
    have : o % BPB = b % BPB ↔ o = b := by simp only [BPB, BSIZE] at same ⊢; omega
    rw [this]
  · rw [used_update_ne same]
    have : o ≠ b := fun eq => same (by rw [eq])
    simp [this]

theorem used_of_clearBit (used : Used sb (update block (BBLOCK b sb)
      ((block (BBLOCK b sb)).clearBit (b % BPB))) o) : Used sb block o ∧ o ≠ b := by
  have small : b % BPB / 8 < BSIZE := by simp only [BPB, BSIZE]; omega
  by_cases same : BBLOCK o sb = BBLOCK b sb
  · rw [Used, same, update_self, bit_clearBit _ _ _ small, Bool.and_eq_true, decide_eq_true_eq] at used
    refine ⟨?_, ?_⟩
    · rw [Used, same]
      exact used.1
    · rintro rfl
      exact used.2 rfl
  · rw [used_update_ne same] at used
    refine ⟨used, ?_⟩
    rintro rfl
    exact same rfl

theorem used_clearBit (lay : Layout sb fssize) (lt : b < sb.size)
    (otherBound : o < sb.size) : Used sb (update block (BBLOCK b sb)
      ((block (BBLOCK b sb)).clearBit (b % BPB))) o ↔ Used sb block o ∧ o ≠ b := by
  refine ⟨used_of_clearBit, fun ⟨used, ne⟩ => ?_⟩
  have small : b % BPB / 8 < BSIZE := by simp only [BPB, BSIZE]; omega
  by_cases same : BBLOCK o sb = BBLOCK b sb
  · rw [Used, same] at used
    rw [Used, same, update_self, bit_clearBit _ _ _ small, used, Bool.true_and, decide_eq_true_eq]
    rw [lay.BBLOCK_eq lt, lay.BBLOCK_eq otherBound] at same
    simp only [BPB, BSIZE]
    omega
  · rwa [used_update_ne same]

theorem firstFree_some {hit : Nat} (res : firstFree data b size n bi = some hit) :
    bi ≤ hit ∧ hit < bi + n ∧ b + hit < size ∧ data.bit hit = false ∧ ∀ i, bi ≤ i → i < hit → data.bit i = true := by
  induction n generalizing bi with
  | zero => simp [firstFree] at res
  | succ n ih =>
    simp only [firstFree] at res
    split at res
    · rename_i below
      split at res
      · rename_i set_
        obtain ⟨low, high, inside, clear, earlier⟩ := ih res
        refine ⟨by omega, by omega, inside, clear, fun i from_ below => ?_⟩
        by_cases fst : i = bi
        · rw [fst]
          exact set_
        · exact earlier i (by omega) below
      · rename_i clear
        cases res
        exact ⟨by omega, by omega, below, by simpa using clear, fun i _ _ => by omega⟩
    · simp at res

theorem firstFree_none (res : firstFree data b size n bi = none) {i : Nat}
    (low : bi ≤ i) (high : i < bi + n) (inside : b + i < size) : data.bit i = true := by
  induction n generalizing bi with
  | zero => omega
  | succ n ih =>
    simp only [firstFree] at res
    split at res
    · split at res
      · rename_i set_
        by_cases fst : i = bi
        · rw [fst]
          exact set_
        · exact ih res (by omega) (by omega)
      · simp at res
    · omega

def ballocWrites (sb : Superblock) (block : Nat → Block) (b : Nat) : List (Nat × Block) :=
  [(BBLOCK b sb, (block (BBLOCK b sb)).setBit (b % BPB)), (b, Bytes.zero)]

section

variable {disk : Disk} {stops : Stop → Prop}

section

variable {post : Nat → Disk → Prop} (lay : Layout disk.sb disk.fssize)
  (bitmap : ∀ b < disk.sb.size, BBLOCK b disk.sb ∉ disk.held)
  (unheld : ∀ b < disk.sb.size, ¬Used disk.sb disk.block b → b ∉ disk.held) (op : 0 < disk.log.outstanding)
  (full : (∃ b < disk.sb.size, ¬Used disk.sb disk.block b) → disk.log.room < 2 → stops tooBig)
  (exhausted : (∀ b < disk.sb.size, Used disk.sb disk.block b) → stops outOfBlocks)
  (next : ∀ b disk', b < disk.sb.size → ¬Used disk.sb disk.block b → (∀ c < b, Used disk.sb disk.block c) →
    disk.Puts disk' (ballocWrites disk.sb disk.block b) → post b disk')

include lay bitmap unheld op full exhausted next

theorem holds_ballocFrom (rounds b : Nat) (aligned : BPB ∣ b) (enough : disk.sb.size < b + rounds * BPB)
    (pre : ∀ c < b, c < disk.sb.size → Used disk.sb disk.block c) :
    Holds (ballocFrom disk.sb rounds b) disk post stops := by
  induction rounds generalizing b with
  | zero =>
    rw [ballocFrom, holds_panic]
    exact exhausted fun c lt => pre c (by omega) lt
  | succ rounds ih =>
    rw [ballocFrom, holds_ite, holds_panic]
    refine ⟨fun below => ?_, fun above => exhausted fun c lt => pre c (by omega) lt⟩
    have inBlock : ∀ bi < BPB, b + bi < disk.sb.size →
        BBLOCK (b + bi) disk.sb = BBLOCK b disk.sb ∧ (b + bi) % BPB = bi := by
      intro bi small inside
      rw [lay.BBLOCK_eq inside, lay.BBLOCK_eq below]
      obtain ⟨quotient, rfl⟩ := aligned
      simp only [BPB, BSIZE] at *
      omega
    have limits := lay.bounds
    have device : BBLOCK b disk.sb < disk.fssize := by
      have := lay.BBLOCK_lt below
      omega
    rw [holds_bind, holds_bread (bitmap b below) device]
    cases hit : firstFree (disk.block (BBLOCK b disk.sb)) b disk.sb.size BPB 0 with
    | none =>
      simp only [holds_bind, brelse, holds_modify, setHeld_held, erase_cons_head, setHeld_setHeld, setHeld_self]
      refine ih (b + BPB) (Nat.dvd_add aligned (Nat.dvd_refl BPB)) ?_ fun c lt inside => ?_
      · rw [Nat.succ_mul] at enough
        omega
      · by_cases early : c < b
        · exact pre c early inside
        · have split : c = b + (c - b) := by omega
          obtain ⟨sameBlock, sameBit⟩ := inBlock (c - b) (by omega) (by omega)
          rw [split, Used, sameBlock, sameBit]
          exact firstFree_none hit (by omega) (by omega) (by omega)
    | some bi =>
      obtain ⟨_, small, inside, clear, earlier⟩ := firstFree_some hit
      obtain ⟨sameBlock, sameBit⟩ := inBlock bi (by omega) inside
      have free : ¬Used disk.sb disk.block (b + bi) := by
        rw [Used, sameBlock, sameBit, clear]
        simp
      have full := full ⟨b + bi, inside, free⟩
      simp only [holds_bind, store, holds_modify, brelse, holds_pure, bzero]
      refine holds_logWrite op (fun none => full (none.trans_lt (by decide))) fun log eq room => ?_
      refine holds_bupdate (by simpa using unheld (b + bi) inside free)
        (by simp only [setHeld_fssize, setLog_fssize, setBlock_fssize]; omega)
        (by simpa [eq] using op) (fun none => full (by simp at none room; omega)) fun disk' puts =>
        next (b + bi) disk' inside free (fun c lt => ?_) ?_
      · by_cases early : c < b
        · exact pre c early (by omega)
        · have split : c = b + (c - b) := by omega
          obtain ⟨cBlock, cBit⟩ := inBlock (c - b) (by omega) (by omega)
          rw [split, Used, cBlock, cBit]
          exact earlier (c - b) (by omega) (by omega)
      · obtain ⟨block, written, held, sb, fssize, outstanding, sections⟩ := puts
        refine ⟨?_, ?_, ?_, sb, fssize, ?_, sections⟩
        · rw [block, ballocWrites, sameBlock, sameBit]
          rfl
        · rw [written, ballocWrites, sameBlock]
          rfl
        · simpa using held
        · rw [outstanding]
          exact eq

theorem holds_balloc : Holds balloc disk post stops := by
  rw [balloc, holds_bind, holds_get]
  refine holds_ballocFrom lay bitmap unheld op full exhausted next _ 0 (Nat.dvd_zero _) ?_ (by omega)
  simp only [BPB, BSIZE]
  omega

end

theorem holds_bfree {b : Nat} (super : ofBlock (disk.block 1) = disk.sb) (superHeld : 1 ∉ disk.held)
    (superBound : 1 < disk.fssize) (unheld : BBLOCK b disk.sb ∉ disk.held)
    (lt : BBLOCK b disk.sb < disk.fssize) (used : Used disk.sb disk.block b)
    (op : 0 < disk.log.outstanding) (full : disk.log.room = 0 → stops tooBig) (next : ∀ disk',
      disk.Puts disk' [(BBLOCK b disk.sb, (disk.block (BBLOCK b disk.sb)).clearBit (b % BPB))] → post () disk') :
    Holds (bfree b) disk post stops := by
  simp only [bfree, readsb, holds_bind, holds_bpeek superHeld superBound, holds_pure, holds_modify, super, setSb_self]
  rw [Used] at used
  rw [holds_bread unheld lt, if_pos used]
  simp only [holds_bind, store, holds_modify, brelse]
  refine holds_logWrite op full fun log same _ => next _ ?_
  exact ⟨rfl, rfl, by simp, rfl, rfl, same, rfl⟩

theorem bfree_puts (disk : Disk) (b : Nat) (super : ofBlock (disk.block 1) = disk.sb) :
    Holds (bfree b) disk fun _ disk' => Used disk.sb disk.block b ∧
      disk.Puts disk' [(BBLOCK b disk.sb, (disk.block (BBLOCK b disk.sb)).clearBit (b % BPB))] := by
  simp only [bfree, readsb, holds_bind]
  refine (bpeek_same _ _).conseq ?_
  rintro data disk1 ⟨rfl, rfl⟩
  simp only [holds_pure, holds_modify, super, setSb_self, bread, holds_bind, holds_get,
    holds_ite, holds_halt, panic, implies_true, true_and, and_true, store, brelse]
  intro _ _ used
  unfold Holds logWrite
  simp only [setBlock_log, setHeld_log]
  cases logged : disk1.log.logWrite (BBLOCK b disk1.sb) with
  | error reason => trivial
  | ok log => exact ⟨used, rfl, rfl, by simp, rfl, rfl, Log.logWrite_outstanding logged, rfl⟩

end

section

variable {disk : Disk} {stops : Stop → Prop}

structure Disk.Alike (disk disk' : Disk) : Prop where
  block : disk'.block = disk.block
  held : disk'.held = disk.held
  sb : disk'.sb = disk.sb
  fssize : disk'.fssize = disk.fssize

theorem holds_beginOp (blocked : stops .blocked)
    (next : ∀ disk', disk.Alike disk' → disk'.log.outstanding = disk.log.outstanding + 1 →
      disk'.written = [] → disk'.sections = disk.sections → post () disk') : Holds beginOp disk post stops := by
  unfold Holds beginOp
  split
  · rename_i begun
    split at begun <;> cases begun
    rename_i log admitted
    refine next _ ⟨rfl, rfl, rfl, rfl⟩ ?_ rfl rfl
    simp only [Log.beginOp] at admitted
    split at admitted <;> cases admitted
    rfl
  · rename_i waits
    split at waits
    · cases waits
    · cases waits
      exact blocked

theorem holds_endOp (committing : stops (.panic "log.committing"))
    (next : ∀ disk', disk.Alike disk' → disk'.log.outstanding = disk.log.outstanding - 1 →
      disk'.sections = disk.sections ++ [disk.written] → post () disk') : Holds endOp disk post stops := by
  unfold Holds endOp
  split
  · rename_i ended
    split at ended <;> cases ended
    rename_i doCommit log closed
    refine next _ ⟨rfl, rfl, rfl, rfl⟩ ?_ rfl
    simp only [Log.endOp] at closed
    split at closed
    · cases closed
    · split at closed <;> cases closed <;> rfl
  · rename_i stopped
    split at stopped
    · cases stopped
    · rename_i refused
      cases stopped
      simp only [Log.endOp] at refused
      split at refused
      · cases refused
        exact committing
      · split at refused <;> cases refused

end

end Xv6
