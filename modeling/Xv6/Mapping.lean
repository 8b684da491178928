import Xv6.Image

/-! What `bmap` does to the map of places: it finds a block or enters a fresh zeroed one, and
the bitmap keeps agreeing with the map. -/

namespace Xv6

open Exec Writes Owner List Fs Inode Function

def Fs.view (fs : Fs) (sl : Slot) : Nat → Dinode :=
  update (table fs.disk.sb fs.disk.block) (fs.icache sl).inum (fs.icache sl).dinode

def Fs.places (fs : Fs) (sl : Slot) : Nat × Option Nat → Nat :=
  pointer (fs.view sl) fs.disk.block

structure Legible (fs : Fs) (sl : Slot) : Prop where
  layout : Layout fs.disk.sb fs.disk.fssize
  super : Superblock.ofBlock (fs.disk.block 1) = fs.disk.sb
  unheld : fs.disk.held = []
  number : (fs.icache sl).inum < fs.disk.sb.ninodes
  typed : BlockType (fs.icache sl).dinode.type
  owned : Owned fs.disk.sb (fs.view sl) fs.disk.block

structure Working (fs : Fs) (sl : Slot) : Prop extends Legible fs sl where
  opened : 0 < fs.disk.log.outstanding

structure Disk.Steady (disk disk' : Disk) : Prop where
  sb : disk'.sb = disk.sb
  fssize : disk'.fssize = disk.fssize
  held : disk'.held = disk.held
  outstanding : disk'.log.outstanding = disk.log.outstanding
  sections : disk'.sections = disk.sections
  low : ∀ b < disk.sb.bmapstart, disk'.block b = disk.block b

theorem Disk.Steady.refl (disk : Disk) : disk.Steady disk :=
  ⟨rfl, rfl, rfl, rfl, rfl, fun _ _ => rfl⟩

theorem Disk.Steady.trans {fst snd third : Disk} (pre : fst.Steady snd)
    (after : snd.Steady third) : fst.Steady third where
  sb := after.sb.trans pre.sb
  fssize := after.fssize.trans pre.fssize
  held := after.held.trans pre.held
  outstanding := after.outstanding.trans pre.outstanding
  sections := after.sections.trans pre.sections
  low := fun b lt => (after.low b (by rw [pre.sb]; exact lt)).trans (pre.low b lt)

theorem Disk.Puts.steady {disk disk' : Disk} {changes : List (Nat × Block)}
    (puts : disk.Puts disk' changes) (low : ∀ b < disk.sb.bmapstart, disk'.block b = disk.block b) :
    disk.Steady disk' :=
  ⟨puts.sb, puts.fssize, puts.held, puts.outstanding, puts.sections, low⟩

section

variable {fs : Fs} {ip : Slot} {disk : Disk}

@[simp] theorem Fs.view_self : fs.view ip (fs.icache ip).inum = (fs.icache ip).dinode :=
  update_self _ _ _

theorem Fs.view_change (lay : Layout fs.disk.sb fs.disk.fssize) (steady : fs.disk.Steady disk)
    (dinode : Dinode) : ((fs.setInode ip ((fs.icache ip).setDinode dinode)).setDisk disk).view ip =
      update (fs.view ip) (fs.icache ip).inum dinode := by
  simp only [Fs.view, setDisk_disk, setDisk_icache, setInode_same, setDinode_inum,
    setDinode_dinode, update_idem, steady.sb]
  rw [table_congr lay steady.low]

theorem Fs.view_setDisk (lay : Layout fs.disk.sb fs.disk.fssize) (steady : fs.disk.Steady disk) :
    (fs.setDisk disk).view ip = fs.view ip := by
  simp only [Fs.view, setDisk_disk, setDisk_icache, steady.sb]
  rw [table_congr lay steady.low]

section

variable (legible : Legible fs ip)

include legible

theorem Legible.blockType : BlockType (fs.view ip (fs.icache ip).inum).type := by
  rw [view_self]
  exact legible.typed

theorem Legible.places_self (k : Option Nat) : fs.places ip ((fs.icache ip).inum, k) =
      blockOf (fs.icache ip).dinode fs.disk.block k := by
  rw [Fs.places, pointer_of_type legible.blockType, view_self]

theorem Legible.places_none :
    fs.places ip ((fs.icache ip).inum, none) = (fs.icache ip).dinode.addrs.word NDIRECT :=
  legible.places_self none

theorem Legible.area {k : Nat × Option Nat} (has : fs.places ip k ≠ 0) :
    fs.disk.sb.area (fs.places ip k) :=
  legible.owned.area has

theorem Legible.indirect (has : (fs.icache ip).dinode.addrs.word NDIRECT ≠ 0) :
    fs.disk.sb.area ((fs.icache ip).dinode.addrs.word NDIRECT) ∧
      Used fs.disk.sb fs.disk.block ((fs.icache ip).dinode.addrs.word NDIRECT) := by
  rw [← legible.places_none] at has ⊢
  exact ⟨legible.area has, legible.owned.owns.used_place has⟩

end

theorem Working.change (work : Working fs ip) (steady : fs.disk.Steady disk) {addrs : Bytes 52}
    (owned : Owned fs.disk.sb (update (fs.view ip) (fs.icache ip).inum
      ((fs.icache ip).dinode.setAddrs addrs)) disk.block) :
    Working ((fs.setInode ip ((fs.icache ip).setDinode
      ((fs.icache ip).dinode.setAddrs addrs))).setDisk disk) ip := by
  have limits := work.layout.bounds
  refine ⟨⟨?_, ?_, ?_, ?_, ?_, ?_⟩, ?_⟩
  · simpa [steady.sb, steady.fssize] using work.layout
  · simpa [steady.sb, steady.low 1 (by omega)] using work.super
  · simpa [steady.held] using work.unheld
  · simpa [steady.sb] using work.number
  · simpa using work.typed
  · rw [view_change work.layout steady]
    simpa [steady.sb] using owned
  · simpa [steady.outstanding] using work.opened

theorem Working.store (work : Working fs ip) (steady : fs.disk.Steady disk)
    (owned : Owned fs.disk.sb (fs.view ip) disk.block) : Working (fs.setDisk disk) ip := by
  have eq : update (fs.view ip) (fs.icache ip).inum (fs.icache ip).dinode = fs.view ip := by
    rw [Fs.view, Function.update_idem]
  have changed := work.change steady (eq.symm ▸ owned)
  rwa [Dinode.setAddrs_self, setDinode_self, setInode_self] at changed

end

def Amends (fs fs' : Fs) (sl : Slot) : Prop :=
  ∃ addrs disk, fs' = (fs.setInode sl ((fs.icache sl).setDinode
    ((fs.icache sl).dinode.setAddrs addrs))).setDisk disk

namespace Amends

variable {fs fs' fs'' : Fs} {ip : Slot}

theorem setDisk (fs : Fs) (ip : Slot) (disk : Disk) : Amends fs (fs.setDisk disk) ip :=
  ⟨(fs.icache ip).dinode.addrs, disk, by simp⟩

theorem refl (fs : Fs) (ip : Slot) : Amends fs fs ip := setDisk fs ip fs.disk

theorem trans (pre : Amends fs fs' ip) (after : Amends fs' fs'' ip) : Amends fs fs'' ip := by
  obtain ⟨addrs, disk, rfl⟩ := pre
  obtain ⟨addrs', disk', rfl⟩ := after
  refine ⟨addrs', disk', ?_⟩
  simp [setInode, Fs.setDisk, setDinode, Dinode.setAddrs]

section

variable (amends : Amends fs fs' ip)

include amends

theorem inum : (fs'.icache ip).inum = (fs.icache ip).inum := by
  obtain ⟨addrs, disk, rfl⟩ := amends
  simp

theorem ref : (fs'.icache ip).ref = (fs.icache ip).ref := by
  obtain ⟨addrs, disk, rfl⟩ := amends
  simp

theorem other {o : Slot} (ne : o ≠ ip) : fs'.icache o = fs.icache o := by
  obtain ⟨addrs, disk, rfl⟩ := amends
  rw [setDisk_icache, setInode_ne _ _ _ ne]

theorem entry : fs'.icache ip = (fs.icache ip).setDinode (fs'.icache ip).dinode := by
  obtain ⟨addrs, disk, rfl⟩ := amends
  simp

theorem dinode : (fs'.icache ip).dinode = (fs.icache ip).dinode.setAddrs (fs'.icache ip).dinode.addrs := by
  obtain ⟨addrs, disk, rfl⟩ := amends
  simp

end

end Amends

structure Entered (fs fs' : Fs) (sl : Slot) (place : Option Nat) (addr : Nat) : Prop where
  working : Working fs' sl
  amends : Amends fs fs' sl
  steady : fs.disk.Steady fs'.disk
  empty : fs.places sl ((fs.icache sl).inum, place) = 0
  area : fs.disk.sb.area addr
  free : ¬Used fs.disk.sb fs.disk.block addr
  places : ∀ other, fs'.places sl other =
    if other = ((fs.icache sl).inum, place) then addr else fs.places sl other
  zeroed : fs'.disk.block addr = Bytes.zero
  data : ∀ b, fs.disk.sb.dataStart ≤ b → b ≠ addr →
    b ≠ fs'.places sl ((fs.icache sl).inum, none) → fs'.disk.block b = fs.disk.block b
  logged : ∀ b, b ∈ fs'.disk.written ↔ b ∈ fs.disk.written ∨ b = addr ∨
    b = BBLOCK addr fs.disk.sb ∨ ∃ bn, place = some bn ∧ NDIRECT ≤ bn ∧
      b = fs'.places sl ((fs.icache sl).inum, none)

section

variable {fs : Fs} {ip : Slot} {stops : Stop → Prop} {disk : Disk} {i bn : Nat}

theorem holds_balloc_working {post : Nat → Disk → Prop} (lay : Layout disk.sb disk.fssize)
    (marked : ∀ b < disk.sb.dataStart, Used disk.sb disk.block b)
    (locked : ∀ b ∈ disk.held, disk.sb.dataStart ≤ b ∧ Used disk.sb disk.block b)
    (op : 0 < disk.log.outstanding) (full : stops tooBig) (exhausted : stops outOfBlocks)
    (next : ∀ b disk', Allotted disk.sb disk.block disk'.block b →
      disk.Puts disk' (ballocWrites disk.sb disk.block b) → post b disk') : Holds balloc disk post stops := by
  refine holds_balloc lay (fun b lt held => ?_) (fun b _ free held => free (locked b held).2)
    op (fun _ _ => full) (fun _ => exhausted) fun b disk' lt free _ puts => ?_
  · have high := lay.BBLOCK_lt lt
    have := (locked _ held).1
    omega
  · refine next b disk' ?_ puts
    rw [puts.block]
    exact allotted_of_balloc lay marked lt free

theorem holds_bmapAddr {post : Nat → Fs → Prop} (work : Working fs ip) (full : stops tooBig)
    (exhausted : stops outOfBlocks) (hit : (fs.icache ip).dinode.addrs.word i ≠ 0 →
      post ((fs.icache ip).dinode.addrs.word i) fs) (fresh : (fs.icache ip).dinode.addrs.word i = 0 → ∀ b disk',
      Allotted fs.disk.sb fs.disk.block disk'.block b → fs.disk.Puts disk' (ballocWrites fs.disk.sb fs.disk.block b) →
      post b ((fs.setInode ip ((fs.icache ip).setDinode ((fs.icache ip).dinode.setAddrs
        ((fs.icache ip).dinode.addrs.setWord i b)))).setDisk disk')) :
    Holds (bmapAddr ip i) fs post stops := by
  simp only [bmapAddr, holds_bind, holds_inode, holds_ite, holds_pure, holds_onDisk, holds_setAddr]
  refine ⟨fun empty => ?_, hit⟩
  refine holds_balloc_working work.layout work.owned.marked (by simp [work.unheld])
    work.opened full exhausted fun b disk' allotted puts => ?_
  exact fresh empty b disk' allotted puts

theorem holds_bmapEntry {indirect : Nat} {post : Nat → Disk → Prop} (lay : Layout disk.sb disk.fssize)
    (marked : ∀ b < disk.sb.dataStart, Used disk.sb disk.block b) (unheld : disk.held = [])
    (area : disk.sb.area indirect) (used : Used disk.sb disk.block indirect)
    (op : 0 < disk.log.outstanding) (full : stops tooBig) (exhausted : stops outOfBlocks)
    (hit : (disk.block indirect).word i ≠ 0 → post ((disk.block indirect).word i) disk)
    (fresh : (disk.block indirect).word i = 0 → ∀ b block' disk', Allotted disk.sb disk.block block' b →
      disk'.block = update block' indirect ((block' indirect).setWord i b) →
      disk.Puts disk' (ballocWrites disk.sb disk.block b ++
        [(indirect, (block' indirect).setWord i b)]) → post b disk') :
    Holds (bmapEntry indirect i) disk post stops := by
  have limits := lay.bounds
  have lt := area.2
  simp only [bmapEntry, holds_bind]
  rw [holds_bread (by simp [unheld]) (by omega), holds_ite]
  refine ⟨fun empty => ?_, fun has => ?_⟩
  · rw [holds_bind]
    refine holds_balloc_working lay marked ?_ op full exhausted fun b disk' allotted puts => ?_
    · intro c mem
      have eq : c = indirect := by simpa [unheld] using mem
      subst eq
      exact ⟨area.1, used⟩
    · simp only [holds_bind, store, holds_modify, brelse, holds_pure]
      have block : disk'.block = applyAll disk.block (ballocWrites disk.sb disk.block b) := puts.block
      have written : disk'.written = logAll disk.written (ballocWrites disk.sb disk.block b) :=
        puts.written
      refine holds_logWrite (by simpa [puts.outstanding] using op) (fun _ => full) fun log eq _ => ?_
      refine fresh empty b disk'.block _ allotted rfl ⟨?_, ?_, ?_, puts.sb, puts.fssize, ?_, puts.sections⟩
      · rw [applyAll_append, ← block]
        rfl
      · rw [logAll_append, ← written]
        rfl
      · simp [puts.held]
      · simpa [eq] using puts.outstanding
  · simp only [holds_bind, brelse, holds_modify, holds_pure, Disk.setHeld_held,
      erase_cons_head, Disk.setHeld_setHeld, Disk.setHeld_self]
    exact hit has

theorem entered_addr (work : Working fs ip) {b : Nat} {k : Option Nat}
    (position : k = some i ∧ i < NDIRECT ∨ k = none ∧ i = NDIRECT)
    (empty : (fs.icache ip).dinode.addrs.word i = 0) (allotted : Allotted fs.disk.sb fs.disk.block disk.block b)
    (puts : fs.disk.Puts disk (ballocWrites fs.disk.sb fs.disk.block b)) :
    Entered fs ((fs.setInode ip ((fs.icache ip).setDinode ((fs.icache ip).dinode.setAddrs
      ((fs.icache ip).dinode.addrs.setWord i b)))).setDisk disk) ip k b := by
  have steady := puts.steady allotted.low
  have ent : (∀ o, pointer (update (fs.view ip) (fs.icache ip).inum
        ((fs.icache ip).dinode.setAddrs ((fs.icache ip).dinode.addrs.setWord i b)))
        disk.block o = if o = ((fs.icache ip).inum, k) then b else fs.places ip o) ∧
      Owned fs.disk.sb (update (fs.view ip) (fs.icache ip).inum
        ((fs.icache ip).dinode.setAddrs ((fs.icache ip).dinode.addrs.setWord i b)))
        disk.block := by
    have small := work.layout.area_lt allotted.area
    rw [← view_self]
    refine work.owned.enter_addr work.layout allotted work.blockType ?_ fun o => ?_
    all_goals
      rw [view_self]
      rcases position with ⟨rfl, direct⟩ | ⟨rfl, rfl⟩
    · rw [blockOf_direct direct, empty]
    · exact empty
    · exact blockOf_setWord direct small o
    · exact blockOf_setIndirect empty small allotted.zeroed o
  obtain ⟨places, owned⟩ := ent
  have now := work.change steady owned
  refine ⟨now, ⟨_, _, rfl⟩, by simpa using steady, ?_, allotted.area, allotted.free, ?_, allotted.zeroed,
    fun c s0 ne _ => allotted.data c s0 ne, fun c => ?_⟩
  · rw [work.places_self]
    rcases position with ⟨rfl, direct⟩ | ⟨rfl, rfl⟩
    · rw [blockOf_direct direct, empty]
    · exact empty
  · intro o
    rw [Fs.places, view_change work.layout steady]
    exact places o
  · have unentered : ¬∃ bn, k = some bn ∧ NDIRECT ≤ bn ∧
        c = ((fs.setInode ip ((fs.icache ip).setDinode ((fs.icache ip).dinode.setAddrs
      ((fs.icache ip).dinode.addrs.setWord i b)))).setDisk disk).places ip ((fs.icache ip).inum, none) := by
      rintro ⟨bn, some_, low, _⟩
      rcases position with ⟨eq, direct⟩ | ⟨none_, _⟩
      · rw [eq] at some_
        cases some_
        omega
      · rw [none_] at some_
        cases some_
    rw [setDisk_disk, puts.written, mem_logAll]
    simp [ballocWrites, unentered, eq_comm, or_comm]

theorem entered_entry (work : Working fs ip) {b : Nat} {block' : Nat → Block} (low : NDIRECT ≤ bn)
    (high : bn < MAXFILE) (has : (fs.icache ip).dinode.addrs.word NDIRECT ≠ 0)
    (empty : fs.places ip ((fs.icache ip).inum, some bn) = 0)
    (allotted : Allotted fs.disk.sb fs.disk.block block' b)
    (block : disk.block = update block' ((fs.icache ip).dinode.addrs.word NDIRECT)
      ((block' ((fs.icache ip).dinode.addrs.word NDIRECT)).setWord (bn - NDIRECT) b))
    (puts : fs.disk.Puts disk (ballocWrites fs.disk.sb fs.disk.block b ++ [((fs.icache ip).dinode.addrs.word NDIRECT,
        (block' ((fs.icache ip).dinode.addrs.word NDIRECT)).setWord (bn - NDIRECT) b)])) :
    Entered fs (fs.setDisk disk) ip (some bn) b := by
  have limits := work.layout.bounds
  have named := work.places_none
  have s0 := (work.indirect has).1.1
  have ent := work.owned.enter_entry work.layout allotted work.blockType low high empty (by rwa [view_self])
  simp only [view_self, ← block] at ent
  obtain ⟨places, owned⟩ := ent
  have steady : fs.disk.Steady disk := puts.steady fun c below => by
    rw [block, update_of_ne (by omega), allotted.low c below]
  have view : (fs.setDisk disk).view ip = fs.view ip := view_setDisk work.layout steady
  have indirect : (fs.setDisk disk).places ip ((fs.icache ip).inum, none) =
      (fs.icache ip).dinode.addrs.word NDIRECT := by
    rw [Fs.places, view, setDisk_disk, places, if_neg (by simp)]
    exact named
  have ne : b ≠ (fs.icache ip).dinode.addrs.word NDIRECT := by
    rw [← named]
    exact (work.owned.owns.unowned allotted.area allotted.free _).symm
  refine ⟨work.store steady owned, .setDisk _ _ _, by simpa using steady, empty, allotted.area,
    allotted.free, ?_, ?_, fun c above o ent => ?_, fun c => ?_⟩
  · intro o
    rw [Fs.places, view]
    exact places o
  · rw [setDisk_disk, block, update_of_ne ne, allotted.zeroed]
  · rw [indirect] at ent
    rw [setDisk_disk, block, update_of_ne ent, allotted.data c above o]
  · rw [setDisk_disk, puts.written, mem_logAll, indirect]
    simp only [ballocWrites, cons_append, nil_append, mem_cons, not_mem_nil,
      or_false, exists_eq_or_imp, exists_eq_left, Option.some.injEq, exists_eq_left', low, true_and,
      eq_comm, or_left_comm]

theorem holds_bmap_entry {post : Nat → Fs → Prop} (work : Working fs ip) (low : NDIRECT ≤ bn)
    (high : bn < MAXFILE) (has : (fs.icache ip).dinode.addrs.word NDIRECT ≠ 0) (full : stops tooBig)
    (exhausted : stops outOfBlocks) (hit : fs.places ip ((fs.icache ip).inum, some bn) ≠ 0 →
      post (fs.places ip ((fs.icache ip).inum, some bn)) fs)
    (fresh : fs.places ip ((fs.icache ip).inum, some bn) = 0 → ∀ addr fs',
      Entered fs fs' ip (some bn) addr → post addr fs') :
    Holds (onDisk (bmapEntry ((fs.icache ip).dinode.addrs.word NDIRECT) (bn - NDIRECT))) fs post
      stops := by
  obtain ⟨area, used⟩ := work.indirect has
  have ent := work.places_self (some bn)
  rw [blockOf_entry low high has] at ent
  rw [ent] at hit fresh
  rw [holds_onDisk]
  exact holds_bmapEntry work.layout work.owned.marked work.unheld area used work.opened full
    exhausted hit fun zero b block' disk' allotted block puts => fresh zero b _
      (entered_entry work low high has (ent.trans zero) allotted block puts)

def Mapped (fs fs' : Fs) (sl : Slot) (bn addr : Nat) : Prop :=
  ∃ middle, (bn ≠ NDIRECT ∧ middle = fs ∨ bn = NDIRECT ∧ ∃ indirect, Entered fs middle sl none indirect) ∧
    Entered middle fs' sl (some bn) addr

theorem holds_bmap {n : Nat} {post : Nat → Fs → Prop} (work : Working fs ip)
    (has : Present (fs.places ip) (fs.icache ip).inum n) (high : bn < MAXFILE)
    (lt : bn ≤ n) (full : stops tooBig) (exhausted : stops outOfBlocks)
    (hit : bn < n → post (fs.places ip ((fs.icache ip).inum, some bn)) fs)
    (fresh : bn = n → ∀ addr fs', Mapped fs fs' ip bn addr → post addr fs') :
    Holds (bmap ip bn) fs post stops := by
  have file := has.file bn high
  by_cases direct : bn < NDIRECT
  · have named : fs.places ip ((fs.icache ip).inum, some bn) = (fs.icache ip).dinode.addrs.word bn := by
      rw [work.places_self, blockOf_direct direct]
    rw [named] at file hit
    rw [bmap, if_pos direct]
    refine holds_bmapAddr work full exhausted (fun nonzero => hit (file.mp nonzero))
      fun zero b disk allotted puts => ?_
    refine fresh (by omega) _ _ ⟨fs, .inl ⟨by omega, rfl⟩, ?_⟩
    exact entered_addr work (.inl ⟨rfl, direct⟩) zero allotted puts
  · have ent : bn - NDIRECT < NINDIRECT := by simp only [MAXFILE] at high; omega
    have indirect := has.indirect
    rw [work.places_none] at indirect
    rw [bmap, if_neg direct, if_pos ent, holds_bind]
    refine holds_bmapAddr work full exhausted (fun nonzero => ?_) fun zero b disk allotted puts => ?_
    · have many := indirect.mp nonzero
      exact holds_bmap_entry work (by omega) high nonzero full exhausted
        (fun here => hit (file.mp here)) fun absent addr fs' entered =>
        fresh (by omega) addr fs' ⟨fs, .inl ⟨by omega, rfl⟩, entered⟩
    · have few : ¬NDIRECT < n := fun many => indirect.mpr many zero
      have entered := entered_addr work (.inr ⟨rfl, rfl⟩) zero allotted puts
      generalize (fs.setInode ip ((fs.icache ip).setDinode ((fs.icache ip).dinode.setAddrs
        ((fs.icache ip).dinode.addrs.setWord NDIRECT b)))).setDisk disk = middle at entered ⊢
      have word : (middle.icache ip).dinode.addrs.word NDIRECT = b := by
        rw [← entered.working.places_none, entered.amends.inum, entered.places, if_pos rfl]
      have absent : middle.places ip ((middle.icache ip).inum, some bn) = 0 := by
        rw [entered.amends.inum, entered.places, if_neg (by simp)]
        exact not_not.mp fun here => few (by have := file.mp here; omega)
      have nonzero : b ≠ 0 := fun eq => work.layout.not_area_zero (eq ▸ allotted.area)
      rw [← word]
      exact holds_bmap_entry entered.working (by omega) high (word.trans_ne nonzero) full exhausted
        (fun here => absurd absent here) fun _ addr fs' last =>
        fresh (by omega) addr fs' ⟨middle, .inr ⟨by omega, b, entered⟩, last⟩

end

end Xv6
