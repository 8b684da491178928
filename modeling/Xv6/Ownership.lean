import Xv6.Truncate

/-! Block ownership: what it means for the whole file system to be well formed, and that the
operations on inodes with blocks keep it so. -/

namespace Xv6

open Exec Writes Owner Fs Inode Dinode Disk Function

def Fs.pointers (fs : Fs) : Nat × Option Nat → Nat :=
  pointer (table fs.disk.sb fs.disk.block) fs.disk.block

/-- The bitmap records exactly the block numbers of the inodes, none occurs twice, and each file has the
blocks its size calls for. -/
structure WellFormed (fs : Fs) : Prop where
  owns : Owns fs.pointers (Used fs.disk.sb fs.disk.block) fs.disk.sb.area
  present : ∀ inum, BlockType (table fs.disk.sb fs.disk.block inum).type →
    Present fs.pointers inum (blocksOf (table fs.disk.sb fs.disk.block inum).size.toNat)

/-- The disk has its layout, no buffer is locked, and the cache has one entry for an inode, which agrees
with the disk once it has been read in. -/
structure Coherent (fs : Fs) : Prop where
  layout : Layout fs.disk.sb fs.disk.fssize
  super : Superblock.ofBlock (fs.disk.block 1) = fs.disk.sb
  marked : ∀ b < fs.disk.sb.dataStart, Used fs.disk.sb fs.disk.block b
  unheld : fs.disk.held = []
  device : ∀ sl, 0 < (fs.icache sl).ref → (fs.icache sl).dev = ROOTDEV
  unique : ∀ sl other, 0 < (fs.icache sl).ref → 0 < (fs.icache other).ref →
    (fs.icache sl).inum = (fs.icache other).inum → sl = other
  loaded : ∀ sl, 0 < (fs.icache sl).ref → (fs.icache sl).valid = true →
    (fs.icache sl).dinode = table fs.disk.sb fs.disk.block (fs.icache sl).inum ∧ (fs.icache sl).dinode.type ≠ 0

structure Ambient (fs : Fs) : Prop extends Coherent fs where
  opened : 0 < fs.disk.log.outstanding

section

variable {fs : Fs} {sl : Slot}

theorem BlockType.ne_zero {type : BitVec 16} (typed : BlockType type) : type ≠ 0 := by
  rcases typed with rfl | rfl | rfl <;> decide

section

variable (coherent : Coherent fs) (refd : 0 < (fs.icache sl).ref) (valid : (fs.icache sl).valid = true)

include coherent refd valid

theorem Coherent.view : fs.view sl = table fs.disk.sb fs.disk.block := by
  rw [Fs.view, (coherent.loaded sl refd valid).1]
  exact update_eq_self _ _

theorem Coherent.places : fs.places sl = fs.pointers := by
  rw [Fs.places, coherent.view refd valid, Fs.pointers]

theorem Coherent.number : (fs.icache sl).inum < fs.disk.sb.ninodes := by
  obtain ⟨eq, typed⟩ := coherent.loaded sl refd valid
  rw [eq] at typed
  exact lt_of_table_type typed

end

section

variable (well : WellFormed fs) (refd : 0 < (fs.icache sl).ref)
  (valid : (fs.icache sl).valid = true) (typed : BlockType (fs.icache sl).dinode.type)

include well refd valid typed

theorem Coherent.legible (coherent : Coherent fs) : Legible fs sl := by
  refine ⟨coherent.layout, coherent.super, coherent.unheld, coherent.number refd valid, typed, ?_⟩
  rw [coherent.view refd valid]
  exact ⟨well.owns, coherent.marked⟩

theorem Ambient.working (env : Ambient fs) : Working fs sl :=
  ⟨env.legible well refd valid typed, env.opened⟩

theorem WellFormed.places (coherent : Coherent fs) :
    Present (fs.places sl) (fs.icache sl).inum (blocksOf (fs.icache sl).dinode.size.toNat) := by
  have eq := (coherent.loaded sl refd valid).1
  rw [eq] at typed
  rw [coherent.places refd valid, eq]
  exact well.present _ typed

end

end

section

variable {fs : Fs} {sl : Slot} {disk : Disk} {dinode : Dinode}

theorem Ambient.rewrite (env : Ambient fs) (refd : 0 < (fs.icache sl).ref)
    (sb : disk.sb = fs.disk.sb) (fssize : disk.fssize = fs.disk.fssize) (held : disk.held = [])
    (outstanding : disk.log.outstanding = fs.disk.log.outstanding) (super : disk.block 1 = fs.disk.block 1)
    (marked : ∀ b < fs.disk.sb.dataStart, Used fs.disk.sb disk.block b) (chg : table fs.disk.sb disk.block =
      update (table fs.disk.sb fs.disk.block) (fs.icache sl).inum dinode) (typed : dinode.type ≠ 0) :
    Ambient ((fs.setInode sl ((fs.icache sl).setDinode dinode)).setDisk disk) := by
  have fields : ∀ o, ((fs.setInode sl ((fs.icache sl).setDinode dinode)).icache o).ref = (fs.icache o).ref ∧
      ((fs.setInode sl ((fs.icache sl).setDinode dinode)).icache o).dev = (fs.icache o).dev ∧
      ((fs.setInode sl ((fs.icache sl).setDinode dinode)).icache o).inum = (fs.icache o).inum := by
    intro o
    by_cases eq : o = sl
    · rw [eq, setInode_same]
      exact ⟨rfl, rfl, rfl⟩
    · rw [setInode_ne _ _ _ eq]
      exact ⟨rfl, rfl, rfl⟩
  refine ⟨⟨?_, ?_, ?_, held, ?_, ?_, ?_⟩, by simpa [outstanding] using env.opened⟩
  · simpa [sb, fssize] using env.layout
  · simpa [sb, super] using env.super
  · simpa [sb] using marked
  · intro o
    simp only [setDisk_icache, fields o]
    exact env.device o
  · intro fst snd
    simp only [setDisk_icache, fields fst, fields snd]
    exact env.unique fst snd
  · intro o
    simp only [setDisk_icache, setDisk_disk, fields o, sb, chg]
    by_cases eq : o = sl
    · subst eq
      rw [setInode_same, setDinode_dinode, update_self]
      exact fun _ _ => ⟨rfl, typed⟩
    · rw [setInode_ne _ _ _ eq]
      intro otherReferenced valid
      have ne : (fs.icache o).inum ≠ (fs.icache sl).inum := fun clash =>
        eq (env.unique o sl otherReferenced refd clash)
      rw [update_of_ne ne]
      exact env.loaded o otherReferenced valid

theorem WellFormed.rewrite {fs' : Fs} {inum : Nat} (well : WellFormed fs) (sb : fs'.disk.sb = fs.disk.sb)
    (owned : Owned fs.disk.sb (table fs.disk.sb fs'.disk.block) fs'.disk.block)
    (chg : table fs.disk.sb fs'.disk.block = update (table fs.disk.sb fs.disk.block) inum dinode)
    (others : ∀ k, k.1 ≠ inum → pointer (table fs.disk.sb fs'.disk.block) fs'.disk.block k = fs.pointers k)
    (has : BlockType dinode.type → Present (pointer (table fs.disk.sb fs'.disk.block) fs'.disk.block) inum
        (blocksOf dinode.size.toNat)) : WellFormed fs' := by
  refine ⟨?_, fun o typed => ?_⟩
  · rw [Fs.pointers, sb]
    exact owned.owns
  · rw [Fs.pointers, sb] at *
    by_cases eq : o = inum
    · subst eq
      rw [chg, update_self] at typed ⊢
      rw [← chg]
      exact has typed
    · rw [chg, update_of_ne eq] at typed ⊢
      have pre := well.present o typed
      rw [← chg]
      refine ⟨pre.limit, fun bn lt => ?_, ?_⟩
      · rw [others _ eq]
        exact pre.file bn lt
      · rw [others _ eq]
        exact pre.indirect

theorem pointer_setSize (dinodes : Nat → Dinode) (block : Nat → Block) (inum : Nat) (size : BitVec 32) :
    pointer (update dinodes inum (dinode.setSize size)) block = pointer (update dinodes inum dinode) block := by
  funext k
  obtain ⟨o, k⟩ := k
  rw [pointer_update_dinode, pointer_update_dinode]
  cases k <;> rfl

end

section

variable {fs s0 : Fs} {sl : Slot} {stops : Stop → Prop} {n : Nat}

theorem wellFormed_idle (well : WellFormed s0) (env : Ambient s0)
    (refd : 0 < (s0.icache sl).ref) (valid : (s0.icache sl).valid = true)
    (typed : BlockType (s0.icache sl).dinode.type) (extended : Extended s0 sl n fs n)
    (has : Present (fs.places sl) (s0.icache sl).inum
      (blocksOf (s0.icache sl).dinode.size.toNat)) : WellFormed fs ∧ Ambient fs := by
  have same := (env.loaded sl refd valid).1
  obtain ⟨work, amends, steady, _, others, _, idle⟩ := extended
  have dinode := idle rfl
  have low := table_congr env.layout steady.low
  have chg : table s0.disk.sb fs.disk.block = update
      (table s0.disk.sb s0.disk.block) (s0.icache sl).inum (s0.icache sl).dinode := by
    rw [low, same, update_eq_self]
  have view : fs.view sl = table s0.disk.sb fs.disk.block := by
    rw [Fs.view, amends.inum, dinode, steady.sb, chg, update_idem]
  have rebuilt : fs = (s0.setInode sl ((s0.icache sl).setDinode (s0.icache sl).dinode)).setDisk fs.disk := by
    obtain ⟨addrs, disk, rfl⟩ := amends
    simp only [setDisk_icache, setInode_same, setDinode_dinode] at dinode
    rw [dinode]
    rfl
  have owned := work.owned
  rw [view, steady.sb] at owned
  have limits := env.layout.bounds
  constructor
  · refine well.rewrite steady.sb owned chg (fun k o => ?_) fun _ => ?_
    · rw [← view, ← env.places refd valid]
      exact others k o
    · rw [← view]
      exact has
  · rw [rebuilt]
    exact env.rewrite refd steady.sb steady.fssize (steady.held.trans env.unheld)
      steady.outstanding (steady.low 1 (by omega)) owned.marked chg typed.ne_zero

theorem wellFormed_grown {size : BitVec 32} {disk : Disk} (well : WellFormed s0)
    (env : Ambient s0) (refd : 0 < (s0.icache sl).ref)
    (valid : (s0.icache sl).valid = true) (typed : BlockType (s0.icache sl).dinode.type)
    (extended : Extended s0 sl n fs (blocksOf size.toNat))
    (puts : fs.disk.Puts disk [iupdateWrite fs.disk.sb fs.disk.block (fs.icache sl).inum
      ((fs.icache sl).dinode.setSize size)]) : let fs' := (fs.setInode sl ((fs.icache sl).setDinode
      ((fs.icache sl).dinode.setSize size))).setDisk disk
    (WellFormed fs' ∧ Ambient fs') ∧ fs'.pointers = fs.places sl ∧
      table s0.disk.sb disk.block = update (table s0.disk.sb s0.disk.block)
        (s0.icache sl).inum ((fs.icache sl).dinode.setSize size) := by
  intro fs'
  obtain ⟨work, amends, steady, present, others, _, _⟩ := extended
  have num := env.number refd valid
  have limits := env.layout.bounds
  have below := env.layout.IBLOCK_lt num
  have above := env.layout.one_lt_IBLOCK num
  have block := puts.block
  rw [iupdateWrite, applyAll_cons, applyAll_nil, steady.sb, amends.inum] at block
  have chg : table s0.disk.sb disk.block = update
      (table s0.disk.sb s0.disk.block) (s0.icache sl).inum ((fs.icache sl).dinode.setSize size) := by
    rw [block, table_save env.layout num, table_congr env.layout steady.low]
  have unused : ∀ inum, fs.places sl (inum, none) ≠ 0 →
      fs.places sl (inum, none) ≠ IBLOCK (s0.icache sl).inum s0.disk.sb := by
    intro inum nonzero
    have area := (work.area nonzero).1
    rw [steady.sb] at area
    omega
  have stored : pointer (fs.view sl) disk.block = fs.places sl ∧ Owned fs.disk.sb (fs.view sl) disk.block := by
    rw [block]
    exact work.owned.store work.layout (.inl (steady.sb ▸ below)) unused
  have places : pointer (table s0.disk.sb disk.block) disk.block = fs.places sl := by
    rw [chg, pointer_setSize, ← stored.1, Fs.view, steady.sb, amends.inum, table_congr env.layout steady.low]
  have owned : Owned s0.disk.sb (table s0.disk.sb disk.block) disk.block := by
    have pre := stored.2
    rw [steady.sb] at pre
    exact pre.congr (places.trans stored.1.symm) fun _ _ => Iff.rfl
  have rebuilt : fs' = (s0.setInode sl ((s0.icache sl).setDinode
      ((fs.icache sl).dinode.setSize size))).setDisk disk := by
    obtain ⟨addrs, _, rfl⟩ := amends
    simp [fs', setInode, setDisk, setDinode]
  have typed' : BlockType ((fs.icache sl).dinode.setSize size).type := by
    rw [amends.dinode]
    exact typed
  have final : fs'.pointers = fs.places sl := by
    rw [Fs.pointers, setDisk_disk, puts.sb.trans steady.sb]
    exact places
  refine ⟨⟨?_, ?_⟩, final, chg⟩
  · refine well.rewrite (puts.sb.trans steady.sb) owned chg (fun k o => ?_) fun _ => ?_
    · rw [← env.places refd valid]
      exact (congrFun places k).trans (others k o)
    · exact places.symm ▸ present
  · rw [rebuilt]
    exact env.rewrite refd (puts.sb.trans steady.sb) (puts.fssize.trans steady.fssize)
      (puts.held.trans (steady.held.trans env.unheld)) (puts.outstanding.trans steady.outstanding)
      (by rw [block, update_of_ne (by omega), steady.low 1 (by omega)]) owned.marked chg typed'.ne_zero

theorem holds_writei_wellFormed {src : Nat → UInt8} {off n : BitVec 32} (well : WellFormed fs)
    (env : Ambient fs) (refd : 0 < (fs.icache sl).ref)
    (valid : (fs.icache sl).valid = true) (typed : BlockType (fs.icache sl).dinode.type)
    (full : stops tooBig) (exhausted : stops outOfBlocks) :
    Holds (writei sl src off n) fs (fun _ fs' => WellFormed fs' ∧ Ambient fs') stops := by
  refine holds_writei_blocks (fun _ _ => True) (env.working well refd valid typed)
    (well.places refd valid typed env.toCoherent) full exhausted (fun _ _ _ _ _ _ _ _ _ _ _ => trivial)
    trivial (fun _ => ⟨well, env⟩) (fun _ _ fs' extended _ => ?_) fun _ _ fs' disk extended _ puts => ?_
  · exact wellFormed_idle well env refd valid typed extended extended.present
  · exact (wellFormed_grown well env refd valid typed extended puts).1

end

section

variable {fs : Fs} {sl : Slot} {stops : Stop → Prop} {ip : Inode} {inum : Nat} {dinode : Dinode}
  {disk : Disk} {type : BitVec 16}

theorem WellFormed.of_disk {fs' : Fs} (well : WellFormed fs) (eq : fs'.disk = fs.disk) : WellFormed fs' := by
  obtain ⟨owns, has⟩ := well
  constructor
  · rw [Fs.pointers, eq]
    exact owns
  · rw [Fs.pointers, eq]
    exact has

section

variable (coherent : Coherent fs)

include coherent

theorem Coherent.setInode (device : 0 < ip.ref → ip.dev = ROOTDEV)
    (unique : 0 < ip.ref → ∀ o, o ≠ sl → 0 < (fs.icache o).ref →
      (fs.icache o).inum ≠ ip.inum) (loaded : 0 < ip.ref → ip.valid = true →
      ip.dinode = table fs.disk.sb fs.disk.block ip.inum ∧ ip.dinode.type ≠ 0) : Coherent (fs.setInode sl ip) := by
  refine ⟨coherent.layout, coherent.super, coherent.marked, coherent.unheld,
    fun o => ?_, fun fst snd => ?_, fun o => ?_⟩
  · by_cases eq : o = sl
    · rw [eq, setInode_same]
      exact device
    · rw [setInode_ne _ _ _ eq]
      exact coherent.device o
  · by_cases left : fst = sl <;> by_cases right : snd = sl
    · exact fun _ _ _ => left.trans right.symm
    · rw [left, setInode_same, setInode_ne _ _ _ right]
      exact fun live otherLive clash => absurd clash.symm (unique live snd right otherLive)
    · rw [right, setInode_same, setInode_ne _ _ _ left]
      exact fun otherLive live clash => absurd clash (unique live fst left otherLive)
    · rw [setInode_ne _ _ _ left, setInode_ne _ _ _ right]
      exact coherent.unique fst snd
  · by_cases eq : o = sl
    · rw [eq, setInode_same]
      exact loaded
    · rw [setInode_ne _ _ _ eq]
      exact coherent.loaded o

theorem Coherent.reenter (refd : 0 < (fs.icache sl).ref) (dev : ip.dev = (fs.icache sl).dev)
    (inum : ip.inum = (fs.icache sl).inum) (loaded : ip.valid = true →
      ip.dinode = table fs.disk.sb fs.disk.block (fs.icache sl).inum ∧ ip.dinode.type ≠ 0) :
    Coherent (fs.setInode sl ip) := by
  refine coherent.setInode (fun _ => dev.trans (coherent.device sl refd))
    (fun _ o ne live clash => ?_) (fun _ valid => inum ▸ loaded valid)
  exact ne (coherent.unique o sl live refd (clash.trans inum))

theorem Coherent.reference (refd : 0 < (fs.icache sl).ref) (ref : Int) :
    Coherent (fs.setInode sl ((fs.icache sl).setRef ref)) :=
  coherent.reenter refd rfl rfl fun valid => coherent.loaded sl refd valid

theorem holds_iget_coherent {post : Slot → Fs → Prop} (full : stops noInodes)
    (next : ∀ sl fs', Coherent fs' → fs'.disk = fs.disk → post sl fs') :
    Holds (iget ROOTDEV inum) fs post stops := by
  refine holds_iget (fun _ => full) (fun sl refd _ _ => ?_) fun absent sl _ => ?_
  · exact next _ _ (coherent.reference refd _) rfl
  · refine next _ _ (coherent.setInode (fun _ => rfl) (fun _ o _ live clash => ?_) ?_) rfl
    · exact absent o ⟨live, coherent.device o live, clash⟩
    · intro _ valid
      simp [Inode.valid] at valid

end

section

variable (well : WellFormed fs) (env : Ambient fs)

include well env

theorem WellFormed.resave (lt : inum < fs.disk.sb.ninodes)
    (puts : fs.disk.Puts disk [iupdateWrite fs.disk.sb fs.disk.block inum dinode])
    (places : ∀ k, (if BlockType dinode.type then blockOf dinode fs.disk.block k else 0) = fs.pointers (inum, k))
    (has : BlockType dinode.type → Present fs.pointers inum (blocksOf dinode.size.toNat)) :
    WellFormed (fs.setDisk disk) ∧ (fs.setDisk disk).pointers = fs.pointers ∧
      table fs.disk.sb disk.block = update (table fs.disk.sb fs.disk.block) inum dinode ∧
      (∀ b, b ≠ IBLOCK inum fs.disk.sb → disk.block b = fs.disk.block b) ∧
      ∀ b < fs.disk.sb.dataStart, Used fs.disk.sb disk.block b := by
  have below := env.layout.IBLOCK_lt lt
  have limits := env.layout.bounds
  have block := puts.block
  rw [iupdateWrite, applyAll_cons, applyAll_nil] at block
  have chg : table fs.disk.sb disk.block = update (table fs.disk.sb fs.disk.block) inum dinode := by
    rw [block, table_save env.layout lt]
  have owned : Owned fs.disk.sb (table fs.disk.sb fs.disk.block) fs.disk.block :=
    ⟨well.owns, env.marked⟩
  have stored : pointer (table fs.disk.sb fs.disk.block) disk.block = fs.pointers ∧
      Owned fs.disk.sb (table fs.disk.sb fs.disk.block) disk.block := by
    rw [block]
    refine owned.store env.layout (.inl below) fun o nonzero => ?_
    have := (owned.area nonzero).1
    omega
  have indirect : ∀ k, blockOf dinode disk.block k = blockOf dinode fs.disk.block k ∨ ¬BlockType dinode.type := by
    intro k
    by_cases typed : BlockType dinode.type
    · left
      refine blockOf_congr (fun has => ?_) k
      have here := places none
      rw [if_pos typed, blockOf] at here
      have area := (owned.area (show fs.pointers (inum, none) ≠ 0 from here ▸ has)).1
      rw [← Fs.pointers, ← here] at area
      rw [block, update_of_ne (by omega)]
    · exact .inr typed
  have eq : pointer (table fs.disk.sb disk.block) disk.block = fs.pointers := by
    funext k
    obtain ⟨o, k⟩ := k
    rw [chg, pointer_update_dinode, stored.1]
    by_cases here : o = inum
    · rw [if_pos here, here, ← places k]
      rcases indirect k with equal | untyped
      · rw [equal]
      · rw [if_neg untyped, if_neg untyped]
    · rw [if_neg here]
  have owned' : Owned fs.disk.sb (table fs.disk.sb disk.block) disk.block :=
    stored.2.congr (eq.trans stored.1.symm) fun _ _ => Iff.rfl
  refine ⟨?_, ?_, chg, fun b ne => ?_, owned'.marked⟩
  · refine well.rewrite puts.sb owned' chg (fun k _ => congrFun eq k) fun typed => ?_
    rw [setDisk_disk, eq]
    exact has typed
  · rw [Fs.pointers, setDisk_disk, puts.sb]
    exact eq
  · rw [block, update_of_ne ne]

theorem ialloc_wellFormed (lt : inum < fs.disk.sb.ninodes) (free : (dinodeAt fs.disk.sb fs.disk.block inum).type = 0)
    (puts : fs.disk.Puts disk [iupdateWrite fs.disk.sb fs.disk.block inum (fresh type)]) :
    WellFormed (fs.setDisk disk) ∧ Ambient (fs.setDisk disk) ∧ (∀ k, fs.pointers (inum, k) = 0) ∧
      (fs.setDisk disk).pointers = fs.pointers ∧
      table fs.disk.sb disk.block = update (table fs.disk.sb fs.disk.block) inum (fresh type) ∧
      ∀ b, b ≠ IBLOCK inum fs.disk.sb → disk.block b = fs.disk.block b := by
  have above := env.layout.one_lt_IBLOCK lt
  have untyped : ¬BlockType (table fs.disk.sb fs.disk.block inum).type := fun typed =>
    typed.ne_zero (by rw [table_of_lt lt, free])
  have none : ∀ k, fs.pointers (inum, k) = 0 := pointer_of_not_type untyped
  have empty : blocksOf (fresh type).size.toNat = 0 := by
    simp [blocksOf, fresh, BSIZE]
  obtain ⟨well', pointers, chg, rest, marked⟩ := well.resave env lt puts
    (fun k => by rw [none, blockOf_fresh, ite_self]) fun _ =>
      empty ▸ ⟨Nat.zero_le _, fun bn _ => by simp [none], by simp [none]⟩
  refine ⟨well', ⟨⟨?_, ?_, ?_, puts.held.trans env.unheld, env.device, env.unique, ?_⟩,
    by simpa [puts.outstanding] using env.opened⟩, none, pointers, chg, rest⟩
  · simpa [puts.sb, puts.fssize] using env.layout
  · simpa [puts.sb, rest 1 (by omega)] using env.super
  · simpa [puts.sb] using marked
  · intro sl refd valid
    obtain ⟨eq, typed⟩ := env.loaded sl refd valid
    have ne : (fs.icache sl).inum ≠ inum := by
      intro clash
      rw [eq, clash, table_of_lt lt] at typed
      exact typed free
    rw [setDisk_disk, setDisk_icache, puts.sb, chg, update_of_ne ne]
    exact ⟨eq, typed⟩

theorem holds_ialloc_wellFormed (full : stops tooBig) (exhausted : stops noFreeInode) (crowded : stops noInodes) :
    Holds (ialloc ROOTDEV type) fs (fun _ fs' => WellFormed fs' ∧ Ambient fs') stops := by
  refine holds_ialloc env.layout (by simp [env.unheld]) env.opened full exhausted fun inum disk _ lt free puts => ?_
  obtain ⟨well', env', _⟩ := ialloc_wellFormed well env lt free puts
  exact holds_iget_coherent env'.toCoherent crowded fun sl fs' after eq =>
    ⟨well'.of_disk eq, after, eq ▸ env'.opened⟩

end

theorem iput_wellFormed {start : Fs} {fst snd : Disk} (well : WellFormed start)
    (env : Ambient start) (refd : 0 < (start.icache sl).ref)
    (valid : (start.icache sl).valid = true) (emptied : Emptied start sl fs) {final : Dinode}
    (one : fs.disk.Puts fst [iupdateWrite fs.disk.sb fs.disk.block (start.icache sl).inum dinode])
    (two : fst.Puts snd [iupdateWrite fst.sb fst.block (start.icache sl).inum final])
    (untyped : final.type = 0) (ip : Inode) (unreferenced : ip.ref = 0) :
    (WellFormed ((fs.setInode sl ip).setDisk snd) ∧ Ambient ((fs.setInode sl ip).setDisk snd)) ∧
    pointer (table start.disk.sb snd.block) snd.block =
      dropped start.pointers (start.icache sl).inum (fun _ => true) ∧ table start.disk.sb snd.block =
      update (table start.disk.sb start.disk.block) (start.icache sl).inum final ∧
    ∀ b, start.disk.sb.dataStart ≤ b → snd.block b = start.disk.block b := by
  have num := env.number refd valid
  have limits := env.layout.bounds
  have below := env.layout.IBLOCK_lt num
  have above := env.layout.one_lt_IBLOCK num
  obtain ⟨amends, releases, unheld, _⟩ := emptied
  have sb1 := one.sb.trans releases.sb
  have sb2 := two.sb.trans sb1
  have block1 := one.block
  have block2 := two.block
  rw [iupdateWrite, applyAll_cons, applyAll_nil, releases.sb] at block1
  rw [iupdateWrite, applyAll_cons, applyAll_nil, sb1] at block2
  have rest : ∀ b, b ≠ IBLOCK (start.icache sl).inum start.disk.sb → snd.block b = fs.disk.block b := by
    intro b ne
    rw [block2, update_of_ne ne, block1, update_of_ne ne]
  have chg : table start.disk.sb snd.block =
      update (table start.disk.sb start.disk.block) (start.icache sl).inum final := by
    rw [block2, table_save env.layout num, block1, table_save env.layout num,
      update_idem, table_congr env.layout fun b low => releases.block b (.inl low)]
  have owned : Owned start.disk.sb (table start.disk.sb start.disk.block) start.disk.block :=
    ⟨well.owns, env.marked⟩
  have others : pointer (table start.disk.sb start.disk.block) snd.block = start.pointers := by
    refine pointer_congr fun inum has => ?_
    have area := (owned.area has).1
    rw [rest _ (by omega), releases.block _ (.inr area)]
  have places : pointer (table start.disk.sb snd.block) snd.block =
      dropped (start.places sl) (start.icache sl).inum fun _ => true := by
    funext k
    obtain ⟨o, k⟩ := k
    rw [chg, pointer_update_dinode, others, env.places refd valid]
    have noType : ¬BlockType final.type := fun typed => typed.ne_zero untyped
    by_cases here : o = (start.icache sl).inum <;> simp [here, dropped, noType]
  have used : ∀ b < start.disk.sb.size, (Used start.disk.sb snd.block b ↔ Used start.disk.sb fs.disk.block b) := by
    intro b inside
    have low := env.layout.le_BBLOCK inside
    rw [Used, Used, rest _ (by omega)]
  have after : Owned start.disk.sb (table start.disk.sb snd.block) snd.block := by
    constructor
    · rw [places]
      exact releases.owns.congr (fun _ => rfl) fun b inside => used b inside.2
    · exact fun b inside => (used b (by omega)).mpr (releases.marked b inside)
  refine ⟨⟨?_, ?_⟩, env.places refd valid ▸ places, chg, fun b area => ?_⟩
  · refine well.rewrite sb2 after chg (fun k o => ?_) fun typed => ?_
    · rw [setDisk_disk, places, dropped, if_neg (by simp [o]), env.places refd valid]
    · exact absurd untyped typed.ne_zero
  · have entries : ∀ o, 0 < (((fs.setInode sl ip).setDisk snd).icache o).ref →
        o ≠ sl ∧ ((fs.setInode sl ip).setDisk snd).icache o = start.icache o := by
      intro o live
      by_cases eq : o = sl
      · rw [eq, setDisk_icache, setInode_same, unreferenced] at live
        omega
      · exact ⟨eq, by rw [setDisk_icache, setInode_ne _ _ _ eq, amends.other eq]⟩
    refine ⟨⟨?_, ?_, ?_, two.held.trans (one.held.trans unheld), ?_, ?_, ?_⟩,
      by simpa [two.outstanding, one.outstanding, releases.outstanding] using env.opened⟩
    · simpa [sb2, two.fssize, one.fssize, releases.fssize] using env.layout
    · simpa [sb2, rest 1 (by omega), releases.block 1 (.inl (by omega))] using env.super
    · simpa [sb2] using after.marked
    · intro o live
      have eq := (entries o live).2
      rw [eq] at live ⊢
      exact env.device o live
    · intro left right leftLive rightLive clash
      have leftSame := (entries left leftLive).2
      have rightSame := (entries right rightLive).2
      rw [leftSame] at leftLive clash
      rw [rightSame] at rightLive clash
      exact env.unique left right leftLive rightLive clash
    · intro o live otherValid
      obtain ⟨ne, eq⟩ := entries o live
      rw [eq] at live otherValid ⊢
      have num : (start.icache o).inum ≠ (start.icache sl).inum := fun clash =>
        ne (env.unique o sl live refd clash)
      rw [setDisk_disk, sb2, chg, update_of_ne num]
      exact env.loaded o live otherValid
  · rw [rest b (by omega), releases.block b (.inr area)]

structure Vacated (fs fs' : Fs) (sl : Slot) : Prop where
  well : WellFormed fs'
  ambient : Ambient fs'
  other : ∀ other, other ≠ sl → fs'.icache other = fs.icache other
  ref : (fs'.icache sl).ref = 0
  inum : (fs'.icache sl).inum = (fs.icache sl).inum
  sb : fs'.disk.sb = fs.disk.sb
  fssize : fs'.disk.fssize = fs.disk.fssize
  outstanding : fs'.disk.log.outstanding = fs.disk.log.outstanding
  dinode : ∃ final : Dinode, final.type = 0 ∧ final.nlink = 0 ∧ final.size = 0 ∧
    final.addrs = Bytes.zero ∧ table fs.disk.sb fs'.disk.block =
      update (table fs.disk.sb fs.disk.block) (fs.icache sl).inum final
  pointers : fs'.pointers = dropped fs.pointers (fs.icache sl).inum fun _ => true
  data : ∀ b, fs.disk.sb.dataStart ≤ b → fs'.disk.block b = fs.disk.block b

section

variable (well : WellFormed fs) (env : Ambient fs)

include well env

theorem Emptied.of_plain (refd : 0 < (fs.icache sl).ref) (valid : (fs.icache sl).valid = true)
    (untyped : ¬BlockType (fs.icache sl).dinode.type) (zero : (fs.icache sl).dinode.addrs = Bytes.zero) :
    Emptied fs sl fs := by
  refine ⟨.refl fs sl, ⟨rfl, rfl, rfl, rfl, fun _ _ => rfl, ?_, env.marked⟩, env.unheld, zero⟩
  have eq := (env.loaded sl refd valid).1
  rw [eq] at untyped
  refine well.owns.congr (fun k => ?_) fun _ _ => Iff.rfl
  rw [dropped, env.places refd valid]
  split
  · rename_i here
    obtain ⟨inum, k⟩ := k
    rw [show inum = (fs.icache sl).inum from here.1]
    exact (pointer_of_not_type untyped k).symm
  · rfl

theorem holds_itrunc_emptied (refd : 0 < (fs.icache sl).ref) (valid : (fs.icache sl).valid = true)
    (kind : BlockType (fs.icache sl).dinode.type ∨ (fs.icache sl).dinode.addrs = Bytes.zero)
    (full : stops tooBig) : Holds (itruncDirect sl) fs (fun _ fs1 =>
      Holds (itruncIndirect sl) fs1 (fun _ fs2 => Emptied fs sl fs2) stops) stops := by
  by_cases typed : BlockType (fs.icache sl).dinode.type
  · have work := env.working well refd valid typed
    refine (holds_itruncDirect work full).conseq fun _ fs1 truncating => ?_
    exact holds_itruncIndirect work full truncating
  · have zero := kind.resolve_left typed
    have direct : Holds (itruncDirect sl) fs (fun _ fs1 => fs1 = fs) stops := by
      rw [itruncDirect]
      refine Holds.upto (fun _ fs1 => fs1 = fs) rfl fun i fs1 _ eq => ?_
      subst eq
      simp [holds_onlyIf, zero]
    refine direct.conseq fun _ fs1 eq => ?_
    subst eq
    simp only [itruncIndirect, holds_bind, holds_inode, holds_onlyIf]
    refine ⟨fun has => absurd (by simp [zero]) has, fun _ => ?_⟩
    exact .of_plain well env refd valid typed zero

theorem holds_iput_freed {post : Unit → Fs → Prop} (last : (fs.icache sl).ref = 1)
    (valid : (fs.icache sl).valid = true) (cut : (fs.icache sl).dinode.nlink = 0)
    (kind : BlockType (fs.icache sl).dinode.type ∨ (fs.icache sl).dinode.addrs = Bytes.zero)
    (full : stops tooBig) (next : ∀ fs', Vacated fs fs' sl → post () fs') : Holds (iput sl) fs post stops := by
  have refd : 0 < (fs.icache sl).ref := by omega
  have num := env.number refd valid
  have limits := env.layout.bounds
  have below := env.layout.IBLOCK_lt num
  have free : (fs.icache sl).ref = 1 ∧ (fs.icache sl).valid ∧ (fs.icache sl).dinode.nlink = 0 :=
    ⟨last, valid, cut⟩
  simp only [iput, holds_bind, holds_inode, holds_onlyIf, free, true_implies, not_true_eq_false,
    false_implies, and_true, and_self, ifree, itrunc, holds_modifyDinode, holds_modifyInode]
  refine (holds_itrunc_emptied well env refd valid kind full).conseq fun _ fs1 indirect => ?_
  refine indirect.conseq fun _ fs2 emptied => ?_
  have inum := emptied.amends.inum
  have sb := emptied.releases.sb
  have fssize := emptied.releases.fssize
  have op := env.opened
  rw [← emptied.releases.outstanding] at op
  refine holds_iupdate ?_ ?_ op full fun disk1 one => ?_
  · simp [emptied.unheld]
  · simp only [setInode_same, setDinode_inum, setInode_disk, inum, sb]
    omega
  simp only [setInode_same, setDinode_inum, setInode_disk, setDinode_dinode, inum] at one
  refine holds_iupdate ?_ ?_ (one.outstanding.symm ▸ op) full fun disk2 two => ?_
  · simp [one.held, emptied.unheld]
  · simp only [setInode_same, setDinode_inum, setInode_disk, setDisk_disk, setDisk_icache, inum, sb, one.sb, one.fssize]
    omega
  simp only [setInode_same, setDinode_inum, setInode_disk, setDinode_dinode, setDisk_disk, setDisk_icache, inum] at two
  simp only [setDisk_setInode, setInode_setInode, setDisk_setDisk, setDisk_icache,
    setInode_same, setDinode_dinode, setDinode_setDinode, setFlags_ref, setDinode_ref]
  have sb2 : disk2.sb = fs.disk.sb := two.sb.trans (one.sb.trans sb)
  obtain ⟨⟨well', env'⟩, places, chg, data⟩ := iput_wellFormed well env refd valid
    emptied one two rfl ((((fs2.icache sl).setDinode
      (((fs2.icache sl).dinode.setSize 0).setType 0)).setFlags 0).setRef ((fs2.icache sl).ref - 1))
    (by simp [emptied.amends.ref, last])
  refine next _ ⟨well', env', fun o ne => ?_, ?_, ?_, sb2, ?_, ?_,
    ⟨((fs2.icache sl).dinode.setSize 0).setType 0, rfl, ?_, rfl, emptied.addrs, chg⟩, ?_, data⟩
  · rw [setDisk_icache, setInode_ne _ _ _ ne, emptied.amends.other ne]
  · simp [emptied.amends.ref, last]
  · simp [inum]
  · exact two.fssize.trans (one.fssize.trans fssize)
  · exact two.outstanding.trans (one.outstanding.trans emptied.releases.outstanding)
  · rw [setType_nlink, setSize_nlink, emptied.amends.dinode]
    exact cut
  · rw [Fs.pointers, setDisk_disk, sb2]
    exact places

end

end

def Exhausted (reason : Stop) : Prop :=
  reason = outOfBlocks ∨ reason = noFreeInode ∨ reason = noInodes ∨ reason = tooBig

/-- Writing to an inode with blocks, freeing one and allocating one keep a state well formed unless they
stop for want of room; reading changes nothing. -/
theorem block_ownership_kept (fs : Fs) (well : WellFormed fs) (ambient : Ambient fs) :
    (∀ sl, 0 < (fs.icache sl).ref → (fs.icache sl).valid = true → BlockType (fs.icache sl).dinode.type →
      (∀ src off n, Holds (writei sl src off n) fs (fun _ fs' => WellFormed fs' ∧ Ambient fs') Exhausted) ∧
      (∀ off n, Holds (readi sl off n) fs (fun _ fs' => fs' = fs) fun _ => False) ∧
      ((fs.icache sl).ref = 1 → (fs.icache sl).dinode.nlink = 0 →
        Holds (iput sl) fs (fun _ fs' => WellFormed fs' ∧ Ambient fs') Exhausted)) ∧
    ∀ type, Holds (ialloc ROOTDEV type) fs (fun _ fs' => WellFormed fs' ∧ Ambient fs') Exhausted := by
  refine ⟨fun sl referenced valid typed => ⟨fun src off n => ?_, fun off n => ?_,
    fun last unlinked => ?_⟩, fun type => ?_⟩
  · exact holds_writei_wellFormed well ambient referenced valid typed (by simp [Exhausted]) (by simp [Exhausted])
  · exact holds_readi_blocks (ambient.legible well referenced valid typed)
      (well.places referenced valid typed ambient.toCoherent) (fun _ => rfl) fun _ => rfl
  · exact holds_iput_freed well ambient last valid unlinked (Or.inl typed) (by simp [Exhausted])
      fun fs' vacated => ⟨vacated.well, vacated.ambient⟩
  · exact holds_ialloc_wellFormed well ambient (by simp [Exhausted]) (by simp [Exhausted]) (by simp [Exhausted])

def fileFs (bitmap : Block) : Fs :=
  let disk := Disk.blank.inOp.setBlock mkfsSb.bmapstart bitmap
  let ip : Inode := ⟨ROOTDEV, 2, 1, 0, Bytes.zero, I_VALID, Dinode.fresh T_FILE⟩
  ((Fs.boot disk).setInode 0 ip).setDisk
    (disk.setBlock (IBLOCK 2 mkfsSb) ((Dinode.fresh T_FILE).save (2 % IPB) Bytes.zero))

def markedBitmap : Block := Bytes.ofFn fun place => if place < 7 then 255 else if place = 7 then 7 else 0

theorem blank_table (inum : Nat) : (table mkfsSb blank.block inum).type = 0 := by
  by_cases lt : inum < mkfsSb.ninodes
  · have above := mkfs_layout.one_lt_IBLOCK lt
    have zero : blank.block (IBLOCK inum mkfsSb) = Bytes.zero := if_neg (by omega)
    rw [table_of_lt lt, dinodeAt, zero]
    simp [load, Dinode.ofBytes, halfOf]
  · rw [table, if_neg lt]
    rfl

def Disk.blankWith (bitmap : Block) : Disk := Disk.blank.setBlock mkfsSb.bmapstart bitmap

structure Formatted (bitmap : Block) (disk : Disk) : Prop where
  sb : disk.sb = mkfsSb
  fssize : disk.fssize = FSSIZE
  held : disk.held = []
  low : ∀ b < mkfsSb.dataStart, disk.block b = (Disk.blankWith bitmap).block b

section

variable {bitmap : Block} {disk : Disk} {inum : Nat} {dinode : Dinode}

section

variable (fmt : Formatted bitmap disk)

include fmt

theorem single_sb : (single disk inum dinode).disk.sb = mkfsSb := fmt.sb

theorem single_block : (single disk inum dinode).disk.block = update disk.block (IBLOCK inum mkfsSb)
      (dinode.save (inum % IPB) (disk.block (IBLOCK inum mkfsSb))) := by
  have sb : disk.sb = mkfsSb := fmt.sb
  rw [← sb]
  rfl

section

variable (lt : inum < NINODES)

include lt

theorem single_table : table mkfsSb (single disk inum dinode).disk.block =
      update (table mkfsSb blank.block) inum dinode := by
  have limits := mkfs_layout.bounds
  rw [single_block fmt, table_save mkfs_layout lt]
  congr 1
  refine table_congr mkfs_layout fun b low => ?_
  rw [fmt.low b (by omega)]
  exact update_of_ne (by omega) _ _

theorem single_pointers (zero : dinode.addrs = Bytes.zero) (k : Nat × Option Nat) :
    (single disk inum dinode).pointers k = 0 := by
  obtain ⟨o, k⟩ := k
  have nowhere : ∀ block, blockOf dinode block k = 0 := by
    intro block
    cases k with
    | none => rw [blockOf, zero, Bytes.word_zero]
    | some bn => simp [blockOf, zero]
  rw [Fs.pointers, single_sb fmt, single_table fmt lt, pointer_update_dinode, nowhere, ite_self]
  split
  · rfl
  · exact pointer_of_not_type (fun typed => typed.ne_zero (blank_table o)) k

theorem single_bitmap {b : Nat} (low : b < FSSIZE) :
    Used mkfsSb (single disk inum dinode).disk.block b ↔ bitmap.bit b = true := by
  have below := mkfs_layout.IBLOCK_lt (show inum < mkfsSb.ninodes from lt)
  have limits := mkfs_layout.bounds
  have place : BBLOCK b mkfsSb = mkfsSb.bmapstart := by
    rw [mkfs_layout.BBLOCK_eq low]
    simp only [FSSIZE] at low
    omega
  have small : b % BPB = b := Nat.mod_eq_of_lt (by simp only [BPB, BSIZE, FSSIZE] at *; omega)
  rw [Used, place, small, single_block fmt, update_of_ne (by omega),
    fmt.low _ (by omega), blankWith, setBlock_block, update_self]

theorem single_wellFormed (zero : dinode.addrs = Bytes.zero) (empty : dinode.size = 0)
    (free : ∀ b < FSSIZE, mkfsSb.dataStart ≤ b → bitmap.bit b = false) :
    WellFormed (single disk inum dinode) := by
  have none : ∀ k, (single disk inum dinode).pointers k = 0 :=
    single_pointers fmt lt zero
  refine ⟨⟨fun k has => absurd (none k) has, fun k _ _ has => absurd (none k) has, fun b area => ?_⟩, fun o typed => ?_⟩
  · rw [single_sb fmt] at area
    rw [single_sb fmt, single_bitmap fmt lt area.2, free b area.2 area.1]
    refine iff_of_false (by simp) ?_
    rintro ⟨k, here⟩
    rw [none] at here
    exact mkfs_layout.not_area_zero (here ▸ area)
  · have only : o = inum := by
      by_contra ne
      rw [single_sb fmt, single_table fmt lt, update_of_ne ne] at typed
      exact typed.ne_zero (blank_table o)
    have size : blocksOf (table (single disk inum dinode).disk.sb
        (single disk inum dinode).disk.block o).size.toNat = 0 := by
      rw [single_sb fmt, single_table fmt lt, only, update_self, empty]
      rfl
    rw [size]
    exact ⟨Nat.zero_le _, fun bn _ => by simp [none], by simp [none]⟩

end

end

theorem markedBitmap_marked : ∀ b < 59, markedBitmap.bit b = true := by decide +kernel

theorem markedBitmap_free : ∀ b < FSSIZE, mkfsSb.dataStart ≤ b → markedBitmap.bit b = false := by
  decide +kernel

theorem blank_superblock : Superblock.ofBlock mkfsSb.encode = mkfsSb := by
  decide +kernel

theorem single_referenced {sl : Slot} (live : 0 < ((single disk inum dinode).icache sl).ref) : sl = 0 := by
  by_contra o
  have unused : (single disk inum dinode).icache sl = .unused := update_of_ne o _ _
  rw [unused] at live
  exact absurd live (by decide)

theorem single_coherent (fmt : Formatted bitmap disk) (lt : inum < NINODES)
    (marked : ∀ b < 59, bitmap.bit b = true) (typed : dinode.type ≠ 0) : Coherent (single disk inum dinode) := by
  have sb : (single disk inum dinode).disk.sb = mkfsSb := single_sb fmt
  have above := mkfs_layout.one_lt_IBLOCK (show inum < mkfsSb.ninodes from lt)
  have limits := mkfs_layout.bounds
  have entry : (single disk inum dinode).icache 0 = ⟨ROOTDEV, inum, 1, 0, Bytes.zero, I_VALID, dinode⟩ := rfl
  refine ⟨?_, ?_, fun b below => ?_, fmt.held, fun sl live => ?_,
    fun sl o live otherLive _ => ?_, fun sl live _ => ?_⟩
  · have fssize : (single disk inum dinode).disk.fssize = FSSIZE := fmt.fssize
    rw [sb, fssize]
    exact mkfs_layout
  · rw [sb, single_block fmt, update_of_ne (by omega), fmt.low 1 (by omega)]
    exact blank_superblock
  · rw [sb] at below ⊢
    have small : b < 59 := below
    rw [single_bitmap fmt lt (by simp only [FSSIZE]; omega)]
    exact marked b small
  · rw [single_referenced live, entry]
  · rw [single_referenced live, single_referenced otherLive]
  · rw [single_referenced live, sb, single_table fmt lt, entry, update_self]
    exact ⟨rfl, typed⟩

end

theorem fileFs_wellFormed {bitmap : Block} (free : ∀ b < FSSIZE, mkfsSb.dataStart ≤ b → bitmap.bit b = false) :
    WellFormed (fileFs bitmap) :=
  single_wellFormed ⟨rfl, rfl, rfl, fun _ _ => rfl⟩ (by decide) rfl rfl free

theorem fileFs_ambient : Ambient (fileFs markedBitmap) :=
  ⟨single_coherent ⟨rfl, rfl, rfl, fun _ _ => rfl⟩ (by decide) markedBitmap_marked (by decide), by decide⟩

theorem block_ownership_kept_write : ∃ fs' : Fs,
    writei 0 (fun _ => 7) 0 600 (fileFs markedBitmap) = .ok 600 fs' ∧ WellFormed fs' := by
  have checked : (writei 0 (fun _ => 7) 0 600 (fileFs markedBitmap)).check (fun result _ => result == 600) = true := by
    decide +kernel
  obtain ⟨result, fs', ran, value⟩ := Outcome.of_check checked
  rw [beq_iff_eq] at value
  subst value
  have kept := (block_ownership_kept (fileFs markedBitmap) (fileFs_wellFormed markedBitmap_free)
    fileFs_ambient).1 0 (by decide) (by decide) (by decide)
  exact ⟨fs', ran, ((kept.1 (fun _ => 7) 0 600).of_ok ran).1⟩

/-- With an empty bitmap the first block allocated is block 0, which the inode cannot record. -/
theorem block_ownership_unmarked : WellFormed (fileFs Bytes.zero) ∧ ∃ fs' : Fs,
    writei 0 (fun _ => 7) 0 1 (fileFs Bytes.zero) = .ok 1 fs' ∧ ¬WellFormed fs' := by
  refine ⟨fileFs_wellFormed fun b _ _ => Bytes.bit_zero b, ?_⟩
  have checked : (writei 0 (fun _ => 7) 0 1 (fileFs Bytes.zero)).check (fun result fs' =>
      result == 1 && fs'.disk.sb == mkfsSb && (table mkfsSb fs'.disk.block 2).type == T_FILE &&
      (table mkfsSb fs'.disk.block 2).size == 1 &&
      (table mkfsSb fs'.disk.block 2).addrs.word 0 == 0) = true := by
    decide +kernel
  obtain ⟨result, fs', ran, value⟩ := Outcome.of_check checked
  simp only [Bool.and_eq_true, beq_iff_eq] at value
  obtain ⟨⟨⟨⟨rfl, sb⟩, type⟩, size⟩, word⟩ := value
  refine ⟨fs', ran, fun well => ?_⟩
  have typed : BlockType (table fs'.disk.sb fs'.disk.block 2).type := by
    rw [sb, type]
    decide
  have present := (well.present 2 typed).file 0 (by decide)
  rw [Fs.pointers, pointer_of_type typed, blockOf_direct (by decide), sb, word, size] at present
  exact present.mpr (by decide) rfl

end Xv6
