import Xv6.Mapping

/-! The data of files with blocks: the bytes at the places of an inode, and how the loops of
`readi` and `writei` go over them. -/

namespace Xv6

open Exec Writes List Function Fs Inode Disk

variable {k : Option Nat} {change : Block → Block} {post : Unit → Fs → Prop} {off bn m n fst : Nat} {fresh : Prop}

def blocksOf (size : Nat) : Nat := (size + (BSIZE - 1)) / BSIZE

def fileByte (places : Nat × Option Nat → Nat) (block : Nat → Block) (inum index : Nat) : UInt8 :=
  if places (inum, some (index / BSIZE)) = 0 then 0
  else (block (places (inum, some (index / BSIZE)))).byte (index % BSIZE)

def Fs.fileByte (fs : Fs) (sl : Slot) : Nat → Nat → UInt8 :=
  Xv6.fileByte (fs.places sl) fs.disk.block

theorem Entered.fileByte {fs fs' : Fs} {ip : Slot} {addr : Nat}
    (work : Working fs ip) (entered : Entered fs fs' ip k addr) (inum i : Nat) :
    fs'.fileByte ip inum i = fs.fileByte ip inum i := by
  have places := entered.places (inum, some (i / BSIZE))
  simp only [Fs.fileByte, Xv6.fileByte, places]
  by_cases here : (inum, some (i / BSIZE)) = ((fs.icache ip).inum, k)
  · have empty := entered.empty
    rw [← here] at empty
    rw [if_pos here, if_pos empty, entered.zeroed, Bytes.byte_zero]
    simp
  · rw [if_neg here]
    split
    · rfl
    · rename_i has
      rw [if_neg here] at places
      have o : fs.places ip (inum, some (i / BSIZE)) ≠ fs'.places ip ((fs.icache ip).inum, none) := by
        intro shared
        have eq := entered.working.owned.owns.unique _ _ (places.trans shared) (places.trans_ne has)
        cases congrArg Prod.snd eq
      rw [entered.data (fs.places ip (inum, some (i / BSIZE))) (work.area has).1
        (work.owned.owns.unowned entered.area entered.free _) o]

structure Stored (fs fs' : Fs) (sl : Slot) (bn : Nat) (data : Block) : Prop where
  working : Working fs' sl
  frame : fs' = fs.setDisk fs'.disk
  steady : fs.disk.Steady fs'.disk
  present : fs.places sl ((fs.icache sl).inum, some bn) ≠ 0
  places : fs'.places sl = fs.places sl
  block : fs'.disk.block = Function.update fs.disk.block (fs.places sl ((fs.icache sl).inum, some bn)) data
  logged : ∀ b, b ∈ fs'.disk.written ↔ b ∈ fs.disk.written ∨ b = fs.places sl ((fs.icache sl).inum, some bn)

section

variable {fs fs' : Fs} {ip : Slot} {stops : Stop → Prop} {bn : Nat} {data : Block}

theorem stored_of_puts {disk : Disk} (work : Working fs ip) (present : fs.places ip ((fs.icache ip).inum, some bn) ≠ 0)
    (puts : fs.disk.Puts disk [(fs.places ip ((fs.icache ip).inum, some bn), data)]) :
    Stored fs (fs.setDisk disk) ip bn data := by
  have limits := work.layout.bounds
  have block : disk.block = update fs.disk.block (fs.places ip ((fs.icache ip).inum, some bn)) data := puts.block
  have s0 := (work.area present).1
  have steady : fs.disk.Steady disk := puts.steady fun c below => by
    rw [block, update_of_ne (by omega)]
  have view : (fs.setDisk disk).view ip = fs.view ip := view_setDisk work.layout steady
  have unused : ∀ inum, fs.places ip (inum, none) ≠ 0 →
      fs.places ip (inum, none) ≠ fs.places ip ((fs.icache ip).inum, some bn) := by
    intro inum nonzero eq
    cases congrArg Prod.snd (work.owned.owns.unique _ _ eq nonzero)
  have kept : pointer (fs.view ip) disk.block = fs.places ip ∧ Owned fs.disk.sb (fs.view ip) disk.block := by
    rw [block]
    exact work.owned.store work.layout (.inr s0) unused
  refine ⟨work.store steady kept.2, rfl, steady, present, ?_, block, fun b => ?_⟩
  · rw [Fs.places, view]
    exact kept.1
  · rw [setDisk_disk, puts.written, mem_logAll]
    simp [eq_comm]

theorem holds_store  (work : Working fs ip)
    (has : fs.places ip ((fs.icache ip).inum, some bn) ≠ 0) (full : stops tooBig) (next : ∀ fs', Stored fs fs' ip bn
      (change (fs.disk.block (fs.places ip ((fs.icache ip).inum, some bn)))) → post () fs') :
    Holds (onDisk (bupdate (fs.places ip ((fs.icache ip).inum, some bn)) change)) fs post stops := by
  have limits := work.layout.bounds
  have lt := (work.area has).2
  rw [holds_onDisk]
  exact holds_bupdate (by simp [work.unheld]) (by omega) work.opened (fun _ => full) fun disk puts =>
    next _ (stored_of_puts work has puts)

theorem Stored.inum (stored : Stored fs fs' ip bn data) : fs'.icache = fs.icache := by
  rw [stored.frame]
  rfl

theorem Stored.fileByte (work : Working fs ip) (stored : Stored fs fs' ip bn data) (inum i : Nat) :
    fs'.fileByte ip inum i = if inum = (fs.icache ip).inum ∧ i / BSIZE = bn then data.byte (i % BSIZE)
      else fs.fileByte ip inum i := by
  simp only [Fs.fileByte, Xv6.fileByte, stored.places, stored.block]
  by_cases here : inum = (fs.icache ip).inum ∧ i / BSIZE = bn
  · obtain ⟨rfl, rfl⟩ := here
    rw [if_neg stored.present, if_pos ⟨rfl, rfl⟩, update_self]
  · rw [if_neg here]
    split
    · rfl
    · rename_i nonzero
      rw [update_of_ne]
      intro shared
      have eq := work.owned.owns.unique _ _ shared nonzero
      simp only [Prod.mk.injEq, Option.some.injEq] at eq
      exact here eq

end

section

variable {fs : Fs} {ip : Slot} {stops : Stop → Prop} {count : Nat}

theorem lt_count_of_lt (low : off < count * BSIZE) : off / BSIZE < count :=
  Nat.div_lt_of_lt_mul (by rwa [Nat.mul_comm])

theorem holds_bmap_present {post : Nat → Fs → Prop} (legible : Legible fs ip)
    (has : Present (fs.places ip) (fs.icache ip).inum count) (lt : bn < count)
    (next : post (fs.places ip ((fs.icache ip).inum, some bn)) fs) : Holds (bmap ip bn) fs post stops := by
  have high : bn < MAXFILE := by have := has.limit; omega
  have nonzero := (has.file bn high).mpr lt
  by_cases direct : bn < NDIRECT
  · have named := legible.places_self (some bn)
    rw [blockOf_direct direct] at named
    rw [named] at nonzero next
    simp only [bmap, if_pos direct, bmapAddr, holds_bind, holds_inode]
    rw [if_neg nonzero, holds_pure]
    exact next
  · have many := has.indirect.mpr (by omega)
    rw [legible.places_none] at many
    obtain ⟨area, _⟩ := legible.indirect many
    have limits := legible.layout.bounds
    have lt := area.2
    have ent : bn - NDIRECT < NINDIRECT := by simp only [MAXFILE] at high; omega
    have named := legible.places_self (some bn)
    rw [blockOf_entry (by omega) high many] at named
    rw [named] at nonzero next
    simp only [bmap, if_neg direct, if_pos ent, bmapAddr, holds_bind, holds_inode, if_neg many,
      holds_pure, holds_onDisk, bmapEntry]
    rw [holds_bread (by simp [legible.unheld]) (by omega), if_neg nonzero]
    simpa only [holds_bind, brelse, holds_modify, holds_pure, setHeld_held,
      erase_cons_head, setHeld_setHeld, setHeld_self, setDisk_self] using next

theorem read_block {s0 : Nat} (small : s0 + m ≤ BSIZE) (has : fs.places ip ((fs.icache ip).inum, some bn) ≠ 0) :
    (fs.disk.block (fs.places ip ((fs.icache ip).inum, some bn))).read s0 m = (range m).map fun i =>
        fs.fileByte ip (fs.icache ip).inum (bn * BSIZE + s0 + i) := by
  refine map_congr_left fun i mem => ?_
  have lt := mem_range.mp mem
  have quotient : (bn * BSIZE + s0 + i) / BSIZE = bn := by
    simp only [BSIZE] at *
    omega
  have remainder : (bn * BSIZE + s0 + i) % BSIZE = s0 + i := by
    simp only [BSIZE] at *
    omega
  rw [Fs.fileByte, fileByte, quotient, remainder, if_neg has]

theorem holds_readBlocks (legible : Legible fs ip)
    (has : Present (fs.places ip) (fs.icache ip).inum count) (fuel tot off : Nat)
    (enough : n - tot ≤ fuel) (low : off + (n - tot) ≤ count * BSIZE) :
    Holds (readBlocks ip n fuel tot off) fs (fun bytes fs' => fs' = fs ∧ bytes = (range (n - tot)).map fun i =>
        fs.fileByte ip (fs.icache ip).inum (off + i)) stops := by
  induction fuel generalizing tot off with
  | zero =>
    have done : n - tot = 0 := by omega
    simp [readBlocks, done]
  | succ fuel ih =>
    rw [readBlocks, holds_ite]
    refine ⟨fun more => ?_, fun done => ?_⟩
    · have limits := legible.layout.bounds
      have lt : off / BSIZE < count := lt_count_of_lt (by omega)
      have nonzero := (has.file _ (by have := has.limit; omega)).mpr lt
      have area := (legible.area nonzero).2
      have small : off % BSIZE < BSIZE := Nat.mod_lt _ (by decide)
      rw [holds_bind]
      refine holds_bmap_present legible has lt ?_
      rw [holds_bind, holds_onDisk, holds_bpeek (by simp [legible.unheld]) (by omega)]
      simp only [holds_bind, setDisk_self, holds_pure]
      refine (ih _ _ (by omega) (by omega)).conseq ?_
      rintro bytes fs' ⟨rfl, rfl⟩
      refine ⟨rfl, ?_⟩
      have split : n - tot = min (n - tot) (BSIZE - off % BSIZE) +
          (n - (tot + min (n - tot) (BSIZE - off % BSIZE))) := by omega
      have whole : off / BSIZE * BSIZE + off % BSIZE = off := Nat.div_add_mod' off BSIZE
      rw [read_block (by omega) nonzero, whole]
      conv_rhs => rw [split, range_add, map_append, map_map]
      simp only [comp_def, Nat.add_assoc]
    · have none_ : n - tot = 0 := by omega
      simp [none_]

theorem holds_readi_blocks {off n : BitVec 32} {post : Option (List UInt8) → Fs → Prop} (legible : Legible fs ip)
    (has : Present (fs.places ip) (fs.icache ip).inum (blocksOf (fs.icache ip).dinode.size.toNat))
    (refused : (fs.icache ip).dinode.size < off ∨ off + n < off → post none fs)
    (ok : ¬((fs.icache ip).dinode.size < off ∨ off + n < off) →
      post (some ((range (min n.toNat ((fs.icache ip).dinode.size.toNat - off.toNat))).map
        fun i => fs.fileByte ip (fs.icache ip).inum (off.toNat + i))) fs) : Holds (readi ip off n) fs post stops := by
  have notDevice : ¬(fs.icache ip).dinode.type = T_DEV := by
    rcases legible.typed with type | type | type <;> rw [type] <;> decide
  have notSmall : ¬(fs.icache ip).dinode.type = T_SFILE := by
    rcases legible.typed with type | type | type <;> rw [type] <;> decide
  simp only [readi, holds_bind, holds_get]
  rw [if_neg notDevice, holds_ite, holds_pure, if_neg notSmall]
  refine ⟨refused, fun low => ?_⟩
  have reached := ok low
  have s0 : off ≤ (fs.icache ip).dinode.size := BitVec.not_lt.mp fun past => low (.inl past)
  rw [holds_bind, readi_count low]
  refine (holds_readBlocks legible has _ 0 _ (by omega) ?_).conseq fun bytes fs' done => ?_
  · rw [BitVec.le_def] at s0
    simp only [blocksOf, BSIZE]
    omega
  · obtain ⟨rfl, rfl⟩ := done
    simpa using reached

end

theorem Present.extend {places places' : Nat × Option Nat → Nat} {inum count : Nat}
    (has : Present places inum count) (lt : count < MAXFILE) (new : places' (inum, some count) ≠ 0)
    (file : ∀ bn, bn ≠ count → places' (inum, some bn) = places (inum, some bn))
    (indirect : places' (inum, none) ≠ 0 ↔ NDIRECT < count + 1) : Present places' inum (count + 1) := by
  refine ⟨lt, fun bn high => ?_, indirect⟩
  by_cases last : bn = count
  · subst last
    exact iff_of_true new (by omega)
  · rw [file bn last, has.file bn high]
    omega

section

variable {fs fs' : Fs} {ip : Slot} {bn addr : Nat}

theorem Entered.nonzero (work : Working fs ip) (entered : Entered fs fs' ip k addr) : addr ≠ 0 := fun zero =>
  work.layout.not_area_zero (zero ▸ entered.area)

section

variable (mapped : Mapped fs fs' ip bn addr)

include mapped

theorem Mapped.amends : Amends fs fs' ip := by
  obtain ⟨middle, ⟨_, rfl⟩ | ⟨_, _, fst⟩, last⟩ := mapped
  · exact last.amends
  · exact fst.amends.trans last.amends

theorem Mapped.steady : fs.disk.Steady fs'.disk := by
  obtain ⟨middle, ⟨_, rfl⟩ | ⟨_, _, fst⟩, last⟩ := mapped
  · exact last.steady
  · exact fst.steady.trans last.steady

theorem Mapped.working : Working fs' ip := by
  obtain ⟨_, _, last⟩ := mapped
  exact last.working

end

section

variable (work : Working fs ip) (mapped : Mapped fs fs' ip bn addr)

include work mapped

theorem Mapped.fileByte (inum i : Nat) : fs'.fileByte ip inum i = fs.fileByte ip inum i := by
  obtain ⟨middle, ⟨_, rfl⟩ | ⟨_, _, fst⟩, last⟩ := mapped
  · exact last.fileByte work inum i
  · rw [last.fileByte fst.working, fst.fileByte work]

theorem Mapped.places : addr ≠ 0 ∧ fs'.places ip ((fs.icache ip).inum, some bn) = addr ∧
    (bn = NDIRECT → fs'.places ip ((fs.icache ip).inum, none) ≠ 0) ∧
    ∀ k, k ≠ ((fs.icache ip).inum, some bn) → (bn = NDIRECT → k ≠ ((fs.icache ip).inum, none)) →
      fs'.places ip k = fs.places ip k := by
  obtain ⟨middle, ⟨o, rfl⟩ | ⟨here, indirect, fst⟩, last⟩ := mapped
  · refine ⟨last.nonzero work, ?_, fun here => absurd here o, fun k ne _ => ?_⟩
    · rw [last.places, if_pos rfl]
    · rw [last.places, if_neg ne]
  · have inum := fst.amends.inum
    have places := last.places
    rw [inum] at places
    refine ⟨last.nonzero fst.working, ?_, fun _ => ?_, fun k ne none_ => ?_⟩
    · rw [places, if_pos rfl]
    · rw [places, if_neg (by simp), fst.places, if_pos rfl]
      exact fst.nonzero work
    · rw [places, if_neg ne, fst.places, if_neg (none_ here)]

theorem Mapped.present (has : Present (fs.places ip) (fs.icache ip).inum bn) (lt : bn < MAXFILE) :
    Present (fs'.places ip) (fs.icache ip).inum (bn + 1) := by
  obtain ⟨nonzero, new, indirect, eq⟩ := mapped.places work
  refine has.extend lt (new.trans_ne nonzero) (fun o ne => ?_) ?_
  · exact eq _ (by simpa using ne) (by simp)
  · by_cases here : bn = NDIRECT
    · exact iff_of_true (indirect here) (by omega)
    · rw [eq _ (by simp) (fun clash => absurd clash here), has.indirect]
      omega

end

end

structure Extended (start : Fs) (sl : Slot) (initial : Nat) (fs : Fs) (count : Nat) : Prop where
  working : Working fs sl
  amends : Amends start fs sl
  steady : start.disk.Steady fs.disk
  present : Present (fs.places sl) (start.icache sl).inum count
  others : ∀ place, place.1 ≠ (start.icache sl).inum → fs.places sl place = start.places sl place
  more : initial ≤ count
  idle : count = initial → (fs.icache sl).dinode = (start.icache sl).dinode

def Round (fs fs' : Fs) (sl : Slot) (bn : Nat) (fresh : Prop) (change : Block → Block) : Prop :=
  ∃ middle, (¬fresh ∧ middle = fs ∨ fresh ∧ ∃ addr, Mapped fs middle sl bn addr) ∧ Stored middle fs' sl bn
      (change (middle.disk.block (middle.places sl ((middle.icache sl).inum, some bn))))

section

variable {s0 fs fs' : Fs} {ip : Slot} {initial count bn : Nat} {stops : Stop → Prop} {src : Nat → UInt8}

theorem Extended.refl (work : Working s0 ip) (present : Present (s0.places ip) (s0.icache ip).inum initial) :
    Extended s0 ip initial s0 initial :=
  ⟨work, .refl _ _, .refl _, present, fun _ _ => rfl, le_refl _, fun _ => rfl⟩

theorem Extended.round (extended : Extended s0 ip initial fs count)
    (lt : bn < MAXFILE) (next : bn ≤ count) (round : Round fs fs' ip bn (bn = count) change) :
    Extended s0 ip initial fs' (max count (bn + 1)) := by
  obtain ⟨work, amends, steady, present, others, more, idle⟩ := extended
  have inum := amends.inum
  obtain ⟨middle, ⟨old, rfl⟩ | ⟨rfl, addr, mapped⟩, stored⟩ := round
  · have eq : max count (bn + 1) = count := by omega
    rw [eq]
    have icache : fs'.icache = middle.icache := stored.inum
    refine ⟨stored.working, amends.trans ?_, steady.trans stored.steady, ?_, ?_, more, ?_⟩
    · rw [stored.frame]
      exact .setDisk _ _ _
    · rw [stored.places]
      exact present
    · rw [stored.places]
      exact others
    · rw [icache]
      exact idle
  · have eq : max bn (bn + 1) = bn + 1 := by omega
    rw [eq]
    rw [← inum] at present
    have places := mapped.places work
    refine ⟨stored.working, (amends.trans mapped.amends).trans ?_,
      (steady.trans mapped.steady).trans stored.steady, ?_, ?_, by omega, by omega⟩
    · rw [stored.frame]
      exact .setDisk _ _ _
    · rw [stored.places, ← inum]
      exact mapped.present work present lt
    · intro k o
      rw [← inum] at o
      rw [stored.places, places.2.2.2 k, others k (inum ▸ o)]
      · rintro rfl
        exact o rfl
      · rintro _ rfl
        exact o rfl

theorem holds_round (extended : Extended s0 ip initial fs count) (lt : bn < MAXFILE) (next : bn ≤ count)
    (full : stops tooBig) (exhausted : stops outOfBlocks)
    (done : ∀ fs', Round fs fs' ip bn (bn = count) change → post () fs') :
    Holds (bmap ip bn) fs (fun addr fs' => Holds (onDisk (bupdate addr change)) fs' post stops) stops := by
  have work := extended.working
  have has := extended.present
  rw [← extended.amends.inum] at has
  refine holds_bmap work has lt next full exhausted (fun here => ?_) fun here addr fs' mapped => ?_
  · refine holds_store work ((has.file bn lt).mpr here) full fun fs'' stored => ?_
    exact done fs'' ⟨fs, .inl ⟨by omega, rfl⟩, stored⟩
  · obtain ⟨nonzero, new, _⟩ := mapped.places work
    rw [← mapped.amends.inum] at new
    rw [← new] at nonzero ⊢
    refine holds_store mapped.working nonzero full fun fs'' stored => ?_
    exact done fs'' ⟨fs', .inr ⟨here, addr, mapped⟩, stored⟩

theorem holds_writeBlocks (kept : Nat → Fs → Prop) (limit : fst + n ≤ MAXFILE * BSIZE)
    (full : stops tooBig) (exhausted : stops outOfBlocks)
    (step : ∀ off m fs fs', fst ≤ off → 0 < m → off % BSIZE + m ≤ BSIZE → off + m ≤ fst + n →
      Extended s0 ip initial fs (max initial (blocksOf off)) →
      Round fs fs' ip (off / BSIZE) (off / BSIZE = max initial (blocksOf off))
        (fun data => data.blit (off % BSIZE) m fun i => src (off - fst + i)) →
      kept off fs → kept (off + m) fs') (fuel tot off : Nat) (position : off = fst + tot)
    (low : tot ≤ n) (enough : n - tot ≤ fuel)
    (extended : Extended s0 ip initial fs (max initial (blocksOf off))) (holds : kept off fs) :
    Holds (writeBlocks ip src n fuel tot off) fs (fun _ fs' =>
      Extended s0 ip initial fs' (max initial (blocksOf (fst + n))) ∧ kept (fst + n) fs')
      stops := by
  induction fuel generalizing tot off fs with
  | zero =>
    have done : off = fst + n := by omega
    subst done
    rw [writeBlocks, holds_pure]
    exact ⟨extended, holds⟩
  | succ fuel ih =>
    rw [writeBlocks, holds_ite]
    refine ⟨fun more => ?_, fun done => ?_⟩
    · have small : off % BSIZE < BSIZE := Nat.mod_lt _ (by decide)
      have lt : off / BSIZE < MAXFILE := lt_count_of_lt (by omega)
      have next : off / BSIZE ≤ max initial (blocksOf off) := by
        simp only [blocksOf, BSIZE]
        omega
      have i : off - fst = tot := by omega
      simp only [holds_bind]
      refine holds_round extended lt next full exhausted fun fs' round => ?_
      have later : max (max initial (blocksOf off)) (off / BSIZE + 1) =
          max initial (blocksOf (off + min (n - tot) (BSIZE - off % BSIZE))) := by
        simp only [blocksOf, BSIZE] at *
        omega
      have further := extended.round lt next round
      rw [later] at further
      have goesOn := step off (min (n - tot) (BSIZE - off % BSIZE)) fs fs' (by omega) (by omega)
        (by omega) (by omega) extended
      rw [i] at goesOn
      exact ih _ _ (by omega) (by omega) (by omega) further (goesOn round holds)
    · have done : off = fst + n := by omega
      subst done
      rw [holds_pure]
      exact ⟨extended, holds⟩

theorem Round.fileByte {k : Nat} {source : Nat → UInt8} (work : Working fs ip)
    (small : k + m ≤ BSIZE) (round : Round fs fs' ip bn fresh fun data => data.blit k m source)
    (inum i : Nat) : fs'.fileByte ip inum i =
      if inum = (fs.icache ip).inum ∧ bn * BSIZE + k ≤ i ∧ i < bn * BSIZE + k + m then
        source (i - (bn * BSIZE + k))
      else fs.fileByte ip inum i := by
  obtain ⟨middle, before, stored⟩ := round
  have same : ∀ inum i, middle.fileByte ip inum i = fs.fileByte ip inum i := by
    rcases before with ⟨_, rfl⟩ | ⟨_, addr, mapped⟩
    · exact fun _ _ => rfl
    · exact mapped.fileByte work
  have middleWorking : Working middle ip := by
    rcases before with ⟨_, rfl⟩ | ⟨_, addr, mapped⟩
    · exact work
    · exact mapped.working
  have num : (middle.icache ip).inum = (fs.icache ip).inum := by
    rcases before with ⟨_, rfl⟩ | ⟨_, addr, mapped⟩
    · rfl
    · exact mapped.amends.inum
  have inside : i % BSIZE < BSIZE := Nat.mod_lt _ (by decide)
  rw [stored.fileByte middleWorking, same, num]
  by_cases here : inum = (fs.icache ip).inum ∧ i / BSIZE = bn
  · obtain ⟨rfl, rfl⟩ := here
    have whole : i / BSIZE * BSIZE + i % BSIZE = i := Nat.div_add_mod' i BSIZE
    rw [if_pos ⟨rfl, rfl⟩, Bytes.byte_blit _ _ _ _ inside]
    by_cases copied : k ≤ i % BSIZE ∧ i % BSIZE < k + m
    · rw [if_pos copied, if_pos ⟨rfl, by omega, by omega⟩]
      congr 1
      omega
    · rw [if_neg copied, if_neg (by omega), ← same, Fs.fileByte, Xv6.fileByte, if_neg]
      exact num ▸ stored.present
  · rw [if_neg here, if_neg]
    rintro ⟨rfl, low, high⟩
    refine here ⟨rfl, ?_⟩
    simp only [BSIZE] at *
    omega

def Copied (start : Fs) (sl : Slot) (src : Nat → UInt8) (first off : Nat) (fs : Fs) : Prop :=
  ∀ inum index, fs.fileByte sl inum index =
    if inum = (start.icache sl).inum ∧ first ≤ index ∧ index < off then src (index - first)
    else start.fileByte sl inum index

theorem Copied.round  (extended : Extended s0 ip initial fs count)
    (low : fst ≤ off) (small : off % BSIZE + m ≤ BSIZE) (round : Round fs fs' ip (off / BSIZE) fresh
      fun data => data.blit (off % BSIZE) m fun i => src (off - fst + i))
    (copied : Copied s0 ip src fst off fs) : Copied s0 ip src fst (off + m) fs' := by
  intro inum i
  have whole : off / BSIZE * BSIZE + off % BSIZE = off := Nat.div_add_mod' off BSIZE
  rw [round.fileByte extended.working small, copied, extended.amends.inum, whole]
  by_cases here : inum = (s0.icache ip).inum
  · simp only [here, true_and]
    by_cases new : off ≤ i ∧ i < off + m
    · rw [if_pos new, if_pos (by omega)]
      congr 1
      omega
    · rw [if_neg new]
      by_cases old : fst ≤ i ∧ i < off
      · rw [if_pos old, if_pos (by omega)]
      · rw [if_neg old, if_neg (by omega)]
  · simp [here]

theorem holds_writei_blocks {off n : BitVec 32} {post : Int → Fs → Prop} (kept : Nat → Fs → Prop)
    (work : Working s0 ip) (has : Present (s0.places ip) (s0.icache ip).inum
      (blocksOf (s0.icache ip).dinode.size.toNat)) (full : stops tooBig) (exhausted : stops outOfBlocks)
    (step : ∀ k m fs fs', off.toNat ≤ k → 0 < m → k % BSIZE + m ≤ BSIZE → k + m ≤ off.toNat + n.toNat →
      Extended s0 ip (blocksOf (s0.icache ip).dinode.size.toNat) fs
        (max (blocksOf (s0.icache ip).dinode.size.toNat) (blocksOf k)) → Round fs fs' ip (k / BSIZE)
        (k / BSIZE = max (blocksOf (s0.icache ip).dinode.size.toNat) (blocksOf k))
        (fun data => data.blit (k % BSIZE) m fun i => src (k - off.toNat + i)) →
      kept k fs → kept (k + m) fs') (holds : kept off.toNat s0)
    (refused : Refused (s0.icache ip).dinode off n → post (-1) s0)
    (keeps : ¬Refused (s0.icache ip).dinode off n → ¬Grows (s0.icache ip).dinode off n →
      ∀ fs, Extended s0 ip (blocksOf (s0.icache ip).dinode.size.toNat) fs
        (blocksOf (s0.icache ip).dinode.size.toNat) → kept (off.toNat + n.toNat) fs → post n.toNat fs)
    (grows : ¬Refused (s0.icache ip).dinode off n → Grows (s0.icache ip).dinode off n →
      ∀ fs disk, Extended s0 ip (blocksOf (s0.icache ip).dinode.size.toNat) fs
        (blocksOf (off + n).toNat) → kept (off.toNat + n.toNat) fs →
      fs.disk.Puts disk [iupdateWrite fs.disk.sb fs.disk.block (fs.icache ip).inum
        ((fs.icache ip).dinode.setSize (off + n))] → post n.toNat ((fs.setInode ip ((fs.icache ip).setDinode
        ((fs.icache ip).dinode.setSize (off + n)))).setDisk disk)) : Holds (writei ip src off n) s0 post stops := by
  have notDevice : ¬(s0.icache ip).dinode.type = T_DEV := by
    rcases work.typed with type | type | type <;> rw [type] <;> decide
  have notSmall : ¬(s0.icache ip).dinode.type = T_SFILE := by
    rcases work.typed with type | type | type <;> rw [type] <;> decide
  refine holds_writei notDevice refused fun ok => ?_
  have limits := Refused.not_iff.mp ok
  have initial : max (blocksOf (s0.icache ip).dinode.size.toNat) (blocksOf off.toNat) =
      blocksOf (s0.icache ip).dinode.size.toNat := by
    simp only [blocksOf, BSIZE]
    omega
  rw [writeData, if_neg notSmall]
  refine (holds_writeBlocks kept limits.2 full exhausted step n.toNat 0 off.toNat (by omega)
    (by omega) (by omega) ?_ holds).conseq fun _ fs done => ?_
  · rw [initial]
    exact .refl work has
  · obtain ⟨extended, kept_⟩ := done
    have size : (fs.icache ip).dinode.size = (s0.icache ip).dinode.size := by
      rw [extended.amends.dinode]
      rfl
    have growsIff := Grows.iff_of_accepted ok
    simp only [grow, holds_bind, holds_inode, holds_onlyIf, holds_modifyDinode, size]
    refine ⟨fun (longer : Grows (s0.icache ip).dinode off n) => ?_,
      fun (shorter : ¬Grows (s0.icache ip).dinode off n) => ?_⟩
    · have sum : (off + n).toNat = off.toNat + n.toNat := by
        simp only [MAXFILE, NDIRECT, NINDIRECT, BSIZE] at limits
        rw [BitVec.toNat_add]
        omega
      have count : max (blocksOf (s0.icache ip).dinode.size.toNat)
          (blocksOf (off.toNat + n.toNat)) = blocksOf (off + n).toNat := by
        have := growsIff.mp longer
        simp only [blocksOf, BSIZE, sum]
        omega
      rw [count] at extended
      have lay := extended.working.layout.bounds
      have low := extended.working.layout.IBLOCK_lt extended.working.number
      refine holds_iupdate ?_ ?_ extended.working.opened full fun disk puts => ?_
      · simpa using (extended.working.unheld ▸ not_mem_nil)
      · simp only [setInode_same, setDinode_inum, setInode_disk]
        omega
      · simp only [setInode_same, setDinode_inum, setInode_disk, setDinode_dinode] at puts
        exact grows ok longer fs disk extended kept_ puts
    · have count : max (blocksOf (s0.icache ip).dinode.size.toNat)
          (blocksOf (off.toNat + n.toNat)) = blocksOf (s0.icache ip).dinode.size.toNat := by
        rw [growsIff] at shorter
        simp only [blocksOf, BSIZE]
        omega
      rw [count] at extended
      exact keeps ok shorter fs extended kept_

end

end Xv6
