import Xv6.FileData

/-! What `itrunc` does to the map of places: it gives back every block of the inode and no
other. -/

namespace Xv6

open Exec Writes Owner Fs Bytes

def dropped (places : Nat × Option Nat → Nat) (inum : Nat) (gone : Option Nat → Bool) :
    Nat × Option Nat → Nat := fun place =>
  if place.1 = inum ∧ gone place.2 = true then 0 else places place

structure Releases (start : Fs) (sl : Slot) (gone : Option Nat → Bool) (disk : Disk) : Prop where
  sb : disk.sb = start.disk.sb
  fssize : disk.fssize = start.disk.fssize
  outstanding : disk.log.outstanding = start.disk.log.outstanding
  sections : disk.sections = start.disk.sections
  block : ∀ b, b < start.disk.sb.bmapstart ∨ start.disk.sb.dataStart ≤ b → disk.block b = start.disk.block b
  owns : Owns (dropped (start.places sl) (start.icache sl).inum gone) (Used start.disk.sb disk.block) start.disk.sb.area
  marked : ∀ b < start.disk.sb.dataStart, Used start.disk.sb disk.block b

section

variable {s0 : Fs} {ip : Slot} {gone : Option Nat → Bool} {disk : Disk} {stops : Stop → Prop}

theorem Releases.refl (work : Working s0 ip) : Releases s0 ip (fun _ => false) s0.disk := by
  refine ⟨rfl, rfl, rfl, rfl, fun _ _ => rfl, ?_, work.owned.marked⟩
  refine work.owned.owns.congr (fun k => ?_) fun _ _ => Iff.rfl
  rw [dropped, if_neg (by simp)]
  rfl

theorem Releases.widen (releases : Releases s0 ip gone disk) {gone' : Option Nat → Bool}
    (eq : ∀ k, gone' k ≠ gone k → s0.places ip ((s0.icache ip).inum, k) = 0) : Releases s0 ip gone' disk := by
  obtain ⟨sb, fssize, outstanding, sections, block, owns, marked⟩ := releases
  refine ⟨sb, fssize, outstanding, sections, block, owns.congr (fun k => ?_) fun _ _ => Iff.rfl, marked⟩
  obtain ⟨inum, k⟩ := k
  by_cases here : inum = (s0.icache ip).inum
  · subst here
    by_cases chg : gone' k = gone k
    · simp [dropped, chg]
    · simp [dropped, eq k chg]
  · simp [dropped, here]

theorem Releases.setHeld (releases : Releases s0 ip gone disk) (held : List Nat) :
    Releases s0 ip gone (disk.setHeld held) :=
  ⟨releases.sb, releases.fssize, releases.outstanding, releases.sections, releases.block,
    releases.owns, releases.marked⟩

theorem holds_release {k : Option Nat} {post : Unit → Disk → Prop} (work : Working s0 ip)
    (releases : Releases s0 ip gone disk) (still : gone k = false) (has : s0.places ip ((s0.icache ip).inum, k) ≠ 0)
    (held : ∀ b ∈ disk.held, s0.disk.sb.dataStart ≤ b) (full : stops tooBig)
    (next : ∀ disk', disk'.held = disk.held → Releases s0 ip (fun o => gone o || o == k) disk' → post () disk') :
    Holds (bfree (s0.places ip ((s0.icache ip).inum, k))) disk post stops := by
  have limits := work.layout.bounds
  obtain ⟨sb, fssize, outstanding, sections, block, owns, marked⟩ := releases
  have named : dropped (s0.places ip) (s0.icache ip).inum gone
      ((s0.icache ip).inum, k) = s0.places ip ((s0.icache ip).inum, k) := by
    simp [dropped, still]
  have area := work.area has
  have lt := area.2
  have low := work.layout.le_BBLOCK lt
  have high := work.layout.BBLOCK_lt lt
  have used := owns.used_place (named.trans_ne has)
  rw [named] at used
  have unheld : ∀ b < s0.disk.sb.dataStart, b ∉ disk.held := fun b below mem => by
    have := held b mem
    omega
  refine holds_bfree ?_ (unheld 1 (by omega)) (by omega) ?_ ?_ ?_ ?_ (fun _ => full) fun disk' puts => ?_
  · rw [sb, block 1 (by omega)]
    exact work.super
  · rw [sb]
    exact unheld _ high
  · rw [sb, fssize]
    omega
  · rw [sb]
    exact used
  · rw [outstanding]
    exact work.opened
  · have written := puts.block
    rw [sb, applyAll_cons, applyAll_nil] at written
    have cleared : ∀ c < s0.disk.sb.size, (Used s0.disk.sb disk'.block c ↔
        Used s0.disk.sb disk.block c ∧ c ≠ s0.places ip ((s0.icache ip).inum, k)) := by
      intro c inside
      rw [written]
      exact used_clearBit work.layout lt inside
    refine next disk' puts.held ⟨puts.sb.trans sb, puts.fssize.trans fssize,
      puts.outstanding.trans outstanding, puts.sections.trans sections, fun b outside => ?_, ?_, fun b below => ?_⟩
    · rw [written, Function.update_of_ne (by omega), block b outside]
    · refine owns.free (named.trans_ne has) work.layout.not_area_zero (fun o => ?_) fun c inside => ?_
      · obtain ⟨inum, o⟩ := o
        by_cases here : inum = (s0.icache ip).inum
        · subst here
          by_cases eq : o = k
          · simp [dropped, eq]
          · simp [dropped, eq]
        · simp [dropped, here]
      · rw [named]
        exact cleared c inside.2
    · refine (cleared b (by omega)).mpr ⟨marked b below, ?_⟩
      have := area.1
      omega

end

def firstPlaces (count : Nat) : Option Nat → Bool
  | none => false
  | some bn => decide (bn < count)

theorem firstPlaces_succ (n : Nat) : (fun o => firstPlaces n o || o == some n) = firstPlaces (n + 1) := by
  funext o
  cases o with
  | none => rfl
  | some bn =>
    by_cases here : bn = n
    · simp [firstPlaces, here]
    · simp [firstPlaces, here, show bn < n + 1 ↔ bn < n by omega]

structure Truncating (start : Fs) (sl : Slot) (count : Nat) (fs : Fs) : Prop where
  amends : Amends start fs sl
  releases : Releases start sl (firstPlaces count) fs.disk
  unheld : fs.disk.held = []
  words : ∀ index < 13, (fs.icache sl).dinode.addrs.word index =
    if index < count then 0 else (start.icache sl).dinode.addrs.word index

section

variable {s0 fs : Fs} {ip : Slot} {stops : Stop → Prop}

theorem Releases.skip {n : Nat} {disk : Disk} (releases : Releases s0 ip (firstPlaces n) disk)
    (zero : s0.places ip ((s0.icache ip).inum, some n) = 0) : Releases s0 ip (firstPlaces (n + 1)) disk := by
  refine releases.widen fun k chg => ?_
  cases k with
  | none => exact absurd rfl chg
  | some bn =>
    have eq : bn = n := by
      by_contra ne
      exact chg (by simp [firstPlaces, show bn < n + 1 ↔ bn < n by omega])
    rw [eq, zero]

theorem holds_itruncDirect (work : Working s0 ip) (full : stops tooBig) :
    Holds (itruncDirect ip) s0 (fun _ fs => Truncating s0 ip NDIRECT fs) stops := by
  refine Holds.upto (fun i fs => Truncating s0 ip i fs) ?_ fun i fs lt truncating => ?_
  · refine ⟨.refl _ _, (Releases.refl work).widen fun k chg => ?_, work.unheld, by simp⟩
    cases k with
    | none => exact absurd rfl chg
    | some bn => simp [firstPlaces] at chg
  · obtain ⟨amends, releases, unheld, words⟩ := truncating
    have small : i < 13 := by simp only [NDIRECT] at lt; omega
    have word := words i small
    rw [if_neg (by omega)] at word
    have named := work.places_self (some i)
    rw [blockOf_direct lt] at named
    simp only [holds_bind, holds_inode, holds_onlyIf, word, ← named]
    refine ⟨fun has => ?_, fun absent => ?_⟩
    · rw [holds_onDisk]
      refine holds_release work releases (by simp [firstPlaces]) has (by simp [unheld]) full fun disk held after => ?_
      rw [firstPlaces_succ] at after
      simp only [holds_setAddr, setDisk_icache]
      refine ⟨amends.trans ⟨_, disk, rfl⟩, by simpa using after, by simpa [unheld] using held, fun o low => ?_⟩
      simp only [setInode_same, Inode.setDinode_dinode, Dinode.setAddrs_addrs]
      by_cases here : o = i
      · subst here
        rw [word_setWord_same _ _ _ (by omega), if_pos (by omega), Nat.zero_mod]
      · rw [word_setWord_ne _ _ here, words o low]
        by_cases below : o < i
        · rw [if_pos below, if_pos (by omega)]
        · rw [if_neg below, if_neg (by omega)]
    · rw [not_not] at absent
      refine ⟨amends, releases.skip absent, unheld, fun o low => ?_⟩
      rw [words o low]
      by_cases here : o = i
      · subst here
        rw [if_neg (by omega), if_pos (by omega), ← named, absent]
      · by_cases below : o < i
        · rw [if_pos below, if_pos (by omega)]
        · rw [if_neg below, if_neg (by omega)]

theorem holds_releaseEntries (fs : Fs) (work : Working s0 ip) (has : (s0.icache ip).dinode.addrs.word NDIRECT ≠ 0)
    (releases : Releases s0 ip (firstPlaces NDIRECT) fs.disk)
    (held : fs.disk.held = [(s0.icache ip).dinode.addrs.word NDIRECT]) (full : stops tooBig) :
    let data := s0.disk.block ((s0.icache ip).dinode.addrs.word NDIRECT)
    Holds (Prog.upto NINDIRECT fun j => Prog.onlyIf (data.word j ≠ 0) (onDisk (bfree (data.word j)))) fs
      (fun _ fs' => ∃ disk, fs' = fs.setDisk disk ∧ disk.held = fs.disk.held ∧
        Releases s0 ip (firstPlaces MAXFILE) disk) stops := by
  intro data
  have start_ := (work.indirect has).1.1
  refine Holds.upto (fun i fs' => ∃ disk, fs' = fs.setDisk disk ∧ disk.held = fs.disk.held ∧
    Releases s0 ip (firstPlaces (NDIRECT + i)) disk) ⟨fs.disk, rfl, rfl, releases⟩ ?_
  rintro i _ lt ⟨disk, rfl, same, releases⟩
  have high : NDIRECT + i < MAXFILE := by simp only [MAXFILE]; omega
  have named := work.places_self (some (NDIRECT + i))
  rw [blockOf_entry (by omega) high has, Nat.add_sub_cancel_left] at named
  have word : data.word i = s0.places ip ((s0.icache ip).inum, some (NDIRECT + i)) := named.symm
  rw [word, holds_onlyIf, holds_onDisk]
  refine ⟨fun nonzero => ?_, fun zero => ⟨disk, rfl, same, releases.skip (not_not.mp zero)⟩⟩
  refine holds_release work releases (by simp [firstPlaces]) nonzero ?_ full fun disk' held' after => ?_
  · intro b mem
    rw [setDisk_disk, same, held, List.mem_singleton] at mem
    rw [mem]
    exact start_
  · rw [firstPlaces_succ] at after
    exact ⟨disk', rfl, held'.trans same, after⟩

structure Emptied (start : Fs) (sl : Slot) (fs : Fs) : Prop where
  amends : Amends start fs sl
  releases : Releases start sl (fun _ => true) fs.disk
  unheld : fs.disk.held = []
  addrs : (fs.icache sl).dinode.addrs = Bytes.zero

theorem addrs_eq_zero {addrs : Bytes 52} (words : ∀ i < 13, addrs.word i = 0) : addrs = Bytes.zero :=
  eq_zero_of_words _ (by decide) fun i lt => words i (by omega)

theorem holds_itruncIndirect (work : Working s0 ip) (full : stops tooBig) (truncating : Truncating s0 ip NDIRECT fs) :
    Holds (itruncIndirect ip) fs (fun _ fs' => Emptied s0 ip fs') stops := by
  obtain ⟨amends, releases, unheld, words⟩ := truncating
  have limits := work.layout.bounds
  have word := words NDIRECT (by decide)
  rw [if_neg (by omega)] at word
  have named := work.places_none
  simp only [itruncIndirect, holds_bind, holds_inode, holds_onlyIf, word]
  refine ⟨fun has => ?_, fun absent => ?_⟩
  · obtain ⟨area, _⟩ := work.indirect has
    have lt := area.2
    have fssize := releases.fssize
    rw [holds_onDisk, holds_bread (by simp [unheld]) (by omega), releases.block _ (.inr area.1)]
    refine (holds_releaseEntries (fs.setDisk (fs.disk.setHeld (_ :: fs.disk.held))) work has
      (releases.setHeld _) (by simp [unheld]) full).conseq fun _ fs' done => ?_
    obtain ⟨disk, rfl, held, entries⟩ := done
    simp only [holds_onDisk, brelse, holds_modify, setDisk_disk, ← named]
    rw [← named] at has
    refine holds_release work (entries.setHeld _) (by simp [firstPlaces]) has ?_ full fun disk' held' after => ?_
    · simp [held, unheld, named]
    · simp only [holds_setAddr]
      refine ⟨amends.trans ⟨_, disk', rfl⟩, ?_, ?_, ?_⟩
      · refine Releases.widen after fun k chg => ?_
        cases k with
        | none => simp at chg
        | some bn =>
          have far : MAXFILE ≤ bn := by simpa [firstPlaces] using chg
          rw [work.places_self]
          exact blockOf_absent (by simp only [MAXFILE] at far; omega) (.inl far)
      · simpa [held, unheld, named] using held'
      · simp only [setInode_same, setDisk_icache, Inode.setDinode_dinode, Dinode.setAddrs_addrs]
        refine addrs_eq_zero fun i low => ?_
        by_cases last : i = NDIRECT
        · subst last
          rw [word_setWord_same _ _ _ (by decide), Nat.zero_mod]
        · rw [word_setWord_ne _ _ last, words i low, if_pos (by simp only [NDIRECT] at *; omega)]
  · rw [not_not] at absent
    refine ⟨amends, releases.widen fun k chg => ?_, unheld, addrs_eq_zero fun i low => ?_⟩
    · cases k with
      | none => rw [named, absent]
      | some bn =>
        have far : NDIRECT ≤ bn := by simpa [firstPlaces] using chg
        rw [work.places_self]
        exact blockOf_absent far (.inr absent)
    · rw [words i low]
      split
      · rfl
      · have last : i = NDIRECT := by simp only [NDIRECT] at *; omega
        rw [last, absent]

end

end Xv6
