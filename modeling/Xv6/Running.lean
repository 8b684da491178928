import Xv6.RefCounts
import Xv6.Linking
import Mathlib.Algebra.Order.BigOperators.Group.Finset

/-! What holds of the kernel between file system calls, and how a call that is one change of the
inodes leads from one such state to the next. -/

namespace Xv6

open Exec Fs Function

structure Opened (fs : Fs) (file : File) (sl : Slot) : Prop where
  valid : (fs.icache sl).valid = true
  apart : file.writable = true → ¬IsDir (fs.nodeAt sl).type

/-- The state between calls. Only directories have references that nobody counts on. -/
structure Running (R : Rules) (kern : Kernel) : Prop where
  sound : Sound R kern.fs
  idle : 0 ≤ kern.fs.disk.log.outstanding
  tidy : FilesTidy kern
  surplus : ∀ sl, 0 ≤ kern.excess sl
  stray : ∀ sl, 0 < kern.excess sl → IsDir (kern.fs.nodeAt sl).type
  files : ∀ f sl, (kern.ftable f).uses sl → Opened kern.fs (kern.ftable f) sl
  homes : ∀ p sl, (kern.ptable p).uses sl → IsDir (kern.fs.nodeAt sl).type

def KeepsTypes (change : (Nat → Node) → (Nat → Node) → Prop) : Prop :=
  ∀ image image', change image image' → ∀ i, (image i).type ≠ 0 → (image' i).type = (image i).type

def Evolves (change : (Nat → Node) → (Nat → Node) → Prop) (fs fs' : Fs) : Prop :=
  Changes (fs.refs ⊓ fs'.refs) change fs fs'

structure Advances (R : Rules) (change : (Nat → Node) → (Nat → Node) → Prop)
    (kern kern' : Kernel) : Prop where
  running : Running R kern'
  evolves : Evolves change kern.fs kern'.fs

theorem keepsTypes_eq : KeepsTypes Eq := fun _ _ eq _ _ => by rw [eq]

theorem Made.keepsTypes (d : Nat) (name : List UInt8) (type : BitVec 16) (k i : Nat) :
    KeepsTypes (Made d name type k i) := by
  intro image image' made j ty
  by_cases up : j = d
  · rw [up, made.parentType]
  · by_cases c : j = i
    · exact absurd (c ▸ made.free) ty
    · rw [made.other j up c]

variable {d k i : Nat} {name : List UInt8} {img img' : Nat → Node}

theorem Linked.types (linked : Linked d name k i img img') (j : Nat) : (img' j).type = (img j).type := by
  by_cases up : j = d
  · rw [up, linked.parentType]
  · by_cases c : j = i
    · rw [c, linked.node]
      rfl
    · rw [linked.other j up c]

theorem Unlinked.types (cut : Unlinked d name k i img img') (j : Nat) : (img' j).type = (img j).type := by
  by_cases up : j = d
  · rw [up, cut.parentType]
  · by_cases c : j = i
    · rw [c, cut.node]
      rfl
    · rw [cut.other j up c]

theorem write_types (img : Nat → Node) (i : Nat) (src : Nat → UInt8) (off n : Nat) (j : Nat) :
    (update img i ((img i).write src off n) j).type = (img j).type := by
  by_cases here : j = i
  · rw [here, update_self]
    rfl
  · rw [update_of_ne here]

section

variable {fs fs1 fs2 : Fs} {base base' : Slot → Int} {change change' : (Nat → Node) → (Nat → Node) → Prop}

theorem Changes.anti (changes : Changes base change fs fs1)
    (less : ∀ ip, 0 < base' ip → 0 < base ip) : Changes base' change fs fs1 := by
  obtain ⟨stays, before, after, first, chg, last⟩ := changes
  have fewer : ∀ i, fs.spared base' i → fs.spared base i := fun i ⟨ip, cnt, here⟩ =>
    ⟨ip, less ip cnt, here⟩
  exact ⟨stays.anti less, before, after, first.anti fewer, chg, last.anti fewer⟩

theorem Changes.imp (changes : Changes base change fs fs1)
    (weaker : ∀ before after, Faded (fs.spared base) fs.image before → change before after →
      change' before after) : Changes base change' fs fs1 := by
  obtain ⟨stays, before, after, first, chg, last⟩ := changes
  exact ⟨stays, before, after, first, weaker before after first chg, last⟩

theorem Fades.changes (fades : Fades base fs fs1) (none : ∀ img, change img img) : Changes base change fs fs1 :=
  ⟨fades.toStays, fs1.image, fs1.image, fades.image, none _, .refl⟩

theorem Changes.fades (changes : Changes base change fs fs1) (fades : Fades base fs1 fs2) :
    Changes base change fs fs2 := by
  obtain ⟨stays, before, after, first, chg, last⟩ := changes
  exact ⟨stays.trans fades.toStays, before, after, first, chg, last.trans (fades.image.anti fun _ => stays.spared.mpr)⟩

theorem Fades.then_changes (fades : Fades base fs fs1) (changes : Changes base change fs1 fs2) :
    Changes base change fs fs2 := by
  obtain ⟨stays, before, after, first, chg, last⟩ := changes
  have eq : ∀ i, fs.spared base i → fs1.spared base i := fun _ => fades.toStays.spared.mpr
  exact ⟨fades.toStays.trans stays, before, after, fades.image.trans (first.anti eq), chg, last.anti eq⟩

variable {disk disk' : Disk}

theorem Changes.transaction (changes : Changes base change (fs.setDisk disk) fs2)
    (begun : fs.disk.Alike disk) (op : disk.log.outstanding = fs.disk.log.outstanding + 1)
    (ended : fs2.disk.Alike disk') (closed : disk'.log.outstanding = fs2.disk.log.outstanding - 1) :
    Changes base change fs (fs2.setDisk disk') := by
  obtain ⟨⟨sb, fssize, outstanding, inum, valid⟩, before, after, first, chg, last⟩ := changes
  rw [image_alike begun] at first
  refine ⟨⟨?_, ?_, ?_, inum, valid⟩, before, after, first, chg, ?_⟩
  · rw [setDisk_disk, ended.sb, sb, setDisk_disk, begun.sb]
  · rw [setDisk_disk, ended.fssize, fssize, setDisk_disk, begun.fssize]
  · rw [setDisk_disk] at outstanding ⊢
    omega
  · rw [image_alike ended]
    exact last

theorem Fades.transaction (fades : Fades base (fs.setDisk disk) fs2) (begun : fs.disk.Alike disk)
    (op : disk.log.outstanding = fs.disk.log.outstanding + 1) (ended : fs2.disk.Alike disk')
    (closed : disk'.log.outstanding = fs2.disk.log.outstanding - 1) : Fades base fs (fs2.setDisk disk') := by
  obtain ⟨stays, before, _, first, rfl, last⟩ :=
    (fades.changes fun _ => rfl : Changes base Eq _ _).transaction begun op ended closed
  refine ⟨stays, first.trans last, fun back => ?_⟩
  rw [image_alike ended, ← image_alike begun] at back
  rw [setDisk_disk, ended.block, fades.same back, setDisk_disk, begun.block]

end

section

variable {k : Kernel} {ip : Slot}

theorem File.claims_nonneg (file : File) (ip : Slot) : 0 ≤ file.claims ip := by
  unfold File.claims
  split <;> decide

theorem Proc.claims_nonneg (proc : Proc) (ip : Slot) : 0 ≤ proc.claims ip := by
  unfold Proc.claims
  split <;> decide

theorem fileClaims_nonneg (k : Kernel) (ip : Slot) : 0 ≤ ∑ f, (k.ftable f).claims ip :=
  Finset.sum_nonneg fun f _ => (k.ftable f).claims_nonneg ip

theorem procClaims_nonneg (k : Kernel) (ip : Slot) : 0 ≤ ∑ p, (k.ptable p).claims ip :=
  Finset.sum_nonneg fun p _ => (k.ptable p).claims_nonneg ip

theorem refs_eq (k : Kernel) (ip : Slot) : k.fs.refs ip = k.excess ip +
    (∑ f, (k.ftable f).claims ip + ∑ p, (k.ptable p).claims ip) := by
  simp only [Kernel.excess, Pi.sub_apply, Pi.add_apply, Finset.sum_apply, sub_add_cancel]

theorem referenced_of_file (surplus : 0 ≤ k.excess ip) {f : FileSlot}
    (uses : (k.ftable f).uses ip) : 0 < k.fs.refs ip := by
  have one : (k.ftable f).claims ip = 1 := if_pos uses
  have sum : (k.ftable f).claims ip ≤ ∑ f, (k.ftable f).claims ip :=
    Finset.single_le_sum (fun g _ => (k.ftable g).claims_nonneg ip) (Finset.mem_univ f)
  have rest := procClaims_nonneg k ip
  rw [refs_eq]
  omega

theorem referenced_of_proc (surplus : 0 ≤ k.excess ip) {p : ProcSlot}
    (uses : (k.ptable p).uses ip) : 0 < k.fs.refs ip := by
  have one : (k.ptable p).claims ip = 1 := if_pos uses
  have sum : (k.ptable p).claims ip ≤ ∑ p, (k.ptable p).claims ip :=
    Finset.single_le_sum (fun q _ => (k.ptable q).claims_nonneg ip) (Finset.mem_univ p)
  have rest := fileClaims_nonneg k ip
  rw [refs_eq]
  omega

theorem referenced_of_excess (more : 0 < k.excess ip) : 0 < k.fs.refs ip := by
  have files := fileClaims_nonneg k ip
  have procs := procClaims_nonneg k ip
  rw [refs_eq]
  omega

end

section

variable {R : Rules} {k k' : Kernel} {change : (Nat → Node) → (Nat → Node) → Prop} {fs fs' : Fs} {base : Slot → Int} {ip : Slot}

theorem Changes.entry (changes : Changes base change fs fs') (types : KeepsTypes change)
    (cnt : 0 < base ip) (ty : (fs.nodeAt ip).type ≠ 0) :
    ((fs.icache ip).valid = true → (fs'.icache ip).valid = true) ∧ (fs'.nodeAt ip).type = (fs.nodeAt ip).type := by
  obtain ⟨stays, img, img', first, chg, last⟩ := changes
  have spared : fs.spared base (fs.icache ip).inum := ⟨ip, cnt, rfl⟩
  refine ⟨stays.valid ip cnt, ?_⟩
  rw [nodeAt, stays.inum ip cnt, last.same_of_spared spared]
  have eq := first.same_of_spared spared
  rw [types _ _ chg _ (by rwa [eq]), eq]
  rfl

theorem Changes.directory (changes : Changes base change fs fs') (types : KeepsTypes change)
    (cnt : 0 < base ip) (dir : IsDir (fs.nodeAt ip).type) : IsDir (fs'.nodeAt ip).type := by
  rw [(changes.entry types cnt (IsDir.blockType dir).ne_zero).2]
  exact dir

section

variable (run : Running R k) (types : KeepsTypes change) (sound : Sound R k'.fs)
  (evolves : Evolves change k.fs k'.fs) (tidy : FilesTidy k')

include run types sound evolves tidy

theorem Running.next {extra : Slot → Int} (excess : k'.excess = k.excess + extra)
    (more : ∀ ip, 0 ≤ extra ip ∧ (0 < extra ip → IsDir (k'.fs.nodeAt ip).type))
    (files : ∀ f ip, (k'.ftable f).uses ip → Opened k'.fs (k'.ftable f) ip ∨
      (k.ftable f).uses ip ∧ (k'.ftable f).writable = (k.ftable f).writable)
    (homes : ∀ p ip, (k'.ptable p).uses ip → IsDir (k'.fs.nodeAt ip).type ∨ (k.ptable p).uses ip) :
    Advances R change k k' := by
  have surplus : ∀ ip, 0 ≤ k'.excess ip := fun ip => by
    rw [excess]
    exact Int.add_nonneg (run.surplus ip) (more ip).1
  have directory : ∀ ip, IsDir (k.fs.nodeAt ip).type → 0 < k.fs.refs ip →
      0 < k'.fs.refs ip → IsDir (k'.fs.nodeAt ip).type :=
    fun ip dir pre after => Changes.directory evolves types (lt_min pre after) dir
  refine ⟨⟨sound, ?_, tidy, surplus, fun ip cnt => ?_, fun f ip uses => ?_, fun p ip uses => ?_⟩, evolves⟩
  · rw [evolves.outstanding]
    exact run.idle
  · by_cases new : 0 < extra ip
    · exact (more ip).2 new
    · have old : 0 < k.excess ip := by
        have sum := congrFun excess ip
        have least := (more ip).1
        rw [Pi.add_apply] at sum
        omega
      exact directory ip (run.stray ip old) (referenced_of_excess old) (referenced_of_excess cnt)
  · rcases files f ip uses with op | ⟨old, writable⟩
    · exact op
    · obtain ⟨valid, apart⟩ := run.files f ip old
      have pre := referenced_of_file (run.surplus ip) old
      have ty : (k.fs.nodeAt ip).type ≠ 0 := by
        rw [nodeAt, (run.sound.image_slot pre valid).1]
        exact (run.sound.loaded ip pre valid).2
      obtain ⟨kept, eq⟩ := Changes.entry evolves types (lt_min pre (referenced_of_file (surplus ip) uses)) ty
      refine ⟨kept valid, fun may => ?_⟩
      rw [eq]
      exact apart (writable ▸ may)
  · rcases homes p ip uses with dir | old
    · exact dir
    · exact directory ip (run.homes p ip old)
        (referenced_of_proc (run.surplus ip) old) (referenced_of_proc (surplus ip) uses)

theorem Running.next_balanced (excess : k'.excess = k.excess)
    (files : ∀ f ip, (k'.ftable f).uses ip → Opened k'.fs (k'.ftable f) ip ∨
      (k.ftable f).uses ip ∧ (k'.ftable f).writable = (k.ftable f).writable)
    (homes : ∀ p ip, (k'.ptable p).uses ip → IsDir (k'.fs.nodeAt ip).type ∨ (k.ptable p).uses ip) :
    Advances R change k k' :=
  run.next types sound evolves tidy (excess.trans (add_zero _).symm)
    (fun _ => ⟨le_rfl, fun more => absurd more (lt_irrefl _)⟩) files homes

end

end

end Xv6
