import Xv6.Directory
import Xv6.Lib.Slots
import Xv6.Lib.Reach

/-! A directory as a finite map from names, cut to `DIRSIZ` bytes, to inode numbers, over any
history of `dirlink` calls and of entries cleared the way `sys_unlink` clears them. -/

namespace Xv6

open Exec Slots Reach Fs Node Disk List Function

/-- The part of `sys_unlink` that clears the entry: it is looked up and zeroes are written over it. -/
def clearEntry (dp : Slot) (name : List UInt8) : FsM Bool := do
  let entry ← dirlookup dp name
  match entry with
  | none => return false
  | some (ip, off) => do
      let count ← writei dp (fun _ => 0) (BitVec.ofNat 32 off) (BitVec.ofNat 32 deSize)
      if count ≠ deSize then panic "unlink: writei"
      else do
        iput ip
        return true

inductive DirOp where
  | link (name : List UInt8) (inum : Nat)
  | clear (name : List UInt8)

namespace DirOp

def run (dp : Slot) : DirOp → FsM Bool
  | .link name inum => dirlink dp name inum
  | .clear name => clearEntry dp name

def effect (map : List UInt8 → Option Nat) : DirOp → List UInt8 → Option Nat
  | .link name inum =>
    if map (cname name) = none then update map (cname name) (some inum) else map
  | .clear name => update map (cname name) none

end DirOp

def maxEntries : Nat := MAXFILE * BSIZE / deSize

def Node.live (node : Node) : Nat := ((List.range maxEntries).filter fun k => (node.slot k).isSome).length

def DirOp.Allowed (dp : Slot) (s : Fs × (List UInt8 → Option Nat)) : DirOp → Prop
  | .link name inum => 0 < inum ∧ inum < 2 ^ 16 ∧
      (s.2 (cname name) = none → (s.1.nodeAt dp).live < maxEntries)
  | .clear _ => True

def DirOp.Next (dp : Slot) (s : Fs × (List UInt8 → Option Nat)) (op : DirOp)
    (s' : Fs × (List UInt8 → Option Nat)) : Prop :=
  (op.run dp s.1).state? = some s'.1 ∧ s'.2 = op.effect s.2

/-- Ways to stop for lack of blocks, cache entries or room in the log. -/
def NoRoom (why : Stop) : Prop := why = outOfBlocks ∨ why = noInodes ∨ why = tooBig

section

variable {fs fs' : Fs} {dp : Slot} {map : List UInt8 → Option Nat} {node : Node} {name : List UInt8}

section

variable (opened : OpenDir fs dp)

include opened

theorem OpenDir.idle (idle : Idle fs fs') : OpenDir fs' dp ∧ fs'.nodeAt dp = fs.nodeAt dp := by
  have entry : fs'.icache dp = fs.icache dp := by
    rcases idle.entry dp with eq | ⟨unused, _⟩
    · exact eq
    · have := opened.referenced
      omega
  refine ⟨⟨opened.well.of_disk idle.disk, ⟨idle.coherent opened.ambient.toCoherent, ?_⟩, ?_, ?_, ?_⟩, ?_⟩
  · exact idle.disk ▸ opened.ambient.opened
  · exact entry ▸ opened.referenced
  · exact entry ▸ opened.valid
  · exact entry ▸ opened.directory
  · rw [nodeAt, nodeAt, entry, image_congr (congrArg sb idle.disk) (congrArg block idle.disk)]

theorem OpenDir.recasts (well : WellFormed fs') (ambient : Ambient fs') (recasts : Recasts fs fs' dp)
    (image : fs'.image = update fs.image (fs.icache dp).inum node) (type : node.type = (fs.nodeAt dp).type) :
    OpenDir fs' dp ∧ fs'.nodeAt dp = node := by
  have inum : (fs'.icache dp).inum = (fs.icache dp).inum := by
    rw [recasts.entry]
    rfl
  have held : 0 < (fs'.icache dp).ref := by
    rw [recasts.entry]
    exact opened.referenced
  have valid : (fs'.icache dp).valid = true := by
    rw [recasts.entry]
    exact opened.valid
  have node : fs'.nodeAt dp = node := by
    rw [nodeAt, image, inum, update_self]
  refine ⟨⟨well, ambient, held, valid, ?_⟩, node⟩
  rw [← (ambient.toCoherent.image_slot held valid).1, ← nodeAt, node, type, nodeAt,
    (opened.ambient.toCoherent.image_slot opened.referenced opened.valid).1]
  exact opened.directory

theorem OpenDir.got {slot : Slot} {inum : Nat} (got : Got fs fs' slot inum) :
    OpenDir fs' dp ∧ fs'.nodeAt dp = fs.nodeAt dp := by
  have ent : 0 < (fs'.icache dp).ref ∧ (fs'.icache dp).inum = (fs.icache dp).inum ∧
      (fs'.icache dp).valid = true ∧ (fs'.icache dp).dinode = (fs.icache dp).dinode := by
    have held := opened.referenced
    have valid := opened.valid
    rw [got.entry held]
    by_cases eq : dp = slot
    · subst eq
      rw [if_pos rfl]
      exact ⟨by simp only [Inode.setRef_ref]; omega, rfl, valid, rfl⟩
    · rw [if_neg eq]
      exact ⟨held, rfl, valid, rfl⟩
  refine ⟨⟨opened.well.of_disk got.disk, ⟨got.coherent opened.ambient.toCoherent, ?_⟩, ent.1, ent.2.2.1, ?_⟩, ?_⟩
  · exact got.disk ▸ opened.ambient.opened
  · rw [ent.2.2.2]
    exact opened.directory
  · rw [nodeAt, nodeAt, ent.2.1, image_congr (congrArg sb got.disk) (congrArg block got.disk)]

theorem OpenDir.setRef {slot : Slot} {ref : Int} (held : 0 < (fs.icache slot).ref)
    (shared : slot = dp → 0 < ref) : OpenDir (fs.setInode slot ((fs.icache slot).setRef ref)) dp ∧
      (fs.setInode slot ((fs.icache slot).setRef ref)).nodeAt dp = fs.nodeAt dp := by
  have coherent := opened.ambient.toCoherent.reference held ref
  have well := opened.well.of_disk (setInode_disk fs slot ((fs.icache slot).setRef ref))
  by_cases eq : slot = dp
  · subst eq
    refine ⟨⟨well, ⟨coherent, opened.ambient.opened⟩, ?_, ?_, ?_⟩, ?_⟩
    · rw [setInode_same]
      exact shared rfl
    · rw [setInode_same]
      exact opened.valid
    · rw [setInode_same]
      exact opened.directory
    · rw [nodeAt, setInode_same]
      rfl
  · have ent := setInode_ne ((fs.icache slot).setRef ref) fs slot (Ne.symm eq)
    refine ⟨⟨well, ⟨coherent, opened.ambient.opened⟩, ?_, ?_, ?_⟩, ?_⟩
    · exact ent ▸ opened.referenced
    · exact ent ▸ opened.valid
    · exact ent ▸ opened.directory
    · rw [nodeAt, ent]
      rfl

end

structure Charted (dp : Slot) (fs : Fs) (map : List UInt8 → Option Nat) : Prop where
  opened : OpenDir fs dp
  aligned : deSize ∣ (fs.nodeAt dp).size.toNat
  slots : Represents (fs.nodeAt dp).slot map

theorem Node.aligned_write {src : Nat → UInt8} {k : Nat} (aligned : deSize ∣ node.size.toNat)
    (fits : deSize * k + deSize ≤ MAXFILE * BSIZE) : deSize ∣ (node.write src (deSize * k) deSize).size.toNat := by
  have limit : MAXFILE * BSIZE < 2 ^ 32 := by decide
  rw [write_size (by omega)]
  simp only [deSize] at *
  omega

def Answers (dp : Slot) (fs : Fs) (name : List UInt8) (answer : Option Nat) : Prop :=
  Holds (dirlookup dp name) fs (fun found after => (found.map fun entry => (after.icache entry.1).inum) = answer)
    fun why => why = noInodes

theorem Charted.unknown (chart : Charted dp fs map)
    (absent : ∀ j i, (fs.nodeAt dp).slot j ≠ some (cname name, i)) : map (cname name) = none := by
  cases known : map (cname name) with
  | none => rfl
  | some i =>
    obtain ⟨j, here⟩ := chart.slots.found _ i known
    exact absurd here (absent j i)

theorem Charted.answers (chart : Charted dp fs map) (name : List UInt8) : Answers dp fs name (map (cname name)) := by
  refine holds_dirlookup chart.opened (fun _ => rfl) (fun short => absurd chart.aligned short)
    (fun absent => ?_) fun j i slot after here got => ?_
  · rw [chart.unknown absent]
    rfl
  · rw [chart.slots.entry j _ i here.1, Option.map_some, got.number]

theorem Node.live_eq_max {k : Nat} (pre : ∀ j < k, node.slot j ≠ none) (many : maxEntries ≤ k) :
    node.live = maxEntries := by
  rw [live, filter_eq_self.mpr, length_range]
  intro j low
  rw [mem_range] at low
  exact Option.isSome_iff_ne_none.mpr (pre j (by omega))

theorem Charted.holds_dirlink {inum : Nat} (chart : Charted dp fs map)
    (ok : DirOp.Allowed dp (fs, map) (.link name inum)) : Holds (dirlink dp name inum) fs (fun linked after =>
      (linked = false ↔ map (cname name) ≠ none) ∧ (linked = false → Idle fs after) ∧
        Charted dp after (DirOp.effect map (.link name inum))) NoRoom := by
  obtain ⟨pos, narrow, room⟩ := ok
  have limit : MAXFILE * BSIZE < 2 ^ 32 := by decide
  refine Xv6.holds_dirlink chart.opened (.inr (.inl rfl)) (.inr (.inr rfl)) (.inl rfl)
    (fun short => absurd chart.aligned short) (fun absent k pre large => ?_)
    (fun j i after here idle => ?_) fun absent k after empty _ low small well env recasts img => ?_
  · -- a full directory has no room for one more
    have many : maxEntries ≤ k := by
      have whole : MAXFILE * BSIZE = 16 * maxEntries := by decide
      simp only [deSize] at large
      omega
    exact absurd (room (chart.unknown absent)) (by rw [live_eq_max pre many]; omega)
  · have known := chart.slots.entry j _ i here
    obtain ⟨opened, node⟩ := chart.opened.idle idle
    refine ⟨by simp [known], fun _ => idle, opened, node ▸ chart.aligned, ?_⟩
    rw [node, DirOp.effect, if_neg (by simp [known])]
    exact chart.slots
  · have unknown := chart.unknown absent
    obtain ⟨opened, node⟩ := chart.opened.recasts well env recasts img rfl
    refine ⟨by simp [unknown], by simp, opened, ?_, ?_⟩
    · rw [node]
      exact aligned_write chart.aligned small
    · rw [node, enter, slot_write_dirent name low (by omega) pos narrow, DirOp.effect, if_pos unknown]
      exact chart.slots.insert unknown empty

theorem Charted.holds_clearEntry (chart : Charted dp fs map) : Holds (clearEntry dp name) fs
      (fun _ after => Charted dp after (DirOp.effect map (.clear name))) NoRoom := by
  have limit : MAXFILE * BSIZE < 2 ^ 32 := by decide
  rw [clearEntry, holds_bind]
  refine holds_dirlookup chart.opened (fun _ => .inr (.inl rfl))
    (fun short => absurd chart.aligned short) (fun absent => ?_) fun j i slot after ⟨here, _⟩ got => ?_
  · have unknown := chart.unknown absent
    rw [holds_pure]
    refine ⟨chart.opened, chart.aligned, ?_⟩
    rw [DirOp.effect, update_eq_self_iff.mpr unknown.symm]
    exact chart.slots
  · obtain ⟨opened, same⟩ := chart.opened.got got
    have low := lt_of_slot here
    have small := chart.opened.limit
    simp only [holds_bind, holds_ite, holds_panic]
    refine holds_writei_dirent opened (by rw [same]; omega) (.inr (.inr rfl)) (.inl rfl)
      (fun large => absurd large (by omega)) fun fs' well env recasts img _ => ?_
    obtain ⟨opened', node⟩ := opened.recasts well env recasts img rfl
    -- the reference that the lookup took is given back, and frees nothing
    have ref : (fs'.icache slot).ref = (after.icache slot).ref ∧
        (fs'.icache slot).valid = (after.icache slot).valid := by
      by_cases self : slot = dp
      · rw [self, recasts.entry]
        exact ⟨rfl, rfl⟩
      · rw [recasts.other slot self]
        exact ⟨rfl, rfl⟩
    have n := got.ref
    have pos : 0 < (fs'.icache slot).ref := by
      by_cases held : 0 < (fs.icache slot).ref
      · omega
      · have := (got.fresh held).1
        omega
    refine holds_iput_kept (fun freed => ?_) ?_
    · obtain ⟨_, invalid, _⟩ := got.fresh (by omega)
      rw [ref.2, invalid] at freed
      cases freed.2.1
    · obtain ⟨final, kept⟩ := opened'.setRef pos (fun self => show 0 < (fs'.icache slot).ref - 1 by
        have held := chart.opened.referenced
        rw [← self] at held
        omega)
      rw [holds_pure]
      refine ⟨final, ?_, ?_⟩
      · rw [kept, node, same]
        exact aligned_write chart.aligned (by omega)
      · rw [kept, node, same, slot_write_zero (by omega) (by omega)]
        exact chart.slots.remove here

theorem Charted.next {map' : List UInt8 → Option Nat} {op : DirOp} (chart : Charted dp fs map)
    (ok : op.Allowed dp (fs, map)) (next : op.Next dp (fs, map) (fs', map')) : Charted dp fs' map' := by
  obtain ⟨ran, rfl⟩ := next
  cases op with
  | link name inum =>
    obtain ⟨_, done⟩ := (chart.holds_dirlink ok).of_state? ran
    exact done.2.2
  | clear name => exact chart.holds_clearEntry.final ran

end

/-- A directory is a finite map from names to inodes, unless blocks, cache entries or room in the log run
out. -/
theorem directory_finite_map {fs : Fs} {dp : Slot} (opened : OpenDir fs dp)
    (empty : (fs.icache dp).dinode.size = 0) {fs' : Fs} {map : List UInt8 → Option Nat}
    (reached : Reachable (DirOp.Next dp) (fun s op => op.Allowed dp s) (fs, fun _ => none) (fs', map)) :
    deSize ∣ (fs'.nodeAt dp).size.toNat ∧ (∀ name j k i i', (fs'.nodeAt dp).slot j = some (cname name, i) →
      (fs'.nodeAt dp).slot k = some (cname name, i') → j = k) ∧ (∀ name, Answers dp fs' name (map (cname name))) ∧
    (∀ name inum, DirOp.Allowed dp (fs', map) (.link name inum) → Holds (dirlink dp name inum) fs' (fun linked after =>
        (linked = false ↔ map (cname name) ≠ none) ∧ (linked = false → Idle fs' after) ∧
        (linked = true → Answers dp after name (some inum)) ∧
        ∀ other, cname other ≠ cname name → Answers dp after other (map (cname other))) NoRoom) ∧
    ∀ name, Holds (clearEntry dp name) fs' (fun _ after => Answers dp after name none ∧
      ∀ other, cname other ≠ cname name → Answers dp after other (map (cname other))) NoRoom := by
  have start : Charted dp fs fun _ => none := by
    have size : (fs.nodeAt dp).size.toNat = 0 := by
      rw [opened.size, empty]
      rfl
    refine ⟨opened, by simp [size], .empty fun k => Node.slot_beyond ?_⟩
    omega
  have chart : Charted dp fs' map :=
    reached.invariant (fun s : Fs × (List UInt8 → Option Nat) => Charted dp s.1 s.2) start
      fun _ _ _ chart ok next => chart.next ok next
  refine ⟨chart.aligned, fun name j k i i' => chart.slots.unique j k _ i i', chart.answers,
    fun name inum ok => ?_, fun name => ?_⟩
  · refine (chart.holds_dirlink ok).conseq ?_
    rintro linked after ⟨failed, idle, chart'⟩
    refine ⟨failed, idle, fun success => ?_, fun other different => ?_⟩
    · have fresh : map (cname name) = none := by
        by_contra known
        rw [failed.mpr known] at success
        cases success
      have answer := chart'.answers name
      rwa [DirOp.effect, if_pos fresh, update_self] at answer
    · have answer := chart'.answers other
      rw [DirOp.effect] at answer
      split at answer
      · rwa [update_of_ne different] at answer
      · exact answer
  · refine chart.holds_clearEntry.conseq fun _ after chart' => ⟨?_, fun other different => ?_⟩
    · have answer := chart'.answers name
      rwa [DirOp.effect, update_self] at answer
    · have answer := chart'.answers other
      rwa [DirOp.effect, update_of_ne different] at answer

def emptyDirFs : Fs := Fs.single (Disk.blankWith markedBitmap).inOp ROOTINO (Dinode.fresh T_DIR)

theorem emptyDirFs_opened : OpenDir emptyDirFs 0 :=
  ⟨single_wellFormed ⟨rfl, rfl, rfl, fun _ _ => rfl⟩ (by decide) rfl rfl markedBitmap_free,
    ⟨single_coherent ⟨rfl, rfl, rfl, fun _ _ => rfl⟩ (by decide) markedBitmap_marked (by decide),
      by decide⟩, by decide, by decide, .inl rfl⟩

theorem directory_finite_map_long : ∃ fs' : Fs, (dirlink 0 (List.replicate 16 97) 7 emptyDirFs).state? = some fs' ∧
    Answers 0 fs' (List.replicate 14 97) (some 7) := by
  have checked : ((dirlink 0 (List.replicate 16 97) 7 emptyDirFs).state?.isSome) = true := by
    decide +kernel
  obtain ⟨fs', ran⟩ := Option.isSome_iff_exists.mp checked
  have ok : DirOp.Allowed 0 (emptyDirFs, fun _ => none) (.link (List.replicate 16 97) 7) := by
    refine ⟨by decide, by decide, fun _ => ?_⟩
    have none : ∀ k, (emptyDirFs.nodeAt 0).slot k = none := fun k => Node.slot_beyond (by
      rw [emptyDirFs_opened.size]
      exact Nat.zero_le _)
    simp only [Node.live, none, Option.isSome_none, List.filter_false, List.length_nil]
    decide
  have next : DirOp.Next 0 (emptyDirFs, fun _ => none) (.link (List.replicate 16 97) 7)
      (fs', DirOp.effect (fun _ => none) (.link (List.replicate 16 97) 7)) := ⟨ran, rfl⟩
  have reached : Reachable (DirOp.Next 0) (fun s op => op.Allowed 0 s)
      (emptyDirFs, fun _ => none) (fs', DirOp.effect (fun _ => none) (.link (List.replicate 16 97) 7)) :=
    Reachable.step _ .start ok next
  have answers := (directory_finite_map emptyDirFs_opened (by rfl) reached).2.2.1 (List.replicate 14 97)
  exact ⟨fs', ran, answers⟩

end Xv6
