import Xv6.LogCrash
import Xv6.Lib.Reach

/-! The logged disk over whole histories: commits that return, and crashes inside them followed by
reboots. Outside the log it is a store that takes each transaction as one atomic write. -/

namespace Xv6

open Reach Writes

structure LogUpdate where
  lh : LogHeader
  cache : Nat → Option Block

inductive LogEvent
  | commits (update : LogUpdate)
  | crashes (update : LogUpdate) (count : Nat)

def LogEvent.update : LogEvent → LogUpdate
  | commits update => update
  | crashes update _ => update

def LogUpdate.run (s0 : Nat) (update : LogUpdate) (disk : Nat → Block) : Machine :=
  commit s0 update.lh ⟨disk, update.cache, []⟩

/-- What the disk holds after the event; a crash comes after `count` writes of `commit`, and then the machine
reboots until a recovery runs to its end. -/
def DiskStep (s0 size : Nat) (disk : Nat → Block) (event : LogEvent) (disk' : Nat → Block) : Prop :=
  Transaction s0 size event.update.lh ∧ match event with
    | .commits update => disk' = (update.run s0 disk).disk
    | .crashes update count => ∃ reached m,
        Crashes s0 (applyAll disk ((update.run s0 disk).writes.take count)) reached ∧
          recoverFromLog s0 (.boot reached) = some m ∧ disk' = m.disk

/-- The block store that the log is there for: no log, every transaction one write. -/
def LogUpdate.write (update : LogUpdate) (home : Nat → Block) : Nat → Block :=
  installed update.lh (fun blockno => (update.cache blockno).getD (home blockno)) home

def StoreStep (home : Nat → Block) (event : LogEvent) (home' : Nat → Block) : Prop :=
  match event with
  | .commits update => home' = update.write home
  | .crashes update count => home' = update.write home ∨ count ≤ update.lh.n ∧ home' = home

variable {s0 size : Nat} {home disk : Nat → Block}

theorem commit_disk {lh : LogHeader} (tx : Transaction s0 size lh) (cache : Nat → Option Block) :
    (commit s0 lh ⟨disk, cache, []⟩).disk = applyAll disk (commit s0 lh ⟨disk, cache, []⟩).writes := by
  rw [commit]
  split
  · have whole := (((writeLog_issues s0 lh.blocks 0 ⟨disk, cache, []⟩ tx.apart).trans
      (writeHead_issues s0 lh _)).trans (installTrans_issues s0 lh.blocks 0 _ tx.apart)).trans
      (writeHead_issues s0 .empty _)
    rw [whole.disk_eq, whole.writes_eq]
    rfl
  · rfl

section

variable {update : LogUpdate} {disk' : Nat → Block} (clean : Clean s0 size home disk)

include clean

theorem Clean.write (after : Clean s0 size
    (installed update.lh (Machine.contents ⟨disk, update.cache, []⟩) disk) disk') :
    Clean s0 size (update.write home) disk' := by
  refine ⟨after.header, fun b out => ?_⟩
  rw [after.rest b out, LogUpdate.write, installed, installed, clean.rest b out, Machine.contents]
  dsimp only
  rw [clean.rest b out]

variable (tx : Transaction s0 size update.lh)

include tx

theorem Clean.commit : Clean s0 size (update.write home) (update.run s0 disk).disk := by
  refine clean.write ?_
  have own : Clean s0 size disk disk := ⟨clean.header, fun _ _ => rfl⟩
  rw [LogUpdate.run, commit_disk tx]
  by_cases some : update.lh.n > 0
  · obtain ⟨head, cleared, decoded, none, writes⟩ := commit_writes tx some disk update.cache
    rw [writes, applyAll_append]
    exact (own.committed tx head decoded).cleared tx cleared none
  · have empty : update.lh.blocks = [] := List.length_eq_zero_iff.mp (Nat.le_zero.mp (not_lt.mp some))
    rw [Xv6.commit, if_neg some]
    exact ⟨clean.header, fun b _ => by simp [installed, empty]⟩

theorem Clean.crash (count : Nat) {reached : Nat → Block}
    (crashes : Crashes s0 (applyAll disk ((update.run s0 disk).writes.take count)) reached) :
    ∃ m, recoverFromLog s0 (.boot reached) = some m ∧ (Clean s0 size (update.write home) m.disk ∨
        count ≤ update.lh.n ∧ Clean s0 size home m.disk) := by
  have room := tx.room
  rcases commit_cut tx disk update.cache clean.header count with ⟨early, old⟩ | new
  · obtain ⟨m, ran, final, _⟩ := (old.crashes (by omega) crashes).recover (by omega)
    exact ⟨m, ran, .inr ⟨early, final.header, fun b out =>
      (final.rest b out).trans (clean.rest b out)⟩⟩
  · rcases Committed.crashes tx new crashes with committed | complete
    · obtain ⟨m, ran, final, _⟩ := committed.recover tx
      exact ⟨m, ran, .inl (clean.write final)⟩
    · obtain ⟨m, ran, final, _⟩ := complete.recover (by omega)
      exact ⟨m, ran, .inl (clean.write final)⟩

end

theorem Clean.step {event : LogEvent} {disk' : Nat → Block} (clean : Clean s0 size home disk)
    (stepped : DiskStep s0 size disk event disk') :
    ∃ home', StoreStep home event home' ∧ Clean s0 size home' disk' := by
  obtain ⟨tx, taken⟩ := stepped
  cases event with
  | commits update =>
    rw [taken]
    exact ⟨_, rfl, clean.commit tx⟩
  | crashes update count =>
    obtain ⟨reached, m, crashes, ran, rfl⟩ := taken
    obtain ⟨recovered, ran', after⟩ := clean.crash tx count crashes
    obtain rfl : m = recovered := Option.some.inj (ran.symm.trans ran')
    rcases after with new | ⟨early, old⟩
    · exact ⟨_, .inl rfl, new⟩
    · exact ⟨_, .inr ⟨early, rfl⟩, old⟩

/-- Every history of the logged disk is one of the store, and recovery never fails in it. -/
theorem log_refines_store (s0 size : Nat) (disk disk' : Nat → Block) (events : List LogEvent)
    (header : (disk s0).word 0 = 0) (run : Runs (DiskStep s0 size) disk events disk') :
    (∃ home', Runs StoreStep disk events home' ∧
      ∀ blockno, blockno < s0 ∨ s0 + size ≤ blockno → disk' blockno = home' blockno) ∧
    ∀ (update : LogUpdate) count reached, Transaction s0 size update.lh →
      Crashes s0 (applyAll disk' ((update.run s0 disk').writes.take count)) reached →
        (recoverFromLog s0 (.boot reached)).isSome := by
  obtain ⟨home', stored, clean⟩ := run.simulate (fun disk home => Clean s0 size home disk)
    (fun _ _ _ _ clean stepped => clean.step stepped) ⟨header, fun _ _ => rfl⟩
  refine ⟨⟨home', stored, clean.rest⟩, fun update count reached tx crashes => ?_⟩
  obtain ⟨m, ran, _⟩ := clean.crash tx count crashes
  rw [ran, Option.isSome_some]

/-- A commit, and one of two blocks that crashes right after its header is on the disk. -/
theorem log_refines_store_crash : let disk : Nat → Block := fun _ => Bytes.zero
    let first : LogUpdate := ⟨⟨[40], by decide⟩, fun _ => some (Bytes.setWord Bytes.zero 0 7)⟩
    let second : LogUpdate := ⟨⟨[40, 41], by decide⟩, fun _ => some (Bytes.setWord Bytes.zero 0 9)⟩
    ∃ disk' home', Runs (DiskStep 2 LOGSIZE) disk [.commits first, .crashes second 3] disk' ∧
      Runs StoreStep disk [.commits first, .crashes second 3] home' ∧ disk' 40 = home' 40 ∧ disk' 41 = home' 41 := by
  intro disk first second
  have one : Transaction 2 LOGSIZE first.lh := ⟨by decide, by decide, by decide⟩
  have two : Transaction 2 LOGSIZE second.lh := ⟨by decide, by decide, by decide⟩
  have recovers := (log_refines_store 2 LOGSIZE disk _ [.commits first] (Bytes.word_zero 0)
    (.cons ⟨one, rfl⟩ (.nil _))).2
  obtain ⟨m, ran⟩ := Option.isSome_iff_exists.mp (recovers second 3 _ two (.refl _))
  have run : Runs (DiskStep 2 LOGSIZE) disk [.commits first, .crashes second 3] m.disk :=
    .cons ⟨one, rfl⟩ (.cons ⟨two, _, m, .refl _, ran, rfl⟩ (.nil _))
  obtain ⟨⟨home', stored, rest⟩, _⟩ := log_refines_store 2 LOGSIZE disk _ _ (Bytes.word_zero 0) run
  exact ⟨m.disk, home', run, stored, rest 40 (by decide), rest 41 (by decide)⟩

end Xv6
