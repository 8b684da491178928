import Xv6.Lib.Reach

/-! `spinlock.c` on any number of CPUs: `acquire`, `release`, `pushcli` and `popcli`, where each access to
a lock that other CPUs can see is a step of its own. -/

namespace Xv6.SpinLock

open Function Reach

structure Lock (C : Type) where
  locked : Bool
  cpu : Option C

inductive Panic where
  | acquire
  | release
  | popcli
  | interruptible
  deriving DecidableEq

/-- Where a CPU stands in `acquire` or `release`; it is `outside` in the code that calls them. -/
inductive Pc (L : Type) where
  | outside
  | checking (lk : L)
  | spinning (lk : L)
  | marking (lk : L)
  | clearing (lk : L)
  | unlocking (lk : L)
  | popping
  | panicked (reason : Panic)
  deriving DecidableEq

/-- The fields of `struct cpu` and the interrupt flag, and as history the locks between `acquire` and
`release`, the calls of `pushcli` not undone yet and the flag that code outside of all of these set last, or
that of the thread `sched` resumed. -/
structure Cpu (L : Type) where
  ncli : Nat
  intena : Bool
  eflags : Bool
  pc : Pc L
  locks : List L
  pushed : Nat
  flag : Bool

structure State (C L : Type) where
  lock : L → Lock C
  cpu : C → Cpu L

inductive Call (L : Type) where
  | acquire (lk : L)
  | release (lk : L)
  | pushcli
  | popcli
  | interrupts (flag : Bool)
  | sched (flag : Bool)

@[grind] def Cpu.pushcli {L : Type} (cpu : Cpu L) : Cpu L :=
  { cpu with eflags := false, intena := if cpu.ncli = 0 then cpu.eflags else cpu.intena, ncli := cpu.ncli + 1 }

def Cpu.popcli {L : Type} (cpu : Cpu L) : Cpu L :=
  if cpu.eflags then { cpu with pc := .panicked .interruptible }
  else if cpu.ncli = 0 then { cpu with pc := .panicked .popcli }
  else { cpu with ncli := cpu.ncli - 1, eflags := cpu.ncli = 1 && cpu.intena, pc := .outside }

variable {C L : Type} [DecidableEq C] [DecidableEq L]

@[simps] def State.set (st : State C L) (c : C) (cpu : Cpu L) : State C L :=
  { st with cpu := update st.cpu c cpu }

@[simps] def State.setLock (st : State C L) (lk : L) (lock : Lock C) : State C L :=
  { st with lock := update st.lock lk lock }

def State.holding (st : State C L) (c : C) (lk : L) : Bool :=
  (st.lock lk).locked && (st.lock lk).cpu = some c

def State.initial : State C L :=
  ⟨fun _ => ⟨false, none⟩, fun _ => ⟨0, false, false, .outside, [], 0, false⟩⟩

/-- `pushcli` and `popcli` by themselves come in pairs (`switchuvm`); the flag is set by `sti`, `cli`, an
interrupt or its end, none of which happens inside a pair. `sched` writes the `intena` of the thread it resumes. -/
def call (st : State C L) (c : C) : Call L → Option (State C L)
  | .acquire lk => some (st.set c { (st.cpu c).pushcli with pc := .checking lk })
  | .release lk =>
    let cpu := st.cpu c
    some (st.set c (if st.holding c lk then { cpu with pc := .clearing lk, locks := cpu.locks.erase lk }
      else { cpu with pc := .panicked .release }))
  | .pushcli => some (st.set c { (st.cpu c).pushcli with pushed := (st.cpu c).pushed + 1 })
  | .popcli =>
    if (st.cpu c).pushed = 0 then none
    else some (st.set c { (st.cpu c).popcli with pushed := (st.cpu c).pushed - 1 })
  | .interrupts flag =>
    if (st.cpu c).ncli = 0 then some (st.set c { st.cpu c with eflags := flag, flag }) else none
  | .sched flag => if (st.cpu c).ncli = 1 then some (st.set c { st.cpu c with intena := flag, flag }) else none

/-- The next access of the code that the CPU is in. -/
def run (st : State C L) (c : C) : Option (State C L) :=
  let goto := fun (pc : Pc L) => { st.cpu c with pc }
  match (st.cpu c).pc with
  | .checking lk => some (st.set c (goto (if st.holding c lk then .panicked .acquire else .spinning lk)))
  | .spinning lk =>
    if (st.lock lk).locked then some st
    else some ((st.setLock lk { st.lock lk with locked := true }).set c (goto (.marking lk)))
  | .marking lk =>
    some ((st.setLock lk { st.lock lk with cpu := some c }).set c
      { goto .outside with locks := lk :: (st.cpu c).locks })
  | .clearing lk => some ((st.setLock lk { st.lock lk with cpu := none }).set c (goto (.unlocking lk)))
  | .unlocking lk => some ((st.setLock lk { st.lock lk with locked := false }).set c (goto .popping))
  | .popping => some (st.set c (st.cpu c).popcli)
  | .outside | .panicked _ => none

def step (st : State C L) (c : C) : Option (Call L) → Option (State C L)
  | some made => if (st.cpu c).pc = .outside then call st c made else none
  | none => run st c

@[grind] def Pc.taken (lk : L) : Pc L → Bool
  | .marking own | .clearing own | .unlocking own => own = lk
  | _ => false

@[grind] def Pc.nested : Pc L → Nat
  | .outside | .panicked _ => 0
  | _ => 1

/-- The CPU is past the exchange in `acquire` and has not written the zero in `release`. -/
@[grind] def Cpu.has (cpu : Cpu L) (lk : L) : Prop := lk ∈ cpu.locks ∨ cpu.pc.taken lk

@[grind] def Cpu.marks (cpu : Cpu L) (lk : L) : Prop := lk ∈ cpu.locks ∨ cpu.pc = .clearing lk

structure Cpu.Sound (cpu : Cpu L) : Prop where
  depth : cpu.locks.length + cpu.pushed + cpu.pc.nested ≤ cpu.ncli
  even : (∃ reason, cpu.pc = .panicked reason) ∨ cpu.ncli = cpu.locks.length + cpu.pushed + cpu.pc.nested
  masked : if cpu.ncli = 0 then cpu.eflags = cpu.flag else cpu.eflags = false ∧ cpu.intena = cpu.flag
  nodup : cpu.locks.Nodup
  apart : ∀ lk, cpu.pc.taken lk ∨ cpu.pc = .spinning lk → lk ∉ cpu.locks
  reason : ∀ reason, cpu.pc = .panicked reason → reason = .acquire ∨ reason = .release

structure Safe (st : State C L) : Prop where
  cpu : ∀ c, (st.cpu c).Sound
  marked : ∀ c lk, (st.lock lk).cpu = some c ↔ (st.cpu c).marks lk
  locked : ∀ lk, (st.lock lk).locked = true ↔ ∃ c, (st.cpu c).has lk
  single : ∀ lk c c', (st.cpu c).has lk → (st.cpu c').has lk → c = c'

section

variable {s s' : State C L} {c : C} {k : Cpu L} {lk : L}

theorem Safe.set (safe : Safe s) (sound : k.Sound) (has : ∀ lk, k.has lk ↔ (s.cpu c).has lk)
    (marks : ∀ lk, k.marks lk ↔ (s.cpu c).marks lk) : Safe (s.set c k) := by
  obtain ⟨cpus, marked, locked, single⟩ := safe
  constructor <;> simp only [State.set_cpu, State.set_lock, update_apply]
  all_goals grind

/-- A step that keeps the locks and begins and ends where none is being taken or given back. -/
theorem Safe.goto (safe : Safe s) (sound : k.Sound) (locks : k.locks = (s.cpu c).locks)
    (before : ∀ lk, (s.cpu c).pc.taken lk = false) (after : ∀ lk, k.pc.taken lk = false) : Safe (s.set c k) := by
  refine safe.set sound (fun lk => ?_) fun lk => ?_
  · rw [Cpu.has, Cpu.has, locks, before, after]
  · rw [Cpu.marks, Cpu.marks, locks]
    refine or_congr Iff.rfl ⟨fun clearing => ?_, fun clearing => ?_⟩
    · simpa [clearing, Pc.taken] using after lk
    · simpa [clearing, Pc.taken] using before lk

/-- A step of `c` that changes only the lock `lk`, which no other CPU has. -/
theorem Safe.change (safe : Safe s) (sound : k.Sound) (lock : Lock C)
    (others : ∀ o, o ≠ lk → (k.has o ↔ (s.cpu c).has o) ∧ (k.marks o ↔ (s.cpu c).marks o))
    (alone : ∀ o, (s.cpu o).has lk → o = c) (locked : lock.locked = true ↔ k.has lk)
    (owner : ∀ o, lock.cpu = some o ↔ o = c ∧ k.marks lk) : Safe ((s.setLock lk lock).set c k) := by
  have mine : ∀ o, (s.cpu o).marks lk → o = c := fun o marks =>
    alone o (marks.imp id fun clearing => by simp [clearing, Pc.taken])
  obtain ⟨cpus, marked, taken, single⟩ := safe
  constructor <;> simp only [State.set_cpu, State.setLock_lock, State.set_lock, State.setLock_cpu, update_apply]
  all_goals grind

theorem Safe.holding_iff (safe : Safe s) (c : C) (lk : L) : s.holding c lk = true ↔ (s.cpu c).marks lk := by
  rw [State.holding, Bool.and_eq_true, decide_eq_true_eq, safe.marked, safe.locked]
  refine ⟨And.right, fun marks => ⟨⟨c, marks.imp id fun clearing => ?_⟩, marks⟩⟩
  simp [clearing, Pc.taken]

theorem Cpu.Sound.popcli {cpu : Cpu L} (sound : cpu.Sound) (nested : 0 < cpu.ncli) :
    cpu.popcli = { cpu with ncli := cpu.ncli - 1, eflags := cpu.ncli = 1 && cpu.flag, pc := .outside } := by
  have masked := sound.masked
  rw [if_neg (by omega)] at masked
  rw [Cpu.popcli, if_neg (by simp [masked.1]), if_neg (by omega), masked.2]

theorem Safe.call {call : Call L} (safe : Safe s) (outside : (s.cpu c).pc = .outside)
    (taken : SpinLock.call s c call = some s') : Safe s' := by
  have own := safe.cpu c
  have quiet : ∀ lk, (s.cpu c).pc.taken lk = false := by simp [outside, Pc.taken]
  obtain ⟨depth, even, masked, nodup, apart, reason⟩ := safe.cpu c
  cases call with
  | acquire lk =>
    cases taken
    refine safe.goto ?_ rfl quiet fun _ => rfl
    constructor <;> grind
  | release lk =>
    cases taken
    have holding := safe.holding_iff c lk
    split
    · refine safe.set (by constructor <;> grind) (fun o => ?_) fun o => ?_ <;> grind
    · refine safe.goto ?_ rfl quiet fun _ => rfl
      constructor <;> grind
  | pushcli =>
    cases taken
    refine safe.goto ?_ rfl quiet quiet
    constructor <;> grind
  | popcli =>
    simp only [SpinLock.call] at taken
    split at taken <;> cases taken
    rw [own.popcli (by omega)]
    refine safe.goto ?_ rfl quiet fun _ => rfl
    constructor <;> grind
  | interrupts flag | sched flag =>
    simp only [SpinLock.call] at taken
    split at taken <;> cases taken
    refine safe.goto ?_ rfl quiet quiet
    constructor <;> grind

theorem Safe.run (safe : Safe s) (taken : SpinLock.run s c = some s') : Safe s' := by
  have own := safe.cpu c
  have single := fun lk o => safe.single lk o c
  obtain ⟨depth, even, masked, nodup, apart, reason⟩ := safe.cpu c
  unfold SpinLock.run at taken
  cases place : (s.cpu c).pc with
  | outside | panicked => simp [place] at taken
  | checking lk =>
    have holding := safe.holding_iff c lk
    simp only [place] at taken
    cases taken
    refine safe.goto (by constructor <;> grind) rfl (by simp [place, Pc.taken]) fun lk' => ?_
    dsimp only
    split <;> rfl
  | spinning lk =>
    have locked := safe.locked lk
    have marked := fun o => safe.marked o lk
    simp only [place] at taken
    split at taken <;> cases taken
    · exact safe
    · refine safe.change (by constructor <;> grind) _ ?_ ?_ ?_ ?_ <;> grind
  | marking lk | clearing lk | unlocking lk =>
    have locked := safe.locked lk
    have marked := fun o => safe.marked o lk
    simp only [place] at taken
    cases taken
    refine safe.change (by constructor <;> grind) _ ?_ ?_ ?_ ?_ <;> grind
  | popping =>
    simp only [place] at taken
    cases taken
    rw [own.popcli (by simp only [place, Pc.nested] at depth; omega)]
    refine safe.goto ?_ rfl (by simp [place, Pc.taken]) fun _ => rfl
    constructor <;> grind

theorem Safe.step {made : Option (Call L)} (safe : Safe s) (taken : SpinLock.step s c made = some s') : Safe s' := by
  cases made with
  | none => exact safe.run taken
  | some made =>
    simp only [SpinLock.step] at taken
    split at taken
    · exact safe.call ‹_› taken
    · cases taken

end

omit [DecidableEq C] in
theorem Safe.initial : Safe (State.initial : State C L) := by
  refine ⟨fun c => ?_, ?_, ?_, ?_⟩
  · constructor <;> simp [State.initial, Pc.nested, Pc.taken]
  all_goals simp [State.initial, Cpu.marks, Cpu.has, Pc.taken]

end Xv6.SpinLock
