import Xv6.SchedThread

/-! Exclusion between processors: the steps of the scheduler, and what holds in every run. -/


namespace Xv6.Scheduler

open ProcTable (initproc)
open ProcTable.State (setProc setState)
open Reach Function ProcTable ThreadPc

variable {C : Type} [DecidableEq C] {s s' : State C} {c : C} {p q : ProcTable.Slot} {a : Action C}

/-! Steps of the scheduler. -/

section

omit [DecidableEq C] in
theorem CpuSafe.of_scheduler (idle : (s.cpu c).thread = none) (current : (s.cpu c).proc = (s.cpu c).scheduler.current)
    (guard : (s.cpu c).scheduler.locked = true ↔ s.lock = some c)
    (alive : ∀ p, (s.cpu c).scheduler.current = some p → used (s.table.proc p).state)
    (chosen : ∀ p, (s.cpu c).scheduler = .chosen p → (s.table.proc p).state = .runnable)
    (marked : ∀ p, (s.cpu c).scheduler = .marked p → (s.table.proc p).state = .running) : CpuSafe s c where
  current := current
  switched := by simp [idle]
  guard := by
    simp only [inside, idle]
    exact guard
  alive := by
    rw [current]
    exact alive
  chosen := chosen
  marked := marked
  running := by simp [idle]

variable {table : ProcTable.State} {pc : SchedPc}

theorem Touches.of_scheduler {lock : Option C} {cpu : Cpu} (others : ∀ c', c' ≠ c → (lock = some c' ↔ s.lock = some c'))
    (spares : ∀ q, (s.cpu c).proc ≠ some q → Spares (s.lock = some c) s.table table q) :
    Touches c s { s with table, lock, cpu := update s.cpu c cpu } where
  cpu := fun c' o => by simp [o]
  lock := others
  pc := fun q o => (spares q o).pc
  chan := fun q o => (spares q o).chan
  entry := fun q o => (spares q o).entry _ _

variable (safe : Safe s) (idle : (s.cpu c).thread = none)
include safe idle

omit [DecidableEq C] in
theorem Safe.loopGuard : (s.cpu c).scheduler.locked = true ↔ s.lock = some c := by
  rw [← (safe.cpu c).guard]
  simp only [inside, idle]

omit [DecidableEq C] in
theorem Safe.loopHeld (k : (s.cpu c).scheduler = pc) (locked : pc.locked = true) :
    s.lock = some c := (safe.loopGuard idle).mp (k ▸ locked)

section

variable (pre : (s.cpu c).scheduler.current = none)

include pre

theorem Safe.turn {lock : Option C} (after : pc.current = none)
    (others : ∀ c', c' ≠ c → (lock = some c' ↔ s.lock = some c')) (guard : pc.locked = true ↔ lock = some c)
    (spares : ∀ q, Spares (s.lock = some c) s.table table q) :
    Safe ({ s with table, lock : State C }.setScheduler c pc) := by
  have free : (s.cpu c).proc = none := (safe.cpu c).current.trans pre
  refine safe.step (.of_scheduler others fun q _ => spares q) ?_ ?_ ?_
  · refine .of_scheduler ?_ ?_ ?_ ?_ ?_ ?_
    · simpa using idle
    · simp [free, after]
    · simpa using guard
    · simp [after]
    · rintro p chosen
      simp only [State.setScheduler, State.setCpu, update_self] at chosen
      rw [chosen] at after
      cases after
    · rintro p marked
      simp only [State.setScheduler, State.setCpu, update_self] at marked
      rw [marked] at after
      cases after
  · simp [free]
  · simp [free]

theorem Safe.lockLoop (after : pc.current = none) (locked : pc.locked = true) (free : s.lock = none) :
    Safe ((s.setLock (some c)).setScheduler c pc) := by
  refine safe.turn idle pre after ?_ ?_ fun q => .same rfl rfl
  · intro c' o
    simp [free, Ne.symm o]
  · simp [locked]

theorem Safe.unlockLoop (held : (s.cpu c).scheduler.locked = true) (after : pc.current = none)
    (open_ : pc.locked = false) : Safe ((s.setLock none).setScheduler c pc) := by
  refine safe.turn idle pre after ?_ ?_ fun q => .same rfl rfl
  · intro c' o
    simp [(safe.loopGuard idle).mp held, Ne.symm o]
  · simp [open_]

end

theorem Safe.choose {i : Nat} (k : (s.cpu c).scheduler = .scan i) (runnable : (s.table.proc p).state = .runnable) :
    Safe (s.setCpu c ⟨some p, .chosen p, none⟩) := by
  have held := safe.loopHeld idle k rfl
  have free : (s.cpu c).proc = none := by
    rw [(safe.cpu c).current, k]
    rfl
  refine safe.step (.of_scheduler (fun _ _ => Iff.rfl) fun q _ => .same rfl rfl) ?_ ?_ ?_
  · refine .of_scheduler ?_ ?_ ?_ ?_ ?_ ?_
    · simp
    · simp [SchedPc.current]
    · simpa [SchedPc.locked] using held
    · rintro q chosen
      obtain rfl : p = q := by simpa [SchedPc.current] using chosen
      simp [used, runnable]
    · rintro q chosen
      obtain rfl : p = q := by simpa using chosen
      exact runnable
    · simp
  · rintro q chosen c' o cur
    obtain rfl : p = q := by simpa using chosen
    have run := ((safe.cpu c').unlocked cur (by
      rw [held]
      exact fun eq => o (Option.some.inj eq).symm)).2.2
    rw [runnable] at run
    contradiction
  · simp [free]

omit [DecidableEq C] idle in
theorem Safe.loopCurrent (k : (s.cpu c).scheduler.current = some p) :
    (s.cpu c).proc = some p := (safe.cpu c).current.trans k

omit [DecidableEq C] in
theorem Safe.nowhere (cur : (s.cpu c).proc = some p) (c' : C) : (s.cpu c').thread ≠ some p := by
  intro runs
  obtain rfl := safe.single c' c p ((safe.cpu c').proc runs) cur
  rw [idle] at runs
  contradiction

omit [DecidableEq C] in
theorem Safe.keep {cpu : C → Cpu} (cur : (s.cpu c).proc = some p)
    (lives : live (table.proc p).state ↔ live (s.table.proc p).state)
    (others : ∀ q, q ≠ p → table.proc q = s.table.proc q) (pc : table.pc = s.table.pc)
    (chan : (table.proc p).chan = (s.table.proc p).chan) :
    ThreadSafe { s with table, cpu } p ∧ Made s { s with table, cpu } p := by
  obtain ⟨fits, embryo, born⟩ := safe.thread p
  have embryo' : ∀ stage np, table.pc p = .forking stage np → (table.proc np).state = .embryo := by
    intro stage np forking
    rw [pc] at forking
    have unborn := embryo stage np forking
    rw [others np fun eq => safe.unborn unborn c (by rw [cur, eq]), unborn]
  have born' : ∀ stage np, table.pc p = .forking stage np → stage ≠ .stack → s.thread np = .parked .forkret := by
    rw [pc]
    exact born
  refine ⟨⟨?_, embryo', born'⟩, embryo', born', fun np bears => .inl ?_⟩
  · obtain ⟨quiet, buried, parked, may, waiting⟩ := fits
    simp only [pc, chan]
    exact ⟨quiet, fun dead => buried fun alive => dead (lives.mpr alive),
      fun alive _ => parked (lives.mp alive) (safe.nowhere idle cur), may, waiting⟩
  · simpa only [pc] using bears

theorem Safe.mark (k : (s.cpu c).scheduler = .chosen p) :
    Safe ((s.setTable (s.table.setState p .running)).setScheduler c (.marked p)) := by
  have runnable := (safe.cpu c).chosen p k
  have cur := safe.loopCurrent (p := p) (by rw [k]; rfl)
  have held := safe.loopHeld idle k rfl
  refine safe.step (.of_scheduler (fun _ _ => Iff.rfl) ?_) ?_ ?_ ?_
  · intro q o
    refine spares_setProc _ ?_
    rintro rfl
    exact o cur
  · refine .of_scheduler ?_ ?_ ?_ ?_ ?_ ?_
    · simpa using idle
    · simpa [SchedPc.current] using cur
    · simpa [SchedPc.locked] using held
    · rintro q marked
      obtain rfl : p = q := by simpa [SchedPc.current] using marked
      simp [setState, setProc, used]
    · simp
    · rintro q marked
      obtain rfl : p = q := by simpa using marked
      simp [setState, setProc]
  · simp only [State.setScheduler, State.setCpu, State.setTable, update_self]
    exact fun q also => safe.elsewhere also
  · intro q also
    obtain rfl : p = q := Option.some.inj (cur.symm.trans also)
    refine safe.keep idle cur ?_ ?_ rfl ?_
    · simp [live, used, runnable, setState, setProc]
    · intro q o
      simp [setState, setProc, o]
    · simp [setState, setProc]

theorem Safe.switchTo (k : (s.cpu c).scheduler = .marked p) :
    Safe (s.setCpu c { s.cpu c with scheduler := .back p, thread := some p }) := by
  have running := (safe.cpu c).marked p k
  have current := safe.loopCurrent (p := p) (by rw [k]; rfl)
  have held := safe.loopHeld idle k rfl
  have alive : live (s.table.proc p).state := by simp [live, used, running]
  have parked := (safe.thread p).fits.parked alive (safe.nowhere idle current)
  refine safe.step (.of_scheduler (fun _ _ => Iff.rfl) fun q _ => .same rfl rfl) ?_ ?_ ?_
  · constructor
    case current => simpa [SchedPc.current] using current
    case switched => simp
    case guard =>
      cases point : s.thread p <;> simp [point, isParked] at parked
      simpa [inside, point, ThreadPc.locked] using held
    case alive =>
      simp only [State.setCpu, update_self]
      exact (safe.cpu c).alive
    case chosen => simp
    case marked => simp
    case running =>
      intro q runs _
      obtain rfl : p = q := by simpa using runs
      exact running
  · simp only [State.setCpu, update_self]
    exact fun q also => safe.elsewhere also
  · intro q also
    obtain rfl : p = q := Option.some.inj (current.symm.trans also)
    exact safe.keep idle current Iff.rfl (fun _ _ => rfl) rfl rfl

theorem Safe.leaveProc (k : (s.cpu c).scheduler = .back p) : Safe (s.setCpu c ⟨none, .scan (p.val + 1), none⟩) := by
  have cur := safe.loopCurrent (p := p) (by rw [k]; rfl)
  have held := safe.loopHeld idle k rfl
  refine safe.step (.of_scheduler (fun _ _ => Iff.rfl) fun q _ => .same rfl rfl) ?_ ?_ ?_
  · refine .of_scheduler ?_ ?_ ?_ ?_ ?_ ?_
    · simp
    · simp [SchedPc.current]
    · simpa [SchedPc.locked] using held
    · simp [SchedPc.current]
    · simp
    · simp
  · simp
  · intro q also
    obtain rfl : p = q := Option.some.inj (cur.symm.trans also)
    exact safe.keep idle cur Iff.rfl (fun _ _ => rfl) rfl rfl

theorem Safe.schedStep (tk : schedStep s c = some s') : Safe s' := by
  unfold Scheduler.schedStep at tk
  split at tk
  · rename_i k
    split at tk <;> cases tk
    exact safe.lockLoop idle (by rw [k]; rfl) rfl rfl ‹_›
  · rename_i i k
    split at tk
    · split at tk
      · cases tk
        exact safe.choose idle k ‹_›
      · cases tk
        refine safe.turn idle (by rw [k]; rfl) rfl (fun _ _ => Iff.rfl) ?_ fun q => .same rfl rfl
        rw [← safe.loopGuard idle, k]
        rfl
    · cases tk
      exact safe.unlockLoop idle (by rw [k]; rfl) (by rw [k]; rfl) rfl rfl
  · cases tk
    exact safe.mark idle ‹_›
  · cases tk
    exact safe.switchTo idle ‹_›
  · cases tk
    exact safe.leaveProc idle ‹_›
  · rename_i addr k
    split at tk <;> cases tk
    exact safe.lockLoop idle (by rw [k]; rfl) rfl rfl ‹_›
  · rename_i addr k
    cases tk
    have held := safe.loopHeld idle k rfl
    refine safe.turn idle (by rw [k]; rfl) rfl (fun _ _ => Iff.rfl) ?_ fun q => .of_roused held rfl (roused_wakeup1 _ _)
    simpa [SchedPc.locked] using held
  · rename_i k
    cases tk
    exact safe.unlockLoop idle (by rw [k]; rfl) (by rw [k]; rfl) rfl rfl

end

omit [DecidableEq C] in
theorem free_bind {act : ProcTable.Slot → Option (State C)} : (s.free c).bind act = some s' ↔
    ∃ p, ((s.cpu c).thread = some p ∧ s.thread p = .user) ∧ act p = some s' := by
  simp [State.free, Option.bind_eq_some_iff]

theorem Safe.next (safe : Safe s) (tk : Next s a s') : Safe s' := by
  cases a with
  | begin c op =>
    simp only [Next, Scheduler.step, free_bind] at tk
    obtain ⟨p, ⟨runs, k⟩, tk⟩ := tk
    split at tk <;> cases tk
    exact safe.begin runs k ‹_›
  | interrupt c addr =>
    simp only [Next, Scheduler.step] at tk
    split at tk <;> cases tk
    rename_i here
    refine safe.turn here.1 (by rw [here.2]; rfl) rfl (fun _ _ => Iff.rfl) ?_ fun q => .same rfl rfl
    rw [← safe.loopGuard here.1, here.2]
    rfl
  | forkStack c given =>
    simp only [Next, Scheduler.step, free_bind] at tk
    obtain ⟨p, ⟨runs, k⟩, tk⟩ := tk
    exact safe.forkStack runs k tk
  | forkCopy c given =>
    simp only [Next, Scheduler.step, free_bind] at tk
    obtain ⟨p, ⟨runs, k⟩, tk⟩ := tk
    exact safe.forkCopy runs k tk
  | forkAdopt c =>
    simp only [Next, Scheduler.step, free_bind] at tk
    obtain ⟨p, ⟨runs, k⟩, tk⟩ := tk
    exact safe.forkAdopt runs k tk
  | run c =>
    simp only [Next, Scheduler.step] at tk
    split at tk
    · exact safe.threadStep ‹_› tk
    · exact safe.schedStep ‹_› tk

omit [DecidableEq C] in
theorem safe_initial : Safe (State.initial : State C) where
  cpu := by
    intro c
    refine .of_scheduler rfl rfl ?_ ?_ ?_ ?_
    · simp [State.initial, SchedPc.locked]
    · simp [State.initial, SchedPc.current]
    · simp [State.initial]
    · simp [State.initial]
  single := by simp [State.initial]
  thread := by
    intro p
    have quiet : (ProcTable.State.initial.proc p).chan = none := by
      rw [initial_eq]
      by_cases eq : p = initproc
      · subst p
        simp
      · simp [eq, ProcTable.State.empty]
    have outside : ProcTable.State.initial.pc p = .user := by
      rw [initial_eq]
      rfl
    constructor
    case fits => exact ⟨fun _ => quiet, fun _ => quiet, fun _ _ => rfl, by simp [State.initial], by simp [State.initial]⟩
    case embryo => simp [State.initial, outside]
    case born => simp [State.initial, outside]
  makers := by simp [State.initial, initial_eq, ProcTable.State.empty, ProcTable.Pc.bears]

theorem safe_of_reached (reached : Reachable Next (fun _ _ => True) State.initial s) : Safe s :=
  reached.invariant Safe safe_initial fun _ _ _ safe _ tk => safe.next tk

/-! Which steps switch to a process, and which free its stack and page directory. -/

def Frees (s s' : State C) (q : ProcTable.Slot) : Prop :=
  s.kstack q = true ∧ s'.kstack q = false ∨ s.pgdir q = true ∧ s'.pgdir q = false

omit [DecidableEq C] in
theorem section_frees {op : Op} (tk : section_ s p op = some s') :
    s'.cpu = s.cpu ∧ ∀ q, Frees s s' q → (s.table.proc q).state = .zombie := by
  cases op <;> simp only [section_] at tk <;> try split at tk
  all_goals cases tk
  all_goals refine ⟨rfl, fun q frees => ?_⟩
  all_goals simp only [Frees, State.goto, State.setTable, update_apply] at frees
  all_goals grind [→ waitScan_zombie]

theorem threadStep_thread (tk : threadStep s c p = some s') (c' : C) :
    (s'.cpu c').thread = (s.cpu c').thread ∨ (s'.cpu c').thread = none := by
  unfold threadStep resume at tk
  split at tk
  case h_4 =>
    cases tk
    by_cases eq : c' = c <;> simp [eq]
  all_goals grind [section_frees, State.goto, State.setTable, State.setLock]

theorem threadStep_frees (tk : threadStep s c p = some s') (frees : Frees s s' q) :
    (∃ op, s.thread p = .holding op) ∧ (s.table.proc q).state = .zombie := by
  unfold threadStep resume at tk
  split at tk
  all_goals grind [→ section_frees, Frees, State.goto, State.setTable, State.setLock, State.setCpu]

structure Turns (c : C) (s s' : State C) : Prop where
  others : ∀ c', c' ≠ c → s'.cpu c' = s.cpu c'
  thread : ∀ p, (s'.cpu c).thread = some p → (s.cpu c).thread = some p ∨ (s.cpu c).scheduler = .marked p
  kstack : s'.kstack = s.kstack
  pgdir : s'.pgdir = s.pgdir

theorem schedStep_turns (tk : schedStep s c = some s') : Turns c s s' := by
  unfold schedStep at tk
  split at tk <;> (try split at tk) <;> (try split at tk) <;> cases tk
  all_goals
    refine ⟨fun c' o => ?_, fun p runs => ?_, rfl, rfl⟩
    · simp [o]
    · simp only [State.setScheduler, State.setCpu, State.setTable, State.setLock, update_self] at runs
      grind

omit [DecidableEq C] in
theorem forkStack_frees {given : Bool} (tk : forkStack s p given = some s') : s'.cpu = s.cpu ∧ ∀ q, ¬ Frees s s' q := by
  unfold forkStack at tk
  split at tk <;> (try split at tk) <;> cases tk
  all_goals simp only [Frees, State.goto, State.setTable, update_apply]
  all_goals grind

omit [DecidableEq C] in
theorem forkCopy_frees {given : Bool} (tk : forkCopy s p given = some s') :
    s'.cpu = s.cpu ∧ ∀ q, Frees s s' q → s.table.pc p = .forking .copy q := by
  unfold forkCopy at tk
  split at tk <;> (try split at tk) <;> cases tk
  all_goals simp only [Frees, State.setTable, update_apply]
  all_goals grind

omit [DecidableEq C] in
theorem forkAdopt_frees (tk : forkAdopt s p = some s') : s'.cpu = s.cpu ∧ ∀ q, ¬ Frees s s' q := by
  unfold forkAdopt at tk
  split at tk <;> cases tk
  simp [Frees]

theorem next_switches (tk : Next s a s') (pre : (s.cpu c).thread ≠ some p)
    (after : (s'.cpu c).thread = some p) : (s.cpu c).thread = none ∧ (s.cpu c).scheduler = .marked p := by
  have moved : s'.cpu ≠ s.cpu := fun eq => pre (by rw [← eq, after])
  cases a with
  | begin c op =>
    simp only [Next, step, free_bind] at tk
    obtain ⟨p, _, tk⟩ := tk
    split at tk <;> cases tk
    exact absurd rfl moved
  | interrupt c' addr =>
    simp only [Next, step] at tk
    split at tk <;> cases tk
    by_cases eq : c = c' <;> simp [eq] at after pre <;> exact absurd after pre
  | forkStack c given =>
    simp only [Next, step, free_bind] at tk
    obtain ⟨p, _, tk⟩ := tk
    exact absurd (forkStack_frees tk).1 moved
  | forkCopy c given =>
    simp only [Next, step, free_bind] at tk
    obtain ⟨p, _, tk⟩ := tk
    exact absurd (forkCopy_frees tk).1 moved
  | forkAdopt c =>
    simp only [Next, step, free_bind] at tk
    obtain ⟨p, _, tk⟩ := tk
    exact absurd (forkAdopt_frees tk).1 moved
  | run c' =>
    simp only [Next, step] at tk
    split at tk
    · rcases threadStep_thread tk c with eq | none
      · rw [eq] at after
        exact absurd after pre
      · rw [none] at after
        cases after
    · rename_i idle
      have turned := schedStep_turns tk
      by_cases eq : c = c'
      · subst c'
        exact ⟨idle, (turned.thread p after).resolve_left pre⟩
      · rw [turned.others c eq] at after
        exact absurd after pre

theorem Safe.gone (safe : Safe s) {op : Op} (runs : (s.cpu c).thread = some p)
    (k : s.thread p = .holding op) (zombie : (s.table.proc q).state = .zombie) (c' : C) : (s.cpu c').proc ≠ some q := by
  intro cur
  have run : (s.table.proc q).state = .running := by
    by_cases eq : c' = c
    · subst c'
      obtain rfl : p = q := Option.some.inj (((safe.cpu _).proc runs).symm.trans cur)
      exact (safe.cpu _).running p runs (by simp [k, leaving])
    · refine ((safe.cpu c').unlocked cur ?_).2.2
      rw [safe.held runs k rfl]
      exact fun eq' => eq (Option.some.inj eq').symm
  rw [zombie] at run
  contradiction

theorem next_frees (safe : Safe s) (tk : Next s a s') (frees : Frees s s' q) (c : C) : (s.cpu c).proc ≠ some q := by
  cases a with
  | begin c' op =>
    simp only [Next, step, free_bind] at tk
    obtain ⟨p, _, tk⟩ := tk
    split at tk <;> cases tk
    simp [Frees] at frees
  | interrupt c' addr =>
    simp only [Next, step] at tk
    split at tk <;> cases tk
    simp [Frees] at frees
  | forkStack c' given =>
    simp only [Next, step, free_bind] at tk
    obtain ⟨p, _, tk⟩ := tk
    exact absurd frees ((forkStack_frees tk).2 q)
  | forkCopy c' given =>
    simp only [Next, step, free_bind] at tk
    obtain ⟨p, _, tk⟩ := tk
    exact safe.unborn (safe.embryo ((forkCopy_frees tk).2 q frees)) c
  | forkAdopt c' =>
    simp only [Next, step, free_bind] at tk
    obtain ⟨p, _, tk⟩ := tk
    exact absurd frees ((forkAdopt_frees tk).2 q)
  | run c' =>
    simp only [Next, step] at tk
    split at tk
    · rename_i p runs
      obtain ⟨⟨op, k⟩, zombie⟩ := threadStep_frees tk frees
      exact safe.gone runs k zombie c
    · have turned := schedStep_turns tk
      simp [Frees, turned.kstack, turned.pgdir] at frees

/-- On any number of processors: a process is current on one at most, no processor switches to a thread
that another still runs, and no stack or page directory is freed of a process that is current. -/
theorem scheduler_exclusion (reached : Reachable Next (fun _ _ => True) State.initial s) :
    (∀ c c' p, (s.cpu c).proc = some p → (s.cpu c').proc = some p → c = c') ∧
    (∀ c p, (s.cpu c).proc = some p → s.lock ≠ some c → (s.table.proc p).state = .running) ∧
    ∀ a s', Next s a s' → (∀ c p, (s.cpu c).thread ≠ some p → (s'.cpu c).thread = some p →
        (∃ caller, s.thread p = .parked caller) ∧ ∀ c', (s.cpu c').thread ≠ some p) ∧
      ∀ p, Frees s s' p → ∀ c, (s.cpu c).proc ≠ some p := by
  have safe := safe_of_reached reached
  refine ⟨safe.single, fun c p current free => ((safe.cpu c).unlocked current free).2.2, ?_⟩
  intro a s' tk
  refine ⟨?_, fun p frees => next_frees safe tk frees⟩
  intro c p before after
  obtain ⟨idle, marked⟩ := next_switches tk before after
  have running := (safe.cpu c).marked p marked
  have current := safe.loopCurrent (p := p) (by rw [marked]; rfl)
  have nowhere := safe.nowhere idle current
  have parked := (safe.thread p).fits.parked (by simp [live, used, running]) nowhere
  refine ⟨?_, nowhere⟩
  cases place : s.thread p with
  | parked caller => exact ⟨caller, rfl⟩
  | _ => simp [place, ThreadPc.isParked] at parked

theorem scheduler_exclusion_wait : ∃ s s' : State Bool,
    Reachable Next (fun _ _ => True) State.initial s ∧ Next s (.run false) s' ∧
    Frees s s' 1 ∧ ∀ c, (s.cpu c).proc ≠ some 1 := by
  have checked : (replay step (fun (_ : State Bool) _ => True) (List.replicate 6 (.run false) ++
        [.begin false .fork, .run false, .run false, .run false, .forkStack false true,
          .forkCopy false true, .forkAdopt false, .begin false .start, .run false, .run false, .run false] ++
        List.replicate 7 (.run true) ++ [.begin true .exit] ++ List.replicate 67 (.run true) ++
        [.begin false .wait, .run false]) State.initial).any (fun s =>
          s.kstack 1 && (step s (.run false)).any fun s' => !s'.kstack 1) = true := by
    decide +kernel
  obtain ⟨s, reached, found⟩ := Reachable.of_replay (fun _ _ _ _ tk => tk) checked
  obtain ⟨had, found⟩ := (Bool.and_eq_true _ _).mp found
  obtain ⟨s', tk, lost⟩ := (Option.any_eq_true _ _).mp found
  have frees : Frees s s' 1 := Or.inl ⟨had, by simpa using lost⟩
  exact ⟨s, s', reached, tk, frees, ((scheduler_exclusion reached).2.2 _ _ tk).2 1 frees⟩

end Xv6.Scheduler
