import Xv6.SchedSafe

/-! The steps of the threads keep what processors and threads rely on. -/


namespace Xv6.Scheduler

open ProcTable (initproc)
open ProcTable.State (setProc setState)
open Reach ThreadPc Function

variable {pc : ThreadPc} {given : Bool}

variable {C : Type} [DecidableEq C] {s s' : State C} {c : C} {p : ProcTable.Slot}

section

variable (safe : Safe s) (runs : (s.cpu c).thread = some p) {table : ProcTable.State} {kstack pgdir : ProcTable.Slot → Bool} {caller : Caller} {np : ProcTable.Slot} {op : Op}
include safe runs

omit [DecidableEq C] in
theorem Safe.calm (k : s.thread p = pc) (awake : pc.leaving = false) (stirs : pc.rests = false) :
    (s.table.proc p).state = .running ∧ (s.table.proc p).chan = none :=
  ⟨(safe.cpu c).running p runs (k ▸ awake), (safe.thread p).fits.quiet (k ▸ stirs)⟩

theorem Safe.sectionStep (spares : ∀ q, q ≠ p → Spares (s.lock = some c) s.table table q)
    (own : Own { s with table, kstack, pgdir, thread := update s.thread p pc } c p)
    (made : Made s { s with table, kstack, pgdir, thread := update s.thread p pc } p) :
    Safe { s with table, kstack, pgdir, thread := update s.thread p pc } :=
  safe.act runs rfl (safe.touches runs rfl (fun _ _ => Iff.rfl) (fun q o => by simp [o]) spares) own made

omit [DecidableEq C] in
theorem Safe.sectionMade (spares : ∀ q, q ≠ p → Spares (s.lock = some c) s.table table q)
    (out : table.pc p = s.table.pc p ∨ (table.pc p).bears = none) :
    Made s { s with table, kstack, pgdir, thread := update s.thread p pc } p := by
  rcases out with eq | none
  · exact safe.made runs (fun q o => by simp [o]) spares eq
  · exact .of_outside none

theorem Safe.sectionSched (held : s.lock = some c)
    (spares : ∀ q, q ≠ p → Spares (s.lock = some c) s.table table q) (alive : used (table.proc p).state)
    (quiet : (sched caller).rests = false ∨ (table.proc p).state = .zombie →
      (table.proc p).chan = none) (waiting : caller = .wait → table.pc p = .waiting)
    (out : table.pc p = s.table.pc p ∨ (table.pc p).bears = none) : Safe ((s.setTable table).goto p (.sched caller)) :=
  safe.sectionStep runs spares (.of_sched (by simp) held alive quiet waiting) (safe.sectionMade runs spares out)

theorem Safe.sectionRelease (held : s.lock = some c) (spares : ∀ q, q ≠ p → Spares (s.lock = some c) s.table table q)
    (calm : (table.proc p).state = .running ∧ (table.proc p).chan = none)
    (out : table.pc p = s.table.pc p ∨ (table.pc p).bears = none) :
    Safe { s with table, kstack, pgdir, thread := update s.thread p .releasing } :=
  safe.sectionStep runs spares (.of_releasing (by simp) held calm.1 calm.2) (safe.sectionMade runs spares out)

omit safe runs in
theorem spares_setProc {locked : Prop} {q : ProcTable.Slot} (proc : ProcTable.Proc) (o : q ≠ p) :
    Spares locked table (table.setProc p proc) q :=
  .same rfl (by simp [setProc, o])

omit safe runs in
theorem Spares.goto {locked : Prop} {table' : ProcTable.State} {q : ProcTable.Slot} {pc : ProcTable.Pc}
    (spares : Spares locked table table' q) (o : q ≠ p) : Spares locked table (table'.goto p pc) q :=
  spares.then_same (by simp [ProcTable.State.goto, o]) rfl

omit safe runs in
theorem Roused.calm {proc proc' : ProcTable.Proc} (roused : Roused proc proc')
    (calm : proc.state = .running ∧ proc.chan = none) : proc'.state = .running ∧ proc'.chan = none := by
  refine ⟨?_, roused.1.trans calm.2⟩
  rcases roused.2 with eq | ⟨asleep, _⟩
  · rw [eq, calm.1]
  · rw [calm.1] at asleep
    contradiction

theorem Safe.sectionWait (k : s.thread p = .holding .wait) (tk : section_ s p .wait = some s') : Safe s' := by
  have held := safe.held runs k rfl
  have calm := safe.calm runs k rfl rfl
  simp only [Scheduler.section_] at tk
  split at tk
  · rename_i child hit
    cases tk
    obtain ⟨_, dead⟩ := ProcTable.waitScan_zombie hit
    have ne : p ≠ child := by
      rintro rfl
      rw [calm.1] at dead
      contradiction
    have own : (ProcTable.reap s.table child).proc p = s.table.proc p := by
      simp [ProcTable.reap, setProc, ne]
    refine safe.sectionRelease runs held (fun q o => (spares_reap held dead).goto o) ?_ (.inr ?_)
    · exact ⟨(congrArg ProcTable.Proc.state own).trans calm.1, (congrArg ProcTable.Proc.chan own).trans calm.2⟩
    · simp [ProcTable.State.goto, ProcTable.Pc.bears]
  · cases tk
    refine safe.sectionRelease runs held (fun q o => Spares.goto (.same rfl rfl) o) calm (.inr ?_)
    simp [ProcTable.State.goto, ProcTable.Pc.bears]
  · cases tk
    refine safe.sectionSched runs held (fun q o => (spares_setProc _ o).goto o) ?_ ?_ ?_ (.inr ?_)
    · simp [ProcTable.State.goto, setProc, used]
    · simp [ProcTable.State.goto, setProc, rests]
    · simp [ProcTable.State.goto]
    · simp [ProcTable.State.goto, ProcTable.Pc.bears]

theorem Safe.sectionFork (held : s.lock = some c)
    (calm : (s.table.proc p).state = .running ∧ (s.table.proc p).chan = none)
    (hit : ProcTable.allocproc s.table = some (np, table)) :
    Safe ((s.setTable (table.goto p (.forking .stack np))).goto p .releasing) := by
  have spares : ∀ q, q ≠ p → Spares (s.lock = some c) s.table (table.goto p (.forking .stack np)) q :=
    fun q o => (spares_allocproc hit).goto o
  obtain ⟨unused, rfl⟩ := ProcTable.allocproc_some hit
  have ne : p ≠ np := by
    rintro rfl
    rw [calm.1] at unused
    contradiction
  refine safe.sectionStep runs spares (.of_releasing (by simp) held ?_ ?_)
    (.of_forking .stack np ?_ ?_ (by simp) (.inr unused))
  · simpa [ProcTable.State.goto, ne] using calm.1
  · simpa [ProcTable.State.goto, ne] using calm.2
  · simp [ProcTable.State.goto]
  · simp [ProcTable.State.goto]

theorem Safe.sectionStart (k : s.thread p = .holding .start) (here : s.table.pc p = .forking .start np) :
    Safe ((s.setTable { (s.table.setState np .runnable).goto p .user with
      history := .born (s.table.proc np).pid (s.table.proc p).pid :: s.table.history }).goto p .releasing) := by
  have held := safe.held runs k rfl
  have calm := safe.calm runs k rfl rfl
  have ready := (safe.thread p).born .start np here (by simp)
  have ne := (safe.apart runs here).symm
  refine safe.act runs rfl (safe.touching runs rfl (fun _ _ => Iff.rfl) ?_)
    (.of_releasing (by simp) held ?_ ?_) (.of_outside ?_)
  · intro q o
    refine ⟨by simp [ProcTable.State.goto, setState, setProc, o], ?_⟩
    by_cases new : q = np
    · subst q
      simp only [State.goto, State.setTable, ProcTable.State.goto, setState,
        setProc, update_self, ne_eq, o, not_false_eq_true, update_of_ne, ready, safe.embryo here, true_and]
      exact .start (by rw [here]; rfl)
    · simp only [State.goto, State.setTable, ProcTable.State.goto, setState,
        setProc, ne_eq, o, new, not_false_eq_true, update_of_ne, true_and]
      exact .same _ _
  · simpa [ProcTable.State.goto, setState, setProc, ne] using calm.1
  · simpa [ProcTable.State.goto, setState, setProc, ne] using calm.2
  · simp [ProcTable.State.goto, ProcTable.Pc.bears]

theorem Safe.section_ (k : s.thread p = .holding op) (tk : section_ s p op = some s') : Safe s' := by
  have held := safe.held runs k rfl
  have calm := safe.calm runs k rfl rfl
  cases op with
  | yield =>
    cases tk
    refine safe.sectionSched runs held (fun q o => spares_setProc _ o) ?_ ?_ (by simp) (.inl rfl)
    · simp [setState, setProc, used]
    · simp [setState, setProc, calm.2]
  | sleep address =>
    cases tk
    refine safe.sectionSched runs held (fun q o => spares_setProc _ o) ?_ ?_ (by simp) (.inl rfl)
    · simp [setProc, used]
    · simp [setProc, rests]
  | exit =>
    cases tk
    obtain ⟨zombie, chan⟩ := exitSection_own s.table p
    refine safe.sectionSched runs held (fun q o => spares_exitSection held o) ?_ ?_ (by simp)
      (.inl (congrFun (exitSection_pc _ _) p))
    · simp [zombie, used]
    · simp [chan, calm.2]
  | wait => exact safe.sectionWait runs k tk
  | wakeup address =>
    cases tk
    exact safe.sectionRelease runs held (fun q _ => .of_roused held rfl (roused_wakeup1 _ _))
      ((roused_wakeup1 _ _).calm calm) (.inl rfl)
  | kill pid =>
    cases tk
    exact safe.sectionRelease runs held
      (fun q _ => .of_roused held (congrFun (kill_pc pid) q) (roused_kill pid)) ((roused_kill pid).calm calm)
      (.inl (congrFun (kill_pc pid) p))
  | fork =>
    simp only [Scheduler.section_] at tk
    split at tk
    · cases tk
      exact safe.sectionRelease runs held (fun q _ => .same rfl rfl) calm (.inl rfl)
    · rename_i np table hit
      cases tk
      exact safe.sectionFork runs held calm hit
  | start =>
    simp only [Scheduler.section_] at tk
    split at tk <;> cases tk
    rename_i np here
    exact safe.sectionStart runs k here

theorem Safe.move {lock : Option C} (others : ∀ c', c' ≠ c → (lock = some c' ↔ s.lock = some c'))
    (own : Own { s with lock, thread := update s.thread p pc } c p) :
    Safe { s with lock, thread := update s.thread p pc } := by
  have threads : ∀ q, q ≠ p → update s.thread p pc q = s.thread q := fun q o => by simp [o]
  have spares : ∀ q, q ≠ p → Spares (s.lock = some c) s.table s.table q :=
    fun q _ => .same rfl rfl
  exact safe.act runs rfl (safe.touches runs rfl others threads spares) own (safe.made runs threads spares rfl)

theorem Safe.begin (k : s.thread p = .user) (may : op.may p (s.table.pc p) = true) :
    Safe (s.goto p (.acquiring op)) := by
  refine safe.move runs (fun _ _ => Iff.rfl) ?_
  have calm := safe.calm runs k rfl rfl
  constructor
  case guard =>
    have free := safe.not_held runs k rfl
    simp [ThreadPc.locked, free]
  case alive => exact used_running calm.1
  case running => exact fun _ => calm.1
  case quiet => exact fun _ => calm.2
  case may =>
    intro op' here
    obtain rfl : op = op' := by simpa using here
    exact .inl may
  case waiting => simp

theorem Safe.acquire (k : s.thread p = .acquiring op) (free : s.lock = none) :
    Safe ((s.setLock (some c)).goto p (.holding op)) := by
  have calm := safe.calm runs k rfl rfl
  refine safe.move runs ?_ ?_
  · intro c' o
    simp [free, Ne.symm o]
  constructor
  case guard => simp [ThreadPc.locked]
  case alive => exact used_running calm.1
  case running => exact fun _ => calm.1
  case quiet => exact fun _ => calm.2
  case may =>
    intro op' here
    obtain rfl : op = op' := by simpa using here
    exact (safe.thread p).fits.may op (.inl k)
  case waiting => simp

theorem Safe.release (k : s.thread p = .releasing) : Safe ((s.setLock none).goto p .user) := by
  have held := safe.held runs k rfl
  have calm := safe.calm runs k rfl rfl
  refine safe.move runs ?_ (.of_user (by simp) (by simp) calm.1 calm.2)
  intro c' o
  simp [held, Ne.symm o]

theorem Safe.leave (own : Own ((s.setTable (s.table.setProc p { s.table.proc p with chan := none })).goto p pc) c p) :
    Safe ((s.setTable (s.table.setProc p { s.table.proc p with chan := none })).goto p pc) :=
  safe.sectionStep runs (fun _ o => spares_setProc _ o) own
    (safe.sectionMade runs (fun _ o => spares_setProc _ o) (.inl rfl))

theorem Safe.resume (k : s.thread p = .parked caller) (tk : resume s p caller = some s') : Safe s' := by
  have held := safe.held runs k rfl
  have running : (s.table.proc p).state = .running :=
    (safe.cpu c).running p runs (by simp [k, leaving])
  cases caller with
  | yield | forkret =>
    cases tk
    refine safe.move runs (fun _ _ => Iff.rfl) (.of_releasing (by simp) held running ?_)
    exact (safe.thread p).fits.quiet (by simp [k, rests])
  | sleep =>
    cases tk
    refine safe.leave runs (.of_releasing (by simp) held ?_ ?_)
    · simp [setProc, running]
    · simp [setProc]
  | wait =>
    cases tk
    have waiting := (safe.thread p).fits.waiting (.inr k)
    refine safe.leave runs ?_
    constructor
    case guard => simpa [ThreadPc.locked] using held
    case alive =>
      apply used_running
      simp [setProc, running]
    case running => simp [setProc, running]
    case quiet => simp [setProc]
    case may =>
      intro op here
      obtain rfl : Op.wait = op := by simpa using here
      exact .inr ⟨rfl, waiting⟩
    case waiting => simp
  | exit => cases tk

/-! `fork` outside the lock. -/

theorem Safe.forkStep {thread : ProcTable.Slot → ThreadPc} (k : s.thread p = .user)
    (eq : thread p = s.thread p) (own : table.proc p = s.table.proc p)
    (others : ∀ q, q ≠ p → table.pc q = s.table.pc q ∧ (table.proc q).chan = (s.table.proc q).chan ∧
      Change (s.lock = some c) ((s.table.pc p).bears = some q)
        (s.table.proc q).state (s.thread q) (table.proc q).state (thread q))
    (made : Made s { s with table, kstack, pgdir, thread } p) : Safe { s with table, kstack, pgdir, thread } := by
  have calm := safe.calm runs k rfl rfl
  have free := safe.not_held runs k rfl
  refine safe.act runs rfl (safe.touching runs rfl (fun _ _ => Iff.rfl) others) (.of_user (eq.trans k) free ?_ ?_) made
  · exact (congrArg ProcTable.Proc.state own).trans calm.1
  · exact (congrArg ProcTable.Proc.chan own).trans calm.2

section

variable (k : s.thread p = .user)

include k

theorem Safe.forkDrop {stage : ProcTable.ForkStage} (here : s.table.pc p = .forking stage np) :
    Safe { s with table := (s.table.setState np .unused).goto p .user, kstack } := by
  have ne := safe.apart runs here
  refine safe.forkStep runs k rfl ?_ ?_ (.of_outside ?_)
  · simp [ProcTable.State.goto, setState, setProc, ne.symm]
  · intro q o
    by_cases new : q = np
    · subst q
      simp only [ProcTable.State.goto, setState, setProc, update_self, ne_eq,
        o, not_false_eq_true, update_of_ne, safe.embryo here, true_and]
      exact .drop _ (by rw [here]; rfl)
    · simp only [ProcTable.State.goto, setState, setProc, ne_eq, o, new, not_false_eq_true, update_of_ne, true_and]
      exact .same _ _
  · simp [ProcTable.State.goto, ProcTable.Pc.bears]

theorem Safe.forkStack (tk : forkStack s p given = some s') : Safe s' := by
  unfold Scheduler.forkStack at tk
  split at tk
  · rename_i np here
    have ne := safe.apart runs here
    cases given with
    | true =>
      cases tk
      refine safe.forkStep runs k ?_ rfl ?_ (.of_forking .copy np ?_ (safe.embryo here) ?_ (.inl ?_))
      · simp [ne.symm]
      · intro q o
        refine ⟨by simp [ProcTable.State.goto, o], rfl, ?_⟩
        by_cases new : q = np
        · subst q
          simp only [State.setTable, ProcTable.State.goto, update_self, safe.embryo here]
          exact .ready _ (by rw [here]; rfl)
        · simp only [State.setTable, ProcTable.State.goto, ne_eq, new, not_false_eq_true, update_of_ne]
          exact .same _ _
      · simp [ProcTable.State.goto]
      · simp
      · rw [here]
        rfl
    | false =>
      cases tk
      exact safe.forkDrop runs k here
  · cases tk

theorem Safe.forkCopy (tk : forkCopy s p given = some s') : Safe s' := by
  unfold Scheduler.forkCopy at tk
  split at tk
  · rename_i np here
    cases given with
    | true =>
      cases tk
      refine safe.forkStep runs k rfl rfl ?_ (.of_forking .adopt np ?_ (safe.embryo here) ?_ (.inl ?_))
      · intro q o
        exact ⟨by simp [ProcTable.State.goto, o], rfl, .same _ _⟩
      · simp [ProcTable.State.goto]
      · exact fun _ => (safe.thread p).born .copy np here (by simp)
      · rw [here]
        rfl
    | false =>
      cases tk
      exact safe.forkDrop runs k here
  · cases tk

theorem Safe.forkAdopt (tk : forkAdopt s p = some s') : Safe s' := by
  unfold Scheduler.forkAdopt at tk
  split at tk <;> cases tk
  rename_i np here
  have ne := safe.apart runs here
  refine safe.forkStep runs k rfl ?_ ?_ (.of_forking .start np ?_ ?_ ?_ (.inl ?_))
  · simp [ProcTable.State.goto, setProc, ne.symm]
  · intro q o
    have spares : Spares (s.lock = some c) s.table ((s.table.setProc np
        { s.table.proc np with parent := some p }).goto p (.forking .start np)) q :=
      Spares.goto (.setProc rfl fun _ _ => .same _ _) o
    exact ⟨spares.pc, spares.chan, spares.entry _ _⟩
  · simp [ProcTable.State.goto]
  · simpa [ProcTable.State.goto, setProc] using safe.embryo here
  · exact fun _ => (safe.thread p).born .adopt np here (by simp)
  · rw [here]
    rfl

end

theorem Safe.switchBack (k : s.thread p = .sched caller) :
    Safe ((s.setCpu c { s.cpu c with thread := none }).goto p (.parked caller)) := by
  have here := safe.cpu c
  have held := safe.held runs k rfl
  have current := here.proc runs
  have back := here.switched p runs
  have born : ∀ stage np, s.table.pc p = .forking stage np → stage ≠ .stack →
      update s.thread p (.parked caller) np = .parked .forkret := by
    intro stage np forking later
    rw [update_of_ne (safe.apart runs forking)]
    exact (safe.thread p).born stage np forking later
  have touches : Touches c s ((s.setCpu c { s.cpu c with thread := none }).goto p (.parked caller)) := by
    have apart : ∀ {q}, (s.cpu c).proc ≠ some q → q ≠ p := by
      rintro q o rfl
      exact o current
    constructor
    case cpu => exact fun c' o => by simp [o]
    case lock => exact fun _ _ => Iff.rfl
    case pc => exact fun _ _ => rfl
    case chan => exact fun _ _ => rfl
    case entry =>
      intro q o
      simp only [State.goto, State.setCpu, ne_eq, apart o, not_false_eq_true, update_of_ne]
      exact .same _ _
  refine safe.step touches ?_ ?_ ?_
  · constructor
    case current => simpa using here.current
    case switched => simp
    case guard => simpa [inside, back, SchedPc.locked] using held
    case alive =>
      simp only [State.goto, State.setCpu, update_self]
      exact here.alive
    case chosen => simp [back]
    case marked => simp [back]
    case running => simp
  · simp only [State.goto, State.setCpu, update_self]
    exact fun q also => safe.elsewhere also
  · intro q also
    obtain rfl : p = q := Option.some.inj (current.symm.trans also)
    have pre := safe.thread p
    refine ⟨⟨?_, pre.embryo, ?_⟩, pre.embryo, ?_, fun np bears => .inl bears⟩
    · constructor
      case quiet =>
        have eq : (sched caller).rests = (ThreadPc.parked caller).rests := by
          cases caller <;> rfl
        intro awake
        apply pre.fits.quiet
        rw [k, eq]
        simpa using awake
      case buried => exact pre.fits.buried
      case parked => simp [isParked]
      case may => simp
      case waiting =>
        intro waits
        apply pre.fits.waiting
        rw [k]
        simpa using waits
    · exact born
    · exact born

theorem Safe.threadStep (tk : threadStep s c p = some s') : Safe s' := by
  unfold Scheduler.threadStep at tk
  split at tk
  · cases tk
  · split at tk
    · cases tk
      exact safe.acquire runs ‹_› ‹_›
    · cases tk
  · exact safe.section_ runs ‹_› tk
  · cases tk
    exact safe.switchBack runs ‹_›
  · exact safe.resume runs ‹_› tk
  · cases tk
    exact safe.release runs ‹_›

end

end Xv6.Scheduler
