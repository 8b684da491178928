import Xv6.Scheduler

/-! What processors and threads rely on: who may be current where, and in which states. -/


namespace Xv6.Scheduler

open ProcTable (initproc)
open ProcTable.State (setProc setState)
open ThreadPc Function

def ThreadPc.locked : ThreadPc → Bool
  | .user | .acquiring _ => false
  | .holding _ | .sched _ | .parked _ | .releasing => true

def ThreadPc.leaving : ThreadPc → Bool
  | .sched _ => true
  | _ => false

def ThreadPc.rests : ThreadPc → Bool
  | .sched .sleep | .sched .wait | .parked .sleep | .parked .wait => true
  | _ => false

def ThreadPc.isParked : ThreadPc → Bool
  | .parked _ => true
  | _ => false

def SchedPc.locked : SchedPc → Bool
  | .idle | .waking _ => false
  | _ => true

def SchedPc.current : SchedPc → Option ProcTable.Slot
  | .chosen p | .marked p | .back p => some p
  | _ => none

variable {C : Type} [DecidableEq C] {s s' : State C} {c : C} {p q np : ProcTable.Slot} {g : ProcTable.ForkStage}

def inside (s : State C) (c : C) : Bool :=
  match (s.cpu c).thread with
  | some p => (s.thread p).locked
  | none => (s.cpu c).scheduler.locked

def used (v : ProcTable.ProcState) : Prop := v ≠ .unused ∧ v ≠ .embryo

def live (v : ProcTable.ProcState) : Prop := used v ∧ v ≠ .zombie

structure CpuSafe (s : State C) (c : C) : Prop where
  current : (s.cpu c).proc = (s.cpu c).scheduler.current
  switched : ∀ p, (s.cpu c).thread = some p → (s.cpu c).scheduler = .back p
  guard : inside s c = true ↔ s.lock = some c
  alive : ∀ p, (s.cpu c).proc = some p → used (s.table.proc p).state
  chosen : ∀ p, (s.cpu c).scheduler = .chosen p → (s.table.proc p).state = .runnable
  marked : ∀ p, (s.cpu c).scheduler = .marked p → (s.table.proc p).state = .running
  running : ∀ p, (s.cpu c).thread = some p → (s.thread p).leaving = false → (s.table.proc p).state = .running

/-- The state and the channel of process `p` fit the points where its thread and its call stand;
`nowhere` says that no processor runs the thread. -/
structure Fits (p : ProcTable.Slot) (call : ProcTable.Pc) (chan : Option ProcTable.Chan) (nowhere : Prop)
    (v : ProcTable.ProcState) (pc : ThreadPc) : Prop where
  quiet : pc.rests = false → chan = none
  buried : ¬ live v → chan = none
  parked : live v → nowhere → pc.isParked = true
  may : ∀ op, pc = .acquiring op ∨ pc = .holding op → op.may p call = true ∨ op = .wait ∧ call = .waiting
  waiting : pc = .sched .wait ∨ pc = .parked .wait → call = .waiting

structure ThreadSafe (s : State C) (p : ProcTable.Slot) : Prop where
  fits : Fits p (s.table.pc p) (s.table.proc p).chan (∀ c, (s.cpu c).thread ≠ some p)
    (s.table.proc p).state (s.thread p)
  embryo : ∀ g np, s.table.pc p = .forking g np → (s.table.proc np).state = .embryo
  born : ∀ g np, s.table.pc p = .forking g np → g ≠ .stack → s.thread np = .parked .forkret

structure Safe (s : State C) : Prop where
  cpu : ∀ c, CpuSafe s c
  single : ∀ c c' p, (s.cpu c).proc = some p → (s.cpu c').proc = some p → c = c'
  thread : ∀ p, ThreadSafe s p
  makers : ∀ p p' np, (s.table.pc p).bears = some np → (s.table.pc p').bears = some np → p = p'

/-- What a step may do to the entry and the thread of a process that is not its own; `mine` says
that the acting process is making it in `fork`. -/
inductive Change (locked mine : Prop) :
    ProcTable.ProcState → ThreadPc → ProcTable.ProcState → ThreadPc → Prop
  | same (v pc) : Change locked mine v pc v pc
  | rouse (pc) : locked → Change locked mine .sleeping pc .runnable pc
  | reap (pc) : locked → Change locked mine .zombie pc .unused pc
  | alloc (pc) : Change locked mine .unused pc .embryo pc
  | drop (pc) : mine → Change locked mine .embryo pc .unused pc
  | ready (pc) : mine → Change locked mine .embryo pc .embryo (.parked .forkret)
  | start : mine → Change locked mine .embryo (.parked .forkret) .runnable (.parked .forkret)

def State.making (s : State C) (c : C) (q : ProcTable.Slot) : Prop :=
  ∃ p, (s.cpu c).proc = some p ∧ (s.table.pc p).bears = some q

structure Touches (c : C) (s s' : State C) : Prop where
  cpu : ∀ c', c' ≠ c → s'.cpu c' = s.cpu c'
  lock : ∀ c', c' ≠ c → (s'.lock = some c' ↔ s.lock = some c')
  pc : ∀ q, (s.cpu c).proc ≠ some q → s'.table.pc q = s.table.pc q
  chan : ∀ q, (s.cpu c).proc ≠ some q → (s'.table.proc q).chan = (s.table.proc q).chan
  entry : ∀ q, (s.cpu c).proc ≠ some q → Change (s.lock = some c) (s.making c q)
    (s.table.proc q).state (s.thread q) (s'.table.proc q).state (s'.thread q)

omit [DecidableEq C] in
theorem CpuSafe.proc (safe : CpuSafe s c) (runs : (s.cpu c).thread = some p) : (s.cpu c).proc = some p := by
  rw [safe.current, safe.switched p runs]
  rfl

omit [DecidableEq C] in
theorem CpuSafe.unlocked (safe : CpuSafe s c) (cur : (s.cpu c).proc = some p)
    (free : s.lock ≠ some c) : (s.cpu c).thread = some p ∧
      (s.thread p).locked = false ∧ (s.table.proc p).state = .running := by
  have out : inside s c = false := by
    rw [← Bool.not_eq_true, safe.guard]
    exact free
  cases runs : (s.cpu c).thread with
  | none =>
    rw [safe.current] at cur
    simp only [inside, runs] at out
    cases k : (s.cpu c).scheduler <;>
      simp [k, SchedPc.current, SchedPc.locked] at cur out
  | some q =>
    obtain rfl : q = p := by
      rw [safe.proc runs] at cur
      exact Option.some.inj cur
    simp only [inside, runs] at out
    refine ⟨rfl, out, safe.running q runs ?_⟩
    cases k : s.thread q <;> simp [k, leaving, ThreadPc.locked] at out ⊢

section

variable {locked mine nowhere : Prop} {val val' : ProcTable.ProcState} {pc pc' : ThreadPc}
  (change : Change locked mine val pc val' pc')
include change

theorem Change.spared (alive : used val) (guarded : locked → val = .running) : val' = val ∧ pc' = pc := by
  cases change with
  | same => exact ⟨rfl, rfl⟩
  | rouse _ held => exact absurd (guarded held) (by simp)
  | reap _ held => exact absurd (guarded held) (by simp)
  | alloc => exact absurd rfl alive.1
  | _ => exact absurd rfl alive.2

theorem Change.unmade (o : ¬mine) (embryo : val = .embryo) : val' = .embryo ∧ pc' = pc := by
  cases change with
  | same => exact ⟨embryo, rfl⟩
  | rouse | reap | alloc => cases embryo
  | drop _ own | ready _ own | start own => exact absurd own o

theorem Change.fits {call : ProcTable.Pc} {chan : Option ProcTable.Chan}
    (fits : Fits p call chan nowhere val pc) : Fits p call chan nowhere val' pc' := by
  obtain ⟨quiet, buried, parked, may, waiting⟩ := fits
  cases change with
  | same => exact ⟨quiet, buried, parked, may, waiting⟩
  | rouse =>
    exact ⟨quiet, by simp [live, used], fun _ => parked (by simp [live, used]), may, waiting⟩
  | reap | alloc | drop =>
    exact ⟨quiet, fun _ => buried (by simp [live, used]), by simp [live, used], may, waiting⟩
  | ready | start =>
    have idle := buried (by simp [live, used])
    exact ⟨fun _ => idle, fun _ => idle, fun _ _ => rfl, by simp, by simp⟩

end

omit [DecidableEq C] in
theorem Touches.spared (touches : Touches c s s') (safe : Safe s) {c' : C} (o : c' ≠ c)
    (cur : (s.cpu c').proc = some q) : (s'.table.proc q).state = (s.table.proc q).state ∧ s'.thread q = s.thread q := by
  have apart : (s.cpu c).proc ≠ some q := fun own => o (safe.single c' c q cur own)
  exact (touches.entry q apart).spared ((safe.cpu c').alive q cur) fun held =>
    ((safe.cpu c').unlocked cur (by
      rw [held]
      exact fun same => o (Option.some.inj same).symm)).2.2

omit [DecidableEq C] in
theorem CpuSafe.step (safe : Safe s) (touches : Touches c s s') {c' : C} (o : c' ≠ c) : CpuSafe s' c' := by
  have same := touches.cpu c' o
  have here := safe.cpu c'
  have kept : ∀ {q}, (s.cpu c').proc = some q → _ := touches.spared safe o
  have currents : ∀ {q}, (s.cpu c').scheduler.current = some q → (s.cpu c').proc = some q :=
    fun current => here.current.trans current
  constructor
  case current => rw [same, here.current]
  case switched =>
    rw [same]
    exact here.switched
  case guard =>
    rw [touches.lock c' o, ← here.guard]
    simp only [inside, same]
    cases runs : (s.cpu c').thread with
    | none => rfl
    | some q =>
      dsimp only
      rw [(kept (here.proc runs)).2]
  case alive =>
    rw [same]
    intro q current
    rw [(kept current).1]
    exact here.alive q current
  case chosen =>
    rw [same]
    intro q current
    rw [(kept (currents (by rw [current]; rfl))).1]
    exact here.chosen q current
  case marked =>
    rw [same]
    intro q current
    rw [(kept (currents (by rw [current]; rfl))).1]
    exact here.marked q current
  case running =>
    rw [same]
    intro q runs
    obtain ⟨val, k⟩ := kept (here.proc runs)
    rw [val, k]
    exact here.running q runs

omit [DecidableEq C] in
theorem Safe.embryo (safe : Safe s) (here : s.table.pc p = .forking g np) : (s.table.proc np).state = .embryo :=
  (safe.thread p).embryo g np here

omit [DecidableEq C] in
theorem Safe.unborn (safe : Safe s) (embryo : (s.table.proc np).state = .embryo) (c : C) : (s.cpu c).proc ≠ some np :=
  fun cur => ((safe.cpu c).alive np cur).2 embryo

omit [DecidableEq C] in
theorem Touches.unmade (touches : Touches c s s') (safe : Safe s)
    (apart : (s.cpu c).proc ≠ some q) (here : s.table.pc q = .forking g np) :
    (s'.table.proc np).state = .embryo ∧ s'.thread np = s.thread np := by
  refine (touches.entry np (safe.unborn (safe.embryo here) c)).unmade ?_ (safe.embryo here)
  rintro ⟨p, current, bears⟩
  obtain rfl := safe.makers p q np bears (by rw [here]; rfl)
  exact apart current

theorem ThreadSafe.step (safe : Safe s) (touches : Touches c s s')
    (apart : (s.cpu c).proc ≠ some q) : ThreadSafe s' q := by
  have here := safe.thread q
  have idle : (∀ c', (s'.cpu c').thread ≠ some q) → ∀ c', (s.cpu c').thread ≠ some q := by
    intro nowhere c' runs
    by_cases o : c' = c
    · subst c'
      exact apart ((safe.cpu _).proc runs)
    · apply nowhere c'
      rw [touches.cpu c' o, runs]
  constructor
  case fits =>
    rw [touches.pc q apart, touches.chan q apart]
    obtain ⟨quiet, buried, parked, may, waiting⟩ := (touches.entry q apart).fits here.fits
    exact ⟨quiet, buried, fun alive nowhere => parked alive (idle nowhere), may, waiting⟩
  case embryo =>
    rw [touches.pc q apart]
    exact fun g np forking => (touches.unmade safe apart forking).1
  case born =>
    rw [touches.pc q apart]
    intro g np forking later
    rw [(touches.unmade safe apart forking).2]
    exact here.born g np forking later

/-! Steps of a thread. -/

structure Own (s : State C) (c : C) (p : ProcTable.Slot) : Prop where
  guard : (s.thread p).locked = true ↔ s.lock = some c
  alive : used (s.table.proc p).state
  running : (s.thread p).leaving = false → (s.table.proc p).state = .running
  quiet : (s.thread p).rests = false ∨ (s.table.proc p).state = .zombie → (s.table.proc p).chan = none
  may : ∀ op, s.thread p = .acquiring op ∨ s.thread p = .holding op →
    op.may p (s.table.pc p) = true ∨ op = .wait ∧ s.table.pc p = .waiting
  waiting : s.thread p = .sched .wait ∨ s.thread p = .parked .wait → s.table.pc p = .waiting

structure Made (s s' : State C) (p : ProcTable.Slot) : Prop where
  embryo : ∀ g np, s'.table.pc p = .forking g np → (s'.table.proc np).state = .embryo
  born : ∀ g np, s'.table.pc p = .forking g np → g ≠ .stack → s'.thread np = .parked .forkret
  maker : ∀ np, (s'.table.pc p).bears = some np → (s.table.pc p).bears = some np ∨ (s.table.proc np).state = .unused

theorem used_running {val : ProcTable.ProcState} (run : val = .running) : used val := by
  subst run
  exact ⟨by simp, by simp⟩

omit [DecidableEq C] in
theorem Own.of_user (k : s.thread p = .user) (free : s.lock ≠ some c)
    (running : (s.table.proc p).state = .running) (quiet : (s.table.proc p).chan = none) : Own s c p where
  guard := by simp [k, ThreadPc.locked, free]
  alive := used_running running
  running := fun _ => running
  quiet := fun _ => quiet
  may := by simp [k]
  waiting := by simp [k]

omit [DecidableEq C] in
theorem Own.of_releasing (k : s.thread p = .releasing) (held : s.lock = some c)
    (running : (s.table.proc p).state = .running) (quiet : (s.table.proc p).chan = none) : Own s c p where
  guard := by simp [k, ThreadPc.locked, held]
  alive := used_running running
  running := fun _ => running
  quiet := fun _ => quiet
  may := by simp [k]
  waiting := by simp [k]

omit [DecidableEq C] in
theorem Own.of_sched {caller : Caller} (k : s.thread p = .sched caller)
    (held : s.lock = some c) (alive : used (s.table.proc p).state)
    (quiet : (sched caller).rests = false ∨ (s.table.proc p).state = .zombie →
      (s.table.proc p).chan = none) (waiting : caller = .wait → s.table.pc p = .waiting) : Own s c p where
  guard := by simp [k, ThreadPc.locked, held]
  alive := alive
  running := by simp [k, leaving]
  quiet := by
    rw [k]
    exact quiet
  may := by simp [k]
  waiting := by simpa [k] using waiting

theorem Safe.step (safe : Safe s) (touches : Touches c s s') (own : CpuSafe s' c)
    (single : ∀ p, (s'.cpu c).proc = some p → ∀ c', c' ≠ c → (s.cpu c').proc ≠ some p)
    (thread : ∀ p, (s.cpu c).proc = some p → ThreadSafe s' p ∧ Made s s' p) : Safe s' where
  cpu := by
    intro c'
    by_cases o : c' = c
    · subst c'
      exact own
    · exact CpuSafe.step safe touches o
  single := by
    intro left right p atLeft atRight
    by_cases isLeft : left = c
    · subst left
      by_contra ne
      rw [touches.cpu right (Ne.symm ne)] at atRight
      exact single p atLeft right (Ne.symm ne) atRight
    · by_cases isRight : right = c
      · subst right
        rw [touches.cpu left isLeft] at atLeft
        exact absurd atLeft (single p atRight left isLeft)
      · rw [touches.cpu left isLeft] at atLeft
        rw [touches.cpu right isRight] at atRight
        exact safe.single left right p atLeft atRight
  thread := by
    intro q
    by_cases cur : (s.cpu c).proc = some q
    · exact (thread q cur).1
    · exact ThreadSafe.step safe touches cur
  makers := by
    -- only the current process may come to make another one, which was free
    have kept : ∀ p np, (s'.table.pc p).bears = some np →
        (s.table.pc p).bears = some np ∨ (s.cpu c).proc = some p ∧ (s.table.proc np).state = .unused := by
      intro p np bears
      by_cases cur : (s.cpu c).proc = some p
      · exact ((thread p cur).2.maker np bears).imp_right fun free => ⟨cur, free⟩
      · rw [touches.pc p cur] at bears
        exact .inl bears
    have taken : ∀ p np, (s.table.pc p).bears = some np → (s.table.proc np).state ≠ .unused := by
      intro p np bears
      cases pc : s.table.pc p with
      | forking g child =>
        rw [pc] at bears
        cases bears
        simp [safe.embryo pc]
      | _ =>
        rw [pc] at bears
        cases bears
    intro p p' np left right
    rcases kept p np left with pre | ⟨cur, free⟩
    · rcases kept p' np right with pre' | ⟨_, free⟩
      · exact safe.makers p p' np pre pre'
      · exact absurd free (taken p np pre)
    · rcases kept p' np right with pre' | ⟨cur', _⟩
      · exact absurd free (taken p' np pre')
      · exact Option.some.inj (cur.symm.trans cur')

omit [DecidableEq C] in
theorem Safe.elsewhere (safe : Safe s) (cur : (s.cpu c).proc = some p) : ∀ c', c' ≠ c → (s.cpu c').proc ≠ some p :=
  fun c' o also => o (safe.single c' c p also cur)

theorem Safe.act (safe : Safe s) (runs : (s.cpu c).thread = some p)
    (cpu : s'.cpu = s.cpu) (touches : Touches c s s') (own : Own s' c p) (made : Made s s' p) : Safe s' := by
  have here := safe.cpu c
  have back := here.switched p runs
  have onlyRuns : ∀ {q}, (s.cpu c).thread = some q → q = p :=
    fun also => Option.some.inj (also.symm.trans runs)
  have onlyProc : ∀ {q}, (s.cpu c).proc = some q → q = p :=
    fun also => Option.some.inj (also.symm.trans (here.proc runs))
  refine safe.step touches ?_ ?_ ?_
  · constructor
    case current => rw [cpu, here.current]
    case switched =>
      rw [cpu]
      exact here.switched
    case guard =>
      rw [← own.guard]
      simp only [inside, cpu, runs]
    case alive =>
      rw [cpu]
      intro q current
      rw [onlyProc current]
      exact own.alive
    case chosen => simp [cpu, back]
    case marked => simp [cpu, back]
    case running =>
      rw [cpu]
      intro q also
      rw [onlyRuns also]
      exact own.running
  · rw [cpu]
    exact fun q current => safe.elsewhere current
  · intro q current
    rw [onlyProc current]
    refine ⟨⟨?_, made.embryo, made.born⟩, made⟩
    constructor
    case quiet => exact fun quiet => own.quiet (.inl quiet)
    case buried =>
      intro dead
      apply own.quiet
      by_contra awake
      exact dead ⟨own.alive, fun zombie => awake (.inr zombie)⟩
    case parked => exact fun _ nowhere => absurd (by rw [cpu, runs]) (nowhere c)
    case may => exact own.may
    case waiting => exact own.waiting

/-! What the sections do to the entries of other processes. -/

structure Spares (locked : Prop) (table table' : ProcTable.State) (q : ProcTable.Slot) : Prop where
  pc : table'.pc q = table.pc q
  chan : (table'.proc q).chan = (table.proc q).chan
  entry : ∀ mine pc, Change locked mine (table.proc q).state pc (table'.proc q).state pc

section

variable {locked : Prop} {table table' table'' : ProcTable.State} {q sl : ProcTable.Slot}

theorem Spares.embryo (spares : Spares locked table table' q) (embryo : (table.proc q).state = .embryo) :
    (table'.proc q).state = .embryo := ((spares.entry False .user).unmade id embryo).1

theorem Spares.same (pc : table'.pc q = table.pc q) (proc : table'.proc q = table.proc q) :
    Spares locked table table' q where
  pc := pc
  chan := by rw [proc]
  entry := by
    rw [proc]
    exact fun _ _ => .same _ _

theorem Spares.then_same (spares : Spares locked table table' q) (pc : table''.pc q = table'.pc q)
    (proc : table''.proc q = table'.proc q) : Spares locked table table'' q where
  pc := pc.trans spares.pc
  chan := by rw [proc, spares.chan]
  entry := by
    rw [proc]
    exact spares.entry

def Roused (p p' : ProcTable.Proc) : Prop :=
  p'.chan = p.chan ∧ (p'.state = p.state ∨ p.state = .sleeping ∧ p'.state = .runnable)

theorem Roused.refl (p : ProcTable.Proc) : Roused p p := ⟨rfl, .inl rfl⟩

theorem Roused.trans {p p' p'' : ProcTable.Proc} (left : Roused p p') (right : Roused p' p'') : Roused p p'' := by
  refine ⟨right.1.trans left.1, ?_⟩
  rcases left.2 with same | ⟨asleep, woken⟩
  · rw [← same]
    exact right.2
  · rcases right.2 with same | ⟨asleep', _⟩
    · exact .inr ⟨asleep, same.trans woken⟩
    · rw [woken] at asleep'
      contradiction

theorem roused_wakeup1 (chan : ProcTable.Chan) (p : ProcTable.Proc) : Roused p (p.wakeup1 chan) := by
  unfold ProcTable.Proc.wakeup1
  split
  · rename_i asleep
    exact ⟨rfl, .inr ⟨asleep.1, rfl⟩⟩
  · exact .refl p

theorem roused_abandon (sl : ProcTable.Slot) (p : ProcTable.Proc) : Roused p (p.abandon sl) := by
  unfold ProcTable.Proc.abandon
  split
  · exact ⟨rfl, .inl rfl⟩
  · exact .refl p

theorem Spares.of_roused (held : locked) (pc : table'.pc q = table.pc q)
    (roused : Roused (table.proc q) (table'.proc q)) : Spares locked table table' q where
  pc := pc
  chan := roused.1
  entry := by
    intro mine pc
    rcases roused.2 with same | ⟨asleep, woken⟩
    · rw [same]
      exact .same _ _
    · rw [asleep, woken]
      exact .rouse pc held

section

variable (table sl)

theorem exitSection_pc : (ProcTable.exitSection table sl).pc = table.pc := by
  obtain ⟨proc, same, _⟩ := ProcTable.exitSection_alike table sl
  rw [same]

theorem exitSection_told : ∃ told : ProcTable.State, (∀ q, Roused (table.proc q) (told.proc q)) ∧
      (ProcTable.exitSection table sl).proc = (told.setState sl .zombie).proc := by
  have told : ∀ (woken : ProcTable.State) (abandoned : Bool), (∀ q, Roused (table.proc q) (woken.proc q)) →
      ∀ q, Roused (table.proc q) ((if abandoned then
        ProcTable.wakeup1 (.proc initproc) { woken with proc := fun child => (woken.proc child).abandon sl }
        else { woken with proc := fun child => (woken.proc child).abandon sl }).proc q) := by
    intro woken abandoned roused q
    split
    · exact ((roused q).trans (roused_abandon sl _)).trans (roused_wakeup1 _ _)
    · exact (roused q).trans (roused_abandon sl _)
  unfold ProcTable.exitSection
  cases (table.proc sl).parent with
  | none => exact ⟨_, told table _ fun _ => .refl _, rfl⟩
  | some up => exact ⟨_, told (ProcTable.wakeup1 (.proc up) table) _ fun _ => roused_wakeup1 _ _, rfl⟩

theorem exitSection_own : ((ProcTable.exitSection table sl).proc sl).state = .zombie ∧
      ((ProcTable.exitSection table sl).proc sl).chan = (table.proc sl).chan := by
  obtain ⟨told, roused, same⟩ := exitSection_told table sl
  rw [same]
  simp [setState, setProc, (roused sl).1]

end

theorem spares_exitSection (held : locked) (o : q ≠ sl) : Spares locked table (ProcTable.exitSection table sl) q := by
  obtain ⟨told, roused, same⟩ := exitSection_told table sl
  refine .of_roused held (congrFun (exitSection_pc table sl) q) ?_
  rw [same]
  simpa [setState, setProc, o] using roused q

theorem roused_kill (pid : BitVec 32) : Roused (table.proc q) ((ProcTable.kill table pid).2.proc q) := by
  unfold ProcTable.kill
  split
  · exact .refl _
  · rename_i sl hit
    dsimp only
    by_cases same : q = sl
    · subst q
      simp only [setProc, update_self]
      split
      · rename_i asleep
        exact ⟨rfl, .inr ⟨asleep, rfl⟩⟩
      · exact ⟨rfl, .inl rfl⟩
    · simp only [setProc, ne_eq, same, not_false_eq_true, update_of_ne]
      exact .refl _

theorem kill_pc (pid : BitVec 32) : (ProcTable.kill table pid).2.pc = table.pc := by
  unfold ProcTable.kill
  split <;> rfl

theorem Spares.setProc {proc : ProcTable.Proc} (chan : proc.chan = (table.proc sl).chan)
    (entry : ∀ mine pc, Change locked mine (table.proc sl).state pc proc.state pc) :
    Spares locked table (table.setProc sl proc) q := by
  by_cases same : q = sl
  · subst q
    exact ⟨rfl, by simpa [ProcTable.State.setProc] using chan, by simpa [ProcTable.State.setProc] using entry⟩
  · exact .same rfl (by simp [ProcTable.State.setProc, same])

theorem spares_reap (held : locked) {child : ProcTable.Slot} (dead : (table.proc child).state = .zombie) :
    Spares locked table (ProcTable.reap table child) q := by
  refine .setProc rfl fun _ pc => ?_
  rw [dead]
  exact .reap pc held

theorem spares_allocproc {np : ProcTable.Slot} (hit : ProcTable.allocproc table = some (np, table')) :
    Spares locked table table' q := by
  obtain ⟨unused, rfl⟩ := ProcTable.allocproc_some hit
  have set : Spares locked table (table.setProc np
      { table.proc np with state := .embryo, pid := table.nextpid }) q := by
    refine .setProc rfl fun _ pc => ?_
    rw [unused]
    exact .alloc pc
  exact set.then_same rfl rfl

end

section

variable (safe : Safe s) (runs : (s.cpu c).thread = some p)

include safe runs

omit [DecidableEq C] in
theorem Safe.touching (cpu : s'.cpu = s.cpu) (lock : ∀ c', c' ≠ c → (s'.lock = some c' ↔ s.lock = some c'))
    (others : ∀ q, q ≠ p → s'.table.pc q = s.table.pc q ∧ (s'.table.proc q).chan = (s.table.proc q).chan ∧
      Change (s.lock = some c) ((s.table.pc p).bears = some q) (s.table.proc q).state
        (s.thread q) (s'.table.proc q).state (s'.thread q)) : Touches c s s' := by
  have cur := (safe.cpu c).proc runs
  have apart : ∀ {q}, (s.cpu c).proc ≠ some q → q ≠ p := by
    rintro q o rfl
    exact o cur
  constructor
  case cpu => simp [cpu]
  case lock => exact lock
  case pc => exact fun q o => (others q (apart o)).1
  case chan => exact fun q o => (others q (apart o)).2.1
  case entry =>
    intro q o
    have making : s.making c q ↔ (s.table.pc p).bears = some q := by
      simp [State.making, cur]
    rw [making]
    exact (others q (apart o)).2.2

omit [DecidableEq C] in
theorem Safe.touches (cpu : s'.cpu = s.cpu) (lock : ∀ c', c' ≠ c → (s'.lock = some c' ↔ s.lock = some c'))
    (thread : ∀ q, q ≠ p → s'.thread q = s.thread q)
    (spares : ∀ q, q ≠ p → Spares (s.lock = some c) s.table s'.table q) : Touches c s s' := by
  refine safe.touching runs cpu lock ?_
  intro q o
  rw [thread q o]
  exact ⟨(spares q o).pc, (spares q o).chan, (spares q o).entry _ _⟩

omit [DecidableEq C] in
theorem Safe.apart (here : s.table.pc p = .forking g np) : np ≠ p := by
  rintro rfl
  exact safe.unborn (safe.embryo here) c ((safe.cpu c).proc runs)

end

omit [DecidableEq C] in
theorem Made.of_outside (out : (s'.table.pc p).bears = none) : Made s s' p where
  embryo := by
    intro g np forking
    rw [forking] at out
    cases out
  born := by
    intro g np forking
    rw [forking] at out
    cases out
  maker := by simp [out]

omit [DecidableEq C] in
theorem Made.of_forking (g : ProcTable.ForkStage) (np : ProcTable.Slot)
    (here : s'.table.pc p = .forking g np) (embryo : (s'.table.proc np).state = .embryo)
    (born : g ≠ .stack → s'.thread np = .parked .forkret)
    (maker : (s.table.pc p).bears = some np ∨ (s.table.proc np).state = .unused) : Made s s' p := by
  constructor
  case embryo =>
    intro g' np' forking
    cases here.symm.trans forking
    exact embryo
  case born =>
    intro g' np' forking
    cases here.symm.trans forking
    exact born
  case maker =>
    intro np' bears
    rw [here] at bears
    cases bears
    exact maker

section

variable (safe : Safe s) (runs : (s.cpu c).thread = some p)

include safe runs

omit [DecidableEq C] in
theorem Safe.made (thread : ∀ q, q ≠ p → s'.thread q = s.thread q)
    (spares : ∀ q, q ≠ p → Spares (s.lock = some c) s.table s'.table q)
    (same : s'.table.pc p = s.table.pc p) : Made s s' p := by
  cases here : s.table.pc p with
  | forking g np =>
    have apart := safe.apart runs here
    refine .of_forking g np (same.trans here) ((spares np apart).embryo (safe.embryo here)) ?_ ?_
    · rw [thread np apart]
      exact (safe.thread p).born g np here
    · rw [here]
      exact .inl rfl
  | _ =>
    refine .of_outside ?_
    rw [same, here]
    rfl

omit [DecidableEq C] in
theorem Safe.held {pc : ThreadPc} (k : s.thread p = pc) (locked : pc.locked = true) : s.lock = some c := by
  apply (safe.cpu c).guard.mp
  simpa only [inside, runs, k] using locked

omit [DecidableEq C] in
theorem Safe.not_held {pc : ThreadPc} (place : s.thread p = pc) (unlocked : pc.locked = false) : s.lock ≠ some c := by
  intro held
  have locked := (safe.cpu c).guard.mpr held
  simp only [inside, runs, place, unlocked] at locked
  contradiction

end

end Xv6.Scheduler
