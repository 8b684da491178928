import Xv6.Lib.Guard
import Xv6.Lib.Reach

/-! `sleeplock.c` as a system of processes: `acquiresleep` and `releasesleep` on any number of
sleep locks, with `sleep`, `wakeup` and `kill` of `proc.c`. A process stands at a point of the
code; taking and giving back `lk->lk` and `ptable.lock` are steps of their own. -/


namespace Xv6.SleepLock

open Function (update update_of_ne update_self)

/-- A sleep lock; `lk` is the holder of the spin lock that protects it. -/
structure Lock (P : Type) where
  lk : Option P
  locked : Bool
  pid : BitVec 32

inductive Status where
  | running
  | runnable
  | sleeping
  deriving DecidableEq

inductive Chan (L : Type) where
  | lock (lk : L)
  | other (addr : Nat)
  deriving DecidableEq

inductive Stage where
  | acquire
  | release
  | sched
  | asleep
  | woken
  | again
  deriving DecidableEq

/-- Where a process stands in `acquiresleep`, `sleep`, `releasesleep` or `kill`. -/
inductive Pc (P L : Type) where
  | user
  | entering (lk : L)
  | testing (lk : L)
  | sleep (stage : Stage) (lk : L)
  | leaving (lk : L)
  | freeing (lk : L)
  | clearing (lk : L)
  | waking (lk : L)
  | scanning (lk : L)
  | scanned (lk : L)
  | returning (lk : L)
  | killing (target : P)
  | marking (target : P)
  | marked
  deriving DecidableEq

/-- The locks, the holder of `ptable.lock`, the processes, and as history who is between `acquiresleep`
and `releasesleep` on which lock. -/
structure State (P L : Type) where
  lock : L → Lock P
  ptable : Option P
  pc : P → Pc P L
  status : P → Status
  chan : P → Option (Chan L)
  killed : P → Bool
  held : P → L → Bool

variable {P L : Type} [DecidableEq P] [DecidableEq L]

def State.initial : State P L where
  lock := fun _ => ⟨none, false, 0⟩
  ptable := none
  pc := fun _ => .user
  status := fun _ => .runnable
  chan := fun _ => none
  killed := fun _ => false
  held := fun _ _ => false

def State.goto (st : State P L) (q : P) (pc : Pc P L) : State P L :=
  { st with pc := update st.pc q pc }

def State.setLock (st : State P L) (lk : L) (lock : Lock P) : State P L :=
  { st with lock := update st.lock lk lock }

def State.spin (st : State P L) (lk : L) (holder : Option P) : State P L :=
  st.setLock lk { st.lock lk with lk := holder }

def State.setStatus (st : State P L) (q : P) (status : Status) : State P L :=
  { st with status := update st.status q status }

def State.setChan (st : State P L) (q : P) (chan : Option (Chan L)) : State P L :=
  { st with chan := update st.chan q chan }

def State.setHeld (st : State P L) (q : P) (lk : L) (held : Bool) : State P L :=
  { st with held := update st.held q (update (st.held q) lk held) }

def State.wakeup1 (st : State P L) (chan : Chan L) : State P L :=
  { st with
    status := fun q =>
      if st.status q = .sleeping ∧ st.chan q = some chan then .runnable
      else st.status q }

def Pc.spins (lk : L) : Pc P L → Bool
  | .testing on | .sleep .acquire on | .sleep .release on | .leaving on | .clearing on | .waking on
  | .scanning on | .scanned on | .returning on => on = lk
  | _ => false

def Pc.tables : Pc P L → Bool
  | .sleep .release _ | .sleep .sched _ | .sleep .woken _ | .scanning _ | .scanned _ | .marking _
  | .marked => true
  | _ => false

def Pc.preemptible : Pc P L → Bool
  | .user | .entering _ | .sleep .again _ | .freeing _ | .killing _ => true
  | _ => false

def run (pid : P → BitVec 32) (st : State P L) (q : P) : Option (State P L) :=
  match st.pc q with
  | .user => none
  | .entering lk =>
    if (st.lock lk).lk = none then
      some ((st.spin lk (some q)).goto q (.testing lk))
    else none
  | .testing lk =>
    if (st.lock lk).locked then some (st.goto q (.sleep .acquire lk))
    else
      some ((st.setLock lk { st.lock lk with locked := true, pid := pid q }).goto q (.leaving lk))
  | .sleep .acquire lk =>
    if st.ptable = none then
      some ({ st with ptable := some q }.goto q (.sleep .release lk))
    else none
  | .sleep .release lk => some ((st.spin lk none).goto q (.sleep .sched lk))
  | .sleep .sched lk =>
    some ((({ st with ptable := none }.setChan q (some (.lock lk))).setStatus q .sleeping).goto q (.sleep .asleep lk))
  | .sleep .asleep _ => none
  | .sleep .woken lk =>
    some (({ st with ptable := none }.setChan q none).goto q (.sleep .again lk))
  | .sleep .again lk =>
    if (st.lock lk).lk = none then
      some ((st.spin lk (some q)).goto q (.testing lk))
    else none
  | .leaving lk => some (((st.spin lk none).setHeld q lk true).goto q .user)
  | .freeing lk =>
    if (st.lock lk).lk = none then
      some ((st.spin lk (some q)).goto q (.clearing lk))
    else none
  | .clearing lk =>
    some ((st.setLock lk { st.lock lk with locked := false, pid := 0 }).goto q (.waking lk))
  | .waking lk =>
    if st.ptable = none then
      some ({ st with ptable := some q }.goto q (.scanning lk))
    else none
  | .scanning lk => some ((st.wakeup1 (.lock lk)).goto q (.scanned lk))
  | .scanned lk => some ({ st with ptable := none }.goto q (.returning lk))
  | .returning lk => some ((st.spin lk none).goto q .user)
  | .killing target =>
    if st.ptable = none then
      some ({ st with ptable := some q }.goto q (.marking target))
    else none
  | .marking target =>
    let st := { st with killed := update st.killed target true }
    some ((if st.status target = .sleeping then st.setStatus target .runnable else st).goto q .marked)
  | .marked => some ({ st with ptable := none }.goto q .user)

inductive Action (P L : Type) where
  | acquiresleep (q : P) (lk : L)
  | releasesleep (q : P) (lk : L)
  | kill (q target : P)
  | run (q : P)
  | scheduler (q : P)
  | yield (q : P)
  | sleep (q : P) (addr : Nat)
  | wakeup (addr : Nat)

/-- One step of a process or the scheduler; none where it cannot be taken. Only the holder calls
`releasesleep`. The scheduler hands `ptable.lock` to a process that comes back in `sleep`. -/
def step (pid : P → BitVec 32) (st : State P L) : Action P L → Option (State P L)
  | .acquiresleep q lk =>
    if st.status q = .running ∧ st.pc q = .user then
      some (st.goto q (.entering lk))
    else none
  | .releasesleep q lk =>
    if st.status q = .running ∧ st.pc q = .user ∧ st.held q lk = true then
      some ((st.setHeld q lk false).goto q (.freeing lk))
    else none
  | .kill q target =>
    if st.status q = .running ∧ st.pc q = .user then
      some (st.goto q (.killing target))
    else none
  | .run q => if st.status q = .running then run pid st q else none
  | .scheduler q =>
    if st.ptable = none ∧ st.status q = .runnable then
      match st.pc q with
      | .sleep .asleep lk =>
        some (({ st with ptable := some q }.setStatus q .running).goto q (.sleep .woken lk))
      | _ => some (st.setStatus q .running)
    else none
  | .yield q =>
    if st.ptable = none ∧ st.status q = .running ∧ (st.pc q).preemptible then
      some (st.setStatus q .runnable)
    else none
  | .sleep q addr =>
    if st.ptable = none ∧ st.status q = .running ∧ st.pc q = .user then
      some ((st.setChan q (some (.other addr))).setStatus q .sleeping)
    else none
  | .wakeup addr => if st.ptable = none then some (st.wakeup1 (.other addr)) else none

def Next (pid : P → BitVec 32) (st : State P L) (action : Action P L) (st' : State P L) : Prop :=
  step pid st action = some st'

open Guard Reach

variable {pid : P → BitVec 32} {s s' : State P L} {p : P} {lk : L} {target : Pc P L}

/-! Each spin lock is held by the process that stands in its section. -/

structure Spun (st : State P L) : Prop where
  spin : ∀ lk, Guarded (Pc.spins lk) st.pc (st.lock lk).lk
  table : Guarded Pc.tables st.pc st.ptable

theorem Spun.move (spun : Spun s) (pc : s'.pc = update s.pc p target)
    (spin : ∀ on, Passes p (s.lock on).lk (s'.lock on).lk ((s.pc p).spins on) (target.spins on))
    (tab : Passes p s.ptable s'.ptable (s.pc p).tables target.tables) : Spun s' := by
  have self : s'.pc p = target := by rw [pc, update_self]
  have rest : ∀ o, o ≠ p → s'.pc o = s.pc o := by
    intro o ne
    rw [pc, update_of_ne ne]
  refine ⟨fun on => (spun.spin on).move (fun o ne => by rw [rest o ne]) ?_,
    spun.table.move (fun o ne => by rw [rest o ne]) ?_⟩
  · rw [self]
    exact spin on
  · rw [self]
    exact tab

theorem Spun.run (spun : Spun s) (ran : run pid s p = some s') : Spun s' := by
  simp only [SleepLock.run] at ran
  split at ran <;> (try split at ran) <;> cases ran
  all_goals refine spun.move rfl (fun on => ?_) ?_
  all_goals simp only [*, Pc.spins, Pc.tables, Passes, State.goto, State.spin, State.setLock, State.setHeld,
    State.setChan, State.setStatus, State.wakeup1, Function.update_apply]
  all_goals grind

/-! A lock is held by one process at most, from setting `lk->locked` to clearing it. -/

/-- The process has the lock and is still in `acquiresleep`, or already in `releasesleep`. -/
def Pc.keeps (lk : L) : Pc P L → Bool
  | .leaving on | .freeing on | .clearing on => on = lk
  | _ => false

def State.owns (st : State P L) (lk : L) (q : P) : Bool :=
  st.held q lk || (st.pc q).keeps lk

structure Owned (st : State P L) : Prop where
  locked : ∀ lk, Flagged id (st.owns lk) (st.lock lk).locked
  once : ∀ q lk, (st.pc q).keeps lk = true → st.held q lk = false

theorem Owned.move (owned : Owned s) (pc : s'.pc = update s.pc p target) (rest : ∀ o, o ≠ p → s'.held o = s.held o)
    (claims : ∀ lk, Claims (s.lock lk).locked (s'.lock lk).locked (s.owns lk p) (s'.held p lk || target.keeps lk))
    (once : ∀ lk, target.keeps lk = true → s'.held p lk = false) : Owned s' := by
  constructor
  · intro lk
    have eq : ∀ o, o ≠ p → s'.owns lk o = s.owns lk o := by
      intro o ne
      rw [State.owns, pc, update_of_ne ne, rest o ne, State.owns]
    refine (owned.locked lk).move eq ?_
    simp only [id, State.owns, pc, update_self]
    exact claims lk
  · intro o lk keeps
    by_cases eq : o = p
    · subst o
      rw [pc, update_self] at keeps
      exact once lk keeps
    · rw [pc, update_of_ne eq] at keeps
      rw [rest o eq]
      exact owned.once o lk keeps

theorem Owned.run (owned : Owned s) (ran : run pid s p = some s') : Owned s' := by
  have set : ∀ lk, s.owns lk p = true → (s.lock lk).locked = true := fun lk owns =>
    (owned.locked lk).set owns
  have once := owned.once p
  simp only [SleepLock.run] at ran
  simp only [State.owns] at set
  split at ran <;> (try split at ran) <;> cases ran
  all_goals refine owned.move rfl (fun o ne => ?_) (fun on => ?_) fun on => ?_
  all_goals simp only [*, Pc.keeps, Claims, State.owns, State.goto, State.spin, State.setLock, State.setHeld,
    State.setChan, State.setStatus, State.wakeup1, Function.update_apply]
  all_goals grind [Pc.keeps]

/-! Whoever sleeps on a lock, or is about to, has a reason: the lock is taken, or the process that
gave it back is about to wake the sleepers. -/

def Pc.dozes (lk : L) : Pc P L → Bool
  | .sleep .acquire on | .sleep .release on | .sleep .sched on => on = lk
  | _ => false

def Pc.owes (lk : L) : Pc P L → Bool
  | .waking on | .scanning on => on = lk
  | _ => false

def State.Rests (st : State P L) (q : P) (lk : L) : Prop :=
  (st.pc q).dozes lk = true ∨ st.status q = .sleeping ∧ st.chan q = some (.lock lk)

def State.Due (st : State P L) (lk : L) : Prop :=
  (st.lock lk).locked = true ∨ ∃ other, (st.pc other).owes lk = true

structure Rested (st : State P L) : Prop where
  due : ∀ q lk, st.Rests q lk → st.Due lk

theorem Rested.move (rested : Rested s) (pc : s'.pc = update s.pc p target)
    (rest : ∀ o lk, o ≠ p → s'.status o = .sleeping →
      s'.chan o = some (.lock lk) → s.status o = .sleeping ∧ s.chan o = some (.lock lk))
    (self : ∀ lk, s'.Rests p lk → s.Rests p lk ∨ (s'.lock lk).locked = true) (due : ∀ o lk, s'.Rests o lk →
      (s.lock lk).locked = true ∨ (s.pc p).owes lk = true →
      (s'.lock lk).locked = true ∨ target.owes lk = true) : Rested s' := by
  have reason : ∀ o lk, s'.Rests o lk → s.Due lk → s'.Due lk := by
    rintro o lk rests (ran | ⟨waker, debt⟩)
    · exact (due o lk rests (Or.inl ran)).imp_right fun owes => ⟨p, by rwa [pc, update_self]⟩
    · by_cases eq : waker = p
      · subst waker
        exact (due o lk rests (Or.inr debt)).imp_right fun owes => ⟨p, by rwa [pc, update_self]⟩
      · exact Or.inr ⟨waker, by rwa [pc, update_of_ne eq]⟩
  refine ⟨fun o lk rests => ?_⟩
  by_cases eq : o = p
  · subst o
    rcases self lk rests with pre | ran
    · exact reason _ lk rests (rested.due _ lk pre)
    · exact Or.inl ran
  · refine reason o lk rests (rested.due o lk ?_)
    rw [State.Rests, pc, update_of_ne eq] at rests
    exact rests.imp_right fun asleep => rest o lk eq asleep.1 asleep.2

omit [DecidableEq P] in
theorem Spun.nobody (spun : Spun s) (here : s.pc p = .scanning lk) (o : P) : (s.pc o).dozes lk = false := by
  by_contra doze
  rw [Bool.not_eq_false] at doze
  have holds : (s.pc o).spins lk = true ∨ (s.pc o).tables = true := by
    unfold Pc.dozes at doze
    split at doze <;> simp_all [Pc.spins, Pc.tables]
  obtain rfl : o = p := by
    rcases holds with spins | tables
    · exact (spun.spin lk).alone spins (by simp [here, Pc.spins])
    · exact spun.table.alone tables (by simp [here, Pc.tables])
  simp [here, Pc.dozes] at doze

theorem Rested.run (rested : Rested s) (spun : Spun s) (ran : run pid s p = some s') : Rested s' := by
  have nobody : ∀ lk, s.pc p = .scanning lk → ∀ o, (s.pc o).dozes lk = false :=
    fun lk here => spun.nobody here
  simp only [SleepLock.run] at ran
  split at ran <;> (try split at ran) <;> cases ran
  all_goals
    refine rested.move rfl (fun o on ne asleep chan => ?_) (fun on rests => ?_) fun o on rests reason => ?_
  all_goals simp only [*, Pc.owes, Pc.dozes, State.Rests, State.goto, State.spin, State.setLock, State.setHeld,
    State.setChan, State.setStatus, State.wakeup1, Function.update_apply] at *
  all_goals grind [Pc.dozes]

structure Safe (st : State P L) : Prop where
  spun : Spun st
  owned : Owned st
  rested : Rested st

omit [DecidableEq P] in
theorem Safe.initial : Safe (State.initial : State P L) where
  spun := ⟨fun lk p => by simp [State.initial, Pc.spins], fun p => by simp [State.initial, Pc.tables]⟩
  owned := by
    refine ⟨fun lk => ⟨none, fun p => ?_, rfl⟩, ?_⟩
    · simp [State.initial, State.owns, Pc.keeps]
    · simp [State.initial]
  rested := ⟨by simp [State.initial, State.Rests, Pc.dozes]⟩

theorem Safe.move (safe : Safe s) (pc : s'.pc = update s.pc p target)
    (lock : s'.lock = s.lock) (held : s'.held = s.held)
    (tab : Passes p s.ptable s'.ptable (s.pc p).tables target.tables)
    (points : ∀ lk, target.spins lk = (s.pc p).spins lk ∧
      target.keeps lk = (s.pc p).keeps lk ∧ target.owes lk = (s.pc p).owes lk ∧ target.dozes lk = (s.pc p).dozes lk)
    (asleep : ∀ o lk, s'.status o = .sleeping → s'.chan o = some (.lock lk) →
      s.status o = .sleeping ∧ s.chan o = some (.lock lk)) : Safe s' where
  spun := safe.spun.move pc (fun lk => by rw [lock, (points lk).1, passes_same]) tab
  owned := by
    refine safe.owned.move pc (fun o _ => by rw [held]) (fun lk => ?_) fun lk keeps => ?_
    · rw [lock, held, (points lk).2.1, ← State.owns, claims_same]
    · rw [held]
      exact safe.owned.once p lk ((points lk).2.1 ▸ keeps)
  rested := by
    refine safe.rested.move pc (fun o lk _ => asleep o lk) (fun lk rests => Or.inl ?_) fun _ lk _ => ?_
    · rw [State.Rests, pc, update_self, (points lk).2.2.2] at rests
      exact rests.imp_right fun sleeps => asleep p lk sleeps.1 sleeps.2
    · rw [lock, (points lk).2.2.1]
      exact id

omit [DecidableEq P] in
theorem Safe.restate (safe : Safe s) {status : P → Status} {chan : P → Option (Chan L)}
    (asleep : ∀ o lk, status o = .sleeping → chan o = some (.lock lk) →
      s.status o = .sleeping ∧ s.chan o = some (.lock lk)) : Safe { s with status, chan } := by
  refine ⟨⟨safe.spun.spin, safe.spun.table⟩, ⟨safe.owned.locked, safe.owned.once⟩, ⟨fun o lk rests => ?_⟩⟩
  exact safe.rested.due o lk (rests.imp_right fun sleeps => asleep o lk sleeps.1 sleeps.2)

theorem Safe.step {action : Action P L} (safe : Safe s) (ran : Next pid s action s') : Safe s' := by
  cases action with
  | acquiresleep p lk | kill p lk =>
    simp only [Next, SleepLock.step] at ran
    split at ran <;> cases ran
    rename_i here
    refine safe.move rfl rfl rfl ?_ (fun on => ?_) fun o on asleep chan => ⟨asleep, chan⟩
    all_goals simp [here.2, Pc.spins, Pc.tables, Pc.keeps, Pc.owes, Pc.dozes, State.goto]
  | releasesleep p lk =>
    simp only [Next, SleepLock.step] at ran
    split at ran <;> cases ran
    rename_i here
    refine ⟨safe.spun.move rfl (fun on => ?_) ?_, safe.owned.move rfl (fun o ne => ?_)
      (fun on => ?_) fun on => ?_, safe.rested.move rfl ?_ ?_ ?_⟩
    all_goals simp only [here, Pc.spins, Pc.tables, Pc.keeps, Pc.owes, Pc.dozes, Passes, Claims, State.goto,
      State.setHeld, State.owns, State.Rests, Function.update_apply]
    all_goals grind
  | run p =>
    simp only [Next, SleepLock.step] at ran
    split at ran
    · exact ⟨safe.spun.run ran, safe.owned.run ran, safe.rested.run safe.spun ran⟩
    · cases ran
  | scheduler p =>
    simp only [Next, SleepLock.step] at ran
    split at ran
    · rename_i free
      split at ran <;> cases ran
      · rename_i here
        refine safe.move rfl rfl rfl ?_ (fun on => ?_) fun o on asleep chan => ⟨?_, chan⟩
        · simp [here, Pc.tables, Passes, State.goto, State.setStatus, free.1]
        · simp [here, Pc.spins, Pc.keeps, Pc.owes, Pc.dozes]
        · simp only [State.goto, State.setStatus, Function.update_apply] at asleep
          grind
      · exact safe.restate (by grind)
    · cases ran
  | yield p | wakeup addr =>
    simp only [Next, SleepLock.step] at ran
    split at ran <;> cases ran
    exact safe.restate (by grind)
  | sleep p addr =>
    simp only [Next, SleepLock.step] at ran
    split at ran <;> cases ran
    apply safe.restate
    simp only [State.setChan, Function.update_apply]
    grind

/-- At most one process is between `acquiresleep` and `releasesleep` on a lock, and a process sleeps on a
lock only while it is taken. -/
theorem sleeplock_exclusion (pid : P → BitVec 32) {st : State P L}
    (reached : Reachable (Next pid) (fun _ _ => True) State.initial st) (lk : L) :
    (∀ q other, st.held q lk = true → st.held other lk = true → q = other) ∧
    ((st.lock lk).lk = none → st.ptable = none → ∀ q, st.status q = .sleeping →
      st.chan q = some (.lock lk) → (st.lock lk).locked = true) := by
  have safe : Safe st := reached.invariant Safe .initial fun _ _ _ safe _ tk => safe.step tk
  constructor
  · intro q other left right
    exact (safe.owned.locked lk).alone (by simp [State.owns, left]) (by simp [State.owns, right])
  · intro free _ q asleep chan
    rcases safe.rested.due q lk (Or.inr ⟨asleep, chan⟩) with tk | ⟨waker, debt⟩
    · exact tk
    · have outside : (st.pc waker).spins lk = false := (safe.spun.spin lk).outside free
      unfold Pc.owes at debt
      split at debt
      · rename_i here
        simp [here, Pc.spins] at outside debt
        exact absurd debt outside
      · rename_i here
        simp [here, Pc.spins] at outside debt
        exact absurd debt outside
      · cases debt

theorem sleeplock_exclusion_two : ∃ st : State (Fin 2) Unit,
    Reachable (Next fun _ => 0) (fun _ _ => True) State.initial st ∧ st.held 0 () = true ∧
    st.status 1 = .sleeping ∧ st.chan 1 = some (.lock ()) ∧ (st.lock ()).lk = none ∧
    st.ptable = none ∧ (st.lock ()).locked = true := by
  have checked : (replay (step fun _ => 0) (fun (_ : State (Fin 2) Unit) _ => True)
      [.scheduler 0, .scheduler 1, .acquiresleep 0 (), .run 0, .run 0, .acquiresleep 1 (), .run 0, .run 1,
        .run 1, .run 1, .run 1, .run 1] State.initial).any (fun st =>
          decide (st.held 0 () = true ∧ st.status 1 = .sleeping ∧
            st.chan 1 = some (.lock ()) ∧ (st.lock ()).lk = none ∧ st.ptable = none)) = true := by
    decide +kernel
  obtain ⟨st, reached, found⟩ := Reachable.of_replay (fun _ _ _ _ tk => tk) checked
  obtain ⟨held, asleep, chan, free, table⟩ := of_decide_eq_true found
  exact ⟨st, reached, held, asleep, chan, free, table,
    (sleeplock_exclusion (fun _ => 0) reached ()).2 free table 1 asleep chan⟩

end Xv6.SleepLock
