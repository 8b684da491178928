import Xv6.ProcCore

/-! The process table is a lineage: its steps are those of `Lineage`, with pids the numbers of
the processes in 32 bits. From this what holds of pids, parents and `wait` in every run. -/

namespace Xv6.ProcTable

open Lineage Reach List BitVec Bool Function

variable {s : State} {proc p q : Proc} {later : ForkStage} {c : Slot} {a : Action} {pid by_ : BitVec 32}

def kindOf : ProcState → Kind
  | .unused => .empty
  | .embryo => .seed
  | .zombie => .dead
  | .sleeping | .runnable | .running => .live

theorem kindOf_eq_empty {s : ProcState} : kindOf s = .empty ↔ s = .unused := by
  cases s <;> simp [kindOf]

def Pc.bears : Pc → Option Slot
  | .forking _ np => some np
  | _ => none

def pidOf (number : Nat) : BitVec 32 := BitVec.ofNat 32 number

structure Shows (f : Family Slot) (st : State) : Prop where
  kind : ∀ sl, f.kind sl = kindOf (st.proc sl).state
  pid : ∀ sl, (st.proc sl).state ≠ .unused → (st.proc sl).pid = pidOf (f.name sl)
  parent : ∀ sl, f.parent sl = (st.proc sl).parent
  bears : ∀ sl, f.bears sl = (st.pc sl).bears
  nextpid : st.nextpid = pidOf (f.made + 1)
  created : st.created = f.made
  history : st.history = f.history.map (Event.map pidOf)
  adopted : ∀ sl np, st.pc sl = .forking .start np → f.parent np = some sl
  waiting : ∀ sl stage np, st.pc sl = .forking stage np → stage ≠ .start → f.parent np = none

structure Proc.Alike (p q : Proc) : Prop where
  kind : kindOf q.state = kindOf p.state
  pid : q.pid = p.pid
  parent : q.parent = p.parent

theorem Proc.Alike.refl (p : Proc) : p.Alike p := ⟨rfl, rfl, rfl⟩

theorem Proc.alike_wakeup1 (chan : Chan) (p : Proc) : p.Alike (p.wakeup1 chan) := by
  unfold Proc.wakeup1
  split
  · rename_i asleep
    exact ⟨by simp [asleep.1, kindOf], rfl, rfl⟩
  · exact .refl p

theorem alike_setProc {sl : Slot} (alike : (s.proc sl).Alike proc) (o : Slot) :
    (s.proc o).Alike ((s.setProc sl proc).proc o) := by
  by_cases eq : o = sl
  · subst o
    simpa [State.setProc] using alike
  · simpa [State.setProc, eq] using Proc.Alike.refl _

section

variable {f : Family Slot} {s s' : State} {sl np : Slot} {pc : Pc} {stage : ForkStage}

theorem Shows.alike (sh : Shows f s) {proc : Slot → Proc}
    (alike : ∀ sl, (s.proc sl).Alike (proc sl)) : Shows f { s with proc } where
  kind := by
    intro sl
    rw [sh.kind sl, (alike sl).kind]
  pid := by
    intro sl used
    have pre : (s.proc sl).state ≠ .unused := by
      intro unused
      apply used
      rw [← kindOf_eq_empty, (alike sl).kind, kindOf_eq_empty, unused]
    rw [(alike sl).pid, sh.pid sl pre]
  parent := by
    intro sl
    rw [sh.parent sl, (alike sl).parent]
  bears := sh.bears
  nextpid := sh.nextpid
  created := sh.created
  history := sh.history
  adopted := sh.adopted
  waiting := sh.waiting

theorem Shows.goto (sh : Shows f s) (pre : (s.pc sl).bears = none) (after : pc.bears = none) :
    Shows f (s.goto sl pc) where
  kind := sh.kind
  pid := sh.pid
  parent := sh.parent
  bears := by
    intro o
    by_cases same : o = sl <;> simp [State.goto, same, after, sh.bears, pre]
  nextpid := sh.nextpid
  created := sh.created
  history := sh.history
  adopted := by
    intro o np here
    by_cases same : o = sl
    · subst o
      simp only [State.goto, update_self] at here
      simp [here, Pc.bears] at after
    · exact sh.adopted o np (by simpa [State.goto, same] using here)
  waiting := by
    intro o stage np here
    by_cases same : o = sl
    · subst o
      simp only [State.goto, update_self] at here
      simp [here, Pc.bears] at after
    · exact sh.waiting o stage np (by simpa [State.goto, same] using here)

theorem Shows.used (sh : Shows f s) (kind : f.kind sl ≠ .empty) : (s.proc sl).state ≠ .unused := by
  rwa [sh.kind sl, ne_eq, kindOf_eq_empty] at kind

theorem allocproc_some (hit : allocproc s = some (np, s')) : (s.proc np).state = .unused ∧ s' = { s with
      proc := update s.proc np { s.proc np with state := .embryo, pid := s.nextpid }
      nextpid := s.nextpid + 1
      created := s.created + 1 } := by
  unfold allocproc at hit
  split at hit
  · simp at hit
  · rename_i sl fst
    simp only [Option.some.injEq, Prod.mk.injEq] at hit
    obtain ⟨rfl, rfl⟩ := hit
    exact ⟨by simpa using List.find?_some fst, rfl⟩

section

variable (sh : Shows f s)

include sh

theorem Shows.change {g : Family Slot} {nextpid : BitVec 32} {created : Nat}
    {history : List (Event (BitVec 32))} (kind : g.kind = update f.kind np (kindOf proc.state))
    (name : ∀ o, o ≠ np → g.name o = f.name o) (pid : proc.state ≠ .unused → proc.pid = pidOf (g.name np))
    (parent : g.parent = update f.parent np proc.parent) (bears : g.bears = update f.bears sl pc.bears)
    (next : nextpid = pidOf (g.made + 1)) (made : created = g.made) (told : history = g.history.map (Event.map pidOf))
    (others : ∀ o stage c, o ≠ sl → s.pc o = .forking stage c →
      c ≠ np) (adopted : ∀ c, pc = .forking .start c → g.parent c = some sl)
    (waiting : ∀ stage c, pc = .forking stage c → stage ≠ .start → g.parent c = none) :
    Shows g ⟨update s.proc np proc, nextpid, update s.pc sl pc, created, history⟩ where
  kind := by
    intro o
    simp only [kind, update_apply, sh.kind]
    split <;> rfl
  pid := by
    intro o used
    simp only [update_apply] at used ⊢
    split at used
    · simp_all
    · simp_all [sh.pid o used]
  parent := by
    intro o
    simp only [parent, update_apply, sh.parent]
    split <;> rfl
  bears := by
    intro o
    simp only [bears, update_apply, sh.bears]
    split <;> rfl
  nextpid := next
  created := made
  history := told
  adopted := by
    intro o c here
    by_cases eq : o = sl
    · subst o
      exact adopted c (by simpa using here)
    · have pre : s.pc o = .forking .start c := by simpa [eq] using here
      rw [parent, update_of_ne (others o _ c eq pre)]
      exact sh.adopted o c pre
  waiting := by
    intro o stage c here early
    by_cases eq : o = sl
    · subst o
      exact waiting stage c (by simpa using here) early
    · have pre : s.pc o = .forking stage c := by simpa [eq] using here
      rw [parent, update_of_ne (others o _ c eq pre)]
      exact sh.waiting o stage c pre early

theorem Shows.apart (ord : Ordered initproc f) (here : s.pc sl = .forking stage np) :
    ∀ o stage' c, o ≠ sl → s.pc o = .forking stage' c → c ≠ np := by
  rintro o stage' c ne there rfl
  apply ne
  apply ord.bears_once o sl c
  · rw [sh.bears, there]
    rfl
  · rw [sh.bears, here]
    rfl

theorem Shows.seed (ord : Ordered initproc f) (here : s.pc sl = .forking stage np) :
    f.bears sl = some np ∧ f.kind np = .seed ∧ f.kind sl = .live := by
  have bears : f.bears sl = some np := by
    rw [sh.bears, here]
    rfl
  exact ⟨bears, ord.bears_seed sl np bears⟩

theorem Shows.parent_same (np : Slot) : f.parent = update f.parent np (s.proc np).parent := by
  rw [← sh.parent, update_eq_self]

theorem Shows.kind_same (np : Slot) : f.kind = update f.kind np (kindOf (s.proc np).state) := by
  rw [← sh.kind, update_eq_self]

section

variable (ord : Ordered initproc f)

include ord

theorem Shows.sow (sl : Slot) (hit : allocproc s = some (np, s')) :
    f.kind np = .empty ∧ Shows (f.sow sl np) (s'.goto sl (.forking .stack np)) := by
  obtain ⟨unused, rfl⟩ := allocproc_some hit
  have free : f.kind np = .empty := by
    rw [sh.kind np, unused]
    rfl
  refine ⟨free, ?_⟩
  apply sh.change rfl
  · intro o ne
    simp [Family.sow, ne]
  · intro _
    simp [Family.sow, sh.nextpid]
  · exact sh.parent_same np
  · rfl
  · change s.nextpid + 1 = pidOf (f.made + 1 + 1)
    rw [sh.nextpid, pidOf, pidOf, ofNat_add (f.made + 1) 1]
    rfl
  · simp [Family.sow, sh.created]
  · exact sh.history
  · rintro o stage c _ there rfl
    have seed := (sh.seed ord there).2.1
    rw [free] at seed
    contradiction
  · simp
  · rintro stage c eq _
    obtain ⟨_, rfl⟩ : ForkStage.stack = stage ∧ np = c := by simpa using eq
    exact ord.empty_parent np free

theorem Shows.further (here : s.pc sl = .forking stage np)
    (early : stage ≠ .start) (notYet : later ≠ .start) : Shows f (s.goto sl (.forking later np)) := by
  have whole : s.proc = update s.proc np (s.proc np) := by
    rw [update_eq_self]
  rw [State.goto, whole]
  apply sh.change (sh.kind_same np) (fun _ _ => rfl) (sh.pid np) (sh.parent_same np)
  · rw [Pc.bears, ← (sh.seed ord here).1, update_eq_self]
  · exact sh.nextpid
  · exact sh.created
  · exact sh.history
  · exact sh.apart ord here
  · intro c eq
    simp only [Pc.forking.injEq] at eq
    exact absurd eq.1 notYet
  · intro stage' c eq _
    simp only [Pc.forking.injEq] at eq
    rw [← eq.2]
    exact sh.waiting sl stage np here early

theorem Shows.drop (here : s.pc sl = .forking stage np) :
    Shows (f.drop sl np) ((s.setState np .unused).goto sl .user) := by
  apply sh.change (g := f.drop sl np) rfl (fun _ _ => rfl)
  · simp
  · exact sh.parent_same np
  · rfl
  · exact sh.nextpid
  · exact sh.created
  · exact sh.history
  · exact sh.apart ord here
  · simp
  · simp

theorem Shows.adopt (here : s.pc sl = .forking .adopt np) :
    Shows (f.adopt sl np) ((s.setProc np { s.proc np with parent := some sl }).goto sl (.forking .start np)) := by
  apply sh.change (g := f.adopt sl np)
  · exact sh.kind_same np
  · exact fun _ _ => rfl
  · exact sh.pid np
  · rfl
  · rw [Family.adopt, Pc.bears, ← (sh.seed ord here).1, update_eq_self]
  · exact sh.nextpid
  · exact sh.created
  · exact sh.history
  · exact sh.apart ord here
  · intro c eq
    obtain rfl : np = c := by simpa using eq
    simp [Family.adopt]
  · rintro stage c eq later
    simp only [Pc.forking.injEq] at eq
    exact absurd eq.1.symm later

theorem Shows.bear (here : s.pc sl = .forking .start np) :
    Shows (f.bear sl np) { (s.setState np .runnable).goto sl .user with
      history := .born (s.proc np).pid (s.proc sl).pid :: s.history } := by
  obtain ⟨_, seed, live⟩ := sh.seed ord here
  have c := sh.pid np (sh.used (by simp [seed]))
  have maker := sh.pid sl (sh.used (by simp [live]))
  apply sh.change (g := f.bear sl np) rfl (fun _ _ => rfl)
  · intro _
    exact c
  · exact sh.parent_same np
  · rfl
  · exact sh.nextpid
  · exact sh.created
  · simp [Family.bear, Event.map, sh.history, c, maker]
  · exact sh.apart ord here
  · simp
  · simp

theorem Shows.collect (out : (s.pc sl).bears = none) (live : f.kind sl = .live)
    (zombie : (s.proc c).state = .zombie) : Shows (f.collect sl c) { (reap s c).goto sl .user with
      history := .collected (s.proc c).pid (s.proc sl).pid :: s.history } := by
  have dead : f.kind c = .dead := by
    rw [sh.kind, zombie]
    rfl
  have name := sh.pid c (sh.used (by simp [dead]))
  have coll := sh.pid sl (sh.used (by simp [live]))
  apply sh.change (g := f.collect sl c) rfl (fun _ _ => rfl)
  · simp
  · rfl
  · simp only [Family.collect, Pc.bears]
    rw [← out, ← sh.bears, update_eq_self]
  · exact sh.nextpid
  · exact sh.created
  · simp [Family.collect, Event.map, sh.history, name, coll]
  · rintro o stage np _ there rfl
    have seed := (sh.seed ord there).2.1
    rw [dead] at seed
    contradiction
  · simp
  · simp

end

end

theorem Proc.Alike.trans {r : Proc} (left : p.Alike q) (right : q.Alike r) : p.Alike r :=
  ⟨right.kind.trans left.kind, right.pid.trans left.pid, right.parent.trans left.parent⟩

theorem Proc.Alike.abandon (alike : p.Alike q) (sl : Slot) : (p.abandon sl).Alike (q.abandon sl) := by
  unfold Proc.abandon
  rw [alike.parent]
  split
  · exact ⟨alike.kind, alike.pid, rfl⟩
  · exact alike

@[simp] theorem Proc.abandon_state (sl : Slot) (p : Proc) : (p.abandon sl).state = p.state := by
  unfold Proc.abandon
  split <;> rfl

@[simp] theorem Proc.abandon_pid (sl : Slot) (p : Proc) : (p.abandon sl).pid = p.pid := by
  unfold Proc.abandon
  split <;> rfl

theorem Proc.abandon_parent (sl : Slot) (p : Proc) :
    (p.abandon sl).parent = if p.parent = some sl then some initproc else p.parent := by
  unfold Proc.abandon
  split <;> rfl

def exited (st : State) (sl : Slot) : Slot → Proc :=
  update (fun c => (st.proc c).abandon sl) sl { (st.proc sl).abandon sl with state := .zombie }

theorem exited_pid (s : State) (sl c : Slot) : (exited s sl c).pid = (s.proc c).pid := by
  by_cases eq : c = sl <;> simp [exited, eq]

theorem exited_parent (s : State) (sl c : Slot) :
    (exited s sl c).parent = if (s.proc c).parent = some sl then some initproc
      else (s.proc c).parent := by
  by_cases same : c = sl <;> simp [exited, same, Proc.abandon_parent]

theorem exitSection_alike (st : State) (sl : Slot) : ∃ proc, exitSection st sl = { st with
        proc, history := .died (st.proc sl).pid :: st.history } ∧
      ∀ c, (exited st sl c).Alike (proc c) := by
  -- The table before the state of the process is set: each child passed on, some woken.
  have pre : ∀ told : Slot → Proc, (∀ c, ((st.proc c).abandon sl).Alike (told c)) → ∀ c,
      (exited st sl c).Alike (update told sl { told sl with state := .zombie } c) := by
    intro told alike c
    by_cases eq : c = sl
    · subst c
      simp only [exited, update_self]
      exact ⟨rfl, (alike _).pid, (alike _).parent⟩
    · simpa [exited, eq] using alike c
  refine ⟨(exitSection st sl).proc, ?_, ?_⟩
  · unfold exitSection
    cases (st.proc sl).parent <;> dsimp only <;> split <;> rfl
  · unfold exitSection
    apply pre
    intro c
    cases (st.proc sl).parent with
    | none =>
      dsimp only
      split
      · exact Proc.alike_wakeup1 _ _
      · exact .refl _
    | some up =>
      have woken := (Proc.alike_wakeup1 (.proc up) (st.proc c)).abandon sl
      dsimp only
      split
      · exact woken.trans (Proc.alike_wakeup1 _ _)
      · exact woken

theorem Shows.die (sh : Shows f s) (ord : Ordered initproc f) (live : f.kind sl = .live)
    (idle : f.bears sl = none) : Shows (f.die initproc sl) (exitSection s sl) := by
  obtain ⟨proc, same, alike⟩ := exitSection_alike s sl
  have name := sh.pid sl (sh.used (by simp [live]))
  have base : Shows (f.die initproc sl) { s with
      proc := exited s sl, history := .died (s.proc sl).pid :: s.history } := by
    constructor
    case kind =>
      intro c
      by_cases self : c = sl <;> simp [Family.die, exited, self, sh.kind, kindOf]
    case pid =>
      intro c used
      have pre : (s.proc c).state ≠ .unused := by
        by_cases self : c = sl
        · subst c
          exact sh.used (by simp [live])
        · simpa [exited, self] using used
      rw [exited_pid, sh.pid c pre]
      rfl
    case parent =>
      intro c
      simp only [exited_parent, Family.die, sh.parent]
    case bears => exact sh.bears
    case nextpid => exact sh.nextpid
    case created => exact sh.created
    case history => simp [Family.die, Event.map, sh.history, name]
    case adopted =>
      intro o np here
      have parent := sh.adopted o np here
      have ne : o ≠ sl := by
        rintro rfl
        rw [(sh.seed ord here).1] at idle
        contradiction
      simp [Family.die, parent, ne]
    case waiting =>
      intro o stage np here early
      simp [Family.die, sh.waiting o stage np here early]
  rw [same]
  exact base.alike alike

theorem Shows.at_ (sh : Shows f s) (here : s.at_ sl pc = true) (out : pc.bears = none) :
    f.kind sl = .live ∧ f.bears sl = none ∧ (s.pc sl).bears = none := by
  simp only [State.at_, and_eq_true, decide_eq_true_eq] at here
  refine ⟨?_, ?_, ?_⟩
  · rw [sh.kind, here.1]
    rfl
  · rw [sh.bears, here.2, out]
  · rw [here.2, out]

theorem waitScan_zombie (hit : waitScan s sl = .zombie c) :
    (s.proc c).parent = some sl ∧ (s.proc c).state = .zombie := by
  unfold waitScan at hit
  split at hit
  · rename_i fst
    have passed := List.find?_some fst
    simp only [Scan.zombie.injEq] at hit
    subst hit
    simpa using passed
  · dsimp only at hit
    split at hit <;> simp at hit

theorem waitScan_fail (hit : waitScan s sl = .fail) :
    (∀ c, (s.proc c).parent ≠ some sl) ∨ (s.proc sl).killed = true := by
  unfold waitScan at hit
  split at hit
  · simp at hit
  · dsimp only at hit
    split at hit
    · rename_i stops
      simp only [or_eq_true, not_eq_true'] at stops
      rcases stops with childless | killed
      · left
        intro c
        simpa using any_eq_false.mp childless c (mem_finRange c)
      · exact .inr killed
    · simp at hit

theorem Shows.attempt (sh : Shows f s) (ord : Ordered initproc f)
    {given : Bool} (here : s.pc sl = .forking stage np) (early : stage ≠ .start)
    (notYet : later ≠ .start) (ran : (if (s.proc sl).state ≠ .running then none
      else if given then some (s.goto sl (.forking later np))
      else some ((s.setState np .unused).goto sl .user)) = some s') :
    ∃ g, Shows g s' ∧ (g = f ∨ Step initproc f g) := by
  split at ran
  · cases ran
  · split at ran
    · cases ran
      exact ⟨f, sh.further ord here early notYet, .inl rfl⟩
    · cases ran
      exact ⟨_, sh.drop ord here, .inr (.drop sl np (sh.seed ord here).1 (sh.waiting sl stage np here early))⟩

theorem Shows.kill (sh : Shows f s) (pid : BitVec 32) : Shows f (kill s pid).2 := by
  unfold ProcTable.kill
  split
  · exact sh
  · refine sh.alike (alike_setProc ?_)
    dsimp only
    split
    · rename_i sleeping
      exact ⟨by simp [sleeping, kindOf], rfl, rfl⟩
    · exact ⟨rfl, rfl, rfl⟩

theorem Shows.step (sh : Shows f s) (ord : Ordered initproc f)
    (ran : Next s a s') : ∃ g, Shows g s' ∧ (g = f ∨ Step initproc f g) := by
  cases a with
  | scheduler sl =>
    simp only [Next, ProcTable.step] at ran
    split at ran <;> cases ran
    rename_i runnable
    refine ⟨f, sh.alike (alike_setProc ⟨?_, rfl, rfl⟩), .inl rfl⟩
    simp [runnable, kindOf]
  | yield sl =>
    simp only [Next, ProcTable.step] at ran
    split at ran <;> cases ran
    rename_i run
    refine ⟨f, sh.alike (alike_setProc ⟨?_, rfl, rfl⟩), .inl rfl⟩
    simp [run, kindOf]
  | sleep sl addr =>
    simp only [Next, ProcTable.step] at ran
    split at ran <;> cases ran
    rename_i here
    refine ⟨f, sh.alike (alike_setProc ⟨?_, rfl, rfl⟩), .inl rfl⟩
    rw [← sh.kind, (sh.at_ here rfl).1]
    rfl
  | wakeup addr =>
    cases ran
    exact ⟨f, sh.alike fun sl => Proc.alike_wakeup1 _ _, .inl rfl⟩
  | fork sl =>
    simp only [Next, ProcTable.step] at ran
    split at ran
    · rename_i here
      obtain ⟨live, idle, _⟩ := sh.at_ here rfl
      split at ran
      · cases ran
        exact ⟨f, sh, .inl rfl⟩
      · rename_i np allocated hit
        cases ran
        obtain ⟨free, after⟩ := sh.sow ord sl hit
        exact ⟨_, after, .inr (.sow sl np live idle free)⟩
    · cases ran
  | forkStack sl given =>
    simp only [Next, ProcTable.step] at ran
    split at ran
    · rename_i np here
      exact sh.attempt ord here (by simp) (by simp) ran
    · cases ran
  | forkCopy sl given =>
    simp only [Next, ProcTable.step] at ran
    split at ran
    · rename_i np here
      exact sh.attempt ord here (by simp) (by simp) ran
    · cases ran
  | forkAdopt sl =>
    simp only [Next, ProcTable.step] at ran
    split at ran
    · rename_i np here
      split at ran
      · cases ran
      · cases ran
        exact ⟨_, sh.adopt ord here, .inr (.adopt sl np (sh.seed ord here).1)⟩
    · cases ran
  | forkStart sl =>
    simp only [Next, ProcTable.step] at ran
    split at ran
    · rename_i np here
      split at ran
      · cases ran
      · cases ran
        exact ⟨_, sh.bear ord here, .inr (.bear sl np (sh.seed ord here).1 (sh.adopted sl np here))⟩
    · cases ran
  | exit sl =>
    simp only [Next, ProcTable.step] at ran
    split at ran <;> cases ran
    rename_i here
    obtain ⟨live, idle, _⟩ := sh.at_ here.1 rfl
    exact ⟨_, sh.die ord live idle, .inr (.die sl here.2 live idle)⟩
  | wait sl =>
    simp only [Next, ProcTable.step] at ran
    split at ran
    · rename_i here
      have run : f.kind sl = .live ∧ f.bears sl = none ∧ (s.pc sl).bears = none := by
        rcases (or_eq_true _ _).mp here with here | here
        · exact sh.at_ here rfl
        · exact sh.at_ here rfl
      obtain ⟨live, _, out⟩ := run
      split at ran
      · rename_i c hit
        cases ran
        obtain ⟨up, zombie⟩ := waitScan_zombie hit
        refine ⟨_, sh.collect ord out live zombie, .inr (.collect sl c ?_ ?_)⟩
        · rw [sh.kind, zombie]
          rfl
        · rw [sh.parent, up]
      · cases ran
        exact ⟨f, sh.goto out rfl, .inl rfl⟩
      · cases ran
        have asleep : Shows f (s.setProc sl { s.proc sl with state := .sleeping, chan := some (.proc sl) }) := by
          refine sh.alike (alike_setProc ⟨?_, rfl, rfl⟩)
          rw [← sh.kind, live]
          rfl
        exact ⟨f, asleep.goto out rfl, .inl rfl⟩
    · cases ran
  | kill sl pid =>
    simp only [Next, ProcTable.step] at ran
    split at ran <;> cases ran
    exact ⟨f, sh.kill pid, .inl rfl⟩
  | fault sl =>
    simp only [Next, ProcTable.step] at ran
    split at ran <;> cases ran
    exact ⟨f, sh.alike (alike_setProc ⟨rfl, rfl, rfl⟩), .inl rfl⟩

inductive Proc.Moves (p : Proc) : Proc → Prop
  | same : p.Moves p
  | scheduler : p.state = .runnable → p.Moves { p with state := .running, chan := none }
  | yield : p.state = .running → p.Moves { p with state := .runnable }
  | sleep (addr : Nat) : p.state = .running →
      p.Moves { p with state := .sleeping, chan := some (.other addr) }
  | wakeup (addr : Nat) : p.Moves (p.wakeup1 (.other addr))
  | allot (pid : BitVec 32) : p.state = .unused → p.Moves { p with state := .embryo, pid }
  | drop : p.state = .embryo → p.Moves { p with state := .unused }
  | adopt (parent : Slot) : p.state = .embryo → p.Moves { p with parent := some parent }
  | start : p.state = .embryo → p.Moves { p with state := .runnable }

theorem moves_setProc (moves : (s.proc sl).Moves proc) (o : Slot) : (s.proc o).Moves ((s.setProc sl proc).proc o) := by
  by_cases eq : o = sl
  · subst o
    simpa [State.setProc] using moves
  · simpa [State.setProc, eq] using Proc.Moves.same

theorem Shows.embryo (sh : Shows f s) (ord : Ordered initproc f)
    (here : s.pc sl = .forking stage np) : (s.proc np).state = .embryo := by
  have seed := (sh.seed ord here).2.1
  rw [sh.kind] at seed
  cases val : (s.proc np).state <;> simp [val, kindOf] at seed ⊢

theorem Shows.moves (sh : Shows f s) (ord : Ordered initproc f) (ran : Next s a s') (notExit : ∀ sl, a ≠ .exit sl)
    (notWait : ∀ sl, a ≠ .wait sl) (notKill : ∀ sl pid, a ≠ .kill sl pid)
    (notFault : ∀ sl, a ≠ .fault sl) (sl : Slot) : (s.proc sl).Moves (s'.proc sl) := by
  -- A step of `fork` that succeeds moves no entry, one that fails gives its entry back.
  have attempt : ∀ {maker np : Slot} {stage later : ForkStage} {given : Bool},
      s.pc maker = .forking stage np → (if (s.proc maker).state ≠ .running then none
        else if given then some (s.goto maker (.forking later np))
        else some ((s.setState np .unused).goto maker .user)) = some s' → (s.proc sl).Moves (s'.proc sl) := by
    intro maker np stage later given here ran
    split at ran
    · cases ran
    · split at ran
      · cases ran
        exact .same
      · cases ran
        exact moves_setProc (.drop (sh.embryo ord here)) sl
  cases a with
  | scheduler run =>
    simp only [Next, ProcTable.step] at ran
    split at ran <;> cases ran
    exact moves_setProc (.scheduler ‹_›) sl
  | yield run =>
    simp only [Next, ProcTable.step] at ran
    split at ran <;> cases ran
    exact moves_setProc (.yield ‹_›) sl
  | sleep run addr =>
    simp only [Next, ProcTable.step, State.at_, and_eq_true, decide_eq_true_eq] at ran
    split at ran <;> cases ran
    rename_i here
    exact moves_setProc (.sleep addr here.1) sl
  | wakeup addr =>
    cases ran
    exact .wakeup addr
  | fork run =>
    simp only [Next, ProcTable.step] at ran
    split at ran
    · split at ran
      · cases ran
        exact .same
      · rename_i np allocated hit
        cases ran
        obtain ⟨unused, rfl⟩ := allocproc_some hit
        exact moves_setProc (.allot _ unused) sl
    · cases ran
  | forkStack run given =>
    simp only [Next, ProcTable.step] at ran
    split at ran
    · exact attempt ‹_› ran
    · cases ran
  | forkCopy run given =>
    simp only [Next, ProcTable.step] at ran
    split at ran
    · exact attempt ‹_› ran
    · cases ran
  | forkAdopt run =>
    simp only [Next, ProcTable.step] at ran
    split at ran
    · rename_i np here
      split at ran
      · cases ran
      · cases ran
        exact moves_setProc (.adopt run (sh.embryo ord here)) sl
    · cases ran
  | forkStart run =>
    simp only [Next, ProcTable.step] at ran
    split at ran
    · rename_i np here
      split at ran
      · cases ran
      · cases ran
        exact moves_setProc (.start (sh.embryo ord here)) sl
    · cases ran
  | exit run => exact absurd rfl (notExit run)
  | wait run => exact absurd rfl (notWait run)
  | kill caller pid => exact absurd rfl (notKill caller pid)
  | fault run => exact absurd rfl (notFault run)

end

def founded : Family Slot where
  kind := update (fun _ => .empty) initproc .live
  name := fun _ => 1
  parent := fun _ => none
  bears := fun _ => none
  made := 1
  history := []

theorem founded_ordered : Ordered initproc founded := by
  have only : ∀ sl, founded.kind sl ≠ .empty → sl = initproc := by
    intro sl kind
    by_contra ne
    simp [founded, ne] at kind
  constructor
  case root_live => simp [founded]
  case upheld =>
    intro sl ne kind
    simp [founded, ne] at kind
  case named => simp [founded]
  case apart =>
    intro sl o left right _
    rw [only sl left, only o right]
  case mourned =>
    intro sl dead
    rw [only sl (by simp [dead])] at dead
    simp [founded] at dead
  case settled =>
    intro later earlier c coll parts
    simp [founded] at parts
  all_goals simp [founded]

theorem initial_eq : State.initial = { State.empty with
    proc := update State.empty.proc initproc ⟨.runnable, 1, none, none, false⟩
    nextpid := 2
    created := 1 } := by
  have allocated : allocproc State.empty = some (initproc, { State.empty with
      proc := update State.empty.proc initproc ⟨.embryo, 1, none, none, false⟩
      nextpid := 2
      created := 1 }) := rfl
  rw [State.initial, allocated]
  simp [State.setState, State.setProc]

theorem founded_shows : Shows founded State.initial := by
  rw [initial_eq]
  constructor
  case kind =>
    intro sl
    by_cases same : sl = initproc <;> simp [founded, same, State.empty, kindOf]
  case pid =>
    intro sl used
    by_cases same : sl = initproc
    · subst sl
      simp [founded, pidOf]
    · simp [same, State.empty] at used
  case parent =>
    intro sl
    by_cases same : sl = initproc <;> simp [founded, same, State.empty]
  all_goals simp [founded, State.empty, Pc.bears, pidOf]

variable {ok : State → Action → Prop}

theorem family_of_reached {good : Family Slot → Prop} (s0 : good founded)
    (kept : ∀ f g, Ordered initproc f → good f → Step initproc f g → good g)
    (reached : Reachable Next ok State.initial s) : ∃ f, Shows f s ∧ Ordered initproc f ∧ good f := by
  refine reached.invariant (fun s => ∃ f, Shows f s ∧ Ordered initproc f ∧ good f)
    ⟨founded, founded_shows, founded_ordered, s0⟩ ?_
  intro pre a after ⟨f, sh, ord, here⟩ _ ran
  obtain ⟨g, sh', eq | step⟩ := sh.step ord ran
  · subst eq
    exact ⟨_, sh', ord, here⟩
  · exact ⟨g, sh', ord.step step, kept f g ord here step⟩

theorem lineage_of_reached (reached : Reachable Next ok State.initial s) : ∃ f, Shows f s ∧ Ordered initproc f := by
  obtain ⟨f, sh, ord, _⟩ := family_of_reached trivial (fun _ _ _ _ (_ : Step initproc _ _) => trivial) reached
  exact ⟨f, sh, ord⟩

theorem founded_unlooped : Unlooped initproc founded := ⟨rfl, fun _ eq => by cases eq⟩

/-! Numbers below `2 ^ 31` and their pids. -/

theorem pidOf_pos {num : Nat} (pos : 1 ≤ num) (small : num < 2 ^ 31) : 0 < (pidOf num).toInt := by
  have val : (pidOf num).toNat = num := by
    rw [pidOf, toNat_ofNat, Nat.mod_eq_of_lt (by omega)]
  rw [toInt_eq_toNat_of_lt (by omega), val]
  omega

theorem pidOf_inj {left right : Nat} (leftSmall : left < 2 ^ 31) (rightSmall : right < 2 ^ 31)
    (eq : pidOf left = pidOf right) : left = right := by
  have values := congrArg BitVec.toNat eq
  simp only [pidOf, toNat_ofNat] at values
  omega

theorem Shows.collected {f : Family Slot} (sh : Shows f s) {later earlier : List (Event (BitVec 32))}
    (parts : s.history = later ++ .collected pid by_ :: earlier) :
    ∃ pre after c coll, f.history = pre ++ .collected c coll :: after ∧
      pid = pidOf c ∧ by_ = pidOf coll ∧ earlier = after.map (Event.map pidOf) := by
  rw [sh.history] at parts
  obtain ⟨pre, rest, whole, _, tail⟩ := map_eq_append_iff.mp parts
  obtain ⟨event, after, rfl, head, rfl⟩ := map_eq_cons_iff.mp tail
  cases event with
  | collected c coll =>
    obtain ⟨rfl, rfl⟩ := Event.collected.inj head
    exact ⟨pre, after, c, coll, whole, rfl, rfl, rfl⟩
  | born c maker => simp [Event.map] at head
  | died name => simp [Event.map] at head

theorem Event.collected_of_map {event : Event Nat} (eq : event.map pidOf = .collected pid by_) :
    ∃ c coll, event = .collected c coll ∧ pidOf c = pid := by
  cases event with
  | collected c coll =>
    exact ⟨c, coll, rfl, (Event.collected.inj eq).1⟩
  | born c maker => simp [Lineage.Event.map] at eq
  | died name => simp [Lineage.Event.map] at eq

/-- With fewer than `2 ^ 31` processes created: pids are positive and distinct, every process but init
has a parent, and `wait` returns each child that exited once. -/
theorem process_tree (st : State) (reached : Reachable Next (fun _ _ => True) State.initial st)
    (few : st.created < 2 ^ 31) : (∀ sl, (st.proc sl).state ≠ .unused → 0 < (st.proc sl).pid.toInt) ∧
    (∀ sl other, (st.proc sl).state ≠ .unused → (st.proc other).state ≠ .unused →
      (st.proc sl).pid = (st.proc other).pid → sl = other) ∧
    (∀ sl, sl ≠ initproc → (st.proc sl).state ∉ [.unused, .embryo] →
      ∃ parent, (st.proc sl).parent = some parent ∧ (st.proc parent).state ∉ [.unused, .embryo, .zombie]) ∧
    (∀ later earlier pid caller, st.history = later ++ .collected pid caller :: earlier →
      .died pid ∈ earlier ∧ (∀ other, .collected pid other ∉ earlier) ∧
      ∃ maker, .born pid maker ∈ earlier ∧ (maker = caller ∨
        (caller = (st.proc initproc).pid ∧ .died maker ∈ earlier))) ∧ ∀ sl, waitScan st sl = .fail →
      (∀ c, (st.proc c).parent ≠ some sl) ∨ (st.proc sl).killed = true := by
  obtain ⟨f, sh, ord⟩ := lineage_of_reached reached
  rw [sh.created] at few
  have used : ∀ sl, (st.proc sl).state ≠ .unused → f.kind sl ≠ .empty := by
    intro sl used
    rwa [sh.kind, ne_eq, kindOf_eq_empty]
  refine ⟨?_, ?_, ?_, ?_, fun sl => waitScan_fail⟩
  · intro sl here
    obtain ⟨low, high⟩ := ord.named sl (used sl here)
    rw [sh.pid sl here]
    exact pidOf_pos low (by omega)
  · intro sl other here there same
    have left := ord.named sl (used sl here)
    have right := ord.named other (used other there)
    rw [sh.pid sl here, sh.pid other there] at same
    exact ord.apart sl other (used sl here) (used other there) (pidOf_inj (by omega) (by omega) same)
  · intro sl different here
    have kind : f.kind sl = .live ∨ f.kind sl = .dead := by
      rw [sh.kind]
      cases value : (st.proc sl).state <;> simp [value, kindOf] at here ⊢
    obtain ⟨parent, above, live⟩ := ord.upheld sl different kind
    refine ⟨parent, by rw [← sh.parent, above], ?_⟩
    rw [sh.kind] at live
    cases value : (st.proc parent).state <;> simp [value, kindOf] at live ⊢
  · intro later earlier pid caller parts
    obtain ⟨before, after, c, coll, whole, rfl, rfl, rfl⟩ := sh.collected parts
    obtain ⟨dead, once, maker, born, heir⟩ := ord.settled before after c coll whole
    have bound := (ord.gone c coll (by simp [whole])).1
    refine ⟨List.mem_map_of_mem dead, ?_, pidOf maker, List.mem_map_of_mem born, ?_⟩
    · intro other again
      obtain ⟨event, member, same⟩ := List.mem_map.mp again
      obtain ⟨c', coll', rfl, equal⟩ := Event.collected_of_map same
      have bound' := (ord.gone c' coll' (by simp [whole, member])).1
      obtain rfl := pidOf_inj (by omega) (by omega) equal
      exact once coll' member
    · rcases heir with rfl | ⟨rfl, died⟩
      · exact Or.inl rfl
      · refine Or.inr ⟨?_, List.mem_map_of_mem died⟩
        rw [sh.pid initproc (sh.used (by simp [ord.root_live]))]

theorem replayed [∀ s a, Decidable (ok s a)] {actions : List Action}
    {test : State → Bool} (checked : (replay step ok actions State.initial).any test = true) :
    ∃ s, Reachable Next ok State.initial s ∧ test s = true :=
  Reachable.of_replay (fun _ _ _ _ ran => ran) checked

def threeGenerations : List Action :=
  [.scheduler 0, .fork 0, .forkStack 0 true, .forkCopy 0 true, .forkAdopt 0, .forkStart 0,
    .scheduler 1, .fork 1, .forkStack 1 true, .forkCopy 1 true, .forkAdopt 1, .forkStart 1, .exit 1, .wait 0]

/-- The middle one of three generations exits: init gets its child, and collects it. -/
theorem process_tree_orphan : ∃ st, Reachable Next (fun _ _ => True) State.initial st ∧ st.created < 2 ^ 31 ∧
    (st.proc 2).state = .runnable ∧ (∃ parent, (st.proc 2).parent = some parent ∧
      (st.proc parent).state ∉ [.unused, .embryo, .zombie]) ∧
    ∃ earlier, st.history = .collected 2 1 :: earlier ∧ .died 2 ∈ earlier ∧ .born 2 1 ∈ earlier := by
  have checked : (Reach.replay step (fun _ _ => True) threeGenerations State.initial).any
      (fun st => decide (st.created < 2 ^ 31 ∧ (st.proc 2).state = .runnable ∧
        st.history = [.collected 2 1, .died 2, .born 3 2, .born 2 1])) = true := by
    decide +kernel
  obtain ⟨st, reached, found⟩ := replayed checked
  obtain ⟨few, runnable, history⟩ := of_decide_eq_true found
  have tree := process_tree st reached few
  refine ⟨st, reached, few, runnable, tree.2.2.1 2 (by decide) (by simp [runnable]), _, history, ?_, by simp⟩
  exact (tree.2.2.2.1 [] _ 2 1 history).1

end Xv6.ProcTable
