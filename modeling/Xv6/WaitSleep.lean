import Xv6.ProcTree

/-! `exit` and `wait`: a process sleeps in `wait` only while none of its children has exited. -/

namespace Xv6.ProcTable

open Lineage Reach Function List

def Proc.Waits (sl : Slot) (p : Proc) : Prop := p.state = .sleeping ∧ p.chan = some (.proc sl)

def Heard (st : State) : Prop :=
  ∀ sl c, (st.proc sl).Waits sl → (st.proc c).parent = some sl → (st.proc c).state ≠ .zombie

structure Proc.Quiet (sl : Slot) (p q : Proc) : Prop where
  waits : q.Waits sl → p.Waits sl
  zombie : q.state = .zombie → p.state = .zombie ∧ q.parent = p.parent

theorem Proc.Quiet.refl (sl : Slot) (p : Proc) : p.Quiet sl p := ⟨id, fun dead => ⟨dead, rfl⟩⟩

variable {sl : Slot} {p : Proc} {s : State}

theorem Proc.Quiet.awake {q : Proc} (s : q.state ∉ [.sleeping, .zombie]) : p.Quiet sl q := by
  constructor
  · rintro ⟨asleep, _⟩
    simp [asleep] at s
  · intro dead
    simp [dead] at s

theorem Proc.quiet_wakeup1 (sl : Slot) (chan : Chan) (p : Proc) : p.Quiet sl (p.wakeup1 chan) := by
  unfold Proc.wakeup1
  split
  · exact .awake (by simp)
  · exact .refl sl p

theorem Proc.Moves.quiet {q : Proc} (moves : p.Moves q) : p.Quiet sl q := by
  cases moves with
  | same => exact .refl sl p
  | scheduler | yield | allot | drop | start => exact .awake (by simp)
  | sleep addr =>
    constructor
    · rintro ⟨_, chan⟩
      cases chan
    · intro dead
      cases dead
  | wakeup addr => exact p.quiet_wakeup1 sl _
  | adopt up embryo => exact .awake (by simp [embryo])

theorem Heard.quiet {s' : State} (heard : Heard s) (quiet : ∀ sl, (s.proc sl).Quiet sl (s'.proc sl)) : Heard s' := by
  intro sl c asleep up dead
  obtain ⟨pre, same⟩ := (quiet c).zombie dead
  exact heard sl c ((quiet sl).waits asleep) (same ▸ up) pre

theorem quiet_setProc {proc : Proc} (quiet : (s.proc sl).Quiet sl proc) (o : Slot) :
    (s.proc o).Quiet o ((s.setProc sl proc).proc o) := by
  by_cases same : o = sl
  · subst o
    simpa [State.setProc] using quiet
  · simpa [State.setProc, same] using Proc.Quiet.refl _ _

theorem quiet_kill (s : State) (pid : BitVec 32) (sl : Slot) : (s.proc sl).Quiet sl ((kill s pid).2.proc sl) := by
  unfold kill
  split
  · exact .refl _ _
  · apply quiet_setProc
    dsimp only
    split
    · exact .awake (by simp)
    · exact ⟨id, fun dead => ⟨dead, rfl⟩⟩

theorem Proc.Waits.of_wakeup1 {chan : Chan} (asleep : (p.wakeup1 chan).Waits sl) : p.Waits sl ∧ chan ≠ .proc sl := by
  refine ⟨(p.quiet_wakeup1 sl chan).waits asleep, ?_⟩
  rintro rfl
  unfold Proc.wakeup1 at asleep
  split at asleep
  · cases asleep.1
  · contradiction

theorem Proc.abandon_waits {o : Slot} : (p.abandon o).Waits sl ↔ p.Waits sl := by
  unfold Proc.abandon
  split <;> rfl

theorem exitSection_waits {up sleeper : Slot} (above : (s.proc sl).parent = some up)
    (asleep : ((exitSection s sl).proc sleeper).Waits sleeper) : (s.proc sleeper).Waits sleeper ∧ sleeper ≠ up ∧
      (sleeper = initproc → ∀ c, (s.proc c).parent = some sl → (s.proc c).state ≠ .zombie) := by
  have ne : sleeper ≠ sl := by
    rintro rfl
    simp [exitSection, State.setState, State.setProc, Proc.Waits] at asleep
  simp only [exitSection, above, State.setState, State.setProc, update_of_ne ne] at asleep
  -- Before the wakeup of init, which takes place if a zombie was passed on.
  have passed : (((s.proc sleeper).wakeup1 (.proc up)).abandon sl).Waits sleeper ∧
      (sleeper = initproc → ¬(slots.any fun c =>
        ((wakeup1 (.proc up) s).proc c).parent = some sl ∧
          ((wakeup1 (.proc up) s).proc c).state = .zombie) = true) := by
    split at asleep
    · obtain ⟨pre, elsewhere⟩ := asleep.of_wakeup1
      exact ⟨pre, fun here => absurd (congrArg Chan.proc here.symm) elsewhere⟩
    · exact ⟨asleep, fun _ => ‹_›⟩
  obtain ⟨pre, elsewhere⟩ := (Proc.abandon_waits.mp passed.1).of_wakeup1
  refine ⟨pre, fun same => elsewhere (congrArg Chan.proc same.symm), fun here c mine dead => ?_⟩
  refine passed.2 here (any_eq_true.mpr ⟨c, mem_finRange c, ?_⟩)
  have standing : (s.proc c).wakeup1 (.proc up) = s.proc c := by
    simp [Proc.wakeup1, dead]
  simp [wakeup1, standing, mine, dead]

theorem exitSection_zombie {c : Slot} (ne : c ≠ sl) (dead : ((exitSection s sl).proc c).state = .zombie) :
    (s.proc c).state = .zombie ∧ ((exitSection s sl).proc c).parent =
      if (s.proc c).parent = some sl then some initproc else (s.proc c).parent := by
  obtain ⟨proc, same, alike⟩ := exitSection_alike s sl
  have up := (alike c).parent
  have kind := (alike c).kind
  rw [same] at dead ⊢
  rw [exited_parent] at up
  refine ⟨?_, up⟩
  simp only [exited, update_of_ne ne, Proc.abandon_state] at kind
  have gone : kindOf (s.proc c).state = .dead := by
    rw [← kind, dead]
    rfl
  cases val : (s.proc c).state <;> simp [val, kindOf] at gone ⊢

theorem Heard.exit (heard : Heard s) {up : Slot} (above : (s.proc sl).parent = some up)
    (notSelf : up ≠ sl) : Heard (exitSection s sl) := by
  intro sleeper c asleep mine dead
  obtain ⟨pre, notParent, told⟩ := exitSection_waits above asleep
  by_cases same : c = sl
  · subst c
    obtain ⟨proc, whole, alike⟩ := exitSection_alike s sl
    have kept := (alike sl).parent
    rw [exited_parent, above, if_neg (by simpa using notSelf)] at kept
    rw [whole, kept] at mine
    exact notParent (Option.some.inj mine).symm
  · obtain ⟨gone, passed⟩ := exitSection_zombie same dead
    rw [passed] at mine
    split at mine
    · rename_i orphan
      exact told (Option.some.inj mine).symm c orphan gone
    · exact heard sleeper c pre mine gone

theorem waitScan_sleep (hit : waitScan s sl = .sleep) :
    ∀ c, (s.proc c).parent = some sl → (s.proc c).state ≠ .zombie := by
  intro c mine dead
  unfold waitScan at hit
  split at hit
  · cases hit
  · rename_i none_
    have passed := List.find?_eq_none.mp none_ c (mem_finRange c)
    simp [mine, dead] at passed

theorem Heard.sleep (heard : Heard s) (pc : Pc) (hit : waitScan s sl = .sleep) : Heard ((s.setProc sl
      { s.proc sl with state := .sleeping, chan := some (.proc sl) }).goto sl pc) := by
  have o : ∀ c, ((s.setProc sl { s.proc sl with state := .sleeping, chan := some (.proc sl) }).proc c).state = .zombie →
      (s.setProc sl { s.proc sl with state := .sleeping, chan := some (.proc sl) }).proc c = s.proc c := by
    intro c dead
    by_cases same : c = sl
    · subst c
      simp [State.setProc] at dead
    · simp [State.setProc, same]
  intro sleeper c asleep mine dead
  have same := o c dead
  simp only [State.goto] at asleep mine dead
  rw [same] at mine dead
  by_cases here : sleeper = sl
  · subst sleeper
    exact waitScan_sleep hit c mine dead
  · simp only [State.setProc, ne_eq, here, not_false_eq_true, update_of_ne] at asleep
    exact heard sleeper c asleep mine dead

theorem Heard.next {f : Family Slot} {s' : State} {action : Action} (heard : Heard s)
    (shown : Shows f s) (ord : Ordered initproc f) (unlooped : Unlooped initproc f)
    (ran : Next s action s') : Heard s' := by
  cases action with
  | exit sl =>
    simp only [Next, ProcTable.step] at ran
    split at ran <;> cases ran
    rename_i here
    obtain ⟨live, _, _⟩ := shown.at_ here.1 rfl
    obtain ⟨up, above, _⟩ := ord.upheld sl here.2 (.inl live)
    have notSelf : up ≠ sl := by
      rintro rfl
      exact unlooped.parent_ne _ above
    exact heard.exit (shown.parent sl ▸ above) notSelf
  | wait sl =>
    simp only [Next, ProcTable.step] at ran
    split at ran
    · split at ran
      · cases ran
        apply heard.quiet
        exact quiet_setProc (.awake (by simp))
      · cases ran
        exact heard
      · cases ran
        exact heard.sleep .waiting ‹_›
    · cases ran
  | kill caller pid =>
    simp only [Next, ProcTable.step] at ran
    split at ran <;> cases ran
    exact heard.quiet (quiet_kill s pid)
  | fault sl =>
    simp only [Next, ProcTable.step] at ran
    split at ran <;> cases ran
    exact heard.quiet (quiet_setProc ⟨id, fun dead => ⟨dead, rfl⟩⟩)
  | _ =>
    exact heard.quiet fun sl =>
      (shown.moves ord ran (by simp) (by simp) (by simp) (by simp) sl).quiet

theorem initial_heard : Heard State.initial := by
  rw [initial_eq]
  intro sl c asleep
  by_cases same : sl = initproc
  · subst sl
    simp [Proc.Waits] at asleep
  · simp [Proc.Waits, same, State.empty] at asleep

theorem heard_of_reached (run : Reachable Next (fun _ _ => True) State.initial s) : Heard s := by
  induction run with
  | start => exact initial_heard
  | step action pre _ ran heard =>
    obtain ⟨f, shown, ord, unlooped⟩ := family_of_reached founded_unlooped
      (fun _ _ ord unlooped ran => unlooped.step ord ran) pre
    exact heard.next shown ord unlooped ran

/-- No wakeup is lost between `exit` and `wait`: in every state that is reached, with
`ptable.lock` free, no process SLEEPING in `wait` has a ZOMBIE for a child. -/
theorem exit_wakes_wait (st : State) (run : Reachable Next (fun _ _ => True) State.initial st)
    (sl c : Slot) (asleep : (st.proc sl).state = .sleeping)
    (chan : (st.proc sl).chan = some (.proc sl)) (mine : (st.proc c).parent = some sl) : (st.proc c).state ≠ .zombie :=
  heard_of_reached run sl c ⟨asleep, chan⟩ mine

theorem exit_wakes_wait_grandchild : ∃ st,
    Reachable Next (fun _ _ => True) State.initial st ∧ (st.proc 0).state = .sleeping ∧
    (st.proc 0).chan = some (.proc 0) ∧ (st.proc 2).state = .zombie ∧
    (st.proc 2).parent = some 1 ∧ (st.proc 1).parent = some 0 ∧ (st.proc 1).state ≠ .zombie := by
  have checked : (Reach.replay step (fun _ _ => True)
      [.scheduler 0, .fork 0, .forkStack 0 true, .forkCopy 0 true, .forkAdopt 0, .forkStart 0,
        .scheduler 1, .fork 1, .forkStack 1 true, .forkCopy 1 true, .forkAdopt 1, .forkStart 1,
        .scheduler 2, .wait 0, .exit 2] State.initial).any (fun st => decide
          ((st.proc 0).state = .sleeping ∧ (st.proc 0).chan = some (.proc 0) ∧
            (st.proc 2).state = .zombie ∧ (st.proc 2).parent = some 1 ∧ (st.proc 1).parent = some 0)) = true := by
    decide +kernel
  obtain ⟨st, run, found⟩ := replayed checked
  obtain ⟨asleep, chan, dead, grandchild, c⟩ := of_decide_eq_true found
  exact ⟨st, run, asleep, chan, dead, grandchild, c, exit_wakes_wait st run 0 1 asleep chan c⟩

end Xv6.ProcTable
