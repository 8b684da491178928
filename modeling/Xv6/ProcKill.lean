import Xv6.ProcTree

/-! `kill` finds a process by its pid in any entry of the table, and the flag it sets stays until `wait`
clears it. -/

namespace Xv6.ProcTable

open Lineage Reach Function Bool

/-- No entry that is UNUSED or EMBRYO has the pid passed to `kill`. -/
def Names (st : State) : Action → Prop
  | .kill _ pid => ∀ sl, (st.proc sl).pid = pid → (st.proc sl).state ∉ [.unused, .embryo]
  | _ => True

def Unmarked (st : State) : Prop :=
  ∀ sl, (st.proc sl).state ∈ [.unused, .embryo] → (st.proc sl).killed = false

/-- An entry is not marked, and no process leaves it with its mark. -/
structure Proc.Spared (p q : Proc) : Prop where
  marked : q.killed = true → p.killed = true
  left : q.state ∈ [.unused, .embryo] → p.state ∈ [.unused, .embryo] ∨ q.killed = false

theorem Proc.Spared.refl (p : Proc) : p.Spared p := ⟨id, .inl⟩

variable {p q : Proc} {s s' : State} {f : Family Slot} {a : Action}

theorem Proc.Spared.living (same : q.killed = p.killed) (living : q.state ∉ [.unused, .embryo]) : p.Spared q :=
  ⟨fun marked => same ▸ marked, fun idle => absurd idle living⟩

theorem Proc.spared_wakeup1 (chan : Chan) (p : Proc) : p.Spared (p.wakeup1 chan) := by
  unfold Proc.wakeup1
  split
  · exact .living rfl (by simp)
  · exact .refl p

theorem Proc.spared_abandon (sl : Slot) (p : Proc) : p.Spared (p.abandon sl) := by
  unfold Proc.abandon
  split
  · exact ⟨id, .inl⟩
  · exact .refl p

theorem Proc.Spared.trans {r : Proc} (fst : p.Spared q) (snd : q.Spared r) : p.Spared r where
  marked := fun marked => fst.marked (snd.marked marked)
  left := by
    intro idle
    rcases snd.left idle with pre | unmarked
    · rcases fst.left pre with earlier | unmarked
      · exact .inl earlier
      · refine .inr ?_
        rw [eq_false_iff]
        intro marked
        rw [snd.marked marked] at unmarked
        contradiction
    · exact .inr unmarked

theorem Proc.Moves.spared (moves : p.Moves q) : p.Spared q := by
  cases moves with
  | same => exact .refl p
  | scheduler | yield | sleep | start => exact .living rfl (by simp)
  | wakeup address => exact p.spared_wakeup1 _
  | allot pid unused => exact ⟨id, fun _ => .inl (by simp [unused])⟩
  | drop embryo => exact ⟨id, fun _ => .inl (by simp [embryo])⟩
  | adopt up => exact ⟨id, .inl⟩

theorem spared_setProc {sl : Slot} {proc : Proc} (spared : (s.proc sl).Spared proc) (o : Slot) :
    (s.proc o).Spared ((s.setProc sl proc).proc o) := by
  by_cases same : o = sl
  · subst o
    simpa [State.setProc] using spared
  · simpa [State.setProc, same] using Proc.Spared.refl _

theorem spared_exit (st : State) (sl o : Slot) : (st.proc o).Spared ((exitSection st sl).proc o) := by
  have told : ∀ proc : Slot → Proc, (∀ child, (st.proc child).Spared (proc child)) →
      (st.proc o).Spared (update proc sl { proc sl with state := .zombie } o) := by
    intro proc spared
    by_cases same : o = sl
    · subst o
      simp only [update_self]
      exact (spared _).trans (.living rfl (by simp))
    · simpa [same] using spared o
  unfold exitSection
  apply told
  intro child
  cases (st.proc sl).parent with
  | none =>
    have passed := Proc.spared_abandon sl (st.proc child)
    dsimp only
    split
    · exact passed.trans (Proc.spared_wakeup1 _ _)
    · exact passed
  | some up =>
    have passed := (Proc.spared_wakeup1 (.proc up) (st.proc child)).trans (Proc.spared_abandon sl _)
    dsimp only
    split
    · exact passed.trans (Proc.spared_wakeup1 _ _)
    · exact passed

theorem Shows.spared (sh : Shows f s) (ord : Ordered initproc f)
    (ran : Next s a s') (notKill : ∀ caller pid, a ≠ .kill caller pid)
    (notFault : ∀ sl, a ≠ .fault sl) (sl : Slot) : (s.proc sl).Spared (s'.proc sl) := by
  cases a with
  | exit run =>
    simp only [Next, ProcTable.step] at ran
    split at ran <;> cases ran
    exact spared_exit s run sl
  | wait run =>
    simp only [Next, ProcTable.step] at ran
    split at ran
    · split at ran
      · rename_i child hit
        cases ran
        apply spared_setProc
        exact ⟨fun marked => by simp at marked, fun _ => .inr rfl⟩
      · cases ran
        exact .refl _
      · cases ran
        apply spared_setProc
        exact .living rfl (by simp)
    · cases ran
  | kill caller pid => exact absurd rfl (notKill caller pid)
  | fault run => exact absurd rfl (notFault run)
  | _ => exact (sh.moves ord ran (by simp) (by simp) (by simp) (by simp) sl).spared

theorem kill_cases (s : State) (pid : BitVec 32) : (kill s pid = (-1, s) ∧ ∀ sl, (s.proc sl).pid ≠ pid) ∨
    ∃ sl, (s.proc sl).pid = pid ∧ (kill s pid).1 = 0 ∧ (∀ o, o ≠ sl → (kill s pid).2.proc o = s.proc o) ∧
      (((kill s pid).2.proc sl).state ∈ [.unused, .embryo] → (s.proc sl).state ∈ [.unused, .embryo]) := by
  unfold kill
  split
  · rename_i none_
    left
    refine ⟨rfl, ?_⟩
    intro sl
    simpa using List.find?_eq_none.mp none_ sl (List.mem_finRange sl)
  · rename_i sl hit
    right
    refine ⟨sl, by simpa using List.find?_some hit, rfl, ?_, ?_⟩
    · intro o ne
      simp [State.setProc, ne]
    · simp only [State.setProc, update_self]
      split
      · simp
      · exact id

theorem Unmarked.next (unmarked : Unmarked s) (sh : Shows f s) (ord : Ordered initproc f)
    (names : Names s a) (ran : Next s a s') : Unmarked s' := by
  have spared : (∀ sl, (s.proc sl).Spared (s'.proc sl)) → Unmarked s' := by
    intro spared sl idle
    rcases (spared sl).left idle with pre | unmarked'
    · rw [eq_false_iff]
      intro marked
      have pre' := unmarked sl pre
      rw [(spared sl).marked marked] at pre'
      contradiction
    · exact unmarked'
  cases a with
  | kill caller pid =>
    simp only [Next, ProcTable.step] at ran
    split at ran <;> cases ran
    rcases kill_cases s pid with ⟨same, _⟩ | ⟨sl, named, _, rest, idle⟩
    · rw [same]
      exact unmarked
    · intro o here
      by_cases same : o = sl
      · subst o
        exact absurd (idle here) (names sl named)
      · rw [rest o same] at here ⊢
        exact unmarked o here
  | fault run =>
    simp only [Next, ProcTable.step] at ran
    split at ran <;> cases ran
    rename_i here
    simp only [State.at_, and_eq_true, decide_eq_true_eq] at here
    intro o idle
    by_cases same : o = run
    · subst o
      simp [State.setProc, here.1] at idle
    · simp only [State.setProc, ne_eq, same, not_false_eq_true, update_of_ne] at idle ⊢
      exact unmarked o idle
  | _ => exact spared (sh.spared ord ran (by simp) (by simp))

theorem Shows.marked (sh : Shows f s) (ord : Ordered initproc f)
    (ran : Next s a s') {sl : Slot} (clean : (s.proc sl).killed = false) (marked : (s'.proc sl).killed = true) :
    (∃ caller, a = .kill caller (s.proc sl).pid) ∨ a = .fault sl := by
  have changed : s'.proc sl ≠ s.proc sl := by
    intro same
    rw [same, clean] at marked
    contradiction
  cases a with
  | kill caller pid =>
    simp only [Next, ProcTable.step] at ran
    split at ran <;> cases ran
    rcases kill_cases s pid with ⟨same, _⟩ | ⟨t, named, _, rest, _⟩
    · simp [same] at changed
    · by_cases here : sl = t
      · subst sl
        exact .inl ⟨caller, by rw [named]⟩
      · exact absurd (rest sl here) changed
  | fault run =>
    simp only [Next, ProcTable.step] at ran
    split at ran <;> cases ran
    by_cases here : sl = run
    · exact .inr (by rw [here])
    · simp [State.setProc, here] at changed
  | _ =>
    have spared := sh.spared ord ran (by simp) (by simp) sl
    rw [spared.marked marked] at clean
    contradiction

theorem Unmarked.initial : Unmarked State.initial := by
  rw [initial_eq]
  intro sl idle
  by_cases same : sl = initproc
  · subst sl
    simp at idle
  · simp [same, State.empty]

/-- In runs in which `kill` is called only with pids that no UNUSED or EMBRYO entry has, it marks just
the process with the pid, and succeeds just when there is one. -/
theorem kill_live_only (st : State) (reached : Reachable Next Names State.initial st) :
    (∀ caller pid, Names st (.kill caller pid) →
      ((kill st pid).1 = 0 ↔ ∃ sl, (st.proc sl).state ≠ .unused ∧ (st.proc sl).pid = pid) ∧
      ((kill st pid).1 ≠ 0 → (kill st pid).2 = st) ∧
      ∃ t, ((kill st pid).1 = 0 → (st.proc t).state ≠ .unused ∧ (st.proc t).pid = pid) ∧
        ∀ other, other ≠ t → (kill st pid).2.proc other = st.proc other) ∧ ∀ a st', Names st a → Next st a st' →
      (∀ sl, (st.proc sl).state = .embryo → (st'.proc sl).state = .runnable → (st'.proc sl).killed = false) ∧
      ∀ sl, (st.proc sl).killed = false → (st'.proc sl).killed = true →
        (∃ caller, a = .kill caller (st.proc sl).pid) ∨ a = .fault sl := by
  obtain ⟨f, sh, ord, unmarked⟩ : ∃ f, Shows f st ∧ Ordered initproc f ∧ Unmarked st := by
    refine reached.invariant (fun st => ∃ f, Shows f st ∧ Ordered initproc f ∧ Unmarked st)
      ⟨founded, founded_shows, founded_ordered, .initial⟩ ?_
    intro before a after ⟨f, sh, ord, unmarked⟩ names tk
    have after := unmarked.next sh ord names tk
    obtain ⟨g, sh', same | step⟩ := sh.step ord tk
    · subst same
      exact ⟨_, sh', ord, after⟩
    · exact ⟨g, sh', ord.step step, after⟩
  constructor
  · intro caller pid names
    rcases kill_cases st pid with ⟨same, nobody⟩ | ⟨t, named, zero, rest, _⟩
    · rw [same]
      refine ⟨⟨by simp, ?_⟩, fun _ => rfl, initproc, by simp, fun _ _ => rfl⟩
      rintro ⟨sl, _, named⟩
      exact absurd named (nobody sl)
    · have live : (st.proc t).state ≠ .unused := by
        intro unused
        exact names t named (by simp [unused])
      exact ⟨⟨fun _ => ⟨t, live, named⟩, fun _ => zero⟩, fun failed => absurd zero failed,
        t, fun _ => ⟨live, named⟩, rest⟩
  · intro a st' names tk
    constructor
    · intro sl embryo runnable
      rw [Bool.eq_false_iff]
      intro marked
      have clean := unmarked sl (by simp [embryo])
      rcases sh.marked ord tk clean marked with ⟨caller, rfl⟩ | rfl
      · exact names sl rfl (by simp [embryo])
      · -- A fault leaves the state as it is.
        simp only [Next, ProcTable.step] at tk
        split at tk <;> cases tk
        simp [State.setProc, embryo] at runnable
    · intro sl clean marked
      exact sh.marked ord tk clean marked

instance (st : State) (a : Action) : Decidable (Names st a) :=
  match a with
  | .kill _ pid => inferInstanceAs (Decidable (∀ sl, (st.proc sl).pid = pid →
      (st.proc sl).state ∉ [.unused, .embryo]))
  | .scheduler _ | .yield _ | .sleep _ _ | .wakeup _ | .fork _ | .forkStack _ _ | .forkCopy _ _
  | .forkAdopt _ | .forkStart _ | .exit _ | .wait _ | .fault _ => isTrue trivial

def killedChild : List Action :=
  [.scheduler 0, .fork 0, .forkStack 0 true, .forkCopy 0 true, .forkAdopt 0, .forkStart 0, .kill 0 2]

theorem kill_live_only_child : ∃ st, Reachable Next Names State.initial st ∧ Names st (.kill 0 2) ∧ (kill st 2).1 = 0 ∧
    ∃ sl, (st.proc sl).state ≠ .unused ∧ (st.proc sl).pid = 2 := by
  have checked : (Reach.replay step Names killedChild State.initial).any
      (fun st => decide (Names st (.kill 0 2) ∧ (kill st 2).1 = 0)) = true := by
    decide +kernel
  obtain ⟨st, reached, found⟩ := replayed checked
  obtain ⟨names, zero⟩ := of_decide_eq_true found
  exact ⟨st, reached, names, zero, ((kill_live_only st reached).1 0 2 names).1.mp zero⟩

/-- `kill(0)` succeeds without a process of that pid, and marks the entry of the next child. -/
theorem kill_unused_entry : (kill State.initial 0).1 = 0 ∧
    (∀ sl, (State.initial.proc sl).state ≠ .unused → (State.initial.proc sl).pid ≠ 0) ∧
    ∃ st, Reachable Next (fun _ _ => True) State.initial st ∧
      (st.proc 1).state = .runnable ∧ (st.proc 1).pid = 2 ∧ (st.proc 1).killed = true ∧ st.history = [.born 2 1] := by
  have checked : (Reach.replay step (fun _ _ => True)
      [.scheduler 0, .kill 0 0, .fork 0, .forkStack 0 true, .forkCopy 0 true, .forkAdopt 0,
        .forkStart 0] State.initial).any (fun st => decide ((st.proc 1).state = .runnable ∧ (st.proc 1).pid = 2 ∧
        (st.proc 1).killed = true ∧ st.history = [.born 2 1])) = true := by
    decide +kernel
  obtain ⟨st, reached, found⟩ := replayed checked
  exact ⟨by decide +kernel, by decide +kernel, st, reached, of_decide_eq_true found⟩

end Xv6.ProcTable
