import Xv6.PipeQueue

/-! Nobody sleeps on a pipe while there is something to do: `sleep` and `wakeup` between
`p->lock` and `ptable.lock`. -/


namespace Xv6.PipeProtocol

open Reach

variable {P : Type} [DecidableEq P] {pc : Pc} {chan : Chan} {s : State P} {p : P}

/-! Whoever is inside `sleep` has a reason, or the holder of `p->lock` is about to wake it. -/

def Pc.rests (chan : Chan) : Pc → Bool
  | .sleep _ on _ => on = chan
  | _ => false

def Pc.owes (chan : Chan) : Pc → Bool
  | .testing (.write writer) | .full writer => chan = .nread && writer.since < writer.i
  | .signalling _ => chan = .nread
  | .copying _ => chan = .nwrite
  | .notifying on _ _ => on = chan
  | _ => false

theorem Pc.locked_of_owes (owes : pc.owes chan = true) : pc.locked = true := by
  unfold Pc.owes at owes
  split at owes <;> simp_all [Pc.locked]

def Rested (chan : Chan) (st : State P) : Prop :=
  ∀ q, (st.pc q).rests chan = true →
    st.pipe.blocks chan = true ∨ ∃ holder, st.lock = some holder ∧ (st.pc holder).owes chan = true

/-- When `pipewrite` has stored bytes since it took `p->lock` and finds the pipe full, it does
not return early. -/
def Signals (st : State P) : Action P → Prop
  | .run q => ∀ writer, st.pc q = .full writer → writer.since < writer.i →
      st.pipe.readopen = true ∧ st.killed q = false
  | _ => True

omit [DecidableEq P] in
theorem Rested.initial (chan : Chan) (data : Nat → UInt8) : Rested chan (State.initial data : State P) := by
  intro p rests
  simp [State.initial, Pc.rests] at rests

section

variable (rested : Rested chan s)

include rested

theorem Rested.change (sound : Sound s) (t : Pc) (here : s.pc p = pc)
    (locked : pc.locked = true) {pipe : Pipe} {freed : Bool} {ptable : Option P} {killed : P → Bool}
    {stored delivered : List UInt8} (reason : s.pipe.blocks chan = true ∨ pc.owes chan = true →
      pipe.blocks chan = true ∨ t.owes chan = true) (asleep : t.rests chan = true → pipe.blocks chan = true) :
    Rested chan ⟨pipe, freed, s.lock, ptable, Function.update s.pc p t, killed, stored, delivered⟩ := by
  have holder := sound.holder here locked
  intro o rests
  by_cases eq : o = p
  · subst o
    exact .inl (asleep (by simpa using rests))
  · have pre : s.pipe.blocks chan = true ∨ pc.owes chan = true := by
      rcases rested o (by simpa [eq] using rests) with blocked | ⟨holder', held, owes⟩
      · exact .inl blocked
      · obtain rfl : p = holder' := by simpa [holder] using held
        rw [here] at owes
        exact .inr owes
    rcases reason pre with blocked | owes
    · exact .inl blocked
    · exact .inr ⟨p, holder, by simpa using owes⟩

theorem Rested.release (sound : Sound s) (t : Pc) (here : s.pc p = pc)
    (locked : pc.locked = true) (quiet : pc.owes chan = false)
    (asleep : t.rests chan = true → pc.rests chan = true) (freed : Bool) :
    Rested chan ({ s with lock := none, freed }.goto p t) := by
  have holder := sound.holder here locked
  intro o rests
  have pre : (s.pc o).rests chan = true := by
    by_cases eq : o = p
    · subst o
      rw [here]
      exact asleep (by simpa [State.goto] using rests)
    · simpa [State.goto, eq] using rests
  rcases rested o pre with blocked | ⟨holder', held, owes⟩
  · exact .inl blocked
  · obtain rfl : p = holder' := by simpa [holder] using held
    rw [here, quiet] at owes
    contradiction

theorem Rested.outside {t : Pc} {ptable : Option P} {killed : P → Bool}
    (unlocked : (s.pc p).locked = false) (asleep : t.rests chan = true → (s.pc p).rests chan = true) :
    Rested chan ({ s with ptable, killed }.goto p t) := by
  intro o rests
  have pre : (s.pc o).rests chan = true := by
    by_cases eq : o = p
    · subst o
      exact asleep (by simpa [State.goto] using rests)
    · simpa [State.goto, eq] using rests
  rcases rested o pre with blocked | ⟨holder, held, owes⟩
  · exact .inl blocked
  · have ne : holder ≠ p := by
      rintro rfl
      rw [Pc.locked_of_owes owes] at unlocked
      contradiction
    exact .inr ⟨holder, held, by simpa [State.goto, ne] using owes⟩

theorem Rested.acquire {t : Pc} (free : s.lock = none) (awake : t.rests chan = false) :
    Rested chan ({ s with lock := some p }.goto p t) := by
  intro o rests
  have ne : o ≠ p := by
    rintro rfl
    simp [State.goto, awake] at rests
  rcases rested o (by simpa [State.goto, ne] using rests) with blocked | ⟨_, held, _⟩
  · exact .inl blocked
  · simp [free] at held

end

theorem Pc.rests_of_wake {woken : Chan} (rests : (pc.wake woken).rests chan = true) : pc.rests chan = true := by
  unfold Pc.wake at rests
  split at rests
  · split at rests
    · simp [Pc.rests] at rests
    · exact rests
  · exact rests

theorem Pc.locks_of_wake (rests : (pc.wake chan).rests chan = true) : pc.locked = true ∨ pc.tabled = true := by
  cases pc with
  | sleep stage on call =>
    cases stage with
    | acquire => exact .inl rfl
    | release => exact .inl rfl
    | sched => exact .inr rfl
    | asleep =>
      by_cases eq : on = chan <;> simp [Pc.wake, Pc.rests, eq] at rests
  | _ => simp [Pc.wake, Pc.rests] at rests

omit [DecidableEq P] in
theorem Rested.woken (sound : Sound s) (holder : s.lock = some p)
    (awake : (s.pc p).rests chan = false) (free : s.ptable = none) : Rested chan (s.wakeup chan) := by
  intro o rests
  exfalso
  rcases Pc.locks_of_wake rests with locked | tabled
  · have eq : p = o := by simpa [holder] using (sound.lock o).mp locked
    subst o
    rw [Pc.rests_of_wake rests] at awake
    contradiction
  · rw [sound.ptable o, free] at tabled
    contradiction

omit [DecidableEq P] in
theorem Rested.wakeup (rested : Rested chan s) (woken : Chan) : Rested chan (s.wakeup woken) := by
  intro o rests
  rcases rested o (Pc.rests_of_wake rests) with blocked | ⟨holder, held, owes⟩
  · exact .inl blocked
  · refine .inr ⟨holder, held, ?_⟩
    simpa only [State.wakeup, Pc.wake_of_locked (Pc.locked_of_owes owes)] using owes

omit [DecidableEq P] in
theorem Rested.reason (rested : Rested chan s) (sound : Sound s) (here : s.pc p = pc)
    (locked : pc.locked = true) (quiet : pc.owes chan = false) (rests : pc.rests chan = true) :
    s.pipe.blocks chan = true := by
  have holder := sound.holder here locked
  rw [← here] at rests
  rcases rested p rests with blocked | ⟨o, held, owes⟩
  · exact blocked
  · obtain rfl : p = o := by simpa [holder] using held
    rw [here, quiet] at owes
    contradiction

theorem Rested.run {s' : State P} (rested : Rested chan s) (sound : Sound s)
    (signals : chan = .nread → Signals s (.run p)) (ran : run s p = some s') : Rested chan s' := by
  unfold PipeProtocol.run at ran
  split at ran
  · cases ran
  · split at ran <;> cases ran
    rename_i free
    exact rested.acquire free.1 rfl
  · rename_i writer here
    have since : writer.since ≤ writer.i := sound.known here
    split at ran
    · split at ran <;> cases ran
      · exact rested.change sound _ here rfl id (by simp [Pc.rests])
      · exact rested.change sound _ here rfl (by cases chan <;> grind [Pipe.blocks, Pc.owes]) (by simp [Pc.rests])
    · cases ran
      exact rested.change sound _ here rfl (by grind [Pc.owes]) (by simp [Pc.rests])
  · rename_i writer here
    split at ran
    · rename_i stops
      cases ran
      refine rested.change sound (.returning (.write writer) (-1)) here rfl (fun pre => ?_) (by simp [Pc.rests])
      refine pre.imp_right fun owes => ?_
      -- The early return after a store is the one step that forgets the readers.
      simp only [Pc.owes, Bool.and_eq_true, decide_eq_true_eq] at owes
      obtain ⟨reading, alive⟩ := signals owes.1 writer here owes.2
      simp [reading, alive] at stops
    · cases ran
      exact rested.change sound _ here rfl (by grind [Pc.owes]) (by simp [Pc.rests])
  · rename_i writer here
    split at ran <;> cases ran
    rename_i free
    have blocked : s.pipe.blocks .nwrite = true := sound.known here
    cases chan with
    | nread =>
      have after := sound.goto (.sleep .acquire .nwrite (.write writer)) here rfl rfl trivial
      apply Rested.woken after (sound.holder here rfl) _ free
      simp [State.goto, Pc.rests]
    | nwrite =>
      apply Rested.wakeup
      exact rested.change sound _ here rfl (fun _ => .inl blocked) (fun _ => blocked)
  · rename_i reader here
    split at ran
    · split at ran <;> cases ran
      · exact rested.change sound _ here rfl id (by simp [Pc.rests])
      · exact rested.change sound _ here rfl id (by grind [Pc.rests, Pipe.blocks])
    · cases ran
      exact rested.change sound _ here rfl (by grind [Pc.owes]) (by simp [Pc.rests])
  · rename_i reader here
    split at ran <;> cases ran
    · exact rested.change sound _ here rfl (by cases chan <;> grind [Pipe.blocks, Pc.owes]) (by simp [Pc.rests])
    · exact rested.change sound _ here rfl (by grind [Pc.owes]) (by simp [Pc.rests])
  · rename_i writable here
    cases ran
    refine rested.change sound _ here rfl (fun pre => ?_) (by simp [Pc.rests])
    cases writable <;> cases chan <;> simp [Pc.owes, Pipe.close, Pipe.blocks] at pre ⊢
    all_goals exact pre
  · rename_i on call here
    split at ran <;> cases ran
    exact rested.change sound _ here rfl id (fun rests => rested.reason sound here rfl rfl rests)
  · rename_i on call here
    cases ran
    exact rested.release sound (.sleep .sched on call) here rfl rfl id s.freed
  · rename_i on call here
    cases ran
    exact rested.outside (by rw [here]; rfl) (by rw [here]; exact id)
  · cases ran
  · rename_i on call res here
    split at ran <;> cases ran
    rename_i free
    by_cases eq : on = chan
    · subst on
      have knows : (Pc.returning call res).Knows s.pipe := by
        have known := sound.known here
        cases call <;> exact known
      have after := sound.goto (.returning call res) here rfl rfl knows
      apply Rested.woken after (sound.holder here rfl) _ free
      simp [State.goto, Pc.rests]
    · apply Rested.wakeup
      exact rested.change sound _ here rfl (by grind [Pc.owes]) (by simp [Pc.rests])
  · rename_i here
    cases ran
    exact rested.release sound .idle here rfl rfl (by simp [Pc.rests]) _
  · rename_i here
    cases ran
    exact rested.release sound .idle here rfl rfl (by simp [Pc.rests]) s.freed

theorem Pc.rests_of_rouse (rests : pc.rouse.rests chan = true) : pc.rests chan = true := by
  unfold Pc.rouse at rests
  split at rests
  · simp [Pc.rests] at rests
  · exact rests

theorem Pc.owes_rouse (owes : pc.owes chan = true) : pc.rouse = pc := by
  unfold Pc.rouse
  split
  · simp [Pc.owes] at owes
  · rfl

theorem Rested.next {s' : State P} {a : Action P} (rested : Rested chan s)
    (sound : Sound s) (signals : chan = .nread → Signals s a) (ran : Next s a s') : Rested chan s' := by
  cases a with
  | call p call =>
    simp only [Next, step] at ran
    split at ran
    · rename_i here
      split at ran <;> cases ran
      exact rested.outside (by rw [here]; rfl) (fun rests => by simp [Pc.rests] at rests)
    · cases ran
  | run p => exact rested.run sound signals ran
  | kill p =>
    simp only [Next, step] at ran
    split at ran <;> cases ran
    intro o rests
    have pre : (s.pc o).rests chan = true := by
      by_cases eq : o = p
      · subst o
        exact Pc.rests_of_rouse (by simpa [State.goto] using rests)
      · simpa [State.goto, eq] using rests
    rcases rested o pre with blocked | ⟨holder, held, owes⟩
    · exact .inl blocked
    · refine .inr ⟨holder, held, ?_⟩
      by_cases eq : holder = p
      · subst holder
        simpa [State.goto, Pc.owes_rouse owes] using owes
      · simpa [State.goto, eq] using owes

def Pc.asleep (chan : Chan) : Pc → Bool
  | .sleep .asleep on _ => on = chan
  | _ => false

def State.Sleeping (st : State P) (q : P) (chan : Chan) : Prop :=
  (st.pc q).asleep chan = true

theorem Pc.rests_of_asleep (asleep : pc.asleep chan = true) : pc.rests chan = true := by
  unfold Pc.asleep at asleep
  split at asleep
  · exact asleep
  · simp at asleep

omit [DecidableEq P] in
theorem Rested.sleeping (rested : Rested chan s) (free : s.lock = none)
    (sleeping : s.Sleeping p chan) : s.pipe.blocks chan = true := by
  rcases rested p (Pc.rests_of_asleep sleeping) with blocked | ⟨holder, held, _⟩
  · exact blocked
  · simp [free] at held

/-! Sleeping readers and writers. -/

/-- A writer sleeps on `&p->nwrite` only while the pipe is full and its read end open. -/
theorem pipe_writers_blocked (data : Nat → UInt8) (st : State P)
    (reached : Reachable Next (fun _ _ => True) (State.initial data) st)
    (free : st.lock = none) (q : P) (sleeping : st.Sleeping q .nwrite) :
    st.pipe.nwrite = st.pipe.nread + PIPESIZE ∧ st.pipe.readopen = true := by
  have kept : Sound st ∧ Rested .nwrite st := by
    refine reached.invariant (fun st => Sound st ∧ Rested .nwrite st) ⟨.initial data, .initial .nwrite data⟩ ?_
    intro before a after ⟨sound, rested⟩ _ tk
    exact ⟨sound.next tk, rested.next sound (by simp) tk⟩
  have blocked := kept.2.sleeping free sleeping
  simpa [Pipe.blocks, Pipe.full] using blocked

def longWrite : List (Action Bool) :=
  .call false (.write ⟨fun _ => 7, 513, 0, 0⟩) :: List.replicate 519 (.run false)

theorem pipe_writers_blocked_full : ∃ st : State Bool,
    Reachable Next (fun _ _ => True) (State.initial fun _ => 0) st ∧ st.lock = none ∧
    st.Sleeping false .nwrite ∧ st.pipe.nwrite = st.pipe.nread + PIPESIZE := by
  have chk : (Reach.replay step (fun _ _ => True) longWrite (State.initial fun _ => 0)).any
      (fun st => decide (st.lock = none ∧ (st.pc false).asleep .nwrite = true)) = true := by
    decide +kernel
  obtain ⟨st, reached, found⟩ := replayed chk
  obtain ⟨free, sleeping⟩ := of_decide_eq_true found
  exact ⟨st, reached, free, sleeping, (pipe_writers_blocked _ st reached free false sleeping).1⟩

/-- A reader sleeps on `&p->nread` only while the pipe is empty and its write end open, in runs
in which no `pipewrite` returns early after it stored bytes. -/
theorem pipe_readers_blocked (data : Nat → UInt8) (st : State P)
    (reached : Reachable Next Signals (State.initial data) st)
    (free : st.lock = none) (q : P) (sleeping : st.Sleeping q .nread) :
    st.pipe.nread = st.pipe.nwrite ∧ st.pipe.writeopen = true := by
  have kept : Sound st ∧ Rested .nread st := by
    refine reached.invariant (fun st => Sound st ∧ Rested .nread st) ⟨.initial data, .initial .nread data⟩ ?_
    intro before a after ⟨sound, rested⟩ signals tk
    exact ⟨sound.next tk, rested.next sound (fun _ => signals) tk⟩
  have blocked := kept.2.sleeping free sleeping
  simpa [Pipe.blocks, Pipe.drained] using blocked

def emptyRead : List (Action Bool) := .call true (.read ⟨1, []⟩) :: List.replicate 5 (.run true)

instance (st : State P) (a : Action P) : Decidable (Signals st a) :=
  match a with
  | .run q =>
    match here : st.pc q with
    | .full writer =>
      decidable_of_iff (writer.since < writer.i →
          st.pipe.readopen = true ∧ st.killed q = false) (by simp [Signals, here])
    | .idle | .acquiring _ | .testing _ | .signalling _ | .copying _ | .sleep _ _ _
    | .notifying _ _ _ | .returning _ _ => isTrue (by simp [Signals, here])
  | .call _ _ | .kill _ => isTrue trivial

theorem pipe_readers_blocked_empty : ∃ st : State Bool,
    Reachable Next Signals (State.initial fun _ => 0) st ∧ st.lock = none ∧
    st.Sleeping true .nread ∧ st.pipe.nread = st.pipe.nwrite := by
  have chk : (Reach.replay step Signals emptyRead (State.initial fun _ => 0)).any
      (fun st => decide (st.lock = none ∧ (st.pc true).asleep .nread = true)) = true := by
    decide +kernel
  obtain ⟨st, reached, found⟩ := replayed chk
  obtain ⟨free, sleeping⟩ := of_decide_eq_true found
  exact ⟨st, reached, free, sleeping, (pipe_readers_blocked _ st reached free true sleeping).1⟩

def killedWrite : List (Action Bool) :=
  emptyRead ++ [.call false (.write ⟨fun _ => 7, 513, 0, 0⟩), .kill false] ++ List.replicate 516 (.run false)

theorem pipe_reader_forgotten : ∃ st : State Bool,
    Reachable Next (fun _ _ => True) (State.initial fun _ => 0) st ∧ st.lock = none ∧
    st.Sleeping true .nread ∧ st.pipe.nread ≠ st.pipe.nwrite := by
  have chk : (Reach.replay step (fun _ _ => True) killedWrite (State.initial fun _ => 0)).any
      (fun st => decide (st.lock = none ∧ (st.pc true).asleep .nread = true ∧
        st.pipe.nread ≠ st.pipe.nwrite)) = true := by
    decide +kernel
  obtain ⟨st, reached, found⟩ := replayed chk
  obtain ⟨free, sleeping, waiting⟩ := of_decide_eq_true found
  exact ⟨st, reached, free, sleeping, waiting⟩

end Xv6.PipeProtocol
