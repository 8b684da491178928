import Xv6.PipeCore

/-! The pipe is a queue: what each step keeps of the ring and of the locks, and so what holds in
every state of every run. -/


namespace Xv6.PipeProtocol

open Reach List

variable {P : Type} [DecidableEq P] {pc : Pc} {pipe : Pipe} {s s' : State P} {p : P}
  {freed : Bool} {killed : P → Bool} {stored delivered : List UInt8}

/-! The ring of bytes. -/

structure Counted (pipe : Pipe) (stored delivered : List UInt8) : Prop where
  ring : Ring.Holds 512 pipe.data stored delivered
  nread : pipe.nread = UInt32.ofNat delivered.length
  nwrite : pipe.nwrite = UInt32.ofNat stored.length

theorem Counted.alloc (data : Nat → UInt8) : Counted (.alloc data) [] [] where
  ring := .empty 512 data
  nread := rfl
  nwrite := rfl

section

variable {pipe : Pipe} {stored delivered : List UInt8}

theorem Counted.drained_iff (counted : Counted pipe stored delivered) : pipe.drained = true ↔ delivered = stored := by
  have ord := counted.ring.taken_le
  have fits := counted.ring.fits
  rw [Pipe.drained, beq_iff_eq, counted.nread, counted.nwrite, Ring.ofNat_eq_iff ord (by omega)]
  constructor
  · exact counted.ring.eq_of_length
  · intro eq
    rw [eq]

theorem Counted.full_iff (counted : Counted pipe stored delivered) :
    pipe.full = true ↔ stored.length = delivered.length + 512 := by
  have ord := counted.ring.taken_le
  have fits := counted.ring.fits
  have limit : pipe.nread + PIPESIZE = UInt32.ofNat (delivered.length + 512) := by
    rw [counted.nread, UInt32.ofNat_add]
    rfl
  rw [Pipe.full, beq_iff_eq, limit, counted.nwrite, Ring.ofNat_eq_iff fits (by omega)]

theorem index_eq (n : Nat) : (UInt32.ofNat n % PIPESIZE).toNat = n % 512 := by
  rw [UInt32.toNat_mod]
  exact Ring.toNat_ofNat_mod (by decide) n

section

variable (counted : Counted pipe stored delivered)

include counted

theorem Counted.store (byte : UInt8) (room : pipe.full = false) :
    Counted (pipe.store byte) (stored ++ [byte]) delivered where
  ring := by
    have fits := counted.ring.fits
    have apart : stored.length ≠ delivered.length + 512 := by
      intro eq
      rw [counted.full_iff.mpr eq] at room
      contradiction
    have placed := counted.ring.store byte (by omega)
    rwa [← index_eq, ← counted.nwrite] at placed
  nread := counted.nread
  nwrite := by
    rw [length_append, length_singleton, ← Ring.ofNat_succ, ← counted.nwrite]
    rfl

theorem Counted.take (left : pipe.drained = false) : Counted pipe.take stored (delivered ++ [pipe.front]) where
  ring := by
    have ord := counted.ring.taken_le
    have apart : delivered.length ≠ stored.length := by
      intro eq
      rw [counted.drained_iff.mpr (counted.ring.eq_of_length eq)] at left
      contradiction
    have ran := counted.ring.take (by omega)
    rwa [← index_eq, ← counted.nread] at ran
  nread := by
    rw [length_append, length_singleton, ← Ring.ofNat_succ, ← counted.nread]
    rfl
  nwrite := counted.nwrite

theorem Counted.close (writable : Bool) : Counted (pipe.close writable) stored delivered := by
  cases writable <;> exact ⟨counted.ring, counted.nread, counted.nwrite⟩

end

def Pipe.waiting (pipe : Pipe) : List UInt8 :=
  (List.range (pipe.nwrite - pipe.nread).toNat).map fun place =>
    pipe.data ((pipe.nread.toNat + place) % PIPESIZE.toNat)

theorem Counted.difference (counted : Counted pipe stored delivered) :
    (pipe.nwrite - pipe.nread).toNat = stored.length - delivered.length := by
  have ord := counted.ring.taken_le
  have fits := counted.ring.fits
  rw [counted.nwrite, counted.nread, Ring.toNat_sub_ofNat ord (by omega)]

theorem Counted.stored_eq (counted : Counted pipe stored delivered) : stored = delivered ++ pipe.waiting := by
  have k : ∀ n, (pipe.nread.toNat + n) % PIPESIZE.toNat = (delivered.length + n) % 512 := by
    intro n
    have start := Ring.toNat_ofNat_mod (by decide : 512 ∣ 2 ^ 32) delivered.length
    rw [← counted.nread] at start
    change (pipe.nread.toNat + n) % 512 = (delivered.length + n) % 512
    rw [Nat.add_mod, start, ← Nat.add_mod]
  rw [Pipe.waiting, counted.difference]
  simp only [k]
  exact counted.ring.stored_eq

end

/-! Who holds the locks, and what the holder of `p->lock` knows of the pipe. -/

def Pc.locked : Pc → Bool
  | .idle | .acquiring _ | .sleep .sched _ _ | .sleep .asleep _ _ => false
  | _ => true

def Pc.tabled : Pc → Bool
  | .sleep .release _ _ | .sleep .sched _ _ => true
  | _ => false

def Pipe.blocks (pipe : Pipe) : Chan → Bool
  | .nread => pipe.drained && pipe.writeopen
  | .nwrite => pipe.full && pipe.readopen

def Pc.Knows (pipe : Pipe) : Pc → Prop
  | .testing (.write writer) => writer.since ≤ writer.i
  | .full _ => pipe.full = true
  | .signalling _ => pipe.blocks .nwrite = true
  | .copying reader => reader.addr = [] → pipe.drained = true → pipe.writeopen = false
  | .notifying _ (.read reader) result | .returning (.read reader) result =>
    1 ≤ reader.n → result = 0 → pipe.writeopen = false ∧ pipe.drained = true
  | _ => True

theorem Pc.knows_unlocked (unlocked : pc.locked = false) (pipe : Pipe) : pc.Knows pipe := by
  unfold Pc.Knows
  split <;> simp_all [Pc.locked]

@[simp] theorem Pc.locked_wake (chan : Chan) (pc : Pc) : (pc.wake chan).locked = pc.locked := by
  unfold Pc.wake
  split
  · split <;> rfl
  · rfl

@[simp] theorem Pc.tabled_wake (chan : Chan) (pc : Pc) : (pc.wake chan).tabled = pc.tabled := by
  unfold Pc.wake
  split
  · split <;> rfl
  · rfl

theorem Pc.wake_of_locked (locked : pc.locked = true) (chan : Chan) : pc.wake chan = pc := by
  unfold Pc.wake
  split
  · simp [Pc.locked] at locked
  · rfl

theorem Pc.Knows.wake (knows : pc.Knows pipe) (chan : Chan) : (pc.wake chan).Knows pipe := by
  cases locked : pc.locked with
  | true => rwa [Pc.wake_of_locked locked]
  | false => exact Pc.knows_unlocked (by simpa using locked) pipe

structure Sound (st : State P) : Prop where
  counted : Counted st.pipe st.stored st.delivered
  lock : ∀ q, (st.pc q).locked = true ↔ st.lock = some q
  ptable : ∀ q, (st.pc q).tabled = true ↔ st.ptable = some q
  knows : ∀ q, (st.pc q).Knows st.pipe

omit [DecidableEq P] in
theorem Sound.initial (data : Nat → UInt8) : Sound (State.initial data : State P) where
  counted := .alloc data
  lock := by simp [State.initial, Pc.locked]
  ptable := by simp [State.initial, Pc.tabled]
  knows := by simp [State.initial, Pc.Knows]

section

variable (sound : Sound s)

include sound

theorem Sound.change (p : P) {lock ptable : Option P} (counted : Counted pipe stored delivered)
    (changed : pipe = s.pipe ∨ s.lock = some p) (own : pc.locked = true ↔ lock = some p)
    (others : ∀ o, o ≠ p → (lock = some o ↔ s.lock = some o)) (ownTable : pc.tabled = true ↔ ptable = some p)
    (othersTable : ∀ o, o ≠ p → (ptable = some o ↔ s.ptable = some o)) (knows : pc.Knows pipe) :
    Sound ⟨pipe, freed, lock, ptable, Function.update s.pc p pc, killed, stored, delivered⟩ where
  counted := counted
  lock := by
    intro o
    by_cases same : o = p
    · subst o
      simpa using own
    · simpa [same, others o same] using sound.lock o
  ptable := by
    intro o
    by_cases same : o = p
    · subst o
      simpa using ownTable
    · simpa [same, othersTable o same] using sound.ptable o
  knows := by
    intro o
    by_cases same : o = p
    · subst o
      simpa using knows
    · simp only [ne_eq, same, not_false_eq_true, Function.update_of_ne]
      rcases changed with rfl | holder
      · exact sound.knows o
      · apply Pc.knows_unlocked
        rw [Bool.eq_false_iff, ne_eq, sound.lock o, holder]
        simpa using Ne.symm same

theorem Sound.stay {pre : Pc} (here : s.pc p = pre) (counted : Counted pipe stored delivered)
    (changed : pipe = s.pipe ∨ s.lock = some p) (sameLock : pc.locked = pre.locked)
    (sameTable : pc.tabled = pre.tabled) (knows : pc.Knows pipe) :
    Sound ⟨pipe, freed, s.lock, s.ptable, Function.update s.pc p pc, killed, stored, delivered⟩ :=
  sound.change p counted changed (by rw [sameLock, ← here]; exact sound.lock p)
    (fun _ _ => Iff.rfl) (by rw [sameTable, ← here]; exact sound.ptable p) (fun _ _ => Iff.rfl) knows

theorem Sound.goto (t : Pc) (here : s.pc p = pc) (sameLock : t.locked = pc.locked)
    (sameTable : t.tabled = pc.tabled) (knows : t.Knows s.pipe) : Sound (s.goto p t) :=
  sound.stay here sound.counted (.inl rfl) sameLock sameTable knows

omit [DecidableEq P] in
theorem Sound.wakeup (chan : Chan) : Sound (s.wakeup chan) where
  counted := sound.counted
  lock := by
    intro p
    simpa [State.wakeup] using sound.lock p
  ptable := by
    intro p
    simpa [State.wakeup] using sound.ptable p
  knows := fun p => (sound.knows p).wake chan

omit [DecidableEq P] in
theorem Sound.holder (here : s.pc p = pc) (locked : pc.locked = true) : s.lock = some p := by
  rw [← sound.lock p, here]
  exact locked

omit [DecidableEq P] in
theorem Sound.known (here : s.pc p = pc) : pc.Knows s.pipe := by
  rw [← here]
  exact sound.knows p

theorem Sound.acquire {call : Call} (here : s.pc p = .acquiring call) (free : s.lock = none) :
    Sound ({ s with lock := some p }.goto p (.testing call.resume)) := by
  apply sound.change p sound.counted (.inl rfl)
  · simp [Pc.locked]
  · intro o ne
    simp [free, Ne.symm ne]
  · simpa [here, Pc.tabled] using sound.ptable p
  · exact fun _ _ => Iff.rfl
  · cases call with
    | write writer => exact le_refl writer.i
    | read reader => trivial
    | close writable => trivial

theorem Sound.release (t : Pc) (here : s.pc p = pc) (locked : pc.locked = true)
    (unlocked : t.locked = false) (sameTable : t.tabled = pc.tabled) (freed : Bool) :
    Sound ({ s with lock := none, freed }.goto p t) := by
  have holder := sound.holder here locked
  apply sound.change p sound.counted (.inl rfl)
  · simp [unlocked]
  · intro o ne
    simp [holder, Ne.symm ne]
  · rw [sameTable, ← here]
    exact sound.ptable p
  · exact fun _ _ => Iff.rfl
  · exact Pc.knows_unlocked unlocked _

theorem Sound.run (ran : run s p = some s') : Sound s' := by
  unfold PipeProtocol.run at ran
  split at ran
  · cases ran
  · rename_i call here
    split at ran <;> cases ran
    rename_i free
    exact sound.acquire here free.1
  · rename_i writer here
    split at ran
    · split at ran
      · rename_i full
        cases ran
        exact sound.goto _ here rfl rfl full
      · rename_i room
        cases ran
        have since : writer.since ≤ writer.i := sound.known here
        exact sound.stay here (sound.counted.store _ (by simpa using room)) (.inr (sound.holder here rfl)) rfl rfl
          (Nat.le_succ_of_le since)
    · cases ran
      exact sound.goto _ here rfl rfl trivial
  · rename_i writer here
    have full : s.pipe.full = true := sound.known here
    split at ran
    · cases ran
      exact sound.goto _ here rfl rfl trivial
    · rename_i live
      cases ran
      have blocked : s.pipe.blocks .nwrite = true := by
        simp only [not_or, Bool.not_eq_false] at live
        simp [Pipe.blocks, full, live.1]
      exact sound.goto _ here rfl rfl blocked
  · rename_i writer here
    split at ran <;> cases ran
    exact (sound.goto (.sleep .acquire _ _) here rfl rfl trivial).wakeup .nread
  · rename_i reader here
    split at ran
    · split at ran
      · cases ran
        exact sound.goto _ here rfl rfl (fun _ failed => by simp at failed)
      · cases ran
        exact sound.goto _ here rfl rfl trivial
    · rename_i some_
      cases ran
      have closed : s.pipe.drained = true → s.pipe.writeopen = false := by
        intro drained
        simpa [drained] using some_
      exact sound.goto _ here rfl rfl (fun _ => closed)
  · rename_i reader here
    have closed : reader.addr = [] → s.pipe.drained = true → s.pipe.writeopen = false :=
      sound.known here
    split at ran
    · rename_i more
      cases ran
      exact sound.stay here (sound.counted.take more.2) (.inr (sound.holder here rfl)) rfl rfl
        (fun none_ => by simp at none_)
    · rename_i done
      cases ran
      apply sound.goto (.notifying _ _ _) here rfl rfl
      -- The loop ended before its first byte: the pipe was empty.
      intro wanted zero
      have none_ : reader.addr = [] := by simpa [Reader.i] using zero
      have drained : s.pipe.drained = true := by
        simp only [Reader.i, none_, not_and, Bool.not_eq_false] at done
        apply done
        simp
        omega
      exact ⟨closed none_ drained, drained⟩
  · rename_i writable here
    cases ran
    exact sound.stay here (sound.counted.close writable) (.inr (sound.holder here rfl)) rfl rfl trivial
  · rename_i chan call here
    split at ran <;> cases ran
    rename_i free
    apply sound.change p sound.counted (.inl rfl)
    · simpa [here, Pc.locked] using sound.lock p
    · exact fun _ _ => Iff.rfl
    · simp [Pc.tabled]
    · intro o ne
      simp [free, Ne.symm ne]
    · trivial
  · rename_i chan call here
    cases ran
    exact sound.release (.sleep .sched chan call) here rfl rfl rfl s.freed
  · rename_i chan call here
    cases ran
    have tabled : s.ptable = some p := by
      rw [← sound.ptable p, here]
      rfl
    apply sound.change p sound.counted (.inl rfl)
    · simpa [here, Pc.locked] using sound.lock p
    · exact fun _ _ => Iff.rfl
    · simp [Pc.tabled]
    · intro o ne
      simp [tabled, Ne.symm ne]
    · trivial
  · cases ran
  · rename_i chan call res here
    split at ran <;> cases ran
    refine (sound.goto (.returning call res) here rfl rfl ?_).wakeup chan
    have known := sound.known here
    cases call <;> exact known
  · rename_i writable res here
    cases ran
    exact sound.release .idle here rfl rfl rfl _
  · rename_i call res _ here
    cases ran
    exact sound.release .idle here rfl rfl rfl s.freed

end

theorem Pc.locked_rouse (pc : Pc) : pc.rouse.locked = pc.locked := by
  unfold Pc.rouse
  split <;> rfl

theorem Pc.tabled_rouse (pc : Pc) : pc.rouse.tabled = pc.tabled := by
  unfold Pc.rouse
  split <;> rfl

theorem Pc.Knows.rouse (knows : pc.Knows pipe) : pc.rouse.Knows pipe := by
  unfold Pc.rouse
  split
  · trivial
  · exact knows

theorem Sound.next {action : Action P} (sound : Sound s) (ran : Next s action s') : Sound s' := by
  cases action with
  | call p call =>
    simp only [Next, step] at ran
    split at ran
    · rename_i here
      split at ran <;> cases ran
      exact sound.goto (.acquiring call) here rfl rfl trivial
    · cases ran
  | run p => exact sound.run ran
  | kill p =>
    simp only [Next, step] at ran
    split at ran <;> cases ran
    exact sound.stay rfl sound.counted (.inl rfl) (Pc.locked_rouse _) (Pc.tabled_rouse _) (sound.knows p).rouse

theorem Sound.reached {data : Nat → UInt8} {ok : State P → Action P → Prop}
    (reached : Reachable Next ok (State.initial data) s) : Sound s :=
  reached.invariant Sound (.initial data) fun _ _ _ sound _ ran => sound.next ran

/-! The pipe as a queue. -/

/-- Readers got what writers stored, in order, and the rest is in the ring; `piperead` returns 0 only at
the end of the file. -/
theorem pipe_fifo (data : Nat → UInt8) (st : State P)
    (reached : Reachable Next (fun _ _ => True) (State.initial data) st) :
    (st.pipe.nwrite - st.pipe.nread).toNat ≤ PIPESIZE.toNat ∧ st.delivered <+: st.stored ∧
    st.stored = st.delivered ++ st.pipe.waiting ∧ ∀ q reader, st.pc q = .returning (.read reader) 0 → 1 ≤ reader.n →
      st.pipe.writeopen = false ∧ st.delivered = st.stored := by
  have sound := Sound.reached reached
  have counted := sound.counted
  refine ⟨?_, counted.ring.taken_first, counted.stored_eq, ?_⟩
  · have fits := counted.ring.fits
    rw [counted.difference]
    change _ ≤ 512
    omega
  · intro q reader here wanted
    obtain ⟨closed, drained⟩ := sound.known here wanted rfl
    exact ⟨closed, counted.drained_iff.mp drained⟩

theorem replayed {ok : State Bool → Action Bool → Prop}
    [∀ s action, Decidable (ok s action)] {actions : List (Action Bool)} {test : State Bool → Bool}
    (checked : (Reach.replay step ok actions (State.initial fun _ => 0)).any test = true) :
    ∃ s, Reachable Next ok (State.initial fun _ => 0) s ∧ test s = true :=
  Reachable.of_replay (fun _ _ _ _ ran => ran) checked

def shortRun : List (Action Bool) :=
  .call false (.write ⟨fun i => if i = 0 then 7 else 8, 2, 0, 0⟩) :: List.replicate 6 (.run false) ++
    .call true (.read ⟨1, []⟩) :: List.replicate 4 (.run true)

theorem pipe_fifo_short : ∃ st : State Bool, Reachable Next (fun _ _ => True) (State.initial fun _ => 0) st ∧
    st.stored = [7, 8] ∧ st.delivered = [7] ∧ st.stored = st.delivered ++ st.pipe.waiting := by
  have checked : (Reach.replay step (fun _ _ => True) shortRun (State.initial fun _ => 0)).any
      (fun st => decide (st.stored = [7, 8] ∧ st.delivered = [7])) = true := by
    decide +kernel
  obtain ⟨st, reached, found⟩ := replayed checked
  obtain ⟨stored, delivered⟩ := of_decide_eq_true found
  exact ⟨st, reached, stored, delivered, (pipe_fifo _ st reached).2.2.1⟩

end Xv6.PipeProtocol
