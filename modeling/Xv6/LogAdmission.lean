import Xv6.LogProtocol
import Mathlib.Algebra.BigOperators.Ring.Finset

/-! Admission control of the log on the layout `mkfs` makes: `begin_op` reserves `MAXOPBLOCKS` blocks for
each operation, and `log_write` stops at `log.size - 1`. -/


namespace Xv6.LogProtocol

open Reach List Pc State Function

variable {P : Type} [DecidableEq P]

def loggedBy (st : State P) : Action P → Nat
  | .logWrite q blockno =>
    match st.pc q with
    | .operating ws => (insertBlock blockno ws).length
    | _ => 0
  | _ => 0

def Within (limit : Nat) (st : State P) (a : Action P) : Prop := loggedBy st a ≤ limit

instance (limit : Nat) (st : State P) (a : Action P) : Decidable (Within limit st a) :=
  inferInstanceAs (Decidable (_ ≤ _))

def Pc.reserve : Pc → Nat
  | .operating ws => MAXOPBLOCKS - ws.length
  | _ => 0

@[simp] theorem Pc.reserve_operating (ws : List Nat) : (Pc.operating ws).reserve = MAXOPBLOCKS - ws.length := rfl

@[simp] theorem Pc.reserve_beginning : beginning.reserve = 0 := rfl

@[simp] theorem Pc.reserve_idle : Pc.idle.reserve = 0 := rfl

theorem Pc.reserve_passive {pc : Pc} (quiet : pc.passive = true) : pc.reserve = 0 := by
  cases pc <;> simp_all [passive, reserve]

theorem Pc.reserve_le_live (pc : Pc) : pc.reserve ≤ MAXOPBLOCKS * pc.live := by
  cases pc <;> simp [reserve, live]

omit [DecidableEq P] in
theorem Relabels.reserve {pc pc' : P → Pc} (relabels : Relabels pc pc') (p : P) : (pc' p).reserve = (pc p).reserve := by
  rcases relabels p with eq | ⟨pre, after⟩
  · rw [eq]
  · rw [reserve_passive pre, reserve_passive after]

theorem length_insertBlock (b : Nat) (ws : List Nat) : (insertBlock b ws).length = ws.length ∧ b ∈ ws ∨
      (insertBlock b ws).length = ws.length + 1 ∧ b ∉ ws := by
  by_cases mem : b ∈ ws <;> simp [insertBlock, mem]

theorem LogHeader.n_absorb (header : LogHeader) (b : Nat) (room : header.n < LOGSIZE) :
    (header.absorb b room).n = header.n ∧ b ∈ header.blocks ∨
      (header.absorb b room).n = header.n + 1 ∧ b ∉ header.blocks := by
  by_cases mem : b ∈ header.blocks <;> simp [LogHeader.absorb, LogHeader.n, mem]

theorem too_big_operating {s : State P} {a : Action P}
    (stopped : step s a = some (.error (.panic "too big a transaction"))) : ∃ p b ws,
      a = .logWrite p b ∧ s.pc p = .operating ws := by
  cases a with
  | logWrite p b =>
    cases at_ : s.pc p with
    | operating ws => exact ⟨p, b, ws, rfl, at_⟩
    | _ => simp [step, at_] at stopped
  | endOp p =>
    simp only [step, Log.endOp, Except.map] at stopped
    grind
  | begin p =>
    simp only [step] at stopped
    grind
  | enter p => cases at_ : s.pc p <;> simp [step, at_] at stopped
  | commit p => cases at_ : s.pc p <;> simp [step, at_] at stopped

section

variable [Fintype P] {s s' : State P} {p : P} {ws : List Nat} {a : Action P}

def State.committed (st : State P) : Nat :=
  st.log.lh.n + ∑ q, (st.pc q).reserve

structure Slack (st : State P) : Prop where
  short : ∀ q ws, st.pc q = .operating ws → ws.length < MAXOPBLOCKS
  fits : st.committed ≤ LOGSIZE
  alone : st.log.outstanding ≤ 1 → st.committed < LOGSIZE

section

variable (slack : Slack s)

include slack

omit [DecidableEq P] in
theorem Slack.relabel {pc : P → Pc} (relabels : Relabels s.pc pc) : Slack { s with pc } where
  short := fun p ws run =>
    slack.short p ws ((relabels.operating p ws).mp run)
  fits := by
    simpa only [State.committed, relabels.reserve] using slack.fits
  alone := by
    simpa only [State.committed, relabels.reserve] using slack.alone

theorem Slack.short_goto {target : Pc} (short : ∀ ws, target = .operating ws → ws.length < MAXOPBLOCKS) (o : P)
    (ws : List Nat) (run : update s.pc p target o = .operating ws) : ws.length < MAXOPBLOCKS := by
  by_cases eq : o = p
  · subst o
    exact short ws (by simpa using run)
  · exact slack.short o ws (by simpa [eq] using run)

theorem Slack.enter (op : Open s) (at_ : s.pc p = .beginning) (admitted : s.log.admits = true) : Slack ({ s with
      log := { s.log with outstanding := s.log.outstanding + 1 }
      begun := s.begun ++ [p] }.goto p (.operating [])) := by
  have sums := sum_update s.pc p (.operating []) Pc.reserve
  simp only [at_, reserve_beginning, reserve_operating, length_nil] at sums
  have reserved : ∑ o, (s.pc o).reserve ≤ MAXOPBLOCKS * ∑ o, (s.pc o).live := by
    rw [Finset.mul_sum]
    exact Finset.sum_le_sum fun o _ => reserve_le_live _
  have n := op.outstanding
  have guard : (s.log.lh.n : Int) + (s.log.outstanding + 1) * MAXOPBLOCKS ≤ LOGSIZE := by
    simp only [Log.admits, Bool.and_eq_true, decide_eq_true_eq] at admitted
    exact admitted.2
  simp only [MAXOPBLOCKS, LOGSIZE] at sums reserved guard
  refine ⟨slack.short_goto ?_, ?_, ?_⟩
  · rintro _ ⟨⟩
    decide
  · simp only [State.committed, goto, LOGSIZE, MAXOPBLOCKS]
    omega
  · intro few
    have empty : s.log.lh.n = 0 := by
      have none : s.log.outstanding = 0 := by
        simp only [goto] at few
        omega
      simp [LogHeader.n, (op.fresh none).1]
    simp only [State.committed, goto, LOGSIZE, MAXOPBLOCKS] at few ⊢
    omega

theorem Slack.write (op : Open s) (running : s.pc p = .operating ws) (b : Nat)
    (room : s.log.lh.n < LOGSIZE) (short : (insertBlock b ws).length < MAXOPBLOCKS) : Slack ({ s with
      log := { s.log with lh := s.log.lh.absorb b room } }.goto p (.operating (insertBlock b ws))) := by
  have sums := sum_update s.pc p (.operating (insertBlock b ws)) Pc.reserve
  simp only [running, reserve_operating] at sums
  have lt := slack.short p ws running
  have kept : (s.log.lh.absorb b room).n +
      ∑ o, (update s.pc p (.operating (insertBlock b ws)) o).reserve ≤ s.committed := by
    have listed : b ∈ ws → b ∈ s.log.lh.blocks := fun mem =>
      (op.listed b).mpr (.inr ⟨p, ws, running, mem⟩)
    simp only [State.committed]
    rcases length_insertBlock b ws with ⟨length, mem⟩ | ⟨length, absent⟩ <;>
      rcases LogHeader.n_absorb s.log.lh b room with ⟨n, old⟩ | ⟨n, new⟩
    · omega
    · exact absurd (listed mem) new
    · omega
    · omega
  refine ⟨slack.short_goto ?_, le_trans kept slack.fits, fun few => lt_of_le_of_lt kept (slack.alone few)⟩
  rintro _ ⟨⟩
  exact short

theorem Slack.end_ (run : s.pc p = .operating ws) : Slack ({ s with
      log := { s.log with outstanding := s.log.outstanding - 1 }
      ended := s.ended ++ [(p, ws)] }.goto p .idle) := by
  have sums := sum_update s.pc p .idle Pc.reserve
  simp only [run, reserve_operating, reserve_idle] at sums
  have lt := slack.short p ws run
  have fits := slack.fits
  simp only [State.committed] at fits
  refine ⟨slack.short_goto (by simp), ?_, ?_⟩
  · simp only [State.committed, goto]
    omega
  · intro _
    simp only [State.committed, goto]
    omega

theorem Slack.room (op : Open s) (run : s.pc p = .operating ws) : s.log.lh.n < LOGSIZE - 1 := by
  have own := sum_update s.pc p .idle Pc.reserve
  simp only [run, reserve_operating, reserve_idle] at own
  have lt := slack.short p ws run
  have fits := slack.fits
  have alone := slack.alone
  simp only [State.committed, MAXOPBLOCKS, LOGSIZE] at *
  by_cases few : s.log.outstanding ≤ 1
  · have tight := alone few
    omega
  · have n := sum_update s.pc p .idle Pc.live
    simp only [run, live_operating, live_idle] at n
    have outstanding := op.outstanding
    have more : ∑ o, (update s.pc p .idle o).live ≠ 0 := by omega
    obtain ⟨o, _, live⟩ := Finset.exists_ne_zero_of_sum_ne_zero more
    have others : 1 ≤ (update s.pc p .idle o).reserve := by
      by_cases eq : o = p
      · simp [eq] at live
      · rw [update_of_ne eq] at live ⊢
        cases busy : s.pc o with
        | operating ws' =>
          have short := slack.short o ws' busy
          simp only [reserve_operating, MAXOPBLOCKS] at short ⊢
          omega
        | _ => simp [busy, Pc.live] at live
    have part := Finset.single_le_sum (f := fun o => (update s.pc p .idle o).reserve)
      (fun _ _ => Nat.zero_le _) (Finset.mem_univ o)
    omega

end

def Admitted (st : State P) : Prop :=
  st.log.size = LOGSIZE ∧ Inv st ∧ (Open st → Slack st)

omit [Fintype P] in
theorem size_kept (ran : Next s a s') : s'.log.size = s.log.size := by
  obtain ⟨_, _, _, rfl⟩ | ⟨_, _, _, _, rfl⟩ | ⟨_, _, _, _, rfl⟩ | ⟨_, _, _, _, _, _, _, rfl⟩ |
    ⟨_, _, _, _, _, _, rfl⟩ | ⟨_, _, _, _, _, _, rfl⟩ | ⟨_, g, _, _, rfl⟩ := next_cases ran
  all_goals try rfl
  cases g <;> rfl

theorem Open.slack (op : Open s) (none : s.log.outstanding = 0) : Slack s := by
  have n := op.outstanding
  have quiet : ∀ p, (s.pc p).live = 0 := by
    have total : ∑ p, (s.pc p).live = 0 := by omega
    exact fun p => Finset.sum_eq_zero_iff.mp total p (Finset.mem_univ p)
  have unreserved : ∑ p, (s.pc p).reserve = 0 := by
    refine Finset.sum_eq_zero fun p _ => ?_
    have lt := reserve_le_live (s.pc p)
    simpa [quiet p] using lt
  have committed : s.committed = 0 := by
    simp [State.committed, LogHeader.n, (op.fresh none).1, unreserved]
  refine ⟨?_, by simp [committed], fun _ => by simp [committed, LOGSIZE, MAXOPBLOCKS]⟩
  intro p ws run
  have idle := quiet p
  simp [run] at idle

omit [Fintype P] in
theorem Committing.outstanding_kept {g : Stage} (comm : Committing s p g)
    (ran : Next s a s') : s'.log.outstanding = 0 := by
  obtain ⟨_, _, _, rfl⟩ | ⟨_, _, _, _, rfl⟩ | ⟨_, _, _, admitted, _⟩ |
    ⟨o, _, ws, _, _, running, _, _⟩ | ⟨o, ws, _, running, _⟩ |
    ⟨o, ws, _, running, _⟩ | ⟨_, g', _, _, rfl⟩ := next_cases ran
  · exact comm.outstanding
  · exact comm.outstanding
  · simp [Log.admits, comm.flag] at admitted
  · exact absurd running (comm.not_operating o ws)
  · exact absurd running (comm.not_operating o ws)
  · exact absurd running (comm.not_operating o ws)
  · cases g' <;> exact comm.outstanding

theorem Committing.not_open {g : Stage} (comm : Committing s p g) : ¬Open s := by
  intro op
  exact op.noCommit p g comm.here

theorem Admitted.next (admitted : Admitted s) (within : Within (MAXOPBLOCKS - 1) s a)
    (ran : Next s a s') : Admitted s' := by
  obtain ⟨size, invariant, slack⟩ := admitted
  refine ⟨(size_kept ran).trans size, next_inv invariant ran, fun op' => ?_⟩
  rcases invariant with op | ⟨committer, g, comm⟩
  · have slack := slack op
    obtain ⟨p, _, at_, rfl⟩ | ⟨p, _, at_, _, rfl⟩ | ⟨p, _, at_, admits, rfl⟩ | ⟨p, b, ws, room, rfl, running, _, rfl⟩ |
      ⟨p, ws, _, running, _, _, rfl⟩ | ⟨p, ws, _, running, _, last, rfl⟩ | ⟨p, g, _, running, rfl⟩ := next_cases ran
    · exact slack.relabel (Relabels.goto (by simp [at_, Pc.passive]) rfl)
    · exact slack.relabel (Relabels.goto (by simp [at_, Pc.passive]) rfl)
    · exact slack.enter op at_ admits
    · have short : (insertBlock b ws).length ≤ MAXOPBLOCKS - 1 := by
        simpa only [Within, loggedBy, running] using within
      exact slack.write op running b room (by simp only [MAXOPBLOCKS] at short ⊢; omega)
    · exact (slack.end_ running).relabel (Relabels.wakeup _)
    · exact absurd op' (op.commit running last).not_open
    · exact absurd running (op.noCommit p g)
  · exact op'.slack (comm.outstanding_kept ran)

theorem reachable_admitted {start : Nat}
    (reached : Reachable Next (Within (MAXOPBLOCKS - 1)) (initial start LOGSIZE) s) : Admitted s := by
  have op : Open (initial start LOGSIZE : State P) := Open.initial start LOGSIZE
  refine reached.invariant Admitted ⟨rfl, .inl op, fun _ => op.slack rfl⟩ ?_
  exact fun _ _ _ admitted within ran => admitted.next within ran

theorem Open.too_big_iff (op : Open s) (running : s.pc p = .operating ws) (b : Nat) :
    step s (.logWrite p b) = some (.error (.panic "too big a transaction")) ↔
      ¬(s.log.lh.n < LOGSIZE ∧ s.log.lh.n < s.log.size - 1) := by
  have outstanding := op.outstanding_pos running
  simp only [step, running, Log.logWrite]
  split
  · rename_i room
    rw [if_neg (by omega)]
    simp [Except.map, room]
  · rename_i full
    simp [Except.map, full]

theorem Open.le_n_iff (op : Open s) (n : Nat) : n ≤ s.log.lh.n ↔
      ∃ blocks : List Nat, blocks.Nodup ∧ blocks.length = n ∧ ∀ b ∈ blocks, s.Logged b := by
  constructor
  · intro enough
    refine ⟨s.log.lh.blocks.take n, op.distinct.sublist (take_sublist _ _), ?_, ?_⟩
    · simpa [LogHeader.n] using enough
    · exact fun b mem => (op.listed b).mp (mem_of_mem_take mem)
  · rintro ⟨blocks, distinct, rfl, logged⟩
    have subset : blocks ⊆ s.log.lh.blocks := fun b mem =>
      (op.listed b).mpr (logged b mem)
    exact (subperm_of_subset distinct subset).length_le

/-- The panic of `log_write` is not reached while every operation logs at most `MAXOPBLOCKS - 1` distinct
blocks; with one more it is, exactly when `LOGSIZE - 1` are logged already. -/
theorem log_write_admission (start : Nat) : (∀ st : State P,
      Reachable Next (Within (MAXOPBLOCKS - 1)) (State.initial start LOGSIZE) st →
      ∀ a, step st a ≠ some (.error (.panic "too big a transaction"))) ∧
    ∀ st : State P, Reachable Next (Within MAXOPBLOCKS) (State.initial start LOGSIZE) st →
      ∀ q ws blockno, st.pc q = .operating ws →
        (step st (.logWrite q blockno) = some (.error (.panic "too big a transaction")) ↔
          ∃ blocks : List Nat, blocks.Nodup ∧ blocks.length = LOGSIZE - 1 ∧ ∀ logged ∈ blocks, st.Logged logged) := by
  constructor
  · intro st reached a stopped
    obtain ⟨size, invariant, slack⟩ := reachable_admitted reached
    obtain ⟨q, blockno, ws, rfl, running⟩ := too_big_operating stopped
    rcases invariant with opened | ⟨committer, g, comm⟩
    · have room := (slack opened).room opened running
      rw [opened.too_big_iff running, size] at stopped
      exact stopped ⟨by simp only [LOGSIZE, MAXOPBLOCKS] at room ⊢; omega, room⟩
    · exact absurd running (comm.not_operating q ws)
  · intro st reached q ws blockno running
    have size : st.log.size = LOGSIZE :=
      reached.invariant (fun st => st.log.size = LOGSIZE) rfl fun _ _ _ size _ taken => (size_kept taken).trans size
    rcases reachable_inv reached with opened | ⟨committer, g, comm⟩
    · rw [opened.too_big_iff running, ← opened.le_n_iff, size]
      simp only [LOGSIZE, MAXOPBLOCKS]
      omega
    · exact absurd running (comm.not_operating q ws)

end

def threeOps (count : Nat) : List (Action (Fin 3)) :=
  [.enter 0, .enter 1, .enter 2, .begin 0, .begin 1, .begin 2] ++ (List.range count).flatMap fun index =>
      [.logWrite 0 (100 + index), .logWrite 1 (200 + index), .logWrite 2 (300 + index)]

theorem log_write_admission_three : ∃ st : State (Fin 3),
      Reachable Next (Within (MAXOPBLOCKS - 1)) (State.initial 2 LOGSIZE) st ∧
      step st (.logWrite 2 308) ≠ some (.error (.panic "too big a transaction")) := by
  have some_ : (replay advance (Within (MAXOPBLOCKS - 1)) (threeOps 9) (State.initial 2 LOGSIZE)).isSome := by decide
  have reached := Reachable.start.replay (Option.some_get some_).symm
  exact ⟨_, reached, (log_write_admission 2).1 _ reached _⟩

/-- Three operations within their allowance reach the panic: the tenth block of the last one
does not fit. -/
theorem log_write_panics_within_allowance : ∃ st : State (Fin 3),
      Reachable Next (Within MAXOPBLOCKS) (State.initial 2 LOGSIZE) st ∧ Within MAXOPBLOCKS st (.logWrite 2 309) ∧
      step st (.logWrite 2 309) = some (.error (.panic "too big a transaction")) := by
  have some_ : (replay advance (Within MAXOPBLOCKS)
      (threeOps 9 ++ [.logWrite 0 109, .logWrite 1 209]) (State.initial 2 LOGSIZE)).isSome := by
    decide
  have reached := Reachable.start.replay (Option.some_get some_).symm
  exact ⟨_, reached, of_decide_eq_true (by rfl), by rfl⟩

end Xv6.LogProtocol
