import Xv6.LogCore
import Xv6.Lib.Reach
import Mathlib.Algebra.Order.BigOperators.Group.Finset

/-! The log shared by any number of processes: `begin_op`, `log_write` and `end_op` as
steps of one system, each section under `log.lock` taken as one step, and `commit` running
in steps of its own without the lock. -/


namespace Xv6.LogProtocol

open Function (update update_eq_self update_of_ne)
open Reach List

inductive Stage where
  | writeLog
  | writeHead
  | installTrans
  | clear
  | eraseHead
  | finish
  deriving DecidableEq

/-- Where a process stands; in an operation, with the distinct blocks it has passed to `log_write`. -/
inductive Pc where
  | idle
  | beginning
  | sleeping
  | operating (ws : List Nat)
  | committing (g : Stage)
  deriving DecidableEq

/-- The system: the log, the processes, and as history since the last commit the processes
whose operations began and the blocks of those that ended. -/
structure State (P : Type) where
  log : Log
  pc : P → Pc
  begun : List P
  ended : List (P × List Nat)

inductive Action (P : Type) where
  | enter (q : P)
  | begin (q : P)
  | logWrite (q : P) (blockno : Nat)
  | endOp (q : P)
  | commit (q : P)

variable {P : Type} [DecidableEq P] {pc' : P → Pc} {s s' : State P} {a : Action P}

def State.initial (start size : Nat) : State P where
  log := ⟨start, size, 0, false, .empty⟩
  pc := fun _ => .idle
  begun := []
  ended := []

def wake : Pc → Pc
  | .sleeping => .beginning
  | pc => pc

def State.wakeup (st : State P) : State P := { st with pc := fun q => wake (st.pc q) }

def State.goto (st : State P) (q : P) (pc : Pc) : State P :=
  { st with pc := update st.pc q pc }

@[grind =] theorem State.goto_pc (s : State P) (p o : P) (t : Pc) : (s.goto p t).pc o = if o = p then t else s.pc o :=
  Function.update_apply _ _ _ _

def commitStep (st : State P) (q : P) : Stage → State P
  | .writeLog => st.goto q (.committing (if st.log.lh.n > 0 then .writeHead else .finish))
  | .writeHead => st.goto q (.committing .installTrans)
  | .installTrans => st.goto q (.committing .clear)
  | .clear => { st with log := st.log.cleared }.goto q (.committing .eraseHead)
  | .eraseHead => st.goto q (.committing .finish)
  | .finish =>
    ({ st with log := st.log.finish, begun := [], ended := [] }.goto q .idle).wakeup

def step (st : State P) : Action P → Option (Except Stop (State P))
  | .enter q =>
    match st.pc q with
    | .idle => some (.ok (st.goto q .beginning))
    | _ => none
  | .begin q =>
    match st.pc q with
    | .beginning =>
      match st.log.beginOp with
      | some log =>
        some (.ok ({ st with log, begun := st.begun ++ [q] }.goto q (.operating [])))
      | none => some (.ok (st.goto q .sleeping))
    | _ => none
  | .logWrite q blockno =>
    match st.pc q with
    | .operating ws =>
      some ((st.log.logWrite blockno).map fun log =>
        { st with log }.goto q (.operating (insertBlock blockno ws)))
    | _ => none
  | .endOp q =>
    match st.pc q with
    | .operating ws =>
      some (st.log.endOp.map fun (doCommit, log) =>
        let st := { st with log, ended := st.ended ++ [(q, ws)] }
        if doCommit then st.goto q (.committing .writeLog)
        else (st.goto q .idle).wakeup)
    | _ => none
  | .commit q =>
    match st.pc q with
    | .committing g => some (.ok (commitStep st q g))
    | _ => none

def advance (st : State P) (a : Action P) : Option (State P) :=
  match step st a with
  | some (.ok st') => some st'
  | _ => none

def Next (st : State P) (a : Action P) (st' : State P) : Prop :=
  advance st a = some st'

theorem next_iff : Next s a s' ↔ step s a = some (.ok s') := by
  unfold Next advance
  split
  · rename_i hit
    simp [hit]
  · rename_i ne
    simp only [reduceCtorEq, false_iff]
    exact ne s'

theorem next_cases (ran : Next s a s') : (∃ p, a = .enter p ∧ s.pc p = .idle ∧ s' = s.goto p .beginning) ∨
    (∃ p, a = .begin p ∧ s.pc p = .beginning ∧ s.log.admits = false ∧ s' = s.goto p .sleeping) ∨
    (∃ p, a = .begin p ∧ s.pc p = .beginning ∧ s.log.admits = true ∧ s' = { s with
        log := { s.log with outstanding := s.log.outstanding + 1 }
        begun := s.begun ++ [p] }.goto p (.operating [])) ∨ (∃ p b ws, ∃ room : s.log.lh.n < LOGSIZE,
      a = .logWrite p b ∧ s.pc p = .operating ws ∧ s.log.lh.n < s.log.size - 1 ∧ s' = { s with
        log := { s.log with lh := s.log.lh.absorb b room } }.goto p (.operating (insertBlock b ws))) ∨
    (∃ p ws, a = .endOp p ∧ s.pc p = .operating ws ∧
      s.log.committing = false ∧ s.log.outstanding - 1 ≠ 0 ∧ s' = ({ s with
        log := { s.log with outstanding := s.log.outstanding - 1 }
        ended := s.ended ++ [(p, ws)] }.goto p .idle).wakeup) ∨
    (∃ p ws, a = .endOp p ∧ s.pc p = .operating ws ∧
      s.log.committing = false ∧ s.log.outstanding - 1 = 0 ∧ s' = { s with
        log := { s.log with outstanding := s.log.outstanding - 1, committing := true }
        ended := s.ended ++ [(p, ws)] }.goto p (.committing .writeLog)) ∨
    (∃ p g, a = .commit p ∧ s.pc p = .committing g ∧ s' = commitStep s p g) := by
  rw [next_iff] at ran
  cases a with
  | enter p =>
    simp only [step] at ran
    split at ran <;> grind
  | begin p =>
    simp only [step, Log.beginOp] at ran
    split at ran <;> grind
  | logWrite p b =>
    simp only [step, Log.logWrite, Except.map] at ran
    split at ran <;> grind
  | endOp p =>
    simp only [step, Log.endOp, Except.map] at ran
    split at ran <;> grind
  | commit p =>
    simp only [step] at ran
    split at ran <;> grind

def Pc.passive : Pc → Bool
  | .idle | .beginning | .sleeping => true
  | _ => false

def Pc.live : Pc → Nat
  | .operating _ => 1
  | _ => 0

@[simp] theorem Pc.live_operating (ws : List Nat) : (Pc.operating ws).live = 1 := rfl

@[simp] theorem Pc.live_idle : Pc.idle.live = 0 := rfl

@[simp] theorem Pc.live_beginning : Pc.beginning.live = 0 := rfl

theorem Pc.passive_wake (pc : Pc) : wake pc = pc ∨ (pc.passive = true ∧ (wake pc).passive = true) := by
  cases pc <;> simp [wake, passive]

theorem Pc.live_passive {pc : Pc} (quiet : pc.passive = true) : pc.live = 0 := by
  cases pc <;> simp_all [passive, live]

def Relabels (pc pc' : P → Pc) : Prop :=
  ∀ q, pc' q = pc q ∨ ((pc q).passive = true ∧ (pc' q).passive = true)

theorem Relabels.goto {pc : P → Pc} {p : P} {t : Pc} (pre : (pc p).passive = true)
    (after : t.passive = true) : Relabels pc (update pc p t) := by
  intro o
  by_cases eq : o = p
  · subst o
    exact .inr ⟨pre, by simpa using after⟩
  · exact .inl (update_of_ne eq _ _)

omit [DecidableEq P] in
theorem Relabels.wakeup (pc : P → Pc) : Relabels pc (fun p => wake (pc p)) :=
  fun p => Pc.passive_wake (pc p)

omit [DecidableEq P] in
theorem Relabels.operating {pc : P → Pc} (relabels : Relabels pc pc') (p : P) (ws : List Nat) :
    pc' p = .operating ws ↔ pc p = .operating ws := by
  rcases relabels p with eq | ⟨pre, after⟩
  · rw [eq]
  · constructor <;> intro running <;> simp_all [Pc.passive]

omit [DecidableEq P] in
theorem Relabels.live {pc : P → Pc} (relabels : Relabels pc pc') (p : P) : (pc' p).live = (pc p).live := by
  rcases relabels p with eq | ⟨pre, after⟩
  · rw [eq]
  · rw [Pc.live_passive pre, Pc.live_passive after]

def Running (pc : P → Pc) (blockno : Nat) : Prop :=
  ∃ q ws, pc q = .operating ws ∧ blockno ∈ ws

def State.Logged (st : State P) (blockno : Nat) : Prop :=
  (∃ op ∈ st.ended, blockno ∈ op.2) ∨ Running st.pc blockno

omit [DecidableEq P] in
theorem Relabels.running {pc : P → Pc} (relabels : Relabels pc pc') (b : Nat) : Running pc' b ↔ Running pc b := by
  simp only [Running, relabels.operating]

theorem running_update (pc : P → Pc) (p : P) (t : Pc) (b : Nat) :
    Running (update pc p t) b ↔ (∃ ws, t = .operating ws ∧ b ∈ ws) ∨ ∃ o ws, o ≠ p ∧ pc o = .operating ws ∧ b ∈ ws := by
  constructor
  · rintro ⟨o, ws, running, mem⟩
    by_cases same : o = p
    · subst o
      exact .inl ⟨ws, by simpa using running, mem⟩
    · exact .inr ⟨o, ws, same, by simpa [same] using running, mem⟩
  · rintro (⟨ws, running, mem⟩ | ⟨o, ws, ne, running, mem⟩)
    · exact ⟨p, ws, by simpa using running, mem⟩
    · exact ⟨o, ws, by simpa [ne] using running, mem⟩

theorem running_iff (pc : P → Pc) (p : P) (b : Nat) : Running pc b ↔ (∃ ws, pc p = .operating ws ∧ b ∈ ws) ∨
        ∃ o ws, o ≠ p ∧ pc o = .operating ws ∧ b ∈ ws := by
  have split := running_update pc p (pc p) b
  rwa [update_eq_self] at split

section

variable [Fintype P] {s s' : State P} {p o : P} {g : Stage} {ws : List Nat} {pc : P → Pc} {a : Action P}

structure Open (st : State P) : Prop where
  flag : st.log.committing = false
  noCommit : ∀ q g, st.pc q ≠ .committing g
  outstanding : st.log.outstanding = ((∑ q, (st.pc q).live : Nat) : Int)
  distinct : st.log.lh.blocks.Nodup
  listed : ∀ blockno, blockno ∈ st.log.lh.blocks ↔ st.Logged blockno
  counted : ∀ q, st.begun.count q = (st.ended.map Prod.fst).count q + (st.pc q).live
  fresh : st.log.outstanding = 0 → st.log.lh.blocks = [] ∧ st.begun = [] ∧ st.ended = []

structure Committing (st : State P) (q : P) (g : Stage) : Prop where
  flag : st.log.committing = true
  here : st.pc q = .committing g
  others : ∀ other, other ≠ q → (st.pc other).passive = true
  outstanding : st.log.outstanding = 0
  distinct : st.log.lh.blocks.Nodup
  listed : g ≠ .eraseHead → g ≠ .finish → ∀ blockno, blockno ∈ st.log.lh.blocks ↔ ∃ op ∈ st.ended, blockno ∈ op.2
  erased : g = .eraseHead ∨ g = .finish → st.log.lh.blocks = []
  counted : ∀ q, st.begun.count q = (st.ended.map Prod.fst).count q

theorem Open.relabel (op : Open s) (relabels : Relabels s.pc pc) : Open { s with pc } where
  flag := op.flag
  noCommit := by
    intro p g running
    rcases relabels p with eq | ⟨_, after⟩
    · exact op.noCommit p g (eq ▸ running)
    · simp only at running
      simp [running, Pc.passive] at after
  outstanding := by
    simp only [op.outstanding, relabels.live]
  distinct := op.distinct
  listed := by
    intro b
    rw [op.listed b]
    simp only [State.Logged, relabels.running]
  counted := by
    intro p
    simp only [relabels.live, op.counted]
  fresh := op.fresh

section

variable (committing : Committing s p g)

include committing

omit [Fintype P] in
theorem Committing.relabel (relabels : Relabels s.pc pc) : Committing { s with pc } p g where
  flag := committing.flag
  here := by
    rcases relabels p with eq | ⟨pre, _⟩
    · simp only [eq]
      exact committing.here
    · rw [committing.here] at pre
      simp [Pc.passive] at pre
  others := by
    intro o ne
    rcases relabels o with eq | ⟨_, after⟩
    · simp only [eq]
      exact committing.others o ne
    · exact after
  outstanding := committing.outstanding
  distinct := committing.distinct
  listed := committing.listed
  erased := committing.erased
  counted := committing.counted

omit [Fintype P] in
theorem Committing.not_operating (o : P) (ws : List Nat) : s.pc o ≠ .operating ws := by
  intro running
  by_cases eq : o = p
  · subst o
    rw [committing.here] at running
    simp at running
  · have quiet := committing.others o eq
    simp [running, Pc.passive] at quiet

omit [Fintype P] in
theorem Committing.committer {g' : Stage} (running : s.pc o = .committing g') : o = p ∧ g' = g := by
  by_cases eq : o = p
  · subst o
    rw [committing.here] at running
    exact ⟨rfl, by simpa using running.symm⟩
  · have quiet := committing.others o eq
    simp [running, Pc.passive] at quiet

end

theorem Open.initial (s0 size : Nat) : Open (State.initial s0 size : State P) where
  flag := rfl
  noCommit := by simp [State.initial]
  outstanding := by simp [State.initial, Pc.live]
  distinct := by simp [State.initial, LogHeader.empty]
  listed := by simp [State.initial, LogHeader.empty, State.Logged, Running]
  counted := by simp [State.initial, Pc.live]
  fresh := by simp [State.initial, LogHeader.empty]

theorem LogHeader.mem_absorb (lh : LogHeader) (b o : Nat) (room : lh.n < LOGSIZE) :
    o ∈ (lh.absorb b room).blocks ↔ o ∈ lh.blocks ∨ o = b := by
  unfold LogHeader.absorb
  split
  · rename_i has
    constructor
    · exact .inl
    · rintro (old | rfl)
      · exact old
      · exact has
  · simp

theorem LogHeader.nodup_absorb (lh : LogHeader) (b : Nat) (room : lh.n < LOGSIZE)
    (nodup : lh.blocks.Nodup) : (lh.absorb b room).blocks.Nodup := by
  unfold LogHeader.absorb
  split
  · exact nodup
  · rename_i absent
    exact nodup_append.mpr ⟨nodup, by simp, by
      intro o mem last isLast eq
      simp only [mem_singleton] at isLast
      exact absent (isLast ▸ eq ▸ mem)⟩

theorem Open.outstanding_pos (op : Open s) (running : s.pc p = .operating ws) : 0 < s.log.outstanding := by
  have one : (s.pc p).live = 1 := by rw [running]; rfl
  have lt := Finset.single_le_sum (f := fun o => (s.pc o).live) (fun _ _ => Nat.zero_le _) (Finset.mem_univ p)
  rw [op.outstanding]
  simp only [one] at lt
  omega

theorem Open.enter (op : Open s) (at_ : s.pc p = .beginning) : Open ({ s with
      log := { s.log with outstanding := s.log.outstanding + 1 }
      begun := s.begun ++ [p] }.goto p (.operating [])) where
  flag := op.flag
  noCommit := by
    intro o g
    grind [op.noCommit o g]
  outstanding := by
    have sums := sum_update s.pc p (.operating []) Pc.live
    simp only [at_, Pc.live_beginning, Pc.live_operating, Nat.add_zero] at sums
    have n := op.outstanding
    simp only [State.goto]
    omega
  distinct := op.distinct
  listed := by
    intro b
    have pre := op.listed b
    simp only [State.Logged, running_iff s.pc p, at_] at pre
    simp only [State.goto, State.Logged, running_update]
    simpa using pre
  counted := by
    intro o
    have pre := op.counted o
    simp only [State.goto_pc]
    grind [State.goto, Pc.live]
  fresh := by
    intro none
    have n := op.outstanding
    simp only [State.goto] at none
    omega

section

variable (op : Open s) (running : s.pc p = .operating ws)

include op running

theorem Open.write (b : Nat) (room : s.log.lh.n < LOGSIZE) : Open ({ s with
      log := { s.log with lh := s.log.lh.absorb b room } }.goto p (.operating (insertBlock b ws))) where
  flag := op.flag
  noCommit := by
    intro o g
    grind [op.noCommit o g]
  outstanding := by
    have sums := sum_update s.pc p (.operating (insertBlock b ws)) Pc.live
    simp only [running, Pc.live_operating, Nat.add_right_cancel_iff] at sums
    simp only [State.goto, sums, op.outstanding]
  distinct := LogHeader.nodup_absorb _ _ room op.distinct
  listed := by
    intro o
    have before := op.listed o
    simp only [State.Logged, running_iff s.pc p, running, Pc.operating.injEq] at before
    simp only [State.goto, State.Logged, running_update, LogHeader.mem_absorb, before,
      Pc.operating.injEq, exists_eq_left', mem_insertBlock]
    exact iff_of_eq (by ac_rfl)
  counted := by
    intro o
    have before := op.counted o
    simp only [State.goto_pc]
    grind [State.goto, Pc.live]
  fresh := by
    intro none
    have pos := op.outstanding_pos running
    simp only [State.goto] at none
    omega

theorem Open.end_ (more : s.log.outstanding - 1 ≠ 0) : Open ({ s with
      log := { s.log with outstanding := s.log.outstanding - 1 }
      ended := s.ended ++ [(p, ws)] }.goto p .idle) where
  flag := op.flag
  noCommit := by
    intro o g
    grind [op.noCommit o g]
  outstanding := by
    have sums := sum_update s.pc p .idle Pc.live
    simp only [running, Pc.live_operating, Pc.live_idle, Nat.add_zero] at sums
    have n := op.outstanding
    simp only [State.goto]
    omega
  distinct := op.distinct
  listed := by
    intro o
    have before := op.listed o
    simp only [State.Logged, running_iff s.pc p, running, Pc.operating.injEq] at before
    simp only [State.goto, State.Logged, running_update, before, mem_append, mem_singleton]
    simp only [exists_eq_left', reduceCtorEq, false_and, exists_false, false_or, or_and_right,
      exists_or, exists_eq_left]
    exact iff_of_eq (by ac_rfl)
  counted := by
    intro o
    have before := op.counted o
    simp only [State.goto_pc]
    grind [State.goto, Pc.live]
  fresh := by
    intro none
    exact absurd none more

theorem Open.commit (last : s.log.outstanding - 1 = 0) : Committing ({ s with
      log := { s.log with outstanding := s.log.outstanding - 1, committing := true }
      ended := s.ended ++ [(p, ws)] }.goto p (.committing .writeLog))
      p .writeLog := by
  have sums := sum_update s.pc p .idle Pc.live
  simp only [running, Pc.live_operating, Pc.live_idle, Nat.add_zero] at sums
  have total : ∑ o, (update s.pc p .idle o).live = 0 := by
    have n := op.outstanding
    omega
  have quiet : ∀ o, o ≠ p → (s.pc o).live = 0 := by
    intro o ne
    have zero := (Finset.sum_eq_zero_iff.mp total) o (Finset.mem_univ o)
    simpa [ne] using zero
  have passive : ∀ o, o ≠ p → (s.pc o).passive = true := by
    intro o ne
    have zero := quiet o ne
    have noCommit := op.noCommit o
    cases at_ : s.pc o <;> simp_all [Pc.passive]
  refine ⟨rfl, by simp [State.goto], ?_, last, op.distinct, ?_, by simp, ?_⟩
  · intro o ne
    simpa [State.goto, ne] using passive o ne
  · intro _ _ b
    have before := op.listed b
    have alone : ¬∃ o ws, o ≠ p ∧ s.pc o = .operating ws ∧ b ∈ ws := by
      rintro ⟨o, ws', ne, busy, _⟩
      have zero := quiet o ne
      simp [busy] at zero
    simp only [State.Logged, running_iff s.pc p, running, Pc.operating.injEq, alone, or_false] at before
    simp only [State.goto, before, mem_append, mem_singleton, exists_eq_left', or_and_right, exists_or, exists_eq_left]
  · intro o
    have before := op.counted o
    by_cases same : o = p
    · subst o
      simp only [running, Pc.live_operating] at before
      simp [State.goto, before]
    · have ne : p ≠ o := fun eq => same eq.symm
      simp [State.goto, before, quiet o same, ne]

end

omit [Fintype P] in
theorem Committing.advance {next : Stage} (committing : Committing s p g)
    (listed : next ≠ .eraseHead → next ≠ .finish → g ≠ .eraseHead ∧ g ≠ .finish)
    (erased : next = .eraseHead ∨ next = .finish → s.log.lh.blocks = []) :
    Committing (s.goto p (.committing next)) p next where
  flag := committing.flag
  here := by simp [State.goto]
  others := by
    intro o ne
    simpa [State.goto, ne] using committing.others o ne
  outstanding := committing.outstanding
  distinct := committing.distinct
  listed := by
    intro notErase notFinish
    obtain ⟨stageErase, stageFinish⟩ := listed notErase notFinish
    exact committing.listed stageErase stageFinish
  erased := erased
  counted := committing.counted

omit [Fintype P] in
theorem Committing.clear (committing : Committing s p .clear) :
    Committing ({ s with log := s.log.cleared }.goto p (.committing .eraseHead)) p .eraseHead where
  flag := committing.flag
  here := by simp [State.goto]
  others := by
    intro o ne
    simpa [State.goto, ne] using committing.others o ne
  outstanding := committing.outstanding
  distinct := by simp [State.goto, Log.cleared, LogHeader.empty]
  listed := by simp
  erased := by simp [State.goto, Log.cleared, LogHeader.empty]
  counted := committing.counted

theorem Committing.finish (committing : Committing s p .finish) :
    Open ({ s with log := s.log.finish, begun := [], ended := [] }.goto p .idle) := by
  have empty := committing.erased (.inr rfl)
  have passive : ∀ o, (update s.pc p .idle o).passive = true := by
    intro o
    by_cases eq : o = p
    · simp [eq, Pc.passive]
    · simpa [eq] using committing.others o eq
  have quiet : ∀ o ws, update s.pc p .idle o ≠ .operating ws := by
    intro o ws running
    have out := passive o
    rw [running] at out
    simp [Pc.passive] at out
  refine ⟨rfl, ?_, ?_, committing.distinct, ?_, ?_, fun _ => ⟨empty, rfl, rfl⟩⟩
  · intro o g running
    have out := passive o
    simp only [State.goto] at running
    rw [running] at out
    simp [Pc.passive] at out
  · have idle : ∑ o, (update s.pc p .idle o).live = 0 :=
      Finset.sum_eq_zero fun o _ => Pc.live_passive (passive o)
    simp only [State.goto, Log.finish, committing.outstanding]
    omega
  · intro b
    simp only [State.goto, State.Logged, Log.finish, empty, Running]
    simp [quiet]
  · intro o
    simp [State.goto, Pc.live_passive (passive o)]

def Inv (st : State P) : Prop := Open st ∨ ∃ q g, Committing st q g

theorem Inv.relabel (invariant : Inv s) (relabels : Relabels s.pc pc) : Inv { s with pc } := by
  rcases invariant with op | ⟨committer, g, committing⟩
  · exact .inl (op.relabel relabels)
  · exact .inr ⟨committer, g, committing.relabel relabels⟩

theorem commitStep_inv (committing : Committing s p g) : Inv (commitStep s p g) := by
  cases g with
  | writeLog =>
    refine .inr ⟨p, _, committing.advance (by simp) ?_⟩
    split
    · simp
    · rename_i empty
      exact fun _ => length_eq_zero_iff.mp (by simpa [LogHeader.n] using empty)
  | writeHead => exact .inr ⟨p, _, committing.advance (by simp) (by simp)⟩
  | installTrans => exact .inr ⟨p, _, committing.advance (by simp) (by simp)⟩
  | clear => exact .inr ⟨p, _, committing.clear⟩
  | eraseHead =>
    exact .inr ⟨p, _, committing.advance (by simp) (fun _ => committing.erased (.inl rfl))⟩
  | finish => exact .inl (committing.finish.relabel (Relabels.wakeup _))

theorem next_inv (invariant : Inv s) (ran : Next s a s') : Inv s' := by
  obtain ⟨p, _, at_, rfl⟩ | ⟨p, _, at_, _, rfl⟩ | ⟨p, _, at_, admitted, rfl⟩ | ⟨p, b, ws, room, _, running, _, rfl⟩ |
    ⟨p, ws, _, running, _, more, rfl⟩ | ⟨p, ws, _, running, _, last, rfl⟩ | ⟨p, g, _, running, rfl⟩ := next_cases ran
  · exact invariant.relabel (Relabels.goto (by simp [at_, Pc.passive]) rfl)
  · exact invariant.relabel (Relabels.goto (by simp [at_, Pc.passive]) rfl)
  · rcases invariant with op | ⟨committer, g, committing⟩
    · exact .inl (op.enter at_)
    · simp [Log.admits, committing.flag] at admitted
  · rcases invariant with op | ⟨committer, g, committing⟩
    · exact .inl (op.write running b room)
    · exact absurd running (committing.not_operating p ws)
  · rcases invariant with op | ⟨committer, g, committing⟩
    · exact .inl ((op.end_ running more).relabel (Relabels.wakeup _))
    · exact absurd running (committing.not_operating p ws)
  · rcases invariant with op | ⟨committer, g, committing⟩
    · exact .inr ⟨p, .writeLog, op.commit running last⟩
    · exact absurd running (committing.not_operating p ws)
  · rcases invariant with op | ⟨committer, g', committing⟩
    · exact absurd running (op.noCommit p g)
    · obtain ⟨rfl, rfl⟩ := committing.committer running
      exact commitStep_inv committing

omit [Fintype P] in
theorem Committing.begin_sleeps (committing : Committing s p g)
    (ran : Next s (.begin o) s') : s' = s.goto o .sleeping := by
  rcases next_cases ran with ⟨_, same, _⟩ | ⟨_, same, _, _, rfl⟩ | ⟨_, same, _, admitted, _⟩ |
    ⟨_, _, _, _, same, _⟩ | ⟨_, _, same, _⟩ | ⟨_, _, same, _⟩ | ⟨_, _, same, _⟩
  all_goals cases same
  · rfl
  · simp [Log.admits, committing.flag] at admitted

omit [Fintype P] in
theorem Committing.header_kept (committing : Committing s p g)
    (ran : Next s a s') (notClear : g ≠ .clear) : s'.log.lh = s.log.lh := by
  obtain ⟨_, _, _, rfl⟩ | ⟨_, _, _, _, rfl⟩ | ⟨_, _, _, _, rfl⟩ |
    ⟨o, _, ws, _, _, running, _, rfl⟩ | ⟨_, _, _, _, _, _, rfl⟩ | ⟨_, _, _, _, _, _, rfl⟩ |
    ⟨o, g', _, running, rfl⟩ := next_cases ran
  · rfl
  · rfl
  · rfl
  · exact absurd running (committing.not_operating o ws)
  · rfl
  · rfl
  · obtain ⟨rfl, rfl⟩ := committing.committer running
    cases g' with
    | clear => exact absurd rfl notClear
    | _ => rfl

theorem reachable_inv {allowed : State P → Action P → Prop} {s0 size : Nat}
    (run : Reachable Next allowed (State.initial s0 size) s) : Inv s :=
  run.invariant Inv (.inl (Open.initial s0 size)) fun _ _ _ invariant _ => next_inv invariant

end

end Xv6.LogProtocol
