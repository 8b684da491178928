import Mathlib.Logic.Function.Basic

/-! Sequential programs over an explicit state that may stop before returning: a
state-passing monad, the statement that one run ends well, and its proof rules. -/

namespace Exec

inductive Outcome (σ ε α : Type) where
  | ok (v : α) (st : σ)
  | stop (reason : ε)

def Outcome.state? {σ ε α : Type} : Outcome σ ε α → Option σ
  | .ok _ st => some st
  | .stop _ => none

variable {σ ε α : Type}

theorem Outcome.of_state? {outcome : Outcome σ ε α} {s : σ} (returned : outcome.state? = some s) :
    ∃ val, outcome = .ok val s := by
  cases outcome with
  | ok val reached =>
    cases returned
    exact ⟨val, rfl⟩
  | stop reason => cases returned

def Outcome.reason? {σ ε α : Type} : Outcome σ ε α → Option ε
  | .ok _ _ => none
  | .stop reason => some reason

def Outcome.check {σ ε α : Type} (test : α → σ → Bool) : Outcome σ ε α → Bool
  | .ok v st => test v st
  | .stop _ => false

theorem Outcome.of_check {test : α → σ → Bool} {outcome : Outcome σ ε α} (checked : outcome.check test = true) :
    ∃ val st, outcome = .ok val st ∧ test val st = true := by
  cases outcome with
  | ok val st => exact ⟨val, st, rfl, checked⟩
  | stop reason => cases checked

def Prog (σ ε α : Type) := σ → Outcome σ ε α

namespace Prog

variable {σ τ ε α β : Type} {fst : Prog σ ε α} {next : α → Prog σ ε β} {s : σ}

def ret (v : α) : Prog σ ε α := fun st => .ok v st

def andThen (first : Prog σ ε α) (next : α → Prog σ ε β) : Prog σ ε β := fun st =>
  match first st with
  | .ok v st' => next v st'
  | .stop reason => .stop reason

instance : Monad (Prog σ ε) where
  pure := ret
  bind := andThen

def get : Prog σ ε σ := fun st => .ok st st

def modify (change : σ → σ) : Prog σ ε Unit := fun st => .ok () (change st)

def halt (reason : ε) : Prog σ ε α := fun _ => .stop reason

def zoom (view : τ → σ) (replace : τ → σ → τ) (program : Prog σ ε α) : Prog τ ε α := fun st =>
  match program (view st) with
  | .ok v inner => .ok v (replace st inner)
  | .stop reason => .stop reason

def onlyIf (condition : Prop) [Decidable condition] (program : Prog σ ε Unit) : Prog σ ε Unit :=
  if condition then program else ret ()

def upto : Nat → (Nat → Prog σ ε Unit) → Prog σ ε Unit
  | 0, _ => ret ()
  | count + 1, body => andThen (upto count body) fun _ => body count

def each {ι : Type} : List ι → (ι → Prog σ ε Unit) → Prog σ ε Unit
  | [], _ => ret ()
  | item :: rest, body => andThen (body item) fun _ => each rest body

theorem bind_assoc {γ : Type} (fst : Prog σ ε α) (next : α → Prog σ ε β) (last : β → Prog σ ε γ) :
    (fst >>= next) >>= last = fst >>= fun val => next val >>= last := by
  funext s
  change andThen (andThen fst next) last s = andThen fst (fun val => andThen (next val) last) s
  unfold andThen
  cases fst s <;> rfl

theorem pure_bind (val : α) (next : α → Prog σ ε β) : (pure val : Prog σ ε α) >>= next = next val :=
  rfl

theorem bind_congr {next' : α → Prog σ ε β} (eq : ∀ val s', fst s = .ok val s' → next val s' = next' val s') :
    (fst >>= next) s = (fst >>= next') s := by
  change andThen fst next s = andThen fst next' s
  unfold andThen
  cases outcome : fst s with
  | ok val s' => exact eq val s' outcome
  | stop reason => rfl

end Prog

/-- A run from `st` either returns with `post` or stops for a reason in `stops`, any by default. -/
def Holds {σ ε α : Type} (program : Prog σ ε α) (st : σ) (post : α → σ → Prop)
    (stops : ε → Prop := fun _ => True) : Prop :=
  match program st with
  | .ok v st' => post v st'
  | .stop reason => stops reason

section

variable {σ τ ε α β ι : Type} {s s' : σ} {stops stops' : ε → Prop} {val : α} {reason : ε}
  {fst : Prog σ ε α} {next : α → Prog σ ε β} {condition : Prop} {post' : α → σ → Prop}

@[simp] theorem holds_pure {post : α → σ → Prop} : Holds (pure val) s post stops ↔ post val s := Iff.rfl

theorem Holds.pure {post : α → σ → Prop} (here : post val s) : Holds (Pure.pure val) s post stops := here

@[simp] theorem holds_ret {post : α → σ → Prop} : Holds (Prog.ret val) s post stops ↔ post val s := Iff.rfl

@[simp] theorem holds_get {post : σ → σ → Prop} : Holds Prog.get s post stops ↔ post s s := Iff.rfl

@[simp] theorem holds_modify {change : σ → σ} {post : Unit → σ → Prop} :
    Holds (Prog.modify change) s post stops ↔ post () (change s) := Iff.rfl

@[simp] theorem holds_halt {post : α → σ → Prop} : Holds (Prog.halt reason) s post stops ↔ stops reason := Iff.rfl

@[simp] theorem holds_andThen {post : β → σ → Prop} : Holds (Prog.andThen fst next) s post stops ↔
      Holds fst s (fun val s' => Holds (next val) s' post stops) stops := by
  unfold Holds Prog.andThen
  cases fst s <;> rfl

@[simp] theorem holds_bind {post : β → σ → Prop} : Holds (fst >>= next) s post stops ↔
      Holds fst s (fun val s' => Holds (next val) s' post stops) stops :=
  holds_andThen

@[simp] theorem holds_zoom {view : τ → σ} {replace : τ → σ → τ} {prog : Prog σ ε α} {outer : τ} {post : α → τ → Prop} :
    Holds (Prog.zoom view replace prog) outer post stops ↔
      Holds prog (view outer) (fun val inner => post val (replace outer inner)) stops := by
  unfold Holds Prog.zoom
  cases prog (view outer) <;> rfl

theorem holds_ite [Decidable condition] {yes no : Prog σ ε α} {post : α → σ → Prop} :
    Holds (if condition then yes else no) s post stops ↔
      (condition → Holds yes s post stops) ∧ (¬condition → Holds no s post stops) := by
  by_cases ran : condition <;> simp [ran]

theorem holds_onlyIf [Decidable condition] {prog : Prog σ ε Unit} {post : Unit → σ → Prop} :
    Holds (Prog.onlyIf condition prog) s post stops ↔
      (condition → Holds prog s post stops) ∧ (¬condition → post () s) := by
  unfold Prog.onlyIf
  rw [holds_ite, holds_ret]

theorem Holds.mono {prog : Prog σ ε α} {post : α → σ → Prop} (run : Holds prog s post stops)
    (returns : ∀ val s', post val s' → post' val s')
    (halts : ∀ reason, stops reason → stops' reason) : Holds prog s post' stops' := by
  unfold Holds at *
  cases outcome : prog s with
  | ok val s' =>
    rw [outcome] at run
    exact returns val s' run
  | stop reason =>
    rw [outcome] at run
    exact halts reason run

theorem Holds.conseq {prog : Prog σ ε α} {post : α → σ → Prop} (run : Holds prog s post stops)
    (returns : ∀ val s', post val s' → post' val s') : Holds prog s post' stops :=
  run.mono returns (fun _ reason => reason)

theorem Holds.bind {post : α → σ → Prop} {post' : β → σ → Prop} (run : Holds fst s post stops)
    (rest : ∀ val s', post val s' → Holds (next val) s' post' stops) : Holds (fst >>= next) s post' stops :=
  holds_bind.mpr (run.conseq rest)

theorem Holds.trivial {prog : Prog σ ε α} {post : α → σ → Prop}
    (returns : ∀ val s', post val s') (halts : ∀ reason, stops reason) : Holds prog s post stops := by
  unfold Holds
  cases prog s with
  | ok val s' => exact returns val s'
  | stop reason => exact halts reason

theorem Holds.and {prog : Prog σ ε α} {post : α → σ → Prop} (left : Holds prog s post stops)
    (right : Holds prog s post' stops') :
    Holds prog s (fun val s' => post val s' ∧ post' val s') (fun reason => stops reason ∧ stops' reason) := by
  unfold Holds at *
  cases outcome : prog s with
  | ok val s' =>
    rw [outcome] at left right
    exact ⟨left, right⟩
  | stop reason =>
    rw [outcome] at left right
    exact ⟨left, right⟩

theorem Holds.total {prog : Prog σ ε α} {post post' : α → σ → Prop} (spec : Holds prog s post)
    (returns : Holds prog s post' stops) : Holds prog s (fun val s' => post val s' ∧ post' val s') stops :=
  (spec.and returns).mono (fun _ _ done => done) fun _ both => both.2

theorem Holds.upto {n : Nat} {body : Nat → Prog σ ε Unit} (kept : Nat → σ → Prop) (initial : kept 0 s)
    (round : ∀ i s, i < n → kept i s → Holds (body i) s (fun _ => kept (i + 1)) stops) :
    Holds (Prog.upto n body) s (fun _ => kept n) stops := by
  induction n with
  | zero => exact initial
  | succ n ih =>
    rw [Prog.upto, holds_andThen]
    refine (ih fun i s lt => round i s (by omega)).conseq ?_
    exact fun _ s' holds => round n s' (by omega) holds

theorem Holds.each {items : List ι} {body : ι → Prog σ ε Unit} (kept : σ → Prop) (initial : kept s)
    (round : ∀ item s, kept s → Holds (body item) s (fun _ => kept) stops) :
    Holds (Prog.each items body) s (fun _ => kept) stops := by
  induction items generalizing s with
  | nil => exact initial
  | cons item rest ih =>
    rw [Prog.each, holds_andThen]
    exact (round item s initial).conseq fun _ s' holds => ih holds

theorem Holds.each_left {items : List ι} {body : ι → Prog σ ε Unit} (kept : List ι → σ → Prop)
    (initial : kept items s) (round : ∀ item rest s, kept (item :: rest) s →
      Holds (body item) s (fun _ => kept rest) stops) : Holds (Prog.each items body) s (fun _ => kept []) stops := by
  induction items generalizing s with
  | nil => exact initial
  | cons item rest ih =>
    rw [Prog.each, holds_andThen]
    exact (round item rest s initial).conseq fun _ s' holds => ih holds

theorem Holds.of_outcome {prog : Prog σ ε α} {post : α → σ → Prop}
    (returns : ∀ val s', prog s = .ok val s' → post val s')
    (halts : ∀ reason, prog s = .stop reason → stops reason) : Holds prog s post stops := by
  unfold Holds
  cases outcome : prog s with
  | ok val s' => exact returns val s' outcome
  | stop reason => exact halts reason outcome

theorem Holds.of_ok {prog : Prog σ ε α} {post : α → σ → Prop} (run : Holds prog s post stops)
    (returned : prog s = .ok val s') : post val s' := by
  unfold Holds at run
  rw [returned] at run
  exact run

theorem Holds.returns {prog : Prog σ ε α} {post : α → σ → Prop} (run : Holds prog s post fun _ => False) :
    ∃ val s', prog s = .ok val s' ∧ post val s' := by
  unfold Holds at run
  cases outcome : prog s with
  | ok val s' =>
    rw [outcome] at run
    exact ⟨val, s', rfl, run⟩
  | stop reason =>
    rw [outcome] at run
    exact run.elim

theorem Holds.of_state? {prog : Prog σ ε α} {post : α → σ → Prop} (run : Holds prog s post stops)
    (returned : (prog s).state? = some s') : ∃ val, post val s' := by
  obtain ⟨val, done⟩ := Outcome.of_state? returned
  exact ⟨val, run.of_ok done⟩

theorem Holds.final {prog : Prog σ ε α} {post : σ → Prop}
    (run : Holds prog s (fun _ => post) stops) (returned : (prog s).state? = some s') : post s' := by
  obtain ⟨_, done⟩ := run.of_state? returned
  exact done

theorem Holds.of_stop {prog : Prog σ ε α} {post : α → σ → Prop} (run : Holds prog s post stops)
    (stopped : prog s = .stop reason) : stops reason := by
  unfold Holds at run
  rw [stopped] at run
  exact run

end

-- Programs are reasoned about through these rules; unfolding the statement would run them.
attribute [irreducible] Holds

end Exec
