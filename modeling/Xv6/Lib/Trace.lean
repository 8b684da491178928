import Xv6.Lib.Exec

/-! The operations a run makes, in order, and programs whose operations follow a protocol: a
machine over stages that says which operation is allowed when. -/

namespace Exec

open List

/-- `calls` says which programs are one call of an operation, `view` is the part of the state that
nothing but operations may touch, and `step` is the protocol, none for an operation out of
place. -/
structure Protocol (σ ε Op V Stage : Type) where
  calls : {α : Type} → Op → Prog σ ε α → Prop
  view : σ → V
  step : Stage → Op → Option Stage

section

variable {σ τ ε Op V W Stage α β : Type} {prog : Prog σ ε α} {val : α} {ops : List Op}

/-- The run of a program from the first state returns the value in the second state and makes
the operations of the list; all its other steps leave the view as it is. -/
inductive Performs (proto : Protocol σ ε Op V Stage) :
    {α : Type} → Prog σ ε α → σ → α → σ → List Op → Prop
  | pure {α : Type} (v : α) (st : σ) : Performs proto (Pure.pure v) st v st []
  | get (st : σ) : Performs proto Prog.get st st st []
  | modify (change : σ → σ) (st : σ)
      (apart : proto.view (change st) = proto.view st) : Performs proto (Prog.modify change) st () (change st) []
  | call {α : Type} {op : Op} {program : Prog σ ε α} {st st' : σ} {v : α}
      (called : proto.calls op program) (ret : program st = .ok v st') : Performs proto program st v st' [op]
  | bind {α β : Type} {first : Prog σ ε α} {next : α → Prog σ ε β} {st middle st' : σ}
      {v : α} {v' : β} {before after : List Op} (start : Performs proto first st v middle before)
      (rest : Performs proto (next v) middle v' st' after) : Performs proto (first >>= next) st v' st' (before ++ after)

variable {proto : Protocol σ ε Op V Stage}

/-- What operations keep from stage to stage, and what only depends on the view, holds along
every run whose operations follow the protocol. -/
theorem Performs.invariant {good : Stage → σ → Prop} {s s' : σ} {g g' : Stage} (made : Performs proto prog s val s' ops)
    (apart : ∀ {g s s'}, proto.view s' = proto.view s → good g s → good g s')
    (kept : ∀ {α : Type} {op : Op} {prog : Prog σ ε α} {g g' : Stage} {s s' : σ}
      {val : α}, proto.calls op prog → prog s = .ok val s' → proto.step g op = some g' → good g s → good g' s')
    (followed : ops.foldlM proto.step g = some g') (initial : good g s) : good g' s' := by
  induction made generalizing g g' with
  | pure val s =>
    cases followed
    exact initial
  | get s =>
    cases followed
    exact initial
  | modify change s eq =>
    cases followed
    exact apart eq initial
  | call called ret =>
    rw [foldlM_cons, Option.bind_eq_bind, Option.bind_eq_some_iff] at followed
    obtain ⟨next, allowed, done⟩ := followed
    cases done
    exact kept called ret allowed initial
  | bind s0 rest fst snd =>
    rw [foldlM_append, Option.bind_eq_bind, Option.bind_eq_some_iff] at followed
    obtain ⟨middle, before, after⟩ := followed
    exact snd after (fst before initial)

/-- The operations on a part of a larger state are operations on the whole. -/
structure Zooms (proto : Protocol σ ε Op V Stage) (outer : Protocol τ ε Op W Stage) (part : τ → σ)
    (replace : τ → σ → τ) : Prop where
  part_replace : ∀ whole inner, part (replace whole inner) = inner
  replace_part : ∀ whole, replace whole (part whole) = whole
  replace_replace : ∀ whole inner inner', replace (replace whole inner) inner' = replace whole inner'
  lifts : ∀ {α : Type} {op : Op} {program : Prog σ ε α}, proto.calls op program →
    outer.calls op (Prog.zoom part replace program)
  apart : ∀ whole inner, proto.view inner = proto.view (part whole) →
    outer.view (replace whole inner) = outer.view whole

theorem Performs.zoom {outer : Protocol τ ε Op W Stage} {part : τ → σ} {replace : τ → σ → τ}
    (zooms : Zooms proto outer part replace) {whole : τ} {inner : σ}
    (made : Performs proto prog (part whole) val inner ops) :
    Performs outer (Prog.zoom part replace prog) whole val (replace whole inner) ops := by
  generalize start : part whole = s at made
  induction made generalizing whole with
  | pure val s =>
    have eq : (Prog.zoom part replace (Pure.pure val) : Prog τ ε _) = Pure.pure val := by
      funext whole
      exact congrArg (Outcome.ok val) (zooms.replace_part whole)
    rw [eq, ← start, zooms.replace_part]
    exact .pure val whole
  | get s =>
    have eq : (Prog.zoom part replace Prog.get : Prog τ ε σ) = Prog.get >>= fun whole => Pure.pure (part whole) := by
      funext whole
      exact congrArg (Outcome.ok (part whole)) (zooms.replace_part whole)
    rw [eq, ← start, zooms.replace_part]
    exact .bind (.get whole) (.pure (part whole) whole)
  | modify change s eq =>
    rw [← start]
    rw [← start] at eq
    exact .modify (fun whole => replace whole (change (part whole))) whole (zooms.apart whole _ eq)
  | call called ret =>
    refine .call (zooms.lifts called) ?_
    rw [Prog.zoom, start, ret]
  | bind fst rest pre after =>
    rename_i α β prog next s middle s' val val' ops ops'
    have eq : (Prog.zoom part replace (prog >>= next) : Prog τ ε β) =
        Prog.zoom part replace prog >>= fun val => Prog.zoom part replace (next val) := by
      funext whole
      change Prog.zoom part replace (Prog.andThen prog next) whole = Prog.andThen _ _ whole
      simp only [Prog.zoom, Prog.andThen]
      cases prog (part whole) with
      | stop reason => rfl
      | ok val inner =>
        dsimp only
        rw [zooms.part_replace]
        cases next val inner with
        | stop reason => rfl
        | ok val' inner' => exact congrArg (Outcome.ok val') (zooms.replace_replace _ _ _).symm
    rw [eq, ← zooms.replace_replace whole middle s']
    exact .bind (pre start) (after (zooms.part_replace whole middle))

end

section

variable {σ τ ε Op V W Stage α β : Type} {proto : Protocol σ ε Op V Stage} {g : Stage}
  {fst : Prog σ ε α} {next : α → Prog σ ε β} {s : σ} {middle : α → Stage} {condition : Prop}

def FollowsFrom (proto : Protocol σ ε Op V Stage) (g : Stage) (program : Prog σ ε α)
    (st : σ) (final : α → Stage := fun _ => g) : Prop :=
  Holds program st (fun v st' => ∃ ops, Performs proto program st v st' ops ∧
    ops.foldlM proto.step g = some (final v)) fun _ => True

def Follows (proto : Protocol σ ε Op V Stage) (g : Stage) (program : Prog σ ε α)
    (final : α → Stage := fun _ => g) : Prop :=
  ∀ st, FollowsFrom proto g program st final

theorem follows_pure {final : α → Stage} (val : α) (here : g = final val) : Follows proto g (pure val) final := fun s =>
  .pure ⟨[], .pure val s, congrArg some here⟩

theorem Follows.pure (val : α) : Follows proto g (Pure.pure val) :=
  follows_pure val rfl

theorem follows_halt (reason : ε) (final : α → Stage) :
    Follows proto g (Prog.halt reason) final := fun _ => holds_halt.mpr trivial

theorem follows_get : Follows proto g Prog.get := fun s =>
  holds_get.mpr ⟨[], .get s, rfl⟩

theorem followsFrom_modify {change : σ → σ} (apart : proto.view (change s) = proto.view s) :
    FollowsFrom proto g (Prog.modify change) s :=
  holds_modify.mpr ⟨[], .modify change s apart, rfl⟩

theorem follows_modify {change : σ → σ} (apart : ∀ s, proto.view (change s) = proto.view s) :
    Follows proto g (Prog.modify change) := fun s => followsFrom_modify (apart s)

theorem follows_call {op : Op} {prog : Prog σ ε α} {g' : Stage}
    (called : proto.calls op prog) (allowed : proto.step g op = some g') : Follows proto g prog fun _ => g' := by
  intro s
  unfold FollowsFrom Holds
  cases outcome : prog s with
  | stop reason => trivial
  | ok val s' =>
    refine ⟨[op], .call called outcome, ?_⟩
    rw [foldlM_cons, allowed]
    rfl

theorem FollowsFrom.bind {final : β → Stage} {post : α → σ → Prop}
    (s0 : FollowsFrom proto g fst s middle) (leaves : Holds fst s post)
    (rest : ∀ val s', post val s' → FollowsFrom proto (middle val) (next val) s' final) :
    FollowsFrom proto g (fst >>= next) s final := by
  rw [FollowsFrom, holds_bind]
  refine (s0.total leaves).conseq ?_
  rintro val s' ⟨⟨pre, made, run⟩, here⟩
  refine (rest val s' here).conseq ?_
  rintro val' s'' ⟨after, made', run'⟩
  refine ⟨pre ++ after, .bind made made', ?_⟩
  rw [foldlM_append, run]
  exact run'

theorem FollowsFrom.andThen {final : β → Stage} (s0 : FollowsFrom proto g fst s middle)
    (rest : ∀ val, Follows proto (middle val) (next val) final) : FollowsFrom proto g (fst >>= next) s final := by
  have leaves : Holds fst s fun _ _ => True :=
    .trivial (fun _ _ => trivial) fun _ => trivial
  exact s0.bind leaves fun val s' _ => rest val s'

theorem Follows.bind {final : β → Stage} (s0 : Follows proto g fst middle)
    (rest : ∀ val, Follows proto (middle val) (next val) final) : Follows proto g (fst >>= next) final := fun s =>
  (s0 s).andThen rest

variable {yes no : Prog σ ε α}

theorem FollowsFrom.ite [Decidable condition] {final : α → Stage} (left : condition → FollowsFrom proto g yes s final)
    (right : ¬condition → FollowsFrom proto g no s final) :
    FollowsFrom proto g (if condition then yes else no) s final := by
  split
  · exact left ‹_›
  · exact right ‹_›

theorem Follows.ite [Decidable condition] {final : α → Stage} (left : Follows proto g yes final)
    (right : Follows proto g no final) : Follows proto g (if condition then yes else no) final := by
  split
  · exact left
  · exact right

theorem Follows.onlyIf [Decidable condition] {prog : Prog σ ε Unit} (kept : Follows proto g prog) :
    Follows proto g (Prog.onlyIf condition prog) :=
  Follows.ite kept (.pure ())

theorem Follows.upto {n : Nat} {body : Nat → Prog σ ε Unit} (kept : ∀ i, Follows proto g (body i)) :
    Follows proto g (Prog.upto n body) := by
  induction n with
  | zero => exact .pure ()
  | succ n ih => exact ih.bind fun _ => kept n

theorem Follows.each {ι : Type} {items : List ι} {body : ι → Prog σ ε Unit}
    (kept : ∀ item, Follows proto g (body item)) : Follows proto g (Prog.each items body) := by
  induction items with
  | nil => exact .pure ()
  | cons item rest ih => exact (kept item).bind fun _ => ih

theorem FollowsFrom.zoom {outer : Protocol τ ε Op W Stage} {part : τ → σ} {replace : τ → σ → τ}
    (zooms : Zooms proto outer part replace) (alike : outer.step = proto.step) {prog : Prog σ ε α} {final : α → Stage} {whole : τ}
    (followed : FollowsFrom proto g prog (part whole) final) :
    FollowsFrom outer g (Prog.zoom part replace prog) whole final := by
  rw [FollowsFrom, holds_zoom]
  refine followed.conseq ?_
  rintro val inner ⟨ops, made, run⟩
  refine ⟨ops, made.zoom zooms, ?_⟩
  rw [alike]
  exact run

end

end Exec
