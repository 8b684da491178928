import Xv6.Lib.Exec
import Mathlib.Algebra.Group.Basic

/-! Programs that leave a view of their state as it is, or move a measure of it by an amount
that depends only on the value they return, and how such programs compose. -/

namespace Exec

open Prog

section

variable {σ ε α β V W : Type} {view : σ → V} {condition : Prop}

def Keeps (view : σ → V) (program : Prog σ ε α) : Prop :=
  ∀ st, Holds program st (fun _ st' => view st' = view st) fun _ => True

theorem keeps_pure (val : α) : Keeps view (pure val : Prog σ ε α) := fun _ => .pure rfl

theorem keeps_halt (reason : ε) : Keeps view (halt reason : Prog σ ε α) := fun _ =>
  holds_halt.mpr trivial

theorem keeps_get : Keeps view (get : Prog σ ε σ) := fun _ => holds_get.mpr rfl

theorem Keeps.bind {fst : Prog σ ε α} {next : α → Prog σ ε β} (s0 : Keeps view fst)
    (rest : ∀ val, Keeps view (next val)) : Keeps view (fst >>= next) := by
  intro s
  rw [holds_bind]
  refine (s0 s).conseq fun val s' eq => ?_
  exact (rest val s').conseq fun _ _ after => after.trans eq

theorem Keeps.ite [Decidable condition] {yes no : Prog σ ε α} (left : Keeps view yes)
    (right : Keeps view no) : Keeps view (if condition then yes else no) := by
  split
  · exact left
  · exact right

theorem Keeps.onlyIf [Decidable condition] {prog : Prog σ ε Unit} (kept : Keeps view prog) :
    Keeps view (onlyIf condition prog) :=
  Keeps.ite kept (keeps_pure ())

theorem Keeps.upto {n : Nat} {body : Nat → Prog σ ε Unit} (kept : ∀ i, Keeps view (body i)) :
    Keeps view (upto n body) := by
  intro s
  refine Holds.upto (fun _ s' => view s' = view s) rfl fun i s' _ eq => ?_
  exact (kept i s').conseq fun _ _ after => after.trans eq

theorem Keeps.map {prog : Prog σ ε α} (kept : Keeps view prog) (project : V → W) :
    Keeps (fun s => project (view s)) prog := fun s =>
  (kept s).conseq fun _ _ eq => congrArg project eq

end

section

variable {σ ε α β M : Type} [AddCommGroup M] {measure : σ → M} {prog fst : Prog σ ε α} {next : α → Prog σ ε β}

def Shifts (measure : σ → M) (program : Prog σ ε α) (delta : α → M) : Prop :=
  ∀ st, Holds program st (fun value st' => measure st' = measure st + delta value) fun _ => True

theorem shifts_pure {val : α} {delta : α → M} (none : delta val = 0) :
    Shifts measure (pure val : Prog σ ε α) delta := fun _ => .pure (by rw [none, add_zero])

theorem shifts_halt (reason : ε) (delta : α → M) :
    Shifts measure (halt reason : Prog σ ε α) delta := fun _ => holds_halt.mpr trivial

theorem Keeps.shifts (kept : Keeps measure prog) : Shifts measure prog fun _ => 0 := fun s =>
  (kept s).conseq fun _ _ eq => by rw [eq, add_zero]

theorem Shifts.keeps (moved : Shifts measure prog fun _ => 0) : Keeps measure prog := fun s =>
  (moved s).conseq fun _ _ eq => by rw [eq, add_zero]

theorem Shifts.congr {delta delta' : α → M} (moved : Shifts measure prog delta)
    (eq : ∀ val, delta val = delta' val) : Shifts measure prog delta' := fun s =>
  (moved s).conseq fun val _ shift => by rw [shift, eq]

theorem Shifts.bind {amount : α → M} {delta : β → M} (s0 : Shifts measure fst amount)
    (rest : ∀ val, Shifts measure (next val) fun out => delta out - amount val) :
    Shifts measure (fst >>= next) delta := by
  intro s
  rw [holds_bind]
  refine (s0 s).conseq fun val s' moved => ?_
  refine (rest val s').conseq fun out s'' after => ?_
  rw [after, moved, add_assoc, add_sub_cancel]

theorem Keeps.andShifts {delta : β → M} (s0 : Keeps measure fst)
    (rest : ∀ val, Shifts measure (next val) delta) : Shifts measure (fst >>= next) delta :=
  s0.shifts.bind fun val => (rest val).congr fun _ => (sub_zero _).symm

theorem Shifts.ite {condition : Prop} [Decidable condition] {yes no : Prog σ ε α} {delta : α → M}
    (left : Shifts measure yes delta) (right : Shifts measure no delta) :
    Shifts measure (if condition then yes else no) delta := by
  split
  · exact left
  · exact right

end

end Exec
