import Mathlib.Logic.Function.Basic

/-! A lock and the section of the code it guards: who holds the lock is who stands there. -/

namespace Guard

variable {P C : Type} {low : C → Bool} {pc pc' : P → C} {lock lock' : Option P} {flag flag' : Bool} {p o : P}

def Guarded (inside : C → Bool) (pc : P → C) (lock : Option P) : Prop :=
  ∀ process, inside (pc process) = true ↔ lock = some process

theorem Guarded.alone (guarded : Guarded low pc lock) (here : low (pc p) = true)
    (there : low (pc o) = true) : p = o := by
  have mine := (guarded p).mp here
  rw [(guarded o).mp there] at mine
  exact (Option.some.inj mine).symm

theorem Guarded.outside (guarded : Guarded low pc lock) (free : lock = none) : low (pc p) = false := by
  rw [Bool.eq_false_iff]
  intro here
  rw [(guarded p).mp here] at free
  cases free

def Passes (process : P) (lock lock' : Option P) : Bool → Bool → Prop
  | false, true => lock = none ∧ lock' = some process
  | true, false => lock' = none
  | _, _ => lock' = lock

@[simp] theorem passes_same (pre : Bool) : Passes p lock lock' pre pre ↔ lock' = lock := by
  cases pre <;> rfl

theorem Guarded.move (guarded : Guarded low pc lock) (others : ∀ o, o ≠ p → low (pc' o) = low (pc o))
    (passes : Passes p lock lock' (low (pc p)) (low (pc' p))) : Guarded low pc' lock' := by
  have mine := guarded p
  intro o
  by_cases eq : o = p
  · subst o
    cases pre : low (pc p) <;> cases after : low (pc' p) <;> simp_all [Passes]
  · rw [others o eq, guarded o]
    have apart := Ne.symm eq
    cases pre : low (pc p) <;> cases after : low (pc' p) <;> simp_all [Passes]

def Flagged (inside : C → Bool) (pc : P → C) (flag : Bool) : Prop :=
  ∃ holder, Guarded inside pc holder ∧ flag = holder.isSome

theorem Flagged.set (flagged : Flagged low pc flag) (here : low (pc p) = true) : flag = true := by
  obtain ⟨holder, guarded, rfl⟩ := flagged
  rw [(guarded p).mp here, Option.isSome_some]

theorem Flagged.alone (flagged : Flagged low pc flag) (here : low (pc p) = true)
    (there : low (pc o) = true) : p = o := by
  obtain ⟨holder, guarded, _⟩ := flagged
  exact guarded.alone here there

def Claims (flag flag' : Bool) : Bool → Bool → Prop
  | false, true => flag = false ∧ flag' = true
  | true, false => flag' = false
  | _, _ => flag' = flag

@[simp] theorem claims_same (pre : Bool) : Claims flag flag' pre pre ↔ flag' = flag := by
  cases pre <;> rfl

theorem Flagged.move (flagged : Flagged low pc flag) (others : ∀ o, o ≠ p → low (pc' o) = low (pc o))
    (claims : Claims flag flag' (low (pc p)) (low (pc' p))) : Flagged low pc' flag' := by
  obtain ⟨holder, guarded, rfl⟩ := flagged
  have moved : ∀ lock', Passes p holder lock' (low (pc p)) (low (pc' p)) →
      Guarded low pc' lock' := fun _ => guarded.move others
  cases pre : low (pc p) <;> cases after : low (pc' p) <;>
    simp only [pre, after, Claims, Option.isSome_eq_false_iff] at claims moved
  · exact ⟨holder, moved _ rfl, claims⟩
  · exact ⟨some p, moved _ ⟨Option.isNone_iff_eq_none.mp claims.1, rfl⟩, claims.2⟩
  · exact ⟨none, moved _ rfl, claims⟩
  · exact ⟨holder, moved _ rfl, claims⟩

end Guard
