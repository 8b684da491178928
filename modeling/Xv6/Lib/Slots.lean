import Mathlib.Logic.Function.Basic

/-! Tables of slots, each empty or holding a key with its value, as finite maps. -/

namespace Slots

open Function

variable {κ ν : Type}

structure Represents (table : Nat → Option (κ × ν)) (map : κ → Option ν) : Prop where
  entry : ∀ sl key v, table sl = some (key, v) → map key = some v
  found : ∀ key v, map key = some v → ∃ sl, table sl = some (key, v)
  unique : ∀ sl other key v v', table sl = some (key, v) → table other = some (key, v') → sl = other

theorem Represents.empty {tab : Nat → Option (κ × ν)} (unused : ∀ sl, tab sl = none) : Represents tab fun _ => none :=
  ⟨fun sl _ _ here => by simp [unused sl] at here, fun _ _ here => by simp at here,
    fun sl _ _ _ _ here => by simp [unused sl] at here⟩

variable [DecidableEq κ] {tab : Nat → Option (κ × ν)} {map : κ → Option ν} {sl : Nat} {key : κ} {val : ν}

theorem Represents.insert (rep : Represents tab map) (absent : map key = none) (free : tab sl = none) :
    Represents (update tab sl (some (key, val))) (update map key (some val)) := by
  have fresh : ∀ o held, tab o ≠ some (key, held) := fun o held here => by
    rw [rep.entry o key held here] at absent
    cases absent
  refine ⟨fun o name held here => ?_, fun name held here => ?_, fun fst snd name held held' left right => ?_⟩
  · by_cases eq : o = sl
    · subst eq
      rw [update_self] at here
      cases here
      exact update_self _ _ _
    · rw [update_of_ne eq] at here
      rw [update_of_ne]
      · exact rep.entry o name held here
      · rintro rfl
        exact fresh o held here
  · by_cases eq : name = key
    · subst eq
      rw [update_self] at here
      cases here
      exact ⟨sl, update_self _ _ _⟩
    · rw [update_of_ne eq] at here
      obtain ⟨o, there⟩ := rep.found name held here
      refine ⟨o, ?_⟩
      rw [update_of_ne]
      · exact there
      · rintro rfl
        rw [free] at there
        cases there
  · by_cases one : fst = sl <;> by_cases two : snd = sl
    · rw [one, two]
    · subst one
      rw [update_self] at left
      rw [update_of_ne two] at right
      cases left
      exact absurd right (fresh snd held')
    · subst two
      rw [update_self] at right
      rw [update_of_ne one] at left
      cases right
      exact absurd left (fresh fst held)
    · rw [update_of_ne one] at left
      rw [update_of_ne two] at right
      exact rep.unique fst snd name held held' left right

theorem Represents.remove (rep : Represents tab map) (here : tab sl = some (key, val)) :
    Represents (update tab sl none) (update map key none) := by
  have kept : ∀ {o name held}, update tab sl none o = some (name, held) → o ≠ sl ∧ tab o = some (name, held) := by
    intro o name held there
    by_cases eq : o = sl
    · rw [eq, update_self] at there
      cases there
    · rw [update_of_ne eq] at there
      exact ⟨eq, there⟩
  refine ⟨fun o name held there => ?_, fun name held there => ?_, fun fst snd name held held' left right => ?_⟩
  · obtain ⟨ne, old⟩ := kept there
    rw [update_of_ne]
    · exact rep.entry o name held old
    · rintro rfl
      exact ne (rep.unique o sl name held val old here)
  · by_cases eq : name = key
    · rw [eq, update_self] at there
      cases there
    · rw [update_of_ne eq] at there
      obtain ⟨o, old⟩ := rep.found name held there
      refine ⟨o, ?_⟩
      rw [update_of_ne]
      · exact old
      · rintro rfl
        rw [here] at old
        cases old
        exact eq rfl
  · exact rep.unique fst snd name held held' (kept left).2 (kept right).2

end Slots
