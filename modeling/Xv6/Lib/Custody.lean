import Mathlib.Data.List.Basic

/-! Holders that each have at most one resource, and a log of what was taken and given back.
Resources may be parts of a whole, which is freed when all its parts are back. -/

namespace Custody

variable {ι ρ γ : Type}

inductive Event (ρ γ : Type) where
  | taken (resource : ρ)
  | released (resource : ρ)
  | freed (whole : γ)
  deriving DecidableEq

open Event List Function

/-- In a log, with the last event first, nothing happens twice, a resource is released after it
was taken, and a whole is freed after all its parts were released. -/
def Proper (parts : γ → List ρ) : List (Event ρ γ) → Prop
  | [] => True
  | taken resource :: past => taken resource ∉ past ∧ Proper parts past
  | released resource :: past =>
    taken resource ∈ past ∧ released resource ∉ past ∧ Proper parts past
  | freed whole :: past =>
    (∀ resource ∈ parts whole, released resource ∈ past) ∧ freed whole ∉ past ∧ Proper parts past

theorem Proper.parts_released {parts : γ → List ρ} {log : List (Event ρ γ)}
    (proper : Proper parts log) {whole : γ} (gone : freed whole ∈ log) :
    ∀ resource ∈ parts whole, released resource ∈ log := by
  induction log with
  | nil => simp at gone
  | cons event past ih =>
    intro resource part
    apply mem_cons_of_mem
    rcases mem_cons.mp gone with rfl | pre
    · exact proper.1 resource part
    · cases event with
      | taken o => exact ih proper.2 pre resource part
      | released o => exact ih proper.2.2 pre resource part
      | freed o => exact ih proper.2.2 pre resource part

structure Ledger (parts : γ → List ρ) (holder : ι → Option ρ) (log : List (Event ρ γ)) : Prop where
  proper : Proper parts log
  unique : ∀ {place other resource}, holder place = some resource → holder other = some resource → place = other
  taken : ∀ resource, taken resource ∈ log ↔ (∃ place, holder place = some resource) ∨ released resource ∈ log
  current : ∀ {place resource}, holder place = some resource → released resource ∉ log

section

variable {parts : γ → List ρ} {holder : ι → Option ρ} {log : List (Event ρ γ)}

theorem Ledger.empty : Ledger parts (fun _ : ι => none) [] where
  proper := trivial
  unique := by simp
  taken := by simp
  current := by simp

theorem held_update [DecidableEq ι] {k : ι} (free : holder k = none) {resource thing : ρ} :
    (∃ o, update holder k (some resource) o = some thing) ↔ thing = resource ∨ ∃ o, holder o = some thing := by
  constructor
  · rintro ⟨o, held⟩
    by_cases here : o = k
    · subst here
      rw [update_self] at held
      exact .inl (Option.some.inj held).symm
    · rw [update_of_ne here] at held
      exact .inr ⟨o, held⟩
  · rintro (rfl | ⟨o, held⟩)
    · exact ⟨k, update_self ..⟩
    · refine ⟨o, ?_⟩
      rw [update_of_ne, held]
      rintro rfl
      rw [free] at held
      contradiction

section

variable (ledger : Ledger parts holder log)

include ledger

theorem Ledger.take [DecidableEq ι] {k : ι} {resource : ρ} (free : holder k = none)
    (fresh : Event.taken resource ∉ log) :
    Ledger parts (update holder k (some resource)) (Event.taken resource :: log) := by
  have unheld : ∀ o, holder o ≠ some resource := by
    intro o held
    exact fresh ((ledger.taken resource).mpr (.inl ⟨o, held⟩))
  have unreleased : released resource ∉ log := by
    intro past
    exact fresh ((ledger.taken resource).mpr (.inr past))
  constructor
  · exact ⟨fresh, ledger.proper⟩
  · intro one o thing here there
    by_cases fst : one = k <;> by_cases snd : o = k
    · rw [fst, snd]
    · subst fst
      rw [update_self] at here
      rw [update_of_ne snd, ← here] at there
      exact absurd there (unheld o)
    · subst snd
      rw [update_self] at there
      rw [update_of_ne fst, ← there] at here
      exact absurd here (unheld one)
    · rw [update_of_ne fst] at here
      rw [update_of_ne snd] at there
      exact ledger.unique here there
  · intro thing
    rw [held_update free, mem_cons, mem_cons, ledger.taken, Event.taken.injEq, or_assoc]
    simp
  · intro o thing held
    simp only [mem_cons, reduceCtorEq, false_or]
    by_cases here : o = k
    · subst here
      rw [update_self] at held
      obtain rfl := Option.some.inj held
      exact unreleased
    · rw [update_of_ne here] at held
      exact ledger.current held

theorem Ledger.release [DecidableEq ι] {k : ι} {resource : ρ} (held : holder k = some resource) :
    Ledger parts (update holder k none) (released resource :: log) := by
  have elsewhere : ∀ {o thing}, update holder k none o = some thing → holder o = some thing ∧ thing ≠ resource := by
    intro o thing there
    by_cases here : o = k
    · subst here
      rw [update_self] at there
      contradiction
    · rw [update_of_ne here] at there
      refine ⟨there, ?_⟩
      rintro rfl
      exact here (ledger.unique there held)
  constructor
  · exact ⟨(ledger.taken resource).mpr (.inl ⟨k, held⟩), ledger.current held, ledger.proper⟩
  · intro one o thing here there
    exact ledger.unique (elsewhere here).1 (elsewhere there).1
  · intro thing
    simp only [mem_cons, reduceCtorEq, false_or, Event.released.injEq]
    rw [ledger.taken]
    constructor
    · rintro (⟨o, there⟩ | back)
      · by_cases here : o = k
        · subst here
          rw [held] at there
          exact .inr (.inl (Option.some.inj there).symm)
        · exact .inl ⟨o, by rwa [update_of_ne here]⟩
      · exact .inr (.inr back)
    · rintro (⟨o, there⟩ | rfl | back)
      · exact .inl ⟨o, (elsewhere there).1⟩
      · exact .inl ⟨k, held⟩
      · exact .inr back
  · intro o thing there
    simp only [mem_cons, Event.released.injEq, not_or]
    exact ⟨(elsewhere there).2, ledger.current (elsewhere there).1⟩

theorem Ledger.free {whole : γ} (back : ∀ resource ∈ parts whole, released resource ∈ log)
    (fresh : freed whole ∉ log) : Ledger parts holder (freed whole :: log) where
  proper := ⟨back, fresh, ledger.proper⟩
  unique := ledger.unique
  taken := by
    intro resource
    simpa using ledger.taken resource
  current := by
    intro k resource held
    simpa using ledger.current held

end

end

end Custody
