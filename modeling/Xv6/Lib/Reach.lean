import Mathlib.Algebra.BigOperators.Group.Finset.Basic
import Mathlib.Data.Fintype.Basic

/-! States reached by runs whose every step is allowed, the induction rule for what holds
in all of them, and sums over a table of which one entry changes. -/

namespace Reach

open Function

variable {σ α ι β M : Type} {next : σ → α → σ → Prop} {ok : σ → α → Prop} {start s : σ}
  {step : σ → α → Option σ} {actions : List α}

/-- The states that runs from `start` reach when each of their steps is `ok`. -/
inductive Reachable (next : σ → α → σ → Prop) (ok : σ → α → Prop) (start : σ) : σ → Prop
  | start : Reachable next ok start start
  | step {st st'} (action : α) : Reachable next ok start st →
      ok st action → next st action st' → Reachable next ok start st'

theorem Reachable.invariant (holds : σ → Prop) (initial : holds start) (kept : ∀ s action s', holds s → ok s action →
      next s action s' → holds s') (reached : Reachable next ok start s) : holds s := by
  induction reached with
  | start => exact initial
  | step action _ permitted ran ih => exact kept _ action _ ih permitted ran

theorem Reachable.mono {next' : σ → α → σ → Prop} {ok' : σ → α → Prop}
    (included : ∀ s action s', ok s action → next s action s' →
      ok' s action ∧ next' s action s') (reached : Reachable next ok start s) : Reachable next' ok' start s := by
  induction reached with
  | start => exact .start
  | step action _ permitted ran ih =>
    obtain ⟨permitted', ran'⟩ := included _ _ _ permitted ran
    exact .step action ih permitted' ran'

theorem Reachable.widen {narrow wide : σ → α → Prop} (included : ∀ s action, narrow s action → wide s action)
    (reached : Reachable next narrow start s) : Reachable next wide start s :=
  reached.mono fun _ _ _ permitted ran => ⟨included _ _ permitted, ran⟩

/-- The runs that take the listed actions in turn. -/
inductive Runs (next : σ → α → σ → Prop) : σ → List α → σ → Prop
  | nil (st) : Runs next st [] st
  | cons {st st' st'' action actions} : next st action st' → Runs next st' actions st'' →
      Runs next st (action :: actions) st''

/-- Where each step is matched by one from every related state, each run is. -/
theorem Runs.simulate {τ : Type} {matched : τ → α → τ → Prop} {s s' : σ} {t : τ} (run : Runs next s actions s')
    (related : σ → τ → Prop) (step : ∀ s t a s', related s t → next s a s' → ∃ t', matched t a t' ∧ related s' t')
    (here : related s t) : ∃ t', Runs matched t actions t' ∧ related s' t' := by
  induction run generalizing t with
  | nil => exact ⟨t, .nil t, here⟩
  | cons ran _ ih =>
    obtain ⟨t1, first, there⟩ := step _ t _ _ here ran
    obtain ⟨t', rest, after⟩ := ih there
    exact ⟨t', .cons first rest, after⟩

def replay (step : σ → α → Option σ) (ok : σ → α → Prop) [∀ st action, Decidable (ok st action)] : List α → σ → Option σ
  | [], st => some st
  | action :: rest, st =>
    if ok st action then (step st action).bind (replay step ok rest) else none

theorem Reachable.replay [∀ s action, Decidable (ok s action)] {s' : σ}
    (reached : Reachable (fun pre action after => step pre action = some after) ok start
      s) (hit : replay step ok actions s = some s') :
    Reachable (fun pre action after => step pre action = some after) ok start s' := by
  induction actions generalizing s with
  | nil =>
    cases hit
    exact reached
  | cons action rest ih =>
    simp only [Reach.replay] at hit
    split at hit
    · rename_i permitted
      obtain ⟨next, taken, hit⟩ := Option.bind_eq_some_iff.mp hit
      exact ih (.step action reached permitted taken) hit
    · simp at hit

theorem Reachable.of_replay [∀ s action, Decidable (ok s action)] {test : σ → Bool}
    (taken : ∀ s action s', ok s action → step s action = some s' →
      next s action s') (checked : (Reach.replay step ok actions start).any test = true) :
    ∃ s, Reachable next ok start s ∧ test s = true := by
  obtain ⟨s, found, passed⟩ := (Option.any_eq_true _ _).mp checked
  refine ⟨s, ?_, passed⟩
  exact (Reachable.start.replay found).mono fun pre action after permitted ran =>
    ⟨permitted, taken pre action after permitted ran⟩

theorem sum_update_at [Fintype ι] [DecidableEq ι] [AddCommMonoid M] (table : ι → β) (i : ι) (v : β)
    (weight : ι → β → M) : (∑ o, weight o (update table i v o)) + weight i (table i) =
      (∑ o, weight o (table o)) + weight i v := by
  rw [← Finset.add_sum_erase _ _ (Finset.mem_univ i),
    ← Finset.add_sum_erase Finset.univ (fun o => weight o (table o)) (Finset.mem_univ i)]
  have rest : ∑ o ∈ Finset.univ.erase i, weight o (update table i v o) =
      ∑ o ∈ Finset.univ.erase i, weight o (table o) := by
    apply Finset.sum_congr rfl
    intro o mem
    rw [update_of_ne (Finset.ne_of_mem_erase mem)]
  rw [rest, update_self]
  ac_rfl

theorem sum_update [Fintype ι] [DecidableEq ι] [AddCommMonoid M] (table : ι → β) (i : ι) (v : β)
    (weight : β → M) : (∑ o, weight (update table i v o)) + weight (table i) = (∑ o, weight (table o)) + weight v :=
  sum_update_at table i v fun _ => weight

end Reach
