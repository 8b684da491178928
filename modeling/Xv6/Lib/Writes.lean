import Mathlib.Data.List.Basic

/-! A store changed by an ordered list of single-cell writes, and what holds after any
initial part of that list. -/

namespace Writes

open List Function

variable {α : Type}

def applyAll (store : Nat → α) : List (Nat × α) → Nat → α
  | [] => store
  | (place, value) :: rest => applyAll (update store place value) rest

@[simp] theorem applyAll_nil (store : Nat → α) : applyAll store [] = store := rfl

@[simp] theorem applyAll_cons (store : Nat → α) (k : Nat) (val : α) (rest : List (Nat × α)) :
    applyAll store ((k, val) :: rest) = applyAll (update store k val) rest := rfl

theorem applyAll_append (store : Nat → α) (fst snd : List (Nat × α)) :
    applyAll store (fst ++ snd) = applyAll (applyAll store fst) snd := by
  induction fst generalizing store with
  | nil => rfl
  | cons write rest ih => exact ih _

theorem applyAll_untouched (store : Nat → α) (writes : List (Nat × α)) (k : Nat)
    (untouched : ∀ write ∈ writes, write.1 ≠ k) : applyAll store writes k = store k := by
  induction writes generalizing store with
  | nil => rfl
  | cons write rest ih =>
    obtain ⟨target, val⟩ := write
    have ne : k ≠ target := fun eq => untouched (target, val) (by simp) eq.symm
    rw [applyAll_cons, ih _ (fun write mem => untouched write (mem_cons_of_mem _ mem)), update_of_ne ne]

theorem applyAll_take_induction {holds : (Nat → α) → Prop} (writes : List (Nat × α))
    (kept : ∀ store, holds store → ∀ write ∈ writes, holds (update store write.1 write.2)) :
    ∀ store n, holds store → holds (applyAll store (writes.take n)) := by
  induction writes with
  | nil => intro store n initial; simpa using initial
  | cons write rest ih =>
    intro store n initial
    cases n with
    | zero => simpa using initial
    | succ n =>
      have next := kept store initial write (by simp)
      exact ih (fun store holds o mem => kept store holds o (mem_cons_of_mem _ mem))
        _ n next

theorem applyAll_induction {holds : (Nat → α) → Prop} (writes : List (Nat × α))
    (kept : ∀ store, holds store → ∀ write ∈ writes, holds (update store write.1 write.2))
    (store : Nat → α) (initial : holds store) : holds (applyAll store writes) := by
  have all := applyAll_take_induction writes kept store writes.length initial
  rwa [take_length] at all

/-- When the value written to a place depends only on the place, order and repetition of the
writes do not matter. -/
theorem applyAll_of_values (val : Nat → α) (writes : List (Nat × α))
    (values : ∀ write ∈ writes, write.2 = val write.1) (store : Nat → α) (k : Nat)
    (written : ∃ write ∈ writes, write.1 = k) : applyAll store writes k = val k := by
  induction writes generalizing store with
  | nil => simp at written
  | cons write rest ih =>
    have restValues := fun o mem => values o (mem_cons_of_mem write mem)
    by_cases later : ∃ o ∈ rest, o.1 = k
    · exact ih restValues _ later
    · obtain ⟨hit, mem, here⟩ := written
      rcases mem_cons.mp mem with eq | inRest
      · subst hit
        rw [applyAll_cons, applyAll_untouched _ _ _ (fun o inRest eq => later ⟨o, inRest, eq⟩),
          here, update_self, values write (by simp), here]
      · exact absurd ⟨hit, inRest, here⟩ later

theorem applyAll_take_append (store : Nat → α) (fst snd : List (Nat × α)) (n : Nat) :
    applyAll store ((fst ++ snd).take n) = if n ≤ fst.length then applyAll store (fst.take n)
      else applyAll (applyAll store fst) (snd.take (n - fst.length)) := by
  rw [take_append, applyAll_append]
  split
  · rename_i early
    rw [Nat.sub_eq_zero_of_le early, take_zero, applyAll_nil]
  · rename_i late
    rw [take_of_length_le (by omega)]

end Writes
