import Mathlib.Data.List.Basic

/-! Lists cut into chunks, and histories of labelled items: a history is a merge of lists, one for
each label, when the items of each label are its list. -/

namespace Merge

open List Function

section

variable {α : Type} {size : Nat}

def cut (size : Nat) : Nat → List α → List (List α)
  | 0, _ => []
  | rounds + 1, data =>
    if data.isEmpty then [] else data.take size :: cut size rounds (data.drop size)

def chunks (size : Nat) (data : List α) : List (List α) := cut size data.length data

theorem cut_enough (pos : 0 < size) {rounds : Nat} {data : List α} (enough : data.length ≤ rounds) :
    cut size rounds data = chunks size data := by
  have long : ∀ (more : Nat) (data : List α), data.length ≤ rounds → data.length ≤ more →
      cut size rounds data = cut size more data := by
    clear enough
    induction rounds with
    | zero =>
      intro more data none _
      rw [length_eq_zero_iff.mp (Nat.le_zero.mp none)]
      cases more <;> rfl
    | succ rounds ih =>
      intro more data enough also
      cases more with
      | zero =>
        rw [length_eq_zero_iff.mp (Nat.le_zero.mp also)]
        rfl
      | succ more =>
        simp only [cut]
        split
        · rfl
        · rw [ih more _ (by rw [length_drop]; omega) (by rw [length_drop]; omega)]
  exact long _ data enough (Nat.le_refl _)

theorem chunks_nil : chunks size ([] : List α) = [] := rfl

theorem chunks_take_drop (pos : 0 < size) {data : List α} (some : data ≠ []) :
    chunks size data = data.take size :: chunks size (data.drop size) := by
  cases data with
  | nil => exact absurd rfl some
  | cons item rest =>
    rw [chunks, length_cons, cut, if_neg (by simp), cut_enough pos]
    rw [length_drop, length_cons]
    omega

end

section

variable {ι α : Type} [DecidableEq ι]

def itemsOf (who : ι) (history : List (ι × α)) : List α :=
  (history.filter fun entry => entry.1 = who).map Prod.snd

theorem itemsOf_append (who : ι) (history later : List (ι × α)) :
    itemsOf who (history ++ later) = itemsOf who history ++ itemsOf who later := by
  simp [itemsOf]

theorem itemsOf_same (who : ι) (items : List α) : itemsOf who (items.map fun item => (who, item)) = items := by
  simp [itemsOf, filter_map, comp_def]

theorem itemsOf_other {who o : ι} (ne : o ≠ who) (items : List α) :
    itemsOf who (items.map fun item => (o, item)) = [] := by
  simp [itemsOf, filter_map, comp_def, ne]

end

end Merge
