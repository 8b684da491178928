import Mathlib.Logic.Function.Basic

/-! Units handed out by an allocator and the places that refer to them. A place holding zero
refers to nothing; the rules say how handing out and taking back a unit keep the allocator's
record exact. -/

namespace Owner

variable {ι : Type}

structure Owns (place : ι → Nat) (used area : Nat → Prop) : Prop where
  inside : ∀ index, place index ≠ 0 → area (place index)
  unique : ∀ index other, place index = place other → place index ≠ 0 → index = other
  recorded : ∀ unit, area unit → (used unit ↔ ∃ index, place index = unit)

variable {k k' : ι → Nat} {used used' area : Nat → Prop}

theorem Owns.congr (owns : Owns k used area) (places : ∀ i, k' i = k i)
    (record : ∀ unit, area unit → (used' unit ↔ used unit)) : Owns k' used' area := by
  have eq : k' = k := funext places
  subst eq
  refine ⟨owns.inside, owns.unique, fun unit mem => ?_⟩
  rw [record unit mem, owns.recorded unit mem]

theorem Owns.unowned (owns : Owns k used area) {unit : Nat} (mem : area unit)
    (free : ¬used unit) (i : ι) : k i ≠ unit := fun eq =>
  free ((owns.recorded unit mem).mpr ⟨i, eq⟩)

theorem Owns.used_place (owns : Owns k used area) {i : ι} (has : k i ≠ 0) : used (k i) :=
  (owns.recorded _ (owns.inside i has)).mpr ⟨i, rfl⟩

variable [DecidableEq ι]

theorem Owns.alloc (owns : Owns k used area) {i : ι} {unit : Nat} (empty : k i = 0)
    (pos : ¬area 0) (mem : area unit) (free : ¬used unit)
    (places : ∀ o, k' o = if o = i then unit else k o) (record : ∀ o, area o → (used' o ↔ used o ∨ o = unit)) :
    Owns k' used' area := by
  have unowned := owns.unowned mem free
  refine ⟨?_, ?_, ?_⟩
  · intro o has
    rw [places] at has ⊢
    split
    · exact mem
    · rename_i ne
      rw [if_neg ne] at has
      exact owns.inside o has
  · intro fst snd eq has
    simp only [places] at eq has
    split at eq <;> split at eq
    · rename_i left right
      exact left.trans right.symm
    · exact absurd eq.symm (unowned snd)
    · exact absurd eq (unowned fst)
    · rename_i left right
      rw [if_neg left] at has
      exact owns.unique fst snd eq has
  · intro o inArea
    rw [record o inArea, owns.recorded o inArea]
    constructor
    · rintro (⟨owner, rfl⟩ | rfl)
      · refine ⟨owner, ?_⟩
        rw [places, if_neg]
        rintro rfl
        exact pos (empty ▸ inArea)
      · exact ⟨i, by rw [places, if_pos rfl]⟩
    · rintro ⟨owner, here⟩
      rw [places] at here
      split at here
      · exact .inr here.symm
      · exact .inl ⟨owner, here⟩

theorem Owns.free (owns : Owns k used area) {i : ι} (has : k i ≠ 0) (pos : ¬area 0)
    (places : ∀ o, k' o = if o = i then 0 else k o) (record : ∀ o, area o → (used' o ↔ used o ∧ o ≠ k i)) :
    Owns k' used' area := by
  refine ⟨?_, ?_, ?_⟩
  · intro o nonzero
    rw [places] at nonzero ⊢
    split at nonzero
    · exact absurd rfl nonzero
    · rename_i ne
      rw [if_neg ne]
      exact owns.inside o nonzero
  · intro fst snd eq nonzero
    simp only [places] at eq nonzero
    split at nonzero
    · exact absurd rfl nonzero
    · rename_i left
      rw [if_neg left] at eq
      split at eq
      · exact absurd eq nonzero
      · exact owns.unique fst snd eq nonzero
  · intro o inArea
    rw [record o inArea, owns.recorded o inArea]
    constructor
    · rintro ⟨⟨owner, rfl⟩, ne⟩
      refine ⟨owner, ?_⟩
      rw [places, if_neg]
      rintro rfl
      exact ne rfl
    · rintro ⟨owner, here⟩
      rw [places] at here
      split at here
      · exact absurd (here ▸ inArea) pos
      · rename_i ne
        refine ⟨⟨owner, here⟩, ?_⟩
        rintro rfl
        exact ne (owns.unique owner i here (here ▸ has))

end Owner
