import Mathlib.Data.List.Basic
import Mathlib.Data.Nat.ModEq

/-! A ring of cells that two counters run around for ever, as a queue: what was stored, what
of it was taken, and the cells between the two. The counters are words that wrap around. -/

namespace Ring

open List Function UInt32

variable {α : Type} {size : Nat} {cells : Nat → α} {stored ran : List α}

structure Holds (size : Nat) (cells : Nat → α) (stored taken : List α) : Prop where
  taken_first : taken <+: stored
  fits : stored.length ≤ taken.length + size
  kept : ∀ index item, taken.length ≤ index → stored[index]? = some item → cells (index % size) = item

theorem Holds.empty (size : Nat) (cells : Nat → α) : Holds size cells [] [] where
  taken_first := prefix_rfl
  fits := by simp
  kept := by simp

theorem eq_of_mod_eq {left right : Nat} (ord : left ≤ right) (near : right < left + size)
    (eq : left % size = right % size) : left = right := by
  have divides : size ∣ right - left := (Nat.modEq_iff_dvd' ord).mp eq
  have zero : right - left = 0 := Nat.eq_zero_of_dvd_of_lt divides (by omega)
  omega

section

variable (ring : Holds size cells stored ran)

include ring

theorem Holds.store (item : α) (room : stored.length < ran.length + size) :
    Holds size (update cells (stored.length % size) item) (stored ++ [item]) ran where
  taken_first := ring.taken_first.trans (prefix_append _ _)
  fits := by
    rw [length_append]
    exact room
  kept := by
    intro i o lower hit
    by_cases last : i = stored.length
    · subst i
      have eq : item = o := by simpa using hit
      rw [update_self, eq]
    · have low : i < stored.length := by
        have lt := (List.getElem?_eq_some_iff.mp hit).1
        simp only [length_append, length_cons, length_nil] at lt
        omega
      have elsewhere : i % size ≠ stored.length % size := by
        intro eq
        exact last (eq_of_mod_eq low.le (by omega) eq)
      rw [update_of_ne elsewhere]
      rw [List.getElem?_append_left low] at hit
      exact ring.kept i o lower hit

theorem Holds.take (left : ran.length < stored.length) :
    Holds size cells stored (ran ++ [cells (ran.length % size)]) where
  taken_first := by
    have next := ring.kept ran.length stored[ran.length] le_rfl (List.getElem?_eq_getElem left)
    have pre := prefix_iff_eq_take.mp ring.taken_first
    have more : ran ++ [stored[ran.length]] = stored.take (ran.length + 1) := by
      rw [take_succ_eq_append_getElem left, ← pre]
    rw [next, more]
    exact take_prefix _ _
  fits := by
    rw [length_append]
    have := ring.fits
    omega
  kept := by
    intro i item lower hit
    rw [length_append] at lower
    exact ring.kept i item (by omega) hit

theorem Holds.taken_le : ran.length ≤ stored.length :=
  ring.taken_first.length_le

theorem Holds.eq_of_length (eq : ran.length = stored.length) : ran = stored :=
  ring.taken_first.eq_of_length eq

end

theorem Holds.drop_last {rest : List α} (ring : Holds size cells (stored ++ rest) ran)
    (left : ran.length ≤ stored.length) : Holds size cells stored ran where
  taken_first := prefix_of_prefix_length_le ring.taken_first (prefix_append _ _) left
  fits := by
    have fits := ring.fits
    rw [length_append] at fits
    omega
  kept := by
    intro i item lower hit
    apply ring.kept i item lower
    rw [List.getElem?_append_left (List.getElem?_eq_some_iff.mp hit).1, hit]

theorem Holds.segment (ring : Holds size cells stored ran) (fst last : Nat)
    (lower : ran.length ≤ fst) (upper : last ≤ stored.length) : (stored.drop fst).take (last - fst) =
      (range (last - fst)).map fun k => cells ((fst + k) % size) := by
  apply ext_getElem?
  intro i
  by_cases low : i < last - fst
  · have lt : fst + i < stored.length := by omega
    have kept := ring.kept (fst + i) stored[fst + i] (by omega) (List.getElem?_eq_getElem lt)
    rw [List.getElem?_take_of_lt low, List.getElem?_drop, List.getElem?_map,
      List.getElem?_range low, Option.map_some, kept, List.getElem?_eq_getElem lt]
  · rw [List.getElem?_eq_none (by simp; omega), List.getElem?_eq_none (by simp; omega)]

theorem Holds.stored_eq (ring : Holds size cells stored ran) :
    stored = ran ++ (range (stored.length - ran.length)).map fun k =>
      cells ((ran.length + k) % size) := by
  have rest := ring.segment ran.length stored.length le_rfl le_rfl
  rw [← length_drop, take_length] at rest
  obtain ⟨later, rfl⟩ := ring.taken_first
  rw [length_drop] at rest
  rw [← rest, drop_left]

/-! Counters of 32 bits that count items: equal when their numbers are, as long as these are
less than `2 ^ 32` apart. -/

theorem ofNat_eq_iff {fst last : Nat} (ord : fst ≤ last) (near : last < fst + 2 ^ 32) :
    ofNat fst = ofNat last ↔ fst = last := by
  constructor
  · intro eq
    have residues := congrArg UInt32.toNat eq
    rw [toNat_ofNat', toNat_ofNat'] at residues
    exact eq_of_mod_eq ord near residues
  · intro eq
    rw [eq]

theorem toNat_sub_ofNat {fst last : Nat} (ord : fst ≤ last) (near : last < fst + 2 ^ 32) :
    (ofNat last - ofNat fst).toNat = last - fst := by
  rw [← ofNat_sub ord, toNat_ofNat_of_lt' (by simp [UInt32.size]; omega)]

theorem ofNat_succ (n : Nat) : ofNat n + 1 = ofNat (n + 1) := by
  rw [ofNat_add]
  rfl

theorem toNat_ofNat_mod (divides : size ∣ 2 ^ 32) (n : Nat) : (ofNat n).toNat % size = n % size := by
  rw [toNat_ofNat', Nat.mod_mod_of_dvd _ divides]

end Ring
