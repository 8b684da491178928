import Xv6.UserHeap

/-! The heap as blocks: free and allocated ones tile what lies between the start and the break. -/

namespace Xv6.UserHeap

open List Block

def Gap (a b : Block) : Prop := a.stop < b.addr

def Apart (a b : Block) : Prop := a.stop ≤ b.addr ∨ b.stop ≤ a.addr

theorem Apart.symm {a b : Block} (apart : Apart a b) : Apart b a := Or.symm apart

instance : Std.Symm Apart := ⟨fun _ _ => Apart.symm⟩

def units (blocks : List Block) : Nat := (blocks.map Block.size).sum

@[simp] theorem units_cons (b : Block) (rest : List Block) : units (b :: rest) = b.size + units rest := rfl

@[simp] theorem units_append (left right : List Block) : units (left ++ right) = units left + units right := by
  simp [units]

structure Tiles (start brk : Nat) (blocks : List Block) : Prop where
  apart : blocks.Pairwise Apart
  positive : ∀ b ∈ blocks, 0 < b.size
  inside : ∀ b ∈ blocks, start ≤ b.addr ∧ b.stop ≤ brk
  total : start + headerSize * units blocks = brk

section

variable {s0 brk : Nat} {blocks rest : List Block} {b c : Block}

theorem Tiles.empty (s0 : Nat) : Tiles s0 s0 [] :=
  ⟨.nil, by simp, by simp, by simp [units]⟩

theorem Tiles.perm (tiles : Tiles s0 brk blocks) {others : List Block} (permuted : blocks.Perm others) :
    Tiles s0 brk others where
  apart := permuted.pairwise tiles.apart Apart.symm
  positive := fun b mem => tiles.positive b (permuted.mem_iff.mpr mem)
  inside := fun b mem => tiles.inside b (permuted.mem_iff.mpr mem)
  total := by
    rw [units, ← (permuted.map Block.size).sum_eq]
    exact tiles.total

theorem Tiles.grow (tiles : Tiles s0 brk blocks) {nu : Nat} (positive : 0 < nu) :
    Tiles s0 (brk + headerSize * nu) (⟨brk, nu⟩ :: blocks) where
  apart := pairwise_cons.mpr ⟨fun a mem => .inr (tiles.inside a mem).2, tiles.apart⟩
  positive := by
    intro a mem
    rcases mem_cons.mp mem with rfl | mem
    · exact positive
    · exact tiles.positive a mem
  inside := by
    have total := tiles.total
    intro a mem
    rcases mem_cons.mp mem with rfl | mem
    · simp only [stop]
      omega
    · have bounds := tiles.inside a mem
      omega
  total := by
    have total := tiles.total
    rw [units_cons]
    simp only [headerSize] at total ⊢
    omega

theorem Tiles.merge (tiles : Tiles s0 brk (b :: c :: rest)) (next : b.stop = c.addr) :
    Tiles s0 brk (⟨b.addr, b.size + c.size⟩ :: rest) := by
  obtain ⟨left, apart⟩ := pairwise_cons.mp tiles.apart
  obtain ⟨right, apart⟩ := pairwise_cons.mp apart
  have end_ : (⟨b.addr, b.size + c.size⟩ : Block).stop = c.stop := by
    simp only [stop, headerSize] at next ⊢
    omega
  constructor
  case apart =>
    refine pairwise_cons.mpr ⟨?_, apart⟩
    intro a mem
    have pre := left a (mem_cons_of_mem _ mem)
    have after := right a mem
    have size := tiles.positive a (by simp [mem])
    simp only [Apart, end_] at pre after ⊢
    simp only [stop, headerSize] at pre after next ⊢
    omega
  case positive =>
    intro a mem
    rcases mem_cons.mp mem with rfl | mem
    · have size := tiles.positive b (by simp)
      simp only
      omega
    · exact tiles.positive a (by simp [mem])
  case inside =>
    intro a mem
    rcases mem_cons.mp mem with rfl | mem
    · rw [end_]
      exact ⟨(tiles.inside b (by simp)).1, (tiles.inside c (by simp)).2⟩
    · exact tiles.inside a (by simp [mem])
  case total =>
    have total := tiles.total
    simp only [units_cons] at total ⊢
    rwa [Nat.add_assoc]

theorem Tiles.split {size tail : Nat} (tiles : Tiles s0 brk (⟨b.addr, size + tail⟩ :: rest))
    (front : 0 < size) (back : 0 < tail) :
    Tiles s0 brk (⟨b.addr, size⟩ :: ⟨b.addr + headerSize * size, tail⟩ :: rest) := by
  obtain ⟨left, apart⟩ := pairwise_cons.mp tiles.apart
  have bounds := tiles.inside ⟨b.addr, size + tail⟩ (by simp)
  simp only [stop, headerSize] at bounds
  constructor
  case apart =>
    refine pairwise_cons.mpr ⟨?_, pairwise_cons.mpr ⟨?_, apart⟩⟩
    · intro a mem
      rcases mem_cons.mp mem with rfl | mem
      · exact .inl (Nat.le_refl _)
      · have pre := left a mem
        simp only [Apart, stop, headerSize] at pre ⊢
        omega
    · intro a mem
      have pre := left a mem
      simp only [Apart, stop, headerSize] at pre ⊢
      omega
  case positive =>
    intro a mem
    simp only [mem_cons] at mem
    rcases mem with rfl | rfl | mem
    · exact front
    · exact back
    · exact tiles.positive a (by simp [mem])
  case inside =>
    intro a mem
    simp only [mem_cons] at mem
    rcases mem with rfl | rfl | mem
    · simp only [stop, headerSize]
      omega
    · simp only [stop, headerSize]
      omega
    · exact tiles.inside a (by simp [mem])
  case total =>
    have total := tiles.total
    simp only [units_cons] at total ⊢
    rwa [← Nat.add_assoc]

end

/-! The free list, cut at a place. -/

theorem gaps_insert {lo hi : List Block} {b : Block} (gaps : (lo ++ hi).Pairwise Gap)
    (below : ∀ a ∈ lo, Gap a b) (above : ∀ a ∈ hi, Gap b a) : (lo ++ b :: hi).Pairwise Gap := by
  obtain ⟨left, right, across⟩ := pairwise_append.mp gaps
  refine pairwise_append.mpr ⟨left, pairwise_cons.mpr ⟨above, right⟩, ?_⟩
  intro a mem o low
  rcases mem_cons.mp low with rfl | low
  · exact below a mem
  · exact across a mem o low

theorem gaps_remove {lo hi : List Block} {b : Block} (gaps : (lo ++ b :: hi).Pairwise Gap) :
    (lo ++ hi).Pairwise Gap ∧ (∀ a ∈ lo, Gap a b) ∧ ∀ a ∈ hi, Gap b a := by
  obtain ⟨left, right, across⟩ := pairwise_append.mp gaps
  obtain ⟨above, right⟩ := pairwise_cons.mp right
  refine ⟨pairwise_append.mpr ⟨left, right, ?_⟩, ?_, above⟩
  · exact fun a mem o low => across a mem o (mem_cons_of_mem _ low)
  · exact fun a mem => across a mem b mem_cons_self

end Xv6.UserHeap
