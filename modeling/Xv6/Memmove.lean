import Mathlib.Data.BitVec

/-! `memmove` of the kernel (string.c) and of the user library (ulib.c) over a 32-bit
address space. -/

namespace Xv6.Memmove

open Function

abbrev Memory := BitVec 32 → UInt8

-- while(n-- > 0) *d++ = *s++;
def copyUp : Nat → BitVec 32 → BitVec 32 → Memory → Memory
  | 0, _, _, mem => mem
  | n + 1, d, s, mem => copyUp n (d + 1) (s + 1) (update mem d (mem s))

-- while(n-- > 0) *--d = *--s;
def copyDown : Nat → BitVec 32 → BitVec 32 → Memory → Memory
  | 0, _, _, mem => mem
  | n + 1, d, s, mem => copyDown n (d - 1) (s - 1) (update mem (d - 1) (mem (s - 1)))

def Kernel.memmove (dst src n : BitVec 32) (mem : Memory) : BitVec 32 × Memory :=
  if src < dst ∧ src + n > dst then (dst, copyDown n.toNat (dst + n) (src + n) mem)
  else (dst, copyUp n.toNat dst src mem)

-- The count is an int here: a negative one ends the loop at once.
def User.memmove (vdst vsrc n : BitVec 32) (mem : Memory) : BitVec 32 × Memory :=
  (vdst, copyUp n.toInt.toNat vdst vsrc mem)

/-- The destination holds the original bytes of the source, every other byte is as it was. -/
def moved (dst src n : BitVec 32) (mem : Memory) : Memory := fun a =>
  if dst.toNat ≤ a.toNat ∧ a.toNat < dst.toNat + n.toNat then mem (src + (a - dst)) else mem a

variable {a : BitVec 32}

theorem copyUp_outside (n : Nat) (d s : BitVec 32) (mem : Memory) (outside : n ≤ (a - d).toNat) :
    copyUp n d s mem a = mem a := by
  induction n generalizing d s mem with
  | zero => rfl
  | succ n ih => rw [copyUp, ih _ _ _ (by bv_omega), update_of_ne (by bv_omega)]

-- Going up is safe when no byte still to be read lies in the bytes already written.
theorem copyUp_apply (n : Nat) (d s : BitVec 32) (mem : Memory) (small : n < 2 ^ 32)
    (clear : d = s ∨ n ≤ (d - s).toNat) :
    copyUp n d s mem a = if (a - d).toNat < n then mem (s + (a - d)) else mem a := by
  induction n generalizing d s mem with
  | zero => rfl
  | succ n ih =>
    rw [copyUp, ih _ _ _ (by omega) (by bv_omega), show s + 1 + (a - (d + 1)) = s + (a - d) by bv_omega]
    by_cases first : a = d
    · subst first
      rw [if_neg (by bv_omega), if_pos (by bv_omega), update_self]
      congr 1
      bv_omega
    · rw [update_of_ne first]
      by_cases inside : (a - d).toNat < n + 1
      · rw [if_pos (by bv_omega), if_pos inside, update_of_ne (by bv_omega)]
      · rw [if_neg (by bv_omega), if_neg inside]

-- Complementing every address turns the loop that goes down into the one that goes up.
theorem copyDown_eq_copyUp (n : Nat) (d s : BitVec 32) (mem : Memory) :
    copyDown n d s mem a = copyUp n (-d) (-s) (fun b => mem (~~~b)) (~~~a) := by
  induction n generalizing d s mem with
  | zero => simp [copyDown, copyUp]
  | succ n ih =>
    have store : (fun b => update mem (d - 1) (mem (s - 1)) (~~~b)) =
        update (fun b => mem (~~~b)) (-d) (mem (~~~(-s))) := by
      funext b
      have same : ~~~b = d - 1 ↔ b = -d := by constructor <;> bv_omega
      simp only [update_apply, same, show ~~~(-s) = s - 1 by bv_omega]
    rw [copyDown, ih, store, copyUp, show -(d - 1) = -d + 1 by bv_omega, show -(s - 1) = -s + 1 by bv_omega]

theorem copyDown_apply (n : Nat) (d s : BitVec 32) (mem : Memory) (small : n < 2 ^ 32)
    (clear : d = s ∨ n ≤ (s - d).toNat) :
    copyDown n d s mem a = if (d - 1 - a).toNat < n then mem (s + (a - d)) else mem a := by
  rw [copyDown_eq_copyUp, copyUp_apply _ _ _ _ small (by bv_omega), BitVec.not_not,
    show ~~~a - -d = d - 1 - a by bv_omega, show ~~~(-s + (d - 1 - a)) = s + (a - d) by bv_omega]

-- The byte at distance `i` is the one the loop finds at that distance in the source after `i` rounds.
theorem copyUp_reads (i n : Nat) (d s : BitVec 32) (mem : Memory) (reached : i < n) (small : n < 2 ^ 32) :
    copyUp n d s mem (d + BitVec.ofNat 32 i) = copyUp i d s mem (s + BitVec.ofNat 32 i) := by
  obtain ⟨n, rfl⟩ : ∃ m, n = m + 1 := ⟨n - 1, by omega⟩
  induction i generalizing n d s mem with
  | zero =>
    rw [BitVec.add_zero, BitVec.add_zero, copyUp, copyUp, copyUp_outside _ _ _ _ (by bv_omega), update_self]
  | succ i ih =>
    obtain ⟨n, rfl⟩ : ∃ m, n = m + 1 := ⟨n - 1, by omega⟩
    rw [copyUp, show d + BitVec.ofNat 32 (i + 1) = d + 1 + BitVec.ofNat 32 i by bv_omega,
      ih _ _ _ n (by omega) (by omega), copyUp,
      show s + BitVec.ofNat 32 (i + 1) = s + 1 + BitVec.ofNat 32 i by bv_omega]

section

variable {dst src n : BitVec 32} (t : dst.toNat + n.toNat ≤ 2 ^ 32)

include t

theorem inside_up : (a - dst).toNat < n.toNat ↔ dst.toNat ≤ a.toNat ∧ a.toNat < dst.toNat + n.toNat := by
  bv_omega

theorem inside_down : (dst + n - 1 - a).toNat < n.toNat ↔ dst.toNat ≤ a.toNat ∧ a.toNat < dst.toNat + n.toNat := by
  bv_omega

-- Where the source runs into the destination, the byte found at the start of the destination is no longer
-- the one that was there.
theorem copyUp_overlap (overlap : src < dst ∧ dst.toNat < src.toNat + n.toNat) : ∃ mem : Memory,
    copyUp n.toNat dst src mem ≠ moved dst src n mem := by
  refine ⟨fun a => if a = src then 1 else 0, fun same => ?_⟩
  have here := congrFun same (dst + (dst - src))
  have gap : BitVec.ofNat 32 (dst - src).toNat = dst - src := by rw [BitVec.ofNat_toNat, BitVec.setWidth_eq]
  rw [← gap, copyUp_reads _ _ _ _ _ (by bv_omega) n.isLt, gap, copyUp_apply _ _ _ _ (by bv_omega) (by bv_omega),
    moved, if_pos (by bv_omega), if_pos (by bv_omega), if_pos (by bv_omega), if_neg (by bv_omega)] at here
  contradiction

variable (source : src.toNat + n.toNat ≤ 2 ^ 32)

include source

theorem copyUp_moved (apart : ¬(src < dst ∧ dst.toNat < src.toNat + n.toNat)) (mem : Memory) :
    copyUp n.toNat dst src mem = moved dst src n mem := by
  have clear : dst = src ∨ n.toNat ≤ (dst - src).toNat := by
    rcases Nat.lt_trichotomy src.toNat dst.toNat with below | same | above <;> bv_omega
  funext a
  rw [copyUp_apply _ _ _ _ n.isLt clear, moved]
  exact if_congr (inside_up t) rfl rfl

theorem kernel_memmove (mem : Memory) : Kernel.memmove dst src n mem = (dst, moved dst src n mem) := by
  rw [Kernel.memmove]
  by_cases overlap : src < dst ∧ dst.toNat < src.toNat + n.toNat
  · have clear : n.toNat ≤ (src + n - (dst + n)).toNat := by bv_omega
    rw [if_pos (by bv_omega)]
    congr 1
    funext a
    rw [copyDown_apply _ _ _ _ n.isLt (.inr clear), moved, show src + n + (a - (dst + n)) = src + (a - dst) by grind]
    exact if_congr (inside_down t) rfl rfl
  · rw [if_neg (by bv_omega), copyUp_moved t source overlap]

end

theorem memmove_agrees (dst src n : BitVec 32) (count : 0 ≤ n.toInt) (source : src.toNat + n.toNat ≤ 2 ^ 32)
    (t : dst.toNat + n.toNat ≤ 2 ^ 32) : (∀ mem, Kernel.memmove dst src n mem = (dst, moved dst src n mem)) ∧
      ((∀ mem, User.memmove dst src n mem = Kernel.memmove dst src n mem) ↔
        ¬(src < dst ∧ dst.toNat < src.toNat + n.toNat)) := by
  have length : n.toInt.toNat = n.toNat := by
    rw [BitVec.toInt_eq_toNat_cond] at count ⊢
    split at count <;> omega
  refine ⟨kernel_memmove t source, ?_⟩
  simp only [User.memmove, kernel_memmove t source, length, Prod.mk.injEq, true_and]
  constructor
  · intro same overlap
    obtain ⟨mem, ne⟩ := copyUp_overlap t overlap
    exact ne (same mem)
  · exact copyUp_moved t source

theorem memmove_agrees_down : User.memmove 0 1 2 (fun a => UInt8.ofNat a.toNat) =
    Kernel.memmove 0 1 2 fun a => UInt8.ofNat a.toNat :=
  (memmove_agrees 0 1 2 (by decide) (by decide) (by decide)).2.2 (by decide) _

/-- Bytes 0, 1, 2 with the first two moved up by one: the user's copy loses the byte 1. -/
theorem user_memmove_repeats : let mem : Memory := fun a => UInt8.ofNat a.toNat
    (Kernel.memmove 1 0 2 mem).2 2 = 1 ∧ (User.memmove 1 0 2 mem).2 2 = 0 ∧ moved 1 0 2 mem 2 = 1 := by
  decide

end Xv6.Memmove
