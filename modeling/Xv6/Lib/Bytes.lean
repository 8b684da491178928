import Mathlib.Data.Nat.Bitwise

/-! Fixed-size byte buffers with the accesses a C program makes to them: single
bytes, copied ranges, little-endian words and bitmap bits. -/

def Bytes (size : Nat) := Fin size → UInt8

def wordByte (value index : Nat) : UInt8 := UInt8.ofNat (value / 256 ^ index)

def wordOf (source : Nat → UInt8) : Nat :=
  (source 0).toNat + 256 * (source 1).toNat + 65536 * (source 2).toNat + 16777216 * (source 3).toNat

def halfOf (source : Nat → UInt8) : Nat := (source 0).toNat + 256 * (source 1).toNat

namespace Bytes

open BitVec

variable {size i : Nat}

def byte (buffer : Bytes size) (index : Nat) : UInt8 :=
  if bound : index < size then buffer ⟨index, bound⟩ else 0

def ofFn (source : Nat → UInt8) : Bytes size := fun index => source index.val

def zero : Bytes size := fun _ => 0

def blit (buffer : Bytes size) (offset count : Nat) (source : Nat → UInt8) : Bytes size := fun index =>
  if offset ≤ index.val ∧ index.val < offset + count then source (index.val - offset)
  else buffer index

def read (buffer : Bytes size) (offset count : Nat) : List UInt8 :=
  (List.range count).map fun index => buffer.byte (offset + index)

def word (buffer : Bytes size) (index : Nat) : Nat := wordOf fun place => buffer.byte (4 * index + place)

def setWord (buffer : Bytes size) (index value : Nat) : Bytes size :=
  buffer.blit (4 * index) 4 (wordByte value)

def mask (index : Nat) : UInt8 := 1 <<< UInt8.ofNat (index % 8)

def bit (buffer : Bytes size) (index : Nat) : Bool := buffer.byte (index / 8) &&& mask index != 0

def setBit (buffer : Bytes size) (index : Nat) : Bytes size :=
  buffer.blit (index / 8) 1 fun _ => buffer.byte (index / 8) ||| mask index

def clearBit (buffer : Bytes size) (index : Nat) : Bytes size :=
  buffer.blit (index / 8) 1 fun _ => buffer.byte (index / 8) &&& ~~~mask index

@[ext] theorem ext {left right : Bytes size} (eq : ∀ i, i < size → left.byte i = right.byte i) : left = right := by
  funext i
  have here := eq i.val i.isLt
  simpa [byte, i.isLt] using here

theorem byte_of_ge (buffer : Bytes size) (outside : size ≤ i) : buffer.byte i = 0 := by
  simp [byte, Nat.not_lt.mpr outside]

@[simp] theorem byte_ofFn (source : Nat → UInt8) (lt : i < size) : (ofFn source : Bytes size).byte i = source i := by
  simp [byte, ofFn, lt]

@[simp] theorem byte_zero (i : Nat) : (zero : Bytes size).byte i = 0 := by
  simp [byte, zero]

theorem byte_blit (buffer : Bytes size) (offset n : Nat) (source : Nat → UInt8) (lt : i < size) :
    (buffer.blit offset n source).byte i = if offset ≤ i ∧ i < offset + n then source (i - offset)
      else buffer.byte i := by
  simp [byte, blit, lt]

theorem byte_blit_outside (buffer : Bytes size) (offset n : Nat) (source : Nat → UInt8)
    (outside : i < offset ∨ offset + n ≤ i) : (buffer.blit offset n source).byte i = buffer.byte i := by
  by_cases lt : i < size
  · rw [byte_blit _ _ _ _ lt, if_neg (by omega)]
  · rw [byte_of_ge _ (by omega), byte_of_ge _ (by omega)]

theorem wordOf_congr {left right : Nat → UInt8} (eq : ∀ k, k < 4 → left k = right k) : wordOf left = wordOf right := by
  simp only [wordOf, eq 0 (by omega), eq 1 (by omega), eq 2 (by omega), eq 3 (by omega)]

theorem wordOf_lt (source : Nat → UInt8) : wordOf source < 2 ^ 32 := by
  have fst := (source 0).toNat_lt
  have snd := (source 1).toNat_lt
  have third := (source 2).toNat_lt
  have fourth := (source 3).toNat_lt
  simp only [wordOf]
  omega

theorem wordOf_wordByte (val : Nat) : wordOf (wordByte val) = val % 2 ^ 32 := by
  simp only [wordOf, wordByte, UInt8.toNat_ofNat']
  omega

theorem word_lt (buffer : Bytes size) (i : Nat) : buffer.word i < 2 ^ 32 := wordOf_lt _

@[simp] theorem word_zero (i : Nat) : (zero : Bytes size).word i = 0 := by
  simp [word, wordOf]

section

variable (buffer : Bytes size)

include buffer

theorem word_blit_outside (offset n : Nat) (source : Nat → UInt8) (outside : 4 * i + 4 ≤ offset ∨ offset + n ≤ 4 * i) :
    (buffer.blit offset n source).word i = buffer.word i := by
  apply wordOf_congr
  intro k placeBound
  exact byte_blit_outside _ _ _ _ (by omega)

theorem word_setWord_same (i val : Nat) (lt : 4 * i + 4 ≤ size) : (buffer.setWord i val).word i = val % 2 ^ 32 := by
  rw [← wordOf_wordByte]
  apply wordOf_congr
  intro k placeBound
  rw [setWord, byte_blit _ _ _ _ (by omega), if_pos (by omega)]
  congr 1
  omega

theorem word_setWord_ne {o : Nat} (val : Nat) (ne : o ≠ i) : (buffer.setWord i val).word o = buffer.word o :=
  word_blit_outside _ _ _ _ (by omega)

theorem eq_zero_of_words (aligned : 4 ∣ size) (words : ∀ i, 4 * i < size → buffer.word i = 0) : buffer = zero := by
  apply ext
  intro i lt
  have here := words (i / 4) (by omega)
  have split : i = 4 * (i / 4) + i % 4 := by omega
  have k : i % 4 < 4 := Nat.mod_lt _ (by omega)
  simp only [word, wordOf] at here
  rw [byte_zero, ← UInt8.toNat_inj, split]
  generalize i / 4 = quotient at *
  generalize i % 4 = remainder at *
  have cases : remainder = 0 ∨ remainder = 1 ∨ remainder = 2 ∨ remainder = 3 := by omega
  rcases cases with eq | eq | eq | eq <;> subst eq <;>
    simp only [Nat.add_zero, UInt8.toNat_zero] at here ⊢ <;> omega

end

theorem mask_toNat (i : Nat) : (mask i).toNat = 2 ^ (i % 8) := by
  have small : i % 8 < 8 := Nat.mod_lt _ (by omega)
  have power : 2 ^ (i % 8) < 256 := Nat.pow_lt_pow_right (by omega) small
  simp only [mask, UInt8.toNat_shiftLeft, UInt8.toNat_ofNat', Nat.shiftLeft_eq]
  rw [Nat.mod_eq_of_lt (by omega : i % 8 < 2 ^ 8), Nat.mod_eq_of_lt small]
  simpa using power

theorem bit_eq_testBit (buffer : Bytes size) (i : Nat) :
    buffer.bit i = (buffer.byte (i / 8)).toNat.testBit (i % 8) := by
  have masked : (buffer.byte (i / 8) &&& mask i).toNat =
      ((buffer.byte (i / 8)).toNat.testBit (i % 8)).toNat * 2 ^ (i % 8) := by
    rw [UInt8.toNat_and, mask_toNat, Nat.and_two_pow]
  have zeroIff : buffer.byte (i / 8) &&& mask i = 0 ↔ (buffer.byte (i / 8)).toNat.testBit (i % 8) = false := by
    rw [← UInt8.toNat_inj, masked]
    cases (buffer.byte (i / 8)).toNat.testBit (i % 8) <;> simp
  rw [bit, Bool.eq_iff_iff, bne_iff_ne, Ne, zeroIff, Bool.not_eq_false]

theorem bit_blitOne (buffer : Bytes size) (i o : Nat) (val : UInt8) (lt : i / 8 < size) :
    (buffer.blit (i / 8) 1 fun _ => val).bit o = if o / 8 = i / 8 then val.toNat.testBit (o % 8) else buffer.bit o := by
  rw [bit_eq_testBit, bit_eq_testBit]
  by_cases samePlace : o / 8 = i / 8
  · rw [samePlace, byte_blit _ _ _ _ lt, if_pos (by omega), if_pos rfl]
  · rw [byte_blit_outside _ _ _ _ (by omega), if_neg samePlace]

theorem bit_zero (i : Nat) : (zero : Bytes size).bit i = false := by
  simp [bit_eq_testBit]

theorem bit_setBit (buffer : Bytes size) (i o : Nat) (lt : i / 8 < size) :
    (buffer.setBit i).bit o = (buffer.bit o || decide (o = i)) := by
  rw [setBit, bit_blitOne _ _ _ _ lt, bit_eq_testBit]
  by_cases samePlace : o / 8 = i / 8
  · rw [if_pos samePlace, UInt8.toNat_or, mask_toNat, Nat.testBit_or, Nat.testBit_two_pow, samePlace]
    congr 1
    simp only [decide_eq_decide]
    omega
  · have ne : o ≠ i := fun eq => samePlace (by rw [eq])
    simp [samePlace, ne]

theorem bit_clearBit (buffer : Bytes size) (i o : Nat) (lt : i / 8 < size) :
    (buffer.clearBit i).bit o = (buffer.bit o && decide (o ≠ i)) := by
  rw [clearBit, bit_blitOne _ _ _ _ lt, bit_eq_testBit]
  by_cases samePlace : o / 8 = i / 8
  · have small : 2 ^ (i % 8) < 2 ^ 8 :=
      Nat.pow_lt_pow_right (by omega) (Nat.mod_lt _ (by omega))
    have inverse : (~~~mask i).toNat = 2 ^ 8 - (2 ^ (i % 8) + 1) := by
      rw [UInt8.toNat_not, mask_toNat, show UInt8.size = 2 ^ 8 from rfl]
      omega
    have k : o % 8 < 8 := Nat.mod_lt _ (by omega)
    rw [if_pos samePlace, UInt8.toNat_and, inverse, Nat.testBit_and,
      Nat.testBit_two_pow_sub_succ small, Nat.testBit_two_pow, samePlace]
    congr 1
    simp only [k, decide_true, Bool.true_and, ← decide_not, decide_eq_decide]
    omega
  · have ne : o ≠ i := fun eq => samePlace (by rw [eq])
    simp [samePlace, ne]

theorem clearBit_setBit (buffer : Bytes size) {i : Nat} (clear : buffer.bit i = false) :
    (buffer.setBit i).clearBit i = buffer := by
  have cleared : buffer.byte (i / 8) &&& mask i = 0 := by simpa [bit] using clear
  have back : (buffer.byte (i / 8) ||| mask i) &&& ~~~mask i = buffer.byte (i / 8) := by
    refine UInt8.toBitVec_inj.mp (eq_of_getElem_eq fun k small => ?_)
    have here := congrArg (fun byte => byte.toBitVec[k]) cleared
    simp only [UInt8.toBitVec_and, UInt8.toBitVec_or, UInt8.toBitVec_not, getElem_and,
      getElem_or, getElem_not] at here ⊢
    generalize (mask i).toBitVec[k] = marked at here ⊢
    generalize (buffer.byte (i / 8)).toBitVec[k] = held at here ⊢
    cases marked <;> cases held <;> simp_all
  refine ext fun place low => ?_
  rw [clearBit, byte_blit _ _ _ _ low, setBit, byte_blit _ _ _ _ low]
  split
  · obtain rfl : place = i / 8 := by omega
    rw [byte_blit _ _ _ _ low, if_pos (by omega), back]
  · rfl

end Bytes
