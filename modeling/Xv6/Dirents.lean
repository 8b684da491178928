import Xv6.Contents
import Xv6.DirCore
import Mathlib.Data.List.TakeWhile

/-! Directory entries as bytes of a file: names up to their terminator, and a directory as a
table of slots. -/

namespace Xv6

open List Function

/-- The bytes of a name that count: at most `DIRSIZ`, up to the terminator. -/
def cname (bytes : List UInt8) : List UInt8 := (bytes.take DIRSIZ).takeWhile (· != 0)

theorem takeWhile_take_succ (n : Nat) (p : List UInt8) : (p.take (n + 1)).takeWhile (· != 0) =
      if p.headD 0 = 0 then [] else p.headD 0 :: (p.tail.take n).takeWhile (· != 0) := by
  cases p with
  | nil => simp
  | cons byte p =>
    by_cases zero : byte = 0 <;> simp [zero]

theorem strncmp_eq_zero (n : Nat) (p q : List UInt8) :
    strncmp n p q = 0 ↔ (p.take n).takeWhile (· != 0) = (q.take n).takeWhile (· != 0) := by
  induction n generalizing p q with
  | zero => simp [strncmp]
  | succ n ih =>
    rw [strncmp, takeWhile_take_succ, takeWhile_take_succ]
    by_cases eq : p.headD 0 = q.headD 0
    · by_cases zero : q.headD 0 = 0
      · rw [eq, zero, if_neg (fun both => both.1 rfl), if_pos rfl, if_pos rfl]
        simp
      · rw [eq, if_pos ⟨zero, rfl⟩, if_neg zero, if_neg zero, ih, cons_inj_right]
    · have unequal : ((p.headD 0).toNat : Int) - (q.headD 0).toNat ≠ 0 := fun equal => by
        rw [sub_eq_zero, Int.natCast_inj, UInt8.toNat_inj] at equal
        exact eq equal
      rw [if_neg (fun both => eq both.2)]
      refine iff_of_false unequal fun equal => ?_
      split at equal <;> split at equal
      · rename_i left right
        exact eq (left.trans right.symm)
      · cases equal
      · cases equal
      · exact eq (List.cons.inj equal).1

theorem namecmp_eq_zero (s t : List UInt8) : namecmp s t = 0 ↔ cname s = cname t :=
  strncmp_eq_zero DIRSIZ s t

section

variable (inum : Nat) (name : List UInt8)

theorem length_direntBytes : (direntBytes inum name).length = deSize := by
  simp [direntBytes, deSize, DIRSIZ]

theorem direntInum_direntBytes : direntInum (direntBytes inum name) = inum % 2 ^ 16 :=
  Dinode.halfOf_wordByte inum

theorem cname_direntBytes : cname (direntName (direntBytes inum name)) = cname name := by
  have lt : ((name.take DIRSIZ).takeWhile (· != 0)).length ≤ DIRSIZ :=
    (takeWhile_sublist _).length_le.trans (length_take_le _ _)
  have full : ∀ byte ∈ (name.take DIRSIZ).takeWhile (· != 0), (byte != 0) = true := by
    intro byte mem
    have kept := mem_takeWhile_imp mem
    exact kept
  have bytes : direntName (direntBytes inum name) =
      ((name.take DIRSIZ).takeWhile (· != 0) ++ replicate DIRSIZ 0).take DIRSIZ := by
    simp [direntName, direntBytes]
  rw [cname, bytes, take_take, min_self, take_append, take_of_length_le lt, takeWhile_append_of_pos full]
  simp [cname, take_replicate]

end

namespace Node

variable {node : Node} {src : Nat → UInt8}

def dirent (node : Node) (k : Nat) : List UInt8 :=
  (List.range deSize).map fun place => node.byte (deSize * k + place)

/-- The name and the inode number in entry `k`, if there is such an entry and it is live. -/
def slot (node : Node) (k : Nat) : Option (List UInt8 × Nat) :=
  if deSize * k + deSize ≤ node.size.toNat ∧ direntInum (node.dirent k) ≠ 0 then
    some (cname (direntName (node.dirent k)), direntInum (node.dirent k))
  else none

theorem dirent_write (j k : Nat) : (node.write src (deSize * j) deSize).dirent k =
    if k = j then (range deSize).map src else node.dirent k := by
  simp only [dirent, write]
  split
  · rename_i eq
    subst eq
    refine map_congr_left fun place low => ?_
    rw [mem_range] at low
    rw [if_pos (by omega)]
    congr 1
    omega
  · rename_i ne
    refine map_congr_left fun place low => ?_
    rw [mem_range] at low
    rw [if_neg]
    simp only [deSize] at *
    omega

theorem slot_write {j : Nat} (inside : deSize * j ≤ node.size.toNat) (fits : deSize * j + deSize < 2 ^ 32) :
    (node.write src (deSize * j) deSize).slot = update node.slot j (if direntInum ((range deSize).map src) ≠ 0 then
        some (cname (direntName ((range deSize).map src)), direntInum ((range deSize).map src))
      else none) := by
  funext k
  rw [slot, dirent_write, write_size fits]
  by_cases here : k = j
  · subst here
    have inside : deSize * k + deSize ≤ max node.size.toNat (deSize * k + deSize) :=
      le_max_right _ _
    simp only [update_self, if_true, inside, true_and]
  · rw [update_of_ne here, if_neg here, slot]
    have eq : deSize * k + deSize ≤ max node.size.toNat (deSize * j + deSize) ↔
        deSize * k + deSize ≤ node.size.toNat := by
      simp only [deSize] at *
      omega
    simp only [eq]

theorem map_range_getD (bytes : List UInt8) : ((range bytes.length).map fun k => bytes.getD k 0) = bytes := by
  refine ext_getElem (by simp) fun i left right => ?_
  simp only [getElem_map, getElem_range]
  exact getD_eq_getElem bytes 0 right

theorem slot_write_dirent {j inum : Nat} (name : List UInt8) (low : deSize * j ≤ node.size.toNat)
    (fits : deSize * j + deSize < 2 ^ 32) (pos : 0 < inum) (narrow : inum < 2 ^ 16) :
    (node.write (fun k => (direntBytes inum name).getD k 0) (deSize * j) deSize).slot =
      update node.slot j (some (cname name, inum)) := by
  have bytes := map_range_getD (direntBytes inum name)
  rw [length_direntBytes] at bytes
  rw [slot_write low fits, bytes, direntInum_direntBytes, cname_direntBytes, Nat.mod_eq_of_lt narrow, if_pos (by omega)]

theorem slot_write_zero {j : Nat} (low : deSize * j ≤ node.size.toNat) (fits : deSize * j + deSize < 2 ^ 32) :
    (node.write (fun _ => 0) (deSize * j) deSize).slot = update node.slot j none := by
  rw [slot_write low fits]
  rfl

theorem lt_of_slot {k : Nat} {ent : List UInt8 × Nat} (here : node.slot k = some ent) :
    deSize * k + deSize ≤ node.size.toNat := by
  rw [slot] at here
  split at here
  · rename_i live
    exact live.1
  · cases here

theorem slot_inum {k inum : Nat} {name : List UInt8} (here : node.slot k = some (name, inum)) :
    0 < inum ∧ inum < 2 ^ 16 := by
  rw [slot] at here
  split at here <;> cases here
  rename_i live
  refine ⟨Nat.pos_of_ne_zero live.2, ?_⟩
  have low := (node.dirent k).getD 0 0 |>.toNat_lt
  have high := (node.dirent k).getD 1 0 |>.toNat_lt
  simp only [direntInum, halfOf]
  omega

end Node

end Xv6
