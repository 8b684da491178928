import Xv6.Param
import Mathlib.Data.UInt

/-! `mp.c`: the scan of the MP configuration table by `mpinit`, over the bytes from `conf` on. -/

namespace Xv6.Mp

open Function

def NCPU : Nat := 8

def length (conf : Nat → UInt8) : Nat := (conf 4).toNat + 256 * (conf 5).toNat

def sum (conf : Nat → UInt8) (len : Nat) : UInt8 := ((List.range len).map conf).sum

/-- Whether `mpconfig` accepts the table: signature, version and checksum. -/
def mpconfig (conf : Nat → UInt8) : Bool :=
  (List.range 4).map conf == [80, 67, 77, 80] && (conf 6 == 1 || conf 6 == 4) && sum conf (length conf) == 0

structure State where
  ismp : Bool
  ncpu : Nat
  apicid : Nat → UInt8
  ioapicid : UInt8

def boot : State := ⟨false, 0, fun _ => 0, 0⟩

/-- How far an entry moves `p` on; the `break` of an unknown one leaves only the `switch`. -/
def size (type : UInt8) : Nat := if type = 0 then 20 else if type ≤ 4 then 8 else 0

def entry (conf : Nat → UInt8) (p : Nat) (mp : State) : State :=
  if conf p = 0 then
    if mp.ncpu < NCPU then { mp with apicid := update mp.apicid mp.ncpu (conf (p + 1)), ncpu := mp.ncpu + 1 }
    else mp
  else if conf p = 2 then { mp with ioapicid := conf (p + 1) }
  else if conf p ≤ 4 then mp
  else { mp with ismp := false }

/-- The loop of `mpinit`; none if `fuel` rounds do not end it. -/
def scan (conf : Nat → UInt8) : Nat → Nat → State → Option State
  | 0, _, _ => none
  | fuel + 1, p, mp => if p < length conf then scan conf fuel (p + size (conf p)) (entry conf p mp) else some mp

def mpinit (conf : Nat → UInt8) (fuel : Nat) (mp : State) : Option State :=
  if mpconfig conf then
    (scan conf fuel 44 { mp with ismp := true }).map fun mp =>
      if mp.ismp then mp else { mp with ncpu := 1, ioapicid := 0 }
  else some mp

/-- The places at which the loop looks for an entry. -/
inductive Visits (conf : Nat → UInt8) : Nat → Prop
  | first : Visits conf 44
  | next {p : Nat} : Visits conf p → p < length conf → Visits conf (p + size (conf p))

theorem entry_known {conf : Nat → UInt8} {p : Nat} {mp : State} (known : conf p ≤ 4) (few : mp.ncpu ≤ NCPU) :
    (entry conf p mp).ncpu ≤ NCPU ∧ (entry conf p mp).ismp = mp.ismp := by
  rw [entry, if_pos known]
  split
  · split
    · exact ⟨by simp only; omega, rfl⟩
    · exact ⟨few, rfl⟩
  · split <;> exact ⟨few, rfl⟩

theorem size_known {type : UInt8} (known : type ≤ 4) : 0 < size type := by
  rw [size, if_pos known]
  split <;> decide

theorem scan_known {conf : Nat → UInt8} (known : ∀ p, Visits conf p → p < length conf → conf p ≤ 4)
    (fuel p : Nat) (mp : State) (here : Visits conf p) (few : mp.ncpu ≤ NCPU) (enough : length conf - p < fuel) :
    ∃ mp', scan conf fuel p mp = some mp' ∧ mp'.ncpu ≤ NCPU ∧ mp'.ismp = mp.ismp := by
  induction fuel generalizing p mp with
  | zero => omega
  | succ fuel ih =>
    rw [scan]
    split
    · rename_i low
      have further := size_known (known p here low)
      obtain ⟨few, eq⟩ := entry_known (known p here low) few
      obtain ⟨mp', done, few', eq'⟩ := ih _ (entry conf p mp) (here.next low) few (by omega)
      exact ⟨mp', done, few', eq'.trans eq⟩
    · exact ⟨mp, rfl, few, rfl⟩

theorem Visits.ends {conf : Nat → UInt8} {p : Nat} (here : Visits conf p) {fuel : Nat} {mp mp' : State}
    (done : scan conf fuel 44 mp = some mp') : ∃ fuel mp, scan conf fuel p mp = some mp' := by
  induction here with
  | first => exact ⟨fuel, mp, done⟩
  | next _ low ih =>
    obtain ⟨_ | fuel, mp, done⟩ := ih
    · cases done
    · rw [scan, if_pos low] at done
      exact ⟨fuel, _, done⟩

theorem scan_unknown {conf : Nat → UInt8} {p : Nat} (low : p < length conf) (unknown : ¬conf p ≤ 4) (fuel : Nat)
    (mp : State) : scan conf fuel p mp = none := by
  -- The entry has no size, so every round is at the same place.
  have still : size (conf p) = 0 := by
    rw [size, if_neg fun zero : conf p = 0 => unknown (zero ▸ by decide), if_neg unknown]
  induction fuel generalizing mp with
  | zero => rfl
  | succ fuel ih =>
    rw [scan, if_pos low, still]
    exact ih _

/-- The loop ends, with at most `NCPU` CPUs and with one where it met an entry of unknown type, exactly if
it meets none of those. -/
theorem mpinit_known (conf : Nat → UInt8) (valid : mpconfig conf = true) :
    (∃ fuel mp, mpinit conf fuel boot = some mp ∧ mp.ncpu ≤ NCPU ∧
      ((∃ p, Visits conf p ∧ p < length conf ∧ ¬conf p ≤ 4) → mp.ismp = false ∧ mp.ncpu = 1)) ↔
    ∀ p, Visits conf p → p < length conf → conf p ≤ 4 := by
  constructor
  · rintro ⟨fuel, mp, done, _⟩ p here low
    rw [mpinit, if_pos valid, Option.map_eq_some_iff] at done
    obtain ⟨_, done, _⟩ := done
    obtain ⟨fuel, mp, done⟩ := here.ends done
    by_contra unknown
    rw [scan_unknown low unknown] at done
    cases done
  · intro known
    obtain ⟨mp, done, few, same⟩ := scan_known known (length conf + 1) 44 ⟨true, 0, boot.apicid, 0⟩ .first
      (Nat.zero_le _) (by omega)
    refine ⟨length conf + 1, mp, ?_, few, fun ⟨p, here, low, unknown⟩ => absurd (known p here low) unknown⟩
    rw [mpinit, if_pos valid]
    exact (congrArg _ done).trans (by simp [same])

/-- A table with one entry, of the type and length given. -/
def oneEntry (type length checksum : UInt8) : Nat → UInt8
  | 0 | 3 => 80
  | 1 => 67
  | 2 => 77
  | 4 => length
  | 6 => 1
  | 7 => checksum
  | 44 => type
  | _ => 0

theorem mpinit_known_cpu : mpconfig (oneEntry 0 64 143) = true ∧
    ∃ fuel mp, mpinit (oneEntry 0 64 143) fuel boot = some mp ∧ mp.ncpu ≤ NCPU := by
  have zero : ∀ p < 64, 44 ≤ p → oneEntry 0 64 143 p ≤ 4 := by decide +kernel
  have valid : mpconfig (oneEntry 0 64 143) = true := by decide +kernel
  obtain ⟨fuel, mp, done, few, _⟩ := (mpinit_known _ valid).mpr fun p visits inside => zero p inside <| by
    clear inside
    induction visits with
    | first => exact le_rfl
    | next _ _ ih => exact ih.trans (Nat.le_add_right _ _)
  exact ⟨valid, fuel, mp, done, few⟩

/-- At an entry of an unknown type the loop does not move on. -/
theorem mpinit_unknown : mpconfig (oneEntry 5 45 157) = true ∧ ∀ fuel, mpinit (oneEntry 5 45 157) fuel boot = none := by
  have valid : mpconfig (oneEntry 5 45 157) = true := by decide +kernel
  exact ⟨valid, fun fuel => by rw [mpinit, if_pos valid, scan_unknown (by decide +kernel) (by decide +kernel)]; rfl⟩

end Xv6.Mp
