import Xv6.VmFork

/-! The bytes of user pages, and `copyout`, which writes them through a page table that need not be the
current one. -/

namespace Xv6.Vm

open Exec Exec.Prog List Entry Function

def Entry.number (entry : Entry) : Nat := entry.frame * 4096 + entry.flags.toNat

def Entry.byte (entry : Entry) (lane : Nat) : UInt8 := UInt8.ofNat (entry.number / 256 ^ lane)

def Entry.ofBytes (bytes : Nat → UInt8) : Entry :=
  let number := (bytes 0).toNat + 256 * (bytes 1).toNat + 65536 * (bytes 2).toNat + 16777216 * (bytes 3).toNat
  ⟨number / 4096, BitVec.ofNat 12 number⟩

theorem Entry.byte_ofBytes (bytes : Nat → UInt8) {lane : Nat} (low : lane < 4) :
    (ofBytes bytes).byte lane = bytes lane := by
  have lt := fun lane => (bytes lane).toNat_lt
  have b0 := lt 0
  have b1 := lt 1
  have b2 := lt 2
  have b3 := lt 3
  apply UInt8.toNat_inj.mp
  simp only [byte, Entry.number, ofBytes, UInt8.toNat_ofNat', BitVec.toNat_ofNat]
  obtain rfl | rfl | rfl | rfl : lane = 0 ∨ lane = 1 ∨ lane = 2 ∨ lane = 3 := by omega
  all_goals omega

def Mem.byte (mem : Mem) (page off : Nat) : UInt8 :=
  (mem.word page (Fin.ofNat 1024 (off / 4))).byte (off % 4)

def Mem.store (mem : Mem) (page off : Nat) (bytes : List UInt8) : Mem :=
  { mem with word := update mem.word page fun index => .ofBytes fun lane =>
      let place := index.val * 4 + lane
      if off ≤ place then bytes.getD (place - off) (mem.byte page place) else mem.byte page place }

section

variable {mem : Mem} {page o off k : Nat} {bytes : List UInt8}

theorem Mem.byte_store (low : k < PGSIZE) : (mem.store page off bytes).byte o k =
    if o = page ∧ off ≤ k then bytes.getD (k - off) (mem.byte page k)
      else mem.byte o k := by
  by_cases eq : o = page
  · subst o
    have word : (k / 4) % 1024 * 4 + k % 4 = k := by
      simp only [PGSIZE] at low
      omega
    rw [Mem.byte, Mem.store]
    simp only [update_self, byte_ofBytes _ (Nat.mod_lt k (by decide : 4 > 0)), Fin.val_ofNat, word, true_and]
  · rw [if_neg (fun both => eq both.1), Mem.byte, Mem.byte, Mem.store]
    simp only [update_of_ne eq]

theorem Mem.store_word (ne : o ≠ page) : (mem.store page off bytes).word o = mem.word o :=
  update_of_ne ne _ _

end

def uva2ka (pgdir uva : Nat) : MemM (Option Nat) := do
  match ← walkpgdir pgdir uva false with
  -- `*pte` through a null pointer
  | none => halt .fault
  | some (pgtab, index) => do
    let mem ← get
    let pte := mem.word pgtab index
    if !pte.present then pure none
    else if !pte.user then pure none
    else pure (some pte.frame)

def copyoutLoop (pgdir : Nat) : Nat → Nat → List UInt8 → MemM Int
  | 0, _, _ => pure 0
  | fuel + 1, va, buf => do
    if buf.length = 0 then pure 0
    else
      match ← uva2ka pgdir (va / PGSIZE) with
      | none => pure (-1)
      | some pa0 => do
        let n := min (PGSIZE - va % PGSIZE) buf.length
        modify fun mem => mem.store pa0 (va % PGSIZE) (buf.take n)
        copyoutLoop pgdir fuel ((va / PGSIZE * PGSIZE + PGSIZE) % 2 ^ 32) (buf.drop n)

def copyout (pgdir va : Nat) (buf : List UInt8) : MemM Int := copyoutLoop pgdir buf.length va buf

/-- The page-directory entry and the page-table entry of the address `va`, which wraps around at `2 ^ 32`. -/
def Mem.pdeAt (mem : Mem) (pgdir va : Nat) : Entry := mem.word pgdir (pdx (va % 2 ^ 32 / PGSIZE))

def Mem.pteAt (mem : Mem) (pgdir va : Nat) : Entry := mem.lookup pgdir (va % 2 ^ 32 / PGSIZE)

def Mem.seen (mem : Mem) (pgdir va : Nat) : UInt8 := mem.byte (mem.pteAt pgdir va).frame (va % PGSIZE)

def Mem.open_ (mem : Mem) (pgdir va : Nat) : Bool := (mem.pteAt pgdir va).present && (mem.pteAt pgdir va).user

/-- The pages the user can write between `lo` and `hi` are not part of the page table. -/
structure Plain (mem : Mem) (pgdir lo hi : Nat) : Prop where
  root : ∀ va, lo ≤ va → va < hi → mem.open_ pgdir va = true → (mem.pteAt pgdir va).frame ≠ pgdir
  nodes : ∀ va va', lo ≤ va → va < hi → lo ≤ va' → va' < hi → mem.open_ pgdir va = true →
    (mem.pdeAt pgdir va').present = true → (mem.pteAt pgdir va).frame ≠ (mem.pdeAt pgdir va').frame

/-- Up to the first page that the user cannot write, that page included, there is a page table. -/
def Tabled (mem : Mem) (pgdir va len : Nat) : Prop :=
  ∀ i < len, (∀ j < i, mem.open_ pgdir (va + j) = true) → (mem.pdeAt pgdir (va + i)).present = true

/-- Where two addresses of the range are one byte of memory, the buffer has the same byte for both. -/
def Steady (frame : Nat → Nat) (va : Nat) (buf : List UInt8) : Prop :=
  ∀ i < buf.length, ∀ j < buf.length, frame (va + i) = frame (va + j) →
    (va + i) % PGSIZE = (va + j) % PGSIZE → buf[i]? = buf[j]?

def Elsewhere (frame : Nat → Nat) (mem : Mem) (va len : Nat) (mem' : Mem) : Prop :=
  ∀ page, (∀ i < len, frame (va + i) ≠ page) → mem'.word page = mem.word page

structure Wrote (frame : Nat → Nat) (mem : Mem) (va : Nat) (buf : List UInt8) (mem' : Mem) : Prop where
  hit : ∀ i (inside : i < buf.length), mem'.byte (frame (va + i)) ((va + i) % PGSIZE) = buf[i]
  miss : ∀ page place, place < PGSIZE → (∀ i < buf.length, frame (va + i) = page →
    (va + i) % PGSIZE ≠ place) → mem'.byte page place = mem.byte page place

section

variable {frame : Nat → Nat} {mem mem' mem'' : Mem} {va len : Nat} {buf rest : List UInt8}

theorem Wrote.nil : Wrote frame mem va [] mem where
  hit := by simp
  miss := fun _ _ _ _ => rfl

theorem Wrote.store (fits : va % PGSIZE + buf.length ≤ PGSIZE) (one : ∀ i < buf.length, frame (va + i) = frame va) :
    Wrote frame mem va buf (mem.store (frame va) (va % PGSIZE) buf) where
  hit := by
    intro i inside
    have k : (va + i) % PGSIZE = va % PGSIZE + i := by
      simp only [PGSIZE] at *
      omega
    rw [k, one i inside, Mem.byte_store (by omega), if_pos ⟨rfl, by omega⟩, Nat.add_sub_cancel_left,
      getD_eq_getElem _ _ inside]
  miss := by
    intro page k lt apart
    rw [Mem.byte_store lt]
    split
    · rename_i here
      obtain ⟨rfl, low⟩ := here
      refine getD_eq_default _ _ (Nat.not_lt.mp fun inside => ?_)
      refine apart _ inside (one _ inside) ?_
      simp only [PGSIZE] at *
      omega
    · rfl

theorem Steady.drop {n : Nat} (steady : Steady frame va buf) : Steady frame (va + n) (buf.drop n) := by
  intro i low j low' page place
  rw [length_drop] at low low'
  rw [getElem?_drop, getElem?_drop]
  rw [Nat.add_assoc, Nat.add_assoc] at page place
  exact steady _ (by omega) _ (by omega) page place

theorem Elsewhere.append {n : Nat} (fst : Elsewhere frame mem va n mem')
    (snd : Elsewhere frame mem' (va + n) (len - n) mem'') (some_ : n ≤ len) : Elsewhere frame mem va len mem'' := by
  intro page apart
  refine (snd page fun j low => ?_).trans (fst page fun i low => apart i (by omega))
  rw [Nat.add_assoc]
  exact apart _ (by omega)

theorem Wrote.append (fst : Wrote frame mem va buf mem') (snd : Wrote frame mem' (va + buf.length) rest mem'')
    (steady : Steady frame va (buf ++ rest)) : Wrote frame mem va (buf ++ rest) mem'' := by
  have later : ∀ j < rest.length, va + buf.length + j = va + (buf.length + j) ∧
      buf.length + j < (buf ++ rest).length := by
    intro j low
    rw [length_append]
    omega
  constructor
  case hit =>
    intro i low
    by_cases early : i < buf.length
    · rw [getElem_append_left early]
      by_cases again : ∃ j < rest.length, frame (va + buf.length + j) = frame (va + i) ∧
          (va + buf.length + j) % PGSIZE = (va + i) % PGSIZE
      · obtain ⟨j, lt, page, k⟩ := again
        rw [← page, ← k, snd.hit j lt]
        rw [(later j lt).1] at page k
        have both := steady i low _ (later j lt).2 page.symm k.symm
        rw [getElem?_append_left early, getElem?_append_right (by omega), Nat.add_sub_cancel_left,
          getElem?_eq_getElem early, getElem?_eq_getElem lt] at both
        exact (Option.some.inj both).symm
      · rw [← fst.hit i early]
        exact snd.miss _ _ (Nat.mod_lt _ (by decide)) fun j lt eq k => again ⟨j, lt, eq, k⟩
    · have lt : i - buf.length < rest.length := by
        rw [length_append] at low
        omega
      have here := snd.hit _ lt
      rw [(later _ lt).1, Nat.add_sub_cancel' (by omega)] at here
      rw [here, getElem_append_right (by omega)]
  case miss =>
    intro page k lt apart
    refine (snd.miss page k lt fun j low => ?_).trans (fst.miss page k lt fun i low => ?_)
    · rw [(later j low).1]
      exact apart _ (later j low).2
    · exact apart i (by rw [length_append]; omega)

end

section

variable {mem mem' : Mem} {pgdir va : Nat} {buf : List UInt8} {stops : Stop → Prop}

theorem holds_uva2ka : Holds (uva2ka pgdir (va % 2 ^ 32 / PGSIZE)) mem (fun res mem' => mem' = mem ∧
      (mem.pdeAt pgdir va).present = true ∧ res = if mem.open_ pgdir va then some (mem.pteAt pgdir va).frame else none)
    fun _ => (mem.pdeAt pgdir va).present = false := by
  rw [Mem.open_, Mem.pteAt, Mem.lookup, Mem.pdeAt]
  generalize va % 2 ^ 32 / PGSIZE = place
  cases table : (mem.word pgdir (pdx place)).present with
  | false => simp [uva2ka, walkpgdir, holds_bind, holds_get, table, holds_pure, holds_halt]
  | true =>
    simp only [uva2ka, walkpgdir, holds_bind, holds_get, table, ↓reduceIte, holds_pure]
    generalize mem.word (mem.word pgdir (pdx place)).frame (ptx place) = entry
    by_cases has : entry.present = true <;> by_cases user : entry.user = true
    all_goals simp [has, user]

theorem copyoutLoop_nil (fuel va : Nat) : copyoutLoop pgdir fuel va [] = pure 0 := by
  cases fuel <;> rfl

theorem Mem.pteAt_of_words (root : mem'.word pgdir = mem.word pgdir) (node : (mem.pdeAt pgdir va).present = true →
      mem'.word (mem.pdeAt pgdir va).frame = mem.word (mem.pdeAt pgdir va).frame) :
    mem'.pteAt pgdir va = mem.pteAt pgdir va := by
  rw [Mem.pteAt, Mem.pteAt, Mem.lookup, Mem.lookup, root]
  split
  · rename_i table
    exact congrFun (node table) _
  · rfl

/-- How `copyout` of `buf` to `va` ends, by the page table of `start`. -/
def Out (start : Mem) (pgdir va : Nat) (buf : List UInt8) (mem : Mem) (r : Int) (mem' : Mem) : Prop :=
  Tabled start pgdir va buf.length ∧
  ((∀ i < buf.length, start.open_ pgdir (va + i) = true) →
    r = 0 ∧ Elsewhere (fun va => (start.pteAt pgdir va).frame) mem va buf.length mem' ∧
      (Steady (fun va => (start.pteAt pgdir va).frame) va buf →
        Wrote (fun va => (start.pteAt pgdir va).frame) mem va buf mem')) ∧
  ((∃ i < buf.length, start.open_ pgdir (va + i) = false) → r = -1)

theorem holds_copyoutLoop_nil {s0 : Mem} (fuel va va' : Nat) :
    Holds (copyoutLoop pgdir fuel va []) mem (Out s0 pgdir va' [] mem) stops := by
  rw [copyoutLoop_nil, holds_pure]
  exact ⟨by simp [Tabled], fun _ => ⟨rfl, fun _ _ => rfl, fun _ => .nil⟩, by simp⟩

theorem Tabled.shift {n len : Nat} (written : ∀ i < n, mem.open_ pgdir (va + i) = true) (some_ : n ≤ len) :
    Tabled mem pgdir va len ↔ (∀ i < n, (mem.pdeAt pgdir (va + i)).present = true) ∧
      Tabled mem pgdir (va + n) (len - n) := by
  constructor
  · intro tabled
    refine ⟨fun i low => tabled i (by omega) fun j lt => written j (by omega), fun i low before => ?_⟩
    rw [Nat.add_assoc]
    refine tabled _ (by omega) fun j lt => ?_
    by_cases early : j < n
    · exact written j early
    · have here := before (j - n) (by omega)
      rwa [Nat.add_assoc, Nat.add_sub_cancel' (by omega)] at here
  · rintro ⟨fst, rest⟩ i low before
    by_cases early : i < n
    · exact fst i early
    · have here := rest (i - n) (by omega) fun j lt => by
        rw [Nat.add_assoc]
        exact before _ (by omega)
      rwa [Nat.add_assoc, Nat.add_sub_cancel' (by omega)] at here

/-- The user cannot write the first page. -/
theorem Out.shut {s0 : Mem} (closed : s0.open_ pgdir va = false) (some_ : 0 < buf.length)
    (table : (s0.pdeAt pgdir va).present = true) : Out s0 pgdir va buf mem (-1) mem' := by
  have none : ∀ i, (∀ j < i, s0.open_ pgdir (va + j) = true) → i = 0 := by
    intro i all
    by_contra pos
    have := all 0 (by omega)
    rw [Nat.add_zero, closed] at this
    contradiction
  refine ⟨fun i _ before => ?_, fun all => ?_, fun _ => rfl⟩
  · rw [none i before]
    exact table
  · rw [none _ all] at some_
    contradiction

/-- Pages the user can write, then the rest. -/
theorem Out.append {s0 middle : Mem} {n : Nat} {r : Int} (snd : Out s0 pgdir (va + n) (buf.drop n) middle r mem')
    (ran : (buf.take n).length = n) (opens : ∀ i < n, s0.open_ pgdir (va + i) = true)
    (tables : ∀ i < n, (s0.pdeAt pgdir (va + i)).present = true)
    (fst : Wrote (fun va => (s0.pteAt pgdir va).frame) mem va (buf.take n) middle)
    (spares : Elsewhere (fun va => (s0.pteAt pgdir va).frame) mem va n middle) : Out s0 pgdir va buf mem r mem' := by
  obtain ⟨tabled, succeeds, fails⟩ := snd
  rw [length_drop] at tabled succeeds fails
  rw [length_take] at ran
  refine ⟨(Tabled.shift opens (by omega)).mpr ⟨tables, tabled⟩, fun all => ?_, ?_⟩
  · obtain ⟨rfl, others, wrote⟩ := succeeds fun i inside => by
      rw [Nat.add_assoc]
      exact all _ (by omega)
    refine ⟨rfl, spares.append others (by omega), fun steady => ?_⟩
    have whole := fst.append (by rw [length_take, ran]; exact wrote steady.drop) (by rwa [take_append_drop])
    rwa [take_append_drop] at whole
  · rintro ⟨i, inside, closed⟩
    have beyond : n ≤ i := by
      by_contra early
      rw [opens i (by omega)] at closed
      contradiction
    refine fails ⟨i - n, by omega, ?_⟩
    rw [Nat.add_assoc, Nat.add_sub_cancel' beyond, closed]

/-- One page at a time: the pages written so far are not part of the page table, so the walk of the rest still
reads the entries of `s0`. -/
theorem Plain.holds_copyoutLoop {s0 : Mem} {lo hi : Nat} (plain : Plain s0 pgdir lo hi) (fuel : Nat)
    (enough : buf.length ≤ fuel) (above : lo ≤ va) (ends : va + buf.length = hi) (dir : mem.word pgdir = s0.word pgdir)
    (entries : ∀ va', va ≤ va' → va' < hi → mem.pteAt pgdir va' = s0.pteAt pgdir va') :
    Holds (copyoutLoop pgdir fuel (va % 2 ^ 32) buf) mem (Out s0 pgdir va buf mem)
      fun _ => ¬Tabled s0 pgdir va buf.length := by
  induction fuel generalizing va buf mem with
  | zero =>
    obtain rfl := length_eq_zero_iff.mp (Nat.le_zero.mp enough)
    exact holds_copyoutLoop_nil 0 _ va
  | succ fuel ih =>
    rcases Nat.eq_zero_or_pos buf.length with empty | some_
    · obtain rfl := length_eq_zero_iff.mp empty
      exact holds_copyoutLoop_nil _ _ va
    rw [copyoutLoop, if_neg some_.ne']
    have pde : ∀ va, mem.pdeAt pgdir va = s0.pdeAt pgdir va := fun _ => congrFun dir _
    refine (holds_uva2ka.mono (fun _ _ => id) fun _ absent tabled => ?_).bind ?_
    · have := tabled 0 some_ (by simp)
      rw [Nat.add_zero, ← pde, absent] at this
      contradiction
    rintro res mem' ⟨rfl, table, rfl⟩
    rw [pde] at table
    rw [Mem.open_, entries va le_rfl (by omega), ← Mem.open_]
    cases ok : s0.open_ pgdir va with
    | false => exact .pure (.shut ok some_ table)
    | true =>
      simp only [↓reduceIte, holds_bind, holds_modify]
      rw [show va % 2 ^ 32 % PGSIZE = va % PGSIZE from Nat.mod_mod_of_dvd _ (by decide)]
      have room : va % PGSIZE < PGSIZE := Nat.mod_lt _ (by decide)
      generalize chunk : min (PGSIZE - va % PGSIZE) buf.length = n
      have ran : (buf.take n).length = n := by
        rw [length_take]
        omega
      have page : ∀ i < n, (va + i) % 2 ^ 32 / PGSIZE = va % 2 ^ 32 / PGSIZE := by
        intro i inside
        simp only [PGSIZE] at *
        omega
      have one : ∀ i < n, s0.pteAt pgdir (va + i) = s0.pteAt pgdir va := by
        intro i inside
        rw [Mem.pteAt, Mem.pteAt, page i inside]
      have opens : ∀ i < n, s0.open_ pgdir (va + i) = true := by
        intro i inside
        rw [Mem.open_, one i inside, ← Mem.open_, ok]
      have tables : ∀ i < n, (s0.pdeAt pgdir (va + i)).present = true := by
        intro i inside
        rw [Mem.pdeAt, page i inside]
        exact table
      generalize stored : mem'.store (s0.pteAt pgdir va).frame (va % PGSIZE) (buf.take n) = middle
      have next : Holds (copyoutLoop pgdir fuel ((va % 2 ^ 32 / PGSIZE * PGSIZE + PGSIZE) % 2 ^ 32) (buf.drop n))
          middle (Out s0 pgdir (va + n) (buf.drop n) middle)
          fun _ => ¬Tabled s0 pgdir (va + n) (buf.drop n).length := by
        by_cases last : buf.length ≤ n
        · rw [drop_eq_nil_of_le last]
          exact holds_copyoutLoop_nil _ _ _
        · have address : (va % 2 ^ 32 / PGSIZE * PGSIZE + PGSIZE) % 2 ^ 32 = (va + n) % 2 ^ 32 := by
            simp only [PGSIZE] at *
            omega
          have left : (buf.drop n).length = buf.length - n := length_drop
          have root := plain.root va above (by omega) ok
          rw [address, ← stored]
          refine ih (by omega) (by omega) (by omega) ((Mem.store_word root.symm).trans dir) ?_
          intro va' low high
          refine (Mem.pteAt_of_words (Mem.store_word root.symm) fun has => Mem.store_word ?_).trans
            (entries va' (by omega) high)
          rw [pde] at has ⊢
          exact (plain.nodes va va' above (by omega) (by omega) high ok has).symm
      subst stored
      refine next.mono (fun r mem'' snd => snd.append ran opens tables ?_ ?_) fun _ gap tabled => gap ?_
      · exact .store (by omega) fun i inside => congrArg Entry.frame (one i (ran ▸ inside))
      · exact fun page apart => Mem.store_word (apart 0 (by omega)).symm
      · rw [length_drop]
        exact ((Tabled.shift opens (by omega)).mp tabled).2

end

end Xv6.Vm
