import Mathlib.Data.BitVec

/-! The counting of system calls: `syscall` (`syscall.c`) and `updatecount` (`sysfile.c`), over the
words of the kernel's memory. The lock around `updatecount` makes a call one step. -/

namespace Xv6.SyscallCount

open List Function

abbrev Word := BitVec 30

def counts : Nat := 23

/-- `count_array[index]`, whatever the index: the address is computed modulo `2 ^ 32`. -/
def element (countArray : Word) (index : BitVec 32) : Word := countArray + index.setWidth 30

/-- Where the linker has put the variables. -/
structure Layout where
  countArray : Word
  inits : Word
  init : Word
  inits_apart : ∀ index : BitVec 32, index.toNat < counts → element countArray index ≠ inits
  init_apart : ∀ index : BitVec 32, index.toNat < counts → element countArray index ≠ init
  inits_ne_init : inits ≠ init

/-- The memory, and which elements of `count_array` were accessed. -/
structure State where
  memory : Word → BitVec 32
  accesses : List (BitVec 32)

structure Trap where
  killed : Bool
  eax : BitVec 32

section

variable (lay : Layout)

def State.set (st : State) (word : Word) (value : BitVec 32) : State :=
  { st with memory := update st.memory word value }

def State.store (st : State) (index value : BitVec 32) : State where
  memory := update st.memory (element lay.countArray index) value
  accesses := index :: st.accesses

def clearCounts (st : State) : State :=
  (List.range counts).foldl (fun st i => st.store lay (BitVec.ofNat 32 i) 0) st

def updatecount (syscall : BitVec 32) (st : State) : State :=
  let cleared := if st.memory lay.inits = 0 then clearCounts lay st else st
  let marked := cleared.set lay.inits 1
  marked.store lay syscall (marked.memory (element lay.countArray syscall) + 1)

def getcountinit (st : State) : State := st.set lay.init 1

def syscall (st : State) (num : BitVec 32) : State :=
  let ready := if st.memory lay.init = 0 then (getcountinit lay st).set lay.init 1 else st
  updatecount lay num ready

/-- `trap`: a process that was killed exits before the call. -/
def trap (st : State) (entry : Trap) : State :=
  if entry.killed then st else syscall lay st entry.eax

def run (st : State) (traps : List Trap) : State := traps.foldl (trap lay) st

def booted (memory : Word → BitVec 32) : Prop :=
  memory lay.inits = 0 ∧ ∀ index : BitVec 32, index.toNat < counts → memory (element lay.countArray index) = 0

def calls (traps : List Trap) (number : BitVec 32) : Nat :=
  traps.countP fun entry => !entry.killed && entry.eax = number

end

theorem element_inj {countArray : Word} {i j : BitVec 32} (left : i.toNat < counts)
    (right : j.toNat < counts) (eq : element countArray i = element countArray j) : i = j := by
  have widths : i.setWidth 30 = j.setWidth 30 := add_left_cancel eq
  have values := congrArg BitVec.toNat widths
  simp only [BitVec.toNat_setWidth, counts] at values left right
  apply BitVec.eq_of_toNat_eq
  omega

variable {lay : Layout}

def Foreign (lay : Layout) (word : Word) : Prop :=
  word ≠ lay.inits ∧ word ≠ lay.init ∧ ∀ index : BitVec 32, index.toNat < counts → word ≠ element lay.countArray index

structure Counted (lay : Layout) (before : Word → BitVec 32) (done : List Trap) (st : State) :
    Prop where
  within : ∀ index ∈ st.accesses, index.toNat < counts
  foreign : ∀ word, Foreign lay word → st.memory word = before word
  -- Before the first call the array is to be cleared, and holds zeros anyway.
  count : ∀ index : BitVec 32, index.toNat < counts →
    st.memory (element lay.countArray index) = BitVec.ofNat 32 (calls done index)
  inits : st.memory lay.inits = 0 → ∀ number, calls done number = 0

theorem clear_zeros (indices : List Nat) (s : State) (small : ∀ i ∈ indices, i < counts)
    (zeros : ∀ i ∈ indices, s.memory (element lay.countArray (BitVec.ofNat 32 i)) = 0)
    (within : ∀ index ∈ s.accesses, index.toNat < counts) :
    let cleared := indices.foldl (fun s i => s.store lay (BitVec.ofNat 32 i) 0) s
    cleared.memory = s.memory ∧ ∀ index ∈ cleared.accesses, index.toNat < counts := by
  induction indices generalizing s with
  | nil => exact ⟨rfl, within⟩
  | cons i rest ih =>
    have eq : (s.store lay (BitVec.ofNat 32 i) 0).memory = s.memory := by
      rw [State.store, ← zeros i mem_cons_self, update_eq_self]
    have below : ∀ index ∈ (s.store lay (BitVec.ofNat 32 i) 0).accesses, index.toNat < counts := by
      intro index accessed
      rcases mem_cons.mp accessed with rfl | earlier
      · have lt := small i mem_cons_self
        simp only [counts] at lt ⊢
        rw [BitVec.toNat_ofNat, Nat.mod_eq_of_lt (by omega)]
        exact lt
      · exact within index earlier
    have later := ih (s.store lay (BitVec.ofNat 32 i) 0) (fun j mem => small j (mem_cons_of_mem _ mem))
      (fun j mem => by rw [eq]; exact zeros j (mem_cons_of_mem _ mem)) below
    exact ⟨later.1.trans eq, later.2⟩

section

variable {pre : Word → BitVec 32} {done : List Trap} {s : State}

section

variable (cnt : Counted lay pre done s)

include cnt

theorem Counted.cleared (fresh : s.memory lay.inits = 0) : (clearCounts lay s).memory = s.memory ∧
      ∀ index ∈ (clearCounts lay s).accesses, index.toNat < counts := by
  refine clear_zeros _ s (fun i mem => mem_range.mp mem) ?_ cnt.within
  intro i mem
  have lt := mem_range.mp mem
  rw [cnt.count _ ?_, cnt.inits fresh]
  · rfl
  · simp only [counts] at lt ⊢
    rw [BitVec.toNat_ofNat, Nat.mod_eq_of_lt (by omega)]
    exact lt

theorem Counted.updates (num : BitVec 32) : (updatecount lay num s).memory = update
        (update s.memory lay.inits 1) (element lay.countArray num)
        (update s.memory lay.inits 1 (element lay.countArray num) + 1) ∧
      ∀ i ∈ (updatecount lay num s).accesses, i = num ∨ i.toNat < counts := by
  unfold updatecount
  by_cases fresh : s.memory lay.inits = 0
  · obtain ⟨same, within⟩ := cnt.cleared fresh
    simp only [fresh, ↓reduceIte, State.store, State.set, same, mem_cons, true_and]
    intro i accessed
    exact accessed.imp_right (within i)
  · simp only [fresh, ↓reduceIte, State.store, State.set, mem_cons, true_and]
    intro i accessed
    exact accessed.imp_right (cnt.within i)

theorem Counted.init (val : BitVec 32) : Counted lay pre done (s.set lay.init val) where
  within := cnt.within
  foreign := by
    intro word o
    simp only [State.set]
    rw [update_of_ne o.2.1, cnt.foreign word o]
  count := by
    intro i small
    simp only [State.set]
    rw [update_of_ne (lay.init_apart i small), cnt.count i small]
  inits := by
    simp only [State.set]
    rw [update_of_ne lay.inits_ne_init]
    exact cnt.inits

end

theorem calls_snoc (entry : Trap) (live : entry.killed = false) (num : BitVec 32) :
    calls (done ++ [entry]) num = calls done num + if entry.eax = num then 1 else 0 := by
  simp [calls, countP_append, live, countP_cons]

theorem Counted.call (cnt : Counted lay pre done s) {entry : Trap}
    (live : entry.killed = false) (small : entry.eax.toNat < counts) :
    Counted lay pre (done ++ [entry]) (updatecount lay entry.eax s) := by
  obtain ⟨memory, accesses⟩ := cnt.updates entry.eax
  constructor
  case within =>
    intro i accessed
    rcases accesses i accessed with rfl | within
    · exact small
    · exact within
  case foreign =>
    intro word o
    rw [memory, update_of_ne (o.2.2 _ small), update_of_ne o.1, cnt.foreign word o]
  case count =>
    intro i lt
    rw [memory, calls_snoc entry live]
    by_cases eq : entry.eax = i
    · subst eq
      rw [update_self, update_of_ne (lay.inits_apart _ small), cnt.count _ small]
      simp [BitVec.ofNat_add]
    · have ne : element lay.countArray i ≠ element lay.countArray entry.eax :=
        fun also => eq (element_inj lt small also).symm
      rw [update_of_ne ne, update_of_ne (lay.inits_apart i lt), cnt.count i lt]
      simp [eq]
  case inits =>
    intro zero
    rw [memory, update_of_ne (lay.inits_apart _ small).symm, update_self] at zero
    contradiction

theorem Counted.enter (cnt : Counted lay pre done s) {entry : Trap}
    (small : entry.killed = false → entry.eax.toNat < counts) :
    Counted lay pre (done ++ [entry]) (trap lay s entry) := by
  unfold trap
  split
  · rename_i killed
    have eq : ∀ num, calls (done ++ [entry]) num = calls done num := by
      intro num
      simp [calls, countP_append, killed]
    exact ⟨cnt.within, cnt.foreign, fun i lt => by rw [eq, cnt.count i lt],
      fun zero num => by rw [eq, cnt.inits zero num]⟩
  · rename_i live
    have live : entry.killed = false := by simpa using live
    unfold syscall
    split
    · exact ((cnt.init 1).init 1).call live (small live)
    · exact cnt.call live (small live)

theorem Counted.all (traps : List Trap) (cnt : Counted lay pre done s)
    (small : ∀ entry ∈ traps, entry.killed = false → entry.eax.toNat < counts) :
    Counted lay pre (done ++ traps) (run lay s traps) := by
  induction traps generalizing done s with
  | nil => simpa [run] using cnt
  | cons entry rest ih =>
    have later := ih (cnt.enter (small entry mem_cons_self)) fun o mem =>
      small o (mem_cons_of_mem _ mem)
    rw [append_assoc] at later
    exact later

end

theorem counted_booted {memory : Word → BitVec 32} (boot : booted lay memory) : Counted lay memory [] ⟨memory, []⟩ where
  within := by simp
  foreign := fun _ _ => rfl
  count := boot.2
  inits := fun _ _ => rfl

/-- As long as every number is one of the array, the accesses stay within it, nothing but the
variables of the accounting changes, and every count is right. -/
theorem syscalls_counted (lay : Layout) (memory : Word → BitVec 32) (boot : booted lay memory)
    (traps : List Trap) (small : ∀ entry ∈ traps, entry.killed = false → entry.eax.toNat < counts) :
    (∀ index ∈ (run lay ⟨memory, []⟩ traps).accesses, index.toNat < counts) ∧
    (∀ word, Foreign lay word → (run lay ⟨memory, []⟩ traps).memory word = memory word) ∧
    ∀ number : BitVec 32, number.toNat < counts → (run lay ⟨memory, []⟩ traps).memory (element lay.countArray number) =
        BitVec.ofNat 32 (calls traps number) := by
  have cnt := (counted_booted boot).all traps small
  exact ⟨cnt.within, cnt.foreign, cnt.count⟩

def bottom : Layout where
  countArray := 0
  inits := 24
  init := 25
  inits_apart := by
    intro index small same
    have values := congrArg BitVec.toNat same
    simp [element, counts] at values small
    omega
  init_apart := by
    intro index small same
    have values := congrArg BitVec.toNat same
    simp [element, counts] at values small
    omega
  inits_ne_init := by decide

theorem syscalls_counted_getcount :
    (run bottom ⟨fun _ => 0, []⟩ [⟨false, 1⟩, ⟨false, 22⟩, ⟨true, 22⟩, ⟨false, 22⟩]).memory
      (element bottom.countArray 22) = 2 := by
  have cnt := syscalls_counted bottom (fun _ => 0) ⟨rfl, fun _ _ => rfl⟩
    [⟨false, 1⟩, ⟨false, 22⟩, ⟨true, 22⟩, ⟨false, 22⟩] (by decide)
  exact cnt.2.2 22 (by decide)

/-- The number of `mkSmallFilesdir` is the length of the array: its call writes to the word behind. -/
theorem mkSmallFilesdir_overruns : booted bottom (fun _ => 0) ∧ Foreign bottom (element bottom.countArray 23) ∧
    (23 : BitVec 32) ∈ (run bottom ⟨fun _ => 0, []⟩ [⟨false, 23⟩]).accesses ∧
    (run bottom ⟨fun _ => 0, []⟩ [⟨false, 23⟩]).memory (element bottom.countArray 23) = 1 := by
  refine ⟨⟨rfl, fun _ _ => rfl⟩, ⟨by decide, by decide, ?_⟩, by decide +kernel, by decide +kernel⟩
  intro index small same
  have values := congrArg BitVec.toNat same
  simp [element, bottom, counts] at values small
  omega

end Xv6.SyscallCount
