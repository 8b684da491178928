import Mathlib.Data.BitVec

/-! The arguments of a system call (`syscall.c`): what is fetched from the memory of the process, with
every byte that is read, and `getcount` (`sysfile.c`), which stores through one of them. -/

namespace Xv6.Arguments

open List

abbrev Address := BitVec 32

def KERNBASE : Nat := 0x80000000

/-- What the fetching uses of a process: its size, the saved `esp`, and its memory. -/
structure Proc where
  sz : BitVec 32
  esp : BitVec 32
  memory : Address → BitVec 8
  below : sz.toNat ≤ KERNBASE

/-- The result, where none is -1, and the bytes that were read. -/
structure Fetch (α : Type) where
  result : Option α
  reads : List Address

def Fetch.bind {α β : Type} (first : Fetch α) (next : α → Fetch β) : Fetch β :=
  match first.result with
  | none => ⟨none, first.reads⟩
  | some v => ⟨(next v).result, first.reads ++ (next v).reads⟩

def Proc.word (p : Proc) (addr : Address) : BitVec 32 :=
  p.memory (addr + 3) ++ p.memory (addr + 2) ++ p.memory (addr + 1) ++ p.memory addr

def fetchint (p : Proc) (addr : Address) : Fetch (BitVec 32) :=
  if p.sz ≤ addr ∨ p.sz < addr + 4 then ⟨none, []⟩
  else ⟨some (p.word addr), [addr, addr + 1, addr + 2, addr + 3]⟩

def scan (p : Proc) (s : Address) : Fetch Address :=
  if below : s < p.sz then
    if p.memory s = 0 then ⟨some s, [s]⟩ else ⟨(scan p (s + 1)).result, s :: (scan p (s + 1)).reads⟩
  else ⟨none, []⟩
termination_by p.sz.toNat - s.toNat
decreasing_by all_goals bv_omega

/-- The pointer and the length, which is an `int`. -/
def fetchstr (p : Proc) (addr : Address) : Fetch (Address × Int) :=
  if p.sz ≤ addr then ⟨none, []⟩ else (scan p addr).bind fun s => ⟨some (addr, (s - addr).toInt), []⟩

def argint (p : Proc) (n : BitVec 32) : Fetch (BitVec 32) := fetchint p (p.esp + 4 + 4 * n)

def argptr (p : Proc) (n size : BitVec 32) : Fetch Address :=
  (argint p n).bind fun i =>
    if size.toInt < 0 ∨ p.sz ≤ i ∨ p.sz < i + size then ⟨none, []⟩ else ⟨some i, []⟩

def argstr (p : Proc) (n : BitVec 32) : Fetch (Address × Int) := (argint p n).bind (fetchstr p)

def Fetch.within {α : Type} (fetch : Fetch α) (p : Proc) : Prop := ∀ a ∈ fetch.reads, a.toNat < p.sz.toNat

structure StringAt (p : Proc) (addr : Address) (length : Nat) : Prop where
  within : addr.toNat + length < p.sz.toNat
  ends : p.memory (addr + BitVec.ofNat 32 length) = 0
  text : ∀ i < length, p.memory (addr + BitVec.ofNat 32 i) ≠ 0

def NoString (p : Proc) (addr : Address) : Prop := ∀ a, addr ≤ a → a < p.sz → p.memory a ≠ 0

variable {p : Proc}

theorem Fetch.within_bind {α β : Type} {fst : Fetch α} {next : α → Fetch β} (pre : fst.within p)
    (after : ∀ val, (next val).within p) : (fst.bind next).within p := by
  unfold Fetch.bind
  split
  · exact pre
  · rename_i val _
    intro a read
    exact (mem_append.mp read).elim (pre a) (after val a)

theorem Fetch.bind_eq_some {α β : Type} {fst : Fetch α} {next : α → Fetch β} {val : β} :
    (fst.bind next).result = some val ↔ ∃ given, fst.result = some given ∧ (next given).result = some val := by
  unfold Fetch.bind
  split <;> simp [*]

theorem fetchint_some {addr : Address} {val : BitVec 32} (hit : (fetchint p addr).result = some val) :
    addr.toNat + 4 ≤ p.sz.toNat ∧ (fetchint p addr).reads = [addr, addr + 1, addr + 2, addr + 3] := by
  have below := p.below
  unfold fetchint at hit ⊢
  split at hit
  · cases hit
  · rename_i low
    refine ⟨?_, by simp only [low, ↓reduceIte]⟩
    simp only [KERNBASE] at below
    -- below the kernel the addition cannot wrap
    bv_omega

theorem fetchint_within (p : Proc) (addr : Address) : (fetchint p addr).within p := by
  cases hit : (fetchint p addr).result with
  | none =>
    unfold fetchint at hit
    split at hit
    · rename_i outside
      simp only [Fetch.within, fetchint, outside, ↓reduceIte]
      simp
    · cases hit
  | some val =>
    obtain ⟨low, reads⟩ := fetchint_some hit
    have below := p.below
    simp only [KERNBASE] at below
    intro a read
    rw [reads] at read
    simp only [mem_cons, not_mem_nil, or_false] at read
    rcases read with rfl | rfl | rfl | rfl <;> bv_omega

theorem scan_within (p : Proc) (s : Address) : (scan p s).within p := by
  fun_induction scan p s with
  | case1 s below nul =>
    intro a read
    obtain rfl := mem_singleton.mp read
    exact below
  | case2 s below text ih =>
    intro a read
    rcases mem_cons.mp read with rfl | later
    · exact below
    · exact ih a later
  | case3 s above => simp [Fetch.within]

theorem scan_some {s t : Address} (hit : (scan p s).result = some t) :
    s ≤ t ∧ t < p.sz ∧ p.memory t = 0 ∧ ∀ a, s ≤ a → a < t → p.memory a ≠ 0 := by
  have lt := p.below
  simp only [KERNBASE] at lt
  fun_induction scan p s with
  | case1 s below nul =>
    cases hit
    refine ⟨by bv_omega, below, nul, ?_⟩
    intro a low high
    bv_omega
  | case2 s below text ih =>
    obtain ⟨after, inside, nul, pre⟩ := ih hit
    refine ⟨by bv_omega, inside, nul, ?_⟩
    intro a low high
    by_cases eq : a = s
    · rwa [eq]
    · exact pre a (by bv_omega) high
  | case3 s above => cases hit

theorem scan_none {s : Address} (hit : (scan p s).result = none) : NoString p s := by
  have lt := p.below
  simp only [KERNBASE] at lt
  fun_induction scan p s with
  | case1 s below nul => cases hit
  | case2 s below text ih =>
    intro a low high
    by_cases eq : a = s
    · rwa [eq]
    · exact ih hit a (by bv_omega) high
  | case3 s above =>
    intro a low high
    bv_omega

theorem fetchstr_within (p : Proc) (addr : Address) : (fetchstr p addr).within p := by
  unfold fetchstr
  split
  · simp [Fetch.within]
  · exact Fetch.within_bind (scan_within p addr) (by simp [Fetch.within])

theorem fetchstr_some {addr pp : Address} {k : Int} (found : (fetchstr p addr).result = some (pp, k)) :
    pp = addr ∧ ∃ length : Nat, k = length ∧ StringAt p addr length := by
  have lt := p.below
  simp only [KERNBASE] at lt
  unfold fetchstr at found
  split at found
  · cases found
  · obtain ⟨s, found, eq⟩ := Fetch.bind_eq_some.mp found
    obtain ⟨after, inside, nul, pre⟩ := scan_some found
    cases eq
    refine ⟨rfl, (s - addr).toNat, ?_, ?_, ?_, ?_⟩
    · rw [BitVec.toInt_eq_toNat_of_lt]
      bv_omega
    · bv_omega
    · rw [BitVec.ofNat_toNat, BitVec.setWidth_eq]
      have eq : addr + (s - addr) = s := by bv_omega
      rwa [eq]
    · intro i small
      apply pre
      · bv_omega
      · bv_omega

theorem fetchstr_none {addr : Address} : (fetchstr p addr).result = none ↔ p.sz ≤ addr ∨ NoString p addr := by
  constructor
  · intro failed
    unfold fetchstr at failed
    split at failed
    · exact .inl ‹_›
    · refine .inr (scan_none ?_)
      cases hit : (scan p addr).result with
      | none => rfl
      | some s => simp [Fetch.bind, hit] at failed
  · intro failed
    cases hit : (fetchstr p addr).result with
    | none => rfl
    | some val =>
      obtain ⟨pp, k⟩ := val
      obtain ⟨-, length, -, string⟩ := fetchstr_some hit
      have within := string.within
      rcases failed with above | none
      · bv_omega
      · exact absurd string.ends (none _ (by bv_omega) (by bv_omega))

theorem argptr_some {n size : BitVec 32} {pointer : Address} (hit : (argptr p n size).result = some pointer) :
    0 ≤ size.toInt ∧ pointer.toNat + size.toNat ≤ p.sz.toNat := by
  have lt := p.below
  simp only [KERNBASE] at lt
  obtain ⟨i, -, hit⟩ := Fetch.bind_eq_some.mp hit
  split at hit
  · cases hit
  · rename_i low
    cases hit
    simp only [not_or, not_lt] at low
    have pos := low.1
    refine ⟨pos, ?_⟩
    have small : size.toNat < 2 ^ 31 := by
      rw [BitVec.toInt_eq_toNat_cond] at pos
      split at pos <;> omega
    bv_omega

/-- Whatever `esp`, the index, the pointer and the size: what is read and what is accepted lies in the
memory of the process. -/
theorem arguments_within (p : Proc) : (∀ addr v, (fetchint p addr).result = some v → addr.toNat + 4 ≤ p.sz.toNat ∧
      (fetchint p addr).reads = [addr, addr + 1, addr + 2, addr + 3]) ∧ (∀ n v, (argint p n).result = some v →
      (p.esp + 4 + 4 * n).toNat + 4 ≤ p.sz.toNat ∧ (argint p n).within p) ∧
    (∀ n size pointer, (argptr p n size).result = some pointer →
      0 ≤ size.toInt ∧ pointer.toNat + size.toInt ≤ p.sz.toNat) ∧
    (∀ addr pp k, (fetchstr p addr).result = some (pp, k) →
      pp = addr ∧ ∃ length : Nat, k = length ∧ StringAt p pp length) ∧
    (∀ addr, (fetchstr p addr).result = none ↔ p.sz ≤ addr ∨ NoString p addr) ∧
    (∀ n pp k, (argstr p n).result = some (pp, k) → (argint p n).result = some pp ∧
      ∃ length : Nat, k = length ∧ StringAt p pp length) ∧ (∀ n addr, (argint p n).result = some addr →
      ((argstr p n).result = none ↔ p.sz ≤ addr ∨ NoString p addr)) ∧
    ∀ n size addr, (fetchint p addr).within p ∧ (fetchstr p addr).within p ∧ (argint p n).within p ∧
      (argptr p n size).within p ∧ (argstr p n).within p := by
  refine ⟨fun _ _ => fetchint_some, ?_, ?_, ?_, fun _ => fetchstr_none, ?_, ?_, ?_⟩
  · exact fun n v found => ⟨(fetchint_some found).1, fetchint_within p _⟩
  · intro n size pointer found
    obtain ⟨positive, inside⟩ := argptr_some found
    refine ⟨positive, ?_⟩
    rw [BitVec.toInt_eq_toNat_cond] at positive ⊢
    split at positive <;> simp_all <;> omega
  · intro addr pp k found
    obtain ⟨rfl, length⟩ := fetchstr_some found
    exact ⟨rfl, length⟩
  · intro n pp k found
    obtain ⟨addr, fetched, found⟩ := Fetch.bind_eq_some.mp found
    obtain ⟨rfl, length⟩ := fetchstr_some found
    exact ⟨fetched, length⟩
  · intro n addr fetched
    rw [← fetchstr_none]
    simp only [argstr, Fetch.bind, fetched]
  · intro n size addr
    refine ⟨fetchint_within p addr, fetchstr_within p addr, fetchint_within p _, ?_, ?_⟩
    · refine Fetch.within_bind (fetchint_within p _) ?_
      intro v
      split <;> simp [Fetch.within]
    · exact Fetch.within_bind (fetchint_within p _) (fetchstr_within p)

/-! `getcount`. -/

/-- What `getcount` returns, and the ints it stores with their addresses. -/
structure Stored where
  result : Int
  stores : List (Address × BitVec 32)

def calls : Nat := 23

def getcount (p : Proc) (count_array : Nat → BitVec 32) : Stored :=
  match (argint p 1).result with
  | none => ⟨-1, []⟩
  | some size =>
    match (argptr p 0 size).result with
    | none => ⟨-1, []⟩
    | some counts =>
      if size.toInt < calls ∨ counts = 0 then ⟨-1, []⟩
      else ⟨0, (List.range calls).map fun i => (counts + BitVec.ofNat 32 (4 * i), count_array i)⟩

theorem argptr_last {size counts : Address} (found : (argptr p 0 size).result = some counts) {i : Nat}
    (small : i < calls) : (size.toInt = size.toNat ∧ counts.toNat + size.toNat ≤ p.sz.toNat) ∧
      (counts + BitVec.ofNat 32 (4 * i)).toNat = counts.toNat + 4 * i := by
  have bound := p.below
  obtain ⟨positive, inside⟩ := argptr_some found
  have signed : size.toInt = size.toNat := by
    rw [BitVec.toInt_eq_toNat_cond] at positive ⊢
    split at positive <;> simp_all
    omega
  simp only [calls, KERNBASE] at small bound
  rw [BitVec.toNat_add, BitVec.toNat_ofNat]
  omega

/-- The size is in bytes, and the test of it counts ints. Every int lies in the range that was checked
exactly if the size covers all of them, or the arguments are refused. -/
theorem getcount_within (p : Proc) (count_array : Nat → BitVec 32) :
    (∀ store ∈ (getcount p count_array).stores, ∃ size counts, (argint p 1).result = some size ∧
      (argptr p 0 size).result = some counts ∧ counts.toNat ≤ store.1.toNat ∧
      store.1.toNat + 4 ≤ counts.toNat + size.toInt ∧ store.1.toNat + 4 ≤ p.sz.toNat) ↔
    ∀ size counts, (argint p 1).result = some size → (argptr p 0 size).result = some counts →
      (size.toInt < calls ∨ counts = 0) ∨ 4 * calls ≤ size.toInt := by
  constructor
  · intro within size counts given found
    by_contra outside
    obtain ⟨passed, short⟩ := not_or.mp outside
    have last : (counts + BitVec.ofNat 32 (4 * 22), count_array 22) ∈ (getcount p count_array).stores := by
      simp only [getcount, given, found, passed, ↓reduceIte]
      exact List.mem_map.mpr ⟨22, by decide, rfl⟩
    obtain ⟨_, _, given', found', _, inside, _⟩ := within _ last
    cases given.symm.trans given'
    cases found.symm.trans found'
    rw [(argptr_last found (i := 22) (by decide)).2] at inside
    simp only [calls] at short
    omega
  · intro covers store stored
    unfold getcount at stored
    split at stored
    · simp at stored
    rename_i size given
    split at stored
    · simp at stored
    rename_i counts found
    refine ⟨size, counts, given, found, ?_⟩
    split at stored
    · simp at stored
    rename_i passed
    obtain ⟨i, small, rfl⟩ := List.mem_map.mp stored
    rw [List.mem_range] at small
    have enough := (covers size counts given found).resolve_left passed
    obtain ⟨inside, address⟩ := argptr_last found small
    simp only [calls] at small enough
    dsimp only
    omega

def caller (counts size : BitVec 8) : Proc where
  sz := 4096
  esp := 0
  memory := fun a => if a = 4 then counts else if a = 5 then 15 else if a = 8 then size else 0
  below := by decide

theorem getcount_within_all : (getcount (caller 0xA4 92) fun _ => 7).result = 0 ∧
    ∀ store ∈ (getcount (caller 0xA4 92) fun _ => 7).stores, ∃ size counts,
      (argint (caller 0xA4 92) 1).result = some size ∧
      (argptr (caller 0xA4 92) 0 size).result = some counts ∧ counts.toNat ≤ store.1.toNat ∧
      store.1.toNat + 4 ≤ counts.toNat + size.toInt ∧ store.1.toNat + 4 ≤ (caller 0xA4 92).sz.toNat := by
  refine ⟨by decide, (getcount_within _ _).mpr ?_⟩
  intro size counts given _
  cases (show (argint (caller 0xA4 92) 1).result = some 92 by decide).symm.trans given
  exact Or.inr (by decide)

/-- `getcount(counts, 23)` with 23 bytes left: the check passes, and the ints from the sixth on leave
the process. -/
theorem getcount_overruns : (argptr (caller 0xE9 23) 0 23).result = some 4073 ∧
    (getcount (caller 0xE9 23) fun _ => 7).result = 0 ∧
    ∃ store ∈ (getcount (caller 0xE9 23) fun _ => 7).stores, (caller 0xE9 23).sz.toNat ≤ store.1.toNat := by
  decide

end Xv6.Arguments
