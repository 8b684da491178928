import Xv6.VmGrow

/-! The loop of `deallocuvm` over addresses of 32 bits, as `vm.c` has it. -/

namespace Xv6.Vm

open Exec Exec.Prog

def PDX (va : Nat) : Nat := (va >>> 22) % 1024

def PGADDR (d t o : Nat) : Nat := (d <<< 22 ||| t <<< 12 ||| o) % 2 ^ 32

def PGROUNDUP (sz : Nat) : Nat := (sz + (PGSIZE - 1)) % 2 ^ 32 / PGSIZE * PGSIZE

/-- What `deallocuvm` does where `walkpgdir` gives an entry. -/
def release (layout : Layout) (pgtab : Nat) (index : Fin 1024) : MemM Unit := do
  let mem ← get
  let pte := mem.word pgtab index
  onlyIf (pte.present = true) (do
    onlyIf (pte.frame = 0) (halt (.panic "kfree"))
    kfree layout pte.frame
    modify fun mem => mem.setWord pgtab index .zero)

/-- The loop from `a` on; a loop that has not ended after `fuel` tests is blocked. -/
def deallocFrom (layout : Layout) (pgdir oldsz : Nat) : Nat → Nat → MemM Unit
  | 0, _ => halt .blocked
  | fuel + 1, a => do
      if a < oldsz then
        match ← walkpgdir pgdir (a / PGSIZE) false with
        | none =>
            let a := (PGADDR (PDX a + 1) 0 0 + (2 ^ 32 - PGSIZE)) % 2 ^ 32
            deallocFrom layout pgdir oldsz fuel ((a + PGSIZE) % 2 ^ 32)
        | some (pgtab, index) => do
            release layout pgtab index
            deallocFrom layout pgdir oldsz fuel ((a + PGSIZE) % 2 ^ 32)
      else pure ()

def deallocuvmBytes (layout : Layout) (pgdir oldsz newsz fuel : Nat) : MemM Nat := do
  if oldsz ≤ newsz then pure oldsz
  else
    deallocFrom layout pgdir oldsz fuel (PGROUNDUP newsz)
    pure newsz

/-- Every page from `va` on is looked at, whether it has a page table or not. -/
def visitEach (layout : Layout) (pgdir : Nat) : Nat → Nat → MemM Unit
  | 0, _ => pure ()
  | count + 1, va => do
      match ← walkpgdir pgdir va false with
      | none => visitEach layout pgdir count (va + 1)
      | some (pgtab, index) => do
          release layout pgtab index
          visitEach layout pgdir count (va + 1)

section

variable {lay : Layout} {pgdir oldsz newsz : Nat} {mem : Mem}

theorem walkpgdir_absent {va : Nat} (absent : (mem.word pgdir (pdx va)).present = false) :
    walkpgdir pgdir va false mem = .ok none mem := by
  rw [walkpgdir]
  change (if (mem.word pgdir (pdx va)).present = true then _ else _ : MemM _) mem = _
  rw [if_neg (by simp [absent])]
  rfl

theorem walkpgdir_present {va : Nat} (has : (mem.word pgdir (pdx va)).present = true) :
    walkpgdir pgdir va false mem = .ok (some ((mem.word pgdir (pdx va)).frame, ptx va)) mem := by
  rw [walkpgdir]
  change (if (mem.word pgdir (pdx va)).present = true then _ else _ : MemM _) mem = _
  rw [if_pos has]
  rfl

theorem visitEach_absent (lay : Layout) (skip n va : Nat)
    (absent : ∀ page, va ≤ page → page < va + skip → (mem.word pgdir (pdx page)).present = false) :
    visitEach lay pgdir n va mem = visitEach lay pgdir (n - skip) (va + skip) mem := by
  induction skip generalizing n va with
  | zero => rfl
  | succ skip ih =>
    cases n with
    | zero => simp only [Nat.zero_sub, visitEach]
    | succ n =>
      have fst := walkpgdir_absent (absent va le_rfl (by omega))
      have rest := ih n (va + 1) fun page low high => absent page (by omega) (by omega)
      rw [Nat.succ_sub_succ, ← Nat.add_assoc, Nat.add_right_comm, ← rest, visitEach]
      change andThen _ _ mem = _
      rw [andThen, fst]

theorem deallocLoop_eq_visitEach (stop fuel : Nat) {va : Nat} (enough : stop ≤ va + fuel) :
    deallocLoop lay pgdir stop fuel va mem = visitEach lay pgdir (stop - va) va mem := by
  induction fuel generalizing va mem with
  | zero =>
    rw [Nat.add_zero] at enough
    rw [Nat.sub_eq_zero_of_le enough, deallocLoop, visitEach]
  | succ fuel ih =>
    rw [deallocLoop]
    by_cases inside : va < stop
    · obtain ⟨n, rest⟩ : ∃ n, stop - va = n + 1 := ⟨stop - va - 1, by omega⟩
      obtain rfl : n = stop - (va + 1) := by omega
      rw [if_pos inside, rest, visitEach]
      change andThen _ _ mem = andThen _ _ mem
      cases has : (mem.word pgdir (pdx va)).present with
      | false =>
        -- the pages up to the next table have the directory entry of `va`
        have skip := visitEach_absent lay ((va / 1024 + 1) * 1024 - (va + 1)) (stop - (va + 1))
          (va + 1) fun page low high => by
            rwa [show pdx page = pdx va from congrArg (Fin.ofNat 1024) (by omega)]
        rw [andThen, andThen, walkpgdir_absent has]
        dsimp only
        rw [ih (by omega), skip]
        congr 1 <;> omega
      | true =>
        rw [andThen, andThen, walkpgdir_present has]
        change _ = (_ >>= _ : MemM _) mem
        rw [release, bind_assoc]
        exact bind_congr fun _ _ _ => bind_congr fun _ _ _ => ih (by omega)
    · rw [if_neg inside, Nat.sub_eq_zero_of_le (by omega), visitEach]

theorem deallocFrom_eq (top : oldsz ≤ KERNBASE * PGSIZE) (fuel : Nat) {va : Nat} (enough : pages oldsz ≤ va + fuel) :
    deallocFrom lay pgdir oldsz (fuel + 1) (va * PGSIZE) = deallocLoop lay pgdir (pages oldsz) fuel va := by
  have range : ∀ va, va * PGSIZE < oldsz ↔ va < pages oldsz := by
    simp only [pages, PGSIZE]
    omega
  induction fuel generalizing va with
  | zero => rw [deallocFrom, if_neg (by rw [range]; omega), deallocLoop]
  | succ fuel ih =>
    rw [deallocFrom, deallocLoop]
    by_cases inside : va < pages oldsz
    · have low := (range va).mpr inside
      have next : (va * PGSIZE + PGSIZE) % 2 ^ 32 = (va + 1) * PGSIZE := by
        simp only [KERNBASE, PGSIZE] at *
        omega
      have skip : ((PGADDR (PDX (va * PGSIZE) + 1) 0 0 + (2 ^ 32 - PGSIZE)) % 2 ^ 32 + PGSIZE) % 2 ^ 32 =
          (va / 1024 + 1) * 1024 * PGSIZE := by
        simp only [PGADDR, PDX, KERNBASE, PGSIZE, Nat.shiftLeft_eq, Nat.shiftRight_eq_div_pow,
          Nat.zero_mul, Nat.or_zero] at *
        omega
      rw [if_pos low, if_pos inside, Nat.mul_div_cancel _ (by decide)]
      refine congrArg _ (funext fun hit => ?_)
      rcases hit with _ | ⟨pgtab, index⟩
      · dsimp only
        rw [skip, ih (by omega)]
      · dsimp only
        rw [next, ih (by omega), release, bind_assoc]
    · rw [if_neg (by rwa [range]), if_neg inside]

end

/-- The skip of missing page tables is exact, whatever the memory; and where every page has one owner,
the pages of the range are freed once each and nothing else changes. -/
theorem deallocuvm_exact (layout : Layout) (pgdir oldsz newsz fuel : Nat)
    (top : oldsz ≤ KERNBASE * PGSIZE) (enough : pages oldsz < pages newsz + fuel) :
    deallocuvmBytes layout pgdir oldsz newsz fuel = (if oldsz ≤ newsz then pure oldsz else do
      visitEach layout pgdir (pages oldsz - pages newsz) (pages newsz)
      pure newsz) ∧ ∀ (mem : Mem) (sp : Space), Maps mem sp → sp.root = pgdir → mem.refreed = false →
      ((mem.freelist : Multiset Nat) + sp.held).Nodup →
      (∀ page ∈ (mem.freelist : Multiset Nat) + sp.held, layout.first ≤ page ∧ page < PHYSTOP) →
      Holds (deallocuvmBytes layout pgdir oldsz newsz fuel) mem (fun result mem' =>
        result = (if newsz < oldsz then newsz else oldsz) ∧ mem'.refreed = false ∧
        ∃ sp' : Space, Cleared (pages newsz) (pages oldsz) sp sp' ∧ Maps mem' sp' ∧
          (mem'.freelist : Multiset Nat) + sp'.held = mem.freelist + sp.held ∧
          ∀ page ∉ (mem.freelist : Multiset Nat) + sp.held, mem'.word page = mem.word page)
        fun _ => False := by
  by_cases shrinks : newsz < oldsz
  · have start : PGROUNDUP newsz = pages newsz * PGSIZE := by
      simp only [PGROUNDUP, pages, KERNBASE, PGSIZE] at *
      omega
    obtain ⟨fuel, rfl⟩ : ∃ rest, fuel = rest + 1 := ⟨fuel - 1, by simp only [pages, PGSIZE] at *; omega⟩
    have same : deallocuvmBytes layout pgdir oldsz newsz (fuel + 1) = (do
        deallocLoop layout pgdir (pages oldsz) fuel (pages newsz)
        pure newsz) := by
      rw [deallocuvmBytes, if_neg (by omega), start, deallocFrom_eq top fuel (by omega)]
    refine ⟨?_, fun mem sp maps root once distinct valid => ?_⟩
    · rw [same, if_neg (by omega)]
      funext mem
      change andThen _ _ mem = andThen _ _ mem
      rw [andThen, andThen, deallocLoop_eq_visitEach _ _ (by omega)]
    · subst root
      have stock : Stock layout (mem.freelist + sp.held) mem.word mem (sp.held + 0) :=
        ⟨distinct, valid, by rw [add_zero], fun _ _ => rfl, once⟩
      rw [same, if_pos shrinks]
      refine (stock.holds_deallocLoop (pages oldsz) (by simp only [pages, KERNBASE, PGSIZE] at *; omega) fuel
        maps (by omega)).bind fun _ mem' done => .pure ?_
      obtain ⟨sp', cleared, stock', maps', _⟩ := done
      exact ⟨rfl, stock'.once, sp', cleared, maps', by rw [← stock'.balance, add_zero], stock'.frame⟩
  · have idle : deallocuvmBytes layout pgdir oldsz newsz fuel = pure oldsz := if_pos (by omega)
    rw [idle, if_pos (by omega)]
    refine ⟨rfl, fun mem sp maps root once distinct valid => .pure ?_⟩
    rw [if_neg shrinks]
    refine ⟨rfl, once, sp, Cleared.none fun place index low high => ?_, maps, rfl, fun _ _ => rfl⟩
    simp only [pages, PGSIZE] at low high
    omega

theorem deallocuvm_exact_page : Holds (deallocuvmBytes smallLayout 0x300 0x80000000 0 0x80001)
    (smallWorld [0x400]).mem (fun result mem' => result = 0 ∧ mem'.refreed = false) fun _ => False :=
  have filled := smallWorld_filled
  ((deallocuvm_exact smallLayout 0x300 0x80000000 0 0x80001 (by decide) (by decide)).2 _ smallSpace
    filled.maps rfl filled.once filled.distinct filled.valid).conseq fun _ _ done => ⟨done.1, done.2.1⟩

/-- A page table that is mapped as the first page: it is freed, and entries outside the range are
filled with it. -/
theorem deallocuvm_fills_table : ∃ mem mem' : Mem, (mem.word 0x300 0).frame = 0x301 ∧
    mem.word 0x301 1 = .zero ∧ deallocuvmBytes smallLayout 0x300 4096 0 2 mem = .ok 0 mem' ∧
    mem'.word 0x301 1 = .junk := by
  have checked : (deallocuvmBytes smallLayout 0x300 4096 0 2 ((smallWorld []).mem.setWord 0x301 0
      ⟨0x301, PTE_P⟩)).check (fun result mem' => result = 0 ∧ mem'.word 0x301 1 = .junk) = true := by
    decide +kernel
  obtain ⟨result, mem', ran, found⟩ := Outcome.of_check checked
  obtain ⟨rfl, filled⟩ := of_decide_eq_true found
  exact ⟨_, mem', by decide, by decide, ran, filled⟩

end Xv6.Vm
