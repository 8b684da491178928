import Xv6.VmDealloc

/-! The loop of `mappages` over addresses of 32 bits, and what it does to the translation of
addresses. -/

namespace Xv6.Vm

open Exec Exec.Prog

def PGROUNDDOWN (a : Nat) : Nat := a / PGSIZE * PGSIZE

/-- The loop of `mappages` from `a` on; a loop that has not ended after `fuel` rounds is blocked. -/
def mapFrom (pgdir last : Nat) (perm : BitVec 12) : Nat → Nat → Nat → MemM Bool
  | 0, _, _ => halt .blocked
  | fuel + 1, a, pa => do
      match ← walkpgdir pgdir (a / PGSIZE) true with
      | none => pure false
      | some (pgtab, index) => do
          let mem ← get
          if (mem.word pgtab index).present then halt (.panic "remap")
          else
            modify fun mem => mem.setWord pgtab index ⟨pa / PGSIZE, perm ||| PTE_P⟩
            if a = last then pure true
            else mapFrom pgdir last perm fuel ((a + PGSIZE) % 2 ^ 32) ((pa + PGSIZE) % 2 ^ 32)

def mappagesBytes (pgdir va size pa : Nat) (perm : BitVec 12) (fuel : Nat) : MemM Bool :=
  let a := PGROUNDDOWN va
  let last := PGROUNDDOWN ((va + size + (2 ^ 32 - 1)) % 2 ^ 32)
  mapFrom pgdir last perm fuel a pa

/-- The present entry to which page `va` leads, if any. -/
def translate (mem : Mem) (pgdir va : Nat) : Option Entry :=
  let pde := mem.word pgdir (pdx va)
  let pte := mem.word pde.frame (ptx va)
  if pde.present && pte.present then some pte else none

/-- A page directory whose page tables are used once each and are not free. -/
structure Tables (mem : Mem) (pgdir : Nat) : Prop where
  root : pgdir ∉ mem.freelist
  distinct : mem.freelist.Nodup
  table : ∀ k, (mem.word pgdir k).present = true →
    (mem.word pgdir k).frame ≠ pgdir ∧ (mem.word pgdir k).frame ∉ mem.freelist
  once : ∀ k o, (mem.word pgdir k).present = true → (mem.word pgdir o).present = true →
    (mem.word pgdir k).frame = (mem.word pgdir o).frame → k = o

variable {pgdir va frame fuel : Nat} {perm : BitVec 12} {mem : Mem}

section

variable (tables : Tables mem pgdir)

include tables

theorem Tables.grow {page : Nat} {rest : List Nat} (flags : BitVec 12) (free : mem.freelist = page :: rest)
    (absent : (mem.word pgdir (pdx va)).present = false) :
    let mem' := ({ mem with freelist := rest }.fill page .zero).setWord pgdir (pdx va) ⟨page, flags⟩
    Tables mem' pgdir ∧ mem'.word pgdir (pdx va) = ⟨page, flags⟩ ∧
      ∀ v, translate mem' pgdir v = translate mem pgdir v := by
  intro mem'
  obtain ⟨root, distinct, table, once⟩ := tables
  simp only [free, List.mem_cons, not_or, List.nodup_cons] at root distinct table
  have same : mem'.word pgdir (pdx va) = ⟨page, flags⟩ := by simp [mem', Mem.setWord]
  have dir : ∀ k, k ≠ pdx va → mem'.word pgdir k = mem.word pgdir k := fun k ne => by
    simp [mem', Mem.setWord, Mem.fill, ne, root.1]
  have keep : ∀ o, o ≠ pgdir → o ≠ page → mem'.word o = mem.word o :=
    fun o out new => by simp [mem', Mem.setWord, Mem.fill, out, new]
  refine ⟨⟨root.2, distinct.2, fun k has => ?_, fun k o has there equal => ?_⟩, same, fun v => ?_⟩
  · by_cases new : k = pdx va
    · rw [new, same]
      exact ⟨Ne.symm root.1, distinct.1⟩
    · rw [dir k new] at has ⊢
      exact ⟨(table k has).1, (table k has).2.2⟩
  · by_cases new : k = pdx va <;> by_cases new' : o = pdx va
    · rw [new, new']
    · rw [new, same, dir o new'] at equal
      rw [dir o new'] at there
      exact absurd equal.symm (table o there).2.1
    · rw [new', same, dir k new] at equal
      rw [dir k new] at has
      exact absurd equal (table k has).2.1
    · rw [dir k new] at has equal
      rw [dir o new'] at there equal
      exact once k o has there equal
  · by_cases new : pdx v = pdx va
    · have zero : mem'.word page = fun _ => .zero := by simp [mem', Mem.setWord, Mem.fill, Ne.symm root.1]
      rw [translate, translate, new, same, zero, absent]
      simp [Entry.present, Entry.zero]
    · rw [translate, translate, dir _ new]
      cases has : (mem.word pgdir (pdx v)).present with
      | false => rfl
      | true =>
        have out := table _ has
        rw [keep _ out.1 out.2.1]

theorem Tables.put {pgtab : Nat} {ent : Entry} (whole : va < TOP)
    (here : (mem.word pgdir (pdx va)).present = true) (frame : (mem.word pgdir (pdx va)).frame = pgtab)
    (present : ent.present = true) :
    Tables (mem.setWord pgtab (ptx va) ent) pgdir ∧ ∀ v < TOP, translate (mem.setWord pgtab (ptx va) ent) pgdir v =
        if v = va then some ent else translate mem pgdir v := by
  have dir : (mem.setWord pgtab (ptx va) ent).word pgdir = mem.word pgdir := by
    have out := (tables.table _ here).1
    rw [frame] at out
    simp [Mem.setWord, Ne.symm out]
  refine ⟨⟨tables.root, tables.distinct, dir ▸ tables.table, dir ▸ tables.once⟩, fun v below => ?_⟩
  rw [translate, translate, dir]
  by_cases eq : v = va
  · subst eq
    simp [frame, here, present, Mem.setWord]
  · rw [if_neg eq]
    cases there : (mem.word pgdir (pdx v)).present with
    | false => simp
    | true =>
      by_cases shared : (mem.word pgdir (pdx v)).frame = pgtab
      · have table := tables.once _ _ there here (shared.trans frame.symm)
        have ent : ptx v ≠ ptx va := fun equal => eq (by
          rw [← address_pdx below, ← address_pdx whole, table, equal])
        simp [Mem.setWord, shared, ent]
      · simp [Mem.setWord, shared]

theorem Tables.holds_walk : Holds (walkpgdir pgdir va true) mem (fun hit mem' => (hit = none ∧ mem' = mem) ∨
      ∃ pgtab, hit = some (pgtab, ptx va) ∧ Tables mem' pgdir ∧
        (mem'.word pgdir (pdx va)).present = true ∧ (mem'.word pgdir (pdx va)).frame = pgtab ∧
        ∀ v, translate mem' pgdir v = translate mem pgdir v) fun _ => False := by
  rw [walkpgdir, holds_bind, holds_get]
  dsimp only
  cases present : (mem.word pgdir (pdx va)).present with
  | true =>
    rw [if_pos rfl, holds_pure]
    exact .inr ⟨_, rfl, tables, present, rfl, fun _ => rfl⟩
  | false =>
    rw [if_neg (by simp), if_neg (by simp), holds_bind, kalloc, holds_bind, holds_get]
    cases free : mem.freelist with
    | nil => exact .pure (.pure (.inl ⟨rfl, rfl⟩))
    | cons page rest =>
      simp only [holds_bind, holds_modify, holds_pure]
      obtain ⟨tables', pde, eq⟩ := tables.grow (PTE_P ||| PTE_W ||| PTE_U) free present
      have set : ((PTE_P ||| PTE_W ||| PTE_U) &&& PTE_P != 0) = true := by decide
      exact .inr ⟨page, rfl, tables', (congrArg Entry.present pde).trans set, congrArg Entry.frame pde, eq⟩

theorem Tables.holds_round {last : Nat} {post : Bool → Mem → Prop} (whole : va < TOP)
    (absent : translate mem pgdir va = none) (fails : post false mem)
    (goes : ∀ mem', Tables mem' pgdir → (∀ v < TOP, translate mem' pgdir v =
        if v = va then some ⟨frame, perm ||| PTE_P⟩ else translate mem pgdir v) →
      Holds (if va * PGSIZE = last then pure true else mapFrom pgdir last perm fuel
        ((va * PGSIZE + PGSIZE) % 2 ^ 32) ((frame * PGSIZE + PGSIZE) % 2 ^ 32)) mem' post fun _ => False) :
    Holds (mapFrom pgdir last perm (fuel + 1) (va * PGSIZE) (frame * PGSIZE)) mem post fun _ => False := by
  rw [mapFrom, Nat.mul_div_cancel _ (by decide), Nat.mul_div_cancel _ (by decide)]
  refine tables.holds_walk.bind ?_
  rintro hit mem' (⟨rfl, rfl⟩ | ⟨pgtab, rfl, tables', here, table, eq⟩)
  · exact .pure fails
  · have missing : (mem'.word pgtab (ptx va)).present = false := by
      rw [← eq va, translate, table, here, Bool.true_and] at absent
      simpa using absent
    obtain ⟨tables'', chg⟩ := tables'.put whole here table (present_or frame perm)
    dsimp only
    rw [holds_bind, holds_get, if_neg (by simp [missing]), holds_bind, holds_modify]
    exact goes _ tables'' fun v below => by rw [chg v below, eq v]

end

/-- `mapped` pages from `va` on lead to consecutive pages from `frame` on, and the others are as before. -/
def Installed (pgdir va frame mapped : Nat) (perm : BitVec 12) (mem mem' : Mem) : Prop :=
  ∀ v < TOP, translate mem' pgdir v = if va ≤ v ∧ v < va + mapped then
    some ⟨(frame + (v - va)) % 2 ^ 20, perm ||| PTE_P⟩ else translate mem pgdir v

theorem Installed.none (pgdir va frame n : Nat) (perm : BitVec 12) (mem : Mem) : ∃ mapped ≤ n,
    (false = true → mapped = n) ∧ Installed pgdir va frame mapped perm mem mem :=
  ⟨0, Nat.zero_le _, by simp, fun v _ => by rw [if_neg (by omega)]⟩

theorem Installed.next {mapped : Nat} {mem' mem'' : Mem} (small : frame < 2 ^ 20) (chg : ∀ v < TOP, translate mem' pgdir v =
      if v = va then some ⟨frame, perm ||| PTE_P⟩ else translate mem pgdir v)
    (rest : Installed pgdir (va + 1) ((frame + 1) % 2 ^ 20) mapped perm mem' mem'') :
    Installed pgdir va frame (mapped + 1) perm mem mem'' := by
  intro v below
  rw [rest v below, chg v below]
  by_cases same : v = va
  · rw [if_neg (by omega), if_pos same, if_pos (by omega), same, Nat.sub_self, Nat.add_zero, Nat.mod_eq_of_lt small]
  · rw [if_neg same]
    by_cases low : va + 1 ≤ v ∧ v < va + 1 + mapped
    · rw [if_pos low, if_pos (by omega), show ((frame + 1) % 2 ^ 20 + (v - (va + 1))) % 2 ^ 20 =
        (frame + (v - va)) % 2 ^ 20 by omega]
    · rw [if_neg low, if_neg (by omega)]

theorem Tables.holds_mapFrom (n : Nat) (tables : Tables mem pgdir) (enough : n ≤ fuel) (top : va + n < TOP) (small : frame < 2 ^ 20)
    (absent : ∀ v, va ≤ v → v ≤ va + n → translate mem pgdir v = none) :
    Holds (mapFrom pgdir ((va + n) * PGSIZE) perm (fuel + 1) (va * PGSIZE) (frame * PGSIZE)) mem
      (fun res mem' => ∃ mapped ≤ n + 1, (res = true → mapped = n + 1) ∧
        Installed pgdir va frame mapped perm mem mem') fun _ => False := by
  induction n generalizing fuel va frame mem with
  | zero =>
    refine tables.holds_round (by omega) (absent va le_rfl le_rfl) (Installed.none ..) fun mem' _ chg => ?_
    rw [Nat.add_zero, if_pos rfl, holds_pure]
    exact ⟨1, le_rfl, fun _ => rfl, Installed.next small chg fun v _ => by rw [if_neg (by omega)]⟩
  | succ n ih =>
    refine tables.holds_round (by omega) (absent va le_rfl (by omega)) (Installed.none ..) fun mem' tables' chg => ?_
    obtain ⟨fuel, rfl⟩ : ∃ rest, fuel = rest + 1 := ⟨fuel - 1, by omega⟩
    have next : (va * PGSIZE + PGSIZE) % 2 ^ 32 = (va + 1) * PGSIZE := by
      simp only [TOP, PGSIZE] at *
      omega
    have page : (frame * PGSIZE + PGSIZE) % 2 ^ 32 = (frame + 1) % 2 ^ 20 * PGSIZE := by
      simp only [PGSIZE]
      omega
    rw [if_neg (by simp only [PGSIZE]; omega), next, page, show va + (n + 1) = va + 1 + n by omega]
    refine (ih tables' (by omega) (by omega) (Nat.mod_lt _ (by decide)) fun v low high => ?_).conseq ?_
    · rw [chg v (by omega), if_neg (by omega), absent v (by omega) (by omega)]
    · rintro res mem'' ⟨mapped, few, all, installed⟩
      exact ⟨mapped + 1, by omega, fun ended => by rw [all ended], installed.next small chg⟩

/-- `mappages` maps the pages of the range to consecutive pages, or a part of them from the first on
if it fails; the other pages are translated as before. -/
theorem mappages_exact (mem : Mem) (pgdir va size pa fuel : Nat) (perm : BitVec 12) (tables : Tables mem pgdir)
    (nonempty : 1 ≤ size) (top : va + size ≤ 2 ^ 32) (aligned : pa % PGSIZE = 0) (word : pa < 2 ^ 32)
    (absent : ∀ v, va / PGSIZE ≤ v → v ≤ (va + size - 1) / PGSIZE → translate mem pgdir v = none)
    (enough : (va + size - 1) / PGSIZE < va / PGSIZE + fuel) :
    Holds (mappagesBytes pgdir va size pa perm fuel) mem (fun r mem' =>
      ∃ mapped ≤ (va + size - 1) / PGSIZE + 1 - va / PGSIZE,
        (r = true → mapped = (va + size - 1) / PGSIZE + 1 - va / PGSIZE) ∧
        Installed pgdir (va / PGSIZE) (pa / PGSIZE) mapped perm mem mem') fun _ => False := by
  obtain ⟨fuel, rfl⟩ : ∃ rest, fuel = rest + 1 := ⟨fuel - 1, by simp only [PGSIZE] at *; omega⟩
  obtain ⟨count, number⟩ : ∃ count, (va + size - 1) / PGSIZE = va / PGSIZE + count :=
    ⟨(va + size - 1) / PGSIZE - va / PGSIZE, by simp only [PGSIZE]; omega⟩
  have last : PGROUNDDOWN ((va + size + (2 ^ 32 - 1)) % 2 ^ 32) = (va / PGSIZE + count) * PGSIZE := by
    rw [← number, PGROUNDDOWN, show (va + size + (2 ^ 32 - 1)) % 2 ^ 32 = va + size - 1 by omega]
  rw [number] at absent ⊢
  rw [mappagesBytes, last, PGROUNDDOWN, show va / PGSIZE + count + 1 - va / PGSIZE = count + 1 by omega,
    show pa = pa / PGSIZE * PGSIZE by simp only [PGSIZE] at *; omega, Nat.mul_div_cancel _ (by decide)]
  exact tables.holds_mapFrom count (by omega) (by simp only [TOP, PGSIZE] at *; omega)
    (by simp only [PGSIZE]; omega) absent

theorem mappages_exact_last : ∃ mem', mappagesBytes 0x300 0xFFFFF000 4096 0xFFFFF000 PTE_W 1
      (smallWorld [0x400]).mem = .ok true mem' ∧ translate mem' 0x300 0xFFFFF = some ⟨0xFFFFF, PTE_W ||| PTE_P⟩ := by
  have only : ∀ k, ((smallWorld [0x400]).mem.word 0x300 k).present = true → k = 0 := by
    decide +kernel
  have tables : Tables (smallWorld [0x400]).mem 0x300 :=
    ⟨by decide, by decide, fun k present => only k present ▸ by decide,
      fun k o present there _ => (only k present).trans (only o there).symm⟩
  have run : (mappagesBytes 0x300 0xFFFFF000 4096 0xFFFFF000 PTE_W 1 (smallWorld [0x400]).mem).check
      (fun r _ => r) = true := by
    decide +kernel
  obtain ⟨r, mem', returned, rfl⟩ := Outcome.of_check run
  obtain ⟨mapped, _, all, installed⟩ := (mappages_exact _ 0x300 0xFFFFF000 4096 0xFFFFF000 1 PTE_W tables (by decide)
    (by decide) (by decide) (by decide) (fun v low high => by
      obtain rfl : v = 0xFFFFF := by simp only [PGSIZE] at low high; omega
      decide) (by decide)).of_ok returned
  refine ⟨mem', returned, ?_⟩
  rw [installed 0xFFFFF (by decide), all rfl]
  decide

/-- Two directory entries with one page table: a page mapped through the first can be reached through
the second as well. -/
theorem mappages_shared_table : ∃ mem mem' : Mem, mappagesBytes 0x300 0 4096 0 PTE_W 1 mem = .ok true mem' ∧
    translate mem 0x300 1024 = none ∧ (translate mem' 0x300 1024).isSome = true := by
  have checked : (mappagesBytes 0x300 0 4096 0 PTE_W 1 ((smallWorld []).mem.setWord 0x301 0 .zero |>.setWord
      0x300 1 ⟨0x301, PTE_P⟩)).check (fun r mem' => r = true ∧ (translate mem' 0x300 1024).isSome = true) = true := by
    decide +kernel
  obtain ⟨r, mem', ran, found⟩ := Outcome.of_check checked
  obtain ⟨rfl, reached⟩ := of_decide_eq_true found
  exact ⟨_, mem', ran, by decide, reached⟩

end Xv6.Vm
