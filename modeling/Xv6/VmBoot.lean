import Xv6.VmIsolated

/-! The pages of `main`, from an empty free list: `kinit1` gives it those that `entrypgdir` maps, the kernel's page
tables and the stacks of the other CPUs are taken from these, and only then `kinit2` gives it the rest. -/

namespace Xv6.Vm

open Exec Exec.Prog Reach Multiset World

/-- 4 MB, in pages: where the mapping of `entrypgdir` ends. -/
abbrev ENTRYTOP : Nat := 1024

def freeLoop (lay : Layout) : Nat → Nat → MemM Unit
  | 0, _ => pure ()
  | count + 1, page => do
      kfree lay page
      freeLoop lay count (page + 1)

/-- `freerange` in page numbers; `layout.first` is `PGROUNDUP(end)`. -/
def freerange (lay : Layout) (vstart vend : Nat) : MemM Unit := freeLoop lay (vend - vstart) vstart

/-- The stacks of the other CPUs. The source does not check that `kalloc` found a page. -/
def startothers : Nat → MemM (List Nat)
  | 0 => pure []
  | others + 1 => do
      match ← kalloc with
      | none => halt .fault
      | some stack => do
          let rest ← startothers others
          pure (stack :: rest)

/-- The page directory of the kernel, the stacks of the other CPUs, and the stack and the page directory of the first
process. -/
structure Booted where
  kpgdir : Nat
  cpus : List Nat
  kstack : Nat
  pgdir : Nat

def userinit (lay : Layout) (kpgdir : Nat) (cpus : List Nat) : MemM Booted := do
  match ← kalloc with
  | none => halt .fault
  | some kstack => do
      match ← setupkvm lay with
      | none => halt (.panic "userinit: out of memory?")
      | some pgdir => do
          inituvm pgdir
          pure ⟨kpgdir, cpus, kstack, pgdir⟩

/-- `main` with `others` more CPUs: `kinit1`, `kvmalloc`, `startothers`, `kinit2`, `userinit`. -/
def main (lay : Layout) (others : Nat) : MemM Booted := do
  freerange lay lay.first ENTRYTOP
  match ← setupkvm lay with
  | none => halt .fault
  | some kpgdir => do
      let cpus ← startothers others
      freerange lay ENTRYTOP PHYSTOP
      userinit lay kpgdir cpus

section

variable {lay : Layout} {total outer : Multiset Nat} {base : Nat → Fin 1024 → Entry} {mem mem₀ : Mem}
  {kern : Space} {cpus : List Nat} {stops : Stop → Prop}

theorem Stock.holds_freeLoop (count page : Nat)
    (stock : Stock lay total base mem ((List.range' page count : Multiset Nat) + outer)) :
    Holds (freeLoop lay count page) mem (fun _ mem' => Stock lay total base mem' outer ∧
      ∀ o ∈ outer, mem'.word o = mem.word o) stops := by
  induction count generalizing page mem with
  | zero =>
    rw [List.range'_zero, coe_nil, zero_add] at stock
    exact .pure ⟨stock, fun _ _ => rfl⟩
  | succ count ih =>
    rw [List.range'_succ, ← cons_coe, cons_add] at stock
    refine stock.holds_kfree_part.bind ?_
    rintro _ mem₁ ⟨stock₁, eq₁⟩
    refine (ih (page + 1) stock₁).conseq ?_
    rintro _ mem₂ ⟨stock₂, eq₂⟩
    exact ⟨stock₂, fun o low => (eq₂ o low).trans (eq₁ o (mem_add.mpr (.inr low)))⟩

theorem Stock.holds_freerange {vstart vend : Nat} (stock : Stock lay total base mem (Ico vstart vend + outer)) :
    Holds (freerange lay vstart vend) mem (fun _ mem' => Stock lay total base mem' outer ∧
      ∀ o ∈ outer, mem'.word o = mem.word o) stops :=
  stock.holds_freeLoop (vend - vstart) vstart

theorem Stock.holds_startothers (others : Nat) (stock : Stock lay total base mem outer)
    (enough : others ≤ mem.freelist.length) :
    Holds (startothers others) mem (fun cpus mem' => cpus.length = others ∧ mem'.word = mem.word ∧
      Stock lay total base mem' ((cpus : Multiset Nat) + outer)) stops := by
  induction others generalizing mem outer with
  | zero => exact .pure ⟨rfl, rfl, by rwa [coe_nil, zero_add]⟩
  | succ others ih =>
    refine stock.holds_kalloc.bind ?_
    rintro res mem₁ (⟨rfl, rfl, none_⟩ | ⟨stack, rfl, words, stock₁⟩)
    · rw [none_] at enough
      exact absurd enough (by simp)
    · have sum := stock.card.trans stock₁.card.symm
      rw [card_cons] at sum
      refine (ih stock₁ (by omega)).bind ?_
      rintro cpus mem₂ ⟨length, words₂, stock₂⟩
      refine .pure ⟨by simp [length], words₂.trans words, ?_⟩
      rwa [add_cons, ← cons_add, cons_coe] at stock₂

/-- The pages from `top` on come in, none of which was known. -/
theorem Stock.widen {top : Nat} (stock : Stock lay (Ico lay.first top) base mem outer)
    (low : lay.first ≤ top) (high : top ≤ PHYSTOP) :
    Stock lay (Ico lay.first PHYSTOP) base mem (Ico top PHYSTOP + outer) where
  distinct := nodup_Ico
  valid := fun _ => mem_Ico.mp
  balance := by rw [add_left_comm, stock.balance, add_comm, Ico_add_Ico_eq_Ico low high]
  frame := by
    intro page away
    refine stock.frame page fun here => away (mem_Ico.mpr ?_)
    exact (mem_Ico.mp here).imp_right fun below => below.trans_le high
  once := stock.once

theorem Fits.holds_userinit (empty : Fits lay (World.empty mem₀ kern.root) fun _ => kern)
    (stock : Stock lay total base mem (outer + kern.held))
    (eq : ∀ page ∈ kern.held, mem.word page = mem₀.word page) (enough : 67 ≤ mem.freelist.length) :
    Holds (userinit lay kern.root cpus) mem (fun booted mem' => booted.kpgdir = kern.root ∧ booted.cpus = cpus ∧
      ∃ spaces, Fits lay (initial mem' booted.kpgdir booted.kstack booted.pgdir) spaces) fun _ => False := by
  refine stock.holds_kalloc.bind ?_
  rintro res mem₁ (⟨rfl, rfl, none_⟩ | ⟨kstack, rfl, words, stock₁⟩)
  · rw [none_] at enough
    exact absurd enough (by simp)
  have sum₁ := stock.card.trans stock₁.card.symm
  rw [card_cons] at sum₁
  refine stock₁.holds_setup_part.bind ?_
  rintro res mem₂ ⟨⟨sp, rfl, fresh, maps, stock₂⟩ | ⟨rfl, few⟩, eq₂⟩
  · have sum₂ := stock₁.card.trans stock₂.card.symm
    rw [card_add, fresh.card] at sum₂
    rw [holds_bind]
    refine (stock₂.holds_init_part maps fresh).mono ?_ ?_
    · rintro _ mem₃ ⟨sp', lost, serves, bounded, stock₃, eq₃⟩
      rw [← add_cons, ← add_assoc, add_assoc sp'.held] at stock₃
      refine .pure ⟨rfl, rfl, empty.first stock₃ (fun page here => ?_) serves bounded⟩
      have there : page ∈ kstack ::ₘ (outer + kern.held) := mem_cons_of_mem (mem_add.mpr (.inr here))
      rw [eq₃ page there, eq₂ page there, words, eq page here]
    · intro _ none_
      rw [none_, List.length_nil] at sum₂
      omega
  · omega

/-- Before `kinit1` no page is known to be free. -/
theorem Stock.start (below : ENTRYTOP ≤ PHYSTOP) :
    Stock lay (Ico lay.first ENTRYTOP) base ⟨[], base, false⟩ (Ico lay.first ENTRYTOP + 0) where
  distinct := nodup_Ico
  valid := fun _ here => (mem_Ico.mp here).imp_right fun low => low.trans_le below
  balance := by simp
  frame := fun _ _ => rfl
  once := rfl

theorem Fits.run {w w' : World} {spaces : Owner → Space} (fits : Fits lay w spaces)
    (reached : Reachable (Next lay) (fun w call => call.Made w) w w') : Isolated w' := by
  have kept : ∃ spaces, Fits lay w' spaces := by
    refine reached.invariant (fun w => ∃ spaces, Fits lay w spaces) ⟨spaces, fits⟩ ?_
    rintro _ _ _ ⟨spaces, fits⟩ made next
    exact fits.next made next
  obtain ⟨_, fits'⟩ := kept
  exact fits'.isolated

end

end Xv6.Vm
