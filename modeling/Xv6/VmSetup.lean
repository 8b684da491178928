import Xv6.VmSpace

/-! What `setupkvm` makes: an address space with the kernel's mappings only, in 65 pages. When
it fails it keeps the pages it took. -/

namespace Xv6.Vm

open Exec Exec.Prog PageTree Multiset Space

variable {va : Nat}

theorem pdx_val (lt : va < TOP) : (pdx va).val = va / 1024 := by
  simp only [pdx, Fin.val_ofNat, TOP] at *
  omega

theorem ptx_val (va : Nat) : (ptx va).val = va % 1024 := by
  simp [ptx]

def address (place index : Fin 1024) : Nat := place.val * 1024 + index.val

theorem address_pdx (lt : va < TOP) : address (pdx va) (ptx va) = va := by
  rw [address, pdx_val lt, ptx_val]
  omega

theorem address_inj {k k' i i' : Fin 1024} (eq : address k i = address k' i') : k = k' ∧ i = i' := by
  have := i.isLt
  have := i'.isLt
  simp only [address] at eq
  constructor
  · apply Fin.ext
    omega
  · apply Fin.ext
    omega

theorem Mapped.entry_eq {sp sp' : Space} {ent : Entry} (mapped : Mapped sp sp' va ent)
    (k i : Fin 1024) : sp'.entry k i = if k = pdx va ∧ i = ptx va then ent else sp.entry k i := by
  rw [mapped.entries]
  exact entry_put sp (pdx va) (ptx va) ent k i

structure Front (low : Nat → Prop) (lo va count : Nat) (space : Space) : Prop where
  tables : ∀ place : Fin 1024, (space.table place).isSome = true ↔
    low place.val ∨ (lo ≤ place.val * 1024 ∧ place.val * 1024 < va)
  below : ∀ place index, (space.entry place index).present = true → 512 ≤ place.val ∧ address place index < va
  guard : ∀ place index, 512 ≤ place.val → (space.entry place index).user = false
  card : space.held.card = count + (va - lo + 1023) / 1024

section

variable {low : Nat → Prop} {lo va stop n : Nat} {sp sp' : Space}

theorem Front.table_iff (front : Front low lo va n sp) (aligned : lo % 1024 = 0)
    (above : lo ≤ va) (lt : va < stop) (top : stop ≤ TOP) (clear : ∀ k, low k → k * 1024 < lo ∨ stop ≤ k * 1024) :
    (sp.table (pdx va)).isSome = true ↔ va % 1024 ≠ 0 := by
  rw [front.tables, pdx_val (by omega)]
  constructor
  · rintro (inside | inside)
    · rcases clear _ inside with under | past <;> omega
    · omega
  · intro inner
    exact .inr (by omega)

theorem Front.mapped (front : Front low lo va n sp) {ent : Entry}
    (mapped : Mapped sp sp' va ent) (aligned : lo % 1024 = 0) (above : lo ≤ va)
    (kernel : KERNBASE ≤ va) (lt : va < stop) (top : stop ≤ TOP) (clear : ∀ k, low k → k * 1024 < lo ∨ stop ≤ k * 1024)
    (guarded : ent.user = false) : Front low lo (va + 1) n sp' := by
  have k : (pdx va).val = va / 1024 := pdx_val (by omega)
  have high : 512 ≤ (pdx va).val := by
    simp only [KERNBASE] at kernel
    omega
  constructor
  · intro spot
    rw [mapped.table, front.tables]
    have eq : spot = pdx va ↔ spot.val = va / 1024 := by
      rw [← k]
      exact Fin.ext_iff
    rw [eq]
    constructor
    · rintro ((inside | inside) | here)
      · exact .inl inside
      · exact .inr (by omega)
      · exact .inr (by omega)
    · rintro (inside | inside)
      · exact .inl (.inl inside)
      · by_cases here : spot.val = va / 1024
        · exact .inr here
        · exact .inl (.inr (by omega))
  · intro spot i has
    rw [mapped.entry_eq] at has
    split at has
    · rename_i here
      rw [here.1, here.2, address_pdx (by omega)]
      exact ⟨high, by omega⟩
    · have pre := front.below spot i has
      exact ⟨pre.1, by omega⟩
  · intro spot i up
    rw [mapped.entry_eq]
    split
    · exact guarded
    · exact front.guard spot i up
  · rw [mapped.card, front.card, owned_kernel high, card_zero]
    have there := front.table_iff aligned above lt top clear
    by_cases fst : va % 1024 = 0
    · rw [if_neg (by rw [there]; omega)]
      omega
    · rw [if_pos (there.mpr fst)]
      omega

end

section

variable {lay : Layout} {total extra : Multiset Nat} {base : Nat → Fin 1024 → Entry} {mem : Mem} {stops : Stop → Prop}

variable {perm : BitVec 12} {low : Nat → Prop} {lo stop n va page : Nat}

theorem perm_guarded (k : perm &&& PTE_U = 0) (frame : Nat) : (⟨frame, perm ||| PTE_P⟩ : Entry).user = false := by
  have apart : (perm ||| PTE_P) &&& PTE_U = (perm &&& PTE_U) ||| (PTE_P &&& PTE_U) := by
    ext i
    simp only [BitVec.getElem_and, BitVec.getElem_or]
    cases perm[i] <;> cases PTE_P[i] <;> cases PTE_U[i] <;> rfl
  rw [Entry.user, apart, k]
  decide

theorem Stock.holds_mapRange (aligned : lo % 1024 = 0) (top : stop ≤ TOP)
    (clear : ∀ k, low k → k * 1024 < lo ∨ stop ≤ k * 1024) (kernel : perm &&& PTE_U = 0)
    (num : Nat) {space : Space} {frame : Nat} (stock : Stock lay total base mem (space.held + extra))
    (maps : Maps mem space) (front : Front low lo va n space) (above : lo ≤ va) (high : KERNBASE ≤ va)
    (lt : va + num ≤ stop) : Holds (mappages space.root num va frame perm) mem (fun res mem' =>
      (res = true ∧ ∃ space' : Space, space'.root = space.root ∧
        Stock lay total base mem' (space'.held + extra) ∧ Maps mem' space' ∧
        Front low lo (va + num) n space') ∨ (res = false ∧ mem'.freelist = [] ∧ ∃ space' : Space,
        Stock lay total base mem' (space'.held + extra) ∧ space'.held.card < n + (stop - lo + 1023) / 1024)) stops := by
  induction num generalizing mem space va frame with
  | zero =>
    rw [mappages, holds_pure]
    exact .inl ⟨rfl, space, rfl, stock, maps, front⟩
  | succ num ih =>
    have k : (pdx va).val = va / 1024 := pdx_val (by omega)
    have kernelPlace : 512 ≤ (pdx va).val := by
      simp only [KERNBASE] at high
      omega
    have free : owned (pdx va) ⟨frame, perm ||| PTE_P⟩ = 0 := owned_kernel kernelPlace _
    have absent : (space.entry (pdx va) (ptx va)).present = false := by
      rw [Bool.eq_false_iff]
      intro has
      have pre := (front.below _ _ has).2
      rw [address_pdx (by omega)] at pre
      omega
    apply Stock.holds_map (by rwa [free, zero_add]) maps absent
    · intro empty missing
      refine .inr ⟨rfl, empty, space, stock, ?_⟩
      have fst := (front.table_iff aligned above (by omega : va < stop) top clear).not
      rw [missing] at fst
      simp only [Option.isSome_none, Bool.false_eq_true, not_false_eq_true, ne_eq, Decidable.not_not, true_iff] at fst
      rw [front.card]
      omega
    · intro mem' space' stock' maps' mapped _
      have front' := front.mapped mapped aligned above high (by omega) top clear (perm_guarded kernel frame)
      rw [← mapped.root]
      refine (ih stock' maps' front' (by omega) (by omega) (by omega)).conseq ?_
      rintro res mem'' (⟨rfl, space'', root, rest⟩ | failed)
      · refine .inl ⟨rfl, space'', root, ?_⟩
        rwa [show va + (num + 1) = va + 1 + num by omega]
      · exact .inr failed

def Space.bare (page : Nat) : Space := ⟨page, fun _ => none, fun _ _ => .zero⟩

theorem Space.held_bare (page : Nat) : (Space.bare page).held = {page} := by
  rw [held, Tree.pages_eq, Tree.nodes_eq, Tree.leaves_eq]
  simp [Space.bare, owned_absent]

theorem Maps.bare (mem : Mem) (page : Nat) : Maps (mem.fill page .zero) (Space.bare page) where
  absent := by simp [Space.bare, Mem.fill]
  present := by simp [Space.bare]
  entry := by simp [Space.bare]
  blank := by simp [Space.bare]

/-- What `setupkvm` makes: 64 page tables for the kernel's mappings, and nothing for users. -/
structure Fresh (space : Space) : Prop where
  tables : ∀ place : Fin 1024, (space.table place).isSome = true ↔
    (512 ≤ place.val ∧ place.val < 568) ∨ 1016 ≤ place.val
  below : ∀ place index, place.val < 512 → (space.entry place index).present = false
  guard : ∀ place index, 512 ≤ place.val → (space.entry place index).user = false
  card : space.held.card = 65

theorem Stock.card (stock : Stock lay total base mem extra) : mem.freelist.length + extra.card = total.card := by
  rw [← stock.balance, card_add, coe_card]

def Built (layout : Layout) (total extra : Multiset Nat) (base : Nat → Fin 1024 → Entry) (page : Nat)
    (low : Nat → Prop) (lo va count : Nat) (mem : Mem) : Prop :=
  ∃ space : Space, space.root = page ∧ Stock layout total base mem (space.held + extra) ∧
    Maps mem space ∧ Front low lo va count space

def Short (layout : Layout) (total extra : Multiset Nat) (base : Nat → Fin 1024 → Entry) (mem : Mem) : Prop :=
  total.card < 65 + extra.card ∧ ∃ kept, Stock layout total base mem (kept + extra) ∧
    (kept = 0 → total.card = extra.card)

theorem Space.root_mem_held (space : Space) : space.root ∈ space.held := by
  rw [Space.held, PageTree.Tree.pages_eq]
  exact mem_add.mpr (.inl space.root_mem_nodes)

section

variable (built : Built lay total extra base page low lo va n mem) (aligned : lo % 1024 = 0)
  (top : stop ≤ TOP) (clear : ∀ k, low k → k * 1024 < lo ∨ stop ≤ k * 1024)
  (few : n + (stop - lo + 1023) / 1024 ≤ 65) (k : perm &&& PTE_U = 0) (above : lo ≤ va) (high : KERNBASE ≤ va)

include built aligned top clear few k above high

theorem Built.holds_mappages {num frame : Nat} (lt : va + num ≤ stop) :
    Holds (mappages page num va frame perm) mem (fun res mem' =>
      (res = true ∧ Built lay total extra base page low lo (va + num) n mem') ∨
      (res = false ∧ Short lay total extra base mem')) stops := by
  obtain ⟨sp, rfl, stock, maps, front⟩ := built
  refine (stock.holds_mapRange aligned top clear k num maps front above high lt).conseq ?_
  rintro res mem' (⟨rfl, sp', root, rest⟩ | ⟨rfl, empty, sp', stock', small⟩)
  · exact .inl ⟨rfl, sp', root, rest⟩
  · have sum := stock'.card
    rw [empty, List.length_nil, card_add] at sum
    exact .inr ⟨rfl, by omega, sp'.held, stock', fun none => absurd (none ▸ sp'.root_mem_held) (notMem_zero _)⟩

theorem Built.holds_mapKernel {va' start last : Nat} {rest : List Kmap} {good : Mem → Prop}
    (size : va + (last - start) = va') (lt : va' ≤ stop)
    (then_ : ∀ mem', Built lay total extra base page low lo va' n mem' →
      Holds (mapKernel page rest) mem' (fun res mem' => (res = true ∧ good mem') ∨
        (res = false ∧ Short lay total extra base mem')) stops) :
    Holds (mapKernel page (⟨va, start, last, perm⟩ :: rest)) mem (fun res mem' =>
      (res = true ∧ good mem') ∨ (res = false ∧ Short lay total extra base mem')) stops := by
  subst size
  rw [mapKernel]
  refine (built.holds_mappages aligned top clear few k above high lt).bind ?_
  rintro res mem' (⟨rfl, done⟩ | ⟨rfl, failed⟩)
  · exact then_ mem' done
  · exact .pure (.inr ⟨rfl, failed⟩)

end

theorem Built.devices (built : Built lay total extra base page (fun _ => False) KERNBASE (KERNBASE + PHYSTOP) 1 mem) :
    Built lay total extra base page (fun k => 512 ≤ k ∧ k < 568) DEVSPACE DEVSPACE 57 mem := by
  obtain ⟨sp, root, stock, maps, front⟩ := built
  refine ⟨sp, root, stock, maps, ?_, ?_, front.guard, ?_⟩
  · intro k
    rw [front.tables]
    simp only [KERNBASE, PHYSTOP, DEVSPACE, false_or]
    omega
  · intro k i has
    obtain ⟨up, pre⟩ := front.below k i has
    refine ⟨up, ?_⟩
    simp only [KERNBASE, PHYSTOP, DEVSPACE] at pre ⊢
    omega
  · rw [front.card]
    simp [KERNBASE, PHYSTOP]

theorem Front.fresh {sp : Space} (front : Front (fun k => 512 ≤ k ∧ k < 568) DEVSPACE TOP 57 sp) : Fresh sp where
  tables := by
    intro k
    have lt := k.isLt
    rw [front.tables]
    simp only [DEVSPACE, TOP]
    omega
  below := by
    intro k i user
    rw [Bool.eq_false_iff]
    intro has
    have up := (front.below k i has).1
    omega
  guard := front.guard
  card := by
    rw [front.card]
    simp [DEVSPACE, TOP]

theorem Stock.holds_setupkvm (stock : Stock lay total base mem extra) : Holds (setupkvm lay) mem (fun res mem' =>
      (∃ space : Space, res = some space.root ∧ Fresh space ∧
        Stock lay total base mem' (space.held + extra) ∧ Maps mem' space) ∨
      (res = none ∧ Short lay total extra base mem')) stops := by
  have text := lay.text_above
  have below := lay.data_below
  simp only [setupkvm, holds_bind]
  refine stock.holds_kalloc.conseq ?_
  rintro res mem' (⟨rfl, rfl, empty⟩ | ⟨page, rfl, _, ran⟩)
  · have sum := stock.card
    rw [empty, List.length_nil] at sum
    exact .pure (.inr ⟨rfl, by omega, 0, by simpa using stock, fun _ => by omega⟩)
  · simp only [holds_bind, holds_modify]
    have bare : Built lay total extra base page (fun _ => False) KERNBASE KERNBASE 1 (mem'.fill page .zero) := by
      refine ⟨Space.bare page, rfl, ?_, Maps.bare mem' page, ?_⟩
      · rw [held_bare, singleton_add]
        exact ran.write (mem_cons_self page _) _
      · constructor
        · intro k
          simp [Space.bare]
        · intro k i has
          simp [Space.bare] at has
        · intro k i _
          simp [Space.bare, Entry.user, Entry.zero]
        · rw [held_bare]
          simp
    have low : ∀ k : Nat, False → k * 1024 < KERNBASE ∨ KERNBASE + PHYSTOP ≤ k * 1024 :=
      fun _ impossible => impossible.elim
    have mapped : Holds (mapKernel page (kmap lay)) (mem'.fill page .zero) (fun res mem' =>
        (res = true ∧ Built lay total extra base page (fun k => 512 ≤ k ∧ k < 568)
          DEVSPACE TOP 57 mem') ∨ (res = false ∧ Short lay total extra base mem')) stops := by
      have textSize : KERNBASE + EXTMEM + (lay.data - EXTMEM) = KERNBASE + lay.data := by omega
      have dataSize : KERNBASE + lay.data + (PHYSTOP - lay.data) = KERNBASE + PHYSTOP := by omega
      apply bare.holds_mapKernel (by decide) (by decide) low (by decide) (by decide) (by decide)
        (by decide) rfl (by decide)
      intro mem₁ built
      apply built.holds_mapKernel (by decide) (by decide) low (by decide) (by decide) (by decide)
        (by decide) textSize (by omega)
      intro mem₂ built
      apply built.holds_mapKernel (by decide) (by decide) low (by decide) (by decide)
        (Nat.le_add_right _ _) (Nat.le_add_right _ _) dataSize le_rfl
      intro mem₃ built
      have clear : ∀ k, 512 ≤ k ∧ k < 568 → k * 1024 < DEVSPACE ∨ TOP ≤ k * 1024 := by
        intro k inside
        left
        simp only [DEVSPACE]
        omega
      apply built.devices.holds_mapKernel (by decide) le_rfl clear (by decide) (by decide) le_rfl
        (by decide) rfl (by decide)
      intro mem₄ built
      exact .pure (.inl ⟨rfl, built⟩)
    refine mapped.conseq ?_
    rintro res mem'' (⟨rfl, space, root, stock', maps', front⟩ | ⟨rfl, short⟩)
    · refine .pure (.inl ⟨space, by rw [root], front.fresh, stock', maps'⟩)
    · exact .pure (.inr ⟨rfl, short⟩)

end

end Xv6.Vm
