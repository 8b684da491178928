import Xv6.VmCore
import Xv6.Lib.PageTree

/-! Address spaces in memory: the tree of pages that a page directory is the root of, the pages
that a stretch of code works with, and what `kalloc`, `kfree`, `walkpgdir` and `mappages` do to
both. -/

namespace Xv6.Vm

open Exec Exec.Prog PageTree Multiset Tree Function

abbrev Space := Tree (Fin 1024) Entry

/-- User pages belong to the address space that maps them; what kernel entries map does not. -/
def owned (place : Fin 1024) (entry : Entry) : Multiset Nat :=
  if place.val < 512 ∧ entry.present = true then {entry.frame} else 0

abbrev Space.held (space : Space) : Multiset Nat := space.pages owned

variable {entry : Entry} {k : Fin 1024}

theorem owned_absent (k : Fin 1024) (absent : entry.present = false) : owned k entry = 0 := by
  simp [owned, absent]

theorem owned_kernel (kernel : 512 ≤ k.val) (entry : Entry) : owned k entry = 0 := by
  simp [owned, Nat.not_lt.mpr kernel]

theorem owned_user (user : k.val < 512) (has : entry.present = true) : owned k entry = {entry.frame} := by
  simp [owned, user, has]

@[simp] theorem Entry.zero_present : Entry.zero.present = false := by decide

theorem entry_put (sp : Space) (k i : Fin 1024) (entry : Entry) (spot spot' : Fin 1024) :
    (sp.put k i entry).entry spot spot' = if spot = k ∧ spot' = i then entry else sp.entry spot spot' := by
  by_cases eq : spot = k
  · subst spot
    by_cases hit : spot' = i <;> simp [Tree.put, hit]
  · simp [Tree.put, eq]

structure Maps (mem : Mem) (space : Space) : Prop where
  absent : ∀ place, space.table place = none → (mem.word space.root place).present = false
  present : ∀ place page, space.table place = some page →
    (mem.word space.root place).present = true ∧ (mem.word space.root place).frame = page
  entry : ∀ place page, space.table place = some page → ∀ index, mem.word page index = space.entry place index
  blank : ∀ place, space.table place = none → ∀ index, space.entry place index = .zero

/-- The pages that some code works with: those on the free list and those held, none twice.
Words of other pages are as before. -/
structure Stock (layout : Layout) (total : Multiset Nat) (base : Nat → Fin 1024 → Entry) (mem : Mem)
    (held : Multiset Nat) : Prop where
  distinct : total.Nodup
  valid : ∀ page ∈ total, layout.first ≤ page ∧ page < PHYSTOP
  balance : (mem.freelist : Multiset Nat) + held = total
  frame : ∀ page, page ∉ total → mem.word page = base page
  once : mem.refreed = false

section

variable {lay : Layout} {total held : Multiset Nat} {base : Nat → Fin 1024 → Entry} {mem : Mem} {stops : Stop → Prop}

variable {page : Nat}

section

variable (stock : Stock lay total base mem held)

include stock

theorem Stock.mem_total (here : page ∈ held) : page ∈ total := by
  rw [← stock.balance]
  exact mem_add.mpr (.inr here)

theorem Stock.not_free (here : page ∈ held) : page ∉ mem.freelist := by
  have nodup := stock.distinct
  rw [← stock.balance] at nodup
  intro free
  exact disjoint_left.mp (disjoint_of_nodup_add nodup) (mem_coe.mpr free) here

theorem Stock.held_distinct : held.Nodup := by
  have nodup := stock.distinct
  rw [← stock.balance] at nodup
  exact (nodup_add.mp nodup).2.1

theorem Stock.write (here : page ∈ held) (words : Fin 1024 → Entry) :
    Stock lay total base { mem with word := update mem.word page words } held where
  distinct := stock.distinct
  valid := stock.valid
  balance := stock.balance
  frame := by
    intro o out
    have ne : o ≠ page := by
      rintro rfl
      exact out (stock.mem_total here)
    simp [ne, stock.frame o out]
  once := stock.once

theorem Stock.holds_kalloc : Holds kalloc mem (fun res mem' =>
      (res = none ∧ mem' = mem ∧ mem.freelist = []) ∨ ∃ page, res = some page ∧ mem'.word = mem.word ∧
        Stock lay total base mem' (page ::ₘ held)) stops := by
  simp only [kalloc, holds_bind, holds_get]
  cases free : mem.freelist with
  | nil => simp
  | cons page rest =>
    simp only [holds_bind, holds_modify, holds_pure]
    refine .inr ⟨page, by simp, by simp, stock.distinct, stock.valid, ?_, stock.frame, stock.once⟩
    rw [← stock.balance, free, ← cons_coe, cons_add, add_cons]

end

theorem Stock.holds_kfree (stock : Stock lay total base mem (page ::ₘ held)) : Holds (kfree lay page) mem (fun _ mem' =>
      mem'.word = update mem.word page (fun _ => .junk) ∧ Stock lay total base mem' held) stops := by
  have here : page ∈ page ::ₘ held := mem_cons_self page held
  have inside := stock.mem_total here
  obtain ⟨low, high⟩ := stock.valid page inside
  have range : ¬(page < lay.first ∨ PHYSTOP ≤ page) := by omega
  simp only [kfree, range, ↓reduceIte, holds_modify]
  refine ⟨rfl, stock.distinct, stock.valid, ?_, (stock.write here _).frame, ?_⟩
  · rw [← stock.balance, ← cons_coe, cons_add, add_cons]
  · simp [stock.once, stock.not_free here]

end

section

variable {mem : Mem} {sp : Space} {page : Nat} {k : Fin 1024}

section

variable (maps : Maps mem sp)

include maps

theorem Maps.congr {mem' : Mem} (eq : ∀ page ∈ sp.nodes, mem'.word page = mem.word page) : Maps mem' sp where
  absent := by
    intro k free
    rw [eq _ sp.root_mem_nodes]
    exact maps.absent k free
  present := by
    intro k page here
    rw [eq _ sp.root_mem_nodes]
    exact maps.present k page here
  entry := by
    intro k page here i
    rw [eq page (table_mem_nodes here)]
    exact maps.entry k page here i
  blank := maps.blank

theorem Maps.write (out : page ∉ sp.nodes) (words : Fin 1024 → Entry) :
    Maps { mem with word := update mem.word page words } sp := by
  apply maps.congr
  intro o low
  have ne : o ≠ page := by
    rintro rfl
    exact out low
  simp [ne]

theorem Maps.grow (nodup : sp.nodes.Nodup) (free : sp.table k = none)
    (out : page ∉ sp.nodes) (flags : BitVec 12) (has : (⟨page, flags⟩ : Entry).present = true) :
    Maps ((mem.fill page .zero).setWord sp.root k ⟨page, flags⟩) (sp.grow k page) := by
  have apart : sp.root ≠ page := by
    rintro rfl
    exact out sp.root_mem_nodes
  have directory : ∀ o, ((mem.fill page .zero).setWord sp.root k ⟨page, flags⟩).word
      sp.root o = if o = k then ⟨page, flags⟩ else mem.word sp.root o := by
    intro o
    by_cases eq : o = k <;> simp [eq, Mem.setWord, Mem.fill, apart]
  constructor
  · intro o unused
    have ne : o ≠ k := by
      rintro rfl
      simp [Tree.grow] at unused
    rw [grow_root, directory, if_neg ne]
    exact maps.absent o (by simpa [Tree.grow, ne] using unused)
  · intro o tab here
    rw [grow_root, directory]
    by_cases eq : o = k
    · subst o
      have new : page = tab := by simpa [Tree.grow] using here
      rw [if_pos rfl]
      exact ⟨has, new⟩
    · rw [if_neg eq]
      exact maps.present o tab (by simpa [Tree.grow, eq] using here)
  · intro o tab here i
    by_cases eq : o = k
    · subst o
      have new : page = tab := by simpa [Tree.grow] using here
      subst new
      rw [grow_entry, maps.blank k free i]
      simp [Mem.setWord, Mem.fill, apart.symm]
    · have old : sp.table o = some tab := by simpa [Tree.grow, eq] using here
      have notNew : tab ≠ page := by
        rintro rfl
        exact out (table_mem_nodes old)
      have notRoot : tab ≠ sp.root := table_ne_root nodup old
      rw [grow_entry]
      simp [Mem.setWord, Mem.fill, notNew, notRoot, maps.entry o tab old]
  · intro o unused i
    have ne : o ≠ k := by
      rintro rfl
      simp [Tree.grow] at unused
    exact maps.blank o (by simpa [Tree.grow, ne] using unused) i

theorem Maps.put (nodup : sp.nodes.Nodup) {tab : Nat} (here : sp.table k = some tab) (i : Fin 1024) (entry : Entry) :
    Maps (mem.setWord tab i entry) (sp.put k i entry) := by
  have notRoot : sp.root ≠ tab := (table_ne_root nodup here).symm
  constructor
  · intro o unused
    simpa [Mem.setWord, Tree.put, notRoot] using maps.absent o unused
  · intro o page there
    simpa [Mem.setWord, Tree.put, notRoot] using maps.present o page there
  · intro o page there spot
    have old : sp.table o = some page := there
    by_cases same : o = k
    · subst o
      obtain rfl : tab = page := by simpa [here] using old
      by_cases hit : spot = i <;> simp [hit, Mem.setWord, Tree.put, maps.entry k tab here]
    · have ne : page ≠ tab := by
        rintro rfl
        exact same (table_inj nodup old here)
      simp [Mem.setWord, Tree.put, same, ne, maps.entry o page old]
  · intro o unused spot
    have ne : o ≠ k := by
      rintro rfl
      rw [Tree.put, here] at unused
      contradiction
    simpa [Tree.put, ne] using maps.blank o unused spot

end

end

section

variable {lay : Layout} {total extra : Multiset Nat} {base : Nat → Fin 1024 → Entry} {mem : Mem}
  {sp : Space} {stops : Stop → Prop}

theorem Maps.holds_walk (maps : Maps mem sp) (va : Nat) :
    Holds (walkpgdir sp.root va false) mem (fun res mem' => mem' = mem ∧
      res = (sp.table (pdx va)).map fun page => (page, ptx va)) stops := by
  simp only [walkpgdir, holds_bind, holds_get]
  cases here : sp.table (pdx va) with
  | none =>
    rw [if_neg (by simp [maps.absent _ here])]
    simp
  | some page =>
    obtain ⟨has, frame⟩ := maps.present _ page here
    rw [if_pos has]
    simp [frame]

theorem Stock.nodes_distinct (stock : Stock lay total base mem (sp.held + extra)) : sp.nodes.Nodup := by
  have nodup := (nodup_add.mp stock.held_distinct).1
  rw [Space.held, pages_eq] at nodup
  exact (nodup_add.mp nodup).1

theorem Stock.extra_outside {page : Nat}
    (stock : Stock lay total base mem (page ::ₘ (sp.held + extra))) : page ∉ sp.nodes := by
  have fresh := (nodup_cons.mp stock.held_distinct).1
  intro low
  apply fresh
  rw [Space.held, pages_eq]
  exact mem_add.mpr (.inl (mem_add.mpr (.inl low)))

theorem Stock.holds_walk (stock : Stock lay total base mem (sp.held + extra)) (maps : Maps mem sp) (va : Nat) :
    Holds (walkpgdir sp.root va true) mem (fun res mem' =>
      (res = none ∧ mem' = mem ∧ mem.freelist = [] ∧ sp.table (pdx va) = none) ∨
      ∃ page, res = some (page, ptx va) ∧ ((sp.table (pdx va) = some page ∧ mem' = mem) ∨
          (sp.table (pdx va) = none ∧ Maps mem' (sp.grow (pdx va) page) ∧
            Stock lay total base mem' (Space.held (sp.grow (pdx va) page) + extra) ∧
            page ∉ sp.held + extra ∧ ∀ o, o ≠ page → o ≠ sp.root → mem'.word o = mem.word o))) stops := by
  simp only [walkpgdir, holds_bind, holds_get]
  cases here : sp.table (pdx va) with
  | some page =>
    obtain ⟨has, frame⟩ := maps.present _ page here
    rw [if_pos has]
    simp [frame]
  | none =>
    rw [if_neg (by simp [maps.absent _ here]), if_neg (by simp), holds_bind]
    refine stock.holds_kalloc.conseq ?_
    rintro res mem' (⟨rfl, rfl, empty⟩ | ⟨page, rfl, words, ran⟩)
    · simp [empty]
    · have out := ran.extra_outside
      have maps' : Maps mem' sp := maps.congr fun o _ => by rw [words]
      have grown := maps'.grow stock.nodes_distinct here out (PTE_P ||| PTE_W ||| PTE_U)
        (by simp [Entry.present, PTE_P, PTE_W, PTE_U])
      simp only [holds_bind, holds_modify, holds_pure]
      refine .inr ⟨page, rfl, .inr ⟨trivial, grown, ?_, (nodup_cons.mp ran.held_distinct).1, fun o new root => ?_⟩⟩
      swap
      · simp only [Mem.setWord, Mem.fill, update_of_ne root, update_of_ne new, words]
      have held : Space.held (sp.grow (pdx va) page) + extra = page ::ₘ (sp.held + extra) := by
        rw [Space.held, pages_grow here, cons_add]
      rw [held]
      have filled := ran.write (mem_cons_self page _) fun _ => .zero
      refine filled.write ?_ _
      rw [Space.held, pages_eq]
      simp [sp.root_mem_nodes]

def Spares (space : Space) (pages : Multiset Nat) (mem mem' : Mem) : Prop :=
  ∀ page ∈ pages, page ∉ space.nodes → mem'.word page = mem.word page

structure Mapped (space space' : Space) (va : Nat) (entry : Entry) : Prop where
  root : space'.root = space.root
  entries : space'.entry = update space.entry (pdx va) (update (space.entry (pdx va)) (ptx va) entry)
  table : ∀ place, (space'.table place).isSome = true ↔ (space.table place).isSome = true ∨ place = pdx va
  card : space'.held.card = space.held.card + (if (space.table (pdx va)).isSome then 0 else 1) +
    (owned (pdx va) entry).card

theorem Stock.put {entry : Entry} {k i : Fin 1024}
    (stock : Stock lay total base mem (sp.held + (owned k entry + extra)))
    (maps : Maps mem sp) {tab : Nat} (here : sp.table k = some tab) (absent : (sp.entry k i).present = false) :
    Maps (mem.setWord tab i entry) (sp.put k i entry) ∧ Stock lay total base (mem.setWord tab i entry)
      (Space.held (sp.put k i entry) + extra) ∧ Space.held (sp.put k i entry) = sp.held + owned k entry := by
  have held : Space.held (sp.put k i entry) = sp.held + owned k entry := by
    have change : (sp.put k i entry).pages owned + owned k (sp.entry k i) =
        sp.pages owned + owned k entry := pages_put k i entry
    rwa [owned_absent k absent, add_zero] at change
  refine ⟨maps.put stock.nodes_distinct here i entry, ?_, held⟩
  rw [held, add_assoc]
  apply stock.write
  rw [Space.held, pages_eq]
  simp [table_mem_nodes here]

theorem Stock.holds_map {perm : BitVec 12} {frame va : Nat} {n : Nat} {post : Bool → Mem → Prop}
    (stock : Stock lay total base mem (sp.held + (owned (pdx va) ⟨frame, perm ||| PTE_P⟩ + extra)))
    (maps : Maps mem sp) (absent : (sp.entry (pdx va) (ptx va)).present = false)
    (fails : mem.freelist = [] → sp.table (pdx va) = none → post false mem)
    (goes : ∀ mem' sp', Stock lay total base mem' (sp'.held + extra) → Maps mem' sp' →
      Mapped sp sp' va ⟨frame, perm ||| PTE_P⟩ →
      Spares sp (sp.held + (owned (pdx va) ⟨frame, perm ||| PTE_P⟩ + extra)) mem mem' →
      Holds (mappages sp.root n (va + 1) (frame + 1) perm) mem' post stops) :
    Holds (mappages sp.root (n + 1) va frame perm) mem post stops := by
  have next : ∀ mem' (sp' : Space) page,
      Stock lay total base mem' (sp'.held + (owned (pdx va) ⟨frame, perm ||| PTE_P⟩ + extra)) →
      Maps mem' sp' → sp'.table (pdx va) = some page → sp'.root = sp.root → sp'.entry = sp.entry →
      (∀ k, (sp'.table k).isSome = true ↔ (sp.table k).isSome = true ∨ k = pdx va) →
      sp'.held.card = sp.held.card + (if (sp.table (pdx va)).isSome then 0 else 1) →
      (∀ o ∈ sp.held + (owned (pdx va) ⟨frame, perm ||| PTE_P⟩ + extra), o ∉ sp.nodes →
        o ≠ page ∧ mem'.word o = mem.word o) → Holds (do
        let mem ← get
        if (mem.word page (ptx va)).present then halt (.panic "remap")
        else
          modify fun mem => mem.setWord page (ptx va) ⟨frame, perm ||| PTE_P⟩
          mappages sp.root n (va + 1) (frame + 1) perm) mem' post stops := by
    intro mem' sp' page stock' maps' here root entries tables card spared
    have eq := maps'.entry _ page here (ptx va)
    rw [← entries] at absent
    obtain ⟨maps'', stock'', held⟩ := stock'.put maps' here absent
    simp only [holds_bind, holds_get]
    rw [if_neg (by rw [eq, absent]; simp)]
    simp only [holds_bind, holds_modify]
    refine goes _ _ stock'' maps'' ⟨root, ?_, tables, ?_⟩ fun o low leaf => ?_
    · rw [Tree.put, entries]
    · rw [held, card_add, card]
    · obtain ⟨apart, words⟩ := spared o low leaf
      simp only [Mem.setWord, update_of_ne apart, words]
  rw [mappages]
  refine (stock.holds_walk maps va).bind ?_
  rintro res mem' (⟨rfl, rfl, empty, missing⟩ | ⟨page, rfl, ⟨here, rfl⟩ | ⟨missing, maps', stock', new, words⟩⟩)
  · exact .pure (fails empty missing)
  · refine next mem' sp page stock maps here rfl rfl ?_ ?_ fun o _ leaf => ⟨?_, rfl⟩
    · intro k
      constructor
      · exact .inl
      · rintro (there | rfl)
        · exact there
        · simp [here]
    · simp [here]
    · rintro rfl
      exact leaf (table_mem_nodes here)
  · refine next mem' _ page stock' maps' (by simp [Tree.grow]) rfl rfl ?_ ?_ fun o low leaf => ?_
    · intro k
      by_cases eq : k = pdx va <;> simp [eq, Tree.grow]
    · rw [Space.held, pages_grow missing]
      simp [missing]
    · have apart : o ≠ page := fun eq => new (eq ▸ low)
      exact ⟨apart, words o apart fun eq => leaf (eq ▸ sp.root_mem_nodes)⟩

end

end Xv6.Vm
