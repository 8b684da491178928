import Xv6.VmWorld

/-! From the boot on, the pages of processes stay apart: what memory shows of it, and that every
run keeps it. -/

namespace Xv6.Vm

open Exec Exec.Prog PageTree Reach Multiset Tree World

variable {root : Nat} {outer : Multiset Nat} {kernel sp : Space} {mem : Mem}

section

variable {lay : Layout} {total : Multiset Nat} {base : Nat → Fin 1024 → Entry} {mem : Mem} {sp : Space}

theorem Kept.holds_inituvm (kept : Kept lay total 0 base root 0 mem sp) :
    Holds (inituvm root) mem (fun _ mem' => ∃ sp' lost,
      Kept lay total lost base root 1 mem' sp') fun _ => mem.freelist = [] := by
  rw [inituvm]
  refine kept.holds_kalloc.bind ?_
  rintro res mem₁ (⟨rfl, rfl, empty⟩ | ⟨page, rfl, _, kept₁⟩)
  · exact holds_halt.mpr empty
  · rw [holds_bind, holds_modify, holds_bind]
    have filled := kept₁.write fun _ => .zero
    refine (filled.holds_mapUser (by decide)).conseq ?_
    rintro res mem₂ (⟨rfl, sp', kept₂, _⟩ | ⟨rfl, rfl, _⟩)
    · exact .pure ⟨sp', 0, kept₂⟩
    · exact .pure ⟨sp, _, filled.root, filled.stock, filled.maps, filled.bounded.mono (by decide), filled.guarded⟩

theorem Stock.holds_setup_part {stops : Stop → Prop} (stock : Stock lay total base mem outer) :
    Holds (setupkvm lay) mem (fun res mem' =>
      ((∃ sp : Space, res = some sp.root ∧ Fresh sp ∧ Maps mem' sp ∧
        Stock lay total base mem' (sp.held + outer)) ∨ (res = none ∧ mem.freelist.length < 65)) ∧
      ∀ page ∈ outer, mem'.word page = mem.word page) stops := by
  rw [← zero_add outer] at stock
  refine (stock.holds_part (fun res mem' inner => (∃ sp : Space, res = some sp.root ∧
    Fresh sp ∧ Maps mem' sp ∧ inner = sp.held) ∨ (res = none ∧ mem.freelist.length < 65)) ?_).conseq ?_
  · refine stock.narrow.holds_setupkvm.conseq ?_
    rintro res mem' (⟨sp, rfl, fresh, stock', maps⟩ | ⟨rfl, few, kept, stock', _⟩)
    · exact ⟨sp.held, by simpa using stock', .inl ⟨sp, rfl, fresh, maps, rfl⟩⟩
    · exact ⟨kept, by simpa using stock', .inr ⟨rfl, by simpa using few⟩⟩
  · rintro res mem' ⟨inner, stock', ⟨sp, rfl, fresh, maps, rfl⟩ | failed, eq⟩
    · exact ⟨.inl ⟨sp, rfl, fresh, maps, stock'⟩, eq⟩
    · exact ⟨.inr failed, eq⟩

theorem Stock.holds_init_part
    (stock : Stock lay total base mem (sp.held + outer)) (maps : Maps mem sp) (fresh : Fresh sp) :
    Holds (inituvm sp.root) mem (fun _ mem' => ∃ sp' lost, Serves mem' sp.root sp' ∧
      Bounded sp' 1 ∧ Stock lay total base mem' (sp'.held + lost + outer) ∧
      ∀ page ∈ outer, mem'.word page = mem.word page) fun _ => mem.freelist = [] := by
  have kept : Kept lay (mem.freelist + sp.held) 0 mem.word sp.root 0 mem sp :=
    ⟨rfl, by simpa using stock.narrow, maps, fresh.bounded, fresh.guard⟩
  refine (stock.holds_part (fun _ mem' inner => ∃ sp' lost, inner = sp'.held + lost ∧
    Serves mem' sp.root sp' ∧ Bounded sp' 1) ?_).conseq ?_
  · refine kept.holds_inituvm.conseq ?_
    rintro _ mem' ⟨sp', lost, kept'⟩
    exact ⟨sp'.held + lost, kept'.stock, sp', lost, rfl, ⟨kept'.root, kept'.maps, kept'.guarded⟩, kept'.bounded⟩
  · rintro _ mem' ⟨_, stock', ⟨sp', lost, rfl, serves, bounded⟩, eq⟩
    exact ⟨sp', lost, serves, bounded, stock', eq⟩

def World.empty (mem : Mem) (kpgdir : Nat) : World := ⟨mem, kpgdir, fun _ => ⟨.unused, 0, 0, 0⟩, []⟩

theorem World.held_empty (mem : Mem) (kpgdir : Nat) (kernel : Space) :
    (World.empty mem kpgdir).held (fun _ => kernel) = kernel.held := by
  rw [World.held, Fintype.sum_option]
  simp [World.empty, World.share, Proc.share]

theorem World.rest_empty (mem : Mem) (kpgdir : Nat) (kernel : Space) (sl : Slot) :
    (World.empty mem kpgdir).rest (fun _ => kernel) (some sl) = kernel.held := by
  have split := held_eq (World.empty mem kpgdir) (fun _ => kernel) (some sl)
  rw [held_empty, World.share, Proc.share_unused rfl, zero_add] at split
  exact split.symm

theorem Fits.empty (serves : Serves mem kernel.root kernel) (stock : Stock lay total base mem kernel.held) :
    Fits lay (World.empty mem kernel.root) (fun _ => kernel) where
  stock := ⟨total, base, by rwa [held_empty]⟩
  kernel := serves
  process := by
    intro sl live
    exact absurd rfl live

theorem Fits.first {mem₀ : Mem} {kstack : Nat} {lost : Multiset Nat}
    (empty : Fits lay (World.empty mem₀ kernel.root) (fun _ => kernel))
    (stock : Stock lay total base mem (sp.held + lost + (kstack ::ₘ kernel.held)))
    (eq : ∀ page ∈ kernel.held, mem.word page = mem₀.word page) (serves : Serves mem root sp)
    (bounded : Bounded sp 1) : ∃ spaces, Fits lay (initial mem kernel.root kstack root) spaces := by
  have one : pages PGSIZE = 1 := by decide
  have suits : Suits mem ⟨.used, root, PGSIZE, kstack⟩ sp :=
    ⟨serves, bounded.mono one.ge, (by decide : PGSIZE < KERNBASE * PGSIZE)⟩
  refine ⟨_, empty.change 0 sp lost stock ?_ ?_ fun _ => suits⟩
  · rw [rest_empty, Proc.share_live (by simp), cons_add, cons_add, add_cons, add_right_comm]
  · rw [rest_empty]
    exact eq

theorem holds_bootMem {free : List Nat} (nodup : free.Nodup)
    (valid : ∀ page ∈ free, lay.first ≤ page ∧ page < PHYSTOP) :
    Holds (bootMem lay) (Mem.initial free) (fun booted mem => ∃ spaces,
      Fits lay (initial mem booted.1 booted.2.1 booted.2.2) spaces) fun _ => free.length < 132 := by
  have sound : (Mem.initial free).Sound lay := ⟨nodup, valid, rfl⟩
  rw [bootMem]
  refine sound.stock.holds_setup_part.bind ?_
  rintro res mem₁ ⟨⟨kernel, rfl, fresh, maps₁, stock₁⟩ | ⟨rfl, few⟩, _⟩
  · rw [add_zero] at stock₁
    have empty := Fits.empty ⟨rfl, maps₁, fresh.guard⟩ stock₁
    have sum₁ : mem₁.freelist.length + 65 = free.length := by
      simpa [fresh.card, Mem.initial] using stock₁.card
    refine stock₁.holds_kalloc.bind ?_
    rintro res mem₂ (⟨rfl, rfl, none_⟩ | ⟨kstack, rfl, words, stock₂⟩)
    · rw [none_, List.length_nil] at sum₁
      exact holds_halt.mpr (by omega)
    · have sum₂ : mem₂.freelist.length + 66 = free.length := by
        simpa [fresh.card, Mem.initial] using stock₂.card
      refine stock₂.holds_setup_part.bind ?_
      rintro res mem₃ ⟨⟨sp, rfl, fresh₃, maps₃, stock₃⟩ | ⟨rfl, few⟩, eq₃⟩
      · have sum₃ : mem₃.freelist.length + (65 + 66) = free.length := by
          simpa [fresh.card, fresh₃.card, Mem.initial] using stock₃.card
        rw [holds_bind]
        refine (stock₃.holds_init_part maps₃ fresh₃).mono ?_ ?_
        · rintro _ mem₄ ⟨sp', lost, serves, bounded, stock₄, eq₄⟩
          refine .pure (empty.first stock₄ ?_ serves bounded)
          intro page low
          have there := mem_cons_of_mem (a := page) (b := kstack) low
          rw [eq₄ page there, eq₃ page there, words]
        · intro _ none_
          rw [none_, List.length_nil] at sum₃
          omega
      · exact holds_halt.mpr (by omega)
  · exact holds_halt.mpr (by simp only [Mem.initial] at few; omega)

end

def Mem.table (mem : Mem) (pgdir : Nat) (place : Fin 1024) : Option Nat :=
  if (mem.word pgdir place).present then some (mem.word pgdir place).frame else none

def Mem.pte (mem : Mem) (pgdir : Nat) (place index : Fin 1024) : Option Entry :=
  (mem.table pgdir place).bind fun table =>
    if (mem.word table index).present then some (mem.word table index) else none

/-- Pages are free or belong to one owner, and users reach their own pages only. -/
structure Isolated (w : World) : Prop where
  free_once : w.mem.freelist.Nodup
  free_directory : ∀ owner, w.Live owner → w.pgdir owner ∉ w.mem.freelist
  free_table : ∀ owner, w.Live owner → ∀ place table,
    w.mem.table (w.pgdir owner) place = some table → table ∉ w.mem.freelist
  free_stack : ∀ sl, (w.proc sl).life ≠ .unused → (w.proc sl).kstack ∉ w.mem.freelist
  free_pipe : ∀ page ∈ w.pipes, page ∉ w.mem.freelist
  free_user : ∀ owner, w.Live owner → ∀ place index pte, place.val < 512 →
    w.mem.pte (w.pgdir owner) place index = some pte → pte.frame ∉ w.mem.freelist
  one_directory : ∀ owner owner', w.Live owner → w.Live owner' → w.pgdir owner = w.pgdir owner' → owner = owner'
  one_entry : ∀ owner owner', w.Live owner → w.Live owner' →
    ∀ place index pte place' index' pte', place.val < 512 → place'.val < 512 →
      w.mem.pte (w.pgdir owner) place index = some pte →
      w.mem.pte (w.pgdir owner') place' index' = some pte' → pte.frame = pte'.frame →
      owner = owner' ∧ place = place' ∧ index = index'
  kernel_closed : ∀ owner, w.Live owner → ∀ place index pte, 512 ≤ place.val →
    w.mem.pte (w.pgdir owner) place index = some pte → pte.user = false
  reach_apart : ∀ sl sl', (w.proc sl).life ≠ .unused → (w.proc sl').life ≠ .unused →
    ∀ place index pte place' index' pte', w.mem.pte (w.proc sl).pgdir place index = some pte → pte.user = true →
      w.mem.pte (w.proc sl').pgdir place' index' = some pte' → pte'.user = true → pte.frame = pte'.frame → sl = sl'
  freed_once : w.mem.refreed = false

section

variable {lay : Layout} {w : World} {spaces : Owner → Space} {k i : Fin 1024} {pte : Entry} {owner : Owner}

theorem Maps.table_eq  (maps : Maps mem sp) (k : Fin 1024) : mem.table sp.root k = sp.table k := by
  rw [Mem.table]
  cases here : sp.table k with
  | none => rw [if_neg (by simp [maps.absent k here])]
  | some tab =>
    obtain ⟨has, frame⟩ := maps.present k tab here
    rw [if_pos has, frame]

theorem Maps.pte_some  (maps : Maps mem sp) (hit : mem.pte sp.root k i = some pte) :
    sp.entry k i = pte ∧ pte.present = true := by
  rw [Mem.pte, maps.table_eq] at hit
  obtain ⟨tab, here, ent⟩ := Option.bind_eq_some_iff.mp hit
  rw [maps.entry k tab here i] at ent
  split at ent
  · rename_i has
    obtain rfl := Option.some.inj ent
    exact ⟨rfl, has⟩
  · contradiction

section

variable (fits : Fits lay w spaces)

include fits

theorem Fits.serves (live : w.Live owner) : Serves w.mem (w.pgdir owner) (spaces owner) := by
  cases owner with
  | none => exact fits.kernel
  | some sl => exact (fits.process sl live).toServes

theorem Fits.shares_distinct : (∑ owner, w.share spaces owner).Nodup := by
  obtain ⟨total, base, stock⟩ := fits.stock
  exact (nodup_add.mp stock.held_distinct).1

theorem Fits.share_taken (owner : Owner) {page : Nat} (low : page ∈ w.share spaces owner) : page ∉ w.mem.freelist := by
  obtain ⟨total, base, stock⟩ := fits.stock
  apply stock.not_free
  rw [held_eq _ _ owner]
  exact mem_add.mpr (.inl low)

theorem Fits.user_share (live : w.Live owner) (user : k.val < 512) (hit : w.mem.pte (w.pgdir owner) k i = some pte) :
    pte.frame ∈ owned k ((spaces owner).entry k i) ∧ pte.frame ∈ w.share spaces owner := by
  have serves := fits.serves live
  rw [← serves.root] at hit
  obtain ⟨ent, has⟩ := serves.maps.pte_some hit
  have mine : pte.frame ∈ owned k ((spaces owner).entry k i) := by
    rw [ent, owned_user user has]
    exact mem_singleton_self _
  refine ⟨mine, held_share owner live ?_⟩
  rw [Space.held, pages_eq]
  exact mem_add.mpr (.inr (entry_mem_pages mine))

theorem Fits.one_entry (owner owner' : Owner) (live : w.Live owner) (live' : w.Live owner')
    {k' i' : Fin 1024} {pte' : Entry} (user : k.val < 512) (user' : k'.val < 512)
    (hit : w.mem.pte (w.pgdir owner) k i = some pte)
    (hit' : w.mem.pte (w.pgdir owner') k' i' = some pte') (eq : pte.frame = pte'.frame) :
    owner = owner' ∧ k = k' ∧ i = i' := by
  obtain ⟨mine, low⟩ := fits.user_share live user hit
  obtain ⟨mine', low'⟩ := fits.user_share live' user' hit'
  rw [← eq] at mine' low'
  have owners : owner = owner' := sum_inj fits.shares_distinct low low'
  subst owners
  have share := nodup_of_le (share_le _ owner) fits.shares_distinct
  have leaves : ((spaces owner).leaves owned).Nodup := by
    have held : (spaces owner).held.Nodup := by
      cases owner with
      | none => exact share
      | some sl =>
        rw [World.share, Proc.share_live live] at share
        exact (nodup_cons.mp share).2
    rw [Space.held, pages_eq] at held
    exact (nodup_add.mp held).2.1
  exact ⟨rfl, entry_inj leaves mine mine'⟩

theorem Fits.closed (owner : Owner) (live : w.Live owner) (kernel : 512 ≤ k.val)
    (hit : w.mem.pte (w.pgdir owner) k i = some pte) : pte.user = false := by
  have serves := fits.serves live
  rw [← serves.root] at hit
  obtain ⟨rfl, _⟩ := serves.maps.pte_some hit
  exact serves.guarded k i kernel

theorem Fits.directory_share (live : w.Live owner) : w.pgdir owner ∈ w.share spaces owner := by
  rw [← (fits.serves live).root]
  exact held_share owner live (nodes_held (root_mem_nodes _))

theorem Fits.isolated : Isolated w where
  free_once := by
    obtain ⟨total, base, stock⟩ := fits.stock
    have nodup := stock.distinct
    rw [← stock.balance] at nodup
    exact coe_nodup.mp (nodup_add.mp nodup).1
  free_directory := fun owner live => fits.share_taken owner (fits.directory_share live)
  free_table := by
    intro owner live k tab here
    have serves := fits.serves live
    rw [← serves.root, serves.maps.table_eq] at here
    exact fits.share_taken owner (held_share owner live (nodes_held (table_mem_nodes here)))
  free_stack := by
    intro sl live
    apply fits.share_taken (some sl)
    rw [World.share, Proc.share_live live]
    exact mem_cons_self _ _
  free_pipe := by
    intro page there
    obtain ⟨total, base, stock⟩ := fits.stock
    exact stock.not_free (mem_add.mpr (.inr (mem_coe.mpr there)))
  free_user := by
    intro owner live k i pte user hit
    exact fits.share_taken owner (fits.user_share live user hit).2
  one_directory := by
    intro owner owner' live live' eq
    have there := fits.directory_share live'
    rw [← eq] at there
    exact sum_inj fits.shares_distinct (fits.directory_share live) there
  one_entry := by
    intro owner owner' live live' k i pte k' i' pte' user user' hit hit' eq
    exact fits.one_entry owner owner' live live' user user' hit hit' eq
  kernel_closed := by
    intro owner live k i pte kernel hit
    exact fits.closed owner live kernel hit
  reach_apart := by
    intro sl sl' live live' k i pte k' i' pte' hit open_ hit' open_' eq
    have low : k.val < 512 := by
      by_contra high
      rw [fits.closed (some sl) live (by omega) hit] at open_
      contradiction
    have low' : k'.val < 512 := by
      by_contra high
      rw [fits.closed (some sl') live' (by omega) hit'] at open_'
      contradiction
    have owners := fits.one_entry (some sl) (some sl') live live' low low' hit hit' eq
    exact Option.some.inj owners.1
  freed_once := by
    obtain ⟨total, base, stock⟩ := fits.stock
    exact stock.once

end

end

/-- From every list of distinct free pages: the kernel boots with 132 of them, and after any
sequence of calls, also of failed ones, every page is free or has one owner. -/
theorem pages_isolated (layout : Layout) (free : List Nat) (distinct : free.Nodup)
    (valid : ∀ page ∈ free, layout.first ≤ page ∧ page < PHYSTOP) :
    Holds (bootMem layout) (Mem.initial free) (fun booted mem => ∀ w,
      Reachable (Next layout) (fun w call => call.Made w)
        (World.initial mem booted.1 booted.2.1 booted.2.2) w → Isolated w) fun _ => free.length < 132 := by
  refine (holds_bootMem distinct valid).conseq ?_
  rintro booted mem ⟨spaces, fits⟩ w reached
  have kept : ∃ spaces, Fits layout w spaces := by
    refine reached.invariant (fun w => ∃ spaces, Fits layout w spaces) ⟨spaces, fits⟩ ?_
    rintro before call after ⟨spaces, fits⟩ made next
    exact fits.next made next
  obtain ⟨spaces, fits⟩ := kept
  exact fits.isolated

theorem pages_isolated_small : Holds (bootMem smallLayout) (Mem.initial (List.range' 0x400 200)) (fun booted mem => ∀ w,
      Reachable (Next smallLayout) (fun w call => call.Made w)
        (World.initial mem booted.1 booted.2.1 booted.2.2) w → Isolated w) fun _ => False := by
  have valid : ∀ page ∈ List.range' 0x400 200, smallLayout.first ≤ page ∧ page < PHYSTOP := by
    intro page member
    simp only [List.mem_range'_1, smallLayout, PHYSTOP] at *
    omega
  refine (pages_isolated smallLayout (List.range' 0x400 200) List.nodup_range' valid).mono (fun _ _ holds => holds) ?_
  intro _ few
  simp at few

end Xv6.Vm
