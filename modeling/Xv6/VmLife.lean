import Xv6.VmGrow

/-! An address space from `setupkvm` to `freevm`, with any calls of `allocuvm` and `deallocuvm` on it in
between: what it took from the free list goes back there. -/

namespace Xv6.Vm

open Exec Exec.Prog

/-- A call that changes the size of an address space. -/
inductive Resize where
  | alloc (newsz : Nat)
  | dealloc (newsz : Nat)

def Resize.run (layout : Layout) (pgdir sz : Nat) : Resize → MemM Nat
  | .alloc newsz => do
      let sz' ← allocuvm layout pgdir sz newsz
      pure (if sz' = 0 then sz else sz')
  | .dealloc newsz => deallocuvm layout pgdir sz newsz

def resizes (layout : Layout) (pgdir : Nat) : List Resize → Nat → MemM Unit
  | [], _ => pure ()
  | call :: rest, sz => do
      let sz ← call.run layout pgdir sz
      resizes layout pgdir rest sz

/-- A page directory is set up, used and freed; false when `setupkvm` fails. -/
def lifetime (layout : Layout) (calls : List Resize) : MemM Bool := do
  match ← setupkvm layout with
  | none => pure false
  | some pgdir => do
      resizes layout pgdir calls 0
      freevm layout pgdir
      pure true

section

variable {lay : Layout} {total extra : Multiset Nat} {base : Nat → Fin 1024 → Entry} {mem : Mem}
  {sp : Space} {root sz : Nat} {stops : Stop → Prop}

theorem Kept.holds_resize (kept : Kept lay total extra base root (pages sz) mem sp)
    (size : sz < KERNBASE * PGSIZE) (call : Resize) :
    Holds (call.run lay root sz) mem (fun sz' mem' => sz' < KERNBASE * PGSIZE ∧
      ∃ sp', Kept lay total extra base root (pages sz') mem' sp') stops := by
  cases call with
  | alloc newsz =>
    rw [Resize.run]
    refine (kept.holds_allocuvm (.inl size)).bind ?_
    rintro sz' mem' ⟨sp', ⟨rfl, kept'⟩ | ⟨larger, below, kept'⟩⟩
    · exact .pure ⟨size, sp', kept'⟩
    · rw [holds_pure]
      split
      · rename_i zero
        obtain rfl : sz = sz' := by omega
        exact ⟨size, sp', kept'⟩
      · exact ⟨below, sp', kept'⟩
  | dealloc newsz =>
    rw [Resize.run]
    by_cases shrinks : newsz < sz
    · refine (kept.holds_deallocuvm shrinks le_rfl (pages_top size)).conseq ?_
      rintro _ mem' ⟨rfl, sp', kept', _⟩
      exact ⟨by omega, sp', kept'⟩
    · rw [deallocuvm, if_pos (by omega), holds_pure]
      exact ⟨size, sp, kept⟩

theorem Kept.holds_resizes (calls : List Resize)
    (kept : Kept lay total extra base root (pages sz) mem sp) (size : sz < KERNBASE * PGSIZE) :
    Holds (resizes lay root calls sz) mem (fun _ mem' => ∃ lt sp',
      Kept lay total extra base root lt mem' sp') stops := by
  induction calls generalizing mem sp sz with
  | nil => exact .pure ⟨_, sp, kept⟩
  | cons call rest ih =>
    rw [resizes]
    refine (kept.holds_resize size call).bind ?_
    rintro sz' mem' ⟨size', sp', kept'⟩
    exact ih kept' size'

end

/-- Whatever is done to an address space between `setupkvm` and `freevm`, after it the free list has the
pages it had at the start. -/
theorem address_space_conserved (layout : Layout) (mem : Mem) (sound : mem.Sound layout) (calls : List Resize) :
    Holds (lifetime layout calls) mem (fun built mem' => (built = true ↔ 65 ≤ mem.freelist.length) ∧
      (built = true → mem'.freelist.Perm mem.freelist ∧ mem'.refreed = false ∧
        ∀ page ∉ mem.freelist, mem'.word page = mem.word page)) fun _ => False := by
  rw [lifetime]
  refine sound.stock.holds_setupkvm.bind ?_
  rintro result mem₁ (⟨sp, rfl, fresh, stock, maps⟩ | ⟨rfl, short, _⟩)
  · have kept : Kept layout mem.freelist 0 mem.word sp.root (pages 0) mem₁ sp :=
      ⟨rfl, stock, maps, fresh.bounded, fresh.guard⟩
    refine (kept.holds_resizes calls (by decide)).bind ?_
    rintro _ mem₂ ⟨bound, sp₂, kept₂⟩
    refine kept₂.holds_freevm.bind ?_
    intro _ mem₃ stock₃
    have room := stock.card
    rw [Multiset.coe_card, Multiset.card_add, fresh.card] at room
    refine .pure ⟨⟨fun _ => by omega, fun _ => rfl⟩, fun _ =>
      ⟨?_, stock₃.once, fun page used => stock₃.frame page (by simpa using used)⟩⟩
    have balance := stock₃.balance
    rw [add_zero] at balance
    exact Multiset.coe_eq_coe.mp balance
  · rw [Multiset.coe_card, Multiset.card_zero] at short
    exact .pure ⟨⟨fun impossible => by contradiction, fun enough => by omega⟩, fun impossible => by contradiction⟩

theorem address_space_conserved_hundred : ∃ mem', lifetime smallLayout [.alloc 8192, .alloc 409600, .dealloc 1]
      (Mem.initial (List.range' 0x400 100)) = .ok true mem' ∧
    mem'.freelist.Perm (List.range' 0x400 100) ∧ mem'.refreed = false ∧
    ∀ page ∉ List.range' 0x400 100, mem'.word page = (Mem.initial (List.range' 0x400 100)).word page := by
  obtain ⟨built, mem', ran, full, kept⟩ := (address_space_conserved smallLayout (Mem.initial (List.range' 0x400 100))
    ⟨List.nodup_range', by decide, rfl⟩ [.alloc 8192, .alloc 409600, .dealloc 1]).returns
  obtain rfl := full.mpr (by decide)
  exact ⟨mem', ran, kept rfl⟩

end Xv6.Vm
