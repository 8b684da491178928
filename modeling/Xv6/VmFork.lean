import Xv6.VmCopy

/-! `copyuvm` as the processor sees it: through the page tables, the child's address space is a copy of
the parent's, page by page. -/

namespace Xv6.Vm

open Exec Exec.Prog PageTree

/-- The page table entry through which page `va` is translated. -/
def Mem.lookup (mem : Mem) (pgdir va : Nat) : Entry :=
  let pde := mem.word pgdir (pdx va)
  if pde.present then mem.word pde.frame (ptx va) else .zero

theorem Maps.lookup {mem : Mem} {sp : Space} (maps : Maps mem sp) (va : Nat) :
    mem.lookup sp.root va = sp.entry (pdx va) (ptx va) := by
  rw [Mem.lookup]
  cases here : sp.table (pdx va) with
  | none =>
    rw [maps.absent _ here, maps.blank _ here]
    rfl
  | some tab =>
    obtain ⟨has, frame⟩ := maps.present _ tab here
    rw [has, frame]
    exact maps.entry _ tab here _

/-- The child `d` of a parent of `sz` bytes: its pages, what is not mapped in it, its kernel part, and the
pages in use that are not its own. -/
structure ForkCopy (mem : Mem) (pgdir sz : Nat) (fresh mem' : Mem) (d : Nat) : Prop where
  flags : ∀ va < pages sz, (mem'.lookup d va).flags = (mem.lookup pgdir va).flags
  words : ∀ va < pages sz, mem'.word (mem'.lookup d va).frame = mem.word (mem.lookup pgdir va).frame
  distinct : ∀ va < pages sz, ∀ va' < pages sz, (mem'.lookup d va).frame = (mem'.lookup d va').frame → va = va'
  new : ∀ va < pages sz, (mem'.lookup d va).frame ∈ mem.freelist
  above : ∀ va, pages sz ≤ va → va < KERNBASE → (mem'.lookup d va).present = false
  kernel : ∀ va, KERNBASE ≤ va → va < TOP → mem'.lookup d va = fresh.lookup d va
  others : ∀ page ∉ mem.freelist, mem'.word page = mem.word page

theorem leaf_inj {sp : Space} {k i k' i' : Fin 1024} (nodup : sp.held.Nodup)
    (user : k.val < 512) (has : (sp.entry k i).present = true) (user' : k'.val < 512)
    (has' : (sp.entry k' i').present = true) (eq : (sp.entry k i).frame = (sp.entry k' i').frame) :
    k = k' ∧ i = i' := by
  by_contra ne
  rw [held_put_zero user has, Multiset.nodup_cons] at nodup
  apply nodup.1
  have there : (sp.put k i .zero).entry k' i' = sp.entry k' i' := by
    rw [entry_put, if_neg]
    rintro ⟨rfl, rfl⟩
    exact ne ⟨rfl, rfl⟩
  rw [eq, ← there, ← add_zero (Space.held _)]
  exact frame_held user' (by rwa [there])

/-- With enough memory `copyuvm` gives a page directory with a copy of each page, in pages that were free,
and leaves the pages in use as they were. -/
theorem copyuvm_copies (layout : Layout) (mem : Mem) (sound : mem.Sound layout) (space : Space) (sz : Nat)
    (resident : Resident mem space sz) (used : ∀ va < pages sz, (mem.lookup space.root va).frame ∉ mem.freelist) :
    Holds (copyuvm layout space.root sz) mem (fun result mem' =>
      (result = none ↔ mem.freelist.length < demand (pages sz)) ∧ ∀ d, result = some d →
      ∃ fresh, setupkvm layout mem = .ok (some d) fresh ∧ ForkCopy mem space.root sz fresh mem' d)
      fun _ => False := by
  have top := resident.top
  refine (sound.stock.holds_copyuvm resident.original top (Or.inl resident.present)).conseq ?_
  rintro result mem' (⟨d, space', rfl, kept, bare, fresh, ran, rfl, maps, copies, plenty⟩ | ⟨rfl, _, few⟩)
  swap
  · exact ⟨iff_of_true rfl (by simpa using few), fun _ returned => by cases returned⟩
  refine ⟨iff_of_false (by simp) (by simpa using plenty), fun d' returned => ?_⟩
  cases returned
  have c := kept.maps.lookup
  have parent := resident.maps.lookup
  rw [kept.root] at c
  have low : ∀ {va}, va < pages sz → (pdx va).val < 512 := fun below => user_place (by omega)
  have present : ∀ va < pages sz, (space'.entry (pdx va) (ptx va)).present = true := by
    intro va below
    rw [Entry.present, copies.flags va below]
    exact resident.present va below
  have held := kept.stock.held_distinct
  rw [add_zero] at held
  refine ⟨fresh, ran, ?_⟩
  constructor
  case flags =>
    intro va below
    rw [c, parent, copies.flags va below]
  case words =>
    intro va below
    have outside := used va below
    rw [parent] at outside ⊢
    rw [c, copies.words va below (by simpa using outside)]
  case distinct =>
    intro va below va' below' same
    rw [c, c] at same
    obtain ⟨place, index⟩ := leaf_inj held (low below) (present va below) (low below') (present va' below') same
    have whole : ∀ {va}, va < pages sz → address (pdx va) (ptx va) = va := fun below =>
      address_pdx (by simp only [KERNBASE, TOP] at *; omega)
    rw [← whole below, place, index, whole below']
  case new =>
    intro va below
    rw [c]
    exact Multiset.mem_coe.mp (kept.stock.mem_total (frame_held (low below) (present va below)))
  case above =>
    intro va high user
    rw [c, (kept.bounded.mono high).absent user]
  case kernel =>
    intro va high bound
    rw [c, maps.lookup, copies.kernel]
    rw [pdx_val bound]
    simp only [KERNBASE] at high
    omega
  case others =>
    intro page outside
    exact kept.stock.frame page (by simpa using outside)

/-- A process of two pages. -/
def pairSpace : Space := smallSpace.put 0 1 ⟨0x303, PTE_P ||| PTE_W ||| PTE_U⟩

def pairMem (free : List Nat) : Mem := (smallWorld free).mem.setWord 0x301 1 ⟨0x303, PTE_P ||| PTE_W ||| PTE_U⟩

theorem smallSpace_nodes : smallSpace.nodes.Nodup := by
  have nodup : smallSpace.held.Nodup := by
    rw [smallSpace_held]
    decide
  rw [Space.held, Tree.pages_eq] at nodup
  exact (Multiset.nodup_add.mp nodup).1

theorem pairMem_resident {free : List Nat} (apart : 0x300 ∉ free ∧ 0x301 ∉ free) :
    Resident (pairMem free) pairSpace (2 * PGSIZE) where
  maps := (smallWorld_resident apart).maps.put smallSpace_nodes (show smallSpace.table 0 = some 0x301 by decide) 1 _
  apart := by
    rw [pairSpace, Tree.nodes_put]
    exact (smallWorld_resident apart).apart
  size := by decide
  present := by decide

theorem copyuvm_copies_pair : ∃ d mem' fresh,
    copyuvm smallLayout pairSpace.root (2 * PGSIZE) (pairMem (List.range' 0x400 70)) = .ok (some d) mem' ∧
      setupkvm smallLayout (pairMem (List.range' 0x400 70)) = .ok (some d) fresh ∧
      ForkCopy (pairMem (List.range' 0x400 70)) pairSpace.root (2 * PGSIZE) fresh mem' d := by
  have sound : (pairMem (List.range' 0x400 70)).Sound smallLayout := ⟨List.nodup_range', by decide, rfl⟩
  obtain ⟨result, mem', ran, none, copied⟩ := (copyuvm_copies smallLayout _ sound pairSpace (2 * PGSIZE)
    (pairMem_resident (by decide)) (by decide +kernel)).returns
  cases result with
  | none => exact absurd (none.mp rfl) (by decide)
  | some d =>
    obtain ⟨fresh, set, copy⟩ := copied d rfl
    exact ⟨d, mem', fresh, ran, set, copy⟩

end Xv6.Vm
