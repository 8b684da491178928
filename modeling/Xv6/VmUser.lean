import Xv6.VmSetup
import Mathlib.Data.Nat.SuccPred
import Mathlib.Order.Interval.Finset.Nat
import Mathlib.Algebra.Order.Interval.Finset.SuccPred

/-! User pages come and go: `deallocuvm`, `freevm` and `allocuvm` on an address space. Pages move
between it and the free list, and none is lost. -/

namespace Xv6.Vm

open Exec Exec.Prog PageTree Function Multiset Tree

def Bounded (space : Space) (bound : Nat) : Prop :=
  ∀ place index, place.val < 512 → (space.entry place index).present = true → address place index < bound

def Guarded (space : Space) : Prop :=
  ∀ place index, 512 ≤ place.val → (space.entry place index).user = false

structure Cleared (lo stop : Nat) (space space' : Space) : Prop where
  root : space'.root = space.root
  table : space'.table = space.table
  entries : ∀ place index, space'.entry place index = if lo ≤ address place index ∧ address place index < stop ∧
      (space.entry place index).present = true then .zero else space.entry place index

variable {lo stop va : Nat} {sp sp' : Space}

theorem Cleared.none (nothing : ∀ k index, lo ≤ address k index → address k index < stop →
      (sp.entry k index).present = false) : Cleared lo stop sp sp where
  root := rfl
  table := rfl
  entries := by
    intro k index
    rw [if_neg]
    rintro ⟨low, high, has⟩
    rw [nothing k index low high] at has
    contradiction

section

variable (cleared : Cleared lo stop sp sp')

include cleared

theorem Cleared.guarded (guarded : Guarded sp) : Guarded sp' := by
  intro k index high
  rw [cleared.entries]
  split
  · simp [Entry.user, Entry.zero]
  · exact guarded k index high

theorem Cleared.absent {k index : Fin 1024} (low : lo ≤ address k index)
    (high : address k index < stop) : (sp'.entry k index).present = false := by
  rw [cleared.entries]
  split
  · exact Entry.zero_present
  · rename_i kept
    simpa [low, high] using kept

theorem Cleared.bounded (bounded : Bounded sp stop) : Bounded sp' lo := by
  intro k index user has
  by_contra above
  have pre : address k index < stop := by
    apply bounded k index user
    rw [cleared.entries] at has
    split at has
    · simp at has
    · exact has
  rw [cleared.absent (by omega) pre] at has
  contradiction

end

theorem Cleared.skip (cleared : Cleared (va + 1) stop sp sp') (whole : va < TOP)
    (absent : (sp.entry (pdx va) (ptx va)).present = false) : Cleared va stop sp sp' where
  root := cleared.root
  table := cleared.table
  entries := by
    intro k index
    rw [cleared.entries]
    by_cases fst : address k index = va
    · obtain ⟨rfl, rfl⟩ := address_inj (fst.trans (address_pdx whole).symm)
      simp [absent]
    · have range : va + 1 ≤ address k index ↔ va ≤ address k index := by omega
      simp only [range]

theorem Cleared.next (cleared : Cleared (va + 1) stop (sp.put (pdx va) (ptx va) .zero) sp')
    (whole : va < TOP) (inside : va < stop) (has : (sp.entry (pdx va) (ptx va)).present = true) :
    Cleared va stop sp sp' where
  root := cleared.root
  table := cleared.table
  entries := by
    intro k index
    rw [cleared.entries]
    by_cases first : address k index = va
    · obtain ⟨rfl, rfl⟩ := address_inj (first.trans (address_pdx whole).symm)
      simp [Tree.put, first, inside, has]
    · have ne : ¬(k = pdx va ∧ index = ptx va) := by
        rintro ⟨rfl, rfl⟩
        exact first (address_pdx whole)
      have range : va + 1 ≤ address k index ↔ va ≤ address k index := by omega
      simp only [range, entry_put, ne, ↓reduceIte]

def Same (space : Space) (mem mem' : Mem) : Prop :=
  ∀ place index, place.val < 512 → (space.entry place index).present = true →
    mem'.word (space.entry place index).frame = mem.word (space.entry place index).frame

theorem Same.clear {mem mem₁ mem' : Mem} (eq : Same sp mem mem₁)
    (cleared : Cleared lo stop sp sp') (rest : Same sp' mem₁ mem') : Same sp' mem mem' := by
  intro k index user has
  rw [rest k index user has]
  rw [cleared.entries] at has ⊢
  split at has
  · simp at has
  · rename_i kept
    rw [if_neg kept]
    exact eq k index user has

theorem user_place (lt : va < KERNBASE) : (pdx va).val < 512 := by
  rw [pdx_val (by simp only [KERNBASE, TOP] at *; omega)]
  simp only [KERNBASE] at lt
  omega

section

variable {lay : Layout} {total extra : Multiset Nat} {base : Nat → Fin 1024 → Entry} {stops : Stop → Prop}

variable {sp : Space} {k index : Fin 1024} {mem : Mem}

section

variable (user : k.val < 512) (has : (sp.entry k index).present = true)

include user has

theorem held_put_zero : sp.held = (sp.entry k index).frame ::ₘ Space.held (sp.put k index .zero) := by
  have change : Space.held (sp.put k index Entry.zero) + owned k (sp.entry k index) =
      sp.held + owned k Entry.zero := pages_put k index Entry.zero
  rw [owned_user user has, owned_absent k Entry.zero_present, add_zero] at change
  rw [← change, add_comm, singleton_add]

theorem frame_leaf : (sp.entry k index).frame ∈ sp.leaves owned :=
  entry_mem_pages (by rw [owned_user user has]; exact mem_singleton_self _)

theorem frame_held : (sp.entry k index).frame ∈ sp.held + extra := by
  rw [Space.held, pages_eq]
  exact mem_add.mpr (.inl (mem_add.mpr (.inr (frame_leaf user has))))

end

theorem Stock.frame_outside (stock : Stock lay total base mem (sp.held + extra))
    (user : k.val < 512) (has : (sp.entry k index).present = true) : (sp.entry k index).frame ∉ sp.nodes := by
  have nodup := (nodup_add.mp stock.held_distinct).1
  rw [Space.held, pages_eq] at nodup
  intro low
  exact disjoint_left.mp (nodup_add.mp nodup).2.2 low (frame_leaf user has)

theorem Stock.holds_release {tab : Nat} (stock : Stock lay total base mem (sp.held + extra))
    (maps : Maps mem sp) (here : sp.table k = some tab) (user : k.val < 512)
    (has : (sp.entry k index).present = true) : Holds (do
      onlyIf ((sp.entry k index).frame = 0) (halt (.panic "kfree"))
      kfree lay (sp.entry k index).frame
      modify fun mem => mem.setWord tab index .zero) mem (fun _ mem' =>
        Stock lay total base mem' (Space.held (sp.put k index .zero) + extra) ∧
        Maps mem' (sp.put k index .zero) ∧ Same (sp.put k index .zero) mem mem') stops := by
  have outside := stock.frame_outside user has
  have nodup := stock.nodes_distinct
  have stock' := stock
  rw [held_put_zero user has, cons_add] at stock'
  have positive : (sp.entry k index).frame ≠ 0 := by
    have low := (stock'.valid _ (stock'.mem_total (mem_cons_self _ _))).1
    have text := lay.text_above
    have above := lay.end_above
    omega
  simp only [holds_bind, holds_onlyIf, holds_halt, positive, false_implies, not_false_eq_true, true_implies, true_and]
  refine stock'.holds_kfree.conseq ?_
  rintro _ mem' ⟨words, freed⟩
  have maps' : Maps mem' sp := by
    apply maps.congr
    intro page inside
    have ne : page ≠ (sp.entry k index).frame := by
      rintro rfl
      exact outside inside
    rw [words, update_of_ne ne]
  simp only [holds_modify]
  have member : tab ∈ (sp.put k index .zero).nodes := table_mem_nodes (by simpa using here)
  have written : Stock lay total base (mem'.setWord tab index .zero) (Space.held (sp.put k index .zero) + extra) := by
    apply freed.write
    rw [Space.held, pages_eq]
    simp [member]
  refine ⟨written, maps'.put nodup here index .zero, fun spot spot' low mapped => ?_⟩
  have o : ((sp.put k index .zero).entry spot spot').frame ≠ tab :=
    fun clash => written.frame_outside low mapped (clash ▸ member)
  have apart : ((sp.put k index .zero).entry spot spot').frame ≠ (sp.entry k index).frame :=
    fun clash => (nodup_cons.mp stock'.held_distinct).1 (clash ▸ frame_held low mapped)
  simp only [Mem.setWord, update_of_ne o, words, update_of_ne apart]

theorem Stock.holds_deallocLoop (stop : Nat) (top : stop ≤ KERNBASE) (fuel : Nat)
    (stock : Stock lay total base mem (sp.held + extra)) (maps : Maps mem sp) (enough : stop ≤ va + fuel) :
    Holds (deallocLoop lay sp.root stop fuel va) mem (fun _ mem' => ∃ sp' : Space,
      Cleared va stop sp sp' ∧ Stock lay total base mem' (sp'.held + extra) ∧
      Maps mem' sp' ∧ Same sp' mem mem') stops := by
  have finished : ∀ {mem : Mem} {sp : Space} {va : Nat}, stop ≤ va →
      Stock lay total base mem (sp.held + extra) → Maps mem sp → ∃ sp' : Space, Cleared va stop sp sp' ∧
        Stock lay total base mem (sp'.held + extra) ∧ Maps mem sp' ∧ Same sp' mem mem := by
    intro mem sp va past stock maps
    refine ⟨sp, Cleared.none ?_, stock, maps, fun _ _ _ _ => rfl⟩
    intro k index low high
    omega
  induction fuel generalizing mem sp va with
  | zero =>
    rw [deallocLoop, holds_pure]
    exact finished (by omega) stock maps
  | succ fuel ih =>
    rw [deallocLoop, holds_ite]
    refine ⟨?_, fun past => .pure (finished (by omega) stock maps)⟩
    intro inside
    have whole : va < TOP := by
      simp only [KERNBASE, TOP] at *
      omega
    have user : (pdx va).val < 512 := user_place (by omega)
    refine (maps.holds_walk va).bind ?_
    rintro res mem' ⟨rfl, rfl⟩
    cases here : sp.table (pdx va) with
    | none =>
      -- Without a table nothing is mapped up to the next one.
      refine (ih stock maps (by omega)).conseq ?_
      rintro _ mem' ⟨sp', cleared, rest⟩
      refine ⟨sp', ⟨cleared.root, cleared.table, ?_⟩, rest⟩
      intro k index
      rw [cleared.entries]
      by_cases eq : k = pdx va
      · subst k
        simp [maps.blank _ here]
      · have apart : k.val ≠ va / 1024 := by
          rw [← pdx_val whole]
          exact fun equal => eq (Fin.ext equal)
        have lt := index.isLt
        have range : ((va / 1024 + 1) * 1024 ≤ address k index) ↔ (va ≤ address k index) := by
          simp only [address]
          omega
        simp only [range]
    | some tab =>
      dsimp only [Option.map_some]
      rw [holds_bind, holds_get]
      rw [maps.entry _ tab here, holds_bind, holds_onlyIf]
      constructor
      · intro has
        refine (stock.holds_release maps here user has).conseq ?_
        rintro _ mem' ⟨stock', maps', eq⟩
        refine (ih stock' maps' (by omega)).conseq ?_
        rintro _ mem'' ⟨sp', cleared, stock'', maps'', rest⟩
        exact ⟨sp', cleared.next whole inside has, stock'', maps'', eq.clear cleared rest⟩
      · intro absent
        refine (ih stock maps (by omega)).conseq ?_
        rintro _ mem' ⟨sp', cleared, rest⟩
        exact ⟨sp', cleared.skip whole (by simpa using absent), rest⟩

theorem Stock.holds_deallocuvm {oldsz newsz : Nat}
    (stock : Stock lay total base mem (sp.held + extra)) (maps : Maps mem sp)
    (shrinks : newsz < oldsz) (top : pages oldsz ≤ KERNBASE) :
    Holds (deallocuvm lay sp.root oldsz newsz) mem (fun res mem' => res = newsz ∧
      ∃ sp' : Space, Cleared (pages newsz) (pages oldsz) sp sp' ∧
        Stock lay total base mem' (sp'.held + extra) ∧ Maps mem' sp' ∧ Same sp' mem mem') stops := by
  rw [deallocuvm, if_neg (by omega)]
  refine (stock.holds_deallocLoop (pages oldsz) top _ maps (by omega)).bind ?_
  rintro _ mem' cleared
  exact .pure ⟨rfl, cleared⟩

def tablesFrom (space : Space) (place : Nat) : Multiset Nat :=
  ∑ spot with place ≤ spot.val, unit (space.table spot)

theorem tablesFrom_succ (sp : Space) (k : Fin 1024) :
    tablesFrom sp k.val = unit (sp.table k) + tablesFrom sp (k.val + 1) := by
  have split : Finset.univ.filter (fun spot : Fin 1024 => k.val ≤ spot.val) =
      insert k (Finset.univ.filter fun spot : Fin 1024 => k.val + 1 ≤ spot.val) := by
    ext spot
    simp only [Finset.mem_filter, Finset.mem_univ, true_and, Finset.mem_insert, Fin.ext_iff]
    omega
  rw [tablesFrom, split, Finset.sum_insert (by simp), tablesFrom]

theorem tablesFrom_last (sp : Space) : tablesFrom sp 1024 = 0 := by
  apply Finset.sum_eq_zero
  intro spot mem
  have lt := spot.isLt
  simp only [Finset.mem_filter, Finset.mem_univ, true_and] at mem
  omega

theorem tablesFrom_zero (sp : Space) : tablesFrom sp 0 = ∑ k, unit (sp.table k) := by
  simp [tablesFrom]

attribute [irreducible] tablesFrom

theorem held_of_bounded (bounded : Bounded sp 0) : sp.held = {sp.root} + tablesFrom sp 0 := by
  have leaves : sp.leaves owned = 0 := by
    rw [leaves_eq]
    apply Finset.sum_eq_zero
    intro k _
    apply Finset.sum_eq_zero
    intro index _
    rw [owned, if_neg]
    rintro ⟨user, has⟩
    exact absurd (bounded k index user has) (Nat.not_lt_zero _)
  rw [Space.held, pages_eq, leaves, add_zero, nodes_eq, tablesFrom_zero]

theorem Stock.holds_freevm (stock : Stock lay total base mem (sp.held + extra)) (maps : Maps mem sp) :
    Holds (freevm lay sp.root) mem (fun _ mem' => Stock lay total base mem' extra) stops := by
  have whole : pages (KERNBASE * PGSIZE) = KERNBASE := by decide
  rw [freevm]
  refine (stock.holds_deallocuvm maps (by decide) (by rw [whole])).bind ?_
  rintro _ mem₁ ⟨_, sp', cleared, stock₁, maps₁, _⟩
  have bounded : Bounded sp' 0 := by
    apply cleared.bounded
    intro k index user _
    have lt := index.isLt
    rw [whole]
    simp only [address, KERNBASE]
    omega
  have nodup := stock₁.nodes_distinct
  have root := cleared.root
  rw [held_of_bounded bounded] at stock₁
  rw [holds_bind, ← root]
  have rounds : Holds (upto NPDENTRIES fun i => do
      let mem ← get
      let pde := mem.word sp'.root (Fin.ofNat 1024 i)
      onlyIf (pde.present = true) (kfree lay pde.frame)) mem₁ (fun _ mem' =>
        mem'.word sp'.root = mem₁.word sp'.root ∧
        Stock lay total base mem' ({sp'.root} + tablesFrom sp' NPDENTRIES + extra)) stops := by
    apply Holds.upto (fun k mem' => mem'.word sp'.root = mem₁.word sp'.root ∧
        Stock lay total base mem' ({sp'.root} + tablesFrom sp' k + extra))
    · exact ⟨rfl, stock₁⟩
    · rintro k mem' lt ⟨words, stock'⟩
      have spot : (Fin.ofNat 1024 k).val = k := Nat.mod_eq_of_lt lt
      have split := tablesFrom_succ sp' (Fin.ofNat 1024 k)
      rw [spot] at split
      rw [holds_bind, holds_get, holds_onlyIf, words]
      cases here : sp'.table (Fin.ofNat 1024 k) with
      | none =>
        rw [here, unit_none, zero_add] at split
        rw [split] at stock'
        rw [maps₁.absent _ here]
        constructor
        · intro impossible
          contradiction
        · intro _
          exact ⟨rfl, stock'⟩
      | some tab =>
        obtain ⟨has, frame⟩ := maps₁.present _ tab here
        have apart : sp'.root ≠ tab := (table_ne_root nodup here).symm
        rw [split, here, unit_some, add_left_comm, add_assoc, singleton_add] at stock'
        rw [has, frame]
        constructor
        · intro _
          refine stock'.holds_kfree.conseq ?_
          rintro _ mem'' ⟨words', stock''⟩
          refine ⟨?_, stock''⟩
          rw [words', update_of_ne apart, words]
        · intro impossible
          exact absurd rfl impossible
  refine rounds.conseq ?_
  rintro _ mem₂ ⟨_, stock₂⟩
  rw [NPDENTRIES, tablesFrom_last, add_zero, singleton_add] at stock₂
  refine stock₂.holds_kfree.conseq ?_
  rintro _ mem₃ ⟨_, stock₃⟩
  exact stock₃

end

section

variable {lay : Layout} {total extra : Multiset Nat} {base : Nat → Fin 1024 → Entry} {stops : Stop → Prop}

theorem present_or (page : Nat) (perm : BitVec 12) : (⟨page, perm ||| PTE_P⟩ : Entry).present = true := by
  have kept : (perm ||| PTE_P) &&& PTE_P = PTE_P := by
    ext index
    simp only [BitVec.getElem_and, BitVec.getElem_or]
    cases perm[index] <;> cases PTE_P[index] <;> rfl
  rw [Entry.present, kept]
  decide

variable {sp : Space} {va page lt oldsz newsz : Nat} {mem : Mem} {ent : Entry} {perm : BitVec 12}

theorem Mapped.guarded (mapped : Mapped sp sp' va ent) (user : va < KERNBASE) (guarded : Guarded sp) : Guarded sp' := by
  intro k index high
  have low := user_place user
  have apart : ¬(k = pdx va ∧ index = ptx va) := by
    rintro ⟨rfl, _⟩
    omega
  rw [mapped.entry_eq, if_neg apart]
  exact guarded k index high

theorem Mapped.bounded (mapped : Mapped sp sp' va ent) (user : va < KERNBASE)
    (bounded : Bounded sp va) : Bounded sp' (va + 1) := by
  intro k index low has
  rw [mapped.entry_eq] at has
  split at has
  · rename_i here
    rw [here.1, here.2, address_pdx (by simp only [KERNBASE, TOP] at *; omega)]
    exact Nat.lt_succ_self va
  · exact Nat.lt_succ_of_lt (bounded k index low has)

theorem Bounded.absent (bounded : Bounded sp va) (user : va < KERNBASE) :
    (sp.entry (pdx va) (ptx va)).present = false := by
  rw [Bool.eq_false_iff]
  intro has
  have pre := bounded _ _ (user_place user) has
  rw [address_pdx (by simp only [KERNBASE, TOP] at *; omega)] at pre
  exact Nat.lt_irrefl va pre

theorem Bounded.mono {lt' : Nat} (bounded : Bounded sp lt) (le : lt ≤ lt') : Bounded sp lt' := by
  intro k index user has
  exact lt_of_lt_of_le (bounded k index user has) le

structure Kept (layout : Layout) (total extra : Multiset Nat) (base : Nat → Fin 1024 → Entry)
    (root bound : Nat) (mem : Mem) (space : Space) : Prop where
  root : space.root = root
  stock : Stock layout total base mem (space.held + extra)
  maps : Maps mem space
  bounded : Bounded space bound
  guarded : Guarded space

def Agrees (bound : Nat) (space : Space) (mem : Mem) (space' : Space) (mem' : Mem) : Prop :=
  ∀ va < bound, space'.entry (pdx va) (ptx va) = space.entry (pdx va) (ptx va) ∧
    ((space.entry (pdx va) (ptx va)).present = true →
      mem'.word (space.entry (pdx va) (ptx va)).frame = mem.word (space.entry (pdx va) (ptx va)).frame)

/-- The pages it takes to map those from `lo` up to `hi`, with the page tables that are missing. -/
def needed (space : Space) (lo hi : Nat) : Nat :=
  hi - lo + (((Finset.Ico lo hi).image pdx).filter fun place => space.table place = none).card

variable {root : Nat} {mem' : Mem}

theorem Agrees.refl (lt : Nat) (sp : Space) (mem : Mem) : Agrees lt sp mem sp mem :=
  fun _ _ => ⟨rfl, fun _ => rfl⟩

theorem Agrees.trans {sp'' : Space} {mem'' : Mem} (fst : Agrees lt sp mem sp' mem')
    (snd : Agrees lt sp' mem' sp'' mem'') : Agrees lt sp mem sp'' mem'' := by
  intro va below
  obtain ⟨ent, words⟩ := fst va below
  obtain ⟨ent', words'⟩ := snd va below
  rw [ent] at ent' words'
  exact ⟨ent', fun has => (words' has).trans (words has)⟩

theorem Agrees.mono {lt' : Nat} (agrees : Agrees lt sp mem sp' mem') (le : lt' ≤ lt) :
    Agrees lt' sp mem sp' mem' := fun va below => agrees va (below.trans_le le)

theorem Mapped.needed (mapped : Mapped sp sp' va ent) {hi : Nat} (below : va < hi) :
    needed sp va hi = 1 + (if (sp.table (pdx va)).isSome then 0 else 1) + needed sp' (va + 1) hi := by
  have rest : (((Finset.Ico (va + 1) hi).image pdx).filter fun k => sp'.table k = none) =
      (((Finset.Ico (va + 1) hi).image pdx).filter fun k => sp.table k = none).erase (pdx va) := by
    ext k
    have tab := (mapped.table k).not
    simp only [Option.not_isSome_iff_eq_none, not_or] at tab
    simp only [Finset.mem_filter, Finset.mem_erase, tab]
    tauto
  rw [Vm.needed, Vm.needed, rest, ← Finset.insert_Ico_add_one_left_eq_Ico below, Finset.image_insert,
    Finset.filter_insert]
  cases here : sp.table (pdx va) with
  | some tab =>
    rw [if_neg (by simp), Option.isSome_some, if_pos rfl, Finset.erase_eq_of_notMem (by simp [here])]
    omega
  | none =>
    rw [if_pos rfl, if_neg (by simp), ← Finset.card_erase_add_one (Finset.mem_insert_self _ _),
      Finset.erase_insert_eq_erase]
    omega

section

variable (kept : Kept lay total extra base root lt mem sp)

include kept

theorem Kept.holds_deallocuvm (shrinks : newsz < oldsz) (under : lt ≤ pages oldsz) (top : pages oldsz ≤ KERNBASE) :
    Holds (deallocuvm lay root oldsz newsz) mem (fun res mem' => res = newsz ∧
      ∃ sp', Kept lay total extra base root (pages newsz) mem' sp' ∧ Agrees (pages newsz) sp mem sp' mem') stops := by
  obtain ⟨rfl, stock, maps, bounded, guarded⟩ := kept
  refine (stock.holds_deallocuvm maps shrinks top).conseq ?_
  rintro res mem' ⟨rfl, sp', cleared, stock', maps', eq⟩
  refine ⟨rfl, sp', ⟨cleared.root, stock', maps', cleared.bounded (bounded.mono under),
    cleared.guarded guarded⟩, fun va below => ?_⟩
  have user : va < KERNBASE := by
    simp only [pages, PGSIZE] at *
    omega
  have ent : sp'.entry (pdx va) (ptx va) = sp.entry (pdx va) (ptx va) := by
    rw [cleared.entries, if_neg]
    rw [address_pdx (by simp only [KERNBASE, TOP] at *; omega)]
    omega
  refine ⟨ent, fun has => ?_⟩
  have words := eq (pdx va) (ptx va) (user_place user)
  rw [ent] at words
  exact words has

theorem Kept.holds_freevm : Holds (freevm lay root) mem (fun _ mem' => Stock lay total base mem' extra) stops := by
  obtain ⟨rfl, stock, maps, _, _⟩ := kept
  exact stock.holds_freevm maps

theorem Kept.holds_kalloc : Holds kalloc mem (fun res mem' =>
      (res = none ∧ mem' = mem ∧ mem.freelist = []) ∨ ∃ page, res = some page ∧ mem'.word = mem.word ∧
        Kept lay total (page ::ₘ extra) base root lt mem' sp) stops := by
  refine kept.stock.holds_kalloc.conseq ?_
  rintro res mem' (⟨rfl, rfl, empty⟩ | ⟨page, rfl, words, ran⟩)
  · exact .inl ⟨rfl, rfl, empty⟩
  · refine .inr ⟨page, rfl, words, kept.root, ?_, ?_, kept.bounded, kept.guarded⟩
    · rwa [add_cons]
    · exact kept.maps.congr fun o _ => by rw [words]

end

section

variable (kept : Kept lay total (page ::ₘ extra) base root lt mem sp)

include kept

theorem Kept.write (words : Fin 1024 → Entry) : Kept lay total (page ::ₘ extra) base root lt
      { mem with word := update mem.word page words } sp where
  root := kept.root
  stock := kept.stock.write (by simp) words
  maps := by
    have stock := kept.stock
    rw [add_cons] at stock
    exact kept.maps.write stock.extra_outside words
  bounded := kept.bounded
  guarded := kept.guarded

theorem Kept.agrees {pre : Mem} {limit : Nat} (top : limit ≤ KERNBASE)
    (words : ∀ o, o ≠ page → mem'.word o = pre.word o) : Agrees limit sp pre sp mem' := by
  intro va below
  have nodup := kept.stock.held_distinct
  rw [add_cons] at nodup
  refine ⟨rfl, fun has => words _ fun clash => (nodup_cons.mp nodup).1 ?_⟩
  rw [← clash]
  exact frame_held (user_place (by omega)) has

theorem Kept.holds_kfree : Holds (kfree lay page) mem (fun _ mem' =>
      Kept lay total extra base root lt mem' sp ∧ ∀ o, o ≠ page → mem'.word o = mem.word o) stops := by
  have stock := kept.stock
  rw [add_cons] at stock
  refine stock.holds_kfree.conseq ?_
  rintro _ mem' ⟨words, stock'⟩
  refine ⟨⟨kept.root, stock', ?_, kept.bounded, kept.guarded⟩, fun o apart => ?_⟩
  · exact (kept.write fun _ => .junk).maps.congr fun o _ => by rw [words]
  · rw [words, update_of_ne apart]

end

theorem Kept.holds_mapUser (kept : Kept lay total (page ::ₘ extra) base root va mem sp)
    (user : va < KERNBASE) : Holds (mappages root 1 va page perm) mem (fun res mem' =>
      (res = true ∧ ∃ sp', Kept lay total extra base root (va + 1) mem' sp' ∧
        Mapped sp sp' va ⟨page, perm ||| PTE_P⟩ ∧ Agrees va sp mem sp' mem' ∧ mem'.word page = mem.word page) ∨
      (res = false ∧ mem' = mem ∧ mem.freelist = [] ∧ sp.table (pdx va) = none)) stops := by
  obtain ⟨rfl, stock, maps, bounded, guarded⟩ := kept
  rw [add_cons] at stock
  have outside := stock.extra_outside
  have has : (⟨page, perm ||| PTE_P⟩ : Entry).present = true := present_or page perm
  have held : page ::ₘ (sp.held + extra) = sp.held + (owned (pdx va) ⟨page, perm ||| PTE_P⟩ + extra) := by
    rw [owned_user (user_place user) has, add_left_comm, singleton_add]
  rw [held] at stock
  apply stock.holds_map maps (bounded.absent user)
  · intro empty missing
    exact .inr ⟨rfl, rfl, empty, missing⟩
  · intro mem' sp' stock' maps' mapped spares
    rw [mappages]
    refine .pure (.inl ⟨rfl, sp', ⟨mapped.root, stock', maps', mapped.bounded user bounded,
      mapped.guarded user guarded⟩, mapped, fun spot below => ⟨?_, fun there => ?_⟩, ?_⟩)
    · rw [mapped.entry_eq, if_neg]
      rintro ⟨k, index⟩
      have eq : address (pdx spot) (ptx spot) = address (pdx va) (ptx va) := by rw [k, index]
      rw [address_pdx (by simp only [KERNBASE, TOP] at *; omega),
        address_pdx (by simp only [KERNBASE, TOP] at *; omega)] at eq
      omega
    · have low := user_place (below.trans user)
      exact spares _ (frame_held low there) (stock.frame_outside low there)
    · exact spares page (held ▸ mem_cons_self _ _) outside

def Resized (layout : Layout) (total extra : Multiset Nat) (base : Nat → Fin 1024 → Entry)
    (root oldsz : Nat) (result : Nat) (mem : Mem) : Prop :=
  ∃ space, (result = 0 ∧ Kept layout total extra base root (pages oldsz) mem space) ∨
    (oldsz ≤ result ∧ result < KERNBASE * PGSIZE ∧ Kept layout total extra base root (pages result) mem space)

theorem Kept.holds_allocLoop (top : newsz < KERNBASE * PGSIZE) (n : Nat)
    (kept : Kept lay total extra base root va mem sp) (above : pages oldsz ≤ va)
    (rest : va + n = pages newsz) : Holds (allocLoop lay root oldsz newsz n va) mem
      (fun res mem' => ∃ sp', (res = 0 ∧ mem.freelist.length < needed sp va (pages newsz) ∧
          Kept lay total extra base root (pages oldsz) mem' sp' ∧ Agrees (pages oldsz) sp mem sp' mem') ∨
        (res = newsz ∧ needed sp va (pages newsz) ≤ mem.freelist.length ∧
          Kept lay total extra base root (pages newsz) mem' sp' ∧ Agrees va sp mem sp' mem' ∧
          ∀ spot, va ≤ spot → spot < pages newsz → (sp'.entry (pdx spot) (ptx spot)).present = true ∧
            mem'.word (sp'.entry (pdx spot) (ptx spot)).frame = fun _ => .zero)) stops := by
  have whole : pages newsz ≤ KERNBASE := by
    simp only [pages, KERNBASE, PGSIZE] at *
    omega
  induction n generalizing mem sp va with
  | zero =>
    rw [allocLoop]
    rw [add_zero] at rest
    subst rest
    refine .pure ⟨sp, .inr ⟨rfl, by simp [needed], kept, .refl _ _ _, ?_⟩⟩
    intro spot low high
    omega
  | succ n ih =>
    have larger : oldsz < newsz := by
      simp only [pages, PGSIZE] at *
      omega
    have user : va < KERNBASE := by omega
    have least : pages newsz - va ≤ needed sp va (pages newsz) := Nat.le_add_right _ _
    rw [allocLoop]
    refine kept.holds_kalloc.bind ?_
    rintro res mem₁ (⟨rfl, rfl, empty⟩ | ⟨page, rfl, words, kept₁⟩)
    · refine (kept.holds_deallocuvm larger (by omega) whole).bind ?_
      rintro _ mem₂ ⟨_, sp', kept', agrees⟩
      exact .pure ⟨sp', .inl ⟨rfl, by rw [empty, List.length_nil]; omega, kept', agrees⟩⟩
    · rw [holds_bind, holds_modify, holds_bind]
      have filled := kept₁.write fun _ => .zero
      have sum := kept.stock.card
      have agrees₁ : Agrees va sp mem sp (mem₁.fill page .zero) :=
        kept₁.agrees user.le fun o apart => by rw [← words]; exact update_of_ne apart _ _
      have sum₁ := filled.stock.card
      rw [card_add, card_cons] at sum₁
      rw [card_add] at sum
      refine (filled.holds_mapUser user).conseq ?_
      rintro res mem₂ (⟨rfl, sp', kept₂, mapped, agrees₂, eq⟩ | ⟨rfl, rfl, empty, missing⟩)
      · have step := mapped.needed (show va < pages newsz by omega)
        have sum₂ := kept₂.stock.card
        have card := mapped.card
        rw [owned_user (user_place user) (present_or _ _), card_singleton] at card
        rw [card_add] at sum₂
        have agrees := agrees₁.trans agrees₂
        refine (ih kept₂ (by omega) (by omega)).conseq ?_
        rintro res mem₃ ⟨sp'', ⟨rfl, short, kept₃, agrees₃⟩ | ⟨rfl, enough, kept₃, agrees₃, zeroes⟩⟩
        · exact ⟨sp'', .inl ⟨rfl, by omega, kept₃, (agrees.mono above).trans agrees₃⟩⟩
        · refine ⟨sp'', .inr ⟨rfl, by omega, kept₃, agrees.trans (agrees₃.mono (by omega)), ?_⟩⟩
          intro spot low high
          by_cases fst : spot = va
          · subst spot
            obtain ⟨ent, kept⟩ := agrees₃ va (by omega)
            rw [mapped.entry_eq, if_pos ⟨rfl, rfl⟩] at ent kept
            rw [ent]
            exact ⟨present_or _ _, (kept (present_or _ _)).trans (eq.trans (by simp))⟩
          · exact zeroes spot (by omega) high
      · have missed : 0 < (((Finset.Ico va (pages newsz)).image pdx).filter fun k => sp.table k = none).card := by
          refine Finset.card_pos.mpr ⟨pdx va, Finset.mem_filter.mpr ⟨Finset.mem_image_of_mem _ ?_, missing⟩⟩
          exact Finset.mem_Ico.mpr ⟨le_rfl, by omega⟩
        rw [if_neg (by simp)]
        refine (filled.holds_deallocuvm larger (by omega) whole).bind ?_
        rintro _ mem₂ ⟨_, sp', kept', agrees₂⟩
        refine kept'.holds_kfree.bind ?_
        rintro _ mem₃ ⟨kept₃, words₃⟩
        refine .pure ⟨sp', .inl ⟨rfl, ?_, kept₃,
          ((agrees₁.mono above).trans agrees₂).trans (kept'.agrees (by omega) words₃)⟩⟩
        rw [empty, List.length_nil] at sum₁
        rw [needed]
        omega

theorem Kept.holds_allocuvm (kept : Kept lay total extra base root (pages oldsz) mem sp)
    (top : oldsz < KERNBASE * PGSIZE ∨ oldsz ≤ newsz) :
    Holds (allocuvm lay root oldsz newsz) mem (Resized lay total extra base root oldsz) stops := by
  rw [allocuvm, holds_ite]
  constructor
  · intro _
    exact .pure ⟨sp, .inl ⟨rfl, kept⟩⟩
  · intro small
    rw [holds_ite]
    constructor
    · intro _
      exact .pure ⟨sp, .inr ⟨le_rfl, by omega, kept⟩⟩
    · intro grows
      have more : pages oldsz ≤ pages newsz := by
        simp only [pages, PGSIZE]
        omega
      refine (kept.holds_allocLoop (by omega) _ le_rfl (by omega)).conseq ?_
      rintro res mem' ⟨sp', ⟨rfl, _, kept', _⟩ | ⟨rfl, _, kept', _⟩⟩
      · exact ⟨sp', .inl ⟨rfl, kept'⟩⟩
      · exact ⟨sp', .inr ⟨by omega, by omega, kept'⟩⟩

end

end Xv6.Vm
