import Xv6.VmWorld

/-! `growproc` on a process whose user pages are those of its size: when it succeeds, what it does to
the pages and their contents, and that `fork` does not panic afterwards. -/

namespace Xv6.Vm

open Exec Exec.Prog Multiset Space
open PageTree (Tree)

/-- An address space in memory whose user pages are exactly those of the first `sz` bytes. -/
structure Filled (layout : Layout) (mem : Mem) (space : Space) (sz : Nat) : Prop where
  once : mem.refreed = false
  distinct : ((mem.freelist : Multiset Nat) + space.held).Nodup
  valid : ∀ page ∈ (mem.freelist : Multiset Nat) + space.held, layout.first ≤ page ∧ page < PHYSTOP
  maps : Maps mem space
  guarded : Guarded space
  size : sz < KERNBASE * PGSIZE
  exact : ∀ va < KERNBASE, (space.entry (pdx va) (ptx va)).present = true ↔ va < pages sz

structure Resizes (layout : Layout) (sz sz' : Nat) (mem : Mem) (space : Space) (mem' : Mem) (space' : Space) :
    Prop where
  root : space'.root = space.root
  filled : Filled layout mem' space' sz'
  agrees : Agrees (min (pages sz) (pages sz')) space mem space' mem'
  zero : ∀ va, pages sz ≤ va → va < pages sz' → mem'.word (space'.entry (pdx va) (ptx va)).frame = fun _ => .zero

/-- The size after `growproc(n)` is one that a process can have, and there is memory for it. -/
def Suffices (mem : Mem) (space : Space) (sz : Nat) (n : Int) : Prop :=
  0 ≤ sz + n ∧ sz + n < (KERNBASE * PGSIZE : Nat) ∧ needed space (pages sz) (pages (sz + n).toNat) ≤ mem.freelist.length

/-- The outcome of `growproc(n)` for a process: its new size, or -1 with all as it was, and after either
a `fork` that does not panic. -/
def Grown (layout : Layout) (sl : Slot) (n : Int) (world : World) (space : Space) (r : Int) (world' : World) : Prop :=
  ∃ space' sz', Resizes layout (world.proc sl).sz sz' world.mem space world'.mem space' ∧
    (r = 0 ∧ Suffices world.mem space (world.proc sl).sz n ∧ (sz' : Int) = (world.proc sl).sz + n ∧
        world'.proc = Function.update world.proc sl { world.proc sl with sz := sz' } ∨
      r = -1 ∧ ¬Suffices world.mem space (world.proc sl).sz n ∧ sz' = (world.proc sl).sz ∧
        world'.proc = world.proc) ∧ Holds (fork layout sl) world' (fun _ _ => True) fun _ => False

section

variable {lay : Layout} {mem mem' : Mem} {sp sp' : Space} {sz sz' : Nat}
  {total : Multiset Nat} {base : Nat → Fin 1024 → Entry} {w : World} {sl : Slot} {n : Int}

theorem Filled.kept (filled : Filled lay mem sp sz) :
    Kept lay (mem.freelist + sp.held) 0 mem.word sp.root (pages sz) mem sp := by
  refine ⟨rfl, ⟨filled.distinct, filled.valid, by rw [add_zero], fun _ _ => rfl, filled.once⟩, filled.maps,
    fun k i user has => ?_, filled.guarded⟩
  have low : address k i < KERNBASE := by
    have := i.isLt
    simp only [address, KERNBASE]
    omega
  have lt : address k i < TOP := by
    simp only [KERNBASE, TOP] at *
    omega
  obtain ⟨here, spot⟩ := address_inj (address_pdx lt)
  exact (filled.exact _ low).mp (by rw [here, spot]; exact has)

theorem Filled.resized (filled : Filled lay mem sp sz)
    (kept : Kept lay total 0 base sp.root (pages sz') mem' sp') (size : sz' < KERNBASE * PGSIZE)
    (agrees : Agrees (min (pages sz) (pages sz')) sp mem sp' mem')
    (new : ∀ va, pages sz ≤ va → va < pages sz' → (sp'.entry (pdx va) (ptx va)).present = true ∧
      mem'.word (sp'.entry (pdx va) (ptx va)).frame = fun _ => .zero) : Resizes lay sz sz' mem sp mem' sp' := by
  obtain ⟨root, stock, maps, bounded, guarded⟩ := kept
  rw [add_zero] at stock
  refine ⟨root, ⟨stock.once, by rw [stock.balance]; exact stock.distinct,
    by rw [stock.balance]; exact stock.valid, maps, guarded, size,
    fun va low => ⟨fun has => ?_, fun below => ?_⟩⟩, agrees, fun va low high => (new va low high).2⟩
  · by_contra above
    rw [(bounded.mono (Nat.not_lt.mp above)).absent low] at has
    cases has
  · by_cases old : va < pages sz
    · rw [(agrees va (lt_min old below)).1]
      exact (filled.exact va low).mpr old
    · exact (new va (Nat.not_lt.mp old) below).1

theorem Filled.holds_fork (filled : Filled lay w.mem sp (w.proc sl).sz) (root : sp.root = (w.proc sl).pgdir) :
    Holds (fork lay sl) w (fun _ _ => True) fun _ => False := by
  have stock := filled.kept.stock
  have top := pages_top filled.size
  rw [fork, holds_bind, holds_get]
  split
  · exact .pure trivial
  simp only [holds_bind, onMem, holds_zoom]
  refine stock.holds_kalloc.conseq ?_
  rintro res mem₁ (⟨rfl, rfl, _⟩ | ⟨kstack, rfl, words, stock₁⟩)
  · exact .pure trivial
  have range := stock₁.valid kstack (stock₁.mem_total (mem_cons_self _ _))
  rw [← zero_add (kstack ::ₘ (sp.held + 0))] at stock₁
  have original : ∀ mem : Mem, (∀ page, page ∉ (mem₁.freelist : Multiset Nat) + 0 →
      mem.word page = mem₁.word page) → Maps mem sp := by
    intro mem eq
    refine filled.maps.congr fun page node => ?_
    rw [eq page (stock₁.outer_apart ?_), words]
    exact mem_cons_of_mem (by rw [add_zero]; exact nodes_held node)
  simp only [holds_bind, holds_zoom]
  rw [← root]
  refine (stock₁.narrow.holds_copyuvm original top (.inl fun va below =>
    (filled.exact va (below.trans_le top)).mpr below)).conseq ?_
  rintro res mem₂ (⟨d, sp', rfl, _⟩ | ⟨rfl, _⟩)
  · simp only [setProc, holds_bind, holds_modify, holds_pure]
  · simp only [holds_bind, holds_zoom, holds_pure, kfree,
      if_neg (show ¬(kstack < lay.first ∨ PHYSTOP ≤ kstack) by omega), holds_modify]

theorem Resizes.fails (resizes : Resizes lay (w.proc sl).sz (w.proc sl).sz w.mem sp
      mem' sp') (root : sp.root = (w.proc sl).pgdir) (short : ¬Suffices w.mem sp (w.proc sl).sz n) :
    Grown lay sl n w sp (-1) { w with mem := mem' } :=
  ⟨sp', _, resizes, .inr ⟨rfl, short, rfl, rfl⟩, resizes.filled.holds_fork (resizes.root.trans root)⟩

theorem Resizes.succeeds (resizes : Resizes lay (w.proc sl).sz sz' w.mem sp mem' sp')
    (root : sp.root = (w.proc sl).pgdir) (size : (sz' : Int) = (w.proc sl).sz + n)
    (enough : needed sp (pages (w.proc sl).sz) (pages sz') ≤ w.mem.freelist.length) : Grown lay sl n w sp 0 { w with
      mem := mem', proc := Function.update w.proc sl { w.proc sl with sz := sz' } } := by
  have filled := resizes.filled
  refine ⟨sp', sz', resizes, .inl ⟨rfl, ⟨by omega, ?_, ?_⟩, size, rfl⟩,
    (show Filled lay mem' sp' _ by simpa using filled).holds_fork ?_⟩
  · have := filled.size
    omega
  · rwa [← size, Int.toNat_natCast]
  · simpa using resizes.root.trans root

/-- A process shrunk to nothing or below: the new size 0 is taken for a failure, a size below 0 for a larger
one, which changes nothing. -/
theorem Filled.holds_growproc_below (filled : Filled lay w.mem sp (w.proc sl).sz) (root : sp.root = (w.proc sl).pgdir)
    (least : -2 ^ 31 ≤ n) (some : 0 < (w.proc sl).sz) (below : (w.proc sl).sz + n ≤ 0) :
    Holds (growproc lay sl n) w (fun r _ => r = if (w.proc sl).sz + n = 0 then -1 else 0) fun _ => False := by
  have size := filled.size
  have limit : KERNBASE * PGSIZE = 2 ^ 31 := by decide
  rw [growproc, holds_bind, holds_get]
  dsimp only
  rw [if_neg (by omega), if_pos (by omega), holds_bind, onMem, holds_zoom]
  by_cases nothing : (w.proc sl).sz + n = 0
  · rw [nothing, ← root]
    refine (filled.kept.holds_deallocuvm (by simpa using some) le_rfl (pages_top size)).conseq ?_
    rintro r mem' ⟨rfl, _⟩
    simp
  · rw [deallocuvm, if_pos (by omega), holds_pure, if_neg (by omega), if_neg nothing]
    simp [setProc]

theorem needed_none {lo hi : Nat} (past : hi ≤ lo) : needed sp lo hi = 0 := by
  simp [needed, Finset.Ico_eq_empty_of_le past, Nat.sub_eq_zero_of_le past]

theorem Filled.holds_growproc (filled : Filled lay w.mem sp (w.proc sl).sz) (root : sp.root = (w.proc sl).pgdir)
    (least : -2 ^ 31 ≤ n) (int : n < 2 ^ 31) (above : n < 0 → 0 < (w.proc sl).sz + n ∨ (w.proc sl).sz = 0) :
    Holds (growproc lay sl n) w (Grown lay sl n w sp) fun _ => False := by
  have size := filled.size
  have kept := filled.kept
  have limit : KERNBASE * PGSIZE = 2 ^ 31 := by decide
  have same : Resizes lay (w.proc sl).sz (w.proc sl).sz w.mem sp w.mem sp :=
    filled.resized kept size (.refl _ _ _) fun va low high => absurd low (by omega)
  rw [growproc, holds_bind, holds_get]
  dsimp only
  rw [holds_ite]
  refine ⟨fun grows => ?_, fun stays => ?_⟩
  · obtain ⟨newsz, sum⟩ := Int.eq_ofNat_of_zero_le (show 0 ≤ ((w.proc sl).sz : Int) + n by omega)
    rw [sum, Int.emod_eq_of_lt (by omega) (by omega), Int.toNat_natCast, holds_bind, onMem, holds_zoom,
      allocuvm, holds_ite]
    refine ⟨fun high => ?_, fun low => ?_⟩
    · rw [holds_pure, if_pos rfl, holds_pure]
      refine same.fails root fun room => ?_
      have := room.2.1
      omega
    · rw [if_neg (by omega)]
      have more : pages (w.proc sl).sz ≤ pages newsz := by
        simp only [pages, PGSIZE]
        omega
      rw [← root]
      refine (kept.holds_allocLoop (by omega) _ le_rfl (by omega)).conseq ?_
      rintro r mem' ⟨sp', ⟨rfl, short, kept', agrees⟩ | ⟨rfl, enough, kept', agrees, zeroes⟩⟩
      · rw [if_pos rfl, holds_pure]
        refine (filled.resized kept' size (agrees.mono (by omega)) fun va low high =>
          absurd low (by omega)).fails root fun room => ?_
        have := room.2.2
        rw [sum, Int.toNat_natCast] at this
        omega
      · rw [if_neg (by omega), root, holds_bind, setProc, holds_modify, holds_pure]
        exact (filled.resized kept' (by omega) (agrees.mono (by omega)) zeroes).succeeds root sum.symm enough
  · rw [holds_ite]
    refine ⟨fun shrinks => ?_, fun _ => ?_⟩
    · rcases above shrinks with positive | empty
      swap
      · rw [holds_bind, onMem, holds_zoom, deallocuvm, if_pos (by omega), holds_pure, if_pos empty, holds_pure]
        exact same.fails root fun room => by have := room.1; omega
      obtain ⟨newsz, sum⟩ := Int.eq_ofNat_of_zero_le positive.le
      rw [sum, Int.emod_eq_of_lt (by omega) (by omega), Int.toNat_natCast, holds_bind, onMem, holds_zoom, ← root]
      have less : pages newsz ≤ pages (w.proc sl).sz := by
        simp only [pages, PGSIZE]
        omega
      refine (kept.holds_deallocuvm (by omega) le_rfl (pages_top size)).conseq ?_
      rintro r mem' ⟨rfl, sp', kept', agrees⟩
      rw [if_neg (by omega), root, holds_bind, setProc, holds_modify, holds_pure]
      exact (filled.resized kept' (by omega) (agrees.mono (by omega)) fun va low high =>
        absurd low (by omega)).succeeds root sum.symm (by rw [needed_none less]; exact Nat.zero_le _)
    · obtain rfl : n = 0 := by omega
      have done := same.succeeds root (n := 0) (by omega) (by rw [needed_none le_rfl]; exact Nat.zero_le _)
      rw [Function.update_eq_self] at done
      exact .pure done

end

/-- `growproc` gives a process the pages of its new size, new ones zero, if they can be had, and otherwise
fails and changes no user page, exactly unless a process of some size is shrunk to nothing or below. -/
theorem growproc_resizes (layout : Layout) (world : World) (sl : Slot) (space : Space) (n : Int)
    (filled : Filled layout world.mem space (world.proc sl).sz) (root : space.root = (world.proc sl).pgdir)
    (least : -2 ^ 31 ≤ n) (int : n < 2 ^ 31) :
    Holds (growproc layout sl n) world (Grown layout sl n world space) (fun _ => False) ↔
      (n < 0 → 0 < (world.proc sl).sz + n ∨ (world.proc sl).sz = 0) := by
  refine ⟨fun grown shrinks => ?_, filled.holds_growproc root least int⟩
  by_contra outside
  obtain ⟨below, some⟩ := not_or.mp outside
  obtain ⟨r, world', ran, value⟩ := (filled.holds_growproc_below root least
    (Nat.pos_of_ne_zero some) (Int.not_lt.mp below)).returns
  obtain ⟨_, _, _, ⟨zero, enough, _⟩ | ⟨failed, short, _⟩, _⟩ := grown.of_ok ran
  · have := enough.1
    rw [zero, if_pos (by omega)] at value
    cases value
  · rw [failed] at value
    split at value
    · rename_i nothing
      refine short ⟨nothing.ge, by rw [nothing]; decide, ?_⟩
      rw [nothing, needed_none (show pages (Int.toNat 0) ≤ _ from Nat.zero_le _)]
      exact Nat.zero_le _
    · cases value

theorem smallWorld_filled : Filled smallLayout (smallWorld [0x400]).mem smallSpace PGSIZE where
  once := rfl
  distinct := by
    rw [smallSpace_held]
    decide
  valid := by
    rw [smallSpace_held]
    decide
  maps := (smallWorld_resident (by decide)).maps
  guarded := by
    intro k i high
    have other : k ≠ 0 := by
      rintro rfl
      simp at high
    simp [smallSpace, other, Entry.user, Entry.zero]
  size := by decide
  exact := by
    intro va low
    have whole : address (pdx va) (ptx va) = va := address_pdx (by simp only [KERNBASE, TOP] at *; omega)
    constructor
    · intro has
      by_contra above
      have outside : ¬(pdx va = 0 ∧ ptx va = 0) := by
        rintro ⟨k, i⟩
        rw [k, i] at whole
        exact above (whole ▸ by decide)
      simp [smallSpace, outside, Entry.present, Entry.zero] at has
    · intro below
      obtain rfl : va = 0 := Nat.lt_one_iff.mp below
      decide

theorem growproc_resizes_page : Holds (growproc smallLayout 0 4096) (smallWorld [0x400])
      (Grown smallLayout 0 4096 (smallWorld [0x400]) smallSpace) fun _ => False :=
  (growproc_resizes smallLayout _ 0 smallSpace 4096 smallWorld_filled rfl (by decide) (by decide)).mpr (by decide)

/-- Shrunk to nothing, a process of one page loses it, though the call fails and its size stays; shrunk by
two pages it keeps its size, and the call succeeds. -/
theorem growproc_frees_and_fails : ∃ (layout : Layout) (world : World) (space : Space),
    Filled layout world.mem space (world.proc 0).sz ∧ space.root = (world.proc 0).pgdir ∧
    (world.proc 0).sz = 4096 ∧ (∃ world', growproc layout 0 (-4096) world = .ok (-1) world' ∧
      (world'.proc 0).sz = 4096 ∧ world'.mem.freelist = [0x302, 0x400] ∧ world'.mem.word 0x301 0 = .zero) ∧
    ∃ world', growproc layout 0 (-8192) world = .ok 0 world' ∧ (world'.proc 0).sz = 4096 := by
  have shrunk : (growproc smallLayout 0 (-4096) (smallWorld [0x400])).check (fun r world =>
      r = -1 ∧ (world.proc 0).sz = 4096 ∧ world.mem.freelist = [0x302, 0x400] ∧
        world.mem.word 0x301 0 = .zero) = true := by
    decide +kernel
  have wrapped : (growproc smallLayout 0 (-8192) (smallWorld [0x400])).check (fun r world =>
      r = 0 ∧ (world.proc 0).sz = 4096) = true := by
    decide +kernel
  refine ⟨smallLayout, smallWorld [0x400], smallSpace, smallWorld_filled, rfl, rfl, ?_, ?_⟩
  · obtain ⟨r, world, ran, checked⟩ := Outcome.of_check shrunk
    obtain ⟨rfl, rest⟩ := of_decide_eq_true checked
    exact ⟨world, ran, rest⟩
  · obtain ⟨r, world, ran, checked⟩ := Outcome.of_check wrapped
    obtain ⟨rfl, rest⟩ := of_decide_eq_true checked
    exact ⟨world, ran, rest⟩

end Xv6.Vm
