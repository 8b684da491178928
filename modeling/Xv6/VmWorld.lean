import Xv6.VmCopy
import Mathlib.Data.Fintype.BigOperators

/-! Every page is on the free list or has one owner: a page directory, a process for its kernel stack, or
a pipe. The calls that change address spaces keep this, also when they fail. -/

namespace Xv6.Vm

open Exec Exec.Prog PageTree Reach Multiset World Function

section

variable {lay : Layout} {total inner outer : Multiset Nat} {base : Nat → Fin 1024 → Entry} {mem : Mem}

section

variable (stock : Stock lay total base mem (inner + outer))

include stock

theorem Stock.narrow : Stock lay (mem.freelist + inner) mem.word mem inner where
  distinct := by
    have distinct := stock.distinct
    rw [← stock.balance, ← add_assoc] at distinct
    exact (nodup_add.mp distinct).1
  valid := by
    intro page member
    apply stock.valid
    rw [← stock.balance, ← add_assoc]
    exact mem_add.mpr (.inl member)
  balance := rfl
  frame := fun _ _ => rfl
  once := stock.once

theorem Stock.outer_apart {page : Nat} (out : page ∈ outer) : page ∉ (mem.freelist : Multiset Nat) + inner := by
  have nodup := stock.distinct
  rw [← stock.balance, ← add_assoc] at nodup
  intro low
  exact disjoint_left.mp (nodup_add.mp nodup).2.2 low out

theorem Stock.holds_part {α : Type} {prog : MemM α} {stops : Stop → Prop}
    (post : α → Mem → Multiset Nat → Prop) (run : Holds prog mem (fun res mem' => ∃ inner',
      Stock lay (mem.freelist + inner) mem.word mem' inner' ∧ post res mem' inner') stops) :
    Holds prog mem (fun res mem' => ∃ inner', Stock lay total base mem' (inner' + outer) ∧
      post res mem' inner' ∧ ∀ page ∈ outer, mem'.word page = mem.word page) stops := by
  refine run.conseq ?_
  rintro res mem' ⟨inner', part, done⟩
  refine ⟨inner', ?_, done, fun page out => part.frame page (stock.outer_apart out)⟩
  refine ⟨stock.distinct, stock.valid, ?_, ?_, part.once⟩
  · rw [← add_assoc, part.balance, add_assoc, stock.balance]
  · intro page out
    rw [← stock.frame page out]
    apply part.frame
    intro low
    apply out
    rw [← stock.balance, ← add_assoc]
    exact mem_add.mpr (.inl low)

end

end

abbrev Owner := Option Slot

def World.Live (world : World) : Owner → Prop
  | none => True
  | some sl => (world.proc sl).life ≠ .unused

def World.pgdir (world : World) : Owner → Nat
  | none => world.kpgdir
  | some sl => (world.proc sl).pgdir

def Proc.share (proc : Proc) (sp : Space) : Multiset Nat :=
  if proc.life = .unused then 0 else proc.kstack ::ₘ sp.held

def World.share (world : World) (spaces : Owner → Space) : Owner → Multiset Nat
  | none => (spaces none).held
  | some sl => (world.proc sl).share (spaces (some sl))

def World.held (world : World) (spaces : Owner → Space) : Multiset Nat :=
  ∑ owner, world.share spaces owner + (world.pipes : Multiset Nat)

def World.rest (world : World) (spaces : Owner → Space) (owner : Owner) : Multiset Nat :=
  ∑ other ∈ Finset.univ.erase owner, world.share spaces other + (world.pipes : Multiset Nat)

theorem World.held_eq (world : World) (spaces : Owner → Space) (owner : Owner) :
    world.held spaces = world.share spaces owner + world.rest spaces owner := by
  rw [held, World.rest, ← Finset.add_sum_erase _ _ (Finset.mem_univ owner), add_assoc]

structure Serves (mem : Mem) (pgdir : Nat) (sp : Space) : Prop where
  root : sp.root = pgdir
  maps : Maps mem sp
  guarded : Guarded sp

structure Suits (mem : Mem) (proc : Proc) (sp : Space) : Prop extends
    Serves mem proc.pgdir sp where
  bounded : Bounded sp (pages proc.sz)
  size : proc.sz < KERNBASE * PGSIZE

structure Fits (layout : Layout) (world : World) (spaces : Owner → Space) : Prop where
  stock : ∃ total base, Stock layout total base world.mem (world.held spaces)
  kernel : Serves world.mem world.kpgdir (spaces none)
  process : ∀ sl, (world.proc sl).life ≠ .unused → Suits world.mem (world.proc sl) (spaces (some sl))

section

variable {lay : Layout} {w : World} {spaces : Owner → Space} {mem mem' : Mem} {sp : Space}
  {page : Nat} {proc : Proc} {total all : Multiset Nat} {base : Nat → Fin 1024 → Entry}

theorem Serves.congr {pgdir : Nat} (serves : Serves mem pgdir sp)
    (eq : ∀ page ∈ sp.nodes, mem'.word page = mem.word page) : Serves mem' pgdir sp :=
  ⟨serves.root, serves.maps.congr eq, serves.guarded⟩

theorem Suits.congr (suits : Suits mem proc sp)
    (eq : ∀ page ∈ sp.nodes, mem'.word page = mem.word page) : Suits mem' proc sp :=
  ⟨suits.toServes.congr eq, suits.bounded, suits.size⟩

theorem nodes_held (node : page ∈ sp.nodes) : page ∈ sp.held := by
  rw [Space.held, Tree.pages_eq]
  exact mem_add.mpr (.inl node)

theorem World.held_share (owner : Owner) (live : w.Live owner) (low : page ∈ (spaces owner).held) :
    page ∈ w.share spaces owner := by
  cases owner with
  | none => exact low
  | some sl =>
    rw [share, Proc.share, if_neg live]
    exact mem_cons_of_mem low

theorem World.share_rest {owner o : Owner} (ne : o ≠ owner)
    (low : page ∈ w.share spaces o) : page ∈ w.rest spaces owner := by
  apply mem_add.mpr
  left
  rw [mem_sum]
  exact ⟨o, Finset.mem_erase.mpr ⟨ne, Finset.mem_univ o⟩, low⟩

theorem Fits.change (fits : Fits lay w spaces) (sl : Slot) (sp : Space) (lost : Multiset Nat)
    (stock : Stock lay total base mem all) (parts : all = proc.share sp + w.rest spaces (some sl) + lost)
    (eq : ∀ page ∈ w.rest spaces (some sl), mem.word page = w.mem.word page)
    (suits : proc.life ≠ .unused → Suits mem proc sp) :
    Fits lay { w with mem, proc := update w.proc sl proc } (update spaces (some sl) sp) := by
  generalize spaces' : update spaces (some sl) sp = others
  have same_share : ∀ o, o ≠ some sl →
      share { w with mem, proc := update w.proc sl proc } others o = w.share spaces o := by
    intro o ne
    cases o with
    | none => simp [share, ← spaces']
    | some o =>
      have apart : o ≠ sl := fun equal => ne (congrArg some equal)
      simp [share, ← spaces', apart]
  have rest : World.rest { w with mem, proc := update w.proc sl proc } others (some sl) = w.rest spaces (some sl) := by
    rw [World.rest, World.rest]
    congr 1
    apply Finset.sum_congr rfl
    intro o member
    exact same_share o (Finset.ne_of_mem_erase member)
  have own : share { w with mem, proc := update w.proc sl proc } others (some sl) = proc.share sp := by
    simp [share, ← spaces']
  constructor
  · rw [parts] at stock
    rw [held_eq _ _ (some sl), rest, own]
    exact ⟨_, _, stock.narrow⟩
  · rw [← spaces', update_of_ne (by simp)]
    apply fits.kernel.congr
    intro page node
    apply eq
    exact share_rest (by simp) (held_share none trivial (nodes_held node))
  · intro o live
    by_cases here : o = sl
    · subst o
      simp only [update_self, ← spaces'] at live ⊢
      exact suits live
    · have apart : some o ≠ some sl := by simpa using here
      simp only [update_of_ne here, ← spaces', update_of_ne apart] at live ⊢
      apply (fits.process o live).congr
      intro page node
      apply eq
      exact share_rest apart (held_share (some o) live (nodes_held node))

theorem Fits.keep (fits : Fits lay w spaces) (sl : Slot) (sp : Space) (lost : Multiset Nat)
    (stock : Stock lay total base mem all) (parts : all = (w.proc sl).share sp + w.rest spaces (some sl) + lost)
    (eq : ∀ page ∈ w.rest spaces (some sl), mem.word page = w.mem.word page)
    (suits : (w.proc sl).life ≠ .unused → Suits mem (w.proc sl) sp) :
    Fits lay { w with mem } (update spaces (some sl) sp) := by
  have kept := fits.change sl sp lost stock parts eq suits
  rwa [update_eq_self] at kept

end

section

variable {lay : Layout} {w : World} {spaces : Owner → Space} {total outer : Multiset Nat}
  {base : Nat → Fin 1024 → Entry} {mem : Mem} {stops : Stop → Prop}

variable {sp : Space} {proc : Proc} {sl : Slot} {page sz : Nat}

theorem Serves.holds_freevm {pgdir : Nat} (serves : Serves mem pgdir sp)
    (stock : Stock lay total base mem (sp.held + outer)) :
    Holds (freevm lay pgdir) mem (fun _ mem' => Stock lay total base mem' outer ∧
      ∀ page ∈ outer, mem'.word page = mem.word page) stops := by
  have part := stock.narrow
  rw [← add_zero (Space.held sp)] at part
  rw [← serves.root]
  refine (stock.holds_part (fun _ _ inner => inner = 0) ?_).conseq ?_
  · refine (part.holds_freevm serves.maps).conseq ?_
    intro _ mem' freed
    exact ⟨0, by rwa [add_zero] at freed, rfl⟩
  · rintro _ mem' ⟨_, stock', rfl, eq⟩
    exact ⟨by rwa [zero_add] at stock', eq⟩

theorem Stock.holds_kfree_part (stock : Stock lay total base mem (page ::ₘ outer)) :
    Holds (kfree lay page) mem (fun _ mem' => Stock lay total base mem' outer ∧
      ∀ o ∈ outer, mem'.word o = mem.word o) stops := by
  have fresh := (nodup_cons.mp stock.held_distinct).1
  refine stock.holds_kfree.conseq ?_
  rintro _ mem' ⟨words, stock'⟩
  refine ⟨stock', ?_⟩
  intro o out
  have ne : o ≠ page := by
    rintro rfl
    exact fresh out
  rw [words, update_of_ne ne]

def Made (layout : Layout) (total outer : Multiset Nat) (base : Nat → Fin 1024 → Entry)
    (pgdir sz : Nat) (mem : Mem) : Prop :=
  ∃ sp, Serves mem pgdir sp ∧ Bounded sp (pages sz) ∧ Stock layout total base mem (sp.held + outer)

theorem Stock.holds_exec_part (lax : ∀ reason, stops reason) (stock : Stock lay total base mem outer) (img : Image) :
    Holds (execImage lay img) mem (fun res mem' =>
      ((∃ root sz, res = some (root, sz) ∧ sz < KERNBASE * PGSIZE ∧ Made lay total outer base root sz mem') ∨
        (res = none ∧ ∃ lost, Stock lay total base mem' (lost + outer))) ∧
      ∀ page ∈ outer, mem'.word page = mem.word page) stops := by
  rw [← zero_add outer] at stock
  refine (stock.holds_part (fun res mem' inner =>
    (∃ root sz sp, res = some (root, sz) ∧ sz < KERNBASE * PGSIZE ∧ Serves mem' root sp ∧
      Bounded sp (pages sz) ∧ inner = sp.held) ∨ res = none) ?_).conseq ?_
  · refine (stock.narrow.holds_execImage lax img).conseq ?_
    rintro res mem' (⟨root, sz, sp, rfl, top, kept⟩ | ⟨rfl, lost, stock', _⟩)
    · refine ⟨sp.held, by simpa using kept.stock, .inl ⟨root, sz, sp, rfl, top, ?_⟩⟩
      exact ⟨⟨kept.root, kept.maps, kept.guarded⟩, kept.bounded, rfl⟩
    · exact ⟨lost, by simpa using stock', .inr rfl⟩
  · rintro res mem' ⟨inner, stock', made | rfl, eq⟩
    · obtain ⟨root, sz, sp, rfl, top, serves, bounded, rfl⟩ := made
      exact ⟨.inl ⟨root, sz, rfl, top, sp, serves, bounded, stock'⟩, eq⟩
    · exact ⟨.inr ⟨rfl, inner, stock'⟩, eq⟩

theorem Stock.holds_copy_part (lax : ∀ reason, stops reason) (stock : Stock lay total base mem outer)
    {up : Space} (maps : Maps mem up) (low : ∀ page ∈ up.nodes, page ∈ outer)
    (top : pages sz ≤ KERNBASE) : Holds (copyuvm lay up.root sz) mem (fun res mem' =>
      ((∃ root, res = some root ∧ Made lay total outer base root sz mem') ∨
        (res = none ∧ ∃ lost, Stock lay total base mem' (lost + outer))) ∧
      ∀ page ∈ outer, mem'.word page = mem.word page) stops := by
  rw [← zero_add outer] at stock
  have original : ∀ mem' : Mem, (∀ page, page ∉ (mem.freelist : Multiset Nat) + 0 →
      mem'.word page = mem.word page) → Maps mem' up := by
    intro mem' eq
    apply maps.congr
    intro page node
    exact eq page (stock.outer_apart (low page node))
  refine (stock.holds_part (fun res mem' inner =>
    (∃ root sp, res = some root ∧ Serves mem' root sp ∧ Bounded sp (pages sz) ∧
      inner = sp.held) ∨ res = none) ?_).conseq ?_
  · refine (stock.narrow.holds_copyuvm original top (.inr lax)).conseq ?_
    rintro res mem' (⟨root, sp, rfl, kept, _⟩ | ⟨rfl, ⟨lost, stock', _⟩, _⟩)
    · refine ⟨sp.held, by simpa using kept.stock, .inl ⟨root, sp, rfl, ?_⟩⟩
      exact ⟨⟨kept.root, kept.maps, kept.guarded⟩, kept.bounded, rfl⟩
    · exact ⟨lost, by simpa using stock', .inr rfl⟩
  · rintro res mem' ⟨inner, stock', made | rfl, eq⟩
    · obtain ⟨root, sp, rfl, serves, bounded, rfl⟩ := made
      exact ⟨.inl ⟨root, rfl, sp, serves, bounded, stock'⟩, eq⟩
    · exact ⟨.inr ⟨rfl, inner, stock'⟩, eq⟩

theorem pages_top (size : sz < KERNBASE * PGSIZE) : pages sz ≤ KERNBASE := by
  simp only [pages, KERNBASE, PGSIZE] at *
  omega

theorem Proc.share_unused (unused : proc.life = .unused) (sp : Space) : proc.share sp = 0 := if_pos unused

theorem Proc.share_live (live : proc.life ≠ .unused) (sp : Space) :
    proc.share sp = proc.kstack ::ₘ sp.held := if_neg live

section

variable (fits : Fits lay w spaces)

include fits

theorem Fits.holds_fork (used : (w.proc sl).life = .used) :
    Holds (fork lay sl) w fun _ w' => ∃ spaces', Fits lay w' spaces' := by
  obtain ⟨total, base, stock⟩ := fits.stock
  have live : (w.proc sl).life ≠ .unused := by simp [used]
  have suits := fits.process sl live
  rw [fork, holds_bind, holds_get]
  cases hit : (List.finRange NPROC).find? fun np => (w.proc np).life = .unused with
  | none => exact .pure ⟨spaces, fits⟩
  | some np =>
    have unused : (w.proc np).life = .unused := by simpa using List.find?_some hit
    have ne : some sl ≠ some np := by
      rintro ⟨⟩
      rw [used] at unused
      contradiction
    rw [held_eq _ _ (some np), share, Proc.share_unused unused, zero_add] at stock
    simp only [holds_bind, onMem, holds_zoom]
    refine stock.holds_kalloc.conseq ?_
    rintro res mem₁ (⟨rfl, rfl, _⟩ | ⟨kstack, rfl, words, stock₁⟩)
    · exact .pure ⟨spaces, fits⟩
    · simp only [holds_bind, holds_zoom]
      have maps₁ : Maps mem₁ (spaces (some sl)) := suits.maps.congr fun page _ => by rw [words]
      have low : ∀ page ∈ (spaces (some sl)).nodes, page ∈ kstack ::ₘ w.rest spaces (some np) := by
        intro page node
        exact mem_cons_of_mem (share_rest ne (held_share (some sl) live (nodes_held node)))
      rw [← suits.root]
      refine (stock₁.holds_copy_part (fun _ => trivial) maps₁ low (pages_top suits.size)).conseq ?_
      rintro res mem₂ ⟨⟨root, rfl, sp, serves, bounded, stock₂⟩ | ⟨rfl, lost, stock₂⟩, eq⟩
      · simp only [holds_bind, setProc, holds_modify, holds_pure]
        refine ⟨_, fits.change np sp 0 stock₂ ?_ ?_ ?_⟩
        · rw [Proc.share_live (by simp), add_zero, cons_add, add_cons]
        · intro page out
          rw [eq page (mem_cons_of_mem out), words]
        · exact fun _ => ⟨serves, bounded, suits.size⟩
      · simp only [holds_bind, holds_zoom, holds_pure]
        rw [add_cons] at stock₂
        refine stock₂.holds_kfree_part.conseq ?_
        rintro _ mem₃ ⟨stock₃, eq'⟩
        refine ⟨_, fits.keep np (spaces (some np)) lost stock₃ ?_ ?_ ?_⟩
        · rw [Proc.share_unused unused, zero_add, add_comm]
        · intro page out
          rw [eq' page (mem_add.mpr (.inr out)), eq page (mem_cons_of_mem out), words]
        · exact fun impossible => absurd unused impossible

theorem Fits.stock_live (live : (w.proc sl).life ≠ .unused) :
    ∃ total base, Stock lay total base w.mem ((spaces (some sl)).held +
      ((w.proc sl).kstack ::ₘ w.rest spaces (some sl))) := by
  obtain ⟨total, base, stock⟩ := fits.stock
  rw [held_eq _ _ (some sl), share, Proc.share_live live, cons_add] at stock
  exact ⟨total, base, by rwa [add_cons]⟩

section

variable (lost : Multiset Nat) (stock : Stock lay total base mem
    (lost + (sp.held + ((w.proc sl).kstack ::ₘ w.rest spaces (some sl)))))
  (eq : ∀ page ∈ (w.proc sl).kstack ::ₘ w.rest spaces (some sl), mem.word page = w.mem.word page)

include stock eq

theorem Fits.settle (live : proc.life ≠ .unused) (stack : proc.kstack = (w.proc sl).kstack)
    (suits : Suits mem proc sp) :
    Fits lay { w with mem, proc := update w.proc sl proc } (update spaces (some sl) sp) := by
  refine fits.change sl sp lost stock ?_ ?_ fun _ => suits
  · rw [Proc.share_live live, stack, cons_add, ← add_cons, add_comm]
  · intro page out
    exact eq page (mem_cons_of_mem out)

theorem Fits.settle_same (live : (w.proc sl).life ≠ .unused) (suits : Suits mem (w.proc sl) sp) :
    Fits lay { w with mem } (update spaces (some sl) sp) := by
  have settled := fits.settle lost stock eq live rfl suits
  rwa [update_eq_self] at settled

end

theorem Fits.holds_exec (used : (w.proc sl).life = .used) (img : Image) :
    Holds (exec lay sl img) w fun _ w' => ∃ spaces', Fits lay w' spaces' := by
  have live : (w.proc sl).life ≠ .unused := by simp [used]
  have suits := fits.process sl live
  obtain ⟨total, base, stock⟩ := fits.stock_live live
  rw [exec, onMem, holds_bind, holds_zoom]
  refine (stock.holds_exec_part (fun _ => trivial) img).conseq ?_
  rintro res mem₁ ⟨⟨root, sz, rfl, top, sp, serves, bounded, stock₁⟩ | ⟨rfl, lost, stock₁⟩, eq⟩
  · simp only [holds_bind, holds_get, setProc, holds_modify, onMem, holds_zoom, holds_pure]
    have old : Serves mem₁ (w.proc sl).pgdir (spaces (some sl)) := by
      apply suits.toServes.congr
      intro page node
      exact eq page (mem_add.mpr (.inl (nodes_held node)))
    rw [add_left_comm] at stock₁
    refine (old.holds_freevm stock₁).conseq ?_
    rintro _ mem₂ ⟨stock₂, eq'⟩
    rw [← zero_add (sp.held + _)] at stock₂
    refine ⟨_, fits.settle 0 stock₂ ?_ live rfl ⟨serves.congr ?_, bounded, top⟩⟩
    · intro page out
      rw [eq' page (mem_add.mpr (.inr out)), eq page (mem_add.mpr (.inr out))]
    · intro page node
      exact eq' page (mem_add.mpr (.inl (nodes_held node)))
  · refine .pure ⟨_, fits.settle_same lost stock₁ ?_ live (suits.congr ?_)⟩
    · intro page out
      exact eq page (mem_add.mpr (.inr out))
    · intro page node
      exact eq page (mem_add.mpr (.inl (nodes_held node)))

end

theorem Suits.kept (suits : Suits mem proc sp) (stock : Stock lay total base mem (sp.held + outer)) :
    Kept lay (mem.freelist + sp.held) 0 mem.word proc.pgdir (pages proc.sz) mem sp where
  root := suits.root
  stock := by simpa using stock.narrow
  maps := suits.maps
  bounded := suits.bounded
  guarded := suits.guarded

theorem Kept.suits {extra : Multiset Nat} {root lt : Nat}
    (kept : Kept lay total extra base root lt mem sp) (dir : root = proc.pgdir)
    (under : lt ≤ pages proc.sz) (size : proc.sz < KERNBASE * PGSIZE) : Suits mem proc sp :=
  ⟨⟨kept.root.trans dir, kept.maps, kept.guarded⟩, kept.bounded.mono under, size⟩

section

variable (fits : Fits lay w spaces)

include fits

section

variable (used : (w.proc sl).life = .used)

include used

theorem Fits.holds_resize {resize : MemM Nat} (resized : Holds resize w.mem fun sz mem => ∃ sp, ∃ bound,
      Kept lay (w.mem.freelist + (spaces (some sl)).held) 0 w.mem.word
        (w.proc sl).pgdir bound mem sp ∧ ((sz = 0 ∧ bound ≤ pages (w.proc sl).sz) ∨
        (sz ≠ 0 ∧ sz < KERNBASE * PGSIZE ∧ bound ≤ pages sz))) : Holds (do
      let sz ← onMem resize
      if sz = 0 then pure (-1 : Int)
      else
        setProc sl { w.proc sl with sz }
        pure 0) w fun _ w' => ∃ spaces', Fits lay w' spaces' := by
  have live : (w.proc sl).life ≠ .unused := by simp [used]
  have suits := fits.process sl live
  obtain ⟨total, base, stock⟩ := fits.stock_live live
  rw [onMem, holds_bind, holds_zoom]
  refine (stock.holds_part (fun sz mem inner => ∃ sp, inner = sp.held ∧
    ((sz = 0 ∧ Suits mem (w.proc sl) sp) ∨ (sz ≠ 0 ∧ Suits mem { w.proc sl with sz } sp))) ?_).conseq ?_
  · refine resized.conseq ?_
    rintro sz mem ⟨sp, bound, kept, ⟨rfl, under⟩ | ⟨pos, top, under⟩⟩
    · exact ⟨sp.held, by simpa using kept.stock, sp, rfl, .inl ⟨rfl, kept.suits rfl under suits.size⟩⟩
    · have suits' : Suits mem { w.proc sl with sz } sp := kept.suits rfl under top
      exact ⟨sp.held, by simpa using kept.stock, sp, rfl, .inr ⟨pos, suits'⟩⟩
  · rintro sz mem ⟨_, stock', ⟨sp, rfl, ⟨rfl, suits'⟩ | ⟨pos, suits'⟩⟩, eq⟩
    · rw [← zero_add (sp.held + _)] at stock'
      exact .pure ⟨_, fits.settle_same 0 stock' eq live suits'⟩
    · rw [← zero_add (sp.held + _)] at stock'
      simp only [pos, ↓reduceIte, setProc, holds_bind, holds_modify, holds_pure]
      exact ⟨_, fits.settle 0 stock' eq live rfl suits'⟩

theorem Fits.holds_growproc (n : Int) : Holds (growproc lay sl n) w fun _ w' => ∃ spaces', Fits lay w' spaces' := by
  have live : (w.proc sl).life ≠ .unused := by simp [used]
  have suits := fits.process sl live
  obtain ⟨total, base, stock⟩ := fits.stock_live live
  have kept := suits.kept stock
  rw [growproc, holds_bind, holds_get]
  dsimp only
  generalize (((w.proc sl).sz + n) % 2 ^ 32).toNat = newsz
  rw [holds_ite]
  constructor
  · intro _
    apply fits.holds_resize used
    refine (kept.holds_allocuvm (.inl suits.size)).conseq ?_
    rintro sz mem ⟨sp, ⟨rfl, kept'⟩ | ⟨grown, top, kept'⟩⟩
    · exact ⟨sp, _, kept', .inl ⟨rfl, le_rfl⟩⟩
    · by_cases empty : sz = 0
      · subst empty
        have eq : (w.proc sl).sz = 0 := by omega
        exact ⟨sp, _, kept', .inl ⟨rfl, by rw [eq]⟩⟩
      · exact ⟨sp, _, kept', .inr ⟨empty, top, le_rfl⟩⟩
  · intro _
    rw [holds_ite]
    refine ⟨fun _ => ?_, fun _ => .pure ⟨spaces, fits⟩⟩
    apply fits.holds_resize used
    by_cases shrinks : newsz < (w.proc sl).sz
    · refine (kept.holds_deallocuvm shrinks le_rfl (pages_top suits.size)).conseq ?_
      rintro sz mem ⟨rfl, sp, kept', _⟩
      by_cases empty : sz = 0
      · subst empty
        exact ⟨sp, _, kept', .inl ⟨rfl, by simp [pages, PGSIZE]⟩⟩
      · exact ⟨sp, _, kept', .inr ⟨empty, by have := suits.size; omega, le_rfl⟩⟩
    · rw [deallocuvm, if_pos (by omega)]
      refine .pure ⟨_, _, kept, ?_⟩
      by_cases empty : (w.proc sl).sz = 0
      · exact .inl ⟨empty, le_rfl⟩
      · exact .inr ⟨empty, suits.size, le_rfl⟩

theorem Fits.holds_exit : Holds (exit sl) w fun _ w' => ∃ spaces', Fits lay w' spaces' := by
  have live : (w.proc sl).life ≠ .unused := by simp [used]
  obtain ⟨total, base, stock⟩ := fits.stock_live live
  rw [← zero_add (Space.held _ + _)] at stock
  simp only [exit, holds_bind, holds_get, setProc, holds_modify, holds_pure]
  obtain ⟨serves, bounded, size⟩ := fits.process sl live
  have suits : Suits w.mem { w.proc sl with life := .zombie } (spaces (some sl)) :=
    ⟨serves, bounded, size⟩
  exact ⟨_, fits.settle 0 stock (fun _ _ => rfl) (by simp) rfl suits⟩

end

theorem Fits.holds_wait {c : Slot} (zombie : (w.proc c).life = .zombie) :
    Holds (wait lay c) w fun _ w' => ∃ spaces', Fits lay w' spaces' := by
  have live : (w.proc c).life ≠ .unused := by simp [zombie]
  have suits := fits.process c live
  obtain ⟨total, base, stock⟩ := fits.stock_live live
  rw [add_cons] at stock
  simp only [wait, holds_bind, holds_get, onMem, holds_zoom, setProc, holds_modify, holds_pure]
  refine stock.holds_kfree_part.conseq ?_
  rintro _ mem₁ ⟨stock₁, eq⟩
  have serves : Serves mem₁ (w.proc c).pgdir (spaces (some c)) := by
    apply suits.toServes.congr
    intro page node
    exact eq page (mem_add.mpr (.inl (nodes_held node)))
  refine (serves.holds_freevm stock₁).conseq ?_
  rintro _ mem₂ ⟨stock₂, eq'⟩
  refine ⟨_, fits.change c (spaces (some c)) 0 stock₂ ?_ ?_ ?_⟩
  · rw [Proc.share_unused rfl, zero_add, add_zero]
  · intro page out
    rw [eq' page out, eq page (mem_add.mpr (.inr out))]
  · intro impossible
    exact absurd rfl impossible

theorem Fits.repipe {pipes : List Nat} (stock : Stock lay total base mem
      (∑ owner, w.share spaces owner + (pipes : Multiset Nat)))
    (eq : ∀ owner, ∀ page ∈ w.share spaces owner, mem.word page = w.mem.word page) :
    Fits lay { w with mem, pipes } spaces where
  stock := by
    have shares : ∀ owner, share { w with mem, pipes } spaces owner = w.share spaces owner := by
      intro owner
      cases owner <;> rfl
    rw [held]
    simp only [shares]
    exact ⟨total, base, stock⟩
  kernel := by
    apply fits.kernel.congr
    intro page node
    exact eq none page (nodes_held node)
  process := by
    intro sl live
    apply (fits.process sl live).congr
    intro page node
    exact eq (some sl) page (held_share (some sl) live (nodes_held node))

theorem Fits.holds_pipealloc : Holds pipealloc w fun _ w' => ∃ spaces', Fits lay w' spaces' := by
  obtain ⟨total, base, stock⟩ := fits.stock
  rw [pipealloc, onMem, holds_bind, holds_zoom]
  refine stock.holds_kalloc.conseq ?_
  rintro res mem (⟨rfl, rfl, _⟩ | ⟨page, rfl, words, ran⟩)
  · exact .pure ⟨spaces, fits⟩
  · simp only [holds_bind, holds_modify, holds_pure]
    rw [held, ← add_cons, cons_coe] at ran
    exact ⟨spaces, fits.repipe ran fun _ _ _ => by rw [words]⟩

theorem Fits.holds_pipefree (there : page ∈ w.pipes) :
    Holds (pipefree lay page) w fun _ w' => ∃ spaces', Fits lay w' spaces' := by
  obtain ⟨total, base, stock⟩ := fits.stock
  have pipes : (w.pipes : Multiset Nat) = page ::ₘ (w.pipes.erase page : List Nat) := by
    rw [cons_coe, coe_eq_coe]
    exact List.perm_cons_erase there
  rw [held, pipes, add_cons] at stock
  simp only [pipefree, holds_bind, onMem, holds_zoom, holds_modify, holds_pure]
  refine stock.holds_kfree_part.conseq ?_
  rintro _ mem ⟨stock', eq⟩
  refine ⟨spaces, fits.repipe stock' ?_⟩
  intro owner o low
  apply eq
  exact mem_add.mpr (.inl (mem_of_le (share_le _ owner) low))

theorem Fits.next {call : Call} (made : call.Made w) {w' : World}
    (next : Next lay w call w') : ∃ spaces', Fits lay w' spaces' := by
  cases call with
  | fork sl => exact (fits.holds_fork made).final next
  | exec sl img => exact (fits.holds_exec made img).final next
  | growproc sl n => exact (fits.holds_growproc made n).final next
  | exit sl => exact (fits.holds_exit made).final next
  | wait c => exact (fits.holds_wait made).final next
  | pipealloc => exact fits.holds_pipealloc.final next
  | pipefree page => exact (fits.holds_pipefree made).final next

end

end

end Xv6.Vm
