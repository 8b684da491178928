import Xv6.VmUser

/-! `copyuvm` and `exec` when memory runs out. Both give back what they took, unless `setupkvm` fails
half way or `copyuvm` has no page for a page table. -/

namespace Xv6.Vm

open Exec Exec.Prog PageTree Function Multiset Tree Option World

variable {sp' up fresh sp : Space} {va sz : Nat} {ent : Entry} {mem mem' : Mem} {kept : Prop} {lay : Layout}

/-- The pages of a copy of `count` pages: what `setupkvm` takes, the pages and their page tables. -/
def demand (count : Nat) : Nat := 65 + count + (count + 1023) / 1024

structure Copied (va : Nat) (sp : Space) : Prop where
  tables : ∀ place : Fin 1024, place.val < 512 → ((sp.table place).isSome = true ↔ place.val * 1024 < va)
  card : sp.held.card = demand va

variable {sp : Space}

theorem Fresh.bounded (fresh : Fresh sp) : Bounded sp 0 := by
  intro k i user has
  rw [fresh.below k i user] at has
  contradiction

theorem Fresh.copied (fresh : Fresh sp) : Copied 0 sp where
  tables := by
    intro k user
    rw [fresh.tables]
    omega
  card := fresh.card

theorem Copied.mapped   (copied : Copied va sp)
    (mapped : Mapped sp sp' va ent) (user : va < KERNBASE) (has : ent.present = true) : Copied (va + 1) sp' := by
  have whole : va < TOP := by
    simp only [KERNBASE, TOP] at *
    omega
  have k : (pdx va).val = va / 1024 := pdx_val whole
  constructor
  · intro spot low
    rw [mapped.table, copied.tables spot low, Fin.ext_iff, k]
    omega
  · have there := copied.tables (pdx va) (user_place user)
    rw [k] at there
    rw [mapped.card, copied.card, owned_user (user_place user) has, card_singleton, demand, demand]
    by_cases fst : va % 1024 = 0
    · rw [if_neg (by rw [there]; omega)]
      omega
    · rw [if_pos (by rw [there]; omega)]
      omega

section

variable {lay : Layout} {total extra : Multiset Nat} {base : Nat → Fin 1024 → Entry} {stops : Stop → Prop}

/-- The pages that `setupkvm` needs are there, or there are none that it could keep. -/
def Enough (free : Nat) : Prop := free = 0 ∨ 65 ≤ free

/-- A copy of `count` pages does not run out of memory right after it took the page that needs
a new page table. -/
def Spared (free count : Nat) : Prop := (free - 65) % 1025 = 1 → count ≤ (free - 65) / 1025 * 1024

theorem lt_demand {free count : Nat} (wasted : ¬(Enough free ∧ Spared free count)) : free < demand count := by
  rw [demand]
  by_contra plenty
  refine wasted ⟨.inr (by omega), fun odd => ?_⟩
  omega

def Lost (layout : Layout) (total extra : Multiset Nat) (base : Nat → Fin 1024 → Entry)
    (kept : Prop) (mem : Mem) : Prop :=
  ∃ lost, Stock layout total base mem (lost + extra) ∧ (kept ↔ lost = 0)

structure Copies (parent : Space) (total : Multiset Nat) (base : Nat → Fin 1024 → Entry) (stop : Nat)
    (fresh sp : Space) (mem : Mem) : Prop where
  kernel : ∀ place, 512 ≤ place.val → sp.entry place = fresh.entry place
  flags : ∀ va < stop, (sp.entry (pdx va) (ptx va)).flags = (parent.entry (pdx va) (ptx va)).flags
  words : ∀ va < stop, (parent.entry (pdx va) (ptx va)).frame ∉ total →
    mem.word (sp.entry (pdx va) (ptx va)).frame = base (parent.entry (pdx va) (ptx va)).frame

theorem Entry.or_present (has : ent.present = true) : ent.flags ||| PTE_P = ent.flags := by
  have all : ∀ flags : BitVec 12, (flags &&& PTE_P != 0) = true → flags ||| PTE_P = flags := by decide +kernel
  exact all ent.flags has

theorem Copies.mapped (copies : Copies up total base va fresh sp mem) (mapped : Mapped sp sp' va ent)
    (agrees : Agrees va sp mem sp' mem') (user : va < KERNBASE)
    (has : ∀ spot < va, (sp.entry (pdx spot) (ptx spot)).present = true)
    (flags : ent.flags = (up.entry (pdx va) (ptx va)).flags) (words : (up.entry (pdx va) (ptx va)).frame ∉ total →
      mem'.word ent.frame = base (up.entry (pdx va) (ptx va)).frame) :
    Copies up total base (va + 1) fresh sp' mem' where
  kernel := by
    intro k high
    rw [← copies.kernel k high, mapped.entries, update_of_ne]
    rintro rfl
    have := user_place user
    omega
  flags := by
    intro spot below
    rcases Nat.lt_succ_iff_lt_or_eq.mp below with old | rfl
    · rw [(agrees spot old).1, copies.flags spot old]
    · rw [mapped.entry_eq, if_pos ⟨rfl, rfl⟩, flags]
  words := by
    intro spot below outside
    rcases Nat.lt_succ_iff_lt_or_eq.mp below with old | rfl
    · rw [(agrees spot old).1, (agrees spot old).2 (has spot old), copies.words spot old outside]
    · rw [mapped.entry_eq, if_pos ⟨rfl, rfl⟩, words outside]

variable {mem : Mem}

theorem Stock.lost (stock : Stock lay total base mem extra) (fine : kept) : Lost lay total extra base kept mem :=
  ⟨0, by rwa [zero_add], fun _ => rfl, fun _ => fine⟩

theorem Short.lost (short : Short lay total extra base mem)
    (enough : kept ↔ Enough (total.card - extra.card)) : Lost lay total extra base kept mem := by
  obtain ⟨few, lost, stock, nothing⟩ := short
  refine ⟨lost, stock, fun fine => ?_, fun none => enough.mpr (.inl (by rw [nothing none, Nat.sub_self]))⟩
  have sum := stock.card
  rw [card_add] at sum
  rw [← card_eq_zero]
  rcases enough.mp fine with none_ | many <;> omega

theorem Kept.holds_copyLoop (original : ∀ mem : Mem,
      (∀ page, page ∉ total → mem.word page = base page) → Maps mem up) {stop : Nat}
    (top : stop ≤ KERNBASE) (has : (∀ va < stop, (up.entry (pdx va) (ptx va)).present = true) ∨
      ∀ why, stops why) {d : Nat} (n : Nat) (kept : Kept lay total 0 base d va mem sp) (copied : Copied va sp)
    (copies : Copies up total base va fresh sp mem)
    (mapped : ∀ spot < va, (up.entry (pdx spot) (ptx spot)).present = true) (rest : va + n = stop) :
    Holds (copyLoop lay up.root d n va) mem (fun res mem' =>
      (res = some d ∧ ∃ sp', Kept lay total 0 base d stop mem' sp' ∧
        Copies up total base stop fresh sp' mem' ∧ demand stop ≤ total.card) ∨
      (res = none ∧ Lost lay total 0 base (Spared total.card stop) mem' ∧ total.card < demand stop)) stops := by
  induction n generalizing mem sp va with
  | zero =>
    rw [add_zero] at rest
    subst rest
    rw [copyLoop]
    have sum := kept.stock.card
    rw [card_add, copied.card] at sum
    exact .pure (.inl ⟨rfl, sp, kept, copies, by omega⟩)
  | succ n ih =>
    have maps := original mem kept.stock.frame
    have user : va < KERNBASE := by omega
    rw [copyLoop]
    refine (maps.holds_walk va).bind ?_
    rintro res mem' ⟨rfl, rfl⟩
    cases here : up.table (pdx va) with
    | none =>
      -- The parent has no page table here, so the page is not present.
      refine holds_halt.mpr (has.resolve_left ?_ _)
      intro all
      have impossible := all va (by omega)
      rw [maps.blank _ here] at impossible
      contradiction
    | some tab =>
      dsimp only [map_some]
      rw [holds_bind, holds_get, maps.entry _ tab here, holds_ite]
      refine ⟨fun here => ?_, fun absent => ?_⟩
      · refine kept.holds_kalloc.bind ?_
        rintro res mem₁ (⟨rfl, rfl, empty⟩ | ⟨page, rfl, taken, kept₁⟩)
        · -- All pages are in the copy, which was not about to start a table.
          have sum := kept.stock.card
          rw [empty, List.length_nil, card_add, copied.card, card_zero, demand] at sum
          refine kept.holds_freevm.bind ?_
          intro _ mem₂ stock
          exact .pure (.inr ⟨rfl, stock.lost (fun odd => by omega), by rw [demand]; omega⟩)
        · rw [holds_bind, holds_modify, holds_bind]
          have filled := kept₁.write (mem₁.word (up.entry (pdx va) (ptx va)).frame)
          refine (filled.holds_mapUser user).conseq ?_
          rintro res mem₂ (⟨rfl, sp', kept₂, mapped', agrees, eq⟩ | ⟨rfl, rfl, empty, missing⟩)
          · refine ih kept₂ (copied.mapped mapped' user (present_or _ _)) (copies.mapped mapped'
              (.trans (kept₁.agrees user.le fun o apart => ?_) agrees) user (fun spot old => ?_) ?_
              fun outside => ?_) (fun spot below => ?_) (by omega)
            · rw [← taken]
              exact update_of_ne apart _ _
            · rw [Entry.present, copies.flags spot old]
              exact mapped spot old
            · exact Entry.or_present here
            · rw [eq, ← kept₁.stock.frame _ outside]
              exact update_self _ _ _
            · rcases Nat.lt_succ_iff_lt_or_eq.mp below with old | rfl
              · exact mapped spot old
              · exact here
          · rw [if_neg (by simp)]
            refine filled.holds_freevm.bind ?_
            intro _ mem₂ stock
            -- The page is lost: all others were in the copy, which had to start a table.
            have sum := filled.stock.card
            have fst := (copied.tables (pdx va) (user_place user)).not
            rw [missing, pdx_val (by simp only [KERNBASE, TOP] at *; omega)] at fst
            simp only [isSome_none, Bool.false_eq_true, not_false_eq_true, not_lt, true_iff] at fst
            rw [empty, List.length_nil, card_add, copied.card, card_cons, card_zero, demand] at sum
            refine .pure (.inr ⟨rfl, ⟨{page}, stock, fun spared => ?_, fun none => ?_⟩, by rw [demand]; omega⟩)
            · have lt := spared (by omega)
              omega
            · exact absurd none (singleton_ne_zero page)
      · refine holds_halt.mpr (has.resolve_left ?_ _)
        intro all
        exact absent (all va (by omega))

theorem Stock.holds_copyuvm  (stock : Stock lay total base mem 0) (original : ∀ mem : Mem,
      (∀ page, page ∉ total → mem.word page = base page) → Maps mem up) (top : pages sz ≤ KERNBASE)
    (has : (∀ va < pages sz, (up.entry (pdx va) (ptx va)).present = true) ∨
      ∀ why, stops why) : Holds (copyuvm lay up.root sz) mem (fun res mem' =>
      (∃ d sp, res = some d ∧ Kept lay total 0 base d (pages sz) mem' sp ∧
        ∃ fresh mem₁, setupkvm lay mem = .ok (some d) mem₁ ∧ fresh.root = d ∧ Maps mem₁ fresh ∧
          Copies up total base (pages sz) fresh sp mem' ∧ demand (pages sz) ≤ total.card) ∨
      (res = none ∧ Lost lay total 0 base (Enough total.card ∧ Spared total.card (pages sz)) mem' ∧
        total.card < demand (pages sz))) stops := by
  rw [copyuvm, holds_bind]
  have setup : Holds (setupkvm lay) mem _ stops := stock.holds_setupkvm
  refine .of_outcome (fun res mem₁ ran => ?_) fun why ran => setup.of_stop ran
  rcases setup.of_ok ran with ⟨sp, rfl, fresh, stock₁, maps₁⟩ | ⟨rfl, short⟩
  · have kept : Kept lay total 0 base sp.root 0 mem₁ sp :=
      ⟨rfl, stock₁, maps₁, fresh.bounded, fresh.guard⟩
    have none : Copies up total base 0 sp sp mem₁ :=
      ⟨fun _ _ => rfl, fun _ impossible => by omega, fun _ impossible => by omega⟩
    refine (kept.holds_copyLoop original top has (pages sz) fresh.copied none (fun _ impossible => by omega)
      (by omega)).conseq ?_
    rintro res mem₂ (⟨rfl, sp', kept', copies, plenty⟩ | ⟨rfl, ⟨lost, stock₂, fine⟩, few⟩)
    · exact .inl ⟨sp.root, sp', rfl, kept', sp, mem₁, ran, rfl, maps₁, copies, plenty⟩
    · have sum := stock₁.card
      rw [card_add, fresh.card] at sum
      have enough : Enough total.card := .inr (by omega)
      exact .inr ⟨rfl, ⟨lost, stock₂, by rw [← fine]; exact and_iff_right enough⟩, few⟩
  · have few := short.1
    rw [card_zero, add_zero] at few
    refine .pure (.inr ⟨rfl, short.lost (and_iff_left fun odd => ?_), by rw [demand]; omega⟩)
    omega

end

section

variable {lay : Layout} {total extra : Multiset Nat} {base : Nat → Fin 1024 → Entry} {stops : Stop → Prop} {root : Nat}

theorem and_not_user (flags : BitVec 12) : (flags &&& ~~~PTE_U) &&& PTE_P = flags &&& PTE_P := by
  have apart : ~~~PTE_U &&& PTE_P = PTE_P := by decide
  rw [BitVec.and_assoc, apart]

variable {mem : Mem} {sp : Space} {lt : Nat}

theorem Kept.holds_clearpteu (kept : Kept lay total extra base root lt mem sp)
    (user : va < KERNBASE) (lax : ∀ why, stops why) : Holds (clearpteu root va) mem (fun _ mem' =>
      ∃ sp', Kept lay total extra base root lt mem' sp') stops := by
  obtain ⟨rfl, stock, maps, bounded, guarded⟩ := kept
  rw [clearpteu]
  refine (maps.holds_walk va).bind ?_
  rintro res mem' ⟨rfl, rfl⟩
  cases here : sp.table (pdx va) with
  | none => exact holds_halt.mpr (lax _)
  | some tab =>
    dsimp only [map_some]
    rw [holds_modify, maps.entry _ tab here]
    generalize cleared : (⟨(sp.entry (pdx va) (ptx va)).frame,
      (sp.entry (pdx va) (ptx va)).flags &&& ~~~PTE_U⟩ : Entry) = ent
    have present : ent.present = (sp.entry (pdx va) (ptx va)).present := by
      rw [← cleared, Entry.present, Entry.present, and_not_user]
    have eq : owned (pdx va) ent = owned (pdx va) (sp.entry (pdx va) (ptx va)) := by
      rw [owned, owned, present, ← cleared]
    have held : Space.held (sp.put (pdx va) (ptx va) ent) = sp.held := by
      have change : Space.held (sp.put (pdx va) (ptx va) ent) +
          owned (pdx va) (sp.entry (pdx va) (ptx va)) = sp.held + owned (pdx va) ent :=
        pages_put (pdx va) (ptx va) ent
      rw [eq] at change
      exact add_right_cancel change
    refine ⟨sp.put (pdx va) (ptx va) ent, rfl, ?_, ?_, ?_, ?_⟩
    · rw [held]
      apply stock.write
      rw [Space.held, pages_eq]
      simp [table_mem_nodes here]
    · exact maps.put stock.nodes_distinct here (ptx va) ent
    · intro k i low up
      apply bounded k i low
      rw [entry_put] at up
      split at up
      · rename_i spot
        rw [spot.1, spot.2, ← present]
        exact up
      · exact up
    · intro k i high
      have apart : ¬(k = pdx va ∧ i = ptx va) := by
        rintro ⟨rfl, _⟩
        have := user_place user
        omega
      rw [entry_put, if_neg apart]
      exact guarded k i high

theorem Maps.holds_loaduvm (maps : Maps mem sp) (lax : ∀ why, stops why) (n : Nat)
    {good : Nat} : Holds (loaduvm sp.root va good n) mem (fun _ mem' => mem' = mem) stops := by
  induction n generalizing va good with
  | zero => exact .pure rfl
  | succ n ih =>
    rw [loaduvm]
    refine (maps.holds_walk va).bind ?_
    rintro res mem' ⟨rfl, rfl⟩
    cases here : sp.table (pdx va) with
    | none => exact holds_halt.mpr (lax _)
    | some tab =>
      dsimp only [map_some]
      rw [holds_ite]
      exact ⟨fun _ => .pure rfl, fun _ => ih⟩

def Sized (layout : Layout) (total extra : Multiset Nat) (base : Nat → Fin 1024 → Entry) (root : Nat)
    (r : Option Nat) (mem : Mem) : Prop :=
  ∃ bound sp, Kept layout total extra base root bound mem sp ∧ ∀ sz ∈ r, sz < KERNBASE * PGSIZE ∧ bound ≤ pages sz

theorem Kept.sized (kept : Kept lay total extra base root lt mem sp) : Sized lay total extra base root none mem :=
  ⟨lt, sp, kept, by simp⟩

section

variable (lax : ∀ why, stops why)

include lax

theorem Kept.holds_loadSegments (segments : List Segment)
    (kept : Kept lay total extra base root (pages sz) mem sp) (top : sz < KERNBASE * PGSIZE) :
    Holds (loadSegments lay root segments sz) mem (Sized lay total extra base root) stops := by
  induction segments generalizing mem sp sz with
  | nil =>
    rw [loadSegments]
    refine .pure ⟨pages sz, sp, kept, ?_⟩
    rintro _ ⟨⟩
    exact ⟨top, le_rfl⟩
  | cons ph segments ih =>
    rw [loadSegments, holds_ite]
    refine ⟨fun _ => .pure kept.sized, fun _ => ?_⟩
    rw [holds_ite]
    refine ⟨fun _ => ih kept top, fun _ => ?_⟩
    rw [holds_ite]
    refine ⟨fun _ => .pure kept.sized, fun _ => ?_⟩
    rw [holds_ite]
    refine ⟨fun _ => .pure kept.sized, fun _ => ?_⟩
    refine (kept.holds_allocuvm (.inl top)).bind ?_
    rintro sz' mem₁ ⟨sp₁, resized⟩
    rw [holds_ite]
    constructor
    · intro _
      rcases resized with ⟨_, kept₁⟩ | ⟨_, _, kept₁⟩ <;> exact .pure kept₁.sized
    · intro grown
      obtain ⟨_, top₁, kept₁⟩ := resized.resolve_left fun failed => grown failed.1
      rw [holds_ite]
      refine ⟨fun _ => .pure kept₁.sized, fun _ => ?_⟩
      rw [holds_bind, ← kept₁.root]
      refine (kept₁.maps.holds_loaduvm lax _).conseq ?_
      rintro loaded mem₂ rfl
      rw [kept₁.root, holds_ite]
      exact ⟨fun _ => ih kept₁ top₁, fun _ => .pure kept₁.sized⟩

theorem Kept.holds_makeStack (kept : Kept lay total extra base root lt mem sp) (under : lt ≤ pages sz) :
    Holds (makeStack lay root sz) mem (Sized lay total extra base root) stops := by
  have round : pages (pages sz * PGSIZE) = pages sz := by
    simp only [pages, PGSIZE]
    omega
  have kept' : Kept lay total extra base root (pages (pages sz * PGSIZE)) mem sp := by
    rw [round]
    exact ⟨kept.root, kept.stock, kept.maps, kept.bounded.mono under, kept.guarded⟩
  rw [makeStack]
  refine (kept'.holds_allocuvm (.inr (by omega))).bind ?_
  rintro sz' mem₁ ⟨sp₁, resized⟩
  rw [holds_ite]
  constructor
  · intro _
    rcases resized with ⟨_, kept₁⟩ | ⟨_, _, kept₁⟩ <;> exact .pure kept₁.sized
  · intro grown
    obtain ⟨_, top, kept₁⟩ := resized.resolve_left fun failed => grown failed.1
    have user : pages sz' - 2 < KERNBASE := by
      simp only [pages, KERNBASE, PGSIZE] at *
      omega
    refine (kept₁.holds_clearpteu user lax).bind ?_
    rintro _ mem₂ ⟨sp₂, kept₂⟩
    refine .pure ⟨pages sz', sp₂, kept₂, ?_⟩
    rintro _ ⟨⟩
    exact ⟨top, le_rfl⟩

theorem Stock.holds_execImage (stock : Stock lay total base mem 0) (img : Image) :
    Holds (execImage lay img) mem (fun res mem' =>
      (∃ root sz sp, res = some (root, sz) ∧ sz < KERNBASE * PGSIZE ∧ Kept lay total 0 base root (pages sz) mem' sp) ∨
      (res = none ∧ Lost lay total 0 base (img.header = true → Enough total.card) mem')) stops := by
  -- Every way out after `setupkvm` goes through `freevm`.
  have bad : Enough total.card → ∀ {mem : Mem} {root lt : Nat} {sp : Space},
      Kept lay total 0 base root lt mem sp → Holds (do freevm lay root; pure none) mem (fun res mem' =>
        (∃ root sz sp, res = some (root, sz) ∧ sz < KERNBASE * PGSIZE ∧ Kept lay total 0 base root (pages sz) mem' sp) ∨
        (res = none ∧ Lost lay total 0 base (img.header = true → Enough total.card) mem')) stops := by
    intro enough mem root lt sp kept
    refine kept.holds_freevm.bind ?_
    intro _ mem' stock'
    exact .pure (.inr ⟨rfl, stock'.lost fun _ => enough⟩)
  rw [execImage, holds_ite]
  refine ⟨fun wrong => .pure (.inr ⟨rfl, stock.lost fun header => by simp [header] at wrong⟩), fun right => ?_⟩
  refine stock.holds_setupkvm.bind ?_
  rintro res mem₁ (⟨sp, rfl, fresh, stock₁, maps₁⟩ | ⟨rfl, short⟩)
  · have kept : Kept lay total 0 base sp.root (pages 0) mem₁ sp :=
      ⟨rfl, stock₁, maps₁, fresh.bounded, fresh.guard⟩
    have sum := stock₁.card
    rw [card_add, fresh.card] at sum
    have enough : Enough total.card := .inr (by omega)
    refine (kept.holds_loadSegments lax img.segments (by decide)).bind ?_
    rintro loaded mem₂ ⟨lt, sp₂, kept₂, sized₂⟩
    cases loaded with
    | none => exact bad enough kept₂
    | some sz =>
      dsimp only
      refine (kept₂.holds_makeStack lax (sized₂ sz rfl).2).bind ?_
      rintro stacked mem₃ ⟨lt₃, sp₃, kept₃, sized₃⟩
      cases stacked with
      | none => exact bad enough kept₃
      | some sz' =>
        obtain ⟨top, under⟩ := sized₃ sz' rfl
        rw [holds_ite]
        refine ⟨fun _ => .pure (.inl ⟨sp.root, sz', sp₃, rfl, top, ?_⟩), fun _ => bad enough kept₃⟩
        exact ⟨kept₃.root, kept₃.stock, kept₃.maps, kept₃.bounded.mono under, kept₃.guarded⟩
  · exact .pure (.inr ⟨rfl, short.lost (forall_prop_of_true (by simpa using right))⟩)

end

end

/-- Free pages lie where `kfree` takes them, none is on the list twice and none was freed twice. -/
structure Mem.Sound (layout : Layout) (mem : Mem) : Prop where
  distinct : mem.freelist.Nodup
  valid : ∀ page ∈ mem.freelist, layout.first ≤ page ∧ page < PHYSTOP
  once : mem.refreed = false

theorem Mem.Sound.stock  (sound : mem.Sound lay) : Stock lay (mem.freelist : Multiset Nat) mem.word mem 0 where
  distinct := coe_nodup.mpr sound.distinct
  valid := fun page free => sound.valid page (mem_coe.mp free)
  balance := add_zero _
  frame := fun _ _ => rfl
  once := sound.once

/-- A process of `sz` bytes: its page directory and page tables are in memory and not free, and
all its pages are present. -/
structure Resident (mem : Mem) (sp : Space) (sz : Nat) : Prop where
  maps : Maps mem sp
  apart : ∀ page ∈ sp.nodes, page ∉ mem.freelist
  size : sz ≤ KERNBASE * PGSIZE
  present : ∀ va < pages sz, (sp.entry (pdx va) (ptx va)).present = true

theorem Resident.original (resident : Resident mem sp sz) (mem' : Mem)
    (eq : ∀ page, page ∉ (mem.freelist : Multiset Nat) → mem'.word page = mem.word page) : Maps mem' sp :=
  resident.maps.congr fun page node => eq page (resident.apart page node)

theorem Resident.top (resident : Resident mem sp sz) : pages sz ≤ KERNBASE := by
  have size := resident.size
  simp only [pages, KERNBASE, PGSIZE] at *
  omega

theorem Lost.perm (lost : Lost lay (mem.freelist : Multiset Nat) 0 mem.word kept mem') :
    mem'.freelist.Perm mem.freelist ↔ kept := by
  obtain ⟨gone, stock, nothing⟩ := lost
  have balance := stock.balance
  rw [add_zero] at balance
  rw [nothing, ← coe_eq_coe, ← balance, left_eq_add]

/-- A `copyuvm` that fails, or an `exec` of an executable, leaves the free list with the pages it had exactly
if there were none or at least the 65 that `setupkvm` takes, and if `copyuvm` does not run out of memory at
a page table. -/
theorem failed_calls_keep_free (layout : Layout) (w : World) (sound : w.mem.Sound layout) :
    (∀ sp sz, Resident w.mem sp sz → (Holds (copyuvm layout sp.root sz) w.mem
        (fun r mem => r = none → mem.freelist.Perm w.mem.freelist) (fun _ => False) ↔
      Enough w.mem.freelist.length ∧ Spared w.mem.freelist.length (pages sz))) ∧
    ∀ slot image, (Holds (exec layout slot image) w
        (fun r w' => r = -1 → w'.mem.freelist.Perm w.mem.freelist) (fun _ => True) ↔
      (image.header = true → Enough w.mem.freelist.length)) := by
  have stock := sound.stock
  constructor
  · intro sp sz resident
    have spec : Holds (copyuvm layout sp.root sz) w.mem _ fun _ => False :=
      stock.holds_copyuvm resident.original resident.top (.inl resident.present)
    constructor
    · intro same
      by_contra wasted
      obtain ⟨r, mem, ran, ⟨d, _, rfl, _, _, _, _, _, _, _, plenty⟩ | ⟨rfl, lost, _⟩⟩ := spec.returns
      · exact absurd (lt_demand wasted) (by simpa using plenty)
      · exact wasted (lost.perm.mp (same.of_ok ran rfl))
    · intro fine
      refine spec.conseq ?_
      rintro r mem (⟨d, sp', rfl, _⟩ | ⟨_, lost, _⟩) failed
      · contradiction
      · exact lost.perm.mpr fine
  · intro slot image
    constructor
    · intro same header
      by_contra few
      have fails : Holds (exec layout slot image) w
          (fun r w' => r = -1 ∧ ¬w'.mem.freelist.Perm w.mem.freelist) fun _ => False := by
        rw [exec, onMem, holds_bind, holds_zoom, execImage, header, if_neg (by decide)]
        refine stock.holds_setupkvm.bind ?_
        rintro _ mem (⟨sp, rfl, fresh, stock', _⟩ | ⟨rfl, short⟩)
        · have sum := stock'.card
          rw [card_add, fresh.card, coe_card] at sum
          exact absurd (.inr (by omega)) few
        · have lost : Lost layout _ 0 _ (Enough w.mem.freelist.length) mem := short.lost (by simp)
          exact .pure (.pure ⟨rfl, mt lost.perm.mp few⟩)
      obtain ⟨_, w', ran, rfl, moved⟩ := fails.returns
      exact moved (same.of_ok ran rfl)
    · intro enough
      rw [exec, onMem, holds_bind, holds_zoom]
      refine (stock.holds_execImage (fun _ => trivial) image).conseq ?_
      rintro r mem (⟨root, sz, sp, rfl, _⟩ | ⟨rfl, lost⟩)
      · simp only [holds_bind, holds_get, setProc, holds_modify, onMem, holds_zoom, holds_pure]
        exact Holds.trivial (fun _ _ failed => by contradiction) fun _ => trivial
      · exact .pure fun _ => lost.perm.mpr (by simpa using enough)

def smallLayout : Layout := ⟨0x180, 0x200, by decide, by decide, by decide⟩

def smallSpace : Space where
  root := 0x300
  table := fun place => if place = 0 then some 0x301 else none
  entry := fun place index =>
    if place = 0 ∧ index = 0 then ⟨0x302, PTE_P ||| PTE_W ||| PTE_U⟩ else .zero

theorem smallSpace_held : smallSpace.held = {0x302, 0x301, 0x300} := by
  have shape : smallSpace = ((Space.bare 0x300).grow 0 0x301).put 0 0 ⟨0x302, PTE_P ||| PTE_W ||| PTE_U⟩ := by
    refine congrArg₂ (Tree.mk 0x300) ?_ ?_
    · funext k
      by_cases first : k = 0 <;> simp [Space.bare, Tree.grow, first]
    · funext k i
      by_cases first : k = 0 <;> by_cases snd : i = 0 <;> simp [Space.bare, first, snd]
  rw [shape, Space.held, ← add_zero (Tree.pages _ _), ← owned_absent 0 (show Entry.zero.present = false by decide)]
  refine (Tree.pages_put 0 0 _).trans ?_
  rw [Tree.pages_grow rfl, ← Space.held, Space.held_bare, owned_user (by decide) (by decide)]
  decide

def smallWorld (free : List Nat) : World :=
  World.initial (((Mem.initial free).fill 0x300 .zero |>.setWord 0x300 0
    ⟨0x301, PTE_P ||| PTE_W ||| PTE_U⟩).fill 0x301 .zero |>.setWord 0x301 0
    ⟨0x302, PTE_P ||| PTE_W ||| PTE_U⟩) 0 0 0x300

theorem smallWorld_resident {free : List Nat} (apart : 0x300 ∉ free ∧ 0x301 ∉ free) :
    Resident (smallWorld free).mem smallSpace PGSIZE where
  maps := by
    constructor
    · intro k missing
      have o : k ≠ 0 := by
        rintro rfl
        simp [smallSpace] at missing
      simp [smallWorld, initial, Mem.setWord, Mem.fill, smallSpace, o]
    · intro k page here
      obtain ⟨rfl, rfl⟩ : k = 0 ∧ 0x301 = page := by simpa [smallSpace] using here
      have word : (smallWorld free).mem.word smallSpace.root 0 = ⟨0x301, PTE_P ||| PTE_W ||| PTE_U⟩ := by
        simp [smallWorld, initial, Mem.setWord, Mem.fill, smallSpace]
      rw [word]
      exact ⟨by decide, rfl⟩
    · intro k page here i
      obtain ⟨rfl, rfl⟩ : k = 0 ∧ 0x301 = page := by simpa [smallSpace] using here
      by_cases fst : i = 0 <;>
        simp [smallWorld, initial, Mem.setWord, Mem.fill, smallSpace, fst]
    · intro k missing i
      have o : k ≠ 0 := by
        rintro rfl
        simp [smallSpace] at missing
      simp [smallSpace, o]
  apart := by
    intro page node
    rcases mem_nodes node with rfl | ⟨k, here⟩
    · exact apart.1
    · obtain ⟨_, rfl⟩ : k = 0 ∧ 0x301 = page := by simpa [smallSpace] using here
      exact apart.2
  size := by decide
  present := by decide

/-- With one free page `copyuvm` and `exec` fail, and the page is lost. -/
theorem failed_calls_lose_page : ∃ (layout : Layout) (w : World) (sp : Space),
    w.mem.Sound layout ∧ w.mem.freelist = [0x400] ∧ Resident w.mem sp PGSIZE ∧
    (∃ mem, copyuvm layout sp.root PGSIZE w.mem = .ok none mem ∧ mem.freelist = []) ∧
    ∃ w', exec layout 0 ⟨true, [], true⟩ w = .ok (-1) w' ∧ w'.mem.freelist = [] := by
  have copied : (copyuvm smallLayout 0x300 PGSIZE (smallWorld [0x400]).mem).check
      (fun r mem => r.isNone && mem.freelist.isEmpty) = true := by decide +kernel
  have executed : (exec smallLayout 0 ⟨true, [], true⟩ (smallWorld [0x400])).check
      (fun r w => r == -1 && w.mem.freelist.isEmpty) = true := by decide +kernel
  refine ⟨smallLayout, smallWorld [0x400], smallSpace, ⟨by decide, by decide, rfl⟩, rfl,
    smallWorld_resident (by decide), ?_, ?_⟩
  · obtain ⟨r, mem, ran, chk⟩ := Outcome.of_check copied
    simp only [Bool.and_eq_true, Option.isNone_iff_eq_none, List.isEmpty_iff] at chk
    exact ⟨mem, by rw [← chk.1]; exact ran, chk.2⟩
  · obtain ⟨r, w, ran, chk⟩ := Outcome.of_check executed
    simp only [Bool.and_eq_true, beq_iff_eq, List.isEmpty_iff] at chk
    exact ⟨w, by rw [← chk.1]; exact ran, chk.2⟩

theorem failed_calls_keep_free_full : ∃ mem,
    copyuvm smallLayout smallSpace.root PGSIZE (smallWorld (List.range' 0x400 65)).mem = .ok none mem ∧
      mem.freelist.Perm (List.range' 0x400 65) := by
  have sound : (smallWorld (List.range' 0x400 65)).mem.Sound smallLayout := ⟨List.nodup_range', by decide, rfl⟩
  have resident : Resident (smallWorld (List.range' 0x400 65)).mem smallSpace PGSIZE := smallWorld_resident (by decide)
  have same := ((failed_calls_keep_free smallLayout _ sound).1 smallSpace PGSIZE resident).mpr
    ⟨.inr (by decide), fun odd => absurd odd (by decide)⟩
  have spec : Holds (copyuvm smallLayout smallSpace.root PGSIZE) (smallWorld (List.range' 0x400 65)).mem _
      fun _ => False := sound.stock.holds_copyuvm resident.original resident.top (.inl resident.present)
  obtain ⟨r, mem, ran, ⟨_, _, rfl, _, _, _, _, _, _, _, plenty⟩ | ⟨rfl, _⟩⟩ := spec.returns
  · exact absurd plenty (by decide)
  · exact ⟨mem, ran, same.of_ok ran rfl⟩

end Xv6.Vm
