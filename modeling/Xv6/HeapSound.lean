import Xv6.HeapBlocks

/-! Memory holds the blocks: the free ones linked in a ring with `base`, each with its size. What
`free`, `morecore` and `malloc` do to it, and that their loops end. -/

namespace Xv6.UserHeap

open Chain Reach List Function

@[simp] theorem set_next (s : State) (p : Nat) (header : Header) :
    (s.set p header).next = update s.next p header.ptr := by
  funext q
  by_cases eq : q = p <;> simp [eq, State.next, State.set]

@[simp] theorem set_size (s : State) (p : Nat) (header : Header) :
    (s.set p header).size = update s.size p header.size := by
  funext q
  by_cases eq : q = p <;> simp [eq, State.size, State.set]

@[simp] theorem freep_next (s : State) (p : Nat) : ({ s with freep := p } : State).next = s.next :=
  rfl

@[simp] theorem freep_size (s : State) (p : Nat) : ({ s with freep := p } : State).size = s.size :=
  rfl

def addrs (blocks : List Block) : List Nat := blocks.map Block.addr

@[simp] theorem addrs_nil : addrs [] = [] := rfl

@[simp] theorem addrs_cons (b : Block) (rest : List Block) : addrs (b :: rest) = b.addr :: addrs rest := rfl

@[simp] theorem addrs_append (left right : List Block) : addrs (left ++ right) = addrs left ++ addrs right := by
  simp [addrs]

structure Heap (base s0 : Nat) (st : State) (free alloc : List Block) : Prop where
  low : base + headerSize ≤ s0
  path : Path st.next base (addrs free) base
  base_size : st.size base = 0
  sizes : ∀ b ∈ free ++ alloc, st.size b.addr = b.size
  freep : st.freep ∈ base :: addrs free
  gaps : free.Pairwise Gap
  tiles : Tiles s0 st.brk (free ++ alloc)

section

variable {base s0 brk : Nat} {s : State} {lo hi free alloc rest : List Block} {b c a : Block}

theorem Tiles.addr_ne (tiles : Tiles s0 brk (b :: rest)) (mem : a ∈ rest) : a.addr ≠ b.addr := by
  intro eq
  have apart := (pairwise_cons.mp tiles.apart).1 a mem
  have size := tiles.positive b mem_cons_self
  have o := tiles.positive a (mem_cons_of_mem _ mem)
  simp only [Apart, Block.stop, headerSize] at apart
  omega

theorem Tiles.above {blocks : List Block} (tiles : Tiles s0 brk blocks) (low : base + headerSize ≤ s0)
    (mem : a ∈ blocks) : base < a.addr := by
  have bounds := tiles.inside a mem
  simp only [headerSize] at low
  omega

theorem Tiles.increasing (tiles : Tiles s0 brk (free ++ alloc)) (low : base + headerSize ≤ s0)
    (gaps : free.Pairwise Gap) : (base :: addrs free).Pairwise (· < ·) := by
  refine pairwise_cons.mpr ⟨?_, pairwise_map.mpr (gaps.imp ?_)⟩
  · intro addr inside
    obtain ⟨a, mem, rfl⟩ := mem_map.mp inside
    exact tiles.above low (mem_append_left _ mem)
  · intro a o gap
    simp only [Gap, Block.stop] at gap
    omega

theorem Heap.increasing (heap : Heap base s0 s free alloc) : (base :: addrs free).Pairwise (· < ·) :=
  heap.tiles.increasing heap.low heap.gaps

theorem Heap.nodup (heap : Heap base s0 s free alloc) : (base :: addrs free).Nodup :=
  heap.increasing.imp Nat.ne_of_lt

theorem cut_at (addr : Nat) (free : List Block) (gaps : free.Pairwise Gap) (o : addr ∉ addrs free) :
    ∃ lo hi, free = lo ++ hi ∧ (∀ a ∈ lo, a.addr < addr) ∧ ∀ a ∈ hi, addr < a.addr := by
  induction free with
  | nil => exact ⟨[], [], rfl, by simp, by simp⟩
  | cons fst rest ih =>
    obtain ⟨above, gaps⟩ := pairwise_cons.mp gaps
    simp only [addrs_cons, mem_cons, not_or] at o
    by_cases less : fst.addr < addr
    · obtain ⟨lo, hi, rfl, below, higher⟩ := ih gaps o.2
      refine ⟨fst :: lo, hi, rfl, ?_, higher⟩
      intro a mem
      rcases mem_cons.mp mem with rfl | mem
      · exact less
      · exact below a mem
    · refine ⟨[], fst :: rest, rfl, by simp, ?_⟩
      intro a mem
      rcases mem_cons.mp mem with rfl | mem
      · omega
      · have gap := above a mem
        simp only [Gap, Block.stop] at gap
        omega

theorem cut_unique {α : Type} {test : α → Prop} {lo hi lo' hi' : List α} (eq : lo ++ hi = lo' ++ hi')
    (left : ∀ a ∈ lo, test a) (right : ∀ a ∈ hi, ¬ test a) (left' : ∀ a ∈ lo', test a)
    (right' : ∀ a ∈ hi', ¬ test a) : lo = lo' ∧ hi = hi' := by
  rcases append_eq_append_iff.mp eq with ⟨middle, rfl, rfl⟩ | ⟨middle, rfl, rfl⟩
  · cases middle with
    | nil => simp
    | cons a middle => exact absurd (left' a (by simp)) (right a (by simp))
  · cases middle with
    | nil => simp
    | cons a middle => exact absurd (left a (by simp)) (right' a (by simp))

/-! `free`: the place of the block, and the two neighbours. -/

structure Placed (base s0 : Nat) (st : State) (lo hi alloc : List Block) (b : Block) : Prop where
  heap : Heap base s0 st (lo ++ hi) (b :: alloc)
  below : ∀ a ∈ lo, a.stop ≤ b.addr
  above : ∀ a ∈ hi, b.stop ≤ a.addr

theorem Heap.fresh (heap : Heap base s0 s free (b :: alloc)) : b.addr ∉ base :: addrs free := by
  have tiles := heap.tiles.perm perm_middle
  simp only [addrs, mem_cons, mem_map, not_or]
  constructor
  · have above := heap.tiles.above heap.low (a := b) (by simp)
    omega
  · rintro ⟨a, mem, eq⟩
    exact tiles.addr_ne (mem_append_left _ mem) eq

theorem Heap.placed (heap : Heap base s0 s free (b :: alloc)) :
    ∃ lo hi, free = lo ++ hi ∧ Placed base s0 s lo hi alloc b := by
  have fresh : b.addr ∉ addrs free := fun mem => heap.fresh (mem_cons_of_mem _ mem)
  obtain ⟨lo, hi, rfl, below, above⟩ := cut_at b.addr free heap.gaps fresh
  obtain ⟨apart, _⟩ := pairwise_cons.mp (heap.tiles.perm perm_middle).apart
  refine ⟨lo, hi, rfl, heap, ?_, ?_⟩
  · intro a mem
    have less := below a mem
    have clear := apart a (by simp [mem])
    simp only [Apart, Block.stop] at clear ⊢
    omega
  · intro a mem
    have less := above a mem
    have clear := apart a (by simp [mem])
    simp only [Apart, Block.stop] at clear ⊢
    omega

def place (base : Nat) (lo : List Block) : Nat := entry (addrs lo).reverse base

theorem Placed.next_place (placed : Placed base s0 s lo hi alloc b) :
    s.next (place base lo) = entry (addrs hi) base := by
  have path := placed.heap.path
  rw [addrs_append] at path
  exact path.step_cut

theorem place_cases (base : Nat) (lo : List Block) :
    lo = [] ∧ place base lo = base ∨ ∃ earlier d, lo = earlier ++ [d] ∧ place base lo = d.addr := by
  rcases eq_nil_or_concat lo with rfl | ⟨earlier, d, rfl⟩
  · exact .inl ⟨rfl, rfl⟩
  · exact .inr ⟨earlier, d, by simp, by simp [place, entry]⟩

theorem entry_highest {pre : List Nat} (increasing : (base :: pre).Pairwise (· < ·)) {addr : Nat}
    (mem : addr ∈ base :: pre) : addr ≤ entry pre.reverse base := by
  rcases eq_nil_or_concat pre with rfl | ⟨earlier, d, rfl⟩
  · simp only [mem_singleton] at mem
    exact Nat.le_of_eq mem
  · have split : base :: earlier.concat d = (base :: earlier) ++ [d] := by simp
    rw [split] at increasing mem
    have point : entry (earlier.concat d).reverse base = d := by simp [entry]
    rw [point]
    rcases mem_append.mp mem with low | here
    · exact Nat.le_of_lt ((pairwise_append.mp increasing).2.2 addr low d (by simp))
    · exact Nat.le_of_eq (mem_singleton.mp here)

theorem fits_cut {pre after : List Nat} {addr : Nat} (path : Path s.next base (pre ++ after) base)
    (increasing : (base :: (pre ++ after)).Pairwise (· < ·)) (low : base < addr) (fresh : addr ∉ pre ++ after) :
    s.fits addr (entry pre.reverse base) = true ↔ (∀ a ∈ pre, a < addr) ∧ ∀ a ∈ after, ¬ a < addr := by
  rw [← cons_append] at increasing
  obtain ⟨front, back, across⟩ := pairwise_append.mp increasing
  have highest : ∀ a ∈ base :: pre, a ≤ entry pre.reverse base := fun a => entry_highest front
  have mem : entry pre.reverse base ∈ base :: pre := by
    simpa using entry_reverse_mem pre [] base
  have less : (∀ a ∈ pre, a < addr) ↔ entry pre.reverse base < addr := by
    constructor
    · intro all
      rcases mem_cons.mp mem with here | low
      · omega
      · exact all _ low
    · intro lt a low
      have least := highest a (mem_cons_of_mem _ low)
      omega
  have lowest := highest base mem_cons_self
  simp only [State.fits, decide_eq_true_eq, path.step_cut, less]
  generalize entry pre.reverse base = p at *
  cases after with
  | nil =>
    simp only [entry, not_mem_nil, false_implies, implies_true, and_true]
    omega
  | cons c rest =>
    have order := across _ mem c mem_cons_self
    have o : addr ≠ c := fun eq => fresh (by simp [eq])
    have more : (∀ a ∈ c :: rest, ¬ a < addr) ↔ addr < c := by
      constructor
      · intro all
        have lt := all c mem_cons_self
        omega
      · intro lt a low
        rcases mem_cons.mp low with rfl | low
        · omega
        · have higher := (pairwise_cons.mp back).1 a low
          omega
    simp only [entry, more]
    omega

theorem Placed.follow (placed : Placed base s0 s lo hi alloc b) {fuel : Nat} (enough : (lo ++ hi).length < fuel) :
    follow s.next (s.fits b.addr) fuel s.freep = some (place base lo) := by
  have heap := placed.heap
  have path := heap.path
  have increasing := heap.increasing
  have fresh := heap.fresh
  have low : base < b.addr := heap.tiles.above heap.low (by simp)
  obtain ⟨others, ring, permuted⟩ := path.from_member heap.freep
  have lower : ∀ a ∈ addrs lo, a < b.addr := by
    intro addr listed
    obtain ⟨a, mem, rfl⟩ := mem_map.mp listed
    have lt := placed.below a mem
    have size := heap.tiles.positive a (by simp [mem])
    simp only [Block.stop, headerSize] at lt
    omega
  have higher : ∀ a ∈ addrs hi, ¬ a < b.addr := by
    intro addr listed
    obtain ⟨a, mem, rfl⟩ := mem_map.mp listed
    have lt := placed.above a mem
    simp only [Block.stop] at lt
    omega
  rw [addrs_append] at path increasing fresh
  rw [mem_cons, not_or] at fresh
  refine ring.follow ?_ ?_ ?_ ?_
  · rw [permuted.mem_iff, addrs_append]
    exact entry_reverse_mem _ _ _
  · exact (fits_cut path increasing low fresh.2).mpr ⟨lower, higher⟩
  · intro node mem stop
    obtain ⟨pre, after, whole, rfl⟩ := mem_cut (permuted.mem_iff.mp mem)
    rw [addrs_append] at whole
    rw [whole] at path increasing fresh
    obtain ⟨left, right⟩ := (fits_cut path increasing low fresh.2).mp stop
    rw [place, (cut_unique whole lower higher left right).1]
  · have eq := permuted.length_eq
    simp only [length_cons, addrs, length_map] at eq
    omega

structure Joined (base s0 : Nat) (st : State) (lo hi alloc : List Block) (b : Block) : Prop where
  low : base + headerSize ≤ s0
  path : Path (update st.next (place base lo) (entry (addrs hi) base)) base (addrs (lo ++ hi)) base
  next_block : st.next b.addr = entry (addrs hi) base
  base_size : st.size base = 0
  sizes : ∀ a ∈ (lo ++ hi) ++ b :: alloc, st.size a.addr = a.size
  gaps : (lo ++ hi).Pairwise Gap
  tiles : Tiles s0 st.brk ((lo ++ hi) ++ b :: alloc)
  below : ∀ a ∈ lo, a.stop ≤ b.addr
  above : ∀ a ∈ hi, Gap b a

def joinUpper (st : State) (bp p : Nat) : State :=
  if bp + headerSize * st.size bp = st.next p then
    st.set bp ⟨st.next (st.next p), st.size bp + st.size (st.next p)⟩
  else st.set bp ⟨st.next p, st.size bp⟩

theorem Tiles.sizes_set (tiles : Tiles s0 brk (b :: rest)) (size : Nat → Nat)
    (sizes : ∀ a ∈ rest, size a.addr = a.size) (new : Nat) : ∀ a ∈ rest, update size b.addr new a.addr = a.size := by
  intro a mem
  rw [update_of_ne (tiles.addr_ne mem)]
  exact sizes a mem

theorem Heap.base_ne (heap : Heap base s0 s free alloc) (mem : a ∈ free ++ alloc) : base ≠ a.addr :=
  Nat.ne_of_lt (heap.tiles.above heap.low mem)

theorem Placed.above_gap (placed : Placed base s0 s lo hi alloc b)
    (o : b.stop ≠ entry (addrs hi) base) : ∀ a ∈ hi, Gap b a := by
  intro a mem
  have lt := placed.above a mem
  cases hi with
  | nil => cases mem
  | cons c rest =>
    have fst := placed.above c mem_cons_self
    simp only [addrs_cons, entry] at o
    rcases mem_cons.mp mem with rfl | mem
    · simp only [Gap]
      omega
    · have gap := (gaps_remove placed.heap.gaps).2.2 a mem
      simp only [Gap, Block.stop] at gap fst o ⊢
      omega

theorem Placed.joined_apart (placed : Placed base s0 s lo hi alloc b) (o : b.stop ≠ entry (addrs hi) base) :
    Joined base s0 (s.set b.addr ⟨s.next (place base lo), s.size b.addr⟩) lo hi alloc b where
  low := placed.heap.low
  path := by
    have fresh := placed.heap.fresh
    rw [set_next]
    refine placed.heap.path.agree ?_
    intro node mem
    by_cases here : node = place base lo
    · rw [here, update_self, placed.next_place]
    · rw [update_of_ne here, update_of_ne]
      rintro rfl
      exact fresh mem
  next_block := by
    rw [set_next, update_self]
    exact placed.next_place
  base_size := by
    rw [set_size, update_of_ne (placed.heap.base_ne (by simp))]
    exact placed.heap.base_size
  sizes := by
    intro a mem
    rw [set_size, update_eq_self]
    exact placed.heap.sizes a mem
  gaps := placed.heap.gaps
  tiles := placed.heap.tiles
  below := placed.below
  above := placed.above_gap o

theorem Placed.joined_upper (placed : Placed base s0 s lo (c :: hi) alloc b) (touch : b.stop = c.addr) :
    Joined base s0 (s.set b.addr ⟨s.next c.addr, s.size b.addr + s.size c.addr⟩) lo hi alloc
      ⟨b.addr, b.size + c.size⟩ := by
  have heap := placed.heap
  have fresh := heap.fresh
  have permuted : ((lo ++ c :: hi) ++ b :: alloc).Perm (b :: c :: (lo ++ hi ++ alloc)) := by
    refine perm_middle.trans (.cons _ ?_)
    rw [append_assoc, cons_append, append_assoc]
    exact perm_middle
  have tiles := heap.tiles.perm permuted
  have merged := tiles.merge touch
  have sizes : ∀ a ∈ c :: (lo ++ hi ++ alloc), s.size a.addr = a.size := fun a mem =>
    heap.sizes a (permuted.mem_iff.mpr (mem_cons_of_mem _ mem))
  have size_b : s.size b.addr = b.size := heap.sizes b (by simp)
  have size_c : s.size c.addr = c.size := heap.sizes c (by simp)
  have path := heap.path
  have nodup := heap.nodup
  simp only [addrs_append, addrs_cons] at path nodup fresh
  have next_c : s.next c.addr = entry (addrs hi) base := (path_append.mp path).2.step_eq
  obtain ⟨gaps, _, above⟩ := gaps_remove heap.gaps
  constructor
  case low => exact heap.low
  case path =>
    rw [set_next, addrs_append]
    have removed : Path (update s.next (place base lo) (s.next c.addr)) base
        (addrs lo ++ addrs hi) base := path.unlink nodup
    refine removed.agree ?_
    intro node mem
    by_cases here : node = place base lo
    · rw [here, update_self, update_self, next_c]
    · rw [update_of_ne here, update_of_ne, update_of_ne here]
      rintro rfl
      apply fresh
      simp only [mem_cons, mem_append] at mem ⊢
      tauto
  case next_block =>
    rw [set_next, update_self]
    exact next_c
  case base_size =>
    rw [set_size, update_of_ne (heap.base_ne (by simp))]
    exact heap.base_size
  case sizes =>
    rw [size_b, size_c]
    intro a mem
    rw [set_size]
    rcases mem_cons.mp (perm_middle.mem_iff.mp mem) with rfl | mem
    · exact update_self ..
    · exact tiles.sizes_set _ sizes _ a (mem_cons_of_mem _ mem)
  case gaps => exact gaps
  case tiles => exact merged.perm perm_middle.symm
  case below => exact placed.below
  case above =>
    intro a mem
    have gap := above a mem
    simp only [Gap, Block.stop, headerSize] at gap touch ⊢
    omega

theorem Placed.joinUpper (placed : Placed base s0 s lo hi alloc b) : ∃ hi' size, b.size ≤ size ∧
      Joined base s0 (joinUpper s b.addr (place base lo)) lo hi' alloc ⟨b.addr, size⟩ := by
  have size_b : s.size b.addr = b.size := placed.heap.sizes b (by simp)
  unfold UserHeap.joinUpper
  rw [size_b, placed.next_place]
  change ∃ hi' size, b.size ≤ size ∧ Joined base s0 (if b.stop = _ then _ else _) _ _ _ _
  by_cases touch : b.stop = entry (addrs hi) base
  · rw [if_pos touch]
    cases hi with
    | nil =>
      have above := placed.heap.tiles.above placed.heap.low (a := b) (by simp)
      simp only [addrs_nil, entry, Block.stop] at touch
      omega
    | cons c hi =>
      refine ⟨hi, b.size + c.size, Nat.le_add_right .., ?_⟩
      have join := placed.joined_upper touch
      rw [size_b] at join
      exact join
  · rw [if_neg touch]
    have join := placed.joined_apart touch
    rw [size_b, placed.next_place] at join
    exact ⟨hi, b.size, Nat.le_refl _, join⟩

def joinLower (st : State) (bp p : Nat) : State :=
  if p + headerSize * st.size p = bp then st.set p ⟨st.next bp, st.size p + st.size bp⟩
  else st.set p ⟨bp, st.size p⟩

theorem Joined.addr_ne (join : Joined base s0 s lo hi alloc b) {node : Nat}
    (mem : node ∈ base :: addrs (lo ++ hi)) : node ≠ b.addr := by
  rcases mem_cons.mp mem with rfl | listed
  · exact Nat.ne_of_lt (join.tiles.above join.low (by simp))
  · obtain ⟨a, inside, rfl⟩ := mem_map.mp listed
    exact (join.tiles.perm perm_middle).addr_ne (mem_append_left _ inside)

theorem place_mem (base : Nat) (lo hi : List Block) : place base lo ∈ base :: addrs (lo ++ hi) := by
  rw [addrs_append]
  exact entry_reverse_mem _ _ _

theorem Joined.below_gap (join : Joined base s0 s lo hi alloc b)
    (o : place base lo + headerSize * s.size (place base lo) ≠ b.addr) : ∀ a ∈ lo, Gap a b := by
  intro a mem
  have lt := join.below a mem
  rcases place_cases base lo with ⟨rfl, _⟩ | ⟨earlier, d, rfl, eq⟩
  · cases mem
  · have last := join.below d (by simp)
    have size := join.tiles.positive d (by simp)
    rw [eq, join.sizes d (by simp)] at o
    rcases mem_append.mp mem with low | here
    · have gap := (pairwise_append.mp (pairwise_append.mp join.gaps).1).2.2 a low d (by simp)
      simp only [Gap, Block.stop, headerSize] at gap last ⊢
      omega
    · rw [mem_singleton.mp here]
      simp only [Gap, Block.stop] at last o ⊢
      omega

theorem Joined.linked (join : Joined base s0 s lo hi alloc b)
    (o : place base lo + headerSize * s.size (place base lo) ≠ b.addr) :
    Heap base s0 { s.set (place base lo) ⟨b.addr, s.size (place base lo)⟩ with
      freep := place base lo } (lo ++ b :: hi) alloc where
  low := join.low
  path := by
    have path := join.path
    have nodup : (base :: addrs (lo ++ hi)).Nodup :=
      (join.tiles.increasing join.low join.gaps).imp Nat.ne_of_lt
    have fresh : b.addr ∉ base :: addrs (lo ++ hi) := fun mem => join.addr_ne mem rfl
    have apart : b.addr ≠ place base lo := (join.addr_ne (place_mem base lo hi)).symm
    rw [addrs_append] at path nodup fresh
    have inserted := path.insert nodup fresh
    rw [addrs_append, addrs_cons, freep_next, set_next]
    -- The block already points to what follows it.
    rw [update_comm apart.symm, ← join.next_block, update_eq_self, ← place, update_idem] at inserted
    exact inserted
  base_size := by
    rw [freep_size, set_size, update_eq_self]
    exact join.base_size
  sizes := by
    intro a mem
    rw [freep_size, set_size, update_eq_self]
    exact join.sizes a (by simp only [mem_append, mem_cons] at mem ⊢; tauto)
  freep := by
    rw [addrs_append]
    exact entry_reverse_mem _ _ _
  gaps := gaps_insert join.gaps (join.below_gap o) join.above
  tiles := by
    refine join.tiles.perm (perm_middle.trans ?_)
    rw [append_assoc, append_assoc]
    exact perm_middle.symm

theorem Joined.absorbed {earlier : List Block} {d : Block}
    (join : Joined base s0 s (earlier ++ [d]) hi alloc b) (touch : d.stop = b.addr) :
    Heap base s0 { s.set d.addr ⟨s.next b.addr, s.size d.addr + s.size b.addr⟩ with
      freep := d.addr } (earlier ++ ⟨d.addr, d.size + b.size⟩ :: hi) alloc := by
  have permuted : ((earlier ++ [d] ++ hi) ++ b :: alloc).Perm (d :: b :: (earlier ++ hi ++ alloc)) := by
    refine perm_middle.trans (.trans (.cons _ ?_) (.swap ..))
    rw [append_assoc, append_assoc, append_assoc]
    exact perm_middle
  have tiles := join.tiles.perm permuted
  have sizes : ∀ a ∈ b :: (earlier ++ hi ++ alloc), s.size a.addr = a.size := fun a mem =>
    join.sizes a (permuted.mem_iff.mpr (mem_cons_of_mem _ mem))
  have size_d : s.size d.addr = d.size := join.sizes d (by simp)
  have size_b : s.size b.addr = b.size := join.sizes b (by simp)
  have point : place base (earlier ++ [d]) = d.addr := by simp [place, addrs, entry]
  have gaps := join.gaps
  rw [append_assoc, singleton_append] at gaps
  obtain ⟨gaps, below, above⟩ := gaps_remove gaps
  constructor
  case low => exact join.low
  case path =>
    have path := join.path
    rw [point, ← join.next_block] at path
    rw [freep_next, set_next]
    simpa using path
  case base_size =>
    have apart : base ≠ d.addr := Nat.ne_of_lt (join.tiles.above join.low (by simp))
    rw [freep_size, set_size, update_of_ne apart]
    exact join.base_size
  case sizes =>
    rw [size_d, size_b]
    intro a mem
    rw [freep_size, set_size]
    rw [append_assoc, cons_append, perm_middle.mem_iff, ← append_assoc] at mem
    rcases mem_cons.mp mem with rfl | mem
    · exact update_self ..
    · exact tiles.sizes_set _ sizes _ a (mem_cons_of_mem _ mem)
  case freep => simp
  case gaps =>
    refine gaps_insert gaps below ?_
    intro a mem
    have gap := join.above a mem
    simp only [Gap, Block.stop, headerSize] at gap touch ⊢
    omega
  case tiles =>
    refine (tiles.merge touch).perm ?_
    rw [append_assoc, append_assoc]
    exact perm_middle.symm

theorem Joined.joinLower (join : Joined base s0 s lo hi alloc b) : ∃ free, (∃ large ∈ free, b.size ≤ large.size) ∧
      Heap base s0 { joinLower s b.addr (place base lo) with freep := place base lo } free alloc := by
  unfold UserHeap.joinLower
  by_cases touch : place base lo + headerSize * s.size (place base lo) = b.addr
  · rw [if_pos touch]
    rcases place_cases base lo with ⟨rfl, eq⟩ | ⟨earlier, d, rfl, eq⟩
    · have above := join.tiles.above join.low (a := b) (by simp)
      rw [eq, join.base_size] at touch
      omega
    · rw [eq, join.sizes d (by simp)] at touch
      rw [eq]
      exact ⟨_, ⟨⟨d.addr, d.size + b.size⟩, by simp, Nat.le_add_left ..⟩, join.absorbed touch⟩
  · rw [if_neg touch]
    exact ⟨_, ⟨b, by simp, Nat.le_refl _⟩, join.linked touch⟩

def Rewrites (st after : State) : Prop :=
  after = { st with header := after.header, freep := after.freep }

theorem joins_rewrite (s : State) (bp p : Nat) : Rewrites s { joinLower (joinUpper s bp p) bp p with freep := p } := by
  unfold Rewrites joinLower
  split <;> unfold joinUpper <;> split <;> rfl

theorem Heap.released (heap : Heap base s0 s free (b :: alloc)) :
    ∃ after free', (∀ fuel, free.length < fuel → UserHeap.free fuel s b.addr = some after) ∧
      Rewrites s after ∧ (∃ large ∈ free', b.size ≤ large.size) ∧ Heap base s0 after free' alloc := by
  obtain ⟨lo, hi, rfl, placed⟩ := heap.placed
  obtain ⟨hi', size, grown, join⟩ := placed.joinUpper
  obtain ⟨free', ⟨large, mem, lt⟩, res⟩ := join.joinLower
  refine ⟨_, free', ?_, joins_rewrite s b.addr (place base lo), ⟨large, mem, Nat.le_trans grown lt⟩, res⟩
  intro fuel enough
  rw [UserHeap.free, placed.follow enough]
  rfl

end

end Xv6.UserHeap
