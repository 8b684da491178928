import Xv6.HeapSound

/-! `malloc`: its loop over the list, the block it takes, and memory from `sbrk`. -/

namespace Xv6.UserHeap

open Chain Reach List Function

section

variable {base s0 nunits : Nat} {st : State} {lo hi free alloc : List Block} {b c : Block}

structure Backed (start : Nat) (st : State) : Prop where
  units : start + headerSize * st.obtained = st.brk
  bound : st.brk < KERNBASE

def extended (st : State) (nu : Nat) : State :=
  { st.set st.brk { st.header st.brk with size := nu } with
    brk := st.brk + nu * headerSize, obtained := st.obtained + nu }

theorem extended_next (st : State) (nu : Nat) : (extended st nu).next = st.next := by
  change (st.set st.brk { st.header st.brk with size := nu }).next = st.next
  rw [set_next]
  exact update_eq_self ..

theorem extended_size (st : State) (nu : Nat) : (extended st nu).size = update st.size st.brk nu := by
  change (st.set st.brk { st.header st.brk with size := nu }).size = _
  rw [set_size]

theorem Heap.extended (heap : Heap base s0 st free alloc) {nu : Nat} (pos : 0 < nu) :
    Heap base s0 (extended st nu) free (⟨st.brk, nu⟩ :: alloc) := by
  have tiles := heap.tiles.grow pos
  constructor
  case low => exact heap.low
  case path =>
    rw [extended_next]
    exact heap.path
  case base_size =>
    have above := tiles.above heap.low (a := ⟨st.brk, nu⟩) mem_cons_self
    rw [extended_size, update_of_ne (Nat.ne_of_lt above)]
    exact heap.base_size
  case sizes =>
    intro a mem
    rw [extended_size]
    rcases mem_cons.mp (perm_middle.mem_iff.mp mem) with rfl | mem
    · exact update_self ..
    · exact tiles.sizes_set _ heap.sizes _ a mem
  case freep => exact heap.freep
  case gaps => exact heap.gaps
  case tiles =>
    have moved : (UserHeap.extended st nu).brk = st.brk + headerSize * nu := by
      rw [Nat.mul_comm]
      rfl
    rw [moved]
    exact tiles.perm perm_middle.symm

theorem Heap.morecore (heap : Heap base s0 st free alloc) (backed : Backed s0 st) (grant : Bool) :
    (∀ fuel, UserHeap.morecore fuel grant st nunits = some (st, 0)) ∨ ∃ after free', (∀ fuel, free.length < fuel →
          UserHeap.morecore fuel grant st nunits = some (after, after.freep)) ∧
        (∃ large ∈ free', nunits ≤ large.size) ∧ after.allocated = st.allocated ∧
          Backed s0 after ∧ Heap base s0 after free' alloc := by
  unfold UserHeap.morecore
  set nu := if nunits < 4096 then 4096 else nunits with whole
  have large : nunits ≤ nu ∧ 0 < nu := by
    rw [whole]
    split <;> omega
  by_cases more : grant = true ∧ st.brk + nu * headerSize < KERNBASE
  · right
    obtain ⟨after, free', ends, frame, ⟨c, mem, lt⟩, res⟩ := (heap.extended large.2).released
    refine ⟨after, free', ?_, ⟨c, mem, Nat.le_trans large.1 lt⟩, ?_, ?_, res⟩
    · intro fuel enough
      simp only [sbrk, if_pos more]
      change (UserHeap.free fuel (UserHeap.extended st nu) st.brk).map _ = _
      rw [ends fuel enough]
      rfl
    · rw [frame]
      rfl
    · rw [frame]
      refine ⟨?_, more.2⟩
      have units := backed.units
      simp only [UserHeap.extended, headerSize] at units ⊢
      omega
  · left
    intro fuel
    simp only [sbrk, if_neg more]

/-! A block is taken. -/

def taken (c : Block) (nunits : Nat) : Block := ⟨c.addr + headerSize * (c.size - nunits), nunits⟩

theorem Heap.take_whole (heap : Heap base s0 st (lo ++ c :: hi) alloc) :
    Heap base s0 { st.set (place base lo) { st.header (place base lo) with
      ptr := st.next c.addr } with freep := place base lo } (lo ++ hi) (c :: alloc) := by
  have path := heap.path
  have nodup := heap.nodup
  rw [addrs_append, addrs_cons] at path nodup
  have permuted : ((lo ++ c :: hi) ++ alloc).Perm ((lo ++ hi) ++ c :: alloc) := by
    rw [append_assoc, cons_append]
    exact perm_middle.trans (by rw [← append_assoc]; exact perm_middle.symm)
  have size : (st.set (place base lo) { st.header (place base lo) with
      ptr := st.next c.addr }).size = st.size := by
    rw [set_size]
    exact update_eq_self ..
  constructor
  case low => exact heap.low
  case path =>
    rw [freep_next, set_next, addrs_append]
    exact path.unlink nodup
  case base_size =>
    rw [freep_size, size]
    exact heap.base_size
  case sizes =>
    rw [freep_size, size]
    exact fun a mem => heap.sizes a (permuted.mem_iff.mpr mem)
  case freep => exact place_mem base lo hi
  case gaps => exact (gaps_remove heap.gaps).1
  case tiles => exact heap.tiles.perm permuted

def shortened (st : State) (c : Block) (nunits : Nat) : State :=
  let shorter := st.set c.addr { st.header c.addr with size := c.size - nunits }
  shorter.set (taken c nunits).addr { shorter.header (taken c nunits).addr with size := nunits }

theorem shortened_next (st : State) (c : Block) (nunits : Nat) : (shortened st c nunits).next = st.next := by
  unfold shortened
  rw [set_next]
  refine (update_eq_self ..).trans ?_
  rw [set_next]
  exact update_eq_self ..

theorem shortened_size (st : State) (c : Block) (nunits : Nat) : (shortened st c nunits).size =
      update (update st.size c.addr (c.size - nunits)) (taken c nunits).addr nunits := by
  unfold shortened
  rw [set_size, set_size]

theorem Heap.take_tail (heap : Heap base s0 st (lo ++ c :: hi) alloc) (pos : 0 < nunits) (less : nunits < c.size) :
    Heap base s0 { shortened st c nunits with freep := place base lo }
      (lo ++ ⟨c.addr, c.size - nunits⟩ :: hi) (taken c nunits :: alloc) := by
  have permuted : ((lo ++ c :: hi) ++ alloc).Perm (c :: ((lo ++ hi) ++ alloc)) := by
    rw [append_assoc, cons_append, append_assoc]
    exact perm_middle
  have tiles := heap.tiles.perm permuted
  have whole : c = ⟨c.addr, (c.size - nunits) + nunits⟩ := by
    rw [Nat.sub_add_cancel (Nat.le_of_lt less)]
  rw [whole] at tiles
  have tiles : Tiles s0 st.brk (⟨c.addr, c.size - nunits⟩ :: taken c nunits :: ((lo ++ hi) ++ alloc)) :=
    tiles.split (by omega) pos
  have turned := tiles.perm (.swap ..)
  have regrouped : (⟨c.addr, c.size - nunits⟩ :: taken c nunits :: ((lo ++ hi) ++ alloc)).Perm
      ((lo ++ ⟨c.addr, c.size - nunits⟩ :: hi) ++ taken c nunits :: alloc) := by
    refine .symm (perm_middle.trans (.trans (.cons _ ?_) (.swap ..)))
    rw [append_assoc, append_assoc]
    exact perm_middle
  obtain ⟨gaps, below, above⟩ := gaps_remove heap.gaps
  constructor
  case low => exact heap.low
  case path =>
    rw [freep_next, shortened_next]
    simpa using heap.path
  case base_size =>
    have front := tiles.above heap.low (a := ⟨c.addr, c.size - nunits⟩) (by simp)
    have back := tiles.above heap.low (a := taken c nunits) (by simp [taken])
    rw [freep_size, shortened_size, update_of_ne (Nat.ne_of_lt back), update_of_ne (Nat.ne_of_lt front)]
    exact heap.base_size
  case sizes =>
    rw [freep_size, shortened_size]
    intro a mem
    rcases mem_cons.mp (regrouped.mem_iff.mpr mem) with rfl | mem
    · rw [update_of_ne (turned.addr_ne mem_cons_self)]
      exact update_self ..
    · rcases mem_cons.mp mem with rfl | mem
      · exact update_self ..
      · rw [update_of_ne (turned.addr_ne (mem_cons_of_mem _ mem)), update_of_ne (tiles.addr_ne (mem_cons_of_mem _ mem))]
        exact heap.sizes a (permuted.mem_iff.mpr (mem_cons_of_mem _ mem))
  case freep =>
    have mem := place_mem base lo (c :: hi)
    simpa using mem
  case gaps =>
    refine gaps_insert gaps below ?_
    intro a mem
    have gap := above a mem
    simp only [Gap, Block.stop, headerSize] at gap ⊢
    omega
  case tiles => exact tiles.perm regrouped

theorem Heap.take (heap : Heap base s0 st (lo ++ c :: hi) alloc) (pos : 0 < nunits) (fits : nunits ≤ c.size) :
    ∃ after free', UserHeap.take st nunits (place base lo) c.addr = (after, (taken c nunits).addr) ∧
      Rewrites st after ∧ Heap base s0 after free' (taken c nunits :: alloc) := by
  have size : st.size c.addr = c.size := heap.sizes c (by simp)
  unfold UserHeap.take
  rw [size]
  by_cases exact_ : c.size = nunits
  · have eq : taken c nunits = c := by
      subst exact_
      simp [taken]
    rw [if_pos exact_, eq]
    exact ⟨_, _, rfl, rfl, heap.take_whole⟩
  · rw [if_neg exact_]
    refine ⟨_, _, ?_, ?_, heap.take_tail pos (by omega)⟩
    · simp [shortened, taken]
    · rfl

/-! The loop of `malloc`. -/

def refill (grant : Bool) (nunits fuel : Nat) (st : State) : Option (State × Nat) :=
  match UserHeap.morecore fuel grant st nunits with
  | none => none
  | some (st, p) =>
    if p = 0 then some (st, 0) else mallocLoop grant nunits fuel st p (st.next p)

theorem loop_path {rest : List Nat} {prevp : Nat} (path : Path st.next prevp rest st.freep)
    (clear : st.freep ∉ rest) (grant : Bool) :
    (∃ pre p, pre ∈ prevp :: rest ∧ p = st.next pre ∧ nunits ≤ st.size p ∧ ∀ fuel, rest.length < fuel →
        mallocLoop grant nunits fuel st prevp (st.next prevp) = some (UserHeap.take st nunits pre p)) ∨
    (∀ p ∈ st.freep :: rest, st.size p < nunits) ∧ ∀ fuel,
      mallocLoop grant nunits (rest.length + 1 + fuel) st prevp (st.next prevp) = refill grant nunits fuel st := by
  induction rest generalizing prevp with
  | nil =>
    rw [Chain.Path] at path
    rw [path]
    by_cases fits : nunits ≤ st.size st.freep
    · refine .inl ⟨prevp, _, by simp, path.symm, fits, ?_⟩
      intro fuel enough
      obtain ⟨fuel, rfl⟩ : ∃ less, fuel = less + 1 := ⟨fuel - 1, by omega⟩
      simp only [mallocLoop, if_pos fits]
    · refine .inr ⟨by simpa using fits, ?_⟩
      intro fuel
      rw [length_nil, Nat.zero_add, Nat.add_comm]
      simp only [mallocLoop, if_neg fits, if_true]
      rfl
  | cons node rest ih =>
    obtain ⟨here, path⟩ := path
    rw [mem_cons, not_or] at clear
    rw [here]
    by_cases fits : nunits ≤ st.size node
    · refine .inl ⟨prevp, _, by simp, here.symm, fits, ?_⟩
      intro fuel enough
      obtain ⟨fuel, rfl⟩ : ∃ less, fuel = less + 1 := ⟨fuel - 1, by omega⟩
      simp only [mallocLoop, if_pos fits]
    · have onward : ∀ fuel, mallocLoop grant nunits (fuel + 1) st prevp node =
          mallocLoop grant nunits fuel st node (st.next node) := fun fuel => by
        simp only [mallocLoop, if_neg fits, if_neg (Ne.symm clear.1)]
      rcases ih path clear.2 with ⟨pre, p, mem, next, large, hit⟩ | ⟨small, back⟩
      · refine .inl ⟨pre, p, mem_cons_of_mem _ mem, next, large, ?_⟩
        intro fuel enough
        obtain ⟨fuel, rfl⟩ : ∃ less, fuel = less + 1 := ⟨fuel - 1, by omega⟩
        rw [onward]
        exact hit fuel (by simpa using enough)
      · refine .inr ⟨?_, ?_⟩
        · intro p mem
          simp only [mem_cons] at mem small
          rcases mem with rfl | rfl | inside
          · exact small _ (.inl rfl)
          · omega
          · exact small p (.inr inside)
        · intro fuel
          have n : (node :: rest).length + 1 + fuel = (rest.length + 1 + fuel) + 1 := by
            rw [length_cons]
            omega
          rw [n, onward]
          exact back fuel

section

variable (heap : Heap base s0 st free alloc)

include heap

theorem Heap.found (pos : 0 < nunits) {pre : Nat} (mem : pre ∈ base :: addrs free)
    (large : nunits ≤ st.size (st.next pre)) :
    ∃ lo c hi, free = lo ++ c :: hi ∧ st.next pre = c.addr ∧ pre = place base lo ∧ nunits ≤ c.size := by
  rcases mem_cons.mp (heap.path.step_mem mem) with here | listed
  · rw [here, heap.base_size] at large
    omega
  · obtain ⟨c, inside, eq⟩ := mem_map.mp listed
    obtain ⟨lo, hi, rfl⟩ := append_of_mem inside
    refine ⟨lo, c, hi, rfl, eq.symm, ?_, ?_⟩
    · have path := heap.path
      rw [addrs_append] at path
      exact heap.path.step_inj heap.nodup mem (place_mem base lo (c :: hi)) (eq.symm.trans path.step_cut.symm)
    · rw [← eq, heap.sizes c (by simp)] at large
      exact large

theorem Heap.turn (pos : 0 < nunits) (grant : Bool) :
    (∃ b after free', b.size = nunits ∧ s0 ≤ b.addr ∧ Rewrites st after ∧
      Heap base s0 after free' (b :: alloc) ∧ ∀ fuel, free.length < fuel →
        mallocLoop grant nunits fuel st st.freep (st.next st.freep) = some (after, b.addr)) ∨
    (∀ a ∈ free, a.size < nunits) ∧ ∀ fuel,
      mallocLoop grant nunits (free.length + 1 + fuel) st st.freep (st.next st.freep) =
        refill grant nunits fuel st := by
  obtain ⟨others, ring, permuted⟩ := heap.path.from_member heap.freep
  have nodup := permuted.nodup_iff.mpr heap.nodup
  have n : others.length = free.length := by
    have same := permuted.length_eq
    simpa [addrs] using same
  rcases loop_path ring (nodup_cons.mp nodup).1 grant with
    ⟨pre, p, mem, next, large, hit⟩ | ⟨small, back⟩
  · left
    rw [next] at large hit
    obtain ⟨lo, c, hi, rfl, same, rfl, fits⟩ := heap.found pos (permuted.mem_iff.mp mem) large
    obtain ⟨after, free', result, frame, heap'⟩ := heap.take pos fits
    rw [same, result, n] at hit
    refine ⟨taken c nunits, after, free', rfl, ?_, frame, heap', hit⟩
    exact (heap'.tiles.inside _ (by simp)).1
  · right
    rw [n] at back
    refine ⟨?_, back⟩
    intro a mem
    have size := heap.sizes a (mem_append_left _ mem)
    rw [← size]
    apply small
    rw [permuted.mem_iff]
    exact mem_cons_of_mem _ (mem_map_of_mem mem)

theorem Heap.freep_ne (proper : 0 < base) : st.freep ≠ 0 := by
  have least : base ≤ st.freep := by
    rcases mem_cons.mp heap.freep with here | listed
    · exact Nat.le_of_eq here.symm
    · exact Nat.le_of_lt ((pairwise_cons.mp heap.increasing).1 _ listed)
  omega

end

theorem Backed.rewrites {after : State} (backed : Backed s0 st) (frame : Rewrites st after) : Backed s0 after := by
  rw [frame]
  exact ⟨backed.units, backed.bound⟩

theorem Rewrites.allocated {after : State} (frame : Rewrites st after) : after.allocated = st.allocated := by
  rw [frame]

def Gives (base start nunits : Nat) (alloc : List Block) (after : State) (p : Nat) : Prop :=
  p = 0 ∧ (∃ free, Heap base start after free alloc) ∨ p ≠ 0 ∧ ∃ free, Heap base start after free (⟨p, nunits⟩ :: alloc)

theorem gives_block {after : State} {free' : List Block} (heap : Heap base s0 after free' (b :: alloc))
    (size : b.size = nunits) : Gives base s0 nunits alloc after b.addr := by
  have above := heap.tiles.above heap.low (a := b) (by simp)
  refine .inr ⟨by omega, free', ?_⟩
  rw [← size]
  exact heap

theorem Heap.loop (heap : Heap base s0 st free alloc) (backed : Backed s0 st) (proper : 0 < base)
    (pos : 0 < nunits) (grant : Bool) : ∃ bound after p, (∀ fuel, bound ≤ fuel →
        mallocLoop grant nunits fuel st st.freep (st.next st.freep) = some (after, p)) ∧
      after.allocated = st.allocated ∧ Backed s0 after ∧ Gives base s0 nunits alloc after p := by
  rcases heap.turn pos grant with ⟨b, after, free', size, _, frame, heap', found⟩ | ⟨_, back⟩
  · exact ⟨free.length + 1, after, b.addr, found, frame.allocated, backed.rewrites frame, gives_block heap' size⟩
  · have enough : ∀ bound fuel, free.length + 1 + bound ≤ fuel →
        ∃ rest, bound ≤ rest ∧ fuel = free.length + 1 + rest := fun bound fuel le =>
      ⟨fuel - (free.length + 1), by omega, by omega⟩
    rcases heap.morecore backed grant with none_ | ⟨grown, free', more, ⟨c, mem, large⟩, same, backed', heap'⟩
    · refine ⟨free.length + 1 + 0, st, 0, ?_, rfl, backed, .inl ⟨rfl, free, heap⟩⟩
      intro fuel le
      obtain ⟨rest, _, rfl⟩ := enough 0 fuel le
      rw [back, refill, none_]
      rfl
    · rcases heap'.turn pos grant with ⟨b, after, free'', size, _, frame, result, found⟩ | ⟨small, _⟩
      · refine ⟨free.length + 1 + (free.length + free'.length + 1), after, b.addr, ?_,
          frame.allocated.trans same, backed'.rewrites frame, gives_block result size⟩
        intro fuel le
        obtain ⟨rest, bound, rfl⟩ := enough _ fuel le
        rw [back, refill, more rest (by omega)]
        simp only [if_neg (heap'.freep_ne proper)]
        exact found rest (by omega)
      · have less := small c mem
        omega

end

end Xv6.UserHeap
