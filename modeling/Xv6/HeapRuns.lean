import Xv6.HeapMalloc

/-! Runs of a program that calls `malloc` and `free` and writes to the blocks it was given. -/

namespace Xv6.UserHeap

open Chain Reach List

def blocks (st : State) : List Block := st.allocated.map Request.block

structure Sound (base start : Nat) (st : State) : Prop where
  backed : Backed start st
  list : st.freep = 0 ∧ st.allocated = [] ∧ st.brk = start ∨ ∃ free, Heap base start st free (blocks st)
  sizes : ∀ request ∈ st.allocated, request.block.size = nunitsOf request.nbytes

section

variable {base s0 : Nat} {s : State} {free alloc others : List Block}

theorem Sound.prepare (sound : Sound base s0 s) (proper : 0 < base) (low : base + headerSize ≤ s0) :
    Backed s0 (prepare base s) ∧ (prepare base s).allocated = s.allocated ∧
      ∃ free, Heap base s0 (prepare base s) free (blocks s) := by
  rcases sound.list with ⟨fresh, empty, eq⟩ | ⟨free, heap⟩
  · unfold UserHeap.prepare
    rw [if_pos fresh]
    refine ⟨⟨sound.backed.units, sound.backed.bound⟩, rfl, [], ?_⟩
    simp only [blocks, empty, map_nil]
    constructor
    case low => exact low
    case path =>
      rw [freep_next, set_next]
      exact Function.update_self ..
    case base_size =>
      rw [freep_size, set_size]
      exact Function.update_self ..
    case sizes => simp
    case freep => simp
    case gaps => exact .nil
    case tiles =>
      change Tiles s0 s.brk []
      rw [eq]
      exact Tiles.empty s0
  · unfold UserHeap.prepare
    rw [if_neg (heap.freep_ne proper)]
    exact ⟨sound.backed, rfl, free, heap⟩

theorem Heap.history (heap : Heap base s0 s free alloc) (allocated : List Request) :
    Heap base s0 { s with allocated } free alloc :=
  ⟨heap.low, heap.path, heap.base_size, heap.sizes, heap.freep, heap.gaps, heap.tiles⟩

theorem Sound.malloc (sound : Sound base s0 s) (proper : 0 < base) (low : base + headerSize ≤ s0)
    (nbytes : Nat) (grant : Bool) :
    ∃ lt after p, (∀ fuel, lt ≤ fuel → malloc base fuel grant s nbytes = some (after, p)) ∧ Sound base s0 after := by
  obtain ⟨backed, same, free, heap⟩ := sound.prepare proper low
  have pos : 0 < nunitsOf nbytes := Nat.succ_pos _
  obtain ⟨lt, after, p, ends, kept, backed', gives⟩ := heap.loop backed proper pos grant
  have allocated := kept.trans same
  rcases gives with ⟨rfl, free', heap'⟩ | ⟨some_, free', heap'⟩
  · refine ⟨lt, after, 0, ?_, backed', .inr ⟨free', ?_⟩, ?_⟩
    · intro fuel enough
      simp only [UserHeap.malloc, ends fuel enough]
      rfl
    · rw [blocks, allocated]
      exact heap'
    · rw [allocated]
      exact sound.sizes
  · let req : Request := ⟨⟨p, nunitsOf nbytes⟩, nbytes⟩
    refine ⟨lt, { after with allocated := req :: after.allocated }, p + headerSize, ?_, ?_⟩
    · intro fuel enough
      simp only [UserHeap.malloc, ends fuel enough, Option.map_some, if_neg some_]
      rfl
    · refine ⟨⟨backed'.units, backed'.bound⟩, .inr ⟨free', ?_⟩, ?_⟩
      · simp only [blocks, map_cons, allocated]
        exact heap'.history _
      · intro o mem
        simp only [allocated, mem_cons] at mem
        rcases mem with rfl | mem
        · rfl
        · exact sound.sizes o mem

theorem Heap.request (heap : Heap base s0 s free (blocks s)) {req : Request} (mem : req ∈ s.allocated) :
    s.allocated.Perm (req :: s.allocated.filter fun o => o.block.addr ≠ req.block.addr) := by
  obtain ⟨pre, after, whole⟩ := append_of_mem mem
  have tiles := heap.tiles
  rw [blocks, whole, map_append, map_cons] at tiles
  have moved : (free ++ (pre.map Request.block ++ req.block :: after.map Request.block)).Perm
      (req.block :: (free ++ (pre ++ after).map Request.block)) := by
    rw [map_append, ← append_assoc, ← append_assoc]
    exact perm_middle
  have turned := tiles.perm moved
  have others : ∀ o ∈ pre ++ after, o.block.addr ≠ req.block.addr := by
    intro o low
    exact turned.addr_ne (mem_append_right _ (mem_map_of_mem low))
  have kept : (s.allocated.filter fun o => o.block.addr ≠ req.block.addr) = pre ++ after := by
    rw [whole, filter_append, filter_cons_of_neg (by simp), ← filter_append]
    exact filter_eq_self.mpr fun o low => by simpa using others o low
  rw [kept, whole]
  exact perm_middle

theorem Heap.perm (heap : Heap base s0 s free alloc) (permuted : alloc.Perm others) : Heap base s0 s free others where
  low := heap.low
  path := heap.path
  base_size := heap.base_size
  sizes := fun a mem => heap.sizes a ((permuted.append_left free).mem_iff.mpr mem)
  freep := heap.freep
  gaps := heap.gaps
  tiles := heap.tiles.perm (permuted.append_left free)

section

variable (sound : Sound base s0 s)

include sound

theorem Sound.released {req : Request} (mem : req ∈ s.allocated) : ∃ lt after, (∀ fuel, lt ≤ fuel →
        step base fuel s (.free (req.block.addr + headerSize)) = some after) ∧ Sound base s0 after := by
  rcases sound.list with ⟨_, empty, _⟩ | ⟨free, heap⟩
  · rw [empty] at mem
    cases mem
  · have permuted := heap.request mem
    obtain ⟨after, free', ends, frame, _, heap'⟩ := (heap.perm (permuted.map Request.block)).released
    let left := s.allocated.filter fun o => o.block.addr ≠ req.block.addr
    refine ⟨free.length + 1, { after with allocated := left }, ?_, ?_⟩
    · intro fuel enough
      simp only [step, Nat.add_sub_cancel, ends fuel enough]
      rfl
    · have backed := sound.backed.rewrites frame
      refine ⟨⟨backed.units, backed.bound⟩, .inr ⟨free', heap'.history _⟩, ?_⟩
      exact fun o low => sound.sizes o (mem_filter.mp low).1

theorem Sound.write {header : Nat → Header} (ok : Allowed s (.write header)) : Sound base s0 { s with header } := by
  refine ⟨⟨sound.backed.units, sound.backed.bound⟩, ?_, sound.sizes⟩
  rcases sound.list with fresh | ⟨free, heap⟩
  · exact .inl fresh
  · right
    have kept : ∀ p ∈ base :: addrs (free ++ blocks s), header p = s.header p := by
      intro p mem
      by_contra changed
      obtain ⟨req, inside, above, below⟩ := ok p changed
      have block : req.block ∈ free ++ blocks s :=
        mem_append_right _ (mem_map_of_mem inside)
      rcases mem_cons.mp mem with rfl | listed
      · have lt := heap.tiles.above heap.low block
        omega
      · obtain ⟨a, held, rfl⟩ := mem_map.mp listed
        have o : a ≠ req.block := by
          rintro rfl
          omega
        have apart := heap.tiles.apart.forall held block o
        have size := heap.tiles.positive a held
        simp only [Apart, Block.stop, headerSize] at apart above below
        omega
    refine ⟨free, heap.low, heap.path.agree ?_, ?_, ?_, heap.freep, heap.gaps, heap.tiles⟩
    · intro p mem
      refine congrArg Header.ptr (kept p ?_)
      rw [addrs_append, ← cons_append]
      exact mem_append_left _ mem
    · exact (congrArg Header.size (kept base mem_cons_self)).trans heap.base_size
    · intro a mem
      refine (congrArg Header.size (kept a.addr ?_)).trans (heap.sizes a mem)
      exact mem_cons_of_mem _ (mem_map_of_mem mem)

theorem Sound.ends (proper : 0 < base) (low : base + headerSize ≤ s0) {action : Action}
    (ok : Allowed s action ∨ ∃ nbytes grant, action = .malloc nbytes grant) :
    ∃ lt after, (∀ fuel, lt ≤ fuel → step base fuel s action = some after) ∧ Sound base s0 after := by
  cases action with
  | malloc nbytes grant =>
    obtain ⟨lt, after, p, ends, sound'⟩ := sound.malloc proper low nbytes grant
    refine ⟨lt, after, ?_, sound'⟩
    intro fuel enough
    rw [step, ends fuel enough]
    rfl
  | free ap =>
    obtain ⟨req, mem, rfl⟩ := ok.resolve_right (by simp)
    exact sound.released mem
  | write header => exact ⟨0, _, fun _ _ => rfl, sound.write (ok.resolve_right (by simp))⟩

end

end

/-! More fuel gives the same result. -/

variable {fuel more : Nat} {s : State}

section

variable (le : fuel ≤ more)

include le

theorem free_mono {after : State} {bp : Nat} (done : free fuel s bp = some after) : free more s bp = some after := by
  unfold free at done ⊢
  obtain ⟨p, stopped, res⟩ := Option.map_eq_some_iff.mp done
  rw [follow_mono le stopped]
  exact congrArg some res

theorem morecore_mono {grant : Bool} {nunits : Nat} {res : State × Nat}
    (done : morecore fuel grant s nunits = some res) : morecore more grant s nunits = some res := by
  unfold morecore at done ⊢
  generalize (if nunits < 4096 then 4096 else nunits) = nu at done ⊢
  cases got : sbrk grant s (nu * headerSize) with
  | none =>
    simp only [got] at done ⊢
    exact done
  | some grown =>
    simp only [got] at done ⊢
    obtain ⟨after, freed, rfl⟩ := Option.map_eq_some_iff.mp done
    simp only [free_mono le freed, Option.map_some]

theorem mallocLoop_mono {grant : Bool} {nunits : Nat} {prevp p : Nat} {res : State × Nat}
    (done : mallocLoop grant nunits fuel s prevp p = some res) : mallocLoop grant nunits more s prevp p = some res := by
  induction fuel generalizing more s prevp p with
  | zero => cases done
  | succ fuel ih =>
    obtain ⟨more, rfl⟩ : ∃ less, more = less + 1 := ⟨more - 1, by omega⟩
    have le : fuel ≤ more := by omega
    simp only [mallocLoop] at done ⊢
    split at done
    · rename_i fits
      rw [if_pos fits]
      exact done
    · rename_i small
      rw [if_neg small]
      split at done
      · rename_i back
        rw [if_pos back]
        split at done
        · cases done
        · rename_i grown next got
          rw [morecore_mono le got]
          split at done
          · rename_i failed
            simp only [if_pos failed]
            exact done
          · rename_i some_
            simp only [if_neg some_]
            exact ih le done
      · rename_i on
        rw [if_neg on]
        exact ih le done

theorem step_mono {base : Nat} {after : State} {action : Action}
    (done : step base fuel s action = some after) : step base more s action = some after := by
  cases action with
  | malloc nbytes grant =>
    obtain ⟨res, got, rfl⟩ := Option.map_eq_some_iff.mp done
    obtain ⟨res, looped, rfl⟩ := Option.map_eq_some_iff.mp got
    simp only [step, malloc, mallocLoop_mono le looped, Option.map_some]
  | free ap =>
    obtain ⟨res, freed, rfl⟩ := Option.map_eq_some_iff.mp done
    simp only [step, free_mono le freed, Option.map_some]
  | write header => exact done

end

section

variable {base s0 start : Nat} {s st : State}

theorem Sound.next (sound : Sound base s0 s) (proper : 0 < base) (low : base + headerSize ≤ s0)
    {action : Action} (ok : Allowed s action ∨ ∃ nbytes grant, action = .malloc nbytes grant)
    {s' : State} (next : Next base s action s') : Sound base s0 s' := by
  obtain ⟨fuel, done⟩ := next
  obtain ⟨lt, after, ends, sound'⟩ := sound.ends proper low ok
  have fst := step_mono (Nat.le_max_left fuel lt) done
  rw [ends _ (Nat.le_max_right fuel lt), Option.some.injEq] at fst
  rw [← fst]
  exact sound'

theorem Sound.initial (header : Nat → Header) (room : s0 < KERNBASE) : Sound base s0 (State.initial header s0) where
  backed := ⟨rfl, room⟩
  list := .inl ⟨rfl, rfl, rfl⟩
  sizes := by simp [State.initial]

theorem Sound.reached (header : Nat → Header) (proper : 0 < base) (low : base + headerSize ≤ s0)
    (room : s0 < KERNBASE) (reached : Reachable (Next base) Allowed (State.initial header s0) s) : Sound base s0 s := by
  refine reached.invariant (Sound base s0) (Sound.initial header room) ?_
  intro pre action after sound ok next
  exact sound.next proper low (.inl ok) next

theorem usable (nbytes : Nat) : nbytes ≤ headerSize * (nunitsOf nbytes - 1) := by
  simp only [nunitsOf, headerSize]
  omega

/-- In every state a program reaches by `malloc`, `free` and writes to its blocks, the free list is a
ring in the order of addresses, apart from the allocated blocks, and the next call ends. -/
theorem heap_invariant (header : Nat → Header) (proper : 0 < base) (low : base + headerSize ≤ start)
    (room : start < KERNBASE) (reached : Reachable (Next base) Allowed (State.initial header start) st) :
    (st.freep = 0 ∧ st.allocated = [] ∧ st.obtained = 0 ∨
      ∃ free : List Block, Path st.next base (addrs free) base ∧ st.freep ∈ base :: addrs free ∧
        (base :: addrs free).Pairwise (· < ·) ∧ (∀ b ∈ free, st.size b.addr = b.size) ∧
        free.Pairwise Gap ∧ (free ++ blocks st).Pairwise Apart ∧
        (∀ b ∈ free ++ blocks st, base + headerSize ≤ b.addr ∧ b.stop ≤ st.brk) ∧
        units free + units (blocks st) = st.obtained) ∧
    (∀ request ∈ st.allocated, request.nbytes ≤ headerSize * (request.block.size - 1)) ∧ ∀ action, Allowed st action →
      ∃ bound after, ∀ fuel, bound ≤ fuel → step base fuel st action = some after := by
  have sound := Sound.reached header proper low room reached
  refine ⟨?_, ?_, ?_⟩
  · rcases sound.list with ⟨fresh, empty, same⟩ | ⟨free, heap⟩
    · have units := sound.backed.units
      simp only [headerSize] at units
      exact Or.inl ⟨fresh, empty, by omega⟩
    · refine Or.inr ⟨free, heap.path, heap.freep, heap.increasing, ?_, heap.gaps, heap.tiles.apart, ?_, ?_⟩
      · exact fun b member => heap.sizes b (List.mem_append_left _ member)
      · intro b member
        have inside := heap.tiles.inside b member
        exact ⟨Nat.le_trans low inside.1, inside.2⟩
      · have total := heap.tiles.total
        have units := sound.backed.units
        rw [units_append] at total
        simp only [headerSize] at total units
        omega
  · intro request member
    rw [sound.sizes request member]
    exact usable request.nbytes
  · intro action ok
    obtain ⟨bound, after, ends, _⟩ := sound.ends proper low (Or.inl ok)
    exact ⟨bound, after, ends⟩

end

def mayCall (st : State) : Action → Bool
  | .malloc nbytes _ => nbytes < 2 ^ 30
  | .free ap => st.allocated.any fun request => ap = request.block.addr + headerSize
  | .write _ => false

theorem mayCall_allowed (s : State) (action : Action) (may : mayCall s action = true) : Allowed s action := by
  cases action with
  | malloc nbytes grant =>
    simp only [mayCall, decide_eq_true_eq] at may
    exact may
  | free ap => simpa [mayCall, Allowed] using may
  | write header => cases may

def twoBlocks : List Action := [.malloc 100 true, .malloc 50 true, .free 36760]

theorem heap_invariant_freed : ∃ st, Reachable (Next 8) Allowed (State.initial (fun _ => ⟨0, 0⟩) 4096) st ∧
      st.allocated = [⟨⟨36688, 8⟩, 50⟩] ∧ ∃ bound after, ∀ fuel, bound ≤ fuel →
        step 8 fuel st (.free 36696) = some after := by
  have checked : (replay (step 8 10) (fun st action => mayCall st action = true) twoBlocks
      (State.initial (fun _ => ⟨0, 0⟩) 4096)).any (fun st => st.allocated = [⟨⟨36688, 8⟩, 50⟩]) = true := by
    decide +kernel
  have runs : ∀ before action after, mayCall before action = true → step 8 10 before action = some after →
      Next 8 before action after := fun _ _ _ _ taken => ⟨10, taken⟩
  obtain ⟨st, reached, found⟩ := Reachable.of_replay runs checked
  have held := of_decide_eq_true found
  have reached := reached.widen mayCall_allowed
  refine ⟨st, reached, held, ?_⟩
  have facts := heap_invariant (fun _ => ⟨0, 0⟩) (by decide) (by decide) (by decide) reached
  exact facts.2.2 (.free 36696) (by rw [Allowed, held]; exact ⟨_, List.mem_singleton_self _, rfl⟩)

end Xv6.UserHeap
