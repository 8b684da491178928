import Xv6.HeapRuns

/-! Requests to `malloc` as 32-bit words: the units are counted, and their bytes passed on to `sbrk`
as a signed `int`, modulo `2 ^ 32`. -/

namespace Xv6.UserHeap

open Reach BitVec Option

/-- The new size, or none for -1; whether there is memory is up to the kernel. -/
def growproc (grant : Bool) (sz n : BitVec 32) : Option (BitVec 32) :=
  if 0 < n.toInt then
    -- `allocuvm`
    if KERNBASE ≤ (sz + n).toNat then none
    else if sz + n < sz then some sz
    else if grant then some (sz + n) else none
  else if n.toInt < 0 then
    -- `deallocuvm`, which takes the new size for an unsigned one
    let newsz := if sz ≤ sz + n then sz else sz + n
    if newsz = 0 then none else some newsz
  else some sz

def sysSbrk (grant : Bool) (st : State) (n : BitVec 32) : Option (State × Nat) :=
  (growproc grant (BitVec.ofNat 32 st.brk) n).map fun sz => ({ st with brk := sz.toNat }, st.brk)

def nunitsWord (nbytes : BitVec 32) : BitVec 32 := (nbytes + 8 - 1) / 8 + 1

def morecoreWord (fuel : Nat) (grant : Bool) (st : State) (nunits : BitVec 32) : Option (State × Nat) :=
  let nu := if nunits < 4096 then 4096 else nunits
  match sysSbrk grant st (nu * 8) with
  | none => some (st, 0)
  | some (grown, hp) =>
    let sized := { grown.set hp { grown.header hp with size := nu.toNat } with
      obtained := grown.obtained + nu.toNat }
    (free fuel sized hp).map fun st => (st, st.freep)

def mallocLoopWord (grant : Bool) (nunits : BitVec 32) : Nat → State → Nat → Nat → Option (State × Nat)
  | 0, _, _, _ => none
  | fuel + 1, st, prevp, p =>
    if nunits.toNat ≤ st.size p then some (take st nunits.toNat prevp p)
    else if p = st.freep then
      match morecoreWord fuel grant st nunits with
      | none => none
      | some (st, p) =>
        if p = 0 then some (st, 0) else mallocLoopWord grant nunits fuel st p (st.next p)
    else mallocLoopWord grant nunits fuel st p (st.next p)

def mallocWord (base fuel : Nat) (grant : Bool) (st : State) (nbytes : BitVec 32) : Option (State × Nat) :=
  let st := prepare base st
  (mallocLoopWord grant (nunitsWord nbytes) fuel st st.freep (st.next st.freep)).map fun (st, p) =>
      if p = 0 then (st, 0)
      else ({ st with
        allocated := ⟨⟨p, (nunitsWord nbytes).toNat⟩, nbytes.toNat⟩ :: st.allocated }, p + headerSize)

def stepWord (base fuel : Nat) (st : State) : Action → Option State
  | .malloc nbytes grant => (mallocWord base fuel grant st (BitVec.ofNat 32 nbytes)).map Prod.fst
  | action => step base fuel st action

def NextWord (base : Nat) (st : State) (action : Action) (st' : State) : Prop :=
  ∃ fuel, stepWord base fuel st action = some st'

def Bounded (st : State) : Action → Prop
  | .malloc nbytes _ => nbytes ≤ 2 ^ 31 - 16
  | action => Allowed st action

/-! Without a wrap the words count as numbers do. -/

section

variable {s : State} {fuel base s0 start : Nat} {grant : Bool} {st : State}

theorem sysSbrk_eq (room : s.brk < KERNBASE) {n : BitVec 32} (pos : 0 < n.toNat)
    (small : n.toNat < 2 ^ 31) : sysSbrk grant s n = sbrk grant s n.toNat := by
  simp only [KERNBASE] at room
  have sz : (BitVec.ofNat 32 s.brk).toNat = s.brk := by
    rw [toNat_ofNat, Nat.mod_eq_of_lt (by omega)]
  have sum : (BitVec.ofNat 32 s.brk + n).toNat = s.brk + n.toNat := by
    rw [toNat_add, sz, Nat.mod_eq_of_lt (by omega)]
  have signed : n.toInt = n.toNat := toInt_eq_toNat_of_lt (by omega)
  have upward : ¬BitVec.ofNat 32 s.brk + n < BitVec.ofNat 32 s.brk := by
    rw [lt_def, sum, sz]
    omega
  simp only [sysSbrk, growproc, sbrk]
  rw [if_pos (by omega), sum, if_neg upward]
  by_cases high : KERNBASE ≤ s.brk + n.toNat
  · rw [if_pos high, if_neg (by omega)]
    rfl
  · rw [if_neg high]
    cases grant with
    | false => simp
    | true =>
      rw [if_pos rfl, if_pos ⟨rfl, by omega⟩, map_some, sum]

theorem morecoreWord_eq (room : s.brk < KERNBASE) {nunits : BitVec 32} (small : nunits.toNat < 2 ^ 28) :
    morecoreWord fuel grant s nunits = morecore fuel grant s nunits.toNat := by
  have least : (4096 : BitVec 32).toNat = 4096 := rfl
  have n : (if nunits < 4096 then 4096 else nunits : BitVec 32).toNat =
      if nunits.toNat < 4096 then 4096 else nunits.toNat := by
    simp only [lt_def, least]
    split <;> rfl
  have size : ∀ nu : BitVec 32, nu.toNat < 2 ^ 28 → (nu * 8).toNat = nu.toNat * headerSize := by
    intro nu lt
    have eight : (8 : BitVec 32).toNat = 8 := rfl
    rw [toNat_mul, eight, headerSize, Nat.mod_eq_of_lt (by omega)]
  simp only [morecoreWord, morecore, ← n]
  generalize heq : (if nunits < 4096 then 4096 else nunits : BitVec 32) = nu at n ⊢
  have bounds : 0 < nu.toNat ∧ nu.toNat < 2 ^ 28 := by
    rw [n]
    split <;> omega
  have bytes := size nu bounds.2
  simp only [headerSize] at bytes
  rw [sysSbrk_eq room (by omega) (by omega), bytes]
  rfl

theorem free_brk {after : State} {bp : Nat} (done : free fuel s bp = some after) : after.brk = s.brk := by
  obtain ⟨p, _, rfl⟩ := map_eq_some_iff.mp done
  simp only
  split <;> split <;> rfl

theorem sbrk_brk {bytes hp : Nat} {grown : State} (done : sbrk grant s bytes = some (grown, hp)) :
    grown.brk < KERNBASE := by
  unfold sbrk at done
  split at done <;> cases done
  rename_i fits
  exact fits.2

theorem morecore_brk {nunits p : Nat} {after : State} (room : s.brk < KERNBASE)
    (done : morecore fuel grant s nunits = some (after, p)) : after.brk < KERNBASE := by
  simp only [morecore] at done
  split at done
  · cases done
    exact room
  · rename_i grown hp granted
    obtain ⟨freed, found, eq⟩ := map_eq_some_iff.mp done
    cases eq
    have below : grown.brk < KERNBASE := sbrk_brk granted
    rw [free_brk found]
    exact below

theorem mallocLoopWord_eq {nunits : BitVec 32} (small : nunits.toNat < 2 ^ 28) (prevp p : Nat)
    (room : s.brk < KERNBASE) : mallocLoopWord grant nunits fuel s prevp p =
      mallocLoop grant nunits.toNat fuel s prevp p := by
  induction fuel generalizing s prevp p with
  | zero => rfl
  | succ fuel ih =>
    simp only [mallocLoopWord, mallocLoop, morecoreWord_eq room small, ih p _ room]
    cases more : morecore fuel grant s nunits.toNat with
    | none => rfl
    | some res => simp only [ih _ _ (morecore_brk room more)]

theorem mallocWord_eq {nbytes : BitVec 32} (small : nbytes.toNat ≤ 2 ^ 31 - 16) (room : s.brk < KERNBASE) :
    mallocWord base fuel grant s nbytes = malloc base fuel grant s nbytes.toNat := by
  have units : (nunitsWord nbytes).toNat = nunitsOf nbytes.toNat := by
    have eight : (8 : BitVec 32).toNat = 8 := rfl
    have one : (1 : BitVec 32).toNat = 1 := rfl
    simp only [nunitsWord, nunitsOf, headerSize, toNat_add, toNat_udiv, toNat_sub, eight, one]
    omega
  have lt : (nunitsWord nbytes).toNat < 2 ^ 28 := by
    rw [units, nunitsOf, headerSize]
    omega
  have eq : (prepare base s).brk < KERNBASE := by
    unfold prepare
    split
    · exact room
    · exact room
  simp only [mallocWord, malloc, mallocLoopWord_eq lt _ _ eq, units]

theorem Sound.nextWord (sound : Sound base s0 s) (proper : 0 < base) (low : base + headerSize ≤ s0)
    {action : Action} (bounded : Bounded s action) {s' : State}
    (next : NextWord base s action s') : Sound base s0 s' := by
  obtain ⟨fuel, done⟩ := next
  cases action with
  | malloc nbytes grant =>
    have word : (BitVec.ofNat 32 nbytes).toNat = nbytes := by
      have small : nbytes ≤ 2 ^ 31 - 16 := bounded
      rw [toNat_ofNat, Nat.mod_eq_of_lt (by omega)]
    have small : (BitVec.ofNat 32 nbytes).toNat ≤ 2 ^ 31 - 16 := by
      rw [word]
      exact bounded
    rw [stepWord, mallocWord_eq small sound.backed.bound, word] at done
    exact sound.next proper low (.inr ⟨nbytes, grant, rfl⟩) ⟨fuel, done⟩
  | free ap => exact sound.next proper low (.inl (show Allowed s (.free ap) from bounded)) ⟨fuel, done⟩
  | write header =>
    exact sound.next proper low (.inl (show Allowed s (.write header) from bounded)) ⟨fuel, done⟩

/-- What `malloc` returns, in every state reached while all requests are at most `2 ^ 31 - 16`
bytes: for such a request the block has the bytes asked for and lies in the memory from `sbrk`. -/
theorem malloc_not_short (header : Nat → Header) (proper : 0 < base) (low : base + headerSize ≤ start)
    (room : start < KERNBASE) (reached : Reachable (NextWord base) Bounded (State.initial header start) st)
    {nbytes : BitVec 32} (bounded : nbytes.toNat ≤ 2 ^ 31 - 16) {after : State} {p : Nat}
    (ret : mallocWord base fuel grant st nbytes = some (after, p)) (some_ : p ≠ 0) :
    nbytes.toNat ≤ headerSize * (after.size (p - headerSize) - 1) ∧ start ≤ p - headerSize ∧
      p - headerSize + headerSize * after.size (p - headerSize) ≤ after.brk := by
  have sound : Sound base start st := reached.invariant (Sound base start)
    (Sound.initial header room) fun _ _ _ sound bounded next => sound.nextWord proper low bounded next
  rw [mallocWord_eq bounded sound.backed.bound] at ret
  have sound' : Sound base start after := sound.next proper low (Or.inr ⟨nbytes.toNat, grant, rfl⟩)
    ⟨fuel, by rw [step, ret]; rfl⟩
  obtain ⟨⟨grown, q⟩, _, r⟩ := Option.map_eq_some_iff.mp ret
  simp only at r
  split at r
  · cases r
    exact absurd rfl some_
  · cases r
    rw [Nat.add_sub_cancel]
    rcases sound'.list with ⟨_, empty, _⟩ | ⟨free, heap⟩
    · cases empty
    · have request : (⟨⟨q, nunitsOf nbytes.toNat⟩, nbytes.toNat⟩ : Request) ∈
          ⟨⟨q, nunitsOf nbytes.toNat⟩, nbytes.toNat⟩ :: grown.allocated := List.mem_cons_self
      have member := List.mem_append_right free (List.mem_map_of_mem (f := Request.block) request)
      have inside := heap.tiles.inside _ member
      rw [heap.sizes _ member]
      exact ⟨usable nbytes.toNat, inside⟩

end

theorem malloc_not_short_first : ∃ after,
    mallocWord 8 10 true (State.initial (fun _ => ⟨0, 0⟩) 4096) 100 = some (after, 36760) ∧
      100 ≤ headerSize * (after.size 36752 - 1) := by
  have checked : (mallocWord 8 10 true (State.initial (fun _ => ⟨0, 0⟩) 4096) 100).any
      (fun r => r.2 = 36760) = true := by
    decide +kernel
  obtain ⟨⟨after, p⟩, ret, found⟩ := (Option.any_eq_true _ _).mp checked
  obtain rfl : p = 36760 := of_decide_eq_true found
  exact ⟨after, ret, (malloc_not_short (fun _ => ⟨0, 0⟩) (by decide) (by decide) (by decide) .start
    (by decide) ret (by decide)).1⟩

/-- The largest request gets a block without a byte to use, and one of `2 ^ 31` bytes a block of which
nothing lies below the break. -/
theorem malloc_short : ∃ after p, mallocWord 8 10 true (State.initial (fun _ => ⟨0, 0⟩) 4096) 0xffffffff =
    some (after, p) ∧ p ≠ 0 ∧ after.size (p - headerSize) = 1 := by
  have checked : (mallocWord 8 10 true (State.initial (fun _ => ⟨0, 0⟩) 4096) 0xffffffff).any
      (fun r => r.2 ≠ 0 ∧ r.1.size (r.2 - headerSize) = 1) = true := by
    decide +kernel
  obtain ⟨⟨after, p⟩, ret, found⟩ := (Option.any_eq_true _ _).mp checked
  exact ⟨after, p, ret, of_decide_eq_true found⟩

end Xv6.UserHeap
