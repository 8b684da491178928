import Xv6.Param
import Xv6.Lib.Chain
import Xv6.Lib.Reach

/-! The list of buffers (`bio.c`): `binit`, and the sections of `bget` and `brelse` under
`bcache.lock`, over the pointers `prev` and `next`. The flags of a buffer change under its own
lock, here at any time. -/

namespace Xv6.BufferList

open Chain Reach List Function

def B_DIRTY : BitVec 32 := 0x4

abbrev Index := Fin NBUF

abbrev Node := Option Index

def head : Node := none

structure Buf where
  flags : BitVec 32
  dev : BitVec 32
  blockno : BitVec 32
  refcnt : BitVec 32

/-- The cache, and as history when each buffer was last let go of: by `binit`, or by the `brelse` of its last
reference. -/
structure State where
  buf : Index → Buf
  next : Node → Node
  prev : Node → Node
  clock : Nat
  released : Index → Nat

def State.setBuf (st : State) (b : Index) (buf : Buf) : State :=
  { st with buf := update st.buf b buf }

def State.pushFront (st : State) (b : Index) : State :=
  { st with
    next := update (update st.next (some b) (st.next head)) head (some b)
    prev := update (update st.prev (some b) head) (st.next head) (some b) }

def State.stamp (st : State) (b : Index) : State :=
  { st with clock := st.clock + 1, released := update st.released b st.clock }

def State.unlink (st : State) (b : Index) : State :=
  { st with
    prev := update st.prev (st.next (some b)) (st.prev (some b))
    next := update st.next (st.prev (some b)) (st.next (some b)) }

def State.zero (next prev : Node → Node) : State where
  buf := fun _ => ⟨0, 0, 0, 0⟩
  next := next
  prev := prev
  clock := 0
  released := fun _ => 0

def binit (st : State) : State :=
  (List.finRange NBUF).foldl (fun st b => (st.pushFront b).stamp b) { st with
    prev := update st.prev head head
    next := update st.next head head }

/-- How the section of `bget` ends; `stuck` if a loop does not. -/
inductive Got where
  | buffer (b : Index) (st : State)
  | panic
  | stuck

def State.holds (st : State) (dev blockno : BitVec 32) : Node → Bool
  | some b => (st.buf b).dev = dev ∧ (st.buf b).blockno = blockno
  | none => false

def State.unused (st : State) : Node → Bool
  | some b => (st.buf b).refcnt = 0 ∧ (st.buf b).flags &&& B_DIRTY = 0
  | none => false

def bget (st : State) (dev blockno : BitVec 32) : Got :=
  match search st.next head (st.holds dev blockno) (NBUF + 1) (st.next head) with
  | .found (some b) => .buffer b (st.setBuf b { st.buf b with refcnt := (st.buf b).refcnt + 1 })
  | .absent =>
    match search st.prev head st.unused (NBUF + 1) (st.prev head) with
    | .found (some b) => .buffer b (st.setBuf b ⟨0, dev, blockno, 1⟩)
    | .absent => .panic
    | _ => .stuck
  | _ => .stuck

def brelse (st : State) (b : Index) : State :=
  let refcnt := (st.buf b).refcnt - 1
  let st := st.setBuf b { st.buf b with refcnt }
  if refcnt = 0 then (st.unlink b).pushFront b else st

inductive Action where
  | bget (dev blockno : BitVec 32)
  | brelse (b : Index)
  | flags (b : Index) (value : BitVec 32)

def step (st : State) : Action → Option State
  | .bget dev blockno =>
    match bget st dev blockno with
    | .buffer _ st => some st
    | _ => none
  | .brelse b =>
    let st := brelse st b
    some (if (st.buf b).refcnt = 0 then st.stamp b else st)
  | .flags b value => some (st.setBuf b { st.buf b with flags := value })

def Next (st : State) (action : Action) (st' : State) : Prop := step st action = some st'

/-! The buffers in the order of the list, those put to the front later before the others. -/

structure Ordered (st : State) (order : List Index) : Prop where
  ring : Ring st.next st.prev head (order.map some)
  recent : order.Pairwise fun b later => st.released later < st.released b
  past : ∀ b ∈ order, st.released b < st.clock

variable {order : List Index} {b : Index} {s : State}

theorem some_mem_map : (some b : Node) ∈ order.map some ↔ b ∈ order := by
  simp

theorem head_not_mem (order : List Index) : head ∉ order.map some := by
  simp [head]

theorem Ordered.pushFront (ord : Ordered s order) (fresh : b ∉ order) :
    Ordered ((s.pushFront b).stamp b) (b :: order) where
  ring := by
    refine ord.ring.insert ?_
    rw [mem_cons, not_or, some_mem_map]
    exact ⟨by simp [head], fresh⟩
  recent := by
    have apart : ∀ o ∈ order, o ≠ b := by
      rintro o mem rfl
      exact fresh mem
    refine pairwise_cons.mpr ⟨?_, ?_⟩
    · intro o mem
      simpa [State.pushFront, State.stamp, apart o mem] using ord.past o mem
    · refine ord.recent.imp_of_mem ?_
      intro earlier later memberEarlier memberLater sooner
      simpa [State.pushFront, State.stamp, apart _ memberEarlier, apart _ memberLater] using sooner
  past := by
    intro o mem
    by_cases eq : o = b
    · simp [State.pushFront, State.stamp, eq]
    · have pre := ord.past o (mem_of_ne_of_mem eq mem)
      simp only [State.pushFront, State.stamp, update_of_ne eq]
      omega

theorem Ordered.unlink {pre after : List Index} (ord : Ordered s (pre ++ b :: after)) :
    Ordered (s.unlink b) (pre ++ after) := by
  have fewer : (pre ++ after).Sublist (pre ++ b :: after) :=
    List.Sublist.append_left (sublist_cons_self _ _) _
  constructor
  case ring =>
    have ring := ord.ring
    rw [map_append, map_cons] at ring
    rw [map_append]
    exact ring.unlink
  case recent => exact ord.recent.sublist fewer
  case past => exact fun o low => ord.past o (fewer.subset low)

theorem Ordered.setBuf (ord : Ordered s order) (b : Index) (buf : Buf) : Ordered (s.setBuf b buf) order :=
  ⟨ord.ring, ord.recent, ord.past⟩

theorem Ordered.nodup (ord : Ordered s order) : order.Nodup :=
  List.Nodup.of_map _ (nodup_cons.mp ord.ring.nodup).2

structure Sound (st : State) (order : List Index) : Prop extends Ordered st order where
  all : ∀ b, b ∈ order
  single : ∀ b b', (st.buf b).dev ≠ 0 → (st.buf b).dev = (st.buf b').dev →
    (st.buf b).blockno = (st.buf b').blockno → b = b'

theorem Ordered.foldl (bufs : List Index) (s : State) (order : List Index)
    (ord : Ordered s order) (nodup : bufs.Nodup) (apart : ∀ b ∈ bufs, b ∉ order) :
    Ordered (bufs.foldl (fun s b => (s.pushFront b).stamp b) s) (bufs.reverse ++ order) := by
  induction bufs generalizing s order with
  | nil => exact ord
  | cons b rest ih =>
    obtain ⟨fst, nodup⟩ := nodup_cons.mp nodup
    have pushed := ord.pushFront (apart b mem_cons_self)
    have later := ih _ (b :: order) pushed nodup (by
      intro o mem
      rw [mem_cons, not_or]
      refine ⟨?_, apart o (mem_cons_of_mem _ mem)⟩
      rintro rfl
      exact fst mem)
    simpa using later

theorem sound_binit (next prev : Node → Node) : Sound (binit (.zero next prev)) (finRange NBUF).reverse := by
  have s0 : Ordered { State.zero next prev with
      prev := update (State.zero next prev).prev head head
      next := update (State.zero next prev).next head head } [] :=
    ⟨.empty _ _ head, .nil, by simp⟩
  have kept : ∀ (bufs : List Index) (s : State), (bufs.foldl (fun s b => (s.pushFront b).stamp b) s).buf = s.buf := by
    intro bufs
    induction bufs with
    | nil => exact fun _ => rfl
    | cons b rest ih => exact fun s => ih _
  constructor
  case toOrdered =>
    have ord := Ordered.foldl (finRange NBUF) _ [] s0 (nodup_finRange NBUF) (by simp)
    rwa [append_nil] at ord
  case all => simp
  case single =>
    intro b b' used
    rw [binit, kept] at used
    exact absurd rfl used

section

variable {s s' : State} {order : List Index} {dev blockno : BitVec 32} {b : Index}

section

variable (sound : Sound s order)

include sound

theorem Sound.length : order.length = NBUF := by
  have permuted : order.Perm (finRange NBUF) :=
    (perm_ext_iff_of_nodup sound.nodup (nodup_finRange NBUF)).mpr (by simp [sound.all])
  rw [permuted.length_eq, length_finRange]

theorem Sound.searchNext (test : Node → Bool) : search s.next head test (NBUF + 1) (s.next head) =
      (order.find? fun b => test (some b)).elim .absent fun b => .found (some b) := by
  rw [sound.ring.forward.search (head_not_mem order) test (by simp [sound.length]), List.find?_map]
  simp only [Function.comp_def]
  cases order.find? fun b => test (some b) <;> rfl

theorem Sound.searchPrev (test : Node → Bool) : search s.prev head test (NBUF + 1) (s.prev head) =
      (order.reverse.find? fun b => test (some b)).elim .absent fun b => .found (some b) := by
  have clear : head ∉ (order.map some).reverse := by
    rw [mem_reverse]
    exact head_not_mem order
  rw [sound.ring.backward.search clear test (by simp [sound.length]), ← map_reverse, List.find?_map]
  simp only [Function.comp_def]
  cases order.reverse.find? fun b => test (some b) <;> rfl

theorem Sound.bget (dev blockno : BitVec 32) : bget s dev blockno =
      match order.find? fun b => s.holds dev blockno (some b) with
      | some b => .buffer b (s.setBuf b { s.buf b with refcnt := (s.buf b).refcnt + 1 })
      | none =>
        match order.reverse.find? fun b => s.unused (some b) with
        | some b => .buffer b (s.setBuf b ⟨0, dev, blockno, 1⟩)
        | none => .panic := by
  rw [BufferList.bget, sound.searchNext]
  cases order.find? fun b => s.holds dev blockno (some b) with
  | some b => rfl
  | none =>
    simp only [Option.elim_none]
    rw [sound.searchPrev]
    cases order.reverse.find? fun b => s.unused (some b) <;> rfl

theorem Sound.setBuf (b : Index) (buf : Buf) (dev : buf.dev = (s.buf b).dev)
    (blockno : buf.blockno = (s.buf b).blockno) : Sound (s.setBuf b buf) order where
  toOrdered := sound.toOrdered.setBuf b buf
  all := sound.all
  single := by
    have eq : ∀ o, ((s.setBuf b buf).buf o).dev = (s.buf o).dev ∧
        ((s.setBuf b buf).buf o).blockno = (s.buf o).blockno := by
      intro o
      by_cases here : o = b <;> simp [here, State.setBuf, dev, blockno]
    intro left right
    rw [(eq left).1, (eq right).1, (eq left).2, (eq right).2]
    exact sound.single left right

theorem Sound.recycle (absent : ∀ o, ¬ ((s.buf o).dev = dev ∧ (s.buf o).blockno = blockno)) :
    Sound (s.setBuf b ⟨0, dev, blockno, 1⟩) order where
  toOrdered := sound.toOrdered.setBuf b _
  all := sound.all
  single := by
    intro left right
    by_cases isLeft : left = b
    · by_cases isRight : right = b
      · exact fun _ _ _ => isLeft.trans isRight.symm
      · simp only [State.setBuf, isLeft, update_self, ne_eq, isRight, not_false_eq_true, update_of_ne]
        exact fun _ eq also => absurd ⟨eq.symm, also.symm⟩ (absent right)
    · by_cases isRight : right = b
      · simp only [State.setBuf, isRight, update_self, ne_eq, isLeft, not_false_eq_true, update_of_ne]
        exact fun _ eq also => absurd ⟨eq, also⟩ (absent left)
      · simp only [State.setBuf, ne_eq, isLeft, isRight, not_false_eq_true, update_of_ne]
        exact sound.single left right

end

theorem holds_iff : s.holds dev blockno (some b) = true ↔ (s.buf b).dev = dev ∧ (s.buf b).blockno = blockno := by
  simp [State.holds]

theorem Sound.brelse (sound : Sound s order) (b : Index) : ∃ order, Sound
    (if ((brelse s b).buf b).refcnt = 0 then (brelse s b).stamp b else brelse s b) order := by
  have counted := sound.setBuf b { s.buf b with refcnt := (s.buf b).refcnt - 1 } rfl rfl
  have count : ((s.setBuf b { s.buf b with refcnt := (s.buf b).refcnt - 1 }).buf b).refcnt = (s.buf b).refcnt - 1 := by
    simp [State.setBuf]
  unfold BufferList.brelse
  dsimp only
  by_cases last : (s.buf b).refcnt - 1 = 0
  · rw [if_pos last]
    change ∃ order, Sound (if ((s.setBuf b _).buf b).refcnt = 0 then _ else _) order
    rw [count, if_pos last]
    obtain ⟨pre, after, whole⟩ := append_of_mem (sound.all b)
    have ord := counted.toOrdered
    rw [whole] at ord
    have nodup := ord.nodup
    have fresh : b ∉ pre ++ after := (nodup_cons.mp (nodup_middle.mp nodup)).1
    refine ⟨b :: (pre ++ after), ord.unlink.pushFront fresh, ?_, counted.single⟩
    intro o
    have mem := sound.all o
    rw [whole] at mem
    exact perm_middle.mem_iff.mp mem
  · rw [if_neg last, count, if_neg last]
    exact ⟨order, counted⟩

theorem Sound.next (sound : Sound s order) {action : Action} (ran : Next s action s') : ∃ order, Sound s' order := by
  cases action with
  | bget dev blockno =>
    simp only [Next, step, sound.bget] at ran
    cases cached : order.find? fun b => s.holds dev blockno (some b) with
    | some b =>
      simp only [cached] at ran
      cases ran
      exact ⟨order, sound.setBuf _ _ rfl rfl⟩
    | none =>
      simp only [cached] at ran
      have absent : ∀ o, ¬ ((s.buf o).dev = dev ∧ (s.buf o).blockno = blockno) := by
        intro o
        rw [← holds_iff]
        exact List.find?_eq_none.mp cached o (sound.all o)
      cases hit : order.reverse.find? fun b => s.unused (some b) with
      | some b =>
        simp only [hit] at ran
        cases ran
        exact ⟨order, sound.recycle absent⟩
      | none => simp [hit] at ran
  | brelse b =>
    cases ran
    exact sound.brelse b
  | flags b val =>
    cases ran
    exact ⟨order, sound.setBuf _ _ rfl rfl⟩

theorem Sound.victim (sound : Sound s order) (hit : order.reverse.find? (fun b => s.unused (some b)) = some b) :
    s.unused (some b) = true ∧ ∀ o, s.unused (some o) = true → s.released b ≤ s.released o := by
  obtain ⟨passes, used, rest, whole, busy⟩ := List.find?_eq_some_iff_append.mp hit
  refine ⟨passes, ?_⟩
  intro o unused
  have sorted : order.reverse.Pairwise fun b later => s.released b < s.released later :=
    pairwise_reverse.mpr sound.recent
  rw [whole] at sorted
  have mem : o ∈ used ++ b :: rest := by
    rw [← whole, mem_reverse]
    exact sound.all o
  rcases mem_append.mp mem with early | late
  · have free := busy o early
    rw [unused] at free
    contradiction
  · rcases mem_cons.mp late with rfl | late
    · exact le_rfl
    · exact ((pairwise_cons.mp (pairwise_append.mp sorted).2.1).1 o late).le

end

/-- The list goes through every buffer once, in the order in which they were released; no block is in two
buffers; and `bget` takes the one released first of those not in use. -/
theorem buffer_list (next prev : Node → Node) {st : State}
    (reached : Reachable Next (fun _ _ => True) (binit (.zero next prev)) st) :
    (∃ order : List Index, order.Nodup ∧ (∀ b, b ∈ order) ∧
      visits st.next head (NBUF + 1) (st.next head) = some (order.map some) ∧
      visits st.prev head (NBUF + 1) (st.prev head) = some (order.map some).reverse ∧
      order.Pairwise fun b later => st.released later < st.released b) ∧
    (∀ b b', (st.buf b).dev ≠ 0 → (st.buf b).dev = (st.buf b').dev →
      (st.buf b).blockno = (st.buf b').blockno → b = b') ∧
    ∀ dev blockno, (∀ b, ¬ ((st.buf b).dev = dev ∧ (st.buf b).blockno = blockno)) →
      (∃ b, bget st dev blockno = .buffer b (st.setBuf b ⟨0, dev, blockno, 1⟩) ∧ st.unused (some b) = true ∧
        ∀ other, st.unused (some other) = true → st.released b ≤ st.released other) ∨
      bget st dev blockno = .panic ∧ ∀ b, st.unused (some b) = false := by
  have kept : ∃ order, Sound st order := by
    refine reached.invariant (fun st => ∃ order, Sound st order) ⟨_, sound_binit next prev⟩ ?_
    rintro before action after ⟨order, sound⟩ _ taken
    exact sound.next taken
  obtain ⟨order, sound⟩ := kept
  have size := sound.length
  refine ⟨⟨order, sound.nodup, sound.all, ?_, ?_, sound.recent⟩, sound.single, ?_⟩
  · exact sound.ring.forward.visits (head_not_mem order) (by simp [size])
  · refine sound.ring.backward.visits ?_ (by simp [size])
    rw [List.mem_reverse]
    exact head_not_mem order
  · intro dev blockno absent
    have missing : order.find? (fun b => st.holds dev blockno (some b)) = none := by
      rw [List.find?_eq_none]
      intro b _
      rw [holds_iff]
      exact absent b
    rw [sound.bget, missing]
    dsimp only
    cases found : order.reverse.find? fun b => st.unused (some b) with
    | some b => exact Or.inl ⟨b, rfl, sound.victim found⟩
    | none =>
      refine Or.inr ⟨rfl, ?_⟩
      intro b
      have busy := List.find?_eq_none.mp found b (List.mem_reverse.mpr (sound.all b))
      simpa using busy

theorem buffer_list_third : ∃ st, Reachable Next (fun _ _ => True) (binit (.zero id id)) st ∧
    st.released 1 < st.released 0 ∧ (st.buf 0).flags = B_DIRTY ∧
    ∃ b, bget st 1 7 = .buffer b (st.setBuf b ⟨0, 1, 7, 1⟩) ∧ st.released b < st.released 1 := by
  have checked : (replay step (fun _ _ => True)
      [.bget 1 5, .bget 1 6, .flags 0 B_DIRTY, .brelse 1, .brelse 0] (binit (.zero id id))).any
        (fun st => decide (st.released 1 < st.released 0 ∧ (st.buf 0).flags = B_DIRTY ∧
          (∀ b, ¬ ((st.buf b).dev = 1 ∧ (st.buf b).blockno = 7)) ∧
          st.unused (some 2) = true ∧ st.released 2 < st.released 1)) = true := by
    decide +kernel
  obtain ⟨st, reached, found⟩ := Reachable.of_replay (fun _ _ _ _ taken => taken) checked
  obtain ⟨later, dirty, absent, unused, earlier⟩ := of_decide_eq_true found
  refine ⟨st, reached, later, dirty, ?_⟩
  rcases (buffer_list id id reached).2.2 1 7 absent with ⟨b, got, _, first⟩ | ⟨_, none⟩
  · exact ⟨b, got, (first 2 unused).trans_lt earlier⟩
  · rw [none 2] at unused
    cases unused

end Xv6.BufferList
