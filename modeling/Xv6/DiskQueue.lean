import Xv6.Param
import Xv6.Lib.Chain
import Xv6.Lib.Reach

/-! The queue of the disk driver (`ide.c`). The sections of `iderw` and `ideintr` under `idelock`,
the disk, and the locks of the buffers are steps of their own; a process in the loop of `iderw` may
test the flags at any time, woken or not. -/


namespace Xv6.DiskQueue

open Chain Reach List Option Function

structure Buf (D : Type) where
  valid : Bool
  dirty : Bool
  dev : Nat
  blockno : Nat
  data : D

def Buf.clean {D : Type} (buf : Buf D) : Bool := buf.valid && !buf.dirty

def Buf.block {D : Type} (buf : Buf D) : Nat × Nat := (buf.dev % 2, buf.blockno)

def Buf.request {D : Type} (buf : Buf D) : Option D := if buf.dirty then some buf.data else none

/-- The disk: waiting for a command, working on one, and with the interrupt raised. -/
inductive Drive (D : Type) where
  | idle
  | busy (block : Nat × Nat) (request : Option D)
  | raised (content : D)

inductive Pc (B : Type) where
  | outside
  | waiting (b : B) (id : Nat)
  deriving DecidableEq

structure Call (P B D : Type) where
  process : P
  buf : B
  request : Option D

/-- The buffers, the holders of their locks, `idequeue` (at `none`) with the `qnext` pointers, the disk,
the processes, and as history the requests queued and those completed. -/
structure State (P B D : Type) where
  buf : B → Buf D
  lock : B → Option P
  next : Option B → Option B
  drive : Drive D
  disk : Nat × Nat → D
  pc : P → Pc B
  queued : List (Call P B D)
  completed : List (B × D)

variable {P B D : Type} [DecidableEq P] [DecidableEq B]

def State.initial (buf : B → Buf D) (disk : Nat × Nat → D) : State P B D where
  buf := buf
  lock := fun _ => none
  next := fun _ => none
  drive := .idle
  disk := disk
  pc := fun _ => .outside
  queued := []
  completed := []

def idestart (st : State P B D) (b : B) : Option (State P B D) :=
  if (st.buf b).blockno < FSSIZE then
    some { st with drive := .busy (st.buf b).block (st.buf b).request }
  else none

/-- `iderw` up to its loop; none where it panics, or where the walk along the queue has not ended. -/
def iderw (havedisk1 : Bool) (fuel : Nat) (st : State P B D) (p : P) (b : B) : Option (State P B D) :=
  if st.lock b = some p ∧ (st.buf b).clean = false ∧ ((st.buf b).dev = 0 ∨ havedisk1) then
    let st := { st with
      next := update st.next (some b) none
      pc := update st.pc p (.waiting b st.queued.length)
      queued := st.queued ++ [Call.mk p b (st.buf b).request] }
    (follow st.next (fun node => (st.next node).isNone) fuel none).bind fun pp =>
      let st := { st with next := update st.next pp (some b) }
      if st.next none = some b then idestart st b else some st
  else none

def ideintr (st : State P B D) (content : D) : Option (State P B D) :=
  match st.next none with
  | none => some { st with drive := .idle }
  | some b =>
    let buf := st.buf b
    let st := { st with
      next := update st.next none (st.next (some b))
      drive := .idle
      buf := update st.buf b { buf with
        data := if buf.dirty then buf.data else content
        valid := true
        dirty := false }
      completed := st.completed ++ [(b, st.disk buf.block)] }
    match st.next none with
    | none => some st
    | some first => idestart st first

inductive Action (P B D : Type) where
  | acquiresleep (p : P) (b : B)
  | releasesleep (p : P) (b : B)
  | change (b : B) (buf : Buf D)
  | iderw (p : P) (b : B)
  | test (p : P)
  | complete
  | ideintr

/-- One step; none where it cannot be taken. A buffer changes under its lock, or when nobody has the
lock and it is used for another block. -/
def step (havedisk1 : Bool) (fuel : Nat) (st : State P B D) : Action P B D → Option (State P B D)
  | .acquiresleep p b =>
    if st.lock b = none then some { st with lock := update st.lock b (some p) } else none
  | .releasesleep p b =>
    match st.pc p with
    | .outside => if st.lock b = some p then some { st with lock := update st.lock b none } else none
    | .waiting _ _ => none
  | .change b buf =>
    match (st.lock b).map st.pc with
    | some (.waiting _ _) => none
    | _ => some { st with buf := update st.buf b buf }
  | .iderw p b =>
    match st.pc p with
    | .outside => iderw havedisk1 fuel st p b
    | .waiting _ _ => none
  | .test p =>
    match st.pc p with
    | .outside => none
    | .waiting b _ =>
      if (st.buf b).clean then some { st with pc := update st.pc p .outside } else some st
  | .complete =>
    match st.drive with
    | .busy block request =>
      let disk := request.elim st.disk (update st.disk block)
      some { st with disk, drive := .raised (disk block) }
    | _ => none
  | .ideintr =>
    match st.drive with
    | .raised content => ideintr st content
    | _ => none

def Next (havedisk1 : Bool) (st : State P B D) (a : Action P B D) (st' : State P B D) : Prop :=
  ∃ fuel, step havedisk1 fuel st a = some st'

def State.Serves (st : State P B D) (b : B) : Prop :=
  st.drive = .busy (st.buf b).block (st.buf b).request ∨
    ∃ content, st.drive = .raised content ∧ st.disk (st.buf b).block = content ∧
      ∀ data, (st.buf b).request = some data → data = content

def State.Done (st : State P B D) (b : B) (id : Nat) (request : Option D) : Prop :=
  (st.buf b).clean = true ∧ st.completed[id]? = some (b, (st.buf b).data) ∧
    ∀ data, request = some data → data = (st.buf b).data

structure Sound (st : State P B D) (queue : List B) : Prop where
  path : Path st.next none (queue.map some) none
  nodup : queue.Nodup
  order : st.queued.map Call.buf = st.completed.map Prod.fst ++ queue
  idle : queue = [] → st.drive = .idle
  serves : ∀ b rest, queue = b :: rest → st.Serves b
  waits : ∀ k b, queue[k]? = some b → ∃ p, st.pc p = .waiting b (st.completed.length + k)
  open_ : ∀ b ∈ queue, (st.buf b).clean = false
  held : ∀ p b id, st.pc p = .waiting b id → st.lock b = some p
  served : ∀ p b id, st.pc p = .waiting b id → ∃ request, st.queued[id]? = some ⟨p, b, request⟩ ∧
    (b ∈ queue ∧ request = (st.buf b).request ∨ st.Done b id request)

section

variable {s s' st st' : State P B D} {queue rest : List B} {b : B} {p : P} {id : Nat}

section

variable (sound : Sound s queue)

include sound

omit [DecidableEq P] [DecidableEq B] in
theorem Sound.waiter (mem : b ∈ queue) : ∃ p id, s.pc p = .waiting b id := by
  obtain ⟨k, found⟩ := mem_iff_getElem?.mp mem
  obtain ⟨p, waiting⟩ := sound.waits k b found
  exact ⟨p, _, waiting⟩

omit [DecidableEq P] [DecidableEq B] in
theorem Sound.alone {q : P} {id' : Nat} (left : s.pc p = .waiting b id)
    (right : s.pc q = .waiting b id') : p = q ∧ id = id' := by
  have eq : some p = some q := (sound.held p b id left).symm.trans (sound.held q b id' right)
  cases eq
  cases left.symm.trans right
  exact ⟨rfl, rfl⟩

omit [DecidableEq P] [DecidableEq B] in
theorem Sound.nodes_nodup : (none :: queue.map some).Nodup :=
  nodup_cons.mpr ⟨by simp, sound.nodup.map (some_injective _)⟩

omit [DecidableEq P] in
theorem Sound.change (unused : ∀ p id, s.pc p ≠ .waiting b id) (holder : Option P) (buf : Buf D) :
    Sound { s with lock := update s.lock b holder, buf := update s.buf b buf } queue := by
  have apart : ∀ p c id, s.pc p = .waiting c id → c ≠ b := by
    rintro p c id waiting rfl
    exact unused p id waiting
  have kept : ∀ c ∈ queue, c ≠ b := by
    intro c mem
    obtain ⟨p, id, waiting⟩ := sound.waiter mem
    exact apart p c id waiting
  refine ⟨sound.path, sound.nodup, sound.order, sound.idle, ?_, sound.waits, ?_, ?_, ?_⟩
  · intro c rest whole
    simp only [State.Serves, update_of_ne (kept c (by simp [whole]))]
    exact sound.serves c rest whole
  · intro c mem
    simp only [update_of_ne (kept c mem)]
    exact sound.open_ c mem
  · intro p c id waiting
    simp only [update_of_ne (apart p c id waiting)]
    exact sound.held p c id waiting
  · intro p c id waiting
    simp only [State.Done, update_of_ne (apart p c id waiting)]
    exact sound.served p c id waiting

omit [DecidableEq B] in
theorem Sound.test (clean : (s.buf b).clean = true) (here : s.pc p = .waiting b id) :
    Sound { s with pc := update s.pc p .outside } queue := by
  have o : ∀ q c id, update s.pc p .outside q = .waiting c id → s.pc q = .waiting c id := by
    intro q c id waiting
    by_cases eq : q = p
    · simp [eq] at waiting
    · rwa [update_of_ne eq] at waiting
  refine ⟨sound.path, sound.nodup, sound.order, sound.idle, sound.serves, ?_, sound.open_, ?_, ?_⟩
  · intro k c found
    obtain ⟨q, waiting⟩ := sound.waits k c found
    refine ⟨q, ?_⟩
    have ne : q ≠ p := by
      rintro rfl
      cases here.symm.trans waiting
      rw [sound.open_ b (mem_of_getElem? found)] at clean
      cases clean
    simpa [ne] using waiting
  · exact fun q c id waiting => sound.held q c id (o q c id waiting)
  · exact fun q c id waiting => sound.served q c id (o q c id waiting)

omit [DecidableEq P] [DecidableEq B] in
theorem Sound.complete {block : Nat × Nat} {req : Option D} (busy : s.drive = .busy block req) : Sound { s with
      disk := req.elim s.disk (update s.disk block)
      drive := .raised (req.elim s.disk (update s.disk block) block) } queue := by
  refine ⟨sound.path, sound.nodup, sound.order, ?_, ?_, sound.waits, sound.open_, sound.held, sound.served⟩
  · intro empty
    rw [sound.idle empty] at busy
    cases busy
  · intro b rest whole
    rcases sound.serves b rest whole with work | ⟨content, raised, _⟩
    · cases busy.symm.trans work
      refine .inr ⟨_, rfl, rfl, ?_⟩
      intro data written
      simp [written]
    · cases busy.symm.trans raised

omit [DecidableEq P] in
theorem Sound.walk (fresh : b ∉ queue) {fuel : Nat} {pp : Option B} (found : follow (update s.next (some b) none)
      (fun node => (update s.next (some b) none node).isNone) fuel none = some pp) :
    Path (update (update s.next (some b) none) pp (some b)) none ((queue ++ [b]).map some) none := by
  have apart : ∀ node ∈ none :: queue.map some, node ≠ some b := by
    rintro node mem rfl
    simp [fresh] at mem
  have path : Path (update s.next (some b) none) none (queue.map some) none :=
    sound.path.agree fun node mem => update_of_ne (apart node mem) _ _
  have ring : Path (update s.next (some b) none) none (queue.map some ++ []) none := by
    rw [append_nil]
    exact path
  have stop := ring.step_cut
  have last : entry (queue.map some).reverse none ∈ none :: queue.map some := by
    simpa using entry_reverse_mem (queue.map some) [] none
  have walked : follow (update s.next (some b) none)
      (fun node => (update s.next (some b) none node).isNone) (max fuel ((queue.map some).length + 1))
        none = some (entry (queue.map some).reverse none) := by
    refine path.follow last ?_ (fun node mem ends => ?_) (Nat.le_max_right fuel _)
    · rw [stop]
      rfl
    · exact path.step_inj sound.nodes_nodup mem last ((isNone_iff_eq_none.mp ends).trans stop.symm)
  cases (follow_mono (Nat.le_max_left fuel _) found).symm.trans walked
  have whole : Path s.next none (queue.map some ++ []) none := by simpa using sound.path
  have inserted := whole.insert (by simpa using sound.nodes_nodup) (show some b ∉ _ by simpa using fresh)
  simpa [entry] using inserted

omit [DecidableEq P] [DecidableEq B] in
theorem Sound.length : s.queued.length = s.completed.length + queue.length := by
  have eq := congrArg List.length sound.order
  simpa using eq

omit [DecidableEq B] in
theorem Sound.append (holds : s.lock b = some p) (outside : s.pc p = .outside)
    (dirty : (s.buf b).clean = false) (fresh : b ∉ queue) {next : Option B → Option B} {drive : Drive D}
    (path : Path next none ((queue ++ [b]).map some) none)
    (started : queue = [] → drive = .busy (s.buf b).block (s.buf b).request)
    (kept : queue ≠ [] → drive = s.drive) : Sound { s with
      next, drive
      pc := update s.pc p (.waiting b s.queued.length)
      queued := s.queued ++ [⟨p, b, (s.buf b).request⟩] } (queue ++ [b]) := by
  have length := sound.length
  have others : ∀ q c id, s.pc q = .waiting c id → q ≠ p := by
    rintro q c id waiting rfl
    cases outside.symm.trans waiting
  have waiting' : ∀ q c id, update s.pc p (.waiting b s.queued.length) q = .waiting c id →
      q = p ∧ c = b ∧ id = s.queued.length ∨ s.pc q = .waiting c id := by
    intro q c id waiting
    by_cases eq : q = p
    · rw [eq, update_self] at waiting
      cases waiting
      exact .inl ⟨eq, rfl, rfl⟩
    · exact .inr (by rwa [update_of_ne eq] at waiting)
  constructor
  case path => exact path
  case nodup =>
    exact nodup_append.mpr ⟨sound.nodup, by simp, by
      rintro o mem _ here rfl
      exact fresh (mem_singleton.mp here ▸ mem)⟩
  case order => simp [sound.order]
  case idle => simp
  case serves =>
    intro c rest whole
    cases queue with
    | nil =>
      cases whole
      exact .inl (started rfl)
    | cons fst more =>
      cases whole
      rw [State.Serves, kept (by simp)]
      exact sound.serves _ _ rfl
  case waits =>
    intro k c found
    by_cases low : k < queue.length
    · rw [List.getElem?_append_left low] at found
      obtain ⟨q, waiting⟩ := sound.waits k c found
      exact ⟨q, by simpa [others q c _ waiting] using waiting⟩
    · rw [List.getElem?_append_right (by omega), List.getElem?_singleton] at found
      split at found <;> cases found
      refine ⟨p, ?_⟩
      simp only [update_self, length]
      congr 1
      omega
  case open_ =>
    intro c mem
    rcases mem_append.mp mem with old | new
    · exact sound.open_ c old
    · rwa [mem_singleton.mp new]
  case held =>
    intro q c id waiting
    rcases waiting' q c id waiting with ⟨rfl, rfl, _⟩ | pre
    · exact holds
    · exact sound.held q c id pre
  case served =>
    intro q c id waiting
    rcases waiting' q c id waiting with ⟨rfl, rfl, rfl⟩ | pre
    · exact ⟨_, by simp, .inl ⟨by simp, rfl⟩⟩
    · obtain ⟨req, found, s⟩ := sound.served q c id pre
      refine ⟨req, ?_, s.imp_left fun queued => ⟨mem_append_left _ queued.1, queued.2⟩⟩
      rw [List.getElem?_append_left (List.getElem?_eq_some_iff.mp found).1]
      exact found

end

omit [DecidableEq P] in
theorem Sound.pop (sound : Sound s (b :: rest)) {content : D} (raised : s.drive = .raised content)
    {drive : Drive D} (idle : rest = [] → drive = .idle)
    (started : ∀ c others, rest = c :: others → drive = .busy (s.buf c).block (s.buf c).request) : Sound { s with
      next := update s.next none (s.next (some b))
      drive
      buf := update s.buf b { s.buf b with
        data := if (s.buf b).dirty then (s.buf b).data else content
        valid := true
        dirty := false }
      completed := s.completed ++ [(b, s.disk (s.buf b).block)] } rest := by
  have content' : s.disk (s.buf b).block = content ∧ ∀ data, (s.buf b).request = some data → data = content := by
    rcases sound.serves b rest rfl with work | ⟨o, found, eq⟩
    · cases raised.symm.trans work
    · cases raised.symm.trans found
      exact eq
  have val : (if (s.buf b).dirty then (s.buf b).data else content) = content := by
    by_cases dirty : (s.buf b).dirty = true
    · rw [if_pos dirty]
      exact content'.2 _ (if_pos dirty)
    · rw [if_neg dirty]
  have apart : ∀ c ∈ rest, c ≠ b := by
    rintro c mem rfl
    exact (nodup_cons.mp sound.nodup).1 mem
  obtain ⟨q, fst⟩ := sound.waits 0 b rfl
  constructor
  case path =>
    have path : Path s.next none ([] ++ some b :: rest.map some) none := sound.path
    exact path.unlink sound.nodes_nodup
  case nodup => exact (nodup_cons.mp sound.nodup).2
  case order => simp [sound.order]
  case idle => exact idle
  case serves =>
    intro c others whole
    have ne := apart c (by simp [whole])
    simp only [State.Serves, update_of_ne ne]
    exact .inl (started c others whole)
  case waits =>
    intro k c found
    obtain ⟨p, waiting⟩ := sound.waits (k + 1) c (by simpa using found)
    refine ⟨p, waiting.trans ?_⟩
    simp only [length_append, length_singleton]
    congr 1
    omega
  case open_ =>
    intro c mem
    simp only [update_of_ne (apart c mem)]
    exact sound.open_ c (mem_cons_of_mem _ mem)
  case held => exact sound.held
  case served =>
    intro p c id waiting
    obtain ⟨req, found, pre⟩ := sound.served p c id waiting
    refine ⟨req, found, ?_⟩
    by_cases eq : c = b
    · subst c
      obtain ⟨rfl, rfl⟩ := sound.alone waiting fst
      rcases pre with ⟨_, rfl⟩ | done
      · refine .inr ⟨by simp [Buf.clean], ?_, fun data written => ?_⟩
        · simp [val, content'.1]
        · simpa [val] using content'.2 data written
      · exact absurd done.1 (by simp [sound.open_ b mem_cons_self])
    · simp only [State.Done, update_of_ne eq]
      refine pre.imp (fun queued => ⟨mem_of_ne_of_mem eq queued.1, queued.2⟩) fun done => ?_
      refine ⟨done.1, ?_, done.2.2⟩
      rw [List.getElem?_append_left (List.getElem?_eq_some_iff.mp done.2.1).1]
      exact done.2.1

omit [DecidableEq P] [DecidableEq B] in
theorem idestart_eq (done : idestart s b = some s') :
    s' = { s with drive := .busy (s.buf b).block (s.buf b).request } := by
  unfold idestart at done
  split at done <;> cases done
  rfl

theorem Sound.iderw (sound : Sound s queue) {havedisk1 : Bool} {fuel : Nat}
    (outside : s.pc p = .outside) (done : iderw havedisk1 fuel s p b = some s') : Sound s' (queue ++ [b]) := by
  unfold DiskQueue.iderw at done
  split at done
  · rename_i checks
    obtain ⟨holds, dirty, _⟩ := checks
    obtain ⟨pp, found, done⟩ := bind_eq_some_iff.mp done
    have fresh : b ∉ queue := by
      intro mem
      obtain ⟨q, id, waiting⟩ := sound.waiter mem
      cases holds.symm.trans (sound.held q b id waiting)
      cases outside.symm.trans waiting
    have path := sound.walk fresh found
    have fst := path.step_eq
    -- The new request is at the head exactly when the queue was empty.
    simp only at done
    split at done
    · rename_i alone
      have empty : queue = [] := by
        cases queue with
        | nil => rfl
        | cons c rest =>
          cases fst.symm.trans alone
          exact absurd mem_cons_self fresh
      obtain rfl := idestart_eq done
      exact sound.append holds outside dirty fresh path (fun _ => rfl) fun more => absurd empty more
    · rename_i behind
      cases done
      refine sound.append holds outside dirty fresh path (fun empty => ?_) fun _ => rfl
      subst empty
      exact absurd fst behind
  · cases done

omit [DecidableEq P] in
theorem Sound.ideintr (sound : Sound s queue) {content : D} (raised : s.drive = .raised content)
    (done : ideintr s content = some s') : ∃ queue', Sound s' queue' := by
  cases queue with
  | nil =>
    rw [sound.idle rfl] at raised
    cases raised
  | cons b rest =>
    have first : s.next none = some b := sound.path.step_eq
    have second : s.next (some b) = entry (rest.map some) none := sound.path.2.step_eq
    simp only [DiskQueue.ideintr, first, update_self, second] at done
    refine ⟨rest, ?_⟩
    cases rest with
    | nil =>
      cases done
      rw [← second]
      exact sound.pop raised (fun _ => rfl) (by simp)
    | cons c others =>
      have ne : c ≠ b := by
        rintro rfl
        exact (nodup_cons.mp sound.nodup).1 mem_cons_self
      obtain rfl := idestart_eq done
      have popped := sound.pop raised (by simp) (fun d more whole => by
        cases whole
        exact rfl)
      rw [second] at popped
      simpa [update_of_ne ne] using popped

theorem Sound.step (sound : Sound s queue) {havedisk1 : Bool} {a : Action P B D}
    (ran : Next havedisk1 s a s') : ∃ queue', Sound s' queue' := by
  obtain ⟨fuel, ran⟩ := ran
  cases a with
  | acquiresleep p b =>
    simp only [DiskQueue.step] at ran
    split at ran <;> cases ran
    rename_i free
    refine ⟨queue, ?_⟩
    rw [← update_eq_self b s.buf]
    refine sound.change (fun q id waiting => ?_) (some p) (s.buf b)
    cases free.symm.trans (sound.held q b id waiting)
  | releasesleep p b =>
    simp only [DiskQueue.step] at ran
    split at ran
    · rename_i outside
      split at ran <;> cases ran
      rename_i holds
      refine ⟨queue, ?_⟩
      rw [← update_eq_self b s.buf]
      refine sound.change (fun q id waiting => ?_) none (s.buf b)
      cases holds.symm.trans (sound.held q b id waiting)
      cases outside.symm.trans waiting
    · cases ran
  | change b buf =>
    simp only [DiskQueue.step] at ran
    split at ran
    · cases ran
    · rename_i unused
      cases ran
      refine ⟨queue, ?_⟩
      rw [← update_eq_self b s.lock]
      refine sound.change (fun q id waiting => unused b id ?_) (s.lock b) buf
      rw [sound.held q b id waiting, map_some, waiting]
  | iderw p b =>
    simp only [DiskQueue.step] at ran
    split at ran
    · rename_i outside
      exact ⟨queue ++ [b], sound.iderw outside ran⟩
    · cases ran
  | test p =>
    simp only [DiskQueue.step] at ran
    split at ran
    · cases ran
    · rename_i b id here
      split at ran <;> cases ran
      · rename_i clean
        exact ⟨queue, sound.test clean here⟩
      · exact ⟨queue, sound⟩
  | complete =>
    simp only [DiskQueue.step] at ran
    split at ran <;> cases ran
    rename_i busy
    exact ⟨queue, sound.complete busy⟩
  | ideintr =>
    simp only [DiskQueue.step] at ran
    split at ran
    · rename_i raised
      exact sound.ideintr raised ran
    · cases ran

/-- The disk works on the head of the queue and completes the requests in the order in which they were
queued; a call of `iderw` that finds the flags it waits for has its own request completed. -/
theorem disk_queue (havedisk1 : Bool) (buf : B → Buf D) (disk : Nat × Nat → D)
    (reached : Reachable (Next havedisk1) (fun _ _ => True) (State.initial buf disk) st) :
    (∃ queue : List B, Path st.next none (queue.map some) none ∧ queue.Nodup ∧
      (queue = [] → st.drive = .idle) ∧ (∀ b rest, queue = b :: rest → st.Serves b) ∧
      st.queued.map Call.buf = st.completed.map Prod.fst ++ queue) ∧
    ∀ p b id, st.pc p = .waiting b id → (st.buf b).clean = true → ∃ request,
      st.queued[id]? = some ⟨p, b, request⟩ ∧ st.Done b id request := by
  have sound : ∃ queue, Sound st queue := by
    refine reached.invariant (fun st => ∃ queue, Sound st queue) ⟨[], ?_⟩ ?_
    · exact ⟨rfl, .nil, rfl, fun _ => rfl, by simp, by simp, by simp, by simp [State.initial], by simp [State.initial]⟩
    · rintro st a st' ⟨queue, sound⟩ _ taken
      exact sound.step taken
  obtain ⟨queue, sound⟩ := sound
  refine ⟨⟨queue, sound.path, sound.nodup, sound.idle, sound.serves, sound.order⟩, ?_⟩
  intro p b id waiting clean
  obtain ⟨request, found, ⟨member, _⟩ | done⟩ := sound.served p b id waiting
  · rw [sound.open_ b member] at clean
    cases clean
  · exact ⟨request, found, done⟩

end

def twoWrites : State (Fin 2) (Fin 2) Nat :=
  State.initial (fun b => ⟨false, true, 0, 7, b.val⟩) fun _ => 9

theorem disk_queue_two : ∃ st : State (Fin 2) (Fin 2) Nat, Reachable (Next false) (fun _ _ => True) twoWrites st ∧
    st.pc 0 = .waiting 0 0 ∧ ∃ request, st.Done 0 0 request := by
  have checked : (replay (step false 3) (fun (_ : State (Fin 2) (Fin 2) Nat) _ => True)
      [.acquiresleep 0 0, .acquiresleep 1 1, .iderw 0 0, .iderw 1 1, .complete, .ideintr] twoWrites).any
      (fun st => st.pc 0 = .waiting 0 0 ∧ (st.buf 0).clean = true) = true := by
    decide +kernel
  have runs : ∀ (before : State (Fin 2) (Fin 2) Nat) a after, True → step false 3 before a = some after →
      Next false before a after := fun _ _ _ _ taken => ⟨3, taken⟩
  obtain ⟨st, reached, found⟩ := Reachable.of_replay runs checked
  obtain ⟨here, clean⟩ := of_decide_eq_true found
  obtain ⟨request, _, done⟩ := (disk_queue false _ _ reached).2 0 0 0 here clean
  exact ⟨st, reached, here, request, done⟩

end Xv6.DiskQueue
