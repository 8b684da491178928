import Xv6.ConsoleCore

/-! The console as a line editor: the ring holds the characters committed and not yet taken, and after
them the line that can still be edited. -/

namespace Xv6.Console

open Function (update update_of_ne update_self)
open Reach List

structure Placed (input : Input) (taken committed line : List UInt8) : Prop where
  ring : Ring.Holds 128 input.buf (committed ++ line) taken
  behind : taken.length ≤ committed.length
  r : input.r = UInt32.ofNat taken.length
  w : input.w = UInt32.ofNat committed.length
  e : input.e = UInt32.ofNat (committed.length + line.length)

structure Sound (input : Input) (taken committed line : List UInt8) : Prop extends
    Placed input taken committed line where
  unfinished : newline ∉ line
  full : committed.length + line.length = taken.length + 128 → line = []

section

variable {input : Input} {taken committed line dst : List UInt8} {c : UInt8} {target n : Nat}

theorem at_ofNat (input : Input) (count : Nat) : input.at_ (UInt32.ofNat count) = input.buf (count % 128) := by
  rw [Input.at_, UInt32.toNat_mod]
  exact congrArg input.buf (Ring.toNat_ofNat_mod (by decide) count)

section

variable (placed : Placed input taken committed line)

include placed

theorem Placed.fits : committed.length + line.length ≤ taken.length + 128 := by
  have fits := placed.ring.fits
  rwa [length_append] at fits

theorem Placed.ready_length : (input.w - input.r).toNat = committed.length - taken.length := by
  have fits := placed.fits
  rw [placed.w, placed.r, Ring.toNat_sub_ofNat placed.behind (by omega)]

theorem Placed.line_length : (input.e - input.w).toNat = line.length := by
  have fits := placed.fits
  have behind := placed.behind
  rw [placed.e, placed.w, Ring.toNat_sub_ofNat (by omega) (by omega)]
  omega

theorem Placed.all_length : (input.e - input.r).toNat = committed.length + line.length - taken.length := by
  have fits := placed.fits
  have behind := placed.behind
  rw [placed.e, placed.r, Ring.toNat_sub_ofNat (by omega) (by omega)]

theorem Placed.ready_eq : committed = taken ++ input.ready := by
  have segment := placed.ring.segment taken.length committed.length le_rfl (by simp)
  have cells : input.ready = (committed.drop taken.length) := by
    rw [Input.ready, placed.ready_length]
    rw [drop_append_of_le_length placed.behind, take_left' (by simp)] at segment
    rw [segment]
    apply map_congr_left
    intro i _
    rw [placed.r, ← UInt32.ofNat_add, at_ofNat]
  rw [cells]
  have pre : taken <+: committed :=
    prefix_of_prefix_length_le placed.ring.taken_first (prefix_append _ _) placed.behind
  obtain ⟨rest, rfl⟩ := pre
  rw [drop_left]

theorem Placed.line_eq : input.line = line := by
  have segment := placed.ring.segment committed.length (committed.length + line.length) placed.behind (by simp)
  rw [drop_left, Nat.add_sub_cancel_left, take_length] at segment
  rw [Input.line, placed.line_length]
  refine Eq.trans ?_ segment.symm
  apply map_congr_left
  intro i _
  rw [placed.w, ← UInt32.ofNat_add, at_ofNat]

theorem Placed.empty_iff : input.e = input.w ↔ line = [] := by
  have fits := placed.fits
  have behind := placed.behind
  rw [placed.e, placed.w, eq_comm, Ring.ofNat_eq_iff (by omega) (by omega)]
  rw [← length_eq_zero_iff]
  omega

theorem Placed.drained_iff : input.r = input.w ↔ taken.length = committed.length := by
  have fits := placed.fits
  have behind := placed.behind
  rw [placed.r, placed.w, Ring.ofNat_eq_iff behind (by omega)]

theorem Placed.full_iff : input.e = input.r + INPUT_BUF ↔ committed.length + line.length = taken.length + 128 := by
  have fits := placed.fits
  have behind := placed.behind
  have limit : input.r + INPUT_BUF = UInt32.ofNat (taken.length + 128) := by
    rw [placed.r, UInt32.ofNat_add]
    rfl
  rw [limit, placed.e, Ring.ofNat_eq_iff fits (by omega)]

end

theorem Placed.erase (placed : Placed input taken committed (line ++ [c])) :
    Placed { input with e := input.e - 1 } taken committed line where
  ring := by
    have ring := placed.ring
    rw [← append_assoc] at ring
    apply ring.drop_last
    have behind := placed.behind
    rw [length_append]
    omega
  behind := placed.behind
  r := placed.r
  w := placed.w
  e := by
    rw [placed.e, length_append, length_singleton, ← Nat.add_assoc, ← Ring.ofNat_succ]
    exact add_sub_cancel_right _ _

theorem Sound.erase (sound : Sound input taken committed (line ++ [c])) :
    Sound { input with e := input.e - 1 } taken committed line where
  toPlaced := sound.toPlaced.erase
  unfinished := fun mem => sound.unfinished (mem_append_left _ mem)
  full := by
    intro full
    have fits := sound.fits
    rw [length_append, length_singleton] at fits
    omega

theorem Placed.last (placed : Placed input taken committed (line ++ [c])) : input.at_ (input.e - 1) = c := by
  have pre := placed.erase.e
  simp only at pre
  rw [pre, at_ofNat]
  have behind := placed.behind
  apply placed.ring.kept
  · omega
  · rw [← append_assoc, List.getElem?_append_right (by simp)]
    simp

theorem Sound.killLine (sound : Sound input taken committed line) : Sound input.killLine taken committed [] := by
  induction line using List.reverseRecOn generalizing input with
  | nil =>
    rw [Input.killLine, if_neg]
    · exact sound
    · exact fun more => more.1 (sound.empty_iff.mpr rfl)
  | append_singleton line c ih =>
    rw [Input.killLine, if_pos]
    · exact ih sound.erase
    · refine ⟨fun eq => ?_, ?_⟩
      · have empty := sound.empty_iff.mp eq
        simp at empty
      · rw [sound.last]
        rintro rfl
        exact sound.unfinished (by simp)

theorem Placed.insert (placed : Placed input taken committed line) (c : UInt8) (room : input.e - input.r < INPUT_BUF) :
    Placed { input with
      buf := update input.buf (input.e % INPUT_BUF).toNat c
      e := input.e + 1 } taken committed (line ++ [c]) where
  ring := by
    have k : (input.e % INPUT_BUF).toNat = (committed ++ line).length % 128 := by
      rw [placed.e, UInt32.toNat_mod, length_append]
      exact Ring.toNat_ofNat_mod (by decide) _
    rw [k, ← append_assoc]
    apply placed.ring.store
    have limit := UInt32.lt_iff_toNat_lt.mp room
    rw [placed.all_length] at limit
    simp only [INPUT_BUF, UInt32.reduceToNat] at limit
    rw [length_append]
    omega
  behind := placed.behind
  r := placed.r
  w := placed.w
  e := by
    rw [placed.e, Ring.ofNat_succ, length_append, length_singleton, Nat.add_assoc]

theorem Placed.commit (placed : Placed input taken committed line) :
    Sound { input with w := input.e } taken (committed ++ line) [] where
  ring := by
    rw [append_nil]
    exact placed.ring
  behind := by
    have behind := placed.behind
    rw [length_append]
    omega
  r := placed.r
  w := by rw [placed.e, length_append]
  e := by rw [placed.e, length_append, length_nil, Nat.add_zero]
  unfinished := by simp
  full := fun _ => rfl

theorem Sound.take (sound : Sound input taken committed line) (more : input.r ≠ input.w) :
    Sound { input with r := input.r + 1 } (taken ++ [input.at_ input.r]) committed line := by
  have behind := sound.behind
  have pre : taken.length ≠ committed.length := fun eq => more (sound.drained_iff.mpr eq)
  have cell : input.at_ input.r = input.buf (taken.length % 128) := by rw [sound.r, at_ofNat]
  constructor
  case toPlaced =>
    constructor
    case ring =>
      rw [cell]
      apply sound.ring.take
      rw [length_append]
      omega
    case behind =>
      rw [length_append, length_singleton]
      omega
    case r =>
      rw [length_append, length_singleton, ← Ring.ofNat_succ, ← sound.r]
    case w => exact sound.w
    case e => exact sound.e
  case unfinished => exact sound.unfinished
  case full =>
    intro full
    have fits := sound.fits
    rw [length_append, length_singleton] at full
    omega

structure Took (target : Nat) (taken committed line dst new : List UInt8)
    (result : Input × Nat × List UInt8 × Ending) : Prop where
  sound : Sound result.1 (taken ++ (new ++ if result.2.2.2 = .done true then [ctrl 'D'] else [])) committed line
  copied : result.2.2.1 = dst ++ new
  plain : ctrl 'D' ∉ new
  size : result.2.2.1.length + result.2.1 = target
  waits : result.2.2.2 = .wait → result.1.r = result.1.w
  eof : result.2.2.2 = .done true → result.2.2.1 = []

theorem Took.nothing {ending : Ending} (sound : Sound input taken committed line)
    (sizes : dst.length + n = target) (waits : ending = .wait → input.r = input.w)
    (notEof : ending ≠ .done true) : Took target taken committed line dst [] (input, n, dst, ending) where
  sound := by simpa [notEof] using sound
  copied := by simp
  plain := by simp
  size := sizes
  waits := waits
  eof := fun eof => absurd eof notEof

theorem Took.cons {new : List UInt8} {res : Input × Nat × List UInt8 × Ending} (o : c ≠ ctrl 'D')
    (took : Took target (taken ++ [c]) committed line (dst ++ [c]) new res) :
    Took target taken committed line dst (c :: new) res where
  sound := by
    have sound := took.sound
    rwa [append_assoc, singleton_append, ← cons_append] at sound
  copied := by rw [took.copied, append_assoc, singleton_append]
  plain := by
    rw [mem_cons, not_or]
    exact ⟨Ne.symm o, took.plain⟩
  size := took.size
  waits := took.waits
  eof := took.eof

theorem Sound.readLoop (sound : Sound input taken committed line) (sizes : dst.length + n = target) :
    ∃ new, Took target taken committed line dst new (readLoop target n input dst) := by
  induction n generalizing input taken dst with
  | zero => exact ⟨[], .nothing sound sizes (by simp) (by simp)⟩
  | succ n ih =>
    rw [Console.readLoop]
    by_cases drained : input.r = input.w
    · rw [if_pos drained]
      exact ⟨[], .nothing sound sizes (fun _ => drained) (by simp)⟩
    · rw [if_neg drained]
      have after := sound.take drained
      dsimp only
      by_cases eof : input.at_ input.r = ctrl 'D'
      · rw [if_pos eof]
        by_cases more : n + 1 < target
        · rw [if_pos more, add_sub_cancel_right]
          exact ⟨[], .nothing sound sizes (by simp) (by simp)⟩
        · rw [if_neg more]
          have empty : dst = [] := length_eq_zero_iff.mp (by omega)
          refine ⟨[], ⟨?_, by simp, by simp, sizes, by simp, fun _ => empty⟩⟩
          rw [eof] at after
          simpa using after
      · rw [if_neg eof]
        by_cases ends : input.at_ input.r = newline
        · rw [if_pos ends]
          refine ⟨[input.at_ input.r], .cons eof (.nothing after ?_ (by simp) (by simp))⟩
          rw [length_append, length_singleton]
          omega
        · rw [if_neg ends]
          have rest : (dst ++ [input.at_ input.r]).length + n = target := by
            rw [length_append, length_singleton]
            omega
          obtain ⟨new, took⟩ := ih after rest
          exact ⟨input.at_ input.r :: new, took.cons eof⟩

theorem readLoop_drained (drained : input.r = input.w) : (readLoop target n input dst).1 = input := by
  cases n with
  | zero => rfl
  | succ n => rw [Console.readLoop, if_pos drained]

end

variable {P : Type} [DecidableEq P] {st st' : State P} {p : P} {reader : Reader} {input : Input} {line : List UInt8}

def Read.chars (read : Read P) : List UInt8 := read.bytes ++ if read.eof then [ctrl 'D'] else []

def Pc.dst : Pc → List UInt8
  | .idle => []
  | .asleep reader | .awake reader => reader.dst

def charsOf (process : P) (taken : List (P × UInt8)) : List UInt8 :=
  (taken.filter fun entry => entry.1 = process).map Prod.snd

def readsOf (process : P) (reads : List (Read P)) : List (Read P) :=
  reads.filter fun read => read.process = process

def Reader.fair (reader : Reader) : Prop :=
  reader.dst.length + reader.n = reader.target ∧ ctrl 'D' ∉ reader.dst

def Read.fair (read : Read P) : Prop :=
  ctrl 'D' ∉ read.bytes ∧ (read.eof = true → read.bytes = [] ∧ read.failed = false)

def Pc.Settled (input : Input) : Pc → Prop
  | .idle => True
  | .asleep reader => input.r = input.w ∧ reader.fair
  | .awake reader => reader.fair

theorem Pc.Settled.wake {pc : Pc} (settled : pc.Settled input) (input' : Input) : pc.wake.Settled input' := by
  cases pc with
  | idle => trivial
  | asleep reader => exact settled.2
  | awake reader => exact settled

theorem Pc.Settled.edit {pc : Pc} {input' : Input} (settled : pc.Settled input)
    (still : input.r = input.w → input'.r = input'.w) : pc.Settled input' := by
  cases pc with
  | asleep reader => exact ⟨still settled.1, settled.2⟩
  | _ => exact settled

structure Kept (st : State P) : Prop where
  sound : ∃ line, Sound st.input (st.taken.map Prod.snd) st.committed line
  whole : ∀ process, charsOf process st.taken = (readsOf process st.reads).flatMap Read.chars ++ (st.pc process).dst
  settled : ∀ process, (st.pc process).Settled st.input
  returned : ∀ read ∈ st.reads, read.fair
  failed : ∀ read ∈ st.reads, read.failed = true → st.killed read.process = true

theorem Kept.initial (buf : Nat → UInt8) : Kept (State.initial buf : State P) where
  sound := by
    refine ⟨[], ⟨⟨.empty 128 _, le_rfl, rfl, rfl, rfl⟩, by simp, fun _ => rfl⟩⟩
  whole := by simp [State.initial, charsOf, readsOf, Pc.dst]
  settled := fun _ => trivial
  returned := by simp [State.initial]
  failed := by simp [State.initial]

@[simp] theorem Pc.wake_dst (pc : Pc) : pc.wake.dst = pc.dst := by
  cases pc <;> rfl

theorem Kept.edit (kept : Kept st) (sound : Sound input (st.taken.map Prod.snd) st.committed line) :
    Kept { st with input } where
  sound := ⟨line, sound⟩
  whole := kept.whole
  settled := by
    obtain ⟨_, pre⟩ := kept.sound
    refine fun p => (kept.settled p).edit ?_
    rw [sound.r, sound.w, ← pre.r, ← pre.w]
    exact id
  returned := kept.returned
  failed := kept.failed

theorem Kept.commit (kept : Kept st) (placed : Placed input (st.taken.map Prod.snd) st.committed line) :
    Kept (State.commit { st with input }) := by
  constructor
  case sound =>
    refine ⟨[], ?_⟩
    simp only [State.commit, placed.line_eq]
    exact placed.commit
  case whole =>
    simp only [State.commit, Pc.wake_dst]
    exact kept.whole
  case settled => exact fun p => (kept.settled p).wake _
  case returned => exact kept.returned
  case failed => exact kept.failed

def erases (c : UInt8) : Prop := c = ctrl 'H' ∨ c = 0x7f ∨ c = ctrl 'U'

structure Typed (c : UInt8) (st st' : State P) : Prop where
  kept : Kept st'
  taken : st'.taken = st.taken
  reads : st'.reads = st.reads
  grows : st.committed <+: st'.committed
  erased : erases c → st'.committed = st.committed ∧ st'.input.line <+: st.input.line

theorem Kept.typed_same (kept : Kept st) (c : UInt8) : Typed c st st :=
  ⟨kept, rfl, rfl, prefix_rfl, fun _ => ⟨rfl, prefix_rfl⟩⟩

theorem Kept.typed_edit (kept : Kept st) {c : UInt8} {line' : List UInt8}
    (sound : Sound st.input (st.taken.map Prod.snd) st.committed line)
    (after : Sound input (st.taken.map Prod.snd) st.committed line')
    (shorter : erases c → line' <+: line) : Typed c st { st with input } where
  kept := kept.edit after
  taken := rfl
  reads := rfl
  grows := prefix_rfl
  erased := by
    intro erase
    refine ⟨rfl, ?_⟩
    simp only [after.line_eq, sound.line_eq]
    exact shorter erase

theorem Kept.typed_insert (kept : Kept st) {c c' : UInt8} (plain : ¬ erases c)
    (room : st.input.e - st.input.r < INPUT_BUF) : Typed c st (let input := { st.input with
        buf := update st.input.buf (st.input.e % INPUT_BUF).toNat c'
        e := st.input.e + 1 }
      if c' = newline ∨ c' = ctrl 'D' ∨ input.e = input.r + INPUT_BUF then
        State.commit { st with input }
      else { st with input }) := by
  obtain ⟨line, sound⟩ := kept.sound
  have placed := sound.toPlaced.insert c' room
  dsimp only
  split
  · refine ⟨kept.commit placed, rfl, rfl, ?_, fun erase => absurd erase plain⟩
    exact prefix_append _ _
  · rename_i open_
    simp only [not_or] at open_
    refine kept.typed_edit sound ⟨placed, ?_, ?_⟩ fun erase => absurd erase plain
    · rw [mem_append, not_or]
      exact ⟨sound.unfinished, by simpa using Ne.symm open_.1⟩
    · exact fun full => absurd (placed.full_iff.mpr full) open_.2.2

theorem Kept.typeChar (kept : Kept st) (c : UInt8) : Typed c st (typeChar st c) := by
  obtain ⟨line, sound⟩ := kept.sound
  unfold Console.typeChar
  split
  · exact kept.typed_same c
  · split
    · exact kept.typed_edit sound sound.killLine fun _ => nil_prefix
    · rename_i notKill
      split
      · split
        · rename_i more
          rcases eq_nil_or_concat line with empty | ⟨pre, last, whole⟩
          · exact absurd (sound.empty_iff.mpr empty) more
          · rw [concat_eq_append] at whole
            subst whole
            exact kept.typed_edit sound sound.erase fun _ => prefix_append _ _
        · exact kept.typed_same c
      · rename_i notBackspace
        split
        · rename_i ordinary
          refine kept.typed_insert ?_ ordinary.2
          rintro (backspace | delete | kill)
          · exact notBackspace (.inl backspace)
          · exact notBackspace (.inr delete)
          · exact notKill kill
        · exact kept.typed_same c

theorem Kept.consoleintr (chars : List UInt8) (kept : Kept st) :
    Kept (consoleintr st chars) ∧ (consoleintr st chars).taken = st.taken ∧
      (consoleintr st chars).reads = st.reads ∧ st.committed <+: (consoleintr st chars).committed ∧
      ((∀ c ∈ chars, erases c) → (consoleintr st chars).committed = st.committed ∧
        (consoleintr st chars).input.line <+: st.input.line) := by
  induction chars generalizing st with
  | nil => exact ⟨kept, rfl, rfl, prefix_rfl, fun _ => ⟨rfl, prefix_rfl⟩⟩
  | cons c rest ih =>
    have ty := kept.typeChar c
    obtain ⟨after, taken, reads, grows, erased⟩ := ih ty.kept
    refine ⟨after, taken.trans ty.taken, reads.trans ty.reads, ty.grows.trans grows, ?_⟩
    intro all
    have fst := ty.erased (all c mem_cons_self)
    have later := erased fun o mem => all o (mem_cons_of_mem _ mem)
    exact ⟨later.1.trans fst.1, later.2.trans fst.2⟩

/-! Steps of the readers. -/

theorem charsOf_append (p o : P) (taken : List (P × UInt8)) (new : List UInt8) :
    charsOf p (taken ++ new.map fun c => (o, c)) = charsOf p taken ++ if o = p then new else [] := by
  simp only [charsOf, filter_append, map_append, append_cancel_left_eq]
  split
  · rename_i eq
    rw [filter_eq_self.mpr (by simp [eq]), map_map]
    exact map_id new
  · rename_i ne
    rw [filter_eq_nil_iff.mpr (by simp [ne]), map_nil]

theorem readsOf_append (p : P) (reads : List (Read P)) (read : Read P) :
    readsOf p (reads ++ [read]) = readsOf p reads ++ if read.process = p then [read] else [] := by
  simp only [readsOf, filter_append, append_cancel_left_eq]
  split <;> simp [*]

theorem sectionTook_eq {dst new : List UInt8} (ending : Ending) :
    sectionTook dst (dst ++ new) ending = new ++ if ending = .done true then [ctrl 'D'] else [] := by
  cases ending with
  | wait => simp [sectionTook]
  | done eof => cases eof <;> simp [sectionTook]

theorem Kept.advance (kept : Kept st) {new : List UInt8} {pc : Pc} {reads : List (Read P)}
    (here : st.pc p = .awake reader) (sound : Sound input (st.taken.map Prod.snd ++ new) st.committed line)
    (still : st.input.r = st.input.w → input.r = input.w)
    (whole : (readsOf p st.reads).flatMap Read.chars ++ reader.dst ++ new =
      (readsOf p reads).flatMap Read.chars ++ pc.dst) (others : ∀ o, o ≠ p → readsOf o reads = readsOf o st.reads)
    (settled : pc.Settled input) (returned : ∀ read ∈ reads, read.fair)
    (failed : ∀ read ∈ reads, read.failed = true → st.killed read.process = true) : Kept { st with
      input, reads
      taken := st.taken ++ new.map fun c => (p, c)
      pc := update st.pc p pc } where
  sound := by
    refine ⟨line, ?_⟩
    rw [map_append, map_map]
    simpa using sound
  whole := by
    intro o
    rw [charsOf_append, kept.whole o]
    by_cases eq : p = o
    · subst o
      simp only [↓reduceIte, update_self, here, Pc.dst]
      exact whole
    · simp only [eq, ↓reduceIte, append_nil, ne_eq, Ne.symm eq, not_false_eq_true, update_of_ne]
      rw [others o (Ne.symm eq)]
  settled := by
    intro o
    by_cases eq : o = p
    · subst o
      simpa using settled
    · simpa [eq] using (kept.settled o).edit still
  returned := returned
  failed := failed

theorem Kept.readSection (kept : Kept st) (here : st.pc p = .awake reader) : Kept (readSection st p reader) := by
  obtain ⟨line, sound⟩ := kept.sound
  have fair := kept.settled p
  rw [here] at fair
  obtain ⟨sizes, plain⟩ := fair
  obtain ⟨new, took⟩ := sound.readLoop sizes
  have still : st.input.r = st.input.w →
      (readLoop reader.target reader.n st.input reader.dst).1 = st.input := readLoop_drained
  unfold Console.readSection
  generalize readLoop reader.target reader.n st.input reader.dst = res at took still ⊢
  obtain ⟨input, n, dst, ending⟩ := res
  obtain ⟨after, copied, fresh, size, waits, eof⟩ := took
  dsimp only at after copied size waits eof still ⊢
  subst copied
  rw [sectionTook_eq]
  have clean : ctrl 'D' ∉ reader.dst ++ new := by
    rw [mem_append, not_or]
    exact ⟨plain, fresh⟩
  have others : ∀ read : Read P, read.process = p → ∀ o, o ≠ p →
      readsOf o (st.reads ++ [read]) = readsOf o st.reads := by
    intro read mine o ne
    rw [readsOf_append, mine, if_neg (Ne.symm ne), append_nil]
  -- What a call that returns here adds is what it has copied, and the Control-D if it took one.
  have whole : ∀ (eof failed : Bool),
      (readsOf p (st.reads ++ [⟨p, reader.dst ++ new, eof, failed⟩])).flatMap Read.chars =
        (readsOf p st.reads).flatMap Read.chars ++ reader.dst ++ (new ++ if eof then [ctrl 'D'] else []) := by
    intro eof failed
    rw [readsOf_append]
    simp [Read.chars]
  have returns : ∀ (eof failed : Bool), (eof = true → reader.dst ++ new = [] ∧ failed = false) →
      ∀ read ∈ st.reads ++ [⟨p, reader.dst ++ new, eof, failed⟩], Read.fair read := by
    intro eof failed empty read mem
    rcases mem_append.mp mem with earlier | last
    · exact kept.returned read earlier
    · obtain rfl := mem_singleton.mp last
      exact ⟨clean, empty⟩
  have fails : ∀ (eof failed : Bool), (failed = true → st.killed p = true) →
      ∀ read ∈ st.reads ++ [⟨p, reader.dst ++ new, eof, failed⟩], read.failed = true →
        st.killed read.process = true := by
    intro eof failed killed read mem
    rcases mem_append.mp mem with earlier | last
    · exact kept.failed read earlier
    · obtain rfl := mem_singleton.mp last
      exact killed
  have unmoved : st.input.r = st.input.w → input.r = input.w := by
    intro drained
    rw [still drained, drained]
  cases ending with
  | done took =>
    refine kept.advance here after unmoved ?_ (others _ rfl) trivial
      (returns took false ?_) (fails took false (by simp))
    · rw [whole took false]
      simp [Pc.dst]
    · intro last
      exact ⟨eof (by rw [last]), rfl⟩
  | wait =>
    simp only [reduceCtorEq, ↓reduceIte, append_nil] at after ⊢
    split
    · refine kept.advance here after unmoved ?_ (others _ rfl) trivial
        (returns false true (by simp)) (fails false true fun _ => ‹_›)
      rw [whole false true]
      simp [Pc.dst]
    · refine kept.advance here after unmoved ?_ (fun _ _ => rfl) ?_ kept.returned kept.failed
      · simp [Pc.dst]
      · exact ⟨waits rfl, size, clean⟩

theorem Kept.move (kept : Kept st) {pc : Pc} {killed : P → Bool} (dst : pc.dst = (st.pc p).dst)
    (settled : pc.Settled st.input) (stays : ∀ o, st.killed o = true → killed o = true) :
    Kept { st with killed, pc := update st.pc p pc } where
  sound := kept.sound
  whole := by
    intro o
    rw [kept.whole o]
    by_cases eq : o = p <;> simp [eq, dst]
  settled := by
    intro o
    by_cases eq : o = p
    · subst o
      simpa using settled
    · simpa [eq] using kept.settled o
  returned := kept.returned
  failed := fun read mem failed => stays _ (kept.failed read mem failed)

theorem Kept.next (kept : Kept st) {action : Action P} (taken : Next st action st') : Kept st' := by
  cases action with
  | consoleintr chars =>
    cases taken
    exact (kept.consoleintr chars).1
  | consoleread p n =>
    simp only [Next, step] at taken
    split at taken <;> cases taken
    rename_i idle
    exact kept.move (by rw [idle]; rfl) ⟨by simp, by simp⟩ fun _ killed => killed
  | run p =>
    simp only [Next, step] at taken
    split at taken <;> cases taken
    rename_i reader here
    exact kept.readSection here
  | kill p =>
    cases taken
    refine kept.move (Pc.wake_dst _) ((kept.settled p).wake _) ?_
    intro o killed
    by_cases eq : o = p
    · simp [eq]
    · simpa [eq] using killed

theorem kept_of_reached {buf : Nat → UInt8}
    (reached : Reachable Next (fun _ _ => True) (State.initial buf) st) : Kept st :=
  reached.invariant Kept (.initial buf) fun _ _ _ kept _ taken => kept.next taken

/-- The discipline of the console: what is committed is taken in order, and every call returns what it
took; typing takes nothing, and the keys that erase shorten the line only. -/
theorem console_discipline (buf : Nat → UInt8) (reached : Reachable Next (fun _ _ => True) (State.initial buf) st) :
    ((st.input.w - st.input.r).toNat ≤ (st.input.e - st.input.r).toNat ∧
      (st.input.e - st.input.r).toNat ≤ INPUT_BUF.toNat) ∧
    st.taken.map Prod.snd ++ st.input.ready = st.committed ∧ (∀ process, charsOf process st.taken =
      (readsOf process st.reads).flatMap Read.chars ++ (st.pc process).dst) ∧
    (∀ read ∈ st.reads, read.fair ∧ (read.failed = true → st.killed read.process = true)) ∧
    (st.input.e = st.input.r + INPUT_BUF → st.input.w = st.input.e ∧
      ∀ process reader, st.pc process ≠ .asleep reader) ∧ ∀ chars st', Next st (.consoleintr chars) st' →
      st'.taken = st.taken ∧ st'.reads = st.reads ∧ st.input.ready <+: st'.input.ready ∧
      ((∀ c ∈ chars, erases c) → st'.input.ready = st.input.ready ∧ st'.input.line <+: st.input.line) := by
  have kept := kept_of_reached reached
  obtain ⟨line, sound⟩ := kept.sound
  have fits := sound.fits
  have behind := sound.behind
  refine ⟨⟨?_, ?_⟩, sound.ready_eq.symm, kept.whole,
    fun read member => ⟨kept.returned read member, kept.failed read member⟩, ?_, ?_⟩
  · rw [sound.ready_length, sound.all_length]
    omega
  · rw [sound.all_length]
    simp only [INPUT_BUF, UInt32.reduceToNat]
    omega
  · intro full
    have total := sound.full_iff.mp full
    have committed := sound.full total
    refine ⟨(sound.empty_iff.mpr committed).symm, ?_⟩
    intro process reader asleep
    have rests := kept.settled process
    rw [asleep] at rests
    have drained := sound.drained_iff.mp rests.1
    rw [committed, List.length_nil] at total
    omega
  · intro chars st' taken
    cases taken
    obtain ⟨kept', same, reads, grows, erased⟩ := kept.consoleintr chars
    obtain ⟨line', sound'⟩ := kept'.sound
    have before := sound.ready_eq
    have after := sound'.ready_eq
    rw [same] at after
    refine ⟨same, reads, ?_, ?_⟩
    · rw [before, after] at grows
      exact (List.prefix_append_right_inj _).mp grows
    · intro all
      obtain ⟨committed, shorter⟩ := erased all
      refine ⟨?_, shorter⟩
      rw [before, after] at committed
      exact List.append_cancel_left committed

theorem console_discipline_line : ∃ st : State Unit, Reachable Next (fun _ _ => True) (State.initial fun _ => 0) st ∧
    st.reads = [⟨(), [104, 105, newline], false, false⟩, ⟨(), [], true, false⟩] ∧
    st.committed = [104, 105, newline, ctrl 'D'] ∧ st.taken.map Prod.snd ++ st.input.ready = st.committed := by
  have checked : (replay step (fun (_ : State Unit) _ => True)
      [.consoleread () 10, .run (), .consoleintr [104, 120, 0x7f, 105], .consoleintr [13, ctrl 'D'],
        .run (), .consoleread () 10, .run ()] (State.initial fun _ => 0)).any (fun st => decide
          (st.reads = [⟨(), [104, 105, newline], false, false⟩, ⟨(), [], true, false⟩] ∧
            st.committed = [104, 105, newline, ctrl 'D'])) = true := by
    decide +kernel
  obtain ⟨st, reached, found⟩ := Reachable.of_replay (fun _ _ _ _ taken => taken) checked
  obtain ⟨reads, committed⟩ := of_decide_eq_true found
  exact ⟨st, reached, reads, committed, (console_discipline _ reached).2.1⟩

/-- A process reads a full ring, waits for more, and is killed: its call returns `-1`, and what it
had taken comes to no one. -/
theorem killed_read_drops : ∃ st : State Bool, Reachable Next (fun _ _ => True) (State.initial fun _ => 0) st ∧
    st.pc false = .idle ∧ st.input.ready = [] ∧ st.committed = List.replicate 128 97 ++ [98, newline] ∧
    (st.reads.filter fun read => !read.failed).flatMap Read.bytes = [98, newline] := by
  have checked : (replay step (fun (_ : State Bool) _ => True)
      [.consoleread false 200, .consoleintr (List.replicate 128 97), .run false, .kill false, .run false,
        .consoleintr [98, 13], .consoleread true 10, .run true] (State.initial fun _ => 0)).any
          (fun st => decide (st.pc false = .idle ∧ st.input.ready = [] ∧
            st.committed = List.replicate 128 97 ++ [98, newline] ∧
            (st.reads.filter fun read => !read.failed).flatMap Read.bytes = [98, newline])) = true := by
    decide +kernel
  obtain ⟨st, reached, found⟩ := Reachable.of_replay (fun _ _ _ _ taken => taken) checked
  exact ⟨st, reached, of_decide_eq_true found⟩

end Xv6.Console
