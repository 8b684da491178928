import Xv6.LogCore
import Xv6.Lib.Writes

/-! Crash atomicity of the redo log: whatever write of `commit` or of recovery the
machine stops after, a completed recovery leaves the old blocks or all the new ones. -/

namespace Xv6

open Writes List Bytes LogHeader Function

/-- The disks on which the machine can come up again after crashes inside recovery. -/
inductive Crashes (start : Nat) : (Nat → Block) → (Nat → Block) → Prop
  | refl (disk) : Crashes start disk disk
  | again {disk run} (m count) : Crashes start disk run →
      recoverFromLog start (.boot run) = some m → Crashes start disk (applyAll run (m.writes.take count))

structure Issues (m m' : Machine) (writes : List (Nat × Block)) : Prop where
  writes_eq : m'.writes = m.writes ++ writes
  disk_eq : m'.disk = applyAll m.disk writes
  contents_eq : m'.contents = applyAll m.contents writes

theorem Issues.refl (m : Machine) : Issues m m [] :=
  ⟨by simp, rfl, rfl⟩

theorem Issues.trans {fst snd third : Machine} {left right : List (Nat × Block)}
    (one : Issues fst snd left) (two : Issues snd third right) : Issues fst third (left ++ right) where
  writes_eq := by rw [two.writes_eq, one.writes_eq, append_assoc]
  disk_eq := by rw [two.disk_eq, one.disk_eq, applyAll_append]
  contents_eq := by rw [two.contents_eq, one.contents_eq, applyAll_append]

theorem Machine.bread_issues (m : Machine) (b : Nat) : Issues m (m.bread b).2 [] := by
  refine ⟨by simp [bread], rfl, ?_⟩
  funext o
  by_cases eq : o = b <;> simp [eq, bread, contents]

theorem Machine.bwrite_issues (m : Machine) (b : Nat) (data : Block) : Issues m (m.bwrite b data) [(b, data)] := by
  refine ⟨rfl, rfl, ?_⟩
  funext o
  by_cases eq : o = b <;> simp [eq, bwrite, contents]

def logWrites (start : Nat) (content : Nat → Block) : Nat → List Nat → List (Nat × Block)
  | _, [] => []
  | tail, blockno :: rest =>
    (start + tail + 1, content blockno) :: logWrites start content (tail + 1) rest

def homeWrites (start : Nat) (content : Nat → Block) : Nat → List Nat → List (Nat × Block)
  | _, [] => []
  | tail, blockno :: rest =>
    (blockno, content (start + tail + 1)) :: homeWrites start content (tail + 1) rest

theorem logWrites_congr (s0 : Nat) (left right : Nat → Block) (blocks : List Nat)
    (eq : ∀ b ∈ blocks, left b = right b) (tail : Nat) :
    logWrites s0 left tail blocks = logWrites s0 right tail blocks := by
  induction blocks generalizing tail with
  | nil => rfl
  | cons b rest ih =>
    simp only [logWrites, eq b (by simp)]
    rw [ih (fun o mem => eq o (mem_cons_of_mem _ mem))]

theorem homeWrites_congr (s0 : Nat) (left right : Nat → Block) (blocks : List Nat) (tail : Nat)
    (eq : ∀ k, tail ≤ k → k < tail + blocks.length → left (s0 + k + 1) = right (s0 + k + 1)) :
    homeWrites s0 left tail blocks = homeWrites s0 right tail blocks := by
  induction blocks generalizing tail with
  | nil => rfl
  | cons b rest ih =>
    simp only [length_cons] at eq
    simp only [homeWrites, eq tail (by omega) (by omega)]
    rw [ih (tail + 1) (fun k lower upper => eq k (by omega) (by omega))]

variable {s0 size : Nat} {content : Nat → Block} {lh : LogHeader}

theorem mem_logWrites {write : Nat × Block} :
    ∀ {tail : Nat} {blocks : List Nat}, write ∈ logWrites s0 content tail blocks → ∃ k b, blocks[k]? = some b ∧
        write = (s0 + (tail + k) + 1, content b) := by
  intro tail blocks mem
  induction blocks generalizing tail with
  | nil => simp [logWrites] at mem
  | cons b rest ih =>
    simp only [logWrites, mem_cons] at mem
    rcases mem with here | later
    · exact ⟨0, b, by simp, by simpa using here⟩
    · obtain ⟨k, other, found, eq⟩ := ih later
      exact ⟨k + 1, other, by simpa using found, by rw [eq]; congr 2; omega⟩

theorem mem_homeWrites {write : Nat × Block} :
    ∀ {tail : Nat} {blocks : List Nat}, write ∈ homeWrites s0 content tail blocks → ∃ k b, blocks[k]? = some b ∧
        write = (b, content (s0 + (tail + k) + 1)) := by
  intro tail blocks mem
  induction blocks generalizing tail with
  | nil => simp [homeWrites] at mem
  | cons b rest ih =>
    simp only [homeWrites, mem_cons] at mem
    rcases mem with here | later
    · exact ⟨0, b, by simp, by simpa using here⟩
    · obtain ⟨k, other, found, eq⟩ := ih later
      refine ⟨k + 1, other, by simpa using found, ?_⟩
      rw [eq]
      congr 2
      omega

@[simp] theorem length_logWrites (s0 : Nat) (content : Nat → Block) (blocks : List Nat) :
    ∀ tail, (logWrites s0 content tail blocks).length = blocks.length := by
  induction blocks with
  | nil => intro tail; rfl
  | cons b rest ih => intro tail; simp [logWrites, ih]

theorem applyAll_logWrites (s0 : Nat) (content store : Nat → Block) :
    ∀ (blocks : List Nat) (tail k b : Nat), blocks[k]? = some b →
      applyAll store (logWrites s0 content tail blocks) (s0 + (tail + k) + 1) = content b := by
  intro blocks
  induction blocks generalizing store with
  | nil => intro tail k b hit; simp at hit
  | cons fst rest ih =>
    intro tail k b hit
    cases k with
    | zero =>
      have here : fst = b := by simpa using hit
      subst b
      simp only [logWrites, applyAll_cons, Nat.add_zero]
      rw [applyAll_untouched, update_self]
      intro write mem
      obtain ⟨later, other, _, eq⟩ := mem_logWrites mem
      simp only [eq]
      omega
    | succ k =>
      have next := ih (update store (s0 + tail + 1) (content fst)) (tail + 1) k b (by simpa using hit)
      simp only [logWrites, applyAll_cons]
      rwa [show s0 + (tail + (k + 1)) + 1 = s0 + (tail + 1 + k) + 1 by omega]

def Apart (start tail : Nat) (blocks : List Nat) : Prop :=
  ∀ blockno ∈ blocks, ∀ place, tail ≤ place → place < tail + blocks.length → blockno ≠ start + place + 1

theorem Apart.rest {tail fst : Nat} {rest : List Nat} (apart : Apart s0 tail (fst :: rest)) :
    Apart s0 (tail + 1) rest := by
  intro b mem k lower upper
  exact apart b (mem_cons_of_mem _ mem) k (by omega) (by simp only [length_cons]; omega)

theorem Machine.copy_issues (m : Machine) (fst snd b : Nat) (data : Block) :
    Issues m (((m.bread fst).2.bread snd).2.bwrite b data) [(b, data)] :=
  ((m.bread_issues fst).trans (Machine.bread_issues _ snd)).trans (Machine.bwrite_issues _ b data)

theorem writeLog_issues (s0 : Nat) : ∀ (blocks : List Nat) (tail : Nat) (m : Machine), Apart s0 tail blocks →
      Issues m (writeLog s0 tail blocks m) (logWrites s0 m.contents tail blocks) := by
  intro blocks
  induction blocks with
  | nil => intro tail m _; exact Issues.refl m
  | cons b rest ih =>
    intro tail m apart
    have data : ((m.bread (s0 + tail + 1)).2.bread b).1 = m.contents b :=
      congrFun (m.bread_issues (s0 + tail + 1)).contents_eq b
    have fst := m.copy_issues (s0 + tail + 1) b (s0 + tail + 1) (m.contents b)
    have later := ih (tail + 1) (((m.bread (s0 + tail + 1)).2.bread b).2.bwrite
      (s0 + tail + 1) (m.contents b)) apart.rest
    rw [logWrites_congr s0 _ m.contents rest _ (tail + 1)] at later
    · have whole := fst.trans later
      simp only [writeLog, logWrites, data]
      exact whole
    · intro o mem
      have ne : o ≠ s0 + tail + 1 :=
        apart o (mem_cons_of_mem _ mem) tail (by omega) (by simp)
      rw [fst.contents_eq]
      simp [ne]

theorem installTrans_issues (s0 : Nat) : ∀ (blocks : List Nat) (tail : Nat) (m : Machine), Apart s0 tail blocks →
      Issues m (installTrans s0 tail blocks m) (homeWrites s0 m.contents tail blocks) := by
  intro blocks
  induction blocks with
  | nil => intro tail m _; exact Issues.refl m
  | cons b rest ih =>
    intro tail m apart
    have fst := m.copy_issues (s0 + tail + 1) b b (m.contents (s0 + tail + 1))
    have later := ih (tail + 1) (((m.bread (s0 + tail + 1)).2.bread b).2.bwrite
      b (m.contents (s0 + tail + 1))) apart.rest
    rw [homeWrites_congr s0 _ m.contents rest (tail + 1)] at later
    · have whole := fst.trans later
      simp only [installTrans, homeWrites]
      exact whole
    · intro k lower upper
      have ne : s0 + k + 1 ≠ b :=
        (apart b (by simp) k (by omega) (by simp only [length_cons]; omega)).symm
      rw [fst.contents_eq]
      simp [ne]

theorem writeHead_issues (s0 : Nat) (lh : LogHeader) (m : Machine) :
    Issues m (writeHead s0 lh m) [(s0, encodeHead (m.contents s0) lh)] :=
  (m.bread_issues s0).trans (Machine.bwrite_issues _ s0 _)

theorem word_fillWords_below (values : List Nat) : ∀ (data : Block) (i o : Nat),
    o < i → (fillWords data i values).word o = data.word o := by
  induction values with
  | nil => intro data i o _; rfl
  | cons val rest ih =>
    intro data i o below
    rw [fillWords, ih _ _ _ (by omega), word_setWord_ne _ _ (by omega)]

theorem word_fillWords (values : List Nat) : ∀ (data : Block) (i k val : Nat),
    4 * (i + values.length) ≤ BSIZE → values[k]? = some val →
      (fillWords data i values).word (i + k) = val % 2 ^ 32 := by
  induction values with
  | nil => intro data i k val _ hit; simp at hit
  | cons fst rest ih =>
    intro data i k val room hit
    simp only [length_cons] at room
    cases k with
    | zero =>
      have here : fst = val := by simpa using hit
      subst val
      rw [fillWords, word_fillWords_below _ _ _ _ (by omega), Nat.add_zero, word_setWord_same _ _ _ (by omega)]
    | succ k =>
      have next := ih (data.setWord i fst) (i + 1) k val (by omega) (by simpa using hit)
      rwa [show i + (k + 1) = i + 1 + k by omega]

theorem encodeHead_count (data : Block) (lh : LogHeader) : (encodeHead data lh).word 0 = lh.n := by
  have fits : lh.n ≤ 30 := lh.fits
  rw [encodeHead, word_fillWords_below _ _ _ _ (by omega), word_setWord_same _ _ _ (by decide)]
  omega

theorem toInt32_small {val : Nat} (small : val < 2 ^ 31) : toInt32 val = val := by
  rw [toInt32, BitVec.toInt_eq_toNat_of_lt] <;> rw [BitVec.toNat_ofNat] <;> omega

theorem LogHeader.ext_blocks {left right : LogHeader} (eq : left.blocks = right.blocks) : left = right := by
  cases left
  cases right
  simpa using eq

theorem decodeHead_encodeHead (data : Block) (lh : LogHeader) (numbers : ∀ b ∈ lh.blocks, b < 2 ^ 32) :
    decodeHead (encodeHead data lh) = some lh := by
  have fits : lh.blocks.length ≤ 30 := lh.fits
  have count : (toInt32 ((encodeHead data lh).word 0)).toNat = lh.blocks.length := by
    rw [encodeHead_count, toInt32_small (by simp only [n]; omega)]
    simp [n]
  unfold decodeHead
  simp only [count]
  rw [dif_pos lh.fits]
  congr 1
  apply ext_blocks
  apply ext_getElem
  · simp
  · intro k lt inList
    have stored := word_fillWords lh.blocks (data.setWord 0 lh.n) 1 k lh.blocks[k]
      (by simp only [BSIZE]; omega) (by simp [inList])
    have small := numbers lh.blocks[k] (getElem_mem inList)
    simp only [getElem_map, getElem_range]
    rw [encodeHead, Nat.add_comm, stored, Nat.mod_eq_of_lt small]

theorem decodeHead_empty (data : Block) (none : data.word 0 = 0) : decodeHead data = some .empty := by
  have n : (toInt32 (data.word 0)).toNat = 0 := by rw [none]; rfl
  unfold decodeHead
  simp only [n]
  rw [dif_pos (Nat.zero_le _)]
  rfl

structure Transaction (start size : Nat) (lh : LogHeader) : Prop where
  room : lh.n < size
  numbers : ∀ blockno ∈ lh.blocks, blockno < 2 ^ 32
  outside : ∀ blockno ∈ lh.blocks, blockno < start ∨ start + size ≤ blockno

structure Clean (start size : Nat) (home disk : Nat → Block) : Prop where
  header : (disk start).word 0 = 0
  rest : ∀ blockno, blockno < start ∨ start + size ≤ blockno → disk blockno = home blockno

structure Committed (start size : Nat) (lh : LogHeader) (content home disk : Nat → Block) : Prop where
  header : decodeHead (disk start) = some lh
  logged : ∀ place blockno, lh.blocks[place]? = some blockno → disk (start + place + 1) = content blockno
  rest : ∀ blockno, blockno < start ∨ start + size ≤ blockno → blockno ∉ lh.blocks → disk blockno = home blockno
  either : ∀ blockno ∈ lh.blocks, disk blockno = home blockno ∨ disk blockno = content blockno

def installed (lh : LogHeader) (content home : Nat → Block) (blockno : Nat) : Block :=
  if blockno ∈ lh.blocks then content blockno else home blockno

section

variable {s0 size : Nat} {lh : LogHeader} {content home disk : Nat → Block}

theorem Transaction.apart (txn : Transaction s0 size lh) : Apart s0 0 lh.blocks := by
  intro b mem k _ upper
  have outside := txn.outside b mem
  have room : lh.blocks.length < size := txn.room
  omega

theorem Transaction.start_not_mem (txn : Transaction s0 size lh) : s0 ∉ lh.blocks := by
  intro mem
  have outside := txn.outside s0 mem
  have room := txn.room
  omega

theorem Clean.update_log (clean : Clean s0 size home disk) (k : Nat) (data : Block) (low : s0 < k ∧ k < s0 + size) :
    Clean s0 size home (update disk k data) where
  header := by rw [update_of_ne (by omega)]; exact clean.header
  rest := by
    intro b outside
    rw [update_of_ne (by omega)]
    exact clean.rest b outside

theorem Clean.update_head (clean : Clean s0 size home disk) (room : 0 < size) (data : Block)
    (none : data.word 0 = 0) : Clean s0 size home (update disk s0 data) where
  header := by rw [update_self]; exact none
  rest := by
    intro b outside
    rw [update_of_ne (by omega)]
    exact clean.rest b outside

theorem Committed.update_home (txn : Transaction s0 size lh)
    (committed : Committed s0 size lh content home disk) (b : Nat) (mem : b ∈ lh.blocks) :
    Committed s0 size lh content home (update disk b (content b)) where
  header := by
    have ne : s0 ≠ b := fun eq => txn.start_not_mem (eq ▸ mem)
    rw [update_of_ne ne]
    exact committed.header
  logged := by
    intro k o hit
    have lt : k < lh.blocks.length := (List.getElem?_eq_some_iff.mp hit).1
    have ne := (txn.apart b mem k (by omega) (by omega)).symm
    rw [update_of_ne ne]
    exact committed.logged k o hit
  rest := by
    intro o outside absent
    have ne : o ≠ b := fun eq => absent (eq ▸ mem)
    rw [update_of_ne ne]
    exact committed.rest o outside absent
  either := by
    intro o otherMember
    by_cases eq : o = b
    · subst o
      exact .inr (update_self _ _ _)
    · rw [update_of_ne eq]
      exact committed.either o otherMember

theorem Committed.homeWrites_values (committed : Committed s0 size lh content home disk)
    (write : Nat × Block) (mem : write ∈ homeWrites s0 disk 0 lh.blocks) :
    write.1 ∈ lh.blocks ∧ write.2 = content write.1 := by
  obtain ⟨k, b, found, eq⟩ := mem_homeWrites mem
  subst eq
  refine ⟨mem_of_getElem? found, ?_⟩
  have logged := committed.logged k b found
  simpa using logged

theorem homeWrites_covers (b : Nat) (source : Nat → Block) (blocks : List Nat) (mem : b ∈ blocks) :
    ∀ tail, ∃ write ∈ homeWrites s0 source tail blocks, write.1 = b := by
  induction blocks with
  | nil => simp at mem
  | cons fst rest ih =>
    intro tail
    rcases mem_cons.mp mem with eq | later
    · exact ⟨_, mem_cons_self, eq.symm⟩
    · obtain ⟨write, found, eq⟩ := ih later (tail + 1)
      exact ⟨write, mem_cons_of_mem _ found, eq⟩

theorem Committed.cleared (txn : Transaction s0 size lh)
    (committed : Committed s0 size lh content home disk) (data : Block) (none : data.word 0 = 0) :
    Clean s0 size (installed lh content home) (applyAll disk (homeWrites s0 disk 0 lh.blocks ++ [(s0, data)])) := by
  have room := txn.room
  rw [applyAll_append, applyAll_cons, applyAll_nil]
  refine ⟨by rw [update_self]; exact none, ?_⟩
  intro b outside
  rw [update_of_ne (by omega), installed]
  split
  · rename_i mem
    exact applyAll_of_values content _ (fun write hit => (committed.homeWrites_values write hit).2)
      disk b (homeWrites_covers b disk lh.blocks mem 0)
  · rename_i absent
    rw [applyAll_untouched]
    · exact committed.rest b outside absent
    · intro write hit eq
      exact absent (eq ▸ (committed.homeWrites_values write hit).1)

theorem Committed.cut (txn : Transaction s0 size lh)
    (committed : Committed s0 size lh content home disk) (data : Block) (none : data.word 0 = 0) (n : Nat) :
    let run := applyAll disk ((homeWrites s0 disk 0 lh.blocks ++ [(s0, data)]).take n)
    Committed s0 size lh content home run ∨ Clean s0 size (installed lh content home) run := by
  intro run
  by_cases early : n ≤ (homeWrites s0 disk 0 lh.blocks).length
  · left
    simp only [run]
    rw [applyAll_take_append, if_pos early]
    apply applyAll_take_induction _ _ _ _ committed
    intro disk' committed' write mem
    obtain ⟨home, val⟩ := committed.homeWrites_values write mem
    rw [val]
    exact committed'.update_home txn _ home
  · right
    simp only [run]
    rw [take_of_length_le (by simp at early ⊢; omega)]
    exact committed.cleared txn data none

theorem Clean.log_cut (clean : Clean s0 size home disk) (txn : Transaction s0 size lh) (n : Nat) :
    Clean s0 size home (applyAll disk ((logWrites s0 content 0 lh.blocks).take n)) := by
  apply applyAll_take_induction _ _ _ _ clean
  intro disk' clean' write mem
  obtain ⟨k, b, found, eq⟩ := mem_logWrites mem
  have lt : k < lh.blocks.length := (List.getElem?_eq_some_iff.mp found).1
  have room : lh.blocks.length < size := txn.room
  rw [eq]
  exact clean'.update_log _ _ (by simp only; omega)

theorem recoverFromLog_writes (header : decodeHead (disk s0) = some lh)
    (apart : Apart s0 0 lh.blocks) (notHome : s0 ∉ lh.blocks) : ∃ m, recoverFromLog s0 (.boot disk) = some m ∧
      m.writes = homeWrites s0 disk 0 lh.blocks ++ [(s0, encodeHead (disk s0) .empty)] ∧
      m.disk = applyAll disk m.writes := by
  have read := (Machine.boot disk).bread_issues s0
  have install := installTrans_issues s0 lh.blocks 0 ((Machine.boot disk).bread s0).2 apart
  have write := writeHead_issues s0 .empty (installTrans s0 0 lh.blocks ((Machine.boot disk).bread s0).2)
  have booted : (Machine.boot disk).contents = disk := rfl
  have afterRead : ((Machine.boot disk).bread s0).2.contents = disk := by
    rw [read.contents_eq, booted, applyAll_nil]
  have headKept : (installTrans s0 0 lh.blocks ((Machine.boot disk).bread s0).2).contents s0 = disk s0 := by
    rw [install.contents_eq, afterRead, applyAll_untouched]
    intro ent mem same
    obtain ⟨k, b, found, eq⟩ := mem_homeWrites mem
    rw [eq] at same
    exact notHome (same ▸ mem_of_getElem? found)
  rw [headKept] at write
  rw [afterRead] at install
  have whole := (read.trans install).trans write
  refine ⟨_, ?_, by rw [whole.writes_eq]; rfl, by rw [whole.disk_eq, whole.writes_eq]; rfl⟩
  simp only [recoverFromLog, readHead, Machine.bread, booted, header, Option.map_some]

theorem Clean.recover (clean : Clean s0 size home disk) (room : 0 < size) :
    ∃ m, recoverFromLog s0 (.boot disk) = some m ∧ Clean s0 size home m.disk ∧
      ∀ n, Clean s0 size home (applyAll disk (m.writes.take n)) := by
  have header : decodeHead (disk s0) = some .empty := decodeHead_empty _ clean.header
  obtain ⟨m, ran, writes, final⟩ := recoverFromLog_writes header
    (by simp [Apart, LogHeader.empty]) (by simp [LogHeader.empty])
  have kept : ∀ disk, Clean s0 size home disk → ∀ write ∈ m.writes,
      Clean s0 size home (update disk write.1 write.2) := by
    intro disk' clean' write mem
    rw [writes] at mem
    simp only [LogHeader.empty, homeWrites, nil_append, mem_singleton] at mem
    subst mem
    exact clean'.update_head room _ (encodeHead_count _ _)
  refine ⟨m, ran, ?_, ?_⟩
  · rw [final]
    exact applyAll_induction _ kept disk clean
  · exact fun n => applyAll_take_induction _ kept disk n clean

theorem Committed.recover (txn : Transaction s0 size lh) (committed : Committed s0 size lh content home disk) :
    ∃ m, recoverFromLog s0 (.boot disk) = some m ∧ Clean s0 size (installed lh content home) m.disk ∧
      ∀ n, Committed s0 size lh content home (applyAll disk (m.writes.take n)) ∨
        Clean s0 size (installed lh content home) (applyAll disk (m.writes.take n)) := by
  obtain ⟨m, ran, writes, final⟩ := recoverFromLog_writes committed.header txn.apart txn.start_not_mem
  have none := encodeHead_count (disk s0) .empty
  refine ⟨m, ran, ?_, ?_⟩
  · rw [final, writes]
    exact committed.cleared txn _ none
  · intro n
    rw [writes]
    exact committed.cut txn _ none n

theorem Clean.crashes (room : 0 < size) {run : Nat → Block}
    (clean : Clean s0 size home disk) (crashes : Crashes s0 disk run) : Clean s0 size home run := by
  induction crashes with
  | refl => exact clean
  | again m n _ ran ih =>
    obtain ⟨recovered, ran', _, cut⟩ := ih.recover room
    rw [ran] at ran'
    cases ran'
    exact cut n

theorem Committed.crashes (txn : Transaction s0 size lh) {run : Nat → Block}
    (start_ : Committed s0 size lh content home disk ∨ Clean s0 size (installed lh content home) disk)
    (crashes : Crashes s0 disk run) :
    Committed s0 size lh content home run ∨ Clean s0 size (installed lh content home) run := by
  have room := txn.room
  induction crashes with
  | refl => exact start_
  | again m n _ ran ih =>
    rcases ih with committed | clean
    · obtain ⟨recovered, ran', _, cut⟩ := committed.recover txn
      rw [ran] at ran'
      cases ran'
      exact cut n
    · obtain ⟨recovered, ran', _, cut⟩ := clean.recover (by omega)
      rw [ran] at ran'
      cases ran'
      exact .inr (cut n)

end

def headWrites (start : Nat) (content : Nat → Block) (blocks : List Nat) (head : Block) : List (Nat × Block) :=
  logWrites start content 0 blocks ++ [(start, head)]

theorem applyAll_headWrites (s0 : Nat) (content store : Nat → Block) (blocks : List Nat)
    (head : Block) {k b : Nat} (hit : blocks[k]? = some b) :
    applyAll store (headWrites s0 content blocks head) (s0 + k + 1) = content b := by
  rw [headWrites, applyAll_append, applyAll_cons, applyAll_nil, update_of_ne (by omega)]
  have logged := applyAll_logWrites s0 content store blocks 0 k b hit
  simpa using logged

theorem commit_writes (txn : Transaction s0 size lh) (nonempty : lh.n > 0) (disk : Nat → Block)
    (cache : Nat → Option Block) : ∃ head cleared, decodeHead head = some lh ∧ cleared.word 0 = 0 ∧
      (commit s0 lh ⟨disk, cache, []⟩).writes = headWrites s0 (Machine.contents ⟨disk, cache, []⟩) lh.blocks head ++
          (homeWrites s0 (applyAll disk (headWrites s0 (Machine.contents ⟨disk, cache, []⟩) lh.blocks head))
            0 lh.blocks ++ [(s0, cleared)]) := by
  generalize initialEq : Machine.mk disk cache [] = initial
  have fresh : initial.writes = [] := by rw [← initialEq]
  have platter : initial.disk = disk := by rw [← initialEq]
  have logged := writeLog_issues s0 lh.blocks 0 initial txn.apart
  have headed := writeHead_issues s0 lh (writeLog s0 0 lh.blocks initial)
  have committed := logged.trans headed
  have home := installTrans_issues s0 lh.blocks 0 (writeHead s0 lh (writeLog s0 0 lh.blocks initial)) txn.apart
  have erased := writeHead_issues s0 .empty (installTrans s0 0 lh.blocks
    (writeHead s0 lh (writeLog s0 0 lh.blocks initial)))
  generalize headEq : encodeHead ((writeLog s0 0 lh.blocks initial).contents s0) lh = head at headed committed
  generalize lastEq : (installTrans s0 0 lh.blocks
    (writeHead s0 lh (writeLog s0 0 lh.blocks initial))).contents s0 = last at erased
  rw [homeWrites_congr s0 _ (applyAll disk (headWrites s0 initial.contents lh.blocks head))] at home
  · have whole := committed.trans (home.trans erased)
    refine ⟨head, encodeHead last .empty, ?_, encodeHead_count last .empty, ?_⟩
    · rw [← headEq]
      exact decodeHead_encodeHead _ lh txn.numbers
    · have written := whole.writes_eq
      rw [fresh, nil_append] at written
      simp only [commit, nonempty, ↓reduceIte]
      exact written
  · intro k _ upper
    have hit : lh.blocks[k]? = some lh.blocks[k] := by simp
    rw [committed.contents_eq]
    rw [applyAll_headWrites _ _ _ _ _ hit]
    exact applyAll_headWrites s0 initial.contents initial.contents lh.blocks head hit

theorem Clean.committed {home disk : Nat → Block} (clean : Clean s0 size home disk)
    (txn : Transaction s0 size lh) (head : Block) (decoded : decodeHead head = some lh) :
    Committed s0 size lh content home (applyAll disk (headWrites s0 content lh.blocks head)) := by
  have room := txn.room
  have logged : Clean s0 size home (applyAll disk ((logWrites s0 content 0 lh.blocks).take lh.blocks.length)) :=
    clean.log_cut txn lh.blocks.length
  rw [take_of_length_le (by simp)] at logged
  have homeKept : ∀ b, b < s0 ∨ s0 + size ≤ b → applyAll disk (headWrites s0 content lh.blocks head) b = home b := by
    intro b outside
    rw [headWrites, applyAll_append, applyAll_cons, applyAll_nil, update_of_ne (by omega)]
    exact logged.rest b outside
  refine ⟨?_, fun k b hit => applyAll_headWrites _ _ _ _ _ hit, fun b outside _ => homeKept b outside,
    fun b mem => .inl (homeKept b (txn.outside b mem))⟩
  rw [headWrites, applyAll_append, applyAll_cons, applyAll_nil, update_self]
  exact decoded

/-- Every prefix of the writes of `commit` leaves the disk clean with its old home blocks, or,
from the first header write on, committed or clean with the new ones. -/
theorem commit_cut (txn : Transaction s0 size lh) (disk : Nat → Block)
    (cache : Nat → Option Block) (clean : (disk s0).word 0 = 0) (count : Nat) :
    let content := Machine.contents ⟨disk, cache, []⟩
    let cut := applyAll disk ((commit s0 lh ⟨disk, cache, []⟩).writes.take count)
    (count ≤ lh.n ∧ Clean s0 size disk cut) ∨
      Committed s0 size lh content disk cut ∨ Clean s0 size (installed lh content disk) cut := by
  intro content cut
  have pre : Clean s0 size disk disk := ⟨clean, fun _ _ => rfl⟩
  by_cases nonempty : lh.n > 0
  · obtain ⟨head, cleared, decoded, none, writes⟩ := commit_writes txn nonempty disk cache
    by_cases beforeHead : count ≤ lh.n
    · left
      refine ⟨beforeHead, ?_⟩
      have early : count ≤ (logWrites s0 content 0 lh.blocks).length := by
        rw [length_logWrites]
        exact beforeHead
      simp only [cut]
      rw [writes, headWrites, append_assoc, applyAll_take_append, if_pos early]
      exact pre.log_cut txn count
    · right
      have committed : Committed s0 size lh content _ (applyAll _ (headWrites s0 content lh.blocks head)) :=
        pre.committed txn head decoded
      by_cases exactlyHead : count = lh.n + 1
      · left
        simp only [cut]
        rw [writes, take_append_of_le_length (by simp [headWrites, exactlyHead, n]),
          take_of_length_le (by simp [headWrites, exactlyHead, n])]
        exact committed
      · have late : ¬count ≤ (headWrites s0 content lh.blocks head).length := by
          simp only [headWrites, length_append, length_logWrites, length_singleton, n] at *
          omega
        simp only [cut]
        rw [writes, applyAll_take_append, if_neg late]
        exact committed.cut txn cleared none _
  · right
    right
    have empty : lh.blocks = [] := length_eq_zero_iff.mp (by simp only [n] at nonempty; omega)
    have nothing : (commit s0 lh ⟨disk, cache, []⟩).writes = [] := by
      simp [commit, n, empty]
    simp only [cut]
    rw [nothing, take_nil, applyAll_nil]
    exact ⟨clean, fun b _ => by simp [installed, empty]⟩

/-- After a crash at any point of `commit`, and any number of crashes inside recovery, the disk is the
old one or has the whole transaction, the latter once the first `write_head` has reached it. -/
theorem commit_crash_atomic (start size : Nat) (lh : LogHeader) (disk : Nat → Block)
    (cache : Nat → Option Block) (clean : (disk start).word 0 = 0) (room : lh.n < size)
    (numbers : ∀ blockno ∈ lh.blocks, blockno < 2 ^ 32)
    (outside : ∀ blockno ∈ lh.blocks, blockno < start ∨ start + size ≤ blockno) (count : Nat) (run : Nat → Block)
    (crashes : Crashes start (applyAll disk ((commit start lh ⟨disk, cache, []⟩).writes.take count)) run) :
    let content := Machine.contents ⟨disk, cache, []⟩
    ∃ m, recoverFromLog start (.boot run) = some m ∧ (m.disk start).word 0 = 0 ∧
      ((∀ blockno, blockno < start ∨ start + size ≤ blockno → m.disk blockno = disk blockno) ∨
        ∀ blockno, blockno < start ∨ start + size ≤ blockno → m.disk blockno = installed lh content disk blockno) ∧
      (lh.n < count → ∀ blockno, blockno < start ∨ start + size ≤ blockno →
          m.disk blockno = installed lh content disk blockno) := by
  intro content
  have transaction : Transaction start size lh := ⟨room, numbers, outside⟩
  rcases commit_cut transaction disk cache clean count with ⟨early, old⟩ | new
  · obtain ⟨m, ran, final, _⟩ := (old.crashes (by omega) crashes).recover (by omega)
    exact ⟨m, ran, final.header, Or.inl final.rest, fun late => by omega⟩
  · have final : ∃ m, recoverFromLog start (.boot run) = some m ∧
        Clean start size (installed lh content disk) m.disk := by
      rcases Committed.crashes transaction new crashes with committed | complete
      · obtain ⟨m, ran, final, _⟩ := committed.recover transaction
        exact ⟨m, ran, final⟩
      · obtain ⟨m, ran, final, _⟩ := complete.recover (by omega)
        exact ⟨m, ran, final⟩
    obtain ⟨m, ran, final⟩ := final
    exact ⟨m, ran, final.header, Or.inr final.rest, fun _ => final.rest⟩

theorem commit_crash_atomic_two : let dirty : Nat → Block := fun blockno => Bytes.setWord Bytes.zero 0 blockno
    let disk : Nat → Block := fun _ => Bytes.zero
    let lh : LogHeader := ⟨[40, 41], by decide⟩
    ∃ m, recoverFromLog 2 (.boot (applyAll disk ((commit 2 lh ⟨disk, some ∘ dirty, []⟩).writes.take 3))) =
        some m ∧ (m.disk 2).word 0 = 0 ∧ m.disk 40 = dirty 40 ∧ m.disk 41 = dirty 41 := by
  intro dirty disk lh
  obtain ⟨m, ran, header, _, late⟩ := commit_crash_atomic 2 LOGSIZE lh disk (some ∘ dirty)
    (Bytes.word_zero 0) (by decide) (by simp [lh]) (by simp [lh, LOGSIZE, MAXOPBLOCKS]) 3 _ (.refl _)
  refine ⟨m, ran, header, ?_⟩
  rw [late (by decide) 40 (by decide), late (by decide) 41 (by decide)]
  simp [installed, lh, Machine.contents]

end Xv6
