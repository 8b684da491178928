import Xv6.FileTable
import Xv6.Lib.Reach
import Mathlib.Algebra.BigOperators.Pi
import Mathlib.Algebra.BigOperators.Ring.Finset
import Mathlib.Data.Fintype.BigOperators
import Mathlib.Tactic.Abel

/-! The count of every open file against the descriptors that point to it, and the resource behind
it against the log, over runs of calls of which any may fail. -/

namespace Xv6.FileTable

open Exec Exec.Prog Custody Reach List Function

def State.slots (st : State) (f : FileSlot) : Finset (ProcSlot × Fd) :=
  Finset.univ.filter fun slot => (st.ptable slot.1).ofile slot.2 = some f

def pointer (slot : Option FileSlot) (f : FileSlot) : Int := if slot = some f then 1 else 0

def Proc.pointers (proc : Proc) : FileSlot → Int := ∑ fd, pointer (proc.ofile fd)

def State.excess (st : State) : FileSlot → Int :=
  (fun f => (st.ftable f).ref) - ∑ p, (st.ptable p).pointers

theorem pointers_card (s : State) (f : FileSlot) : (∑ p, (s.ptable p).pointers) f = (s.slots f).card := by
  rw [State.slots, Finset.natCast_card_filter, Fintype.sum_prod_type, Finset.sum_apply]
  apply Finset.sum_congr rfl
  intro p _
  rw [Proc.pointers, Finset.sum_apply]
  rfl

theorem ref_of_excess {s : State} (even : s.excess = 0) (f : FileSlot) : (s.ftable f).ref = (s.slots f).card := by
  have here := congrFun even f
  rw [State.excess, Pi.sub_apply, Pi.zero_apply, pointers_card] at here
  omega

theorem pointer_none : pointer none = 0 := by
  funext f
  simp [pointer]

theorem pointer_some (f : FileSlot) : pointer (some f) = Pi.single f 1 := by
  funext o
  by_cases same : o = f
  · simp [pointer, same]
  · have ne : f ≠ o := fun equal => same equal.symm
    simp [pointer, same, ne]

section

variable (s : State)

theorem excess_setFile (f : FileSlot) (file : File) :
    (s.setFile f file).excess = s.excess + Pi.single f (file.ref - (s.ftable f).ref) := by
  funext o
  by_cases eq : o = f
  · subst o
    simp only [State.excess, State.setFile, Pi.sub_apply, Pi.add_apply, update_self, Pi.single_eq_same]
    omega
  · simp [State.excess, State.setFile, eq]

theorem excess_setProc (p : ProcSlot) (proc : Proc) :
    (s.setProc p proc).excess = s.excess + ((s.ptable p).pointers - proc.pointers) := by
  have moved := sum_update s.ptable p proc Proc.pointers
  have sum : ∑ o, ((s.setProc p proc).ptable o).pointers =
      ∑ o, (s.ptable o).pointers + proc.pointers - (s.ptable p).pointers :=
    eq_sub_of_add_eq moved
  have files : (s.setProc p proc).ftable = s.ftable := rfl
  rw [State.excess, sum, State.excess, files]
  abel

theorem excess_setOfile (p : ProcSlot) (fd : Fd) (f : Option FileSlot) :
    (s.setOfile p fd f).excess = s.excess + (pointer ((s.ptable p).ofile fd) - pointer f) := by
  have moved := sum_update (s.ptable p).ofile fd f pointer
  have sum : ∑ o, pointer (update (s.ptable p).ofile fd f o) = ∑ o, pointer ((s.ptable p).ofile o) + pointer f -
        pointer ((s.ptable p).ofile fd) := eq_sub_of_add_eq moved
  rw [State.setOfile, excess_setProc, Proc.pointers, Proc.pointers, sum]
  abel

end

def ends (page : Nat) : List Resource := [.pipe page false, .pipe page true]

def State.holder (st : State) (f : FileSlot) : Option Resource := (st.ftable f).resource

def Pipe.isOpen (pipe : Pipe) (writable : Bool) : Bool :=
  if writable then pipe.writeopen else pipe.readopen

def Idle (st : State) : Prop :=
  ∀ f, 0 ≤ (st.ftable f).ref ∧ ((st.ftable f).ref = 0 → (st.ftable f).type = .none)

structure Books (st : State) : Prop where
  idle : Idle st
  ledger : Ledger ends st.holder st.log
  oldInode : ∀ ticket, .taken (.inode ticket) ∈ st.log → ticket < st.serial
  oldPipe : ∀ page writable, .taken (.pipe page writable) ∈ st.log → page < st.serial
  isOpen : ∀ page writable, (st.pipes page).isOpen writable = true ↔ ∃ f, st.holder f = some (.pipe page writable)
  pair : ∀ page, .taken (.pipe page false) ∈ st.log ↔ .taken (.pipe page true) ∈ st.log
  whole : ∀ page, (∀ r ∈ ends page, .released r ∈ st.log) → .freed page ∈ st.log

section

variable {s : State} {f : FileSlot} {file : File}

theorem holder_setFile (f : FileSlot) (file : File) : (s.setFile f file).holder = update s.holder f file.resource := by
  funext o
  by_cases eq : o = f <;> simp [eq, State.holder, State.setFile]

theorem Books.setProc (books : Books s) (p : ProcSlot) (proc : Proc) : Books (s.setProc p proc) :=
  ⟨books.idle, books.ledger, books.oldInode, books.oldPipe, books.isOpen, books.pair, books.whole⟩

theorem Idle.setFile (idle : Idle s) (n : 0 ≤ file.ref) (free : file.ref = 0 → file.type = .none) :
    Idle (s.setFile f file) := by
  intro o
  by_cases eq : o = f
  · subst o
    simpa [State.setFile] using ⟨n, free⟩
  · simpa [State.setFile, eq] using idle o

theorem Books.recount (books : Books s) (r : file.resource = s.holder f)
    (n : 0 ≤ file.ref) (free : file.ref = 0 → file.type = .none) : Books (s.setFile f file) := by
  have eq : (s.setFile f file).holder = s.holder := by
    rw [holder_setFile, r, update_eq_self]
  refine ⟨books.idle.setFile n free, ?_, books.oldInode, books.oldPipe, ?_, books.pair, books.whole⟩
  · rw [eq]
    exact books.ledger
  · rw [eq]
    exact books.isOpen

theorem Books.idle_holder (books : Books s) (free : (s.ftable f).ref = 0) : s.holder f = none := by
  rw [State.holder, File.resource, (books.idle f).2 free]

theorem Books.release (books : Books s) {r : Resource} (held : s.holder f = some r) (none_ : file.type = .none) :
    Ledger ends (s.setFile f file).holder (.released r :: s.log) ∧
    ∀ o, (∃ k, (s.setFile f file).holder k = some o) ↔ (∃ k, s.holder k = some o) ∧ o ≠ r := by
  have nothing : file.resource = none := by rw [File.resource, none_]
  rw [holder_setFile, nothing]
  refine ⟨books.ledger.release held, ?_⟩
  intro o
  constructor
  · rintro ⟨k, there⟩
    by_cases eq : k = f
    · subst k
      rw [update_self] at there
      contradiction
    · rw [update_of_ne eq] at there
      refine ⟨⟨k, there⟩, ?_⟩
      rintro rfl
      exact eq (books.ledger.unique there held)
  · rintro ⟨⟨k, there⟩, ne⟩
    refine ⟨k, ?_⟩
    rw [update_of_ne, there]
    rintro rfl
    rw [held] at there
    exact ne (Option.some.inj there).symm

end

structure Recounted (f : FileSlot) (amount : Int) (st st' : State) : Prop where
  books : Books st'
  excess : st'.excess = st.excess + Pi.single f amount
  ptable : st'.ptable = st.ptable
  grows : st.log ⊆ st'.log
  moved : ∀ g, (st'.ftable g).ref = 0 ∨ st'.holder g = st.holder g ∧ (st.ftable g).ref ≠ 0

section

variable {s : State} {stops : Stop → Prop} {page : Nat} {f : FileSlot} {file : File}

theorem filealloc_spec : Holds filealloc s (fun hit s' =>
    (hit = none ∧ s' = s) ∨ ∃ f, hit = some f ∧ (s.ftable f).ref = 0 ∧
      s' = s.setFile f { s.ftable f with ref := 1 }) stops := by
  rw [filealloc, holds_bind, holds_get]
  cases hit : (finRange NFILE).find? fun f => (s.ftable f).ref = 0 with
  | none => exact .pure (.inl ⟨rfl, rfl⟩)
  | some f =>
    have free : (s.ftable f).ref = 0 := by simpa using List.find?_some hit
    simp only [modifyFile, holds_bind, holds_modify, holds_pure]
    exact .inr ⟨f, rfl, free, rfl⟩

theorem fdalloc_spec (p : ProcSlot) (f : FileSlot) : Holds (fdalloc p f) s (fun hit s' =>
    (hit = none ∧ s' = s) ∨ ∃ fd, hit = some fd ∧ (s.ptable p).ofile fd = none ∧
      s' = s.setOfile p fd (some f)) stops := by
  rw [fdalloc, holds_bind, holds_get]
  cases hit : (finRange NOFILE).find? fun fd => ((s.ptable p).ofile fd).isNone with
  | none => exact .pure (.inl ⟨rfl, rfl⟩)
  | some fd =>
    have free : (s.ptable p).ofile fd = none := by simpa using List.find?_some hit
    simp only [setOfile, holds_bind, holds_modify, holds_pure]
    exact .inr ⟨fd, rfl, free, rfl⟩

theorem isOpen_shut (pipe : Pipe) (writable o : Bool) :
    (pipe.shut writable).isOpen o = true ↔ pipe.isOpen o = true ∧ o ≠ writable := by
  cases writable <;> cases o <;> simp [Pipe.shut, Pipe.isOpen]

theorem mem_ends {r : Resource} : r ∈ ends page ↔ ∃ writable, r = .pipe page writable := by
  constructor
  · intro mem
    simp only [ends, mem_cons, not_mem_nil, or_false] at mem
    rcases mem with rfl | rfl
    · exact ⟨false, rfl⟩
    · exact ⟨true, rfl⟩
  · rintro ⟨writable, rfl⟩
    cases writable <;> simp [ends]

theorem Books.whole_of (books : Books s) {log : List (Event Resource Nat)} (grows : s.log ⊆ log)
    (old : ∀ writable, .released (.pipe page writable) ∈ log → .released (.pipe page writable) ∈ s.log)
    (released : ∀ r ∈ ends page, .released r ∈ log) : .freed page ∈ log := by
  refine grows (books.whole page fun r mem => ?_)
  have there := released r mem
  obtain ⟨writable, rfl⟩ := mem_ends.mp mem
  exact old writable there

theorem Books.holds_pipeclose (books : Books s) {writable : Bool}
    (held : s.holder f = some (.pipe page writable)) (none_ : file.type = .none) (n : 0 ≤ file.ref) :
    Holds (pipeclose page writable) (s.setFile f file) (fun _ s' => Books s' ∧
      s'.ftable = (s.setFile f file).ftable ∧ s'.ptable = s.ptable ∧ s.log ⊆ s'.log) stops := by
  obtain ⟨ledger, holders⟩ := books.release held none_
  have idle := books.idle.setFile (f := f) n fun _ => none_
  have isOpen : ∀ o end_, ((update s.pipes page ((s.pipes page).shut writable))
      o).isOpen end_ = true ↔ ∃ k, (s.setFile f file).holder k = some (.pipe o end_) := by
    intro o end_
    rw [holders, ← books.isOpen]
    by_cases eq : o = page
    · subst o
      rw [update_self, isOpen_shut]
      simp
    · rw [update_of_ne eq]
      simp [eq]
  rw [pipeclose, holds_bind, holds_modify, holds_bind, holds_get, holds_onlyIf]
  constructor
  · rintro ⟨readShut, writeShut⟩
    have shut : ∀ end_, ¬∃ k, (s.setFile f file).holder k = some (.pipe page end_) := by
      intro end_
      rw [← isOpen]
      cases end_
      · simpa [Pipe.isOpen] using readShut
      · simpa [Pipe.isOpen] using writeShut
    -- Both ends were taken, this one just now released, the other before.
    have back : ∀ r ∈ ends page, Event.released r ∈ Event.released (Resource.pipe page writable) :: s.log := by
      intro r mem
      obtain ⟨end_, rfl⟩ := mem_ends.mp mem
      have mine : .taken (.pipe page writable) ∈ s.log :=
        (books.ledger.taken _).mpr (.inl ⟨f, held⟩)
      have ran : .taken (.pipe page end_) ∈ s.log := by
        cases writable <;> cases end_
        · exact mine
        · exact (books.pair page).mp mine
        · exact (books.pair page).mpr mine
        · exact mine
      have both := (ledger.taken (.pipe page end_)).mp (mem_cons_of_mem _ ran)
      exact both.resolve_left (shut end_)
    have fresh : .freed page ∉ Event.released (Resource.pipe page writable) :: s.log := by
      intro gone
      have pre : Event.freed page ∈ s.log := by simpa using gone
      exact books.ledger.current held (books.ledger.proper.parts_released pre _ (mem_ends.mpr ⟨writable, rfl⟩))
    rw [holds_modify]
    refine ⟨⟨idle, ledger.free back fresh, ?_, ?_, isOpen, ?_, ?_⟩, rfl, rfl, ?_⟩
    · simpa using books.oldInode
    · simpa using books.oldPipe
    · simpa using books.pair
    · intro o released
      by_cases eq : o = page
      · simp [eq]
      · exact books.whole_of (by simp) (by simp [eq]) released
    · simp
  · intro open_
    refine ⟨⟨idle, ledger, ?_, ?_, isOpen, ?_, ?_⟩, rfl, rfl, ?_⟩
    · simpa using books.oldInode
    · simpa using books.oldPipe
    · simpa using books.pair
    · intro o released
      by_cases eq : o = page
      · -- An end is still open, so it was not released.
        subst o
        exfalso
        apply open_
        have closed : ∀ end_, ((s.pipes page).shut writable).isOpen end_ = false := by
          intro end_
          rw [Bool.eq_false_iff]
          intro still
          obtain ⟨k, there⟩ := (isOpen page end_).mp (by rwa [update_self])
          exact ledger.current there (released _ (mem_ends.mpr ⟨end_, rfl⟩))
        have fst := closed false
        have snd := closed true
        simpa [Pipe.isOpen] using And.intro fst snd
      · exact books.whole_of (by simp) (by simp [eq]) released
    · simp

theorem Books.holds_iput (books : Books s) {ticket : Nat} (held : s.holder f = some (.inode ticket))
    (none_ : file.type = .none) (n : 0 ≤ file.ref) : Holds (iput ticket) (s.setFile f file) (fun _ s' => Books s' ∧
      s'.ftable = (s.setFile f file).ftable ∧ s'.ptable = s.ptable ∧ s.log ⊆ s'.log) stops := by
  obtain ⟨ledger, holders⟩ := books.release held none_
  rw [iput, holds_modify]
  refine ⟨⟨books.idle.setFile n fun _ => none_, ledger, ?_, ?_, ?_, ?_, ?_⟩, rfl, rfl, ?_⟩
  · simpa using books.oldInode
  · simpa using books.oldPipe
  · intro page writable
    have eq := holders (.pipe page writable)
    rw [and_iff_left (by simp)] at eq
    exact (books.isOpen page writable).trans eq.symm
  · simpa using books.pair
  · exact fun page => books.whole_of (by simp) (by simp)
  · simp

theorem excess_congr {s' : State} (files : s'.ftable = s.ftable)
    (procs : s'.ptable = s.ptable) : s'.excess = s.excess := by
  rw [State.excess, State.excess, files, procs]

theorem ftable_setFile (f : FileSlot) (file : File) : (s.setFile f file).ftable f = file := by
  simp [State.setFile]

theorem ftable_setFile_of_ne {o : FileSlot} (ne : o ≠ f) (file : File) : (s.setFile f file).ftable o = s.ftable o := by
  simp [State.setFile, ne]

theorem moved_setFile (used : 1 ≤ (s.ftable f).ref)
    (this : file.ref = 0 ∨ file.resource = s.holder f) (g : FileSlot) : ((s.setFile f file).ftable g).ref = 0 ∨
      (s.setFile f file).holder g = s.holder g ∧ (s.ftable g).ref ≠ 0 := by
  by_cases eq : g = f
  · subst g
    rw [holder_setFile, update_self, ftable_setFile]
    exact this.imp_right fun kept => ⟨kept, by omega⟩
  · rw [holder_setFile, update_of_ne eq, ftable_setFile_of_ne eq]
    exact (em _).imp_right fun inUse => ⟨rfl, inUse⟩

theorem Books.recounted (books : Books s) {amount : Int} (used : 1 ≤ (s.ftable f).ref)
    (left : 0 < (s.ftable f).ref + amount) : Recounted f amount s
      (s.setFile f { s.ftable f with ref := (s.ftable f).ref + amount }) := by
  refine ⟨books.recount rfl left.le (fun zero => absurd zero left.ne'), ?_, rfl, List.Subset.refl _,
    moved_setFile used (.inr rfl)⟩
  rw [excess_setFile, add_sub_cancel_left]

theorem Books.holds_fileclose (books : Books s) (f : FileSlot) : Holds (fileclose f) s fun _ => Recounted f (-1) s := by
  rw [fileclose, holds_bind, holds_get]
  dsimp only
  rw [holds_ite, holds_halt]
  refine ⟨fun _ => trivial, fun used => ?_⟩
  rw [holds_ite]
  constructor
  · intro more
    rw [modifyFile, holds_modify]
    exact books.recounted (by omega) (by omega)
  · intro last
    have one : (s.ftable f).ref = 1 := by omega
    rw [modifyFile, holds_bind, holds_modify]
    generalize emptied : ({ s.ftable f with ref := 0, type := .none } : File) = file
    have none_ : file.type = .none := by rw [← emptied]
    have zero : file.ref = 0 := by rw [← emptied]
    -- However the resource goes back, the tables are those with the file emptied.
    have closed : ∀ s' : State, Books s' ∧ s'.ftable = (s.setFile f file).ftable ∧
        s'.ptable = s.ptable ∧ s.log ⊆ s'.log → Recounted f (-1) s s' := by
      rintro s' ⟨books', files, procs, grows⟩
      refine ⟨books', ?_, procs, grows, ?_⟩
      · have excess := excess_setFile s f file
        rw [zero, one, zero_sub] at excess
        rw [← excess]
        exact excess_congr files procs
      · simpa only [State.holder, files] using moved_setFile (by omega) (.inl zero)
    cases kind : (s.ftable f).type with
    | none =>
      refine .pure (closed _ ⟨books.recount ?_ (by omega) fun _ => none_, rfl, rfl, List.Subset.refl _⟩)
      rw [File.resource, none_, State.holder, File.resource, kind]
    | pipe =>
      have held : s.holder f = some (.pipe (s.ftable f).pipe (s.ftable f).writable) := by
        rw [State.holder, File.resource, kind]
      exact (books.holds_pipeclose held none_ (by omega)).conseq fun _ => closed
    | inode =>
      have held : s.holder f = some (.inode (s.ftable f).ticket) := by
        rw [State.holder, File.resource, kind]
      exact (books.holds_iput held none_ (by omega)).conseq fun _ => closed

theorem Books.holds_filedup (books : Books s) (f : FileSlot) :
    Holds (filedup f) s fun res s' => res = f ∧ Recounted f 1 s s' := by
  rw [filedup, holds_bind, holds_get, holds_ite, holds_halt]
  refine ⟨fun _ => trivial, fun used => ?_⟩
  simp only [modifyFile, holds_bind, holds_modify, holds_pure]
  exact ⟨trivial, books.recounted (by omega) (by omega)⟩

end

end Xv6.FileTable
