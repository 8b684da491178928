import Xv6.FileShares

/-! The calls that open, share and close files keep the books, whether they succeed or fail, and
so does every run of them. -/

namespace Xv6.FileTable

open Exec Exec.Prog Custody Reach List Pi Function

def Vacant (s : State) : Prop :=
  ∀ p, (s.ptable p).state = .unused ∨ (s.ptable p).state = .zombie → ∀ fd, (s.ptable p).ofile fd = none

structure Within (s s' : State) : Prop where
  kept : ∀ f r, s.holder f = some r → s'.holder f = some r ∨ (s'.ftable f).ref = 0
  new : ∀ f r, s'.holder f = some r → s.holder f = some r ∨ .taken r ∉ s.log
  grows : s.log ⊆ s'.log

structure Owed (s : State) (debt : FileSlot → Int) (s' : State) : Prop where
  books : Books s'
  excess : s'.excess = s.excess + debt
  vacant : Vacant s'
  within : Within s s'

def Done (s s' : State) : Prop := Owed s 0 s'

section

variable {s s' s'' : State}

theorem Within.of_same (eq : s'.holder = s.holder) (log : s'.log = s.log) : Within s s' where
  kept := by
    intro f r held
    exact .inl (by rwa [eq])
  new := by
    intro f r held
    exact .inl (by rwa [← eq])
  grows := by
    rw [log]
    exact List.Subset.refl _

theorem Within.of_free (books : Books s) (grows : s.log ⊆ s'.log)
    (changed : ∀ f, s'.holder f = s.holder f ∨ ((s.ftable f).ref = 0 ∧ ∀ r, s'.holder f = some r → .taken r ∉ s.log)) :
    Within s s' where
  kept := by
    intro f r held
    rcases changed f with eq | ⟨free, _⟩
    · exact .inl (eq.trans held)
    · rw [books.idle_holder free] at held
      contradiction
  new := by
    intro f r held
    rcases changed f with eq | ⟨_, fresh⟩
    · exact .inl (eq.symm.trans held)
    · exact .inr (fresh r held)
  grows := grows

theorem Within.recount (within : Within s s') {f : FileSlot} {amount : Int}
    (cnt : Recounted f amount s' s'') : Within s s'' where
  kept := by
    intro g r held
    rcases cnt.moved g with empty | ⟨eq, used⟩
    · exact .inr empty
    · exact .inl (eq.trans ((within.kept g r held).resolve_right used))
  new := by
    intro g r held
    rcases cnt.moved g with empty | ⟨eq, _⟩
    · rw [cnt.books.idle_holder empty] at held
      contradiction
    · exact within.new g r (eq.symm.trans held)
  grows := List.Subset.trans within.grows cnt.grows

end

variable {s s' : State}

theorem Vacant.congr (vacant : Vacant s) (eq : s'.ptable = s.ptable) : Vacant s' := by
  intro p
  rw [eq]
  exact vacant p

section

variable {s s' : State} {p : ProcSlot} {debt : FileSlot → Int} {f : FileSlot} {proc : Proc}

theorem ptable_setProc (proc : Proc) : (s.setProc p proc).ptable p = proc := by
  simp [State.setProc]

theorem ptable_setProc_of_ne {q : ProcSlot} (ne : q ≠ p) (proc : Proc) : (s.setProc p proc).ptable q = s.ptable q := by
  simp [State.setProc, ne]

theorem Done.refl (books : Books s) (vacant : Vacant s) : Done s s :=
  ⟨books, (add_zero _).symm, vacant, Within.of_same rfl rfl⟩

section

variable (owed : Owed s debt s')

include owed

theorem Owed.recount {amount : Int} {s'' : State} (cnt : Recounted f amount s' s'') :
    Owed s (debt + single f amount) s'' := by
  refine ⟨cnt.books, ?_, owed.vacant.congr cnt.ptable, owed.within.recount cnt⟩
  rw [cnt.excess, owed.excess, add_assoc]

theorem Owed.setProc (proc : Proc) (vacant : proc.state = .unused ∨ proc.state = .zombie → ∀ fd, proc.ofile fd = none) :
    Owed s (debt + ((s'.ptable p).pointers - proc.pointers)) (s'.setProc p proc) := by
  refine ⟨owed.books.setProc p proc, ?_, fun q gone => ?_, owed.within.kept, owed.within.new, owed.within.grows⟩
  · rw [excess_setProc, owed.excess, add_assoc]
  · by_cases eq : q = p
    · subst q
      rw [ptable_setProc] at gone ⊢
      exact vacant gone
    · rw [ptable_setProc_of_ne eq] at gone ⊢
      exact owed.vacant q gone

theorem Owed.setState {new : ProcState} (vacant : new = .unused ∨ new = .zombie → ∀ fd, (s'.ptable p).ofile fd = none) :
    Owed s debt (s'.setProc p { s'.ptable p with state := new }) := by
  have set := owed.setProc (p := p) { s'.ptable p with state := new } vacant
  rwa [Proc.pointers, Proc.pointers, sub_self, add_zero] at set

theorem Owed.setOfile (busy : ¬((s'.ptable p).state = .unused ∨ (s'.ptable p).state = .zombie))
    (fd : Fd) (f : Option FileSlot) :
    Owed s (debt + (pointer ((s'.ptable p).ofile fd) - pointer f)) (s'.setOfile p fd f) := by
  have set := owed.setProc (p := p) { s'.ptable p with ofile := update (s'.ptable p).ofile fd f }
    fun gone => absurd gone busy
  refine ⟨set.books, ?_, set.vacant, set.within⟩
  rw [excess_setOfile, owed.excess, add_assoc]

end

theorem Owed.holds_fileclose (owed : Owed s (debt + single f 1) s') :
    Holds (fileclose f) s' fun _ s'' => Owed s debt s'' ∧ s''.ptable = s'.ptable := by
  refine (owed.books.holds_fileclose f).conseq fun _ s'' closed => ⟨?_, closed.ptable⟩
  have paid := owed.recount closed
  rwa [single_neg, add_neg_cancel_right] at paid

theorem busy_of_live (live : proc.live = true) : ¬(proc.state = .unused ∨ proc.state = .zombie) := by
  rintro (kind | kind) <;> simp [Proc.live, kind] at live

end

section

variable {s s' : State} {p : ProcSlot} {fd : Fd} {stops : Stop → Prop} {debt : FileSlot → Int}
  {f f0 f1 : FileSlot} {left : List Fd}

theorem argfd_spec (fd : Option Int) : Holds (argfd p fd) s (fun found s' => s' = s ∧
      ∀ fd f, found = some (fd, f) → (s.ptable p).ofile fd = some f) stops := by
  rw [argfd, holds_bind, holds_get]
  cases fd with
  | none => exact .pure ⟨rfl, by simp⟩
  | some fd =>
    dsimp only
    split
    · refine .pure ⟨rfl, ?_⟩
      intro fd' f found
      obtain ⟨f', here, eq⟩ := Option.map_eq_some_iff.mp found
      cases eq
      exact here
    · exact .pure ⟨rfl, by simp⟩

theorem Books.holds_sysDup (books : Books s) (vacant : Vacant s) (live : (s.ptable p).live = true) (fd : Option Int) :
    Holds (sysDup p fd) s fun _ => Done s := by
  rw [sysDup]
  refine (argfd_spec fd).bind ?_
  rintro found s' ⟨eq, _⟩
  subst s'
  cases found with
  | none => exact .pure (Done.refl books vacant)
  | some pair =>
    obtain ⟨_, f⟩ := pair
    dsimp only
    refine (fdalloc_spec p f).bind ?_
    rintro found s₁ (⟨rfl, rfl⟩ | ⟨fd', rfl, free, rfl⟩)
    · exact .pure (Done.refl books vacant)
    · dsimp only
      rw [holds_bind]
      have owed := Owed.setOfile (Done.refl books vacant) (busy_of_live live) fd' (some f)
      refine (owed.books.holds_filedup f).conseq ?_
      rintro _ s₂ ⟨_, shared⟩
      have paid := owed.recount shared
      rw [free, pointer_none, pointer_some, zero_sub, zero_add, neg_add_cancel] at paid
      exact .pure paid

theorem Books.holds_sysClose (books : Books s) (vacant : Vacant s) (live : (s.ptable p).live = true) (fd : Option Int) :
    Holds (sysClose p fd) s fun _ => Done s := by
  rw [sysClose]
  refine (argfd_spec fd).bind ?_
  rintro found s' ⟨eq, pointed⟩
  subst s'
  cases found with
  | none => exact .pure (Done.refl books vacant)
  | some pair =>
    obtain ⟨fd', f⟩ := pair
    dsimp only
    rw [setOfile, holds_bind, holds_modify, holds_bind]
    have owed := Owed.setOfile (Done.refl books vacant) (busy_of_live live) fd' none
    rw [pointed fd' f rfl, pointer_none, pointer_some, sub_zero] at owed
    exact owed.holds_fileclose.conseq fun _ _ closed => .pure closed.1

theorem Owed.allocate (owed : Owed s debt s') (holder : s'.holder = s.holder)
    (log : s'.log = s.log) (free : (s'.ftable f).ref = 0) : let s'' := s'.setFile f { s'.ftable f with ref := 1 }
    Owed s (debt + single f 1) s'' ∧ s''.holder = s.holder ∧ s''.log = s.log := by
  intro s''
  have same : s''.holder = s.holder := by
    rw [holder_setFile, ← holder]
    exact update_eq_self f s'.holder
  refine ⟨⟨owed.books.recount rfl (by simp) (by simp), ?_, owed.vacant, .of_same same log⟩, same, log⟩
  rw [excess_setFile, free, sub_zero, owed.excess, add_assoc]

theorem Books.open (books : Books s) (file : File) (empty : s.holder f = none) (used : 0 < file.ref)
    (same : file.ref = (s.ftable f).ref) (r : file.resource = some (.inode s.serial)) :
    Books { (s.setFile f file).record (.taken (.inode s.serial)) with
      serial := s.serial + 1 } ∧ (s.setFile f file).excess = s.excess ∧
    .taken (.inode s.serial) ∉ s.log := by
  have fresh : .taken (.inode s.serial) ∉ s.log := by
    intro past
    exact Nat.lt_irrefl _ (books.oldInode _ past)
  have ledger := books.ledger.take empty fresh
  rw [← r, ← holder_setFile] at ledger
  refine ⟨⟨books.idle.setFile (by omega) (by omega), ledger, ?_, ?_, ?_, ?_, ?_⟩, ?_, fresh⟩
  · intro ticket past
    rcases mem_cons.mp past with here | pre
    · cases here
      exact Nat.lt_succ_self _
    · exact Nat.lt_succ_of_lt (books.oldInode ticket pre)
  · intro page writable past
    have pre : .taken (.pipe page writable) ∈ s.log := by simpa using past
    exact Nat.lt_succ_of_lt (books.oldPipe page writable pre)
  · intro page writable
    have holders : (∃ g, (s.setFile f file).holder g = some (.pipe page writable)) ↔
        ∃ g, s.holder g = some (.pipe page writable) := by
      rw [holder_setFile, r, held_update empty]
      simp
    exact (books.isOpen page writable).trans holders.symm
  · simpa using books.pair
  · exact fun page => books.whole_of (by simp) (by simp)
  · rw [excess_setFile, same, sub_self, single_zero, add_zero]

theorem Books.holds_sysOpen (books : Books s) (vacant : Vacant s)
    (live : (s.ptable p).live = true) (found : Option Nat) (omode : BitVec 32) :
    Holds (sysOpen p found omode) s fun _ => Done s := by
  unfold sysOpen
  cases found with
  | none => exact .pure (Done.refl books vacant)
  | some ip =>
    dsimp only
    refine filealloc_spec.bind ?_
    rintro found s₁ (⟨rfl, rfl⟩ | ⟨f, rfl, free, made⟩)
    · exact .pure (Done.refl books vacant)
    · obtain ⟨owed, holder₁, log₁⟩ := Owed.allocate (Done.refl books vacant) rfl rfl free
      rw [← made] at owed holder₁ log₁
      have ptable : s₁.ptable = s.ptable := by rw [made]; rfl
      dsimp only
      refine (fdalloc_spec p f).bind ?_
      rintro found s₂ (⟨rfl, rfl⟩ | ⟨fd, rfl, none_, rfl⟩)
      · -- There is no descriptor: the file is closed again, with nothing behind it.
        dsimp only
        exact owed.holds_fileclose.bind fun _ _ closed => .pure closed.1
      · simp only [holds_bind, holds_modify, holds_pure]
        have pointed := owed.setOfile (by rw [ptable]; exact busy_of_live live) fd (some f)
        rw [none_, pointer_none, pointer_some, zero_sub, zero_add, add_neg_cancel] at pointed
        have one : (s₁.ftable f).ref = 1 := by rw [made, ftable_setFile]
        have empty : s₁.holder f = none := by rw [holder₁, books.idle_holder free]
        generalize opened : ({ (s₁.setOfile p fd (some f)).ftable f with
          type := .inode
          ip
          ticket := (s₁.setOfile p fd (some f)).serial
          readable := !hasFlag omode O_WRONLY
          writable := hasFlag omode O_WRONLY || hasFlag omode O_RDWR } : File) = file
        have r : file.resource = some (.inode s₁.serial) := by
          rw [← opened]
          rfl
        have count : file.ref = (s₁.ftable f).ref := by
          rw [← opened]
          rfl
        obtain ⟨books₃, excess₃, fresh⟩ := pointed.books.open file empty (by omega) count r
        refine ⟨books₃, excess₃.trans pointed.excess, pointed.vacant, Within.of_free books ?_ ?_⟩
        · rw [← log₁]
          exact subset_cons_self _ _
        · intro g
          by_cases eq : g = f
          · subst g
            refine .inr ⟨free, ?_⟩
            intro o held
            have mine : some o = some (Resource.inode s₁.serial) := by
              rw [← r, ← held]
              exact congrArg File.resource (ftable_setFile f file)
            cases mine
            rw [← log₁]
            exact fresh
          · left
            rw [← congrFun holder₁ g]
            exact congrArg File.resource (ftable_setFile_of_ne eq file)

theorem Books.pipe (books : Books s) (apart : f0 ≠ f1) (file0 file1 : File)
    (empty0 : s.holder f0 = none) (empty1 : s.holder f1 = none) (used0 : 0 < file0.ref)
    (used1 : 0 < file1.ref) (r0 : file0.resource = some (.pipe s.serial false))
    (r1 : file1.resource = some (.pipe s.serial true)) : Books { ((s.setFile f0 file0).setFile f1 file1) with
      pipes := update s.pipes s.serial ⟨true, true⟩
      log := .taken (.pipe s.serial true) :: .taken (.pipe s.serial false) :: s.log
      serial := s.serial + 1 } := by
  have fresh : ∀ writable, .taken (.pipe s.serial writable) ∉ s.log := by
    intro writable past
    exact Nat.lt_irrefl _ (books.oldPipe _ _ past)
  have holder : ((s.setFile f0 file0).setFile f1 file1).holder =
      update (update s.holder f0 (some (.pipe s.serial false))) f1 (some (.pipe s.serial true)) := by
    rw [holder_setFile, holder_setFile, r0, r1]
  have free1 : update s.holder f0 (some (.pipe s.serial false)) f1 = none := by
    rwa [update_of_ne apart.symm]
  have new1 : .taken (.pipe s.serial true) ∉
      Event.taken (Resource.pipe s.serial false) :: s.log := by simpa using fresh true
  have ledger := (books.ledger.take empty0 (fresh false)).take free1 new1
  rw [← holder] at ledger
  refine ⟨(books.idle.setFile ?_ ?_).setFile ?_ ?_, ledger, ?_, ?_, ?_, ?_, ?_⟩
  · omega
  · omega
  · omega
  · omega
  · intro ticket past
    have pre : .taken (.inode ticket) ∈ s.log := by simpa using past
    exact Nat.lt_succ_of_lt (books.oldInode ticket pre)
  · intro page writable past
    by_cases here : page = s.serial
    · subst here
      exact Nat.lt_succ_self _
    · have pre : .taken (.pipe page writable) ∈ s.log := by simpa [here] using past
      exact Nat.lt_succ_of_lt (books.oldPipe page writable pre)
  · intro page writable
    have holders : (∃ g, ((s.setFile f0 file0).setFile f1 file1).holder g =
        some (.pipe page writable)) ↔ page = s.serial ∨ ∃ g, s.holder g = some (.pipe page writable) := by
      rw [holder, held_update free1, held_update empty0]
      cases writable <;> simp
    refine Iff.trans ?_ holders.symm
    by_cases here : page = s.serial
    · subst here
      cases writable <;> simp [Pipe.isOpen]
    · simpa [here] using books.isOpen page writable
  · intro page
    by_cases here : page = s.serial
    · simp [here]
    · simpa [here] using books.pair page
  · exact fun page => books.whole_of (by simp) (by simp)

theorem setOfile_undo (free : (s.ptable p).ofile fd = none) (f : Option FileSlot) :
    (s.setOfile p fd f).setOfile p fd none = s := by
  have back : update (s.ptable p).ofile fd none = (s.ptable p).ofile := by
    rw [← free, update_eq_self]
  simp [State.setOfile, State.setProc, back]

theorem live_setOfile (fd : Fd) (f : Option FileSlot) : ((s.setOfile p fd f).ptable p).live = (s.ptable p).live := by
  simp [State.setOfile, State.setProc, Proc.live]

theorem Owed.pipe {s₂ : State} (owed : Owed s debt s₂) (books : Books s)
    (eq : s₂.holder = s.holder) (log : s₂.log = s.log) (apart : f0 ≠ f1)
    (free0 : (s.ftable f0).ref = 0) (free1 : (s.ftable f1).ref = 0) (file0 file1 : File)
    (ref0 : file0.ref = 1 ∧ (s₂.ftable f0).ref = 1) (ref1 : file1.ref = 1 ∧ (s₂.ftable f1).ref = 1)
    (r0 : file0.resource = some (.pipe s₂.serial false)) (r1 : file1.resource = some (.pipe s₂.serial true)) :
    Owed s debt { ((s₂.setFile f0 file0).setFile f1 file1) with
      pipes := update s₂.pipes s₂.serial ⟨true, true⟩
      log := .taken (.pipe s₂.serial true) :: .taken (.pipe s₂.serial false) :: s₂.log
      serial := s₂.serial + 1 } := by
  have empty0 : s₂.holder f0 = none := by rw [eq, books.idle_holder free0]
  have empty1 : s₂.holder f1 = none := by rw [eq, books.idle_holder free1]
  have fresh : ∀ writable, .taken (.pipe s₂.serial writable) ∉ s.log := by
    intro writable past
    rw [← log] at past
    exact Nat.lt_irrefl _ (owed.books.oldPipe _ _ past)
  have excess : ((s₂.setFile f0 file0).setFile f1 file1).excess = s₂.excess := by
    rw [excess_setFile, excess_setFile, ftable_setFile_of_ne apart.symm, ref0.1, ref0.2, ref1.1,
      ref1.2, sub_self, single_zero, single_zero, add_zero, add_zero]
  refine ⟨owed.books.pipe apart file0 file1 empty0 empty1 (by omega) (by omega) r0 r1,
    excess.trans owed.excess, owed.vacant, Within.of_free books ?_ ?_⟩
  · rw [← log]
    exact subset_cons_of_subset _ (subset_cons_self _ _)
  · intro g
    have holder : ((s₂.setFile f0 file0).setFile f1 file1).holder g =
        update (update s.holder f0 (some (.pipe s₂.serial false))) f1 (some (.pipe s₂.serial true)) g := by
      rw [holder_setFile, holder_setFile, r0, r1, eq]
    by_cases second : g = f1
    · subst g
      rw [update_self] at holder
      refine .inr ⟨free1, ?_⟩
      intro r held
      cases holder.symm.trans held
      exact fresh true
    · rw [update_of_ne second] at holder
      by_cases fst : g = f0
      · subst g
        rw [update_self] at holder
        refine .inr ⟨free0, ?_⟩
        intro r held
        cases holder.symm.trans held
        exact fresh false
      · rw [update_of_ne fst] at holder
        exact .inl holder

theorem Books.holds_pipealloc (books : Books s) (vacant : Vacant s) (memory : Bool) :
    Holds (pipealloc memory) s fun res s' =>
      (res = none ∧ Done s s') ∨ ∃ f0 f1, res = some (f0, f1) ∧ s'.ptable = s.ptable ∧
        Owed s (0 + single f1 1 + single f0 1) s' := by
  rw [pipealloc]
  refine filealloc_spec.bind ?_
  rintro found s₁ (⟨rfl, rfl⟩ | ⟨f0, rfl, free0, made₁⟩)
  · exact .pure (.inl ⟨rfl, Done.refl books vacant⟩)
  · obtain ⟨owed₁, holder₁, log₁⟩ := Owed.allocate (Done.refl books vacant) rfl rfl free0
    rw [← made₁] at owed₁ holder₁ log₁
    dsimp only
    refine filealloc_spec.bind ?_
    rintro found s₂ (⟨rfl, rfl⟩ | ⟨f1, rfl, free1, made₂⟩)
    · dsimp only
      exact owed₁.holds_fileclose.bind fun _ _ closed => .pure (.inl ⟨rfl, closed.1⟩)
    · obtain ⟨owed₂, holder₂, log₂⟩ := owed₁.allocate holder₁ log₁ free1
      rw [← made₂] at owed₂ holder₂ log₂
      rw [add_right_comm] at owed₂
      dsimp only
      rw [holds_ite]
      constructor
      · intro _
        simp only [holds_bind, holds_modify, holds_pure]
        have one0 : (s₁.ftable f0).ref = 1 := by rw [made₁, ftable_setFile]
        have apart : f0 ≠ f1 := by
          rintro rfl
          omega
        have pre1 : (s.ftable f1).ref = 0 := by
          rw [← free1, made₁, ftable_setFile_of_ne apart.symm]
        have ref0 : (s₂.ftable f0).ref = 1 := by rw [made₂, ftable_setFile_of_ne apart, one0]
        have ref1 : (s₂.ftable f1).ref = 1 := by rw [made₂, ftable_setFile]
        have ref1' : ∀ file, ((s₂.setFile f0 file).ftable f1).ref = 1 := by
          intro file
          rw [ftable_setFile_of_ne apart.symm, ref1]
        refine .inr ⟨f0, f1, rfl, ?_, ?_⟩
        · rw [made₂, made₁]
          rfl
        · exact owed₂.pipe books holder₂ log₂ apart free0 pre1 _ _ ⟨ref0, ref0⟩ ⟨ref1' _, ref1⟩ rfl rfl
      · intro _
        refine owed₂.holds_fileclose.bind fun _ s₃ fst => ?_
        exact fst.1.holds_fileclose.bind fun _ _ second => .pure (.inl ⟨rfl, second.1⟩)

theorem Books.holds_sysPipe (books : Books s) (vacant : Vacant s)
    (live : (s.ptable p).live = true) (arg memory : Bool) : Holds (sysPipe p arg memory) s fun _ => Done s := by
  rw [sysPipe, holds_ite]
  refine ⟨fun _ => .pure (Done.refl books vacant), fun _ => ?_⟩
  refine (books.holds_pipealloc vacant memory).bind ?_
  rintro res s₁ (⟨rfl, done⟩ | ⟨rf, wf, rfl, ptable, owed⟩)
  · exact .pure done
  · have live₁ : (s₁.ptable p).live = true := by rwa [ptable]
    -- Both files are closed again.
    have undo : Holds (do fileclose rf; fileclose wf; return (-1 : Int)) s₁ fun _ => Done s := by
      refine owed.holds_fileclose.bind fun _ s₂ fst => ?_
      exact fst.1.holds_fileclose.bind fun _ _ second => .pure second.1
    dsimp only
    refine (fdalloc_spec p rf).bind ?_
    rintro found s₂ (⟨rfl, rfl⟩ | ⟨fd0, rfl, none0, rfl⟩)
    · exact undo
    · dsimp only
      refine (fdalloc_spec p wf).bind ?_
      rintro found s₃ (⟨rfl, rfl⟩ | ⟨fd1, rfl, none1, rfl⟩)
      · dsimp only
        rw [setOfile, holds_bind, holds_modify]
        rw [setOfile_undo none0]
        exact undo
      · have live₂ : ((s₁.setOfile p fd0 (some rf)).ptable p).live = true := by rwa [live_setOfile]
        have paid := (owed.setOfile (busy_of_live live₁) fd0 (some rf)).setOfile (busy_of_live live₂) fd1 (some wf)
        rw [none1, none0, pointer_none, pointer_some, pointer_some, zero_sub, zero_sub,
          add_neg_cancel_right, zero_add, add_neg_cancel] at paid
        exact .pure paid

theorem setProc_undo (proc : Proc) : (s.setProc p proc).setProc p (s.ptable p) = s := by
  simp [State.setProc]

theorem allocproc_spec (kstack : Bool) : Holds (allocproc kstack) s (fun found s' =>
      (found = none ∧ s' = s) ∨ ∃ np, found = some np ∧ (s.ptable np).state = .unused ∧
        s' = s.setProc np { s.ptable np with state := .embryo }) stops := by
  rw [allocproc, holds_bind, holds_get]
  cases found : (finRange NPROC).find? fun p => (s.ptable p).state = .unused with
  | none => exact .pure (.inl ⟨rfl, rfl⟩)
  | some np =>
    have unused : (s.ptable np).state = .unused := by simpa using List.find?_some found
    dsimp only
    rw [setState, holds_bind, holds_modify, holds_ite]
    constructor
    · intro _
      exact .pure (.inr ⟨np, rfl, unused, rfl⟩)
    · intro _
      rw [setState, holds_bind, holds_modify, holds_pure]
      refine .inl ⟨rfl, ?_⟩
      rw [ptable_setProc, ← unused]
      exact setProc_undo _

structure Copying (s : State) (np : ProcSlot) (left : List Fd) (s' : State) : Prop where
  owed : Owed s 0 s'
  embryo : (s'.ptable np).state = .embryo
  empty : ∀ fd ∈ left, (s'.ptable np).ofile fd = none
  distinct : left.Nodup

theorem Copying.round {np : ProcSlot} (copying : Copying s np (fd :: left) s') : Holds (do
      let s ← get
      match (s.ptable p).ofile fd with
      | none => return ()
      | some f => do
          let f ← filedup f
          setOfile np fd (some f)) s' fun _ => Copying s np left := by
  obtain ⟨fresh, nodup⟩ := nodup_cons.mp copying.distinct
  rw [holds_bind, holds_get]
  cases pointed : (s'.ptable p).ofile fd with
  | none =>
    exact .pure ⟨copying.owed, copying.embryo, fun o low => copying.empty o (mem_cons_of_mem _ low), nodup⟩
  | some f =>
    dsimp only
    refine (copying.owed.books.holds_filedup f).bind ?_
    rintro f s'' ⟨rfl, shared⟩
    have free : (s''.ptable np).ofile fd = none := by
      rw [shared.ptable]
      exact copying.empty fd mem_cons_self
    have embryo : (s''.ptable np).state = .embryo := by rw [shared.ptable, copying.embryo]
    have paid := (copying.owed.recount shared).setOfile (p := np) (by simp [embryo]) fd (some f)
    rw [free, pointer_none, pointer_some, zero_sub, add_neg_cancel_right] at paid
    rw [setOfile, holds_modify]
    refine ⟨paid, by rw [State.setOfile, ptable_setProc, embryo], fun o low => ?_, nodup⟩
    have ne : o ≠ fd := by
      rintro rfl
      exact fresh low
    rw [State.setOfile, ptable_setProc]
    dsimp only
    rw [update_of_ne ne, shared.ptable]
    exact copying.empty o (mem_cons_of_mem _ low)

theorem Books.holds_fork (books : Books s) (vacant : Vacant s) (kstack uvm : Bool) :
    Holds (fork p kstack uvm) s fun _ => Done s := by
  rw [fork]
  refine (allocproc_spec kstack).bind ?_
  rintro found s₁ (⟨rfl, rfl⟩ | ⟨np, rfl, unused, rfl⟩)
  · exact .pure (Done.refl books vacant)
  · dsimp only
    rw [holds_ite]
    constructor
    · intro _
      have at0 : Copying s np (finRange NOFILE) (s.setProc np { s.ptable np with state := .embryo }) := by
        refine ⟨Owed.setState (Done.refl books vacant) (by simp), by rw [ptable_setProc], fun fd _ => ?_,
          nodup_finRange _⟩
        rw [ptable_setProc]
        exact vacant np (.inl unused) fd
      refine (Holds.each_left (Copying s np) at0 fun _ _ _ copying => copying.round).bind ?_
      intro _ s₂ copied
      rw [setState, holds_bind, holds_modify, holds_pure]
      exact copied.owed.setState (by simp)
    · intro _
      rw [setState, holds_bind, holds_modify, holds_pure, ptable_setProc, ← unused]
      dsimp only
      rw [setProc_undo]
      exact Done.refl books vacant

structure Closing (s : State) (p : ProcSlot) (left : List Fd) (s' : State) : Prop where
  owed : Owed s 0 s'
  live : (s'.ptable p).live = true
  closed : ∀ fd, fd ∈ left ∨ (s'.ptable p).ofile fd = none

theorem Closing.round (closing : Closing s p (fd :: left) s') : Holds (do
      let s ← get
      match (s.ptable p).ofile fd with
      | none => return ()
      | some f => do
          fileclose f
          setOfile p fd none) s' fun _ => Closing s p left := by
  have later : ∀ o, o ≠ fd → o ∈ left ∨ (s'.ptable p).ofile o = none := by
    intro o ne
    exact (closing.closed o).imp_left fun low => (mem_cons.mp low).resolve_left ne
  rw [holds_bind, holds_get]
  cases pointed : (s'.ptable p).ofile fd with
  | none =>
    refine .pure ⟨closing.owed, closing.live, fun o => ?_⟩
    by_cases eq : o = fd
    · exact .inr (eq ▸ pointed)
    · exact later o eq
  | some f =>
    dsimp only
    refine (closing.owed.books.holds_fileclose f).bind fun _ s'' closed => ?_
    have live : (s''.ptable p).live = true := by rw [closed.ptable, closing.live]
    have paid := (closing.owed.recount closed).setOfile (busy_of_live live) fd none
    rw [closed.ptable, pointed, pointer_none, pointer_some, sub_zero, single_neg, neg_add_cancel_right] at paid
    rw [setOfile, holds_modify]
    refine ⟨paid, by rwa [live_setOfile], fun o => ?_⟩
    rw [State.setOfile, ptable_setProc, closed.ptable]
    dsimp only
    by_cases eq : o = fd
    · subst o
      exact .inr (update_self ..)
    · rw [update_of_ne eq]
      exact later o eq

section

variable (books : Books s) (vacant : Vacant s)

include books vacant

theorem Books.holds_exit (live : (s.ptable p).live = true) : Holds (exit p) s fun _ => Done s := by
  rw [exit, holds_bind, holds_get, holds_ite, holds_halt]
  refine ⟨fun _ => trivial, fun _ => ?_⟩
  have at0 : Closing s p (finRange NOFILE) s :=
    ⟨Done.refl books vacant, live, fun fd => .inl (mem_finRange fd)⟩
  refine (Holds.each_left (Closing s p) at0 fun _ _ _ closing => closing.round).bind ?_
  intro _ s₁ closed
  rw [setState, holds_modify]
  exact closed.owed.setState fun _ fd => (closed.closed fd).resolve_left (by simp)

theorem Books.holds_wait {child : ProcSlot} (zombie : (s.ptable child).state = .zombie) :
    Holds (setState child .unused) s fun _ => Done s := by
  rw [setState, holds_modify]
  exact Owed.setState (Done.refl books vacant) fun _ => vacant child (.inr zombie)

theorem Books.next {step : ProcSlot × Call} (made : Made s step) (next : Next s step s') : Done s s' := by
  obtain ⟨p, call⟩ := step
  obtain ⟨live, zombie⟩ := made
  cases call with
  | sysOpen found omode => exact (books.holds_sysOpen vacant live found omode).final next
  | sysPipe arg memory => exact (books.holds_sysPipe vacant live arg memory).final next
  | sysDup fd => exact (books.holds_sysDup vacant live fd).final next
  | sysClose fd => exact (books.holds_sysClose vacant live fd).final next
  | fork kstack uvm => exact (books.holds_fork vacant kstack uvm).final next
  | exit => exact (books.holds_exit vacant live).final next
  | wait child => exact (books.holds_wait vacant (by simpa [Call.finds] using zombie)).final next

end

end

theorem Books.initial : Books State.initial where
  idle := by simp [Idle, State.initial]
  ledger := Ledger.empty
  oldInode := by simp [State.initial]
  oldPipe := by simp [State.initial]
  isOpen := by simp [State.initial, State.holder, File.resource, Pipe.isOpen]
  pair := by simp [State.initial]
  whole := by
    intro page released
    have fst := released (.pipe page false) (by simp [ends])
    simp [State.initial] at fst

theorem excess_initial : State.initial.excess = 0 := by
  funext f
  simp [State.excess, State.initial, Proc.pointers, pointer_none]

theorem books_reached (run : Reachable Next Made State.initial s) : Books s ∧ s.excess = 0 ∧ Vacant s := by
  refine run.invariant (fun s => Books s ∧ s.excess = 0 ∧ Vacant s) ⟨Books.initial, excess_initial, fun _ _ _ => rfl⟩ ?_
  rintro pre step after ⟨books, even, vacant⟩ made next
  have done := books.next vacant made next
  exact ⟨done.books, done.excess.trans ((add_zero _).trans even), done.vacant⟩

theorem slots_empty (even : s.excess = 0) (f : FileSlot) : (s.ftable f).ref = 0 ↔ s.slots f = ∅ := by
  rw [ref_of_excess even, Nat.cast_eq_zero, Finset.card_eq_zero]

theorem Done.released_iff (done : Done s s') (books : Books s) (even : s'.excess = 0)
    {f : FileSlot} {r : Resource} (held : s.holder f = some r) : .released r ∈ s'.log ↔ s'.slots f = ∅ := by
  rw [← slots_empty even]
  constructor
  · intro released
    refine (done.within.kept f r held).resolve_left ?_
    intro still
    exact done.books.ledger.current still released
  · intro empty
    have ran : .taken r ∈ s.log := (books.ledger.taken r).mpr (.inl ⟨f, held⟩)
    refine ((done.books.ledger.taken r).mp (done.within.grows ran)).resolve_left ?_
    rintro ⟨o, there⟩
    have pre := (done.within.new o r there).resolve_right (not_not.mpr ran)
    obtain rfl := books.ledger.unique pre held
    rw [done.books.idle_holder empty] at there
    contradiction

/-- The count of an open file is the number of its descriptors; what is behind it is released once, with
the last of them. -/
theorem file_counts {s : State} (run : Reachable Next Made State.initial s) :
    (∀ f, (s.ftable f).ref = (s.slots f).card) ∧ (∀ f, (s.ftable f).ref = 0 ↔ s.slots f = ∅) ∧
    Proper ends s.log ∧ (∀ r, .taken r ∈ s.log → (.released r ∉ s.log ↔
      ∃ f, s.holder f = some r ∧ (s.slots f).Nonempty)) ∧
    (∀ page, .freed page ∈ s.log ↔ ∀ r ∈ ends page, .released r ∈ s.log) ∧
    ∀ step s', Made s step → Next s step s' → ∀ f r, s.holder f = some r → (.released r ∈ s'.log ↔ s'.slots f = ∅) := by
  obtain ⟨books, even, vacant⟩ := books_reached run
  refine ⟨ref_of_excess even, slots_empty even, books.ledger.proper, ?_, ?_, ?_⟩
  · intro r taken
    constructor
    · intro kept
      obtain ⟨f, held⟩ := ((books.ledger.taken r).mp taken).resolve_right kept
      refine ⟨f, held, Finset.nonempty_iff_ne_empty.mpr ?_⟩
      intro none_
      rw [books.idle_holder ((slots_empty even f).mpr none_)] at held
      contradiction
    · rintro ⟨f, held, _⟩
      exact books.ledger.current held
  · intro page
    exact ⟨books.ledger.proper.parts_released, books.whole page⟩
  · intro step s' made next f r held
    have done := books.next vacant made next
    exact done.released_iff books (done.excess.trans ((add_zero _).trans even)) held

def pipeRun : List (ProcSlot × Call) :=
  [(0, .sysPipe true true), (0, .fork true true), (0, .sysClose (some 0)), (0, .sysClose (some 1)),
    (1, .sysDup (some 0)), (1, .exit), (0, .wait 1)]

theorem replayed {actions : List (ProcSlot × Call)} {test : State → Bool}
    (checked : (replay (fun s step => Call.run step.1 s step.2) Made actions
      State.initial).any test = true) : ∃ s, Reachable Next Made State.initial s ∧ test s = true :=
  Reachable.of_replay (fun _ _ _ _ ran => ran) checked

theorem file_counts_pipe : ∃ s, Reachable Next Made State.initial s ∧
    .freed 0 ∈ s.log ∧ (∀ r ∈ ends 0, .released r ∈ s.log) ∧ ∀ f, (s.ftable f).ref = (s.slots f).card := by
  have checked : (Reach.replay (fun s step => Call.run step.1 s step.2) Made pipeRun
      State.initial).any (fun s => decide (Event.freed 0 ∈ s.log)) = true := by
    decide +kernel
  obtain ⟨s, run, found⟩ := replayed checked
  have freed := of_decide_eq_true found
  have counts := file_counts run
  exact ⟨s, run, freed, (counts.2.2.2.2.1 0).mp freed, counts.1⟩

end Xv6.FileTable
