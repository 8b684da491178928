import Xv6.OpenCall
import Xv6.Balance
import Xv6.Mkfs

/-! How long a regular file lives. Beside the kernel runs a table of flat files that only creations and
writes change. -/

namespace Xv6

open Exec Reach Fs Node Option Function

def Kernel.OpenOn (kern : Kernel) (i : Nat) : Prop :=
  ∃ f, (kern.ftable f).uses (kern.ftable f).ip ∧ (kern.fs.icache (kern.ftable f).ip).inum = i

instance (kern : Kernel) (i : Nat) : Decidable (kern.OpenOn i) :=
  inferInstanceAs (Decidable (∃ _, _))

def Kernel.fileOf (kern : Kernel) (p : ProcSlot) : Option Int → Option FileSlot
  | none => none
  | some fd =>
    if bound : 0 ≤ fd ∧ fd.toNat < NOFILE then (kern.ptable p).ofile ⟨fd.toNat, fd_inside bound⟩ else none

inductive Call.Links (kern : Kernel) (p : ProcSlot) (i : Nat) : Call → BitVec 16 → Prop
  | kept {call : Call} : Links kern p i call (kern.fs.image i).nlink
  | linked {old new last name : List UInt8} {d : Nat} : kern.Walks p false old i last →
      kern.Walks p true new d name → Links kern p i (.sysLink (some old) (some new)) ((kern.fs.image i).nlink + 1)
  | unlinked {path name : List UInt8} {d k : Nat} : kern.Walks p true path d name →
      (kern.fs.image d).Finds name k i → Links kern p i (.sysUnlink (some path)) ((kern.fs.image i).nlink - 1)

/-- The flat files after a call: a write puts as many bytes into the file of its descriptor as it moves
the offset. -/
def Call.flat (kern kern' : Kernel) (step : ProcSlot × Call) (files : Nat → List UInt8) (i : Nat) : List UInt8 :=
  if (kern.fs.image i).type = 0 then []
  else match step.2 with
    | .sysWrite fd buffer _ =>
      match kern.fileOf step.1 fd with
      | some f =>
        if (kern.ftable f).type = .inode ∧ (kern.fs.icache (kern.ftable f).ip).inum = i then
          splice (files i) (kern.ftable f).off.toNat ((kern'.ftable f).off.toNat - (kern.ftable f).off.toNat) buffer
        else files i
      | none => files i
    | _ => files i

def Call.FlatNext (st : Kernel × (Nat → List UInt8)) (step : ProcSlot × Call)
    (st' : Kernel × (Nat → List UInt8)) : Prop :=
  Call.Next st.1 step st'.1 ∧ st'.2 = Call.flat st.1 st'.1 step st.2

section

variable {R : Rules} {k k' : Kernel} {p : ProcSlot} {call : Call} {i : Nat} {img img' : Nat → Node} {safe : Nat → Prop}

theorem write_nlinks (img : Nat → Node) (j : Nat) (src : Nat → UInt8) (off n i : Nat) :
    (update img j ((img j).write src off n) i).nlink = (img i).nlink := by
  by_cases here : i = j
  · rw [here, update_self]
    rfl
  · rw [update_of_ne here]

theorem Running.linked_or_open (run : Running ⟨True, True⟩ k) (regular : (k.fs.image i).type = T_FILE) :
    (k.fs.image i).nlink ≠ 0 ∨ k.OpenOn i := by
  by_cases unlinked : (k.fs.image i).nlink = 0
  · have ty : (k.fs.image i).type ≠ 0 := by
      rw [regular]
      decide
    obtain ⟨ip, held, _, number⟩ := run.sound.kept trivial i ty unlinked
    have plain : ¬IsDir (k.fs.nodeAt ip).type := by
      rw [nodeAt, number, regular]
      decide
    have excess : k.excess ip = 0 :=
      le_antisymm (not_lt.mp fun more => plain (run.stray ip more)) (run.surplus ip)
    have homeless : ∑ p, (k.ptable p).claims ip = 0 :=
      Finset.sum_eq_zero fun p _ => if_neg fun uses => plain (run.homes p ip uses)
    have claimed : ∑ f, (k.ftable f).claims ip ≠ 0 := by
      have total := refs_eq k ip
      have pos : 0 < k.fs.refs ip := held
      omega
    obtain ⟨f, _, uses⟩ := Finset.exists_ne_zero_of_sum_ne_zero claimed
    have used : (k.ftable f).uses ip := by
      by_contra idle
      exact uses (if_neg idle)
    right
    refine ⟨f, ?_, ?_⟩
    · rw [used.2.2]
      exact used
    · rw [used.2.2]
      exact number
  · exact .inl unlinked

theorem Running.typed_of_open (run : Running R k) (op : k.OpenOn i) : (k.fs.image i).type ≠ 0 := by
  obtain ⟨f, uses, num⟩ := op
  have held := referenced_of_file (run.surplus _) uses
  have valid := (run.files f _ uses).valid
  rw [← num, (run.sound.image_slot held valid).1]
  exact (run.sound.loaded _ held valid).2

theorem Act.regular (act : Act R k p call img img') (faded : Faded safe k.fs.image img)
    (regular : (img i).type = T_FILE) : (img' i).type = T_FILE ∧ Call.Links k p i call (img' i).nlink ∧
      ((∃ fd buffer n, call = .sysWrite fd buffer n) ∨ (img' i).contents = (img i).contents) := by
  have ty : (img i).type ≠ 0 := by
    rw [regular]
    decide
  have apart : ∀ {d}, IsDir (img d).type → i ≠ d := by
    rintro d dir rfl
    rw [regular] at dir
    exact absurd dir (by decide)
  have pre := faded.same_of_typed ty
  have unchanged : img' i = img i → (img' i).type = T_FILE ∧ Call.Links k p i call (img' i).nlink ∧
      ((∃ fd buffer n, call = .sysWrite fd buffer n) ∨ (img' i).contents = (img i).contents) := by
    intro same
    rw [same]
    refine ⟨regular, ?_, .inr rfl⟩
    rw [pre]
    exact .kept
  cases act with
  | same => exact unchanged rfl
  | made _ _ _ _ made =>
    refine unchanged (made.other i (apart made.directory) fun here => ?_)
    rw [here] at ty
    exact ty made.free
  | linked old new linked =>
    rename_i j
    by_cases here : i = j
    · subst here
      rw [linked.node]
      refine ⟨regular, ?_, .inr rfl⟩
      rw [setNlink, pre]
      exact .linked old new
    · exact unchanged (linked.other i (apart linked.directory) here)
  | unlinked walks unlinked =>
    rename_i d _ j
    by_cases here : i = j
    · subst here
      have dir : img d = k.fs.image d := by
        refine faded.same_of_typed fun free => ?_
        have kind := unlinked.directory
        rw [free] at kind
        exact absurd kind (by decide)
      rw [unlinked.node]
      refine ⟨regular, ?_, .inr rfl⟩
      rw [setNlink, pre]
      exact .unlinked walks (dir ▸ unlinked.finds)
    · exact unchanged (unlinked.other i (apart unlinked.directory) here)
  | wrote =>
    refine ⟨(write_types _ _ _ _ _ i).trans regular, ?_, .inl ⟨_, _, _, rfl⟩⟩
    rw [write_nlinks, pre]
    exact .kept

theorem Act.gone (act : Act ⟨True, True⟩ k p call img img') (used : (k.fs.image i).type ≠ 0)
    (gone : img i = .gone) : img' i = .gone := by
  have free : (img i).type = 0 := by
    rw [gone]
    rfl
  have apart : ∀ {d}, (img d).type ≠ 0 → i ≠ d := by
    rintro d ty rfl
    exact ty free
  cases act with
  | same => exact gone
  | made _ _ _ first =>
    rw [first trivial] at free
    exact absurd free used
  | linked _ _ linked =>
    rw [linked.other i (apart linked.directory.blockType.ne_zero) (apart linked.typed)]
    exact gone
  | unlinked _ unlinked =>
    rw [unlinked.other i (apart unlinked.directory.blockType.ne_zero) (apart unlinked.typed)]
    exact gone
  | wrote _ file =>
    rw [update_of_ne (apart (by rw [file]; decide))]
    exact gone

theorem Act.fresh (act : Act R k p call img img') (free : (img i).type = 0)
    (regular : (img' i).type = T_FILE) : (img' i).contents = [] := by
  have ty : img' i ≠ img i := by
    intro same
    rw [same, free] at regular
    exact absurd regular (by decide)
  have apart : ∀ {d}, (img d).type ≠ 0 → i ≠ d := by
    rintro d used rfl
    exact used free
  cases act with
  | same => exact absurd rfl ty
  | made makes walks admits first made =>
    rename_i j
    by_cases here : i = j
    · subst here
      rw [made.file (by rw [← made.kind, regular]; decide)]
      rfl
    · exact absurd (made.other i (apart made.directory.blockType.ne_zero) here) ty
  | linked _ _ linked =>
    exact absurd (linked.other i (apart linked.directory.blockType.ne_zero) (apart linked.typed)) ty
  | unlinked _ unlinked =>
    exact absurd (unlinked.other i (apart unlinked.directory.blockType.ne_zero) (apart unlinked.typed)) ty
  | wrote _ file => exact absurd (update_of_ne (apart (by rw [file]; decide)) _ _) ty

/-- The fate of a regular file in one call: its inode is freed exactly if the call leaves it without
links and without open files. -/
theorem Advances.fate (advances : Advances ⟨True, True⟩ (Act ⟨True, True⟩ k p call) k k')
    (regular : (k.fs.image i).type = T_FILE) : ∃ links, Call.Links k p i call links ∧
      (k'.fs.image i = .gone ↔ links = 0 ∧ ¬k'.OpenOn i) ∧
      (k'.fs.image i ≠ .gone → (k'.fs.image i).type = T_FILE ∧ (k'.fs.image i).nlink = links) := by
  obtain ⟨run, stays, before, after, first, act, last⟩ := advances
  have closed : k'.fs.image i = .gone → ¬k'.OpenOn i := by
    intro gone op
    have ty := run.typed_of_open op
    rw [gone] at ty
    exact ty rfl
  have ty : (k.fs.image i).type ≠ 0 := by
    rw [regular]
    decide
  rcases first i with same | ⟨_, unlinked, gone, _⟩
  · -- the file is there when the call acts
    rw [← same] at regular
    obtain ⟨kind, links, _⟩ := act.regular first regular
    refine ⟨_, links, ?_⟩
    rcases last i with kept | ⟨_, unlinked, gone, _⟩
    · rw [kept]
      have here : after i ≠ .gone := by
        intro gone
        rw [gone] at kind
        exact absurd kind (by decide)
      refine ⟨⟨fun gone => absurd gone here, fun lost => ?_⟩, fun _ => ⟨kind, rfl⟩⟩
      have alive := run.linked_or_open (kept ▸ kind)
      rw [kept] at alive
      exact absurd lost (not_and_or.mpr (alive.imp_right not_not.mpr))
    · exact ⟨⟨fun gone => ⟨unlinked, closed gone⟩, fun _ => gone⟩, absurd gone⟩
  · -- it goes before the call acts, which then does not touch it
    have gone' : k'.fs.image i = .gone := by
      have acted := act.gone ty gone
      rcases last i with kept | ⟨_, _, gone, _⟩
      · rw [kept]
        exact acted
      · exact gone
    exact ⟨_, .kept, ⟨fun gone => ⟨unlinked, closed gone⟩, fun _ => gone'⟩, absurd gone'⟩

theorem Advances.contents (advances : Advances ⟨True, True⟩ (Act ⟨True, True⟩ k p call) k k')
    (regular : (k'.fs.image i).type = T_FILE) : (k.fs.image i).type = 0 ∧ (k'.fs.image i).contents = [] ∨
    (k.fs.image i).type = T_FILE ∧ ((∃ fd buffer n, call = .sysWrite fd buffer n) ∨
      (k'.fs.image i).contents = (k.fs.image i).contents) := by
  obtain ⟨_, _, before, after, first, act, last⟩ := advances
  have kept : k'.fs.image i = after i := last.same_of_typed (by rw [regular]; decide)
  rw [kept] at regular ⊢
  by_cases free : (before i).type = 0
  · left
    refine ⟨?_, act.fresh free regular⟩
    rcases first i with same | ⟨used, _, gone, _⟩
    · rw [← same]
      exact free
    · rw [act.gone used gone] at regular
      exact absurd regular (by decide)
  · right
    have same := first.same_of_typed free
    have kind : (before i).type = T_FILE := by
      rw [← regular, Act.keepsTypes ⟨True, True⟩ k p call before after act i free]
    obtain ⟨_, _, wrote⟩ := act.regular first kind
    rw [← same]
    exact ⟨kind, wrote⟩

end

section

variable {R : Rules} {k : Kernel} {p : ProcSlot} {f : FileSlot} {addr : Nat → UInt8} {i : Nat}

theorem argfd_fileOf {stops : Stop → Prop} (fd : Option Int) : Holds (argfd p fd) k
    (fun hit k' => k' = k ∧ hit.map Prod.snd = k.fileOf p fd) stops := by
  rw [argfd, holds_bind, holds_proc]
  cases fd with
  | none => exact .pure ⟨rfl, rfl⟩
  | some fd =>
    dsimp only [Kernel.fileOf]
    split
    · refine .pure ⟨rfl, ?_⟩
      rw [map_map]
      exact map_id'
    · exact .pure ⟨rfl, rfl⟩

theorem holds_filewrite_other {n : Int} (o : (k.ftable f).type ≠ .inode) :
    Holds (filewrite f addr n) k fun _ k' => k' = k := by
  rw [filewrite, holds_bind, holds_get, holds_ite, holds_pure]
  refine ⟨fun _ => rfl, fun _ => ?_⟩
  split
  · exact .pure rfl
  · exact absurd ‹_› o
  · exact holds_panic.mpr trivial

theorem splice_zero (contents : List UInt8) (off : Nat) (src : Nat → UInt8) : splice contents off 0 src = contents := by
  simp [splice]

theorem FileWrote.contents {im im' : Nat → Node} {j off off' n : Nat}
    (wrote : FileWrote im j off addr off' n im') (regular : (im i).type = T_FILE) :
    (im' i).contents = if j = i then splice (im i).contents off (off' - off) addr
      else (im i).contents := by
  by_cases here : j = i
  · subst here
    rw [if_pos rfl]
    cases wrote with
    | kept same =>
      rw [(same regular).2, Nat.sub_self, splice_zero]
    | taken _ inside fits moved =>
      rw [moved, Nat.add_sub_cancel_left, update_self, contents_write inside]
      simp only [MAXFILE, NDIRECT, NINDIRECT, BSIZE] at fits
      omega
  · rw [if_neg here]
    cases wrote with
    | kept => rfl
    | taken => rw [update_of_ne (Ne.symm here)]

theorem Running.holds_sysWrite_flat {files : Nat → List UInt8} (run : Running R k)
    (fd : Option Int) (buffer : Nat → UInt8) (n : Option Int)
    (large : ∀ f, k.Describes p fd f → (k.ftable f).type = .inode →
      (k.fs.nodeAt (k.ftable f).ip).type ≠ T_SFILE) (regular : (k.fs.image i).type = T_FILE)
    (same : (k.fs.image i).contents = files i) : Holds (sysWrite p fd buffer n) k fun _ k' => (k'.fs.image i).contents =
      Call.flat k k' (p, .sysWrite fd buffer n) files i := by
  have used : (k.fs.image i).type ≠ 0 := by
    rw [regular]
    decide
  simp only [Call.flat, if_neg used]
  have idle : files i = match k.fileOf p fd with
      | some f =>
        if (k.ftable f).type = .inode ∧ (k.fs.icache (k.ftable f).ip).inum = i then
          splice (files i) (k.ftable f).off.toNat ((k.ftable f).off.toNat - (k.ftable f).off.toNat) buffer
        else files i
      | none => files i := by
    split
    · rw [Nat.sub_self, splice_zero, ite_self]
    · rfl
  rw [sysWrite, holds_bind]
  have named : Holds (argfd p fd) k fun hit k' => k' = k ∧ hit.map Prod.snd = k.fileOf p fd := argfd_fileOf fd
  refine (named.total (argfd_spec fd)).conseq ?_
  rintro hit k1 ⟨⟨rfl, hit⟩, _, known⟩
  split
  · rename_i d f n
    have described : k1.fileOf p fd = some f := hit.symm
    rw [described]
    by_cases type : (k1.ftable f).type = .inode
    · refine (run.holds_filewrite (large f ⟨d, known d f rfl⟩)).conseq ?_
      rintro r k' ⟨_, count, _, _, wrote⟩
      rw [wrote.contents regular, same]
      simp only [type, true_and]
    · refine (holds_filewrite_other type).conseq fun r k' unchanged => ?_
      rw [unchanged, same]
      simp only [type, false_and, if_false]
  · rw [holds_pure, same]
    exact idle

end

section

variable {R : Rules} {fs fs' : Fs} {ip : Slot} {stops : Stop → Prop} {k k' : Kernel} {p : ProcSlot} {f : FileSlot}

variable {post : Unit → Fs → Prop} {n : BitVec 32}

theorem Took.holds_iunlock (took : Took fs fs' ip) (held : 0 < (fs.icache ip).ref)
    (next : ∀ after, after.locks = fs.locks → post () after) : Holds (iunlock ip) fs' post stops := by
  simp only [iunlock, holds_bind, holds_inode, holds_ite, holds_panic, holds_modifyInode]
  constructor
  · rintro (free | unreferenced)
    · rw [took.locked] at free
      cases free
    · rw [took.ref] at unreferenced
      omega
  · intro _
    refine next _ (funext fun o => ?_)
    by_cases here : o = ip
    · subst here
      rw [Fs.locks, setInode_same, Fs.locks, took.unlocked]
      rfl
    · rw [Fs.locks, setInode_ne _ _ _ here, took.other o here]
      rfl

section

variable (run : Running R k)

include run

theorem Running.holds_read (type : (k.ftable f).type = .inode)
    (readable : (k.ftable f).readable = true) (free : k.fs.locks (k.ftable f).ip = 0) :
    Holds (fileread f n) k (fun r k' => k'.fs.locks = k.fs.locks ∧ ((k.fs.nodeAt (k.ftable f).ip).type = T_FILE →
        r = (k.fs.nodeAt (k.ftable f).ip).delivered (k.ftable f).off n)) stops := by
  have uses := run.tidy.uses type
  have held := referenced_of_file (run.surplus _) uses
  simp only [fileread, holds_bind, holds_get, readable, type, Bool.true_eq_false, if_false]
  rw [holds_onFs]
  have valid := (run.files f _ uses).valid
  refine run.sound.holds_ilock held (absurd free) (fun untyped => ?_) fun fs1 took sound1 => ?_
  · rw [(run.sound.image_slot held valid).1] at untyped
    exact absurd untyped (run.sound.loaded _ held valid).2
  rw [holds_onFs]
  have referenced1 : 0 < (fs1.icache (k.ftable f).ip).ref := took.ref ▸ held
  refine (sound1.holds_readi_delivered referenced1 took.loaded).conseq ?_
  rintro r fs2 ⟨rfl, res⟩
  rw [holds_modifyFile, holds_onFs]
  refine took.holds_iunlock held fun fs3 locks => .pure ⟨locks, fun regular => ?_⟩
  have node : fs2.nodeAt (k.ftable f).ip = k.fs.nodeAt (k.ftable f).ip := took.nodeAt
  rw [← node]
  exact res (node ▸ regular)

theorem Running.fileread_locks (free : ∀ ip, k.fs.locks ip = 0) :
    Holds (fileread f n) k fun _ k' => k'.fs.locks = k.fs.locks := by
  by_cases read : (k.ftable f).type = .inode ∧ (k.ftable f).readable = true
  · exact (run.holds_read read.1 read.2 (free _)).conseq fun _ _ done => done.1
  · rw [fileread, holds_bind, holds_get, holds_ite, holds_pure]
    refine ⟨fun _ => rfl, fun readable => ?_⟩
    split
    · exact .pure rfl
    · exact absurd ⟨‹_›, by simpa using readable⟩ read
    · exact holds_panic.mpr trivial

theorem Running.spared {addr : Nat → UInt8} {n : Int} (large : (k.ftable f).type = .inode →
      (k.fs.nodeAt (k.ftable f).ip).type ≠ T_SFILE) : LocksSpared k f addr n := by
  intro _ type small _ _
  have uses := run.tidy.uses type
  have valid := (run.files f _ uses).valid
  have im := (run.sound.image_slot (referenced_of_file (run.surplus _) uses) valid).1
  rw [Fs.node, if_pos valid] at small
  refine absurd ?_ (large type)
  rw [nodeAt, im, small]

theorem Running.locks {step : ProcSlot × Call} (free : ∀ ip, k.fs.locks ip = 0)
    (leaves : Call.LeavesSmall k step) (next : Call.Next k step k') : k'.fs.locks = k.fs.locks := by
  obtain ⟨p, call⟩ := step
  obtain ⟨_, ran⟩ := next
  have paired : ∀ {α : Type} {prog : KernelM α}, FollowsFrom kernelProtocol .rest prog k (fun _ => .rest) →
      (prog k).state? = some k' → k'.fs.locks = k.fs.locks := by
    intro α prog followed returned
    obtain ⟨val, done⟩ := Outcome.of_state? returned
    exact (Paired.of_follows followed _ _ done).2.1
  cases call with
  | sysOpen path omode => exact paired (followsFrom_sysOpen path omode run.tidy) ran
  | sysClose fd => exact paired (follows_sysClose fd k) ran
  | sysDup fd => exact paired (follows_sysDup fd k) ran
  | sysRead fd n =>
    have spec : Holds (sysRead p fd n) k fun _ k' => k'.fs.locks = k.fs.locks := by
      rw [sysRead]
      refine (argfd_spec fd).bind ?_
      rintro hit k1 ⟨rfl, _⟩
      split
      · exact run.fileread_locks free
      · exact .pure rfl
    exact spec.final ran
  | sysWrite fd buffer n =>
    refine paired ((follows_argfd fd k).bind (argfd_spec fd) fun hit k1 done => ?_) ran
    obtain ⟨rfl, known⟩ := done
    split
    · rename_i d f n _
      exact followsFrom_filewrite run.tidy (run.spared (leaves f ⟨d, known d f rfl⟩))
    · exact Follows.pure _ _
  | sysLink old new => exact paired (follows_sysLink old new k) ran
  | sysUnlink path => exact paired (follows_sysUnlink path k) ran
  | sysMkdir path => exact paired (follows_makeNode path _ _ _ k) ran
  | sysMknod path major minor => exact paired (follows_sysMknod path major minor k) ran
  | mkSmallFilesdir path => exact paired (follows_makeNode path _ _ _ k) ran
  | sysChdir path => exact paired (follows_sysChdir path k) ran
  | sysExec path memory => exact paired (follows_sysExec path memory k) ran
  | fork kstack uvm => exact paired (follows_fork kstack uvm k) ran
  | exit => exact paired (follows_exit k) ran

end

end

variable {k k' : Kernel} {step : ProcSlot × Call} {files : Nat → List UInt8} {i : Nat}

theorem Call.flat_other (used : (k.fs.image i).type ≠ 0) (o : ¬∃ fd buffer n, step.2 = .sysWrite fd buffer n) :
    Call.flat k k' step files i = files i := by
  rw [Call.flat, if_neg used]
  split
  · rename_i wrote
    exact absurd ⟨_, _, _, wrote⟩ o
  · rfl

structure Mirrored (st : Kernel × (Nat → List UInt8)) : Prop where
  running : Running ⟨True, True⟩ st.1
  free : ∀ sl, st.1.fs.locks sl = 0
  contents : ∀ i, (st.1.fs.image i).type = T_FILE → (st.1.fs.image i).contents = st.2 i

theorem Mirrored.contents_next (mirrored : Mirrored (k, files)) (leaves : Call.LeavesSmall k step)
    (next : Call.Next k step k') (regular : (k'.fs.image i).type = T_FILE) :
    (k'.fs.image i).contents = Call.flat k k' step files i := by
  have advances := mirrored.running.advances trivial leaves next
  rcases advances.contents regular with ⟨free, empty⟩ | ⟨pre, rest⟩
  · rw [empty, Call.flat, if_pos free]
  · have same := mirrored.contents i pre
    obtain ⟨p, call⟩ := step
    by_cases write : ∃ fd buffer n, call = .sysWrite fd buffer n
    · obtain ⟨fd, buffer, n, rfl⟩ := write
      exact (mirrored.running.holds_sysWrite_flat fd buffer n leaves pre same).final next.2
    · have used : (k.fs.image i).type ≠ 0 := by
        rw [pre]
        decide
      rw [Call.flat_other used write, rest.resolve_left write]
      exact same

theorem Mirrored.next {s s' : Kernel × (Nat → List UInt8)} (mirrored : Mirrored s)
    (leaves : Call.LeavesSmall s.1 step) (next : Call.FlatNext s step s') : Mirrored s' := by
  obtain ⟨ran, files⟩ := next
  refine ⟨(mirrored.running.advances trivial leaves ran).running, fun ip => ?_, fun i regular => ?_⟩
  · rw [mirrored.running.locks mirrored.free leaves ran]
    exact mirrored.free ip
  · rw [files]
    exact mirrored.contents_next leaves ran regular

def deliver (file : List UInt8) (off n : BitVec 32) : Option (List UInt8) :=
  if file.length < off.toNat ∨ off + n < off then none
  else some ((file.drop off.toNat).take n.toNat)

theorem Node.delivered_eq (node : Node) (off n : BitVec 32) : node.delivered off n = deliver node.contents off n := by
  simp only [delivered, deliver, length_contents, BitVec.lt_def]

theorem Mirrored.holds_sysRead {p : ProcSlot} {fd : Option Int} {f : FileSlot} {n : BitVec 32}
    {stops : Stop → Prop} (mirrored : Mirrored (k, files)) (described : k.fileOf p fd = some f)
    (type : (k.ftable f).type = .inode) (readable : (k.ftable f).readable = true)
    (regular : (k.fs.nodeAt (k.ftable f).ip).type = T_FILE) : Holds (sysRead p fd (some n)) k (fun r _ =>
      r = deliver (files (k.fs.icache (k.ftable f).ip).inum) (k.ftable f).off n) stops := by
  rw [sysRead]
  refine (argfd_fileOf fd).bind ?_
  rintro hit k1 ⟨rfl, known⟩
  rw [described] at known
  obtain ⟨⟨d, g⟩, rfl, rfl⟩ := map_eq_some_iff.mp known
  refine (mirrored.running.holds_read type readable (mirrored.free _)).conseq fun r _ done => ?_
  rw [done.2 regular, delivered_eq, nodeAt, mirrored.contents _ regular]

/-- A regular file lives as long as it has a name or is open, in every run in which small files are not
written, and holds what the flat file holds. -/
theorem regular_file_lifetime {start : Kernel} (running : Running ⟨True, True⟩ start)
    (free : ∀ sl, start.fs.locks sl = 0) {kern : Kernel} {files : Nat → List UInt8}
    (reached : Reachable Call.FlatNext (fun st step => Call.LeavesSmall st.1 step)
      (start, fun i => (start.fs.image i).contents) (kern, files)) :
    (∀ i, (kern.fs.image i).type = T_FILE → (kern.fs.image i).nlink ≠ 0 ∨ kern.OpenOn i) ∧
    (∀ p fd f n, kern.fileOf p fd = some f → (kern.ftable f).type = .inode →
      (kern.ftable f).readable = true → (kern.fs.nodeAt (kern.ftable f).ip).type = T_FILE →
      Holds (sysRead p fd (some n)) kern (fun r _ =>
        r = deliver (files (kern.fs.icache (kern.ftable f).ip).inum) (kern.ftable f).off n)
        fun _ => False) ∧ ∀ step kern', Call.LeavesSmall kern step → Call.Next kern step kern' →
      ∀ i, (kern.fs.image i).type = T_FILE → ∃ links, Call.Links kern step.1 i step.2 links ∧
        (kern'.fs.image i = .gone ↔ links = 0 ∧ ¬kern'.OpenOn i) ∧
        (kern'.fs.image i ≠ .gone → (kern'.fs.image i).type = T_FILE ∧ (kern'.fs.image i).nlink = links ∧
          (kern'.fs.image i).contents = Call.flat kern kern' step files i) := by
  have mirrored : Mirrored (kern, files) :=
    reached.invariant Mirrored ⟨running, free, fun _ _ => rfl⟩
      fun _ _ _ mirrored leaves next => mirrored.next leaves next
  refine ⟨fun i regular => mirrored.running.linked_or_open regular,
    fun p fd f n described type readable regular => mirrored.holds_sysRead described type readable regular,
    fun step kern' leaves next i regular => ?_⟩
  obtain ⟨links, counted, freed, kept⟩ := (mirrored.running.advances trivial leaves next).fate regular
  refine ⟨links, counted, freed, fun alive => ?_⟩
  obtain ⟨kind, nlink⟩ := kept alive
  exact ⟨kind, nlink, mirrored.contents_next leaves next kind⟩

instance (kern : Kernel) (step : ProcSlot × Call) : Decidable (Call.LeavesSmall kern step) :=
  match step with
  | (p, .sysWrite fd _ _) => inferInstanceAs (Decidable (∀ f, (∃ d : Fd, fd = some (d.val : Int) ∧
      (kern.ptable p).ofile d = some f) → (kern.ftable f).type = .inode →
      (kern.fs.nodeAt (kern.ftable f).ip).type ≠ T_SFILE))
  | (_, .sysOpen _ _) | (_, .sysClose _) | (_, .sysDup _) | (_, .sysRead _ _) | (_, .sysLink _ _)
  | (_, .sysUnlink _) | (_, .sysMkdir _) | (_, .sysMknod _ _ _) | (_, .mkSmallFilesdir _)
  | (_, .sysChdir _) | (_, .sysExec _ _) | (_, .fork _ _) | (_, .exit) => isTrue trivial

theorem regular_file_lifetime_unlinked : ∃ kern : Kernel, ∃ files : Nat → List UInt8,
    (kern.fs.image 2).type = T_FILE ∧ (kern.fs.image 2).nlink = 0 ∧ kern.OpenOn 2 ∧
    files 2 = [97, 97, 97] ∧ ∃ kern', Call.Next kern (0, .sysClose (some 0)) kern' ∧
      ¬kern'.OpenOn 2 ∧ kern'.fs.image 2 = .gone := by
  have checked : (replay (fun (st : Kernel × (Nat → List UInt8)) (step : ProcSlot × Call) =>
        (step.2.run step.1 st.1).map fun kern' => (kern', Call.flat st.1 kern' step st.2))
      (fun st step => (st.1.ptable step.1).live ∧ Call.LeavesSmall st.1 step)
      [(0, .sysOpen (some [102]) (some (BitVec.ofNat 32 (O_CREATE + O_RDWR)))),
        (0, .sysWrite (some 0) (fun _ => 97) (some 3)), (0, .sysUnlink (some [102]))]
      (mkfsKernel, fun i => (mkfsKernel.fs.image i).contents)).any (fun st =>
        (st.1.fs.image 2).type == T_FILE && (st.1.fs.image 2).nlink == 0 &&
        st.2 2 == [97, 97, 97] && (st.1.ptable 0).live &&
        ((Call.sysClose (some 0)).run 0 st.1).any fun kern' => !decide (kern'.OpenOn 2)) = true := by
    decide +kernel
  have taken : ∀ (st : Kernel × (Nat → List UInt8)) (step : ProcSlot × Call) st',
      (st.1.ptable step.1).live ∧ Call.LeavesSmall st.1 step →
      ((step.2.run step.1 st.1).map fun kern' => (kern', Call.flat st.1 kern' step st.2)) =
        some st' → Call.FlatNext st step st' := by
    intro st step st' allowed ran
    obtain ⟨kern', done, rfl⟩ := Option.map_eq_some_iff.mp ran
    exact ⟨⟨allowed.1, done⟩, rfl⟩
  obtain ⟨⟨kern, files⟩, reached, passed⟩ := Reachable.of_replay taken checked
  simp only [Bool.and_eq_true, beq_iff_eq, decide_eq_true_eq] at passed
  obtain ⟨⟨⟨⟨regular, unlinked⟩, written⟩, live⟩, closes⟩ := passed
  obtain ⟨kern', ran, closed⟩ := (Option.any_eq_true _ _).mp closes
  have shut : ¬kern'.OpenOn 2 := by simpa using closed
  have free : ∀ sl, mkfsKernel.fs.locks sl = 0 := by decide
  obtain ⟨alive, _, fate⟩ := regular_file_lifetime (mkfsKernel_running ⟨True, True⟩) free
    (reached.widen fun _ _ allowed => allowed.2)
  have next : Call.Next kern (0, .sysClose (some 0)) kern' := ⟨live, ran⟩
  have leaves : Call.LeavesSmall kern (0, .sysClose (some 0)) := trivial
  obtain ⟨links, counted, freed, _⟩ := fate _ kern' leaves next 2 regular
  have none : links = 0 := by
    cases counted
    exact unlinked
  exact ⟨kern, files, regular, unlinked, (alive 2 regular).resolve_left (not_not.mpr unlinked), written,
    kern', next, shut, freed.mpr ⟨none, shut⟩⟩

/-- With no file open, removing the last name frees the inode at once. -/
theorem unlink_frees_closed_file : ∃ kern kern' : Kernel, Reachable Call.Next (fun _ _ => True) mkfsKernel kern ∧
    Call.Next kern (0, .sysUnlink (some [102])) kern' ∧
    (kern.fs.image 2).type = T_FILE ∧ (kern.fs.image 2).size = 3 ∧ ¬kern.OpenOn 2 ∧
    (kern'.fs.image 2).type = 0 ∧ (kern'.fs.image 2).size = 0 := by
  have checked : (replayCalls [(0, .sysOpen (some [102]) (some (BitVec.ofNat 32 (O_CREATE + O_RDWR)))),
        (0, .sysWrite (some 0) (fun _ => 97) (some 3)), (0, .sysClose (some 0))] mkfsKernel).any
      (fun kern => (kern.fs.image 2).type == T_FILE && (kern.fs.image 2).size == 3 &&
        !decide (kern.OpenOn 2) && (kern.ptable 0).live && ((Call.sysUnlink (some [102])).run 0 kern).any fun kern' =>
          (kern'.fs.image 2).type == 0 && (kern'.fs.image 2).size == 0) = true := by
    decide +kernel
  obtain ⟨kern, reached, passed⟩ := calls_of_replay checked
  simp only [Bool.and_eq_true, beq_iff_eq, decide_eq_true_eq, Bool.not_eq_true'] at passed
  obtain ⟨⟨⟨⟨regular, size⟩, shut⟩, live⟩, unlinks⟩ := passed
  obtain ⟨kern', ran, freed⟩ := (Option.any_eq_true _ _).mp unlinks
  rw [Bool.and_eq_true, beq_iff_eq, beq_iff_eq] at freed
  exact ⟨kern, kern', reached, ⟨live, ran⟩, regular, size, of_decide_eq_false shut, freed⟩

end Xv6
