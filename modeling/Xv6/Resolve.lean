import Xv6.Mkfs
import Mathlib.Data.List.DropRight

/-! Path resolution. `skipelem` goes through the components of a path, and `namex` returns the inode
that they lead to; of the references it takes on the way it keeps the one to that inode. -/

namespace Xv6

open Exec List Option Prod Fs

/-- The names that `skipelem` gives when it is called until it returns 0. -/
def elements (path : List UInt8) : List (List UInt8) :=
  match _found : skipelem path with
  | none => []
  | some (name, rest) => name :: elements rest
termination_by path.length
decreasing_by exact skipelem_shorter ‹_›

/-- What stands between the slashes of a path, each part cut to the length of a name. -/
def components (path : List UInt8) : List (List UInt8) :=
  ((path.splitOn slash).filter (· ≠ [])).map (List.take DIRSIZ)

section

variable {path word name rest : List UInt8}

@[simp] theorem components_nil : components [] = [] := rfl

@[simp] theorem components_slash : components (slash :: path) = components path := by
  simp [components, splitOn, splitOnP_cons_eq_if_modifyHead]

theorem components_dropWhile : components (path.dropWhile (· == slash)) = components path := by
  induction path with
  | nil => rfl
  | cons byte path ih =>
    by_cases eq : byte = slash
    · rw [eq, components_slash, ← ih]
      simp
    · simp [eq]

theorem components_append (plain : ∀ byte ∈ word, (byte == slash) = false) (more : word ≠ [])
    (rest : List UInt8) : components (word ++ slash :: rest) = word.take DIRSIZ :: components rest ∧
      components word = [word.take DIRSIZ] := by
  simp [components, splitOn, splitOnP_append_cons_of_forall_mem plain, splitOnP_eq_singleton plain, more]

theorem components_of_skipelem (hit : skipelem path = some (name, rest)) :
    components path = name :: components rest := by
  rw [← components_dropWhile]
  simp only [skipelem] at hit
  split at hit
  · cases hit
  rename_i more
  have head : ∀ byte ∈ (path.dropWhile (· == slash)).head?, (byte == slash) = false := fun byte fst => by
    simpa [mem_def.mp fst] using List.head?_dropWhile_not (· == slash) path
  generalize path.dropWhile (· == slash) = path at hit more head
  obtain ⟨rfl, rfl⟩ := Prod.mk.inj (Option.some.inj hit)
  have plain : ∀ byte ∈ path.takeWhile (· != slash), (byte == slash) = false := fun byte mem => by
    simpa using mem_takeWhile_imp mem
  have some : path.takeWhile (· != slash) ≠ [] := by
    cases path with
    | nil => simp at more
    | cons byte path => simp [show byte ≠ slash by simpa using head byte rfl]
  conv_lhs => rw [← takeWhile_append_dropWhile (p := (· != slash)) (l := path)]
  rw [components_dropWhile]
  cases after : path.dropWhile (· != slash) with
  | nil => simp [(components_append plain some []).2]
  | cons byte rest =>
    have eq : byte = slash := by
      have stopped := List.head?_dropWhile_not (· != slash) path
      simpa [after] using stopped
    rw [eq, (components_append plain some rest).1, components_slash]

theorem elements_of_none (none : skipelem path = none) : elements path = [] := by
  rw [elements]
  split
  · rfl
  · simp_all

theorem elements_of_some (hit : skipelem path = some (name, rest)) : elements path = name :: elements rest := by
  rw [elements]
  split <;> simp_all

theorem elements_rest (hit : skipelem path = some (name, rest)) : elements rest = [] ↔ rest.isEmpty = true := by
  have trimmed : rest.dropWhile (· == slash) = rest := by
    simp only [skipelem] at hit
    split at hit
    · cases hit
    · obtain ⟨_, rfl⟩ := Prod.mk.inj (Option.some.inj hit)
      exact dropWhile_idempotent _ _
  cases element : skipelem rest with
  | none => simpa [elements_of_none element, skipelem, trimmed] using element
  | some step =>
    have more : rest ≠ [] := by
      rintro rfl
      cases element
    simp [elements_of_some element, more]

theorem elements_eq_components : elements path = components path := by
  fun_induction elements path with
  | case1 path none =>
    rw [← components_dropWhile]
    simp only [skipelem] at none
    split at none
    · rename_i nothing
      rw [isEmpty_iff.mp nothing, components_nil]
    · cases none
  | case2 path name rest hit ih => rw [components_of_skipelem hit, ih]

end

/-- The inode of the first entry with the name. -/
def Node.lookup (node : Node) (name : List UInt8) : Option Nat := do
  let k ← (List.range (node.size.toNat / deSize + 1)).find? fun k =>
    (node.slot k).any fun entry => entry.1 == cname name
  return (← node.slot k).2

def resolve (im : Nat → Node) : Nat → List (List UInt8) → Option Nat
  | i, [] => some i
  | i, name :: rest =>
    if IsDir (im i).type then (im i).lookup name >>= fun j => resolve im j rest else none

def resolveParent (im : Nat → Node) (i : Nat) (names : List (List UInt8)) : Option (Nat × List UInt8) := do
  let name ← names.getLast?
  let d ← resolve im i names.dropLast
  if IsDir (im d).type then some (d, name) else none

def reached (im : Nat → Node) (parent : Bool) : Nat → List (List UInt8) → Option (Nat × List UInt8)
  | i, [] => if parent then none else some (i, [])
  | i, name :: rest =>
    if IsDir (im i).type then
      if parent ∧ rest = [] then some (i, name)
      else (im i).lookup name >>= fun j => reached im parent j rest
    else none

section

variable {img : Nat → Node} {node : Node} {name : List UInt8} {k i : Nat}

theorem reached_false (i : Nat) (names : List (List UInt8)) :
    reached img false i names = (resolve img i names).map (·, []) := by
  induction names generalizing i with
  | nil => rfl
  | cons name rest ih =>
    simp only [reached, resolve, ih]
    split <;> cases (img i).lookup name <;> simp

theorem reached_true (i : Nat) (names : List (List UInt8)) : reached img true i names = resolveParent img i names := by
  induction names generalizing i with
  | nil => rfl
  | cons name rest ih =>
    cases rest with
    | nil => simp [reached, resolveParent, resolve]
    | cons snd rest =>
      rw [reached]
      simp only [ih, resolveParent, getLast?_cons_cons, dropLast_cons_cons, resolve]
      split <;> cases (img i).lookup name <;> simp

theorem Node.Finds.lookup (finds : node.Finds name k i) : node.lookup name = some i := by
  have low : k < node.size.toNat / deSize + 1 := by
    by_contra outside
    have beyond : node.slot k = none := Node.slot_beyond (by simp only [deSize] at *; omega)
    simp [finds.1] at beyond
  have first : (range (node.size.toNat / deSize + 1)).find? (fun k =>
      (node.slot k).any fun ent => ent.1 == cname name) = some k := by
    rw [List.find?_range_eq_some]
    refine ⟨by simp [finds.1], mem_range.mpr low, fun j less => ?_⟩
    cases here : node.slot j with
    | none => rfl
    | some ent =>
      simp only [any_some, Bool.not_eq_true', beq_eq_false_iff_ne]
      exact fun eq => finds.2 j less ent.2 (by rw [here, ← eq])
  simp [Node.lookup, first, finds.1]

theorem Node.lookup_none (absent : ∀ k i, node.slot k ≠ some (cname name, i)) : node.lookup name = none := by
  have none : (range (node.size.toNat / deSize + 1)).find? (fun k =>
      (node.slot k).any fun ent => ent.1 == cname name) = none := by
    rw [List.find?_eq_none]
    intro k _
    cases here : node.slot k with
    | none => simp
    | some ent =>
      simp only [any_some, beq_iff_eq]
      exact fun eq => absent k ent.2 (by rw [here, ← eq])
  simp [Node.lookup, none]

end

/-- Every entry of a directory names an allocated inode with links, and a directory has no part of an
entry at its end. -/
structure WholeTree (im : Nat → Node) : Prop where
  root : (im ROOTINO).type ≠ 0 ∧ (im ROOTINO).nlink ≠ 0
  entry : ∀ d k name i, IsDir (im d).type → (im d).slot k = some (name, i) → (im i).type ≠ 0 ∧ (im i).nlink ≠ 0
  whole : ∀ d, IsDir (im d).type → deSize ∣ (im d).size.toNat

def Spacious (refs : Slot → Int) : Prop := ∃ a b, a ≠ b ∧ refs a = 0 ∧ refs b = 0

/-- A lookup panics only for want of cache entries, and waits only for another's inode. -/
def Hindered (fs : Fs) (reason : Stop) : Prop :=
  reason = noInodes ∧ ¬Spacious fs.refs ∨ reason = .blocked ∧ ∃ slot, (fs.icache slot).locked ≠ 0

/-- What a lookup leaves behind: one more reference to what it returns, and no other difference. -/
structure Resolved (start : Fs) (found : Option Slot) (fs : Fs) : Prop where
  refs : fs.refs = start.refs + claim found
  inum : ∀ slot, 0 < start.refs slot → (fs.icache slot).inum = (start.icache slot).inum
  image : fs.image = start.image

def Arrives (start : Fs) (target : Option (Nat × List UInt8)) (found : Option (Slot × List UInt8)) (fs : Fs) : Prop :=
  (found.map fun entry => ((fs.icache entry.1).inum, entry.2)) = target ∧ Resolved start (found.map Prod.fst) fs

section

variable {R : Rules} {s0 fs fs1 fs2 : Fs} {ip slot cwd : Slot} {stops : Stop → Prop}

def Fs.Frees (fs : Fs) (slot : Slot) : Prop :=
  (fs.icache slot).ref = 1 ∧ (fs.icache slot).valid ∧ (fs.icache slot).dinode.nlink = 0

structure Drops (R : Rules) (fs fs' : Fs) (slot : Slot) : Prop where
  put : Put fs fs' slot
  active : Active R fs'
  image : fs'.image = fs.image

theorem Active.holds_unlockDrop (act : Active R fs) (refd : 0 < (fs.icache slot).ref)
    (valid : (fs.icache slot).valid = true) (held : (fs.icache slot).locked ≠ 0) (kept : ¬fs.Frees slot) :
    Holds (iunlockput slot) fs (fun _ fs' => Drops R fs fs' slot ∧ (fs'.icache slot).locked = 0) stops := by
  have spec : Holds (iunlockput slot) fs fun _ fs' => Put fs fs' slot ∧ Active R fs' :=
    act.holds_iunlockput valid trivial trivial fun _ put act' => ⟨put, act'⟩
  have returns : Holds (iunlockput slot) fs (fun _ fs' => fs'.image = fs.image ∧
      (fs'.icache slot).locked = 0) stops := by
    simp only [iunlockput, iunlock, holds_bind, holds_inode, holds_ite, holds_panic, holds_modifyInode]
    refine ⟨by omega, fun _ => holds_iput_kept ?_ ⟨image_congr rfl rfl, by simp⟩⟩
    simpa [Fs.Frees] using kept
  exact (spec.total returns).conseq fun _ _ done => ⟨⟨done.1.1, done.1.2, done.2.1⟩, done.2.2⟩

theorem Spacious.free (spacious : Spacious s0.refs) (refs : fs.refs = s0.refs + Pi.single ip 1) :
    ¬∀ slot, (fs.icache slot).ref ≠ 0 := by
  obtain ⟨a, b, ne, freeA, freeB⟩ := spacious
  intro full
  have only : ∀ slot, s0.refs slot = 0 → slot = ip := by
    intro slot free
    by_contra o
    refine full slot ((congrFun refs slot).trans ?_)
    simp [free, o]
  exact ne ((only a freeA).trans (only b freeB).symm)

theorem Walking.gone (walk : Walking R s0.refs s0 fs1 ip) (im : fs1.image = s0.image)
    (drops : Drops R fs1 fs2 ip) : Resolved s0 none fs2 where
  refs := (walk.put drops.put).2.trans (add_zero _).symm
  inum := (walk.put drops.put).1.inum
  image := drops.image.trans im

/-- A walk that has come to `ip` in a tree where nothing it lets go is freed. -/
structure Resolving (R : Rules) (stops : Stop → Prop) (start fs : Fs) (ip : Slot) : Prop extends
    Walking R start.refs start fs ip where
  image : fs.image = start.image
  idle : ∀ slot, (fs.icache slot).locked ≠ 0 → stops .blocked
  typed : (start.image (fs.icache ip).inum).type ≠ 0
  linked : 0 < start.refs ip ∨ (start.image (fs.icache ip).inum).nlink ≠ 0

def Looked (R : Rules) (node : Node) (name : List UInt8) (fs fs' : Fs) : Option (Slot × Nat) → Prop
  | none => fs' = fs ∧ node.lookup name = none
  | some (next, _) => ∃ k j, node.Finds name k j ∧ Got fs fs' next j ∧ Active R fs'

section

variable (res : Resolving R stops s0 fs ip)

include res

theorem Resolving.kept {extra : Slot → Int} (sound : Sound R fs1) (nonneg : ∀ slot, 0 ≤ extra slot)
    (refs : fs1.refs = s0.refs + Pi.single ip 1 + extra) (im : fs1.image = s0.image)
    (number : (fs1.icache ip).inum = (fs.icache ip).inum) : ¬fs1.Frees ip := by
  rintro ⟨last, valid, cut⟩
  have held : 0 < (fs1.icache ip).ref := by omega
  rw [← (sound.image_slot held valid).2.1, number, im] at cut
  have more := congrFun refs ip
  simp only [Pi.add_apply, Pi.single_eq_same] at more
  have := nonneg ip
  have counted : fs1.refs ip = 1 := last
  exact res.linked.elim (by omega) (absurd cut)

theorem Resolving.holds_drop : Holds (iput ip) fs (fun _ => Resolved s0 none) stops := by
  have kept : ¬fs.Frees ip := res.kept res.active.toSound (fun _ => le_rfl)
    (res.refs.trans (add_zero _).symm) res.image rfl
  have spec : Holds (iput ip) fs fun _ fs' => Put fs fs' ip ∧ Active R fs' :=
    res.active.holds_iput res.referenced trivial fun _ put act => ⟨put, act⟩
  have returns : Holds (iput ip) fs (fun _ fs' => fs'.image = fs.image) stops :=
    holds_iput_kept kept (image_congr rfl rfl)
  exact (spec.total returns).conseq fun _ _ done =>
    res.gone res.image ⟨done.1.1, done.1.2, done.2⟩

section

variable (took : Took fs fs1 ip) (sound : Sound R fs1)

include took sound

theorem Resolving.held : Walking R s0.refs s0 fs1 ip ∧ fs1.image = s0.image ∧
    fs1.nodeAt ip = s0.image (fs.icache ip).inum ∧ (fs1.icache ip).locked ≠ 0 := by
  have im : fs1.image = s0.image := took.image.trans res.image
  refine ⟨res.touched took.toTouched sound, im, ?_, by simp [took.locked]⟩
  rw [nodeAt, took.inum, im]

theorem Resolving.holds_leave : Holds (iunlockput ip) fs1 (fun _ => Resolved s0 none) stops := by
  obtain ⟨walk, im, _, held⟩ := res.held took sound
  have kept : ¬fs1.Frees ip := res.kept sound (fun _ => le_rfl) (walk.refs.trans (add_zero _).symm) im took.inum
  exact (walk.active.holds_unlockDrop walk.referenced took.loaded held kept).conseq
    fun _ fs2 done => walk.gone im done.1

theorem Resolving.holds_stop : Holds (iunlock ip) fs1 (fun _ fs2 =>
    (fs2.icache ip).inum = (fs.icache ip).inum ∧ Resolved s0 (some ip) fs2) stops := by
  obtain ⟨walk, im, _, held⟩ := res.held took sound
  have spec : Holds (iunlock ip) fs1 fun _ fs2 => Touched fs1 fs2 ip :=
    sound.holds_iunlock trivial fun _ touched _ _ => touched
  have returns : Holds (iunlock ip) fs1 (fun _ _ => True) stops := by
    have refd := walk.referenced
    simp only [iunlock, holds_bind, holds_inode, holds_ite, holds_panic, holds_modifyInode]
    exact ⟨by omega, fun _ => trivial⟩
  refine (spec.total returns).conseq fun _ fs2 done =>
    ⟨done.1.inum.trans took.inum, done.1.refs.trans walk.refs, fun slot counted => ?_, ?_⟩
  · exact ((done.1.same slot).2.1).trans (walk.fades.inum slot counted)
  · exact done.1.image.trans im

theorem Resolving.holds_dirlookup (tree : WholeTree s0.image)
    (room : stops noInodes ∨ Spacious s0.refs) (dir : IsDir (s0.image (fs.icache ip).inum).type)
    (name : List UInt8) : Holds (dirlookup ip name) fs1 (fun hit fs2 =>
      (∀ slot, (fs2.icache slot).locked = (fs1.icache slot).locked) ∧
        Looked R (s0.image (fs.icache ip).inum) name fs1 fs2 hit) stops := by
  obtain ⟨walk, _, node, _⟩ := res.held took sound
  have hit : Holds (dirlookup ip name) fs1 (fun hit fs2 =>
      Looked R (s0.image (fs.icache ip).inum) name fs1 fs2 hit) stops := by
    refine walk.active.holds_dirlookup walk.referenced took.loaded (node ▸ dir)
      (fun full => ?_) (fun short => ?_) (fun absent => ?_) fun k j next fs2 finds got act => ?_
    · exact room.resolve_right fun spacious => spacious.free walk.refs full
    · exact absurd (tree.whole _ dir) (node ▸ short)
    · exact ⟨rfl, Node.lookup_none (node ▸ absent)⟩
    · exact ⟨k, j, node ▸ finds, got, act⟩
  exact ((dirlookup_refs fs1 name).total hit).conseq fun _ _ done =>
    ⟨fun slot => congrArg fst (congrFun done.1.2.1 slot), done.2⟩

theorem Resolving.holds_pass {next : Slot} {j : Nat} (got : Got fs1 fs2 next j)
    (act : Active R fs2) (locks : ∀ slot, (fs2.icache slot).locked = (fs1.icache slot).locked)
    (ty : (s0.image j).type ≠ 0) (linked : (s0.image j).nlink ≠ 0) :
    Holds (iunlockput ip) fs2 (fun _ fs3 => Resolving R stops s0 fs3 next ∧ (fs3.icache next).inum = j) stops := by
  obtain ⟨walk, im, _, held⟩ := res.held took sound
  have refs : fs2.refs = s0.refs + Pi.single ip 1 + Pi.single next 1 := by
    rw [got.refs, walk.refs]
  have refd := pos_of_base got.refs (single_nonneg next) ip walk.referenced
  have kept : ¬fs2.Frees ip := res.kept act.toSound (single_nonneg next) refs
    (got.image.trans im) ((got.fades.inum ip walk.referenced).trans took.inum)
  refine (act.holds_unlockDrop refd (got.fades.valid ip walk.referenced took.loaded)
    (by rwa [locks]) kept).conseq fun _ fs3 done => ?_
  obtain ⟨drops, unlocked⟩ := done
  obtain ⟨walk3, num⟩ := walk.next got drops.put drops.active
  refine ⟨⟨walk3, drops.image.trans (got.image.trans im), fun slot ran => ?_, num ▸ ty, .inr (num ▸ linked)⟩, num⟩
  by_cases eq : slot = ip
  · exact absurd (eq ▸ unlocked) ran
  · rw [drops.put.other slot eq, locks, took.other slot eq] at ran
    exact res.idle slot ran

end

end

theorem Resolving.holds_namexFrom (tree : WholeTree s0.image)
    (room : stops noInodes ∨ Spacious s0.refs) (up : Bool) (fuel : Nat) (fs : Fs) (ip : Slot)
    (path : List UInt8) (enough : path.length < fuel) (res : Resolving R stops s0 fs ip) :
    Holds (namexFrom up fuel ip path) fs
      (Arrives s0 (reached s0.image up (fs.icache ip).inum (elements path))) stops := by
  induction fuel generalizing fs ip path with
  | zero => omega
  | succ fuel ih =>
    rw [namexFrom]
    cases element : skipelem path with
    | none =>
      rw [elements_of_none element, reached]
      cases up with
      | false =>
        rw [if_neg (by decide), holds_pure]
        exact ⟨rfl, res.refs, res.fades.inum, res.image⟩
      | true =>
        simp only [if_pos, holds_bind]
        exact res.holds_drop.conseq fun _ fs1 done => .pure ⟨rfl, done⟩
    | some step =>
      obtain ⟨name, rest⟩ := step
      have shorter := skipelem_shorter element
      rw [elements_of_some element, reached]
      simp only [holds_bind]
      refine res.active.toSound.holds_ilock res.referenced (res.idle ip)
        (fun free => absurd (res.image ▸ free) res.typed) fun fs1 took sound => ?_
      obtain ⟨walk, _, node, _⟩ := res.held took sound
      have leaves := res.holds_leave took sound
      have type : (fs1.icache ip).dinode.type = (s0.image (fs.icache ip).inum).type := by
        rw [← (sound.image_slot walk.referenced took.loaded).1, ← node, nodeAt]
      rw [holds_inode, holds_ite, not_isDir_iff, type]
      refine ⟨fun o => ?_, fun dir => ?_⟩
      · rw [holds_bind, if_neg o]
        exact leaves.conseq fun _ fs2 done => .pure ⟨rfl, done⟩
      rw [not_not] at dir
      have ends : up = true ∧ elements rest = [] ↔ up = true ∧ rest.isEmpty = true :=
        and_congr_right fun _ => elements_rest element
      rw [if_pos dir, holds_ite]
      refine ⟨fun final => ?_, fun more => ?_⟩
      · rw [if_pos (ends.mpr final)]
        refine (res.holds_stop took sound).bind fun _ fs2 done => .pure ⟨?_, done.2⟩
        simp [done.1]
      rw [if_neg (mt ends.mp more)]
      refine (res.holds_dirlookup took sound tree room dir name).bind ?_
      rintro (_ | ⟨next, _⟩) fs2 ⟨locks, looked⟩
      · obtain ⟨rfl, missing⟩ := looked
        rw [holds_bind, missing]
        exact leaves.conseq fun _ fs2 done => .pure ⟨rfl, done⟩
      · obtain ⟨k, j, finds, got, act⟩ := looked
        obtain ⟨ty, linked⟩ := tree.entry _ k _ j dir finds.1
        rw [holds_bind, finds.lookup]
        refine (res.holds_pass took sound got act locks ty linked).conseq fun _ fs3 done => ?_
        have later := ih fs3 next rest (by omega) done.1
        rwa [done.2] at later

theorem Active.holds_namex_resolved (act : Active R fs) (tree : WholeTree fs.image)
    (held : 0 < (fs.icache cwd).ref) (ty : (fs.nodeAt cwd).type ≠ 0) (up : Bool)
    (path : List UInt8) : Holds (namex cwd path up) fs
      (Arrives fs (reached fs.image up (fs.origin cwd path) (elements path))) (Hindered fs) := by
  have started : Holds (namexStart cwd path) fs (fun ip fs1 => Walking R fs.refs fs fs1 ip ∧
      (fs1.icache ip).inum = fs.origin cwd path ∧ fs1.image = fs.image) (Hindered fs) :=
    act.holds_namexStart held (fun full => .inl ⟨rfl, fun ⟨a, _, _, free, _⟩ => full a free⟩)
      fun ip fs1 walking origin im => ⟨walking, origin, im⟩
  have grip : Keeps Fs.grip (namexStart cwd path) := by
    refine .ite (grip_iget _ _) fun fs => ?_
    rw [idup, holds_bind, holds_modifyInode, holds_pure]
    exact grip_setInode rfl rfl
  rw [namex]
  refine ((grip fs).total started).bind ?_
  rintro ip fs1 ⟨locks, walking, origin, im⟩
  rw [← origin]
  have room : Hindered fs noInodes ∨ Spacious fs.refs :=
    (em (Spacious fs.refs)).symm.imp_left fun crowded => .inl ⟨rfl, crowded⟩
  refine Resolving.holds_namexFrom tree room up _ fs1 ip path (by omega) ⟨walking, im, fun slot ran => ?_, ?_, ?_⟩
  · have eq : (fs1.icache slot).locked = (fs.icache slot).locked :=
      congrArg fst (congrFun locks slot)
    exact .inr ⟨rfl, slot, eq ▸ ran⟩
  · rw [origin, Fs.origin]
    split
    · exact tree.root.1
    · exact ty
  · rw [origin]
    by_cases absolute : path.head? = some slash
    · rw [Fs.origin, if_pos absolute]
      exact .inr tree.root.2
    · rw [Fs.origin, if_neg absolute, ← walking.fades.inum cwd held] at origin
      have live : 0 < (fs1.icache cwd).ref := pos_of_base walking.refs (single_nonneg ip) cwd held
      have eq := walking.active.unique ip cwd walking.referenced live origin
      exact .inl (eq ▸ held)

end

def begunFs : Fs := mkfsFs.setDisk { mkfsFs.disk with log := { mkfsFs.disk.log with outstanding := 1 } }

theorem begunFs_image : begunFs.image = mkfsKernel.fs.image := image_congr rfl rfl

theorem begunFs_tree : WholeTree begunFs.image := by
  rw [begunFs_image]
  refine ⟨?_, fun d k name i dir here => ?_, fun d dir => ?_⟩
  · rw [mkfsKernel_image]
    decide
  · obtain rfl := mkfsKernel_typed (IsDir.blockType dir).ne_zero
    rw [mkfsKernel_image] at here
    rw [(mkfsNode_entry here).1, mkfsKernel_image]
    decide
  · obtain rfl := mkfsKernel_typed (IsDir.blockType dir).ne_zero
    rw [mkfsKernel_image]
    decide

theorem begunFs_active : Active ⟨False, True⟩ begunFs :=
  ⟨(mkfs_sound ⟨False, True⟩).alike ⟨rfl, rfl, rfl, rfl⟩, by decide⟩

end Xv6
